import Mathlib.Data.List.Sort
import LedisDB.OrderedMap
import LedisDB.Rpl.Table

/-!
# The file log store

`rpl/file_store.go`. The store is a directory of closed tables, the readers of
these tables in the order of their IDs and the writer of the table that is still
open. `load` is what runs when a store is opened on an existing directory.
-/

namespace LedisDB.Rpl

def defaultMaxLogFileSize : ℤ := 256 * 1024 * 1024

def maxLogFileSize : ℤ := 1024 * 1024 * 1024

def logFileSize (cfg : ℤ) : ℤ :=
  min (if cfg = 0 then defaultMaxLogFileSize else cfg) maxLogFileSize

theorem logFileSize_le (cfg : ℤ) : logFileSize cfg ≤ maxLogFileSize := min_le_right _ _

abbrev Dir := OrderedMap ℕ TableFiles

def Dir.files (dir : Dir) (index : ℕ) : TableFiles := (dir.get index).getD .missing

namespace TableReaders

def Less (a b : TableReader) : Bool := a.first < b.first

def checkNext : UInt64 → ℕ → List TableReader → Except Err Unit
  | _, _, [] => .ok ()
  | last, index, t :: ts =>
    if t.first ≤ last then .error .invalidTable
    else if t.index ≤ index then .error .invalidTable
    else checkNext t.last t.index ts

def check (ts : List TableReader) : Except Err (List TableReader) :=
  match ts.insertionSort (fun a b => !Less b a) with
  | [] => .ok []
  | t :: ts =>
    if t.first = 0 ∨ t.first > t.last then .error .invalidTable
    else do
      checkNext t.last t.index ts
      .ok (t :: ts)

def searchLoop (ts : List TableReader) (id : UInt64) : ℕ → ℤ → ℤ → Option TableReader
  | 0, _, _ => none
  | fuel + 1, i, j =>
    if i ≤ j then
      let h := i + (j - i) / 2
      match ts[h.toNat]? with
      | none => none
      | some t =>
        if t.first ≤ id ∧ id ≤ t.last then some t
        else if t.last < id then searchLoop ts id fuel (h + 1) j
        else searchLoop ts id fuel i (h - 1)
    else none

def Search (ts : List TableReader) (id : UInt64) : Option TableReader :=
  searchLoop ts id ts.length 0 (ts.length - 1)

end TableReaders

structure FileStore where
  dir : Dir
  rs : List TableReader
  w : TableWriter
  maxLogSize : ℤ
  useMmap : Bool

namespace FileStore

/-- The loop of `load` over the names of a directory: a table that cannot be read is left
out. The result are the readers and the files as they are after repairs. -/
def loadTables : List (ℕ × TableFiles) → Except Err (List TableReader × List (ℕ × TableFiles))
  | [] => .ok ([], [])
  | (index, files) :: rest =>
    if files.data = none then loadTables rest
    else match newTableReader index files with
      | .error .panic => .error .panic
      | .error _ => loadTables rest
      | .ok (r, files) => do
        let (rs, tables) ← loadTables rest
        .ok (r :: rs, (index, files) :: tables)

def load (dir : Dir) : Except Err (List TableReader × Dir) := do
  let (rs, tables) ← loadTables dir.entries
  let rs ← TableReaders.check rs
  .ok (rs, tables.foldl (fun dir e => dir.insert e.1 e.2) dir)

def new (cfg : ℤ) (useMmap : Bool) (dir : Dir) : Except Err FileStore := do
  let (rs, dir) ← load dir
  let index := match rs.getLast? with
    | some r => r.index + 1
    | none => 1
  .ok ⟨dir, rs, newTableWriter index (logFileSize cfg) useMmap, logFileSize cfg, useMmap⟩

def GetLog (s : FileStore) (id : UInt64) : Except Err Log :=
  match s.w.GetLog id with
  | .error .ErrLogNotFound =>
    match TableReaders.Search s.rs id with
    | none => .error .ErrLogNotFound
    | some t => t.GetLog (s.dir.files t.index) id
  | r => r

variable (s : FileStore)

def FirstID : UInt64 :=
  let id := match s.rs with
    | [] => 0
    | t :: _ => t.first
  if id > 0 then id else s.w.first

def LastID : UInt64 :=
  if s.w.last > 0 then s.w.last
  else match s.rs.getLast? with
    | some t => t.last
    | none => 0

/-- A flush that is due may succeed although the log is refused after it. -/
def storeLog (s : FileStore) (l : Log) : Except Err Unit × FileStore :=
  match s.w.storeLog (s.dir.files s.w.index) l with
  | .ok w => (.ok (), { s with w })
  | .error .errTableNeedFlush =>
    match s.w.Flush with
    | .error e => (.error e, { s with w := { s.w with closed := true } })
    | .ok (r, files, w) =>
      let s := { s with dir := s.dir.insert r.index files, rs := s.rs ++ [r], w }
      match w.storeLog (s.dir.files w.index) l with
      | .ok w => (.ok (), { s with w })
      | .error e => (.error e, s)
  | .error e => (.error e, s)

def purge (n : ℕ) : FileStore :=
  { s with
    dir := (s.rs.take n).foldl (fun dir r => dir.erase r.index) s.dir
    rs := s.rs.drop n }

def PurgeExpired (t : UInt32) : FileStore :=
  match s.rs.findIdx? (fun r => r.lastTime > t) with
  | none => s
  | some i => s.purge i

def purgeExcess (maxNum : ℕ) : FileStore := s.purge (s.rs.length - maxNum)

def Clear : FileStore :=
  ⟨.empty, [], newTableWriter 1 s.maxLogSize s.useMmap, s.maxLogSize, s.useMmap⟩

def Close : Dir :=
  match s.w.Flush with
  | .error _ => s.dir
  | .ok (r, files, _) => s.dir.insert r.index files

end FileStore

end LedisDB.Rpl
