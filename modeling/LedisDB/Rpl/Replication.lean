import LedisDB.Rpl.LevelStore
import LedisDB.Rpl.StoreContents

/-!
# The replication log

`rpl/rpl.go`. A log store and the ID up to which the logs are applied. The ID is
kept in memory and written to the commit log when this is forced, with every
update or now and then. `Log` is what a master does with a batch; the ID that it
gives out is the one after the commit ID, also where the store ends before it.
-/

namespace LedisDB.Rpl

open List

inductive LogStore
  | file (s : FileStore)
  | level (s : LevelStore)

inductive LogFiles
  | file (dir : Dir)
  | level (db : OrderedMap Bytes Bytes)

structure Config where
  Compression : Bool
  SyncLog : ℕ
  MaxLogFileSize : ℤ
  UseMmap : Bool
  deriving DecidableEq

namespace LogStore

def «open» (cfg : Config) : LogFiles → Except Err LogStore
  | .file dir => (FileStore.new cfg.MaxLogFileSize cfg.UseMmap dir).map .file
  | .level db => .ok (.level (.open db))

def FirstID : LogStore → UInt64 × LogStore
  | .file s => (s.FirstID, .file s)
  | .level s => (s.firstID.1, .level s.firstID.2)

def LastID : LogStore → UInt64 × LogStore
  | .file s => (s.LastID, .file s)
  | .level s => (s.lastID.1, .level s.lastID.2)

def GetLog (s : LogStore) (id : UInt64) : Except Err Log :=
  match s with
  | .file s => s.GetLog id
  | .level s => s.GetLog id

def StoreLog (s : LogStore) (l : Log) : Except Err Unit × LogStore :=
  match s with
  | .file s => ((s.storeLog l).1, .file (s.storeLog l).2)
  | .level s => ((s.StoreLog l).1, .level (s.StoreLog l).2)

def PurgeExpired (s : LogStore) (n now : Int64) : LogStore :=
  match s with
  | .file s => .file (s.PurgeExpired (now - n).toUInt64.toUInt32)
  | .level s => .level (s.PurgeExpired n now).2

def purgeExcess (s : LogStore) (maxNum : ℕ) : LogStore :=
  match s with
  | .file s => .file (s.purgeExcess maxNum)
  | .level s => .level s

def Clear : LogStore → LogStore
  | .file s => .file s.Clear
  | .level s => .level s.Clear

def Close : LogStore → LogFiles
  | .file s => .file s.Close
  | .level s => .level s.db

end LogStore

structure Snappy where
  Encode : Bytes → Bytes
  Decode : Bytes → Except Err Bytes
  Decode_Encode : ∀ b, Decode (Encode b) = .ok b

def Snappy.payload (sn : Snappy) (l : Log) : Except Err Bytes :=
  if l.Compression = 1 then sn.Decode l.Data else .ok l.Data

structure Replication where
  cfg : Config
  s : LogStore
  commitID : UInt64
  commitLog : Option UInt64

/-- An empty commit log stands for 0. -/
def NewReplication (cfg : Config) (files : LogFiles) (commitLog : Option UInt64) :
    Except Err Replication := do
  let s ← LogStore.open cfg files
  .ok ⟨cfg, s, commitLog.getD 0, commitLog⟩

namespace Replication

variable (r : Replication)

def updateCommitID (writeErr : Option Err) (id : UInt64) (force : Bool) :
    Except Err Unit × Replication :=
  if force then
    match writeErr with
    | some e => (.error e, r)
    | none => (.ok (), { r with commitID := id, commitLog := some id })
  else (.ok (), { r with commitID := id })

def UpdateCommitID (writeErr : Option Err) (id : UInt64) : Except Err Unit × Replication :=
  r.updateCommitID writeErr id (r.cfg.SyncLog == 2)

def compressed (sn : Snappy) (data : Bytes) : Bytes :=
  if r.cfg.Compression then sn.Encode data else data

def Log (r : Replication) (sn : Snappy) (now : UInt32) (data : Bytes) :
    Except Err Rpl.Log × Replication :=
  let data := r.compressed sn data
  let (lastID, s) := r.s.LastID
  let commitId := r.commitID
  if lastID > commitId then (.error .ErrCommitIDBehind, { r with s })
  else
    let lastID := if lastID < commitId then commitId else lastID
    let l : Rpl.Log := ⟨lastID + 1, now, if r.cfg.Compression then 1 else 0, data⟩
    match s.StoreLog l with
    | (.error e, s) => (.error e, { r with s })
    | (.ok _, s) => (.ok l, { r with s })

def StoreLog (r : Replication) (l : Rpl.Log) : Except Err Unit × Replication :=
  ((r.s.StoreLog l).1, { r with s := (r.s.StoreLog l).2 })

def FirstLogID : UInt64 × Replication :=
  (r.s.FirstID.1, { r with s := r.s.FirstID.2 })

def LastLogID : UInt64 × Replication :=
  (r.s.LastID.1, { r with s := r.s.LastID.2 })

def GetLog (r : Replication) (id : UInt64) : Except Err Rpl.Log := r.s.GetLog id

def NextNeedCommitLog : Except Err Rpl.Log × Replication :=
  let (id, s) := r.s.LastID
  if id ≤ r.commitID then (.error .ErrNoBehindLog, { r with s })
  else (s.GetLog (r.commitID + 1), { r with s })

def ClearWithCommitID (id : UInt64) : Replication :=
  (({ r with s := r.s.Clear } : Replication).updateCommitID none id true).2

def Clear : Replication := r.ClearWithCommitID 0

def PurgeExpired (r : Replication) (n now : Int64) : Replication :=
  { r with s := r.s.PurgeExpired n now }

def Close (r : Replication) : LogFiles × Option UInt64 :=
  (r.s.Close, (r.updateCommitID none r.commitID true).2.commitLog)

end Replication

namespace LogStore

def Holds : LogStore → List Log → Prop
  | .file s, ls => ∃ ts cur, s.Holds ts cur ∧ logsOf ts cur = ls
  | .level s, ls => s.Holds ls

variable {s : LogStore} {ls : List Log} {l : Log}

theorem Holds.contiguous (h : s.Holds ls) : Contiguous ls := by
  cases s with
  | file s =>
    obtain ⟨ts, cur, h, rfl⟩ := h
    exact h.contiguous
  | level s => exact LevelStore.Holds.contiguous h

theorem Holds.FirstID_eq (h : s.Holds ls) : s.FirstID.1 = firstID ls ∧ s.FirstID.2.Holds ls := by
  cases s with
  | file s =>
    obtain ⟨ts, cur, h, rfl⟩ := h
    exact ⟨h.FirstID_eq, ts, cur, h, rfl⟩
  | level s => exact LevelStore.Holds.firstID_eq h

theorem Holds.LastID_eq (h : s.Holds ls) : s.LastID.1 = lastID ls ∧ s.LastID.2.Holds ls := by
  cases s with
  | file s =>
    obtain ⟨ts, cur, h, rfl⟩ := h
    exact ⟨h.LastID_eq, ts, cur, h, rfl⟩
  | level s =>
    obtain ⟨heq, h', -⟩ := LevelStore.Holds.lastID_eq h
    exact ⟨heq, h'⟩

theorem Holds.GetLog_of_mem (h : s.Holds ls) (hl : l ∈ ls) : s.GetLog l.ID = .ok l.wire := by
  cases s with
  | file s =>
    obtain ⟨ts, cur, h, rfl⟩ := h
    exact h.GetLog_of_mem hl
  | level s => exact LevelStore.Holds.GetLog_of_mem h hl

theorem Holds.clear (h : s.Holds ls) : s.Clear.Holds [] := by
  cases s with
  | file s =>
    obtain ⟨ts, cur, h, rfl⟩ := h
    exact ⟨[], [], h.clear, rfl⟩
  | level s => exact LevelStore.Holds.Clear s

theorem logsOf_split (ts : List (ℕ × List Log)) (cur : List Log) (n : ℕ) :
    (ts.take n).flatMap Prod.snd ++ logsOf (ts.drop n) cur = logsOf ts cur := by
  unfold logsOf
  rw [← append_assoc, ← flatMap_append, take_append_drop]

theorem exists_table_of_last {ts : List (ℕ × List Log)} (hne : ∀ T ∈ ts, T.2 ≠ []) {x : Log}
    (hx : (ts.flatMap Prod.snd).getLast? = some x) : ∃ T ∈ ts, T.2.getLast? = some x := by
  induction ts using reverseRecOn with
  | nil => cases hx
  | append_singleton ts T _ =>
    refine ⟨T, by simp, ?_⟩
    rwa [flatMap_append, flatMap_singleton, getLast?_append_of_ne_nil _ (hne T (by simp))] at hx

theorem Holds.PurgeExpired_split (h : s.Holds ls) (n now : Int64) :
    ∃ xs ls', xs ++ ls' = ls ∧ (s.PurgeExpired n now).Holds ls' ∧
      ∀ x, xs.getLast? = some x → x.CreateTime ≤ (now - n).toUInt64.toUInt32 := by
  cases s with
  | file s =>
    change ∃ xs ls', _ ∧ (file (s.PurgeExpired _)).Holds ls' ∧ _
    unfold FileStore.PurgeExpired
    cases hfind : s.rs.findIdx? fun r => r.lastTime > (now - n).toUInt64.toUInt32 with
    | none => exact ⟨[], ls, rfl, h, by simp⟩
    | some i =>
      obtain ⟨ts, cur, h, rfl⟩ := h
      refine ⟨_, _, logsOf_split ts cur i, ⟨_, _, h.purge i, rfl⟩, fun x hx => ?_⟩
      obtain ⟨T, hT, hlast⟩ :=
        exists_table_of_last (fun T hT => h.nonempty T (mem_of_mem_take hT)) hx
      obtain ⟨j, hj, rfl⟩ := mem_iff_getElem.mp hT
      rw [length_take] at hj
      obtain ⟨hi, -, hbefore⟩ := findIdx?_eq_some_iff_getElem.mp hfind
      have hexpired := hbefore j (by omega)
      simp only [h.rs_eq, getElem_map] at hexpired
      rw [getElem_take] at hlast
      have htime : (readerOf ts[j]).lastTime = x.CreateTime := by
        rw [readerOf, lastLogTime, hlast]
        rfl
      rw [htime] at hexpired
      simpa using hexpired
  | level s =>
    obtain ⟨xs, ls', hsplit, h', hexpired⟩ := LevelStore.Holds.PurgeExpired h n now
    exact ⟨xs, ls', hsplit, h', fun x hx => hexpired x (mem_of_getLast? hx)⟩

theorem Holds.PurgeExpired (h : s.Holds ls) (n now : Int64) :
    ∃ ls', ls' <:+ ls ∧ (s.PurgeExpired n now).Holds ls' := by
  obtain ⟨xs, ls', rfl, h', -⟩ := h.PurgeExpired_split n now
  exact ⟨ls', suffix_append _ _, h'⟩

theorem file_purge {s : FileStore} (h : (LogStore.file s).Holds ls) (n : ℕ) :
    ∃ ls', ls' <:+ ls ∧ (LogStore.file (s.purge n)).Holds ls' := by
  obtain ⟨ts, cur, h, rfl⟩ := h
  exact ⟨_, ⟨_, logsOf_split ts cur n⟩, _, _, h.purge n, rfl⟩

theorem Holds.purgeExcess (h : s.Holds ls) (maxNum : ℕ) :
    ∃ ls', ls' <:+ ls ∧ (s.purgeExcess maxNum).Holds ls' := by
  cases s with
  | file s => exact file_purge h _
  | level s => exact ⟨ls, suffix_rfl, h⟩

theorem Holds.reopen (h : s.Holds ls) (hsmall : ∀ l ∈ ls, l.Data.length < 2 ^ 32) (cfg : Config) :
    ∃ s', LogStore.open cfg s.Close = .ok s' ∧ s'.Holds ls := by
  cases s with
  | file s =>
    obtain ⟨ts, cur, h, rfl⟩ := h
    obtain ⟨s', hnew, h', -⟩ := h.reopen hsmall cfg.MaxLogFileSize cfg.UseMmap
    refine ⟨.file s', ?_, _, _, h', FileStore.logsOf_closedTables _ ts cur⟩
    change (FileStore.new _ _ _).map file = _
    rw [hnew]
    rfl
  | level s => exact ⟨_, rfl, LevelStore.open_holds h.db_eq h.contiguous⟩

theorem open_empty (cfg : Config) {files : LogFiles}
    (hfiles : files = .file .empty ∨ files = .level .empty) :
    ∃ s, LogStore.open cfg files = .ok s ∧ s.Holds [] := by
  rcases hfiles with rfl | rfl
  · obtain ⟨s, hnew, h, -⟩ := @FileStore.new_closed [] .empty rfl (by simp) .nil (by simp)
      cfg.MaxLogFileSize cfg.UseMmap
    refine ⟨.file s, ?_, [], [], h, rfl⟩
    rw [LogStore.open, hnew]
    rfl
  · exact ⟨_, rfl, LevelStore.open_holds rfl .nil⟩

end LogStore

end LedisDB.Rpl
