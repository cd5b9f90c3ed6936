import LedisDB.Rpl.Log

/-!
# Log tables

`rpl/file_table.go` over the files of `rpl/file_io.go`. A table is a data file,
in which the records follow each other, and a meta file with their positions; a
writer that is closed ends the data file with `magic`. A reader checks this form
and otherwise rebuilds the meta file from the record heads it meets in the data
file. Writers have raw files or mapped ones, which are allocated ahead and cut
when they are closed.
-/

namespace LedisDB.Rpl

def magic : Bytes :=
  [0x1c, 0x1d, 0xb8, 0x88, 0xff, 0x9e, 0x45, 0x55, 0x40, 0xf0, 0x4c, 0xda, 0xe0, 0xce, 0x47, 0xde,
    0x65, 0x48, 0x71, 0x17]

structure TableFiles where
  data : Option Bytes
  metaFile : Option Bytes
  deriving DecidableEq

def TableFiles.missing : TableFiles := ⟨none, none⟩

/-- `rawWriteFile` or `mmapWriteFile`; of the latter the content is the mapped region. -/
structure WriteFile where
  mmap : Bool
  content : Bytes
  offset : ℕ
  deriving DecidableEq

namespace WriteFile

/-- `Truncate` of a file, which fills up with zeros when the file is shorter. -/
def truncate (content : Bytes) (size : ℕ) : Bytes :=
  content.take size ++ List.replicate (size - content.length) 0

/-- An existing file keeps its content. -/
def newRaw (file : Option Bytes) : WriteFile := ⟨false, file.getD [], 0⟩

/-- An existing file is cut or filled up; a region of no bytes cannot be mapped. The source has
then created the file, which a store opened later refuses: that opening again succeeds is
stated for sizes that can be mapped. -/
def newMmap (file : Option Bytes) (size : ℤ) : Except Err WriteFile :=
  let content := file.getD []
  let size := if size = 0 then (content.length : ℤ) else size
  if size ≤ 0 then .error .openFile else .ok ⟨true, truncate content size.toNat, 0⟩

def new (useMmap : Bool) (file : Option Bytes) (size : ℤ) : Except Err WriteFile :=
  if useMmap then newMmap file size else .ok (newRaw file)

def grow (content : Bytes) (offset : ℕ) (b : Bytes) : Bytes :=
  let extra : ℤ := b.length - (content.length - offset)
  if extra > 0 then truncate content (content.length + extra.toNat + content.length / 10)
  else content

def Write (f : WriteFile) (b : Bytes) : WriteFile :=
  let content := if f.mmap then grow f.content f.offset b else f.content
  { f with
    content := truncate content f.offset ++ b ++ content.drop (f.offset + b.length)
    offset := f.offset + b.length }

/-- What `ReadAt` reads from: of a mapped file only what was written. -/
def readable (f : WriteFile) : Bytes := if f.mmap then f.content.take f.offset else f.content

def Close (f : WriteFile) : Bytes := truncate f.content f.offset

end WriteFile

structure TableReader where
  index : ℕ
  first : UInt64
  last : UInt64
  lastTime : UInt32
  deriving DecidableEq

def getLogPos (metaFile : Bytes) (index : ℕ) : Except Err ℕ :=
  let buf := readAt metaFile (index * 4) 4
  if buf.length ≠ 4 then .error .eof else .ok (beNat buf)

def decodeLogHead (data : Bytes) (pos : ℕ) : Except Err (Log × ℕ) := do
  let (l, dataLen) ← Log.DecodeHeadAt data pos
  .ok (l, pos + LogHeadSize + dataLen)

def readLog (data metaFile : Bytes) (first id : UInt64) : Except Err Log := do
  let pos ← getLogPos metaFile (id - first).toNat
  let l ← Log.DecodeAt data pos
  if l.ID ≠ id then .error .invalidLogID else .ok l

def checkMeta (files : TableFiles) : Except Err Bytes :=
  match files.metaFile with
  | none => .error .noFile
  | some m => if m.length % 4 ≠ 0 ∨ m.length = 0 then .error .invalidTable else .ok m

def checkData (files : TableFiles) : Except Err Bytes :=
  match files.data with
  | none => .error .noFile
  | some d =>
    if d.length < magic.length then .error .invalidTable
    else if readAt d (d.length - magic.length) magic.length ≠ magic then .error .invalidTable
    else .ok d

namespace TableReader

/-- What `check` leaves in the reader when it fails stays there. -/
def check (files : TableFiles) (t : TableReader) : Except Err Unit × TableReader :=
  match checkMeta files with
  | .error e => (.error e, t)
  | .ok m =>
    match checkData files with
    | .error e => (.error e, t)
    | .ok d =>
      let firstLogPos := (getLogPos m 0).toOption.getD 0
      let lastLogPos := (getLogPos m (m.length / 4 - 1)).toOption.getD 0
      if firstLogPos ≠ 0 then (.error .invalidTable, t)
      else match decodeLogHead d firstLogPos with
        | .error e => (.error e, t)
        | .ok (l, _) =>
          let t := { t with first := l.ID }
          match decodeLogHead d lastLogPos with
          | .error e => (.error e, t)
          | .ok (l, n) =>
            if n + magic.length ≠ d.length then (.error .invalidTable, t)
            else
              let t := { t with last := l.ID, lastTime := l.CreateTime }
              if t.first > t.last then (.error .invalidTable, t)
              else if t.last - t.first + 1 ≠ UInt64.ofNat (m.length / 4) then
                (.error .invalidTable, t)
              else (.ok (), t)

/-- The loop of `repair`; `meta` is written along. In the branch of a log ID that does not
grow, the message is made with the name of a file that was closed and set to nil before. -/
def repairLoop (data : Bytes) :
    ℕ → TableReader → ℕ → WriteFile → Except Err (TableReader × ℕ × WriteFile)
  | 0, t, pos, metaFile => .ok (t, pos, metaFile)
  | fuel + 1, t, pos, metaFile =>
    match decodeLogHead data pos with
    | .error _ => .ok (t, pos, metaFile)
    | .ok (l, nextPos) =>
      if l.ID = 0 then .ok (t, pos, metaFile)
      else if t.last ≠ 0 ∧ l.ID ≤ t.last then .error .panic
      else
        repairLoop data fuel
          { t with
            first := if t.first = 0 then l.ID else t.first
            last := l.ID
            lastTime := l.CreateTime }
          nextPos (metaFile.Write (beBytes 4 (UInt32.ofNat pos).toNat))

def repair (files : TableFiles) (t : TableReader) : Except Err (TableReader × TableFiles) := do
  let data := WriteFile.newRaw files.data
  let (t, pos, metaFile) ← repairLoop data.content (data.content.length + 1)
    { t with first := 0, last := 0 } 0 (WriteFile.newRaw files.metaFile)
  let data := ({ data with offset := pos } : WriteFile).Write magic
  .ok (t, ⟨some data.Close, some metaFile.Close⟩)

def GetLog (t : TableReader) (files : TableFiles) (id : UInt64) : Except Err Log :=
  if id < t.first ∨ id > t.last then .error .ErrLogNotFound
  else match files.data, files.metaFile with
    | some data, some metaFile => readLog data metaFile t.first id
    | _, _ => .error .noFile

end TableReader

def newTableReader (index : ℕ) (files : TableFiles) : Except Err (TableReader × TableFiles) :=
  if index = 0 then .error .invalidTable
  else match TableReader.check files ⟨index, 0, 0, 0⟩ with
    | (.ok _, t) => .ok (t, files)
    | (.error _, t) => t.repair files

structure TableWriter where
  index : ℕ
  first : UInt64
  last : UInt64
  lastTime : UInt32
  maxLogSize : ℤ
  useMmap : Bool
  closed : Bool
  data : Option WriteFile
  metaFile : Option WriteFile
  deriving DecidableEq

def newTableWriter (index : ℕ) (maxLogSize : ℤ) (useMmap : Bool) : TableWriter :=
  ⟨index, 0, 0, 0, maxLogSize, useMmap, false, none, none⟩

def defaultLogNumInFile : ℤ := 1024 * 1024

namespace TableWriter

def needFlush (t : TableWriter) : Bool :=
  match t.data with
  | none => false
  | some d => t.maxLogSize < d.offset

def openIfNil (f : Option WriteFile) (file : Except Err WriteFile) : Except Err WriteFile :=
  match f with
  | some f => .ok f
  | none => file

/-- The data and the meta file of the writer, where `files` are the files that exist under
its index. The size of a mapped data file uses Go's division, which rounds to zero. -/
def openFile (files : TableFiles) (t : TableWriter) : Except Err (WriteFile × WriteFile) := do
  let data ← openIfNil t.data
    (WriteFile.new t.useMmap files.data (t.maxLogSize + t.maxLogSize.tdiv 10 + magic.length))
  let metaFile ← openIfNil t.metaFile
    (WriteFile.new t.useMmap files.metaFile (defaultLogNumInFile * 4))
  .ok (data, metaFile)

def storeLog (files : TableFiles) (t : TableWriter) (l : Log) : Except Err TableWriter :=
  if l.ID = 0 then .error .ErrStoreLogID
  else if t.closed then .error .closed
  else if t.last > 0 ∧ l.ID ≠ t.last + 1 then .error .ErrStoreLogID
  else if t.needFlush then .error .errTableNeedFlush
  else do
    let (data, metaFile) ← t.openFile files
    .ok { t with
      first := if t.first = 0 then l.ID else t.first
      last := l.ID
      lastTime := l.CreateTime
      data := some ((data.Write l.head).Write l.Data)
      metaFile := some (metaFile.Write (beBytes 4 (UInt32.ofNat data.offset).toNat)) }

def close (t : TableWriter) : TableFiles :=
  ⟨t.data.map fun d => (d.Write magic).Close, t.metaFile.map WriteFile.Close⟩

def Flush (t : TableWriter) : Except Err (TableReader × TableFiles × TableWriter) :=
  if t.data = none ∨ t.metaFile = none then .error .errNilHandler
  else .ok (⟨t.index, t.first, t.last, t.lastTime⟩, t.close,
    { t with first := 0, last := 0, index := t.index + 1, data := none, metaFile := none })

def GetLog (t : TableWriter) (id : UInt64) : Except Err Log :=
  if id < t.first ∨ id > t.last then .error .ErrLogNotFound
  else match t.data, t.metaFile with
    | some data, some metaFile => readLog data.readable metaFile.readable t.first id
    | _, _ => .error .panic

end TableWriter

end LedisDB.Rpl
