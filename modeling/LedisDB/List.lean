import LedisDB.Collection

/-!
# Lists

The operations of `ledis/t_list.go`. A list is a meta entry with the sequence
numbers of its two ends, and one item entry per sequence number between them.
All of this arithmetic is on `int32` and wraps. `lSetMeta` writes nothing when
it is handed an impossible pair of ends: its `log.Fatalf` only logs.
-/

namespace LedisDB

def listHeadSeq : Int32 := 1
def listTailSeq : Int32 := 2
def listMinSeq : Int32 := 1000
def listMaxSeq : Int32 := 2147482648
def listInitialSeq : Int32 := listMinSeq + (listMaxSeq - listMinSeq) / 2

def MinInt32 (a b : Int32) : Int32 := if a > b then b else a
def MaxInt32 (a b : Int32) : Int32 := if a > b then a else b

/-- The values of `i` in `for i := a; i < b; i++`. -/
def int32Range (a b : Int32) : List Int32 :=
  (List.range (b.toInt - a.toInt).toNat).map (fun i => a + Int32.ofNat i)

def putMeta (headSeq tailSeq : Int32) : Bytes :=
  leBytes 4 headSeq.toUInt32.toNat ++ leBytes 4 tailSeq.toUInt32.toNat

def getMeta (v : Bytes) : Except Err (Int32 × Int32) :=
  if v.length < 8 then .error .panic
  else .ok ((UInt32.ofNat (leNat (v.take 4))).toInt32,
    (UInt32.ofNat (leNat ((v.drop 4).take 4))).toInt32)

variable (db : DB) (key : Bytes)

namespace DB

def lGetMeta (_ : DB) (ek : Bytes) : Op (Int32 × Int32 × Int32) := do
  let v ← Op.get ek
  match v with
  | none => pure (listInitialSeq, listInitialSeq, 0)
  | some v => do
    let m ← Op.lift (getMeta v)
    pure (m.1, m.2, m.2 - m.1 + 1)

def lSetMeta (_ : DB) (ek : Bytes) (headSeq tailSeq : Int32) : Op Int32 := do
  let size := tailSeq - headSeq + 1
  if size < 0 then pure size
  else if size = 0 then do
    Op.delete ek
    pure size
  else do
    Op.put ek (putMeta headSeq tailSeq)
    pure size

def lpushLoop (db : DB) (key : Bytes) (seq delta : Int32) : ℕ → List Bytes → Op Unit
  | _, [] => pure ()
  | i, arg :: args => do
    Op.put (db.lEncodeListKey key (seq + Int32.ofNat i * delta)) arg
    db.lpushLoop key seq delta (i + 1) args

def lpush (whereSeq : Int32) (args : List Bytes) : Op (Ret Int64) := do
  Op.lift (checkKeySize key)
  let metaKey := db.lEncodeMetaKey key
  let (headSeq, tailSeq, size) ← db.lGetMeta metaKey
  let pushCnt := args.length
  if pushCnt = 0 then pure (.done size.toInt64)
  else do
    let seq := if whereSeq = listTailSeq then tailSeq else headSeq
    let delta : Int32 := if whereSeq = listTailSeq then 1 else -1
    let seq := if size > 0 then seq + delta else seq
    db.lpushLoop key seq delta 0 args
    let seq := seq + Int32.ofNat (pushCnt - 1) * delta
    if seq ≤ listMinSeq ∨ seq ≥ listMaxSeq then Op.throw .errListSeq
    else do
      let headSeq := if whereSeq = listHeadSeq then seq else headSeq
      let tailSeq := if whereSeq = listHeadSeq then tailSeq else seq
      let _ ← db.lSetMeta metaKey headSeq tailSeq
      pure (.commit (size.toInt64 + Int64.ofNat pushCnt))

def LPush (args : List Bytes) : Op (Ret Int64) :=
  db.lpush key listHeadSeq args

def RPush (args : List Bytes) : Op (Ret Int64) :=
  db.lpush key listTailSeq args

def lpop (whereSeq : Int32) : Op (Ret (Option Bytes)) := do
  Op.lift (checkKeySize key)
  let metaKey := db.lEncodeMetaKey key
  let (headSeq, tailSeq, size) ← db.lGetMeta metaKey
  if size = 0 then pure (.done none)
  else do
    let seq := if whereSeq = listTailSeq then tailSeq else headSeq
    let itemKey := db.lEncodeListKey key seq
    let value ← Op.get itemKey
    let headSeq := if whereSeq = listHeadSeq then headSeq + 1 else headSeq
    let tailSeq := if whereSeq = listHeadSeq then tailSeq else tailSeq - 1
    Op.delete itemKey
    let size ← db.lSetMeta metaKey headSeq tailSeq
    let _ ← (if size = 0 then (db.rmExpire ListType key).ignoreErr 0 else pure 0)
    pure (.commit value)

def LPop : Op (Ret (Option Bytes)) := db.lpop key listHeadSeq

def RPop : Op (Ret (Option Bytes)) := db.lpop key listTailSeq

def lDelete : Op Int64 := do
  let mk := db.lEncodeMetaKey key
  let (headSeq, tailSeq, _) ← db.lGetMeta mk
  let startKey := db.lEncodeListKey key headSeq
  let stopKey := db.lEncodeListKey key tailSeq
  let es ← Op.range ⟨some startKey, some stopKey, RangeClose⟩ ⟨0, -1⟩ .forward
  Op.deleteAll (es.map Prod.fst)
  Op.delete mk
  pure (Int64.ofNat es.length)

def ltrim2 (startP stopP : Int64) : Op (Ret Unit) := do
  Op.lift (checkKeySize key)
  let start := startP.toInt32
  let stop := stopP.toInt32
  let ek := db.lEncodeMetaKey key
  let (headSeq, _, llen) ← db.lGetMeta ek
  let start := if start < 0 then llen + start else start
  let stop := if stop < 0 then llen + stop else stop
  if start ≥ llen ∨ start > stop then do
    let _ ← db.lDelete key
    let _ ← (db.rmExpire ListType key).ignoreErr 0
    pure (.commit ())
  else do
    let start := if start < 0 then 0 else start
    let stop := if stop ≥ llen then llen - 1 else stop
    Op.deleteAll ((int32Range 0 start).map (fun i => db.lEncodeListKey key (headSeq + i)))
    (if stop < llen - 1 then
      Op.deleteAll ((int32Range (stop + 1) llen).map (fun i => db.lEncodeListKey key (headSeq + i)))
    else pure ())
    let _ ← db.lSetMeta ek (headSeq + start) (headSeq + stop)
    pure (.commit ())

def LTrim (start stop : Int64) : Op (Ret Unit) := db.ltrim2 key start stop

/-- The deleting loop runs to `trimEndSeq` inclusive, so it never ends when that is
the largest sequence number. -/
def ltrim (trimSize whereSeq : Int32) : Op (Ret Int32) := do
  Op.lift (checkKeySize key)
  if trimSize = 0 then pure (.done 0)
  else do
    let metaKey := db.lEncodeMetaKey key
    let (headSeq, tailSeq, size) ← db.lGetMeta metaKey
    if size = 0 then pure (.done 0)
    else do
      let trimStartSeq := if whereSeq = listHeadSeq then headSeq
        else MaxInt32 (tailSeq - trimSize + 1) headSeq
      let trimEndSeq := if whereSeq = listHeadSeq then MinInt32 (headSeq + trimSize - 1) tailSeq
        else tailSeq
      let headSeq := if whereSeq = listHeadSeq then trimEndSeq + 1 else headSeq
      let tailSeq := if whereSeq = listHeadSeq then tailSeq else trimStartSeq - 1
      if trimEndSeq = Int32.maxValue then Op.throw .panic
      else do
        Op.deleteAll ((int32Range trimStartSeq (trimEndSeq + 1)).map (db.lEncodeListKey key))
        let size ← db.lSetMeta metaKey headSeq tailSeq
        let _ ← (if size = 0 then (db.rmExpire ListType key).ignoreErr 0 else pure 0)
        pure (.commit (trimEndSeq - trimStartSeq + 1))

def LTrimFront (trimSize : Int32) : Op (Ret Int32) :=
  db.ltrim key trimSize listHeadSeq

def LTrimBack (trimSize : Int32) : Op (Ret Int32) :=
  db.ltrim key trimSize listTailSeq

def LIndex (index : Int32) : Op (Option Bytes) := do
  Op.lift (checkKeySize key)
  let (headSeq, tailSeq, _) ← db.lGetMeta (db.lEncodeMetaKey key)
  let seq := if index ≥ 0 then headSeq + index else tailSeq + index + 1
  Op.find (db.lEncodeListKey key seq)

def LLen : Op Int64 := do
  Op.lift (checkKeySize key)
  let (_, _, size) ← db.lGetMeta (db.lEncodeMetaKey key)
  pure size.toInt64

def lExpireAt (w : Int64) : Op (Ret Int64) :=
  db.expireSized ListType key (db.LLen key) w

def LSet (index : Int32) (value : Bytes) : Op (Ret Unit) := do
  Op.lift (checkKeySize key)
  let (headSeq, tailSeq, _) ← db.lGetMeta (db.lEncodeMetaKey key)
  let seq := if index ≥ 0 then headSeq + index else tailSeq + index + 1
  if seq < headSeq ∨ seq > tailSeq then Op.throw .errListIndex
  else do
    Op.put (db.lEncodeListKey key seq) value
    pure (.commit ())

def LRange (start stop : Int32) : Op (List Bytes) := do
  Op.lift (checkKeySize key)
  let (headSeq, _, llen) ← db.lGetMeta (db.lEncodeMetaKey key)
  let start := if start < 0 then llen + start else start
  let stop := if stop < 0 then llen + stop else stop
  let start := if start < 0 then 0 else start
  if start > stop ∨ start ≥ llen then pure []
  else do
    let stop := if stop ≥ llen then llen - 1 else stop
    let limit := stop - start + 1
    let headSeq := headSeq + start
    let startKey := db.lEncodeListKey key headSeq
    let es ← Op.range ⟨some startKey, none, RangeClose⟩ ⟨0, limit.toInt⟩ .forward
    pure (es.map Prod.snd)

def LClear : Op (Ret Int64) := db.clear ListType db.lDelete key

def LMclear (keys : List Bytes) : Op (Ret Int64) := db.mclear ListType db.lDelete keys

def LExpire (duration : Int64) : Op (Ret Int64) :=
  expireDuration duration (db.lExpireAt key)

def LExpireAt (w : Int64) : Op (Ret Int64) :=
  expireDeadline w (db.lExpireAt key)

def LPersist : Op (Ret Int64) := db.persist ListType key

end DB

end LedisDB
