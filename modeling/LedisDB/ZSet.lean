import LedisDB.Collection

/-!
# Sorted sets

The operations of `ledis/t_zset.go` that write, and the reads they use. A zset
is kept three times: a member entry holding the score, a score entry whose key
sorts by score, and a size entry. Like the source, every operation reads the
store as it was before its own queue.
-/

namespace LedisDB

def MinScore : Int64 := Int64.minValue + 1
def MaxScore : Int64 := Int64.maxValue

def AggregateSum : UInt8 := 0
def AggregateMin : UInt8 := 1
def AggregateMax : UInt8 := 2

structure ScorePair where
  Score : Int64
  Member : Bytes
  deriving DecidableEq

def getAggregateFunc (aggregate : UInt8) : Option (Int64 → Int64 → Int64) :=
  if aggregate = AggregateSum then some (fun a b => a + b)
  else if aggregate = AggregateMax then some (fun a b => if a > b then a else b)
  else if aggregate = AggregateMin then some (fun a b => if a > b then b else a)
  else none

variable (db : DB) (key : Bytes)

namespace DB

def zIncrSize (delta : Int64) : Op Int64 :=
  db.incrSize (db.zEncodeSizeKey key) ZSetType key delta

def zSetItem (score : Int64) (member : Bytes) : Op Int64 := do
  if score ≤ MinScore ∨ score ≥ MaxScore then Op.throw .errScoreOverflow
  else do
    let ek := db.zEncodeSetKey key member
    let v ← Op.get ek
    let exist ← (match v with
      | none => pure (0 : Int64)
      | some v => do
        let s ← Op.lift (decodeInt64 (some v))
        Op.delete (db.zEncodeScoreKey key member s)
        pure 1)
    Op.put ek (PutInt64 score)
    Op.put (db.zEncodeScoreKey key member score) []
    pure exist

def zDelItem (key member : Bytes) (skipDelScore : Bool) : Op Int64 := do
  let ek := db.zEncodeSetKey key member
  let v ← Op.get ek
  match v with
  | none => pure 0
  | some v => do
    (if skipDelScore then pure ()
    else do
      let s ← Op.lift (decodeInt64 (some v))
      Op.delete (db.zEncodeScoreKey key member s))
    Op.delete ek
    pure 1

def zIterator (min max : Int64) (offset count : ℤ) (reverse : Bool) : Op (List (Bytes × Bytes)) :=
  let minKey := db.zEncodeStartScoreKey key min
  let maxKey := db.zEncodeStopScoreKey key max
  Op.range ⟨some minKey, some maxKey, RangeClose⟩ ⟨offset, count⟩
    (if reverse then .backward else .forward)

def zRemRangeLoop (db : DB) (key : Bytes) : List (Bytes × Bytes) → Int64 → Op Int64
  | [], num => pure num
  | e :: es, num =>
    match db.zDecodeScoreKey e.1 with
    | .error _ => db.zRemRangeLoop key es num
    | .ok (_, m, _) => do
      let n ← db.zDelItem key m true
      Op.delete e.1
      db.zRemRangeLoop key es (if n = 1 then num + 1 else num)

def zRemRange (min max : Int64) (offset count : ℤ) : Op Int64 := do
  if key.length > MaxKeySize then Op.throw .errKeySize
  else do
    let es ← db.zIterator key min max offset count false
    let num ← db.zRemRangeLoop key es 0
    let _ ← db.zIncrSize key (-num)
    pure num

def zDelete : Op Int64 :=
  (db.zRemRange key MinScore MaxScore 0 (-1)).ignoreErr 0

def ZCard : Op Int64 := readSize (db.zEncodeSizeKey key) key

def zExpireAt (w : Int64) : Op (Ret Int64) :=
  db.expireSized ZSetType key (db.ZCard key) w

def zAddLoop (db : DB) (key : Bytes) : List ScorePair → Int64 → Op Int64
  | [], num => pure num
  | arg :: args, num => do
    Op.lift (checkZSetKMSize key arg.Member)
    let n ← db.zSetItem key arg.Score arg.Member
    db.zAddLoop key args (if n = 0 then num + 1 else num)

def ZAdd (args : List ScorePair) : Op (Ret Int64) := do
  if args.length = 0 then pure (.done 0)
  else do
    let num ← db.zAddLoop key args 0
    let _ ← db.zIncrSize key num
    pure (.commit num)

def zRemLoop (db : DB) (key : Bytes) : List Bytes → Int64 → Op Int64
  | [], num => pure num
  | member :: members, num => do
    Op.lift (checkZSetKMSize key member)
    let n ← db.zDelItem key member false
    db.zRemLoop key members (if n = 1 then num + 1 else num)

def ZRem (members : List Bytes) : Op (Ret Int64) := do
  if members.length = 0 then pure (.done 0)
  else do
    let num ← db.zRemLoop key members 0
    let _ ← db.zIncrSize key (-num)
    pure (.commit num)

def ZIncrBy (delta : Int64) (member : Bytes) : Op (Ret Int64) := do
  Op.lift (checkZSetKMSize key member)
  let ek := db.zEncodeSetKey key member
  let v ← Op.get ek
  let oldScore ← (match v with
    | none => do
      let _ ← (db.zIncrSize key 1).ignoreErr 0
      pure (0 : Int64)
    | some v => Op.lift (decodeInt64 (some v)))
  let newScore := oldScore + delta
  if newScore ≥ MaxScore ∨ newScore ≤ MinScore then Op.throw .errScoreOverflow
  else do
    Op.put (db.zEncodeScoreKey key member newScore) []
    Op.put ek (PutInt64 newScore)
    (if v.isSome then Op.delete (db.zEncodeScoreKey key member oldScore) else pure ())
    pure (.commit newScore)

def zRangeLoop (db : DB) : List (Bytes × Bytes) → Op (List ScorePair)
  | [] => pure []
  | e :: es =>
    match db.zDecodeScoreKey e.1 with
    | .error _ => db.zRangeLoop es
    | .ok (_, m, s) => do
      let v ← db.zRangeLoop es
      pure (⟨s, m⟩ :: v)

def zRange (min max : Int64) (offset count : ℤ) (reverse : Bool) :
    Op (List ScorePair) := do
  if key.length > MaxKeySize then Op.throw .errKeySize
  else if offset < 0 then pure []
  else do
    let whole := offset = 0 ∧ count < 0
    let es ← db.zIterator key min max offset count (reverse && !decide whole)
    let v ← db.zRangeLoop es
    pure (if reverse = true ∧ whole then v.reverse else v)

/-- The offset `-1` asks for nothing. -/
def zParseLimit (start stop : Int64) : Op (ℤ × ℤ) := do
  if start < 0 ∨ stop < 0 then do
    let llen ← db.ZCard key
    let start := if start < 0 then llen + start else start
    let stop := if stop < 0 then llen + stop else stop
    let start := if start < 0 then 0 else start
    if start ≥ llen then pure (-1, 0)
    else if start > stop then pure (-1, 0)
    else pure (start.toInt, (stop - start + 1).toInt)
  else if start > stop then pure (-1, 0)
  else pure (start.toInt, (stop - start + 1).toInt)

def ZRangeGeneric (start stop : Int64) (reverse : Bool) :
    Op (List ScorePair) := do
  let (offset, count) ← db.zParseLimit key start stop
  db.zRange key MinScore MaxScore offset count reverse

def ZRange (start stop : Int64) : Op (List ScorePair) :=
  db.ZRangeGeneric key start stop false

def ZClear : Op (Ret Int64) := do
  let rmCnt ← db.zRemRange key MinScore MaxScore 0 (-1)
  pure (.commit rmCnt)

def zMclearLoop (db : DB) : List Bytes → Op Unit
  | [] => pure ()
  | key :: keys => do
    let _ ← db.zRemRange key MinScore MaxScore 0 (-1)
    db.zMclearLoop keys

def ZMclear (keys : List Bytes) : Op (Ret Int64) := do
  db.zMclearLoop keys
  pure (.commit (Int64.ofNat keys.length))

def ZRemRangeByRank (start stop : Int64) : Op (Ret Int64) := do
  let (offset, count) ← db.zParseLimit key start stop
  let rmCnt ← db.zRemRange key MinScore MaxScore offset count
  pure (.commit rmCnt)

def ZRemRangeByScore (min max : Int64) : Op (Ret Int64) := do
  let rmCnt ← db.zRemRange key min max 0 (-1)
  pure (.commit rmCnt)

/-- The bounds of `ZRemRangeByLex`; a nil bound is the end of the key's members. -/
def zLexRange (min max : Option Bytes) (rangeType : UInt8) : Range Bytes :=
  let min := match min with
    | none => db.zEncodeStartSetKey key
    | some min => db.zEncodeSetKey key min
  let max := match max with
    | none => db.zEncodeStopSetKey key
    | some max => db.zEncodeSetKey key max
  ⟨some min, some max, rangeType⟩

def ZRemRangeByLex (min max : Option Bytes) (rangeType : UInt8) :
    Op (Ret Int64) := do
  let es ← Op.range (db.zLexRange key min max rangeType) ⟨0, -1⟩ .forward
  Op.deleteAll (es.map Prod.fst)
  pure (.commit (Int64.ofNat es.length))

def ZExpire (duration : Int64) : Op (Ret Int64) :=
  expireDuration duration (db.zExpireAt key)

def ZExpireAt (w : Int64) : Op (Ret Int64) :=
  expireDeadline w (db.zExpireAt key)

def ZPersist : Op (Ret Int64) := db.persist ZSetType key

abbrev ScoreMap := OrderedMap Bytes Int64

def zUnionPairs (aggregateFunc : Int64 → Int64 → Int64) (weight : Int64) (destMap : ScoreMap)
    (pairs : List ScorePair) : ScoreMap :=
  pairs.foldl (fun d pair =>
    match d.get pair.Member with
    | none => d.insert pair.Member (pair.Score * weight)
    | some score => d.insert pair.Member (aggregateFunc score (pair.Score * weight))) destMap

def zUnionLoop (db : DB) (aggregateFunc : Int64 → Int64 → Int64) :
    ScoreMap → List (Bytes × Int64) → Op ScoreMap
  | destMap, [] => pure destMap
  | destMap, (key, weight) :: srcs => do
    let pairs ← db.ZRange key 0 (-1)
    db.zUnionLoop aggregateFunc (zUnionPairs aggregateFunc weight destMap pairs) srcs

def zInterPairs (aggregateFunc : Int64 → Int64 → Int64) (weight : Int64) (destMap : ScoreMap)
    (pairs : List ScorePair) : ScoreMap :=
  pairs.foldl (fun d pair =>
    match destMap.get pair.Member with
    | none => d
    | some score => d.insert pair.Member (aggregateFunc score (pair.Score * weight)))
    OrderedMap.empty

def zInterLoop (db : DB) (aggregateFunc : Int64 → Int64 → Int64) :
    ScoreMap → List (Bytes × Int64) → Op ScoreMap
  | destMap, [] => pure destMap
  | destMap, (key, weight) :: srcs => do
    let pairs ← db.ZRange key 0 (-1)
    db.zInterLoop aggregateFunc (zInterPairs aggregateFunc weight destMap pairs) srcs

def zStoreLoop (db : DB) (destKey : Bytes) (destMap : ScoreMap) : List Bytes → Op Unit
  | [] => pure ()
  | member :: members => do
    Op.lift (checkZSetKMSize destKey member)
    let _ ← db.zSetItem destKey ((destMap.get member).getD 0) member
    db.zStoreLoop destKey destMap members

/-- The common end of `ZUnionStore` and `ZInterStore`. -/
def zStore (destKey : Bytes) (destMap : ScoreMap) : Op (Ret Int64) := do
  let _ ← db.zDelete destKey
  let members ← Op.mapOrder destMap.keys
  db.zStoreLoop destKey destMap members
  let n := Int64.ofNat destMap.keys.length
  Op.put (db.zEncodeSizeKey destKey) (PutInt64 n)
  pure (.commit n)

/-- The argument checks of both store operations; nil weights are all one. -/
def zStoreArgs (srcKeys : List Bytes) (weights : Option (List Int64)) (aggregate : UInt8) :
    Except Err ((Int64 → Int64 → Int64) × List (Bytes × Int64)) :=
  match getAggregateFunc aggregate with
  | none => .error .errInvalidAggregate
  | some aggregateFunc =>
    if srcKeys.length < 1 then .error .errInvalidSrcKeyNum
    else match weights with
      | none => .ok (aggregateFunc, srcKeys.map (fun key => (key, 1)))
      | some weights =>
        if srcKeys.length ≠ weights.length then .error .errInvalidWeightNum
        else .ok (aggregateFunc, srcKeys.zip weights)

def ZUnionStore (destKey : Bytes) (srcKeys : List Bytes) (weights : Option (List Int64))
    (aggregate : UInt8) : Op (Ret Int64) := do
  let (aggregateFunc, srcs) ← Op.lift (zStoreArgs srcKeys weights aggregate)
  let destMap ← db.zUnionLoop aggregateFunc OrderedMap.empty srcs
  db.zStore destKey destMap

def ZInterStore (destKey : Bytes) (srcKeys : List Bytes) (weights : Option (List Int64))
    (aggregate : UInt8) : Op (Ret Int64) := do
  let (aggregateFunc, srcs) ← Op.lift (zStoreArgs srcKeys weights aggregate)
  match srcs with
  | [] => Op.throw .panic
  | (key, weight) :: srcs => do
    let pairs ← db.ZRange key 0 (-1)
    let destMap := pairs.foldl (fun (d : ScoreMap) pair =>
      d.insert pair.Member (pair.Score * weight)) OrderedMap.empty
    let destMap ← db.zInterLoop aggregateFunc destMap srcs
    db.zStore destKey destMap

end DB

end LedisDB
