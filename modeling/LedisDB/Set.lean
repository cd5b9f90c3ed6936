import LedisDB.Collection

/-!
# Sets

The operations of `ledis/t_set.go`. A set is one entry with an empty value per
member and a size entry. The store operations build the result in a Go map,
here the list of its keys without repetitions, and read it back in the order in
which Go happens to range over the map.
-/

namespace LedisDB

inductive SetOpt
  | UnionType
  | DiffType
  | InterType
  deriving DecidableEq

variable (db : DB) (key : Bytes)

namespace DB

def sDelete : Op Int64 :=
  deleteMembers (db.sEncodeSizeKey key) (db.sEncodeStartKey key) (db.sEncodeStopKey key)

def sIncrSize (delta : Int64) : Op Int64 :=
  db.incrSize (db.sEncodeSizeKey key) SetType key delta

def SCard : Op Int64 := readSize (db.sEncodeSizeKey key) key

def sExpireAt (w : Int64) : Op (Ret Int64) :=
  db.expireSized SetType key (db.SCard key) w

def SAdd (args : List Bytes) : Op (Ret Int64) := do
  let num ← addLoop (fun member _ => checkSetKMSize key member) (db.sEncodeSetKey key)
    (args.map fun arg => (arg, [])) 0
  let _ ← db.sIncrSize key num
  pure (.commit num)

def SRem (args : List Bytes) : Op (Ret Int64) := do
  let num ← remLoop (checkSetKMSize key) (db.sEncodeSetKey key) args 0
  let _ ← db.sIncrSize key (-num)
  pure (.commit num)

def sMembersLoop (db : DB) : List (Bytes × Bytes) → Op (List Bytes)
  | [] => pure []
  | e :: es => do
    let km ← Op.lift (db.sDecodeSetKey e.1)
    let vs ← db.sMembersLoop es
    pure (km.2 :: vs)

def SMembers : Op (List Bytes) := do
  Op.lift (checkKeySize key)
  let start := db.sEncodeStartKey key
  let stop := db.sEncodeStopKey key
  let es ← Op.range ⟨some start, some stop, RangeROpen⟩ ⟨0, -1⟩ .forward
  db.sMembersLoop es

def SKeyExists : Op Int64 := keyExists (db.sEncodeSizeKey key) key

def sUnionLoop (db : DB) : List Bytes → List Bytes → Op (List Bytes)
  | dstMap, [] => pure dstMap
  | dstMap, key :: keys => do
    Op.lift (checkKeySize key)
    let members ← db.SMembers key
    db.sUnionLoop (members.foldl (fun d m => d.insert m) dstMap) keys

def sUnionGeneric (keys : List Bytes) : Op (List Bytes) := do
  let dstMap ← db.sUnionLoop [] keys
  Op.mapOrder dstMap

def sDiffLoop (db : DB) : List Bytes → List Bytes → Op (List Bytes)
  | destMap, [] => Op.mapOrder destMap
  | destMap, k :: ks => do
    let members ← db.SMembers k
    let destMap := members.foldl (fun d m => d.erase m) destMap
    if destMap.length = 0 then pure []
    else db.sDiffLoop destMap ks

def sDiffGeneric (keys : List Bytes) : Op (List Bytes) := do
  match keys with
  | [] => Op.throw .panic
  | k :: ks => do
    let members ← db.SMembers k
    db.sDiffLoop (members.foldl (fun d m => d.insert m) []) ks

/-- The inner loop of `sInterGeneric`: the members of one more set that are still
selected. -/
def sInterSelect (destMap : List Bytes) : List Bytes → List Bytes → Op (List Bytes)
  | tempMap, [] => pure tempMap
  | tempMap, member :: members => do
    Op.lift (checkKeySize member)
    sInterSelect destMap (if member ∈ destMap then tempMap.insert member else tempMap) members

def sInterLoop (db : DB) : List Bytes → List Bytes → Op (List Bytes)
  | destMap, [] => Op.mapOrder destMap
  | destMap, key :: keys => do
    Op.lift (checkKeySize key)
    let members ← db.SMembers key
    if members.length = 0 then pure []
    else do
      let destMap ← sInterSelect destMap [] members
      if destMap.length = 0 then pure []
      else db.sInterLoop destMap keys

def sInterGeneric (keys : List Bytes) : Op (List Bytes) := do
  match keys with
  | [] => Op.throw .panic
  | k :: ks => do
    let members ← db.SMembers k
    db.sInterLoop (members.foldl (fun d m => d.insert m) []) ks

def sGeneric (optType : SetOpt) (keys : List Bytes) : Op (List Bytes) :=
  match optType with
  | .UnionType => db.sUnionGeneric keys
  | .DiffType => db.sDiffGeneric keys
  | .InterType => db.sInterGeneric keys

def SUnion (keys : List Bytes) : Op (List Bytes) := db.sUnionGeneric keys

def SDiff (keys : List Bytes) : Op (List Bytes) := db.sDiffGeneric keys

def SInter (keys : List Bytes) : Op (List Bytes) := db.sInterGeneric keys

def sStoreLoop (db : DB) (dstKey : Bytes) : List Bytes → Op Unit
  | [] => pure ()
  | m :: ms => do
    Op.lift (checkSetKMSize dstKey m)
    let ek := db.sEncodeSetKey dstKey m
    Op.put ek []
    db.sStoreLoop dstKey ms

def sStoreGeneric (dstKey : Bytes) (optType : SetOpt) (keys : List Bytes) :
    Op (Ret Int64) := do
  Op.lift (checkKeySize dstKey)
  let _ ← db.sDelete dstKey
  let v ← db.sGeneric optType keys
  db.sStoreLoop dstKey v
  let n := Int64.ofNat v.length
  Op.put (db.sEncodeSizeKey dstKey) (PutInt64 n)
  pure (.commit n)

def SUnionStore (dstKey : Bytes) (keys : List Bytes) : Op (Ret Int64) :=
  db.sStoreGeneric dstKey .UnionType keys

def SDiffStore (dstKey : Bytes) (keys : List Bytes) : Op (Ret Int64) :=
  db.sStoreGeneric dstKey .DiffType keys

def SInterStore (dstKey : Bytes) (keys : List Bytes) : Op (Ret Int64) :=
  db.sStoreGeneric dstKey .InterType keys

def SClear : Op (Ret Int64) := db.clear SetType db.sDelete key

def SMclear (keys : List Bytes) : Op (Ret Int64) := db.mclear SetType db.sDelete keys

def SExpire (duration : Int64) : Op (Ret Int64) :=
  expireDuration duration (db.sExpireAt key)

def SExpireAt (w : Int64) : Op (Ret Int64) :=
  expireDeadline w (db.sExpireAt key)

def SPersist : Op (Ret Int64) := db.persist SetType key

end DB

end LedisDB
