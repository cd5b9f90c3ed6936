import LedisDB.Collection

/-!
# Hashes

The operations of `ledis/t_hash.go`. A hash is one entry per field and a size
entry, which is counted up and down from what the store held before the call.
-/

namespace LedisDB

structure FVPair where
  Field : Bytes
  Value : Bytes
  deriving DecidableEq

variable (db : DB) (key : Bytes)

namespace DB

def hIncrSize (delta : Int64) : Op Int64 :=
  db.incrSize (db.hEncodeSizeKey key) HashType key delta

def hSetItem (key field value : Bytes) : Op Int64 := do
  let ek := db.hEncodeHashKey key field
  let v ← Op.get ek
  if v.isSome then do
    Op.put ek value
    pure 0
  else do
    let _ ← db.hIncrSize key 1
    Op.put ek value
    pure 1

def hDelete : Op Int64 :=
  deleteMembers (db.hEncodeSizeKey key) (db.hEncodeStartKey key) (db.hEncodeStopKey key)

def HLen : Op Int64 := readSize (db.hEncodeSizeKey key) key

def hExpireAt (w : Int64) : Op (Ret Int64) :=
  db.expireSized HashType key (db.HLen key) w

def HSet (key field value : Bytes) : Op (Ret Int64) := do
  Op.lift (checkHashKFSize key field)
  Op.lift (checkValueSize value)
  let n ← db.hSetItem key field value
  pure (.commit n)

def HGet (key field : Bytes) : Op (Option Bytes) := do
  Op.lift (checkHashKFSize key field)
  Op.get (db.hEncodeHashKey key field)

def HMset (args : List FVPair) : Op (Ret Unit) := do
  let num ← addLoop (fun field value => do checkHashKFSize key field; checkValueSize value)
    (db.hEncodeHashKey key) (args.map fun arg => (arg.Field, arg.Value)) 0
  let _ ← db.hIncrSize key num
  pure (.commit ())

def HDel (args : List Bytes) : Op (Ret Int64) := do
  let num ← remLoop (checkHashKFSize key) (db.hEncodeHashKey key) args 0
  let _ ← db.hIncrSize key (-num)
  pure (.commit num)

def HIncrBy (key field : Bytes) (delta : Int64) : Op (Ret Int64) := do
  Op.lift (checkHashKFSize key field)
  let ek := db.hEncodeHashKey key field
  let v ← Op.get ek
  let n ← Op.lift (StrInt64 v)
  let n := n + delta
  let _ ← db.hSetItem key field (FormatInt64ToSlice n)
  pure (.commit n)

def hGetAllLoop (db : DB) : List (Bytes × Bytes) → Op (List FVPair)
  | [] => pure []
  | e :: es => do
    let kf ← Op.lift (db.hDecodeHashKey e.1)
    let vs ← db.hGetAllLoop es
    pure (⟨kf.2, e.2⟩ :: vs)

def HGetAll : Op (List FVPair) := do
  Op.lift (checkKeySize key)
  let start := db.hEncodeStartKey key
  let stop := db.hEncodeStopKey key
  let es ← Op.range ⟨some start, some stop, RangeROpen⟩ ⟨0, -1⟩ .forward
  db.hGetAllLoop es

def HClear : Op (Ret Int64) := db.clear HashType db.hDelete key

def HMclear (keys : List Bytes) : Op (Ret Int64) := db.mclear HashType db.hDelete keys

def HExpire (duration : Int64) : Op (Ret Int64) :=
  expireDuration duration (db.hExpireAt key)

def HExpireAt (w : Int64) : Op (Ret Int64) :=
  expireDeadline w (db.hExpireAt key)

def HPersist : Op (Ret Int64) := db.persist HashType key

def HKeyExists : Op Int64 := keyExists (db.hEncodeSizeKey key) key

end DB

end LedisDB
