import LedisDB.TTL

/-!
# What the collection types share

Hashes, sets and zsets keep their members as entries behind a common front and
count them in a size entry; lists have a meta entry in its place. The methods
that the source writes out once per type are defined here once, with the keys,
type bytes and checks of the type as parameters.
-/

namespace LedisDB.DB

variable (db : DB) (dataType : UInt8)

/-- `hIncrSize`, `sIncrSize` and `zIncrSize`. -/
def incrSize (sk : Bytes) (dataType : UInt8) (key : Bytes) (delta : Int64) :
    Op Int64 := do
  let v ← Op.get sk
  let size ← Op.lift (decodeInt64 v)
  let size := size + delta
  if size ≤ 0 then do
    Op.delete sk
    let _ ← (db.rmExpire dataType key).ignoreErr 0
    pure 0
  else do
    Op.put sk (PutInt64 size)
    pure size

/-- `HLen`, `SCard` and `ZCard`. -/
def readSize (sk key : Bytes) : Op Int64 := do
  Op.lift (checkKeySize key)
  let v ← Op.get sk
  Op.lift (decodeInt64 v)

/-- `Exists` and the `KeyExists` methods. -/
def keyExists (ek key : Bytes) : Op Int64 := do
  Op.lift (checkKeySize key)
  let v ← Op.get ek
  pure (if v.isSome then 1 else 0)

/-- The common body of `setExpireAt`, `hExpireAt`, `lExpireAt`, `sExpireAt` and
`zExpireAt`: only a key that is there gets a deadline. -/
def expireSized (key : Bytes) (size : Op Int64) (w : Int64) :
    Op (Ret Int64) := do
  let n ← size
  if n = 0 then pure (.done 0)
  else do
    db.expireAt dataType key w
    pure (.commit 1)

/-- `hDelete` and `sDelete`. -/
def deleteMembers (sk start stop : Bytes) : Op Int64 := do
  let es ← Op.range ⟨some start, some stop, RangeROpen⟩ ⟨0, -1⟩ .forward
  Op.deleteAll (es.map Prod.fst)
  Op.delete sk
  pure (Int64.ofNat es.length)

/-- `HClear`, `LClear` and `SClear`. -/
def clear (del : Bytes → Op Int64) (key : Bytes) :
    Op (Ret Int64) := do
  Op.lift (checkKeySize key)
  let num ← del key
  let _ ← (db.rmExpire dataType key).ignoreErr 0
  pure (.commit num)

def mclearLoop (db : DB) (dataType : UInt8) (del : Bytes → Op Int64) : List Bytes → Op Unit
  | [] => pure ()
  | key :: keys => do
    Op.lift (checkKeySize key)
    let _ ← del key
    let _ ← (db.rmExpire dataType key).ignoreErr 0
    db.mclearLoop dataType del keys

/-- `HMclear`, `LMclear` and `SMclear`. -/
def mclear (del : Bytes → Op Int64) (keys : List Bytes) :
    Op (Ret Int64) := do
  db.mclearLoop dataType del keys
  pure (.commit (Int64.ofNat keys.length))

/-- The loop of `HMset` and `SAdd` over members and values: counts the members that
the store does not hold. -/
def addLoop (check : Bytes → Bytes → Except Err Unit) (enc : Bytes → Bytes) :
    List (Bytes × Bytes) → Int64 → Op Int64
  | [], num => pure num
  | a :: args, num => do
    Op.lift (check a.1 a.2)
    let ek := enc a.1
    let v ← Op.get ek
    Op.put ek a.2
    addLoop check enc args (if v.isNone then num + 1 else num)

/-- The loop of `HDel` and `SRem`: counts the arguments that the store holds. -/
def remLoop (check : Bytes → Except Err Unit) (enc : Bytes → Bytes) :
    List Bytes → Int64 → Op Int64
  | [], num => pure num
  | m :: ms, num => do
    Op.lift (check m)
    let ek := enc m
    let v ← Op.find ek
    if v.isNone then remLoop check enc ms num
    else do
      Op.delete ek
      remLoop check enc ms (num + 1)

end LedisDB.DB
