import LedisDB.Collection

/-!
# String values

The write operations of `ledis/t_kv.go`. A string is one entry under its
key. Overwriting it leaves its expire entries alone, and only `Del` and
`Persist` remove them. `SetNX` and `Append` drop the error of their commit.
-/

namespace LedisDB

structure KVPair where
  Key : Bytes
  Value : Bytes

variable (db : DB) (key : Bytes)

namespace DB

def incr (delta : Int64) : Op (Ret Int64) := do
  Op.lift (checkKeySize key)
  let ek := db.encodeKVKey key
  let v ← Op.get ek
  let n ← Op.lift (StrInt64 v)
  let n := n + delta
  Op.put ek (FormatInt64ToSlice n)
  pure (.commit n)

def Incr : Op (Ret Int64) := db.incr key 1

def IncrBy (increment : Int64) : Op (Ret Int64) := db.incr key increment

def Decr : Op (Ret Int64) := db.incr key (-1)

def DecrBy (decrement : Int64) : Op (Ret Int64) := db.incr key (-decrement)

def delete (db : DB) (key : Bytes) : Op Int64 := do
  Op.delete (db.encodeKVKey key)
  pure 1

def Exists : Op Int64 := keyExists (db.encodeKVKey key) key

def Get : Op (Option Bytes) := do
  Op.lift (checkKeySize key)
  Op.get (db.encodeKVKey key)

def setExpireAt (w : Int64) : Op (Ret Int64) :=
  db.expireSized KVType key (db.Exists key) w

def delLoop (db : DB) : List Bytes → Op Unit
  | [] => pure ()
  | k :: ks => do
    Op.delete (db.encodeKVKey k)
    let _ ← (db.rmExpire KVType k).ignoreErr 0
    db.delLoop ks

def Del (keys : List Bytes) : Op (Ret Int64) := do
  if keys.length = 0 then pure (.done 0)
  else do
    db.delLoop keys
    pure (.commit (Int64.ofNat keys.length))

def GetSet (key value : Bytes) : Op (Ret (Option Bytes)) := do
  Op.lift (checkKeySize key)
  Op.lift (checkValueSize value)
  let ek := db.encodeKVKey key
  let oldValue ← Op.get ek
  Op.put ek value
  pure (.commit oldValue)

def mSetLoop (db : DB) : List KVPair → Op Unit
  | [] => pure ()
  | arg :: args => do
    Op.lift (checkKeySize arg.Key)
    Op.lift (checkValueSize arg.Value)
    Op.put (db.encodeKVKey arg.Key) arg.Value
    db.mSetLoop args

def MSet (args : List KVPair) : Op (Ret Unit) := do
  if args.length = 0 then pure (.done ())
  else do
    db.mSetLoop args
    pure (.commit ())

def Set (key value : Bytes) : Op (Ret Unit) := do
  Op.lift (checkKeySize key)
  Op.lift (checkValueSize value)
  Op.put (db.encodeKVKey key) value
  pure (.commit ())

/-- The commit's error is assigned to a shadowing variable. -/
def SetNX (key value : Bytes) : Op (Ret Int64) := do
  Op.lift (checkKeySize key)
  Op.lift (checkValueSize value)
  let ek := db.encodeKVKey key
  let v ← Op.get ek
  if v.isSome then pure (.done 0)
  else do
    Op.put ek value
    pure (.commitOr 1 1)

def SetEX (duration : Int64) (value : Bytes) : Op (Ret Unit) := do
  Op.lift (checkKeySize key)
  Op.lift (checkValueSize value)
  if duration ≤ 0 then Op.throw .errExpireValue
  else do
    Op.put (db.encodeKVKey key) value
    let now ← Op.now
    db.expireAt KVType key (now + duration)
    pure (.commit ())

def Expire (duration : Int64) : Op (Ret Int64) :=
  expireDuration duration (db.setExpireAt key)

def ExpireAt (w : Int64) : Op (Ret Int64) :=
  expireDeadline w (db.setExpireAt key)

def Persist : Op (Ret Int64) := db.persist KVType key

/-- `copy(old[off:], value)`. -/
def overlay (old : Bytes) (off : ℕ) (value : Bytes) : Bytes :=
  old.take off ++ value.take (old.length - off) ++ old.drop (off + value.length)

/-- `append(v, make([]byte, extra)...)` when `extra` is positive. -/
def extend (v : Bytes) (extra : Int64) : Bytes :=
  if extra > 0 then v ++ List.replicate extra.toInt.toNat 0 else v

def SetRange (offset : Int64) (value : Bytes) : Op (Ret Int64) := do
  if value.length = 0 then pure (.done 0)
  else do
    Op.lift (checkKeySize key)
    if Int64.ofNat value.length + offset > Int64.ofNat MaxValueSize then Op.throw .errValueSize
    else do
      let ek := db.encodeKVKey key
      let v ← Op.get ek
      let oldValue := v.getD []
      let oldValue := extend oldValue
        (offset + Int64.ofNat value.length - Int64.ofNat oldValue.length)
      if offset < 0 ∨ offset > Int64.ofNat oldValue.length then Op.throw .panic
      else do
        let newValue := overlay oldValue offset.toInt.toNat value
        Op.put ek newValue
        pure (.commit (Int64.ofNat newValue.length))

def Append (key value : Bytes) : Op (Ret Int64) := do
  if value.length = 0 then pure (.done 0)
  else do
    Op.lift (checkKeySize key)
    let ek := db.encodeKVKey key
    let v ← Op.get ek
    let oldValue := v.getD []
    if oldValue.length + value.length > MaxValueSize then Op.throw .errValueSize
    else do
      Op.put ek (oldValue ++ value)
      pure (.commitOr (Int64.ofNat (oldValue ++ value).length) 0)

end DB

inductive BitOpName
  | BitAND
  | BitOR
  | BitXOR
  | BitNot
  | other
  deriving DecidableEq

def BitOpName.ofText (op : Bytes) : BitOpName :=
  if toLower op = str "and" then .BitAND
  else if toLower op = str "or" then .BitOR
  else if toLower op = str "xor" then .BitXOR
  else if toLower op = str "not" then .BitNot
  else .other

/-- The bytewise step; `none` is the switch's default. -/
def BitOpName.byte : BitOpName → Option (UInt8 → UInt8 → UInt8)
  | .BitAND => some (· &&& ·)
  | .BitOR => some (· ||| ·)
  | .BitXOR => some (· ^^^ ·)
  | .BitNot => none
  | .other => none

/-- One round over the longer operand; an unknown operation is noticed only when
the shorter operand has a byte. -/
def bitCombine (op : BitOpName) (value ovalue : Bytes) : Except Err Bytes :=
  let long := if value.length < ovalue.length then ovalue else value
  let short := if value.length < ovalue.length then value else ovalue
  match op.byte with
  | some f => .ok (long.zipWith f (short ++ List.replicate (long.length - short.length) 0))
  | none => if short = [] then .ok long else .error .errBitOP

namespace DB

def bitOPLoop (db : DB) (op : BitOpName) : Bytes → List Bytes → Op Bytes
  | value, [] => pure value
  | value, k :: ks => do
    Op.lift (checkKeySize k)
    let ovalue ← Op.get (db.encodeKVKey k)
    let value ← Op.lift (bitCombine op value (ovalue.getD []))
    db.bitOPLoop op value ks

def BitOP (op : Bytes) (destKey : Bytes) (srcKeys : List Bytes) :
    Op (Ret Int64) := do
  Op.lift (checkKeySize destKey)
  let op := BitOpName.ofText op
  match srcKeys with
  | [] => pure (.done 0)
  | [_] => pure (.done 0)
  | src :: srcs =>
    if op = .BitNot then Op.throw .errBitOP
    else do
      let value ← Op.get (db.encodeKVKey src)
      let value ← db.bitOPLoop op (value.getD []) srcs
      Op.put (db.encodeKVKey destKey) value
      pure (.commit (Int64.ofNat value.length))

def SetBit (offset on : Int64) : Op (Ret Int64) := do
  Op.lift (checkKeySize key)
  if on &&& ~~~1 ≠ 0 then Op.throw .errBitValue
  else do
    let ek := db.encodeKVKey key
    let v ← Op.get ek
    let value := v.getD []
    let off := offset.toUInt64.toUInt32
    let byteOffset := (off >>> 3).toNat
    let value := extend value (Int64.ofNat byteOffset + 1 - Int64.ofNat value.length)
    let byteVal := value.getD byteOffset 0
    let bit : UInt8 := 7 - (off &&& 7).toUInt8
    let bitVal := byteVal &&& (1 <<< bit)
    let byteVal := byteVal &&& ~~~(1 <<< bit)
    let byteVal := byteVal ||| ((on &&& 1).toUInt64.toUInt8 <<< bit)
    Op.put ek (value.set byteOffset byteVal)
    pure (.commit (if bitVal > 0 then 1 else 0))

end DB

end LedisDB
