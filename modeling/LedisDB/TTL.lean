import LedisDB.Keys

/-!
# Expire entries

A key with a deadline has two entries (`ledis/t_ttl.go`): the meta entry of its
type and key, holding the deadline, and a time entry that sorts by deadline and
holds the name of the meta entry. `expireAt` writes both and does not look at
what is there; `rmExpire` removes the meta entry and the time entry of the
deadline the meta entry holds.
-/

namespace LedisDB.DB

variable (db : DB) (dataType : UInt8) (key : Bytes)

def expireAt (w : Int64) : Op Unit := do
  let mk := db.expEncodeMetaKey dataType key
  let tk := db.expEncodeTimeKey dataType key w
  Op.put tk mk
  Op.put mk (PutInt64 w)
  Op.setNextCheckTime w

def ttl : Op Int64 := do
  let mk := db.expEncodeMetaKey dataType key
  let v ← Op.get mk
  let t ← Op.lift (decodeInt64 v)
  if t = 0 then pure (-1)
  else do
    let now ← Op.now
    let t := t - now
    pure (if t ≤ 0 then -1 else t)

def rmExpire : Op Int64 := do
  let mk := db.expEncodeMetaKey dataType key
  let v ← Op.get mk
  match v with
  | none => pure 0
  | some v => do
    let w ← Op.lift (decodeInt64 (some v))
    let tk := db.expEncodeTimeKey dataType key w
    Op.delete mk
    Op.delete tk
    pure 1

/-- The common body of the `Expire` methods: a duration must be positive. -/
def expireDuration (duration : Int64) (f : Int64 → Op (Ret Int64)) : Op (Ret Int64) := do
  if duration ≤ 0 then Op.throw .errExpireValue
  else do
    let now ← Op.now
    f (now + duration)

/-- The common body of the `ExpireAt` methods: a deadline must lie ahead. -/
def expireDeadline (w : Int64) (f : Int64 → Op (Ret Int64)) : Op (Ret Int64) := do
  let now ← Op.now
  if w ≤ now then Op.throw .errExpireValue else f w

/-- The common body of the `Persist` methods. -/
def persist : Op (Ret Int64) := do
  Op.lift (checkKeySize key)
  let n ← db.rmExpire dataType key
  pure (.commit n)

end LedisDB.DB
