import LedisDB.Entries
import LedisDB.KV
import LedisDB.Hash
import LedisDB.List
import LedisDB.Set
import LedisDB.ZSet

/-!
# The write calls of a database and its TTL checker

`Write` is the write interface of one database, `check` is `ttlChecker.check`,
and `run` folds calls over the state of the database. `check` scans a snapshot
of the time entries and looks at the store again for each of them; it also
reports every delete callback it makes, with the store at that moment.
-/

namespace LedisDB

inductive Write
  | Set (key value : Bytes)
  | SetNX (key value : Bytes)
  | SetEX (key : Bytes) (duration : Int64) (value : Bytes)
  | GetSet (key value : Bytes)
  | MSet (args : List KVPair)
  | Del (keys : List Bytes)
  | Incr (key : Bytes)
  | IncrBy (key : Bytes) (increment : Int64)
  | Decr (key : Bytes)
  | DecrBy (key : Bytes) (decrement : Int64)
  | Append (key value : Bytes)
  | SetRange (key : Bytes) (offset : Int64) (value : Bytes)
  | SetBit (key : Bytes) (offset on : Int64)
  | BitOP (op destKey : Bytes) (srcKeys : List Bytes)
  | Expire (key : Bytes) (duration : Int64)
  | ExpireAt (key : Bytes) (w : Int64)
  | Persist (key : Bytes)
  | HSet (key field value : Bytes)
  | HMset (key : Bytes) (args : List FVPair)
  | HDel (key : Bytes) (args : List Bytes)
  | HIncrBy (key field : Bytes) (delta : Int64)
  | HClear (key : Bytes)
  | HMclear (keys : List Bytes)
  | HExpire (key : Bytes) (duration : Int64)
  | HExpireAt (key : Bytes) (w : Int64)
  | HPersist (key : Bytes)
  | LPush (key : Bytes) (args : List Bytes)
  | RPush (key : Bytes) (args : List Bytes)
  | LPop (key : Bytes)
  | RPop (key : Bytes)
  | LTrim (key : Bytes) (start stop : Int64)
  | LTrimFront (key : Bytes) (trimSize : Int32)
  | LTrimBack (key : Bytes) (trimSize : Int32)
  | LSet (key : Bytes) (index : Int32) (value : Bytes)
  | LClear (key : Bytes)
  | LMclear (keys : List Bytes)
  | LExpire (key : Bytes) (duration : Int64)
  | LExpireAt (key : Bytes) (w : Int64)
  | LPersist (key : Bytes)
  | SAdd (key : Bytes) (args : List Bytes)
  | SRem (key : Bytes) (args : List Bytes)
  | SUnionStore (dstKey : Bytes) (keys : List Bytes)
  | SDiffStore (dstKey : Bytes) (keys : List Bytes)
  | SInterStore (dstKey : Bytes) (keys : List Bytes)
  | SClear (key : Bytes)
  | SMclear (keys : List Bytes)
  | SExpire (key : Bytes) (duration : Int64)
  | SExpireAt (key : Bytes) (w : Int64)
  | SPersist (key : Bytes)
  | ZAdd (key : Bytes) (args : List ScorePair)
  | ZRem (key : Bytes) (members : List Bytes)
  | ZIncrBy (key : Bytes) (delta : Int64) (member : Bytes)
  | ZRemRangeByScore (key : Bytes) (min max : Int64)
  | ZRemRangeByRank (key : Bytes) (start stop : Int64)
  | ZRemRangeByLex (key : Bytes) (min max : Option Bytes) (rangeType : UInt8)
  | ZClear (key : Bytes)
  | ZMclear (keys : List Bytes)
  | ZUnionStore (destKey : Bytes) (srcKeys : List Bytes) (weights : Option (List Int64))
      (aggregate : UInt8)
  | ZInterStore (destKey : Bytes) (srcKeys : List Bytes) (weights : Option (List Int64))
      (aggregate : UInt8)
  | ZExpire (key : Bytes) (duration : Int64)
  | ZExpireAt (key : Bytes) (w : Int64)
  | ZPersist (key : Bytes)

def Ret.discard {α : Type} : Ret α → Ret Unit
  | .done _ => .done ()
  | .commit _ => .commit ()
  | .commitOr _ _ => .commitOr () ()

def Op.discard {α : Type} (x : Op (Ret α)) : Op (Ret Unit) := x >>= fun r => pure r.discard

variable (db : DB) (env : Env) (st : State)

theorem exec_discard {α : Type} (x : Op (Ret α)) (st : State) :
    exec env x.discard st = ((exec env x st).1.map fun _ => (), (exec env x st).2) := by
  unfold exec Op.discard
  rw [Op.bind_run]
  rcases x env st.store ⟨[], st.nc⟩ with ⟨r, t⟩
  cases r with
  | error e => rfl
  | ok r =>
    cases r with
    | done a => rfl
    | commit a | commitOr a d =>
      cases hc : commit env st.store t.batch <;> simp [Ret.discard, hc, Except.map]

theorem exec_discard_state {α : Type} (x : Op (Ret α)) (st : State) :
    (exec env x.discard st).2 = (exec env x st).2 := by rw [exec_discard]

namespace Write

def body : Write → Op (Ret Unit)
  | .Set key value => (db.Set key value).discard
  | .SetNX key value => (db.SetNX key value).discard
  | .SetEX key duration value => (db.SetEX key duration value).discard
  | .GetSet key value => (db.GetSet key value).discard
  | .MSet args => (db.MSet args).discard
  | .Del keys => (db.Del keys).discard
  | .Incr key => (db.Incr key).discard
  | .IncrBy key increment => (db.IncrBy key increment).discard
  | .Decr key => (db.Decr key).discard
  | .DecrBy key decrement => (db.DecrBy key decrement).discard
  | .Append key value => (db.Append key value).discard
  | .SetRange key offset value => (db.SetRange key offset value).discard
  | .SetBit key offset on => (db.SetBit key offset on).discard
  | .BitOP op destKey srcKeys => (db.BitOP op destKey srcKeys).discard
  | .Expire key duration => (db.Expire key duration).discard
  | .ExpireAt key w => (db.ExpireAt key w).discard
  | .Persist key => (db.Persist key).discard
  | .HSet key field value => (db.HSet key field value).discard
  | .HMset key args => (db.HMset key args).discard
  | .HDel key args => (db.HDel key args).discard
  | .HIncrBy key field delta => (db.HIncrBy key field delta).discard
  | .HClear key => (db.HClear key).discard
  | .HMclear keys => (db.HMclear keys).discard
  | .HExpire key duration => (db.HExpire key duration).discard
  | .HExpireAt key w => (db.HExpireAt key w).discard
  | .HPersist key => (db.HPersist key).discard
  | .LPush key args => (db.LPush key args).discard
  | .RPush key args => (db.RPush key args).discard
  | .LPop key => (db.LPop key).discard
  | .RPop key => (db.RPop key).discard
  | .LTrim key start stop => (db.LTrim key start stop).discard
  | .LTrimFront key trimSize => (db.LTrimFront key trimSize).discard
  | .LTrimBack key trimSize => (db.LTrimBack key trimSize).discard
  | .LSet key index value => (db.LSet key index value).discard
  | .LClear key => (db.LClear key).discard
  | .LMclear keys => (db.LMclear keys).discard
  | .LExpire key duration => (db.LExpire key duration).discard
  | .LExpireAt key w => (db.LExpireAt key w).discard
  | .LPersist key => (db.LPersist key).discard
  | .SAdd key args => (db.SAdd key args).discard
  | .SRem key args => (db.SRem key args).discard
  | .SUnionStore dstKey keys => (db.SUnionStore dstKey keys).discard
  | .SDiffStore dstKey keys => (db.SDiffStore dstKey keys).discard
  | .SInterStore dstKey keys => (db.SInterStore dstKey keys).discard
  | .SClear key => (db.SClear key).discard
  | .SMclear keys => (db.SMclear keys).discard
  | .SExpire key duration => (db.SExpire key duration).discard
  | .SExpireAt key w => (db.SExpireAt key w).discard
  | .SPersist key => (db.SPersist key).discard
  | .ZAdd key args => (db.ZAdd key args).discard
  | .ZRem key members => (db.ZRem key members).discard
  | .ZIncrBy key delta member => (db.ZIncrBy key delta member).discard
  | .ZRemRangeByScore key min max => (db.ZRemRangeByScore key min max).discard
  | .ZRemRangeByRank key start stop => (db.ZRemRangeByRank key start stop).discard
  | .ZRemRangeByLex key min max rangeType => (db.ZRemRangeByLex key min max rangeType).discard
  | .ZClear key => (db.ZClear key).discard
  | .ZMclear keys => (db.ZMclear keys).discard
  | .ZUnionStore destKey srcKeys weights aggregate =>
    (db.ZUnionStore destKey srcKeys weights aggregate).discard
  | .ZInterStore destKey srcKeys weights aggregate =>
    (db.ZInterStore destKey srcKeys weights aggregate).discard
  | .ZExpire key duration => (db.ZExpire key duration).discard
  | .ZExpireAt key w => (db.ZExpireAt key w).discard
  | .ZPersist key => (db.ZPersist key).discard

def type : Write → DataType
  | .Set .. | .SetNX .. | .SetEX .. | .GetSet .. | .MSet .. | .Del .. | .Incr .. | .IncrBy ..
  | .Decr .. | .DecrBy .. | .Append .. | .SetRange .. | .SetBit .. | .BitOP .. | .Expire ..
  | .ExpireAt .. | .Persist .. => .KV
  | .HSet .. | .HMset .. | .HDel .. | .HIncrBy .. | .HClear .. | .HMclear .. | .HExpire ..
  | .HExpireAt .. | .HPersist .. => .HASH
  | .LPush .. | .RPush .. | .LPop .. | .RPop .. | .LTrim .. | .LTrimFront .. | .LTrimBack ..
  | .LSet .. | .LClear .. | .LMclear .. | .LExpire .. | .LExpireAt .. | .LPersist .. => .LIST
  | .SAdd .. | .SRem .. | .SUnionStore .. | .SDiffStore .. | .SInterStore .. | .SClear ..
  | .SMclear .. | .SExpire .. | .SExpireAt .. | .SPersist .. => .SET
  | .ZAdd .. | .ZRem .. | .ZIncrBy .. | .ZRemRangeByScore .. | .ZRemRangeByRank ..
  | .ZRemRangeByLex .. | .ZClear .. | .ZMclear .. | .ZUnionStore .. | .ZInterStore ..
  | .ZExpire .. | .ZExpireAt .. | .ZPersist .. => .ZSET

/-- The user keys a call is addressed to; for a store operation the destination. -/
def keys : Write → List Bytes
  | .MSet args => args.map KVPair.Key
  | .Del keys | .HMclear keys | .LMclear keys | .SMclear keys | .ZMclear keys => keys
  | .Set key _ | .SetNX key _ | .SetEX key _ _ | .GetSet key _ | .Incr key | .IncrBy key _
  | .Decr key | .DecrBy key _ | .Append key _ | .SetRange key _ _ | .SetBit key _ _
  | .BitOP _ key _ | .Expire key _ | .ExpireAt key _ | .Persist key
  | .HSet key _ _ | .HMset key _ | .HDel key _ | .HIncrBy key _ _ | .HClear key | .HExpire key _
  | .HExpireAt key _ | .HPersist key
  | .LPush key _ | .RPush key _ | .LPop key | .RPop key | .LTrim key _ _ | .LTrimFront key _
  | .LTrimBack key _ | .LSet key _ _ | .LClear key | .LExpire key _ | .LExpireAt key _
  | .LPersist key
  | .SAdd key _ | .SRem key _ | .SUnionStore key _ | .SDiffStore key _ | .SInterStore key _
  | .SClear key | .SExpire key _ | .SExpireAt key _ | .SPersist key
  | .ZAdd key _ | .ZRem key _ | .ZIncrBy key _ _ | .ZRemRangeByScore key _ _
  | .ZRemRangeByRank key _ _ | .ZRemRangeByLex key _ _ _ | .ZClear key | .ZUnionStore key _ _ _
  | .ZInterStore key _ _ _ | .ZExpire key _ | .ZExpireAt key _ | .ZPersist key => [key]

/-- The key and deadline that a call of the expire family sets at time `now`. -/
def deadline (now : Int64) : Write → Option (Bytes × Int64)
  | .SetEX key duration _ | .Expire key duration | .HExpire key duration | .LExpire key duration
  | .SExpire key duration | .ZExpire key duration => some (key, now + duration)
  | .ExpireAt key w | .HExpireAt key w | .LExpireAt key w | .SExpireAt key w
  | .ZExpireAt key w => some (key, w)
  | _ => none

end Write

def onExpired (dataType : UInt8) : Option (Bytes → Op Int64) :=
  if dataType = KVType then some db.delete
  else if dataType = ListType then some db.lDelete
  else if dataType = HashType then some db.hDelete
  else if dataType = ZSetType then some db.zDelete
  else if dataType = SetType then some db.sDelete
  else none

def DB.deleteFunc : DataType → Bytes → Op Int64
  | .KV => db.delete
  | .LIST => db.lDelete
  | .HASH => db.hDelete
  | .ZSET => db.zDelete
  | .SET => db.sDelete

theorem onExpired_deleteFunc (T : DataType) : onExpired db T.code = some (db.deleteFunc T) := by
  cases T <;> rfl

structure Expiry where
  dataType : UInt8
  key : Bytes
  store : Store

/-- The work of `check` on one time entry, under the lock of the type's batch. The
result says whether the callback is made; the commit's error is not looked at. -/
def checkKey (cb : Bytes → Op Int64) (tk mk k : Bytes) : Op (Ret Bool) := do
  let v ← Op.get mk
  let now ← Op.now
  match decodeInt64 v with
  | .error _ => pure (.done false)
  | .ok exp =>
    if exp ≤ now then do
      let _ ← cb k
      Op.delete tk
      Op.delete mk
      pure (.commitOr true true)
    else pure (.done false)

def checkLoop (db : DB) (env : Env) :
    List (Bytes × Bytes) → Int64 → State → Except Err Int64 × State × List Expiry
  | [], nc, st => (.ok nc, st, [])
  | (tk, mk) :: es, nc, st =>
    match db.expDecodeTimeKey tk with
    | .error _ => checkLoop db env es nc st
    | .ok (dt, k, nt) =>
      if nt > env.now then (.ok nt, st, [])
      else if dt ≥ maxDataType then (.error .panic, st, [])
      else match onExpired db dt with
        | none => checkLoop db env es nc st
        | some cb =>
          match exec env (checkKey cb tk mk k) st with
          | (.error e, st') => (.error e, st', [⟨dt, k, st.store⟩])
          | (.ok called, st') =>
            let rest := checkLoop db env es nc st'
            (rest.1, rest.2.1, (if called then [⟨dt, k, st.store⟩] else []) ++ rest.2.2)

def check : Except Err Unit × State × List Expiry :=
  if env.now < st.nc then (.ok (), st, [])
  else
    let nc := env.now + 3600
    let minKey := db.expEncodeTimeKey NoneType [] 0
    let maxKey := db.expEncodeTimeKey maxDataType [] nc
    let es := st.store.rangeLimit ⟨some minKey, some maxKey, RangeROpen⟩ ⟨0, -1⟩ .forward
    match checkLoop db env es nc st with
    | (.error e, st', t) => (.error e, st', t)
    | (.ok nc, st', t) => (.ok (), ⟨st'.store, nc⟩, t)

def Env.quiet (now : Int64) : Env := ⟨now, false, fun _ _ => none, id, fun l => List.Perm.refl l⟩

def DB.zero : DB := ⟨0, by decide⟩

inductive Call
  | write (w : Write)
  | check

/-- The call is refused or has nothing to write. -/
def Write.Idle (c : Write) : Prop :=
  (exec env (c.body db) st).2.store = st.store

def Call.step : Call → Except Err Unit × State × List Expiry
  | .write w =>
    let r := exec env (w.body db) st
    (r.1, r.2, [])
  | .check => LedisDB.check db env st

def run (db : DB) : List (Env × Call) → State → State
  | [], st => st
  | (env, c) :: cs, st => run db cs (c.step db env st).2.1

theorem run_append (cs ds : List (Env × Call)) (st : State) :
    run db (cs ++ ds) st = run db ds (run db cs st) := by
  induction cs generalizing st with
  | nil => rfl
  | cons c cs ih => exact ih _

def AllSteps (db : DB) (C : Env → State → Call → Prop) : List (Env × Call) → State → Prop
  | [], _ => True
  | (env, c) :: cs, st => C env st c ∧ AllSteps db C cs (c.step db env st).2.1

variable {C : Env → State → Call → Prop} {db : DB}

theorem run_induction {I : State → Prop}
    (hstep : ∀ env st c, I st → C env st c → I (c.step db env st).2.1) {cs : List (Env × Call)}
    {st : State} (h0 : I st) (hC : AllSteps db C cs st) : I (run db cs st) := by
  induction cs generalizing st with
  | nil => exact h0
  | cons c cs ih => exact ih (hstep _ _ _ h0 hC.1) hC.2

theorem allSteps_of (h : ∀ env st c, C env st c) (cs : List (Env × Call)) (st : State) :
    AllSteps db C cs st := by
  induction cs generalizing st with
  | nil => trivial
  | cons c cs ih => exact ⟨h _ _ _, ih _⟩

theorem allSteps_true (db : DB) (cs : List (Env × Call)) (st : State) :
    AllSteps db (fun _ _ _ => True) cs st :=
  allSteps_of (fun _ _ _ => trivial) cs st

end LedisDB
