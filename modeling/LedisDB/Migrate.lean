import LedisDB.BlockingPop
import LedisDB.Deadlines
import LedisDB.Removal

/-!
# Moving a key to another server

`migrateKey` dumps the key, reads its TTL, restores the dump at the destination and
deletes the key at the source. The locker it takes keeps other migrations away, and
client writes do not look at it: a write between the dump and the delete is neither in
the dump nor left at the source. When such writes leave the value and the deadline as
they are, the migration has the effect of one that happens at once, at its delete.
-/

namespace LedisDB

/-- The values of the dump format; `F` are its numbers for scores. -/
inductive RdbValue (F : Type)
  | String (v : Bytes)
  | Hash (v : List FVPair)
  | List (v : List Bytes)
  | ZSet (v : List (Bytes × F))
  | Set (v : List Bytes)

/-- The dump format and the conversions between scores and floating point numbers. -/
structure Rdb where
  Float64 : Type
  Data : Type
  float64 : Int64 → Float64
  int64 : Float64 → Int64
  Dump : RdbValue Float64 → Data
  DecodeDump : Data → Except Err (RdbValue Float64)

variable (rdb : Rdb) (db : DB) (T : DataType) (key : Bytes)

namespace DB

def Dump (rdb : Rdb) (db : DB) (key : Bytes) : Op (Option rdb.Data) := do
  let v ← db.Get key
  pure (v.map fun v => rdb.Dump (.String v))

/-- The common body of the other dump methods: nothing is dumped of an empty value. -/
def dumpAll {α : Type} (read : Op (List α)) (value : List α → RdbValue rdb.Float64) :
    Op (Option rdb.Data) := do
  let v ← read
  pure (if v.length = 0 then none else some (rdb.Dump (value v)))

def LDump : Op (Option rdb.Data) :=
  dumpAll rdb (db.LRange key 0 (-1)) .List

def HDump : Op (Option rdb.Data) :=
  dumpAll rdb (db.HGetAll key) .Hash

def SDump : Op (Option rdb.Data) :=
  dumpAll rdb (db.SMembers key) .Set

def ZRangeByScore (min max : Int64) (offset count : ℤ) :
    Op (List ScorePair) := db.zRange key min max offset count false

def ZDump : Op (Option rdb.Data) :=
  dumpAll rdb (db.ZRangeByScore key MinScore MaxScore 0 (-1)) fun v =>
    .ZSet (v.map fun p => (p.Member, rdb.float64 p.Score))

/-- The calls that a restored value is written with: one that clears the key, one that puts
the value and one that sets the TTL. -/
def restoreCalls (ttl : Int64) :
    RdbValue rdb.Float64 → Write × Write × Write
  | .String v => (.Del [key], .Set key v, .Expire key ttl)
  | .Hash v => (.HClear key, .HMset key v, .HExpire key ttl)
  | .List v => (.LClear key, .RPush key v, .LExpire key ttl)
  | .ZSet v => (.ZClear key, .ZAdd key (v.map fun p => ⟨rdb.int64 p.2, p.1⟩), .ZExpire key ttl)
  | .Set v => (.SClear key, .SAdd key v, .SExpire key ttl)

def restoreSeconds (ttl : Int64) : Int64 :=
  if ttl > 0 then if ttl / 1000 = 0 then 1 else ttl / 1000 else ttl

def Restore (ttl : Int64) (data : rdb.Data) (env : Env) (st : State) : Except Err Unit × State :=
  match rdb.DecodeDump data with
  | .error e => (.error e, st)
  | .ok value =>
    let ttl := restoreSeconds ttl
    let calls := restoreCalls rdb key ttl value
    match exec env (calls.1.body db) st with
    | (.error e, st) => (.error e, st)
    | (.ok _, st) =>
      match exec env (calls.2.1.body db) st with
      | (.error e, st) => (.error e, st)
      | (.ok _, st) => if ttl > 0 then exec env (calls.2.2.body db) st else (.ok (), st)

end DB

def xdump : DataType → Bytes → Op (Option rdb.Data)
  | .KV, key => db.Dump rdb key
  | .HASH, key => db.HDump rdb key
  | .LIST, key => db.LDump rdb key
  | .SET, key => db.SDump rdb key
  | .ZSET, key => db.ZDump rdb key

/-- `TTL` and its four siblings. -/
def xttl : Op Int64 := do
  Op.lift (checkKeySize key)
  db.ttl T.code key

def xdel : DataType → Write
  | .KV => .Del [key]
  | .HASH => .HClear key
  | .LIST => .LClear key
  | .SET => .SClear key
  | .ZSET => .ZClear key

inductive MigrateErr
  | errKeyInMigrating
  | errNoKey
  | db (e : Err)
  | conn

/-- What becomes of a request to the other server: it is answered, it is not sent, or it is
executed and the answer does not come before the deadline. -/
inductive Delivery
  | answered
  | unsent
  | unanswered

/-- The clocks and commits of the servers at the steps of a migration, and the connection. -/
structure MigrateEnv where
  dump : Env
  ttl : Env
  delivery : Delivery
  restore : Env
  del : Env

/-- `conn.Do` of a RESTORE. -/
def doRestore (ttl : Int64) (data : rdb.Data) (env : Env)
    (dest : State) : Delivery → Except MigrateErr Unit × State
  | .answered =>
    match db.Restore rdb key ttl data env dest with
    | (.error e, dest) => (.error (.db e), dest)
    | (.ok _, dest) => (.ok (), dest)
  | .unsent => (.error .conn, dest)
  | .unanswered => (.error .conn, (db.Restore rdb key ttl data env dest).2)

/-- `migrateKey` with nothing in between; `locks` are the keys in the locker of the type. -/
def migrateKey (locks : List Bytes)
    (env : MigrateEnv) (source dest : State) : Except MigrateErr Unit × State × State :=
  if locks.contains key then (.error .errKeyInMigrating, source, dest)
  else match (xdump rdb db T key).eval env.dump source.store with
    | .error e => (.error (.db e), source, dest)
    | .ok none => (.error .errNoKey, source, dest)
    | .ok (some data) =>
      match (xttl db T key).eval env.ttl source.store with
      | .error e => (.error (.db e), source, dest)
      | .ok ttl =>
        match doRestore rdb db key (ttl * 1000) data env.restore dest env.delivery with
        | (.error e, dest) => (.error e, source, dest)
        | (.ok _, dest) =>
          match exec env.del ((xdel key T).body db) source with
          | (.error e, source) => (.error (.db e), source, dest)
          | (.ok _, source) => (.ok (), source, dest)

/-- How far the migration is; its last two steps keep what they were done with. -/
inductive MigratePhase (rdb : Rdb)
  | start
  | locked
  | dumped (data : rdb.Data)
  | timed (data : rdb.Data) (ttl : Int64)
  | restored (data : rdb.Data) (ttl : Int64)
  | ended (r : Except MigrateErr Unit)

/-- The two servers during a migration, with the writes of clients at the source before it
has ended and after. -/
structure Migration where
  source : State
  dest : State
  locks : List Bytes
  phase : MigratePhase rdb
  before : List (Env × Call)
  after : List (Env × Call)

namespace Migration

inductive Action
  | write (env : Env) (c : Write)
  | lock
  | dump (env : Env)
  | ttl (env : Env)
  | restore (env : Env) (delivery : Delivery)
  | del (env : Env)

variable {rdb : Rdb}

def unlock (σ : Migration rdb) (key : Bytes) (r : Except MigrateErr Unit) : Migration rdb :=
  { σ with locks := σ.locks.erase key, phase := .ended r }

def write (db : DB) (σ : Migration rdb) (env : Env) (c : Write) : Migration rdb :=
  let source := (exec env (c.body db) σ.source).2
  match σ.phase with
  | .ended _ => { σ with source, after := σ.after ++ [(env, .write c)] }
  | _ => { σ with source, before := σ.before ++ [(env, .write c)] }

def lock (σ : Migration rdb) (key : Bytes) : Migration rdb :=
  if σ.locks.contains key then { σ with phase := .ended (.error .errKeyInMigrating) }
  else { σ with locks := key :: σ.locks, phase := .locked }

def dump (σ : Migration rdb) (env : Env) : Migration rdb :=
  match (xdump rdb db T key).eval env σ.source.store with
  | .error e => σ.unlock key (.error (.db e))
  | .ok none => σ.unlock key (.error .errNoKey)
  | .ok (some data) => { σ with phase := .dumped data }

def ttl (db : DB) (T : DataType) (key : Bytes) (σ : Migration rdb) (env : Env)
    (data : rdb.Data) : Migration rdb :=
  match (xttl db T key).eval env σ.source.store with
  | .error e => σ.unlock key (.error (.db e))
  | .ok ttl => { σ with phase := .timed data ttl }

def restore (σ : Migration rdb) (env : Env) (delivery : Delivery)
    (data : rdb.Data) (ttl : Int64) : Migration rdb :=
  match doRestore rdb db key (ttl * 1000) data env σ.dest delivery with
  | (.error e, dest) => { σ with dest }.unlock key (.error e)
  | (.ok _, dest) => { σ with dest, phase := .restored data ttl }

def del (σ : Migration rdb) (env : Env) : Migration rdb :=
  match exec env ((xdel key T).body db) σ.source with
  | (.error e, source) => { σ with source }.unlock key (.error (.db e))
  | (.ok _, source) => { σ with source }.unlock key (.ok ())

def Step (σ : Migration rdb) :
    Action → Migration rdb → Prop
  | .write env c, σ' => σ.write db env c = σ'
  | .lock, σ' => σ.phase = .start ∧ σ.lock key = σ'
  | .dump env, σ' => σ.phase = .locked ∧ σ.dump db T key env = σ'
  | .ttl env, σ' => ∃ data, σ.phase = .dumped data ∧ σ.ttl db T key env data = σ'
  | .restore env delivery, σ' => ∃ data ttl, σ.phase = .timed data ttl ∧
      σ.restore db key env delivery data ttl = σ'
  | .del env, σ' => ∃ data ttl, σ.phase = .restored data ttl ∧ σ.del db T key env = σ'

def SameValue (rdb : Rdb) (db : DB) (T : DataType) (key : Bytes) (s s' : Store) : Prop :=
  ∀ env, (xdump rdb db T key).eval env s' = (xdump rdb db T key).eval env s

/-- A write after the dump leaves the value of the key as it is, and after the read of the TTL
its deadline too. -/
def Keeps (σ : Migration rdb) : Action → Prop
  | .write env c =>
    let s' := (exec env (c.body db) σ.source).2.store
    match σ.phase with
    | .dumped _ => SameValue rdb db T key σ.source.store s'
    | .timed _ _ | .restored _ _ => SameValue rdb db T key σ.source.store s' ∧
        deadlineOf db s' T key = deadlineOf db σ.source.store T key
    | _ => True
  | _ => True

def start (source dest : State) (locks : List Bytes) : Migration rdb :=
  ⟨source, dest, locks, .start, [], []⟩

section

variable {db : DB} {T : DataType} {key : Bytes} {s₀ d₀ : State} {locks : List Bytes}
  {σ σ' : Migration rdb}

theorem xttl_congr {s s' : Store} (h : deadlineOf db s' T key = deadlineOf db s T key)
    (env : Env) : (xttl db T key).eval env s' = (xttl db T key).eval env s := by
  unfold deadlineOf at h
  rcases hk : checkKeySize key with e | u
  · simp [Op.eval, xttl, hk]
  · rcases ht : decodeInt64 (s.get (db.expEncodeMetaKey T.code key)) with e | t
    · simp [Op.eval, xttl, DB.ttl, h, ht]
    · by_cases h0 : t = 0 <;> simp [Op.eval, xttl, DB.ttl, h, ht, h0]

structure Pending (db : DB) (key : Bytes) (s₀ : State) (locks : List Bytes)
    (σ : Migration rdb) : Prop where
  free : key ∉ locks
  source : σ.source = run db σ.before s₀
  after : σ.after = []

def Dumped (db : DB) (T : DataType) (key : Bytes) (σ : Migration rdb) (data : rdb.Data) : Prop :=
  ∃ env, (xdump rdb db T key).eval env σ.source.store = .ok (some data)

def Timed (db : DB) (T : DataType) (key : Bytes) (σ : Migration rdb) (ttl : Int64) : Prop :=
  ∃ env, (xttl db T key).eval env σ.source.store = .ok ttl

/-- The migration has had the effect of `migrateKey` after the writes `before` and before the
writes `after`. -/
def AtOnce (db : DB) (T : DataType) (key : Bytes) (s₀ d₀ : State) (locks : List Bytes)
    (σ : Migration rdb) : Prop :=
  ∃ env st, migrateKey rdb db T key locks env (run db σ.before s₀) d₀ = (.ok (), st, σ.dest) ∧
    σ.source = run db σ.after st

def Inv (db : DB) (T : DataType) (key : Bytes) (s₀ d₀ : State) (locks : List Bytes)
    (σ : Migration rdb) : Prop :=
  match σ.phase with
  | .start => σ.source = run db σ.before s₀ ∧ σ.after = [] ∧ σ.dest = d₀ ∧ σ.locks = locks
  | .locked => Pending db key s₀ locks σ ∧ σ.dest = d₀
  | .dumped data => Pending db key s₀ locks σ ∧ σ.dest = d₀ ∧ Dumped db T key σ data
  | .timed data ttl => Pending db key s₀ locks σ ∧ σ.dest = d₀ ∧ Dumped db T key σ data ∧
      Timed db T key σ ttl
  | .restored data ttl => Pending db key s₀ locks σ ∧ Dumped db T key σ data ∧
      Timed db T key σ ttl ∧
      ∃ env delivery, doRestore rdb db key (ttl * 1000) data env d₀ delivery = (.ok (), σ.dest)
  | .ended (.ok _) => AtOnce db T key s₀ d₀ locks σ
  | .ended (.error _) => True

theorem Inv.start : Inv db T key s₀ d₀ locks (start s₀ d₀ locks : Migration rdb) :=
  ⟨rfl, rfl, rfl, rfl⟩

theorem Dumped.same {data : rdb.Data} (h : Dumped db T key σ data)
    (hs : SameValue rdb db T key σ.source.store σ'.source.store) : Dumped db T key σ' data := by
  obtain ⟨env, h⟩ := h
  exact ⟨env, (hs env).trans h⟩

theorem Timed.same {ttl : Int64} (h : Timed db T key σ ttl)
    (hs : deadlineOf db σ'.source.store T key = deadlineOf db σ.source.store T key) :
    Timed db T key σ' ttl := by
  obtain ⟨env, h⟩ := h
  exact ⟨env, (xttl_congr hs env).trans h⟩

theorem run_write {cs : List (Env × Call)} {st st' : State} (h : st' = run db cs st) (env : Env)
    (c : Write) : (exec env (c.body db) st').2 = run db (cs ++ [(env, .write c)]) st := by
  rw [run_append, ← h]
  rfl

section
variable (h : Inv db T key s₀ d₀ locks σ)
include h

theorem Inv.write {env : Env} {c : Write}
    (hC : Keeps db T key σ (.write env c)) : Inv db T key s₀ d₀ locks (σ.write db env c) := by
  obtain ⟨source, dest, ls, phase, before, after⟩ := σ
  cases phase with
  | start =>
    obtain ⟨hs, ha, hd, hl⟩ := h
    exact ⟨run_write hs env c, ha, hd, hl⟩
  | locked =>
    obtain ⟨hp, hd⟩ := h
    exact ⟨⟨hp.free, run_write hp.source env c, hp.after⟩, hd⟩
  | dumped data =>
    obtain ⟨hp, hd, hdata⟩ := h
    exact ⟨⟨hp.free, run_write hp.source env c, hp.after⟩, hd, hdata.same hC⟩
  | timed data ttl =>
    obtain ⟨hp, hd, hdata, httl⟩ := h
    exact ⟨⟨hp.free, run_write hp.source env c, hp.after⟩, hd, hdata.same hC.1, httl.same hC.2⟩
  | restored data ttl =>
    obtain ⟨hp, hdata, httl, hr⟩ := h
    exact ⟨⟨hp.free, run_write hp.source env c, hp.after⟩, hdata.same hC.1, httl.same hC.2, hr⟩
  | ended r =>
    cases r with
    | error e => trivial
    | ok u =>
      obtain ⟨menv, st, hm, hs⟩ := h
      exact ⟨menv, st, hm, run_write hs env c⟩

theorem Inv.lock (hphase : σ.phase = .start) : Inv db T key s₀ d₀ locks (σ.lock key) := by
  rw [Inv, hphase] at h
  obtain ⟨hs, ha, hd, hl⟩ := h
  unfold Migration.lock
  split
  · trivial
  · rename_i hfree
    exact ⟨⟨by simpa [hl] using hfree, hs, ha⟩, hd⟩

theorem Inv.dump (hphase : σ.phase = .locked) (env : Env) :
    Inv db T key s₀ d₀ locks (σ.dump db T key env) := by
  rw [Inv, hphase] at h
  obtain ⟨hp, hd⟩ := h
  unfold Migration.dump
  split
  · trivial
  · trivial
  · rename_i data hdata
    exact ⟨⟨hp.free, hp.source, hp.after⟩, hd, env, hdata⟩

theorem Inv.ttl {data : rdb.Data} (hphase : σ.phase = .dumped data) (env : Env) :
    Inv db T key s₀ d₀ locks (σ.ttl db T key env data) := by
  rw [Inv, hphase] at h
  obtain ⟨hp, hd, hdata⟩ := h
  unfold Migration.ttl
  split
  · trivial
  · rename_i ttl httl
    exact ⟨⟨hp.free, hp.source, hp.after⟩, hd, hdata, env, httl⟩

theorem Inv.restore {data : rdb.Data} {ttl : Int64}
    (hphase : σ.phase = .timed data ttl) (env : Env) (delivery : Delivery) :
    Inv db T key s₀ d₀ locks (σ.restore db key env delivery data ttl) := by
  rw [Inv, hphase] at h
  obtain ⟨hp, hd, hdata, httl⟩ := h
  unfold Migration.restore
  split
  · trivial
  · rename_i dest hr
    exact ⟨⟨hp.free, hp.source, hp.after⟩, hdata, httl, env, delivery, hd ▸ hr⟩

end

theorem migrateKey_ok {env : MigrateEnv} {st : State} {data : rdb.Data} {ttl : Int64}
    {st' d' : State} (hfree : key ∉ locks)
    (hdump : (xdump rdb db T key).eval env.dump st.store = .ok (some data))
    (httl : (xttl db T key).eval env.ttl st.store = .ok ttl)
    (hr : doRestore rdb db key (ttl * 1000) data env.restore d₀ env.delivery = (.ok (), d'))
    (hdel : exec env.del ((xdel key T).body db) st = (.ok (), st')) :
    migrateKey rdb db T key locks env st d₀ = (.ok (), st', d') := by
  simp [migrateKey, hfree, hdump, httl, hr, hdel]

theorem Inv.del (h : Inv db T key s₀ d₀ locks σ) {data : rdb.Data} {ttl : Int64}
    (hphase : σ.phase = .restored data ttl) (env : Env) :
    Inv db T key s₀ d₀ locks (σ.del db T key env) := by
  rw [Inv, hphase] at h
  obtain ⟨hp, ⟨denv, hdata⟩, ⟨tenv, httl⟩, renv, delivery, hr⟩ := h
  unfold Migration.del
  split
  · trivial
  · rename_i st hdel
    rw [hp.source] at hdata httl hdel
    refine ⟨⟨denv, tenv, delivery, renv, env⟩, st, migrateKey_ok hp.free hdata httl hr hdel, ?_⟩
    rw [hp.after]
    rfl

theorem Inv.step (h : Inv db T key s₀ d₀ locks σ) {a : Action} (hC : Keeps db T key σ a)
    (hs : Step db T key σ a σ') : Inv db T key s₀ d₀ locks σ' := by
  cases a with
  | write env c => exact hs ▸ h.write hC
  | lock => exact hs.2 ▸ h.lock hs.1
  | dump env => exact hs.2 ▸ h.dump hs.1 env
  | ttl env =>
    obtain ⟨data, hp, rfl⟩ := hs
    exact h.ttl hp env
  | restore env delivery =>
    obtain ⟨data, ttl, hp, rfl⟩ := hs
    exact h.restore hp env delivery
  | del env =>
    obtain ⟨data, ttl, hp, rfl⟩ := hs
    exact h.del hp env

theorem migrateKey_runs (s₀ d₀ : State)
    (locks : List Bytes) (env : MigrateEnv) : ∃ (r : Except MigrateErr Unit) (σ : Migration rdb),
    Reaches (Step db T key) (Keeps db T key) (start s₀ d₀ locks) σ ∧ σ.phase = .ended r ∧
    migrateKey rdb db T key locks env s₀ d₀ = (r, σ.source, σ.dest) ∧ σ.locks = locks := by
  have h1 : Reaches (Step db T key) (Keeps db T key) (start s₀ d₀ locks)
      ((start s₀ d₀ locks : Migration rdb).lock key) :=
    Reaches.next Action.lock .refl trivial ⟨rfl, rfl⟩
  by_cases hfree : key ∈ locks
  · exact ⟨.error .errKeyInMigrating, _, h1, by simp [migrateKey, Migration.lock, start, hfree]⟩
  rw [Migration.lock, if_neg (by simpa [start] using hfree)] at h1
  have h2 := h1.next (Action.dump env.dump) trivial ⟨rfl, rfl⟩
  rcases hdump : (xdump rdb db T key).eval env.dump s₀.store with e | _ | data
  · exact ⟨.error (.db e), _, h2, by simp [migrateKey, Migration.dump, unlock, start, hfree, hdump]⟩
  · exact ⟨.error .errNoKey, _, h2,
      by simp [migrateKey, Migration.dump, unlock, start, hfree, hdump]⟩
  simp only [Migration.dump, start, hdump] at h2
  have h3 := h2.next (Action.ttl env.ttl) trivial ⟨data, rfl, rfl⟩
  rcases httl : (xttl db T key).eval env.ttl s₀.store with e | ttl
  · exact ⟨.error (.db e), _, h3, by simp [migrateKey, Migration.ttl, unlock, hfree, hdump, httl]⟩
  simp only [Migration.ttl, httl] at h3
  have h4 := h3.next (Action.restore env.restore env.delivery) trivial ⟨data, ttl, rfl, rfl⟩
  rcases hr : doRestore rdb db key (ttl * 1000) data env.restore d₀ env.delivery with ⟨e | u, dest⟩
  · exact ⟨.error e, _, h4,
      by simp [migrateKey, Migration.restore, unlock, hfree, hdump, httl, hr]⟩
  simp only [Migration.restore, hr] at h4
  have h5 := h4.next (Action.del env.del) trivial ⟨data, ttl, rfl, rfl⟩
  rcases hdel : exec env.del ((xdel key T).body db) s₀ with ⟨e | u, source⟩
  · exact ⟨.error (.db e), _, h5,
      by simp [migrateKey, Migration.del, unlock, hfree, hdump, httl, hr, hdel]⟩
  · exact ⟨.ok (), _, h5, by simp [migrateKey, Migration.del, unlock, hfree, hdump, httl, hr, hdel]⟩

end

def plain : Rdb := ⟨Int64, RdbValue Int64, id, id, id, .ok⟩

end Migration

end LedisDB
