import LedisDB.Iterator

/-!
# Operations: reads of the committed store, a queue of writes, one commit

Every database operation takes the lock of its type's batch, reads the store
as last committed, queues puts and deletes, and commits the queue at the end
or gives up. `Unlock` empties the queue on every path (`ledis/batch.go`). `Op`
is such a body: the queue and the TTL checker's next check time survive an
error, because the source keeps both across the error returns it ignores.

`exec` runs a body under the lock. Identifiers of the source are kept as they
stand there, exported ones with their capital.
-/

namespace LedisDB

abbrev Store := OrderedMap Bytes Bytes
abbrev Batch := List (WriteOp Bytes Bytes)

inductive Err
  | errKeySize
  | errValueSize
  | errHashFieldSize
  | errSetMemberSize
  | errZSetMemberSize
  | errExpireValue
  | errListIndex
  | ErrScoreMiss
  | ErrWriteInROnly
  | errIntNumber
  | errNumSyntax
  | errNumRange
  | errListSeq
  | errScoreOverflow
  | errInvalidAggregate
  | errInvalidWeightNum
  | errInvalidSrcKeyNum
  | errKVKey
  | errHashKey
  | errHSizeKey
  | errListKey
  | errLMetaKey
  | errSetKey
  | errSSizeKey
  | errZSetKey
  | errZSizeKey
  | errZScoreKey
  | errExpMetaKey
  | errExpTimeKey
  | errKeyTooSmall
  | errDBIndex
  | errBitOP
  | errBitValue
  | errDataType
  /-- `"%s scores can't be converted into double"`, with the value. -/
  | scoreNotDouble (cmpValue : Bytes)
  | driver (code : ℕ)
  | panic
  deriving DecidableEq

theorem except_bind_ok {a : Except Err Unit} {f : Unit → Except Err Unit}
    (h : (a >>= f) = .ok ()) : a = .ok () ∧ f () = .ok () := by
  cases a with
  | error e => cases h
  | ok u => exact ⟨rfl, h⟩

/-- What one call meets outside the store: the clock, the read-only switch, the
outcome of the driver's commit and the order in which Go ranges over a map. -/
structure Env where
  now : Int64
  readonly : Bool
  commitErr : Store → Batch → Option Err
  mapOrder : List Bytes → List Bytes
  mapOrder_perm : ∀ l, (mapOrder l).Perm l

structure Txn where
  batch : Batch
  nc : Int64

/-- The transaction after `b` has been queued as well. -/
@[simp] abbrev Txn.queue (t : Txn) (b : Batch) : Txn := { t with batch := t.batch ++ b }

theorem Txn.queue_nil (t : Txn) : t.queue [] = t := by simp

theorem Txn.queue_queue (t : Txn) (a b : Batch) : (t.queue a).queue b = t.queue (a ++ b) := by
  simp

def Op (α : Type) : Type := Env → Store → Txn → Except Err α × Txn

variable {t t' : Txn} {k : Bytes} {α : Type}

namespace Op

variable {α γ : Type} {env : Env} {s : Store}

protected def pure (a : α) : Op α := fun _ _ t => (.ok a, t)

protected def bind (x : Op α) (f : α → Op γ) : Op γ := fun env s t =>
  match x env s t with
  | (.ok a, t') => f a env s t'
  | (.error e, t') => (.error e, t')

instance instMonad : Monad Op where
  pure := Op.pure
  bind := Op.bind

def throw (e : Err) : Op α := fun _ _ t => (.error e, t)

def lift (r : Except Err α) : Op α := fun _ _ t => (r, t)

/-- `db.bucket.Get`; the driver reports a missing key as nil and no other error. -/
def get (k : Bytes) : Op (Option Bytes) := fun _ s t => (.ok (s.get k), t)

def find (k : Bytes) : Op (Option Bytes) := fun _ s t => (.ok (s.newIterator.Find k), t)

def range (r : Range Bytes) (l : Limit) (direction : Direction) : Op (List (Bytes × Bytes)) :=
  fun _ s t => (.ok (s.rangeLimit r l direction), t)

def put (k v : Bytes) : Op Unit :=
  fun _ _ t => (.ok (), { t with batch := t.batch ++ [.put k v] })

def delete (k : Bytes) : Op Unit :=
  fun _ _ t => (.ok (), { t with batch := t.batch ++ [.delete k] })

def deleteAll : List Bytes → Op Unit
  | [] => Op.pure ()
  | k :: ks => Op.bind (delete k) (fun _ => deleteAll ks)

def now : Op Int64 := fun env _ t => (.ok env.now, t)

def mapOrder (l : List Bytes) : Op (List Bytes) := fun env _ t => (.ok (env.mapOrder l), t)

/-- `setNextCheckTime(when, false)`. -/
def setNextCheckTime (w : Int64) : Op Unit :=
  fun _ _ t => (.ok (), { t with nc := if t.nc > w then w else t.nc })

/-- A call whose error result is assigned to the blank identifier. A run-time
panic is not an error result. -/
def ignoreErr (x : Op α) (d : α) : Op α := fun env s t =>
  match x env s t with
  | (.ok a, t') => (.ok a, t')
  | (.error .panic, t') => (.error .panic, t')
  | (.error _, t') => (.ok d, t')

section
variable (env : Env) (s : Store) (t : Txn)

@[simp] theorem pure_run (a : α) : (pure a : Op α) env s t = (.ok a, t) := rfl

@[simp] theorem bind_run (x : Op α) (f : α → Op γ) :
    (x >>= f) env s t = match x env s t with
      | (.ok a, t') => f a env s t'
      | (.error e, t') => (.error e, t') := rfl

@[simp] theorem throw_run (e : Err) : (throw e : Op α) env s t = (.error e, t) := rfl

@[simp] theorem lift_run (r : Except Err α) : lift r env s t = (r, t) := rfl

@[simp] theorem get_run (k : Bytes) : get k env s t = (.ok (s.get k), t) := rfl

@[simp] theorem find_run (k : Bytes) : find k env s t = (.ok (s.get k), t) := by
  rw [find, OrderedMap.find_eq_get]

@[simp] theorem range_run (r : Range Bytes) (l : Limit) (d : Direction) :
    range r l d env s t = (.ok (s.rangeLimit r l d), t) := rfl

@[simp] theorem put_run (k v : Bytes) : put k v env s t = (.ok (), t.queue [.put k v]) := rfl

@[simp] theorem delete_run (k : Bytes) : delete k env s t = (.ok (), t.queue [.delete k]) := rfl

@[simp] theorem deleteAll_run (ks : List Bytes) :
    deleteAll ks env s t = (.ok (), t.queue (ks.map .delete)) := by
  induction ks generalizing t with
  | nil => simp [deleteAll, Op.pure]
  | cons k ks ih => simp [deleteAll, Op.bind, ih]

@[simp] theorem now_run : now env s t = (.ok env.now, t) := rfl

@[simp] theorem mapOrder_run (l : List Bytes) :
    mapOrder l env s t = (.ok (env.mapOrder l), t) := rfl

@[simp] theorem setNextCheckTime_run (w : Int64) :
    setNextCheckTime w env s t = (.ok (), { t with nc := if t.nc > w then w else t.nc }) := rfl

end

theorem bind_ok {x : Op α} {f : α → Op γ} {b : γ} :
    (x >>= f) env s t = (.ok b, t') ↔
      ∃ a u, x env s t = (.ok a, u) ∧ f a env s u = (.ok b, t') := by
  rw [bind_run]
  rcases x env s t with ⟨r, u⟩
  cases r with
  | error e => simp
  | ok a => simp

theorem lift_ok {r : Except Err α} {a : α} : lift r env s t = (.ok a, t') ↔ r = .ok a ∧ t' = t := by
  simp [eq_comm]

def eval (x : Op α) (env : Env) (s : Store) : Except Err α := (x env s ⟨[], 0⟩).1

def Reads (x : Op α) (env : Env) (s : Store) : Prop := ∀ t, x env s t = (x.eval env s, t)

section
variable {env : Env} {s : Store}

theorem Reads.pure (a : α) : (Pure.pure a : Op α).Reads env s := fun _ => rfl

theorem Reads.throw (e : Err) : (Op.throw e : Op α).Reads env s := fun _ => rfl

theorem Reads.lift (r : Except Err α) : (Op.lift r).Reads env s := fun _ => rfl

theorem Reads.get (k : Bytes) : (Op.get k).Reads env s := fun _ => rfl

theorem Reads.range (r : Range Bytes) (l : Limit) (d : Direction) :
    (Op.range r l d).Reads env s := fun _ => rfl

theorem Reads.mapOrder (l : List Bytes) : (Op.mapOrder l).Reads env s := fun _ => rfl

theorem Reads.bind {x : Op α} {f : α → Op γ} (hx : x.Reads env s)
    (hf : ∀ a, (f a).Reads env s) : (x >>= f).Reads env s := by
  intro t
  rw [eval, bind_run, bind_run, hx t, hx ⟨[], 0⟩]
  cases x.eval env s with
  | error e => rfl
  | ok a => exact hf a t

theorem Reads.ite {c : Prop} [Decidable c] {x y : Op α} (hx : x.Reads env s)
    (hy : y.Reads env s) : (if c then x else y).Reads env s := by
  split_ifs
  · exact hx
  · exact hy

theorem Reads.ok {x : Op α} (hx : x.Reads env s) {a : α}
    (h : x env s t = (.ok a, t')) : x.eval env s = .ok a ∧ t' = t := by
  rw [hx t] at h
  exact ⟨(Prod.mk.inj h).1, (Prod.mk.inj h).2.symm⟩

end

/-! ## What a body queues

`x.Queues env s P` says that on store `s` the body only appends to the queue,
and that what it appends satisfies `P`, on the error paths too. -/

def Queues (x : Op α) (env : Env) (s : Store) (P : Batch → Prop) : Prop :=
  ∀ t, ∃ ws, (x env s t).2.batch = t.batch ++ ws ∧ P ws

/-- What the queues of two bodies in a row satisfy when each of them does. -/
class Closed (P : Batch → Prop) : Prop where
  nil : P []
  append : ∀ {a b}, P a → P b → P (a ++ b)

section
variable {env : Env} {s : Store} {P Q : Batch → Prop}

theorem Queues.silent {x : Op α} (hP : P []) (h : ∀ t, (x env s t).2.batch = t.batch) :
    x.Queues env s P := fun t => ⟨[], by simp [h t], hP⟩

section
variable [Closed P]

theorem Queues.reads {x : Op α} (hx : x.Reads env s) : x.Queues env s P :=
  silent Closed.nil fun t => by rw [hx t]

theorem Queues.pure (a : α) : (Pure.pure a : Op α).Queues env s P := reads (.pure a)

theorem Queues.throw (e : Err) : (Op.throw e : Op α).Queues env s P := reads (.throw e)

theorem Queues.lift (r : Except Err α) : (Op.lift r).Queues env s P := reads (.lift r)

theorem Queues.get (k : Bytes) : (Op.get k).Queues env s P := reads (.get k)

theorem Queues.find (k : Bytes) : (Op.find k).Queues env s P := reads fun _ => rfl

theorem Queues.now : Op.now.Queues env s P := reads fun _ => rfl

theorem Queues.mapOrder (l : List Bytes) : (Op.mapOrder l).Queues env s P := reads (.mapOrder l)

theorem Queues.bind {x : Op α} {f : α → Op γ} (hx : x.Queues env s P)
    (hf : ∀ a, (f a).Queues env s P) : (x >>= f).Queues env s P := by
  intro t
  obtain ⟨ws, hws, hp⟩ := hx t
  simp only [bind_run]
  rcases hxt : x env s t with ⟨r, t'⟩
  rw [hxt] at hws
  cases r with
  | error e => exact ⟨ws, hws, hp⟩
  | ok a =>
    obtain ⟨vs, hvs, hq⟩ := hf a t'
    refine ⟨ws ++ vs, ?_, Closed.append hp hq⟩
    rw [hvs, hws, List.append_assoc]

theorem Queues.reads_bind {x : Op α} {f : α → Op γ} (hx : x.Reads env s)
    (hf : ∀ a, x.eval env s = .ok a → (f a).Queues env s P) : (x >>= f).Queues env s P := by
  intro t
  rw [bind_run, hx t]
  cases hr : x.eval env s with
  | error e => exact ⟨[], (List.append_nil _).symm, Closed.nil⟩
  | ok a => exact hf a hr t

theorem Queues.lift_bind {r : Except Err α} {f : α → Op γ}
    (hf : ∀ a, r = .ok a → (f a).Queues env s P) : (Op.lift r >>= f).Queues env s P :=
  reads_bind (.lift r) hf

end

theorem Queues.put {v : Bytes} (h : P [.put k v]) : (Op.put k v).Queues env s P :=
  fun _ => ⟨_, rfl, h⟩

theorem Queues.delete (h : P [.delete k]) : (Op.delete k).Queues env s P :=
  fun _ => ⟨_, rfl, h⟩

theorem Queues.deleteAll {ks : List Bytes} (h : P (ks.map .delete)) :
    (Op.deleteAll ks).Queues env s P :=
  fun t => ⟨_, by rw [deleteAll_run], h⟩

theorem Queues.ite {c : Prop} [Decidable c] {x y : Op α} (hx : c → x.Queues env s P)
    (hy : ¬ c → y.Queues env s P) : (if c then x else y).Queues env s P := by
  split_ifs with h
  · exact hx h
  · exact hy h

theorem Queues.range_bind {r : Range Bytes} {l : Limit} {d : Direction}
    {f : List (Bytes × Bytes) → Op γ} (hf : (f (s.rangeLimit r l d)).Queues env s P) :
    (Op.range r l d >>= f).Queues env s P := hf

theorem Queues.get_bind {f : Option Bytes → Op γ} (hf : (f (s.get k)).Queues env s P) :
    (Op.get k >>= f).Queues env s P := hf

theorem Queues.now_bind {f : Int64 → Op γ} (hf : (f env.now).Queues env s P) :
    (Op.now >>= f).Queues env s P := hf

theorem Queues.ignoreErr {x : Op α} (hx : x.Queues env s P) (d : α) :
    (x.ignoreErr d).Queues env s P := by
  intro t
  obtain ⟨ws, hws, hp⟩ := hx t
  refine ⟨ws, ?_, hp⟩
  rcases hxt : x env s t with ⟨r, t'⟩
  cases r with
  | ok a => simpa only [Op.ignoreErr, hxt] using hws
  | error e => cases e <;> simpa only [Op.ignoreErr, hxt] using hws

end

end Op

/-- How a body ends: without a commit, with one whose error is returned, or with
one whose error is replaced by a result. -/
inductive Ret (α : Type)
  | done (a : α)
  | commit (a : α)
  | commitOr (a fallback : α)

structure State where
  store : Store
  nc : Int64

variable {env : Env} {st : State}

def State.empty : State := ⟨OrderedMap.empty, 0⟩

/-- `batch.Commit` with replication off. -/
def commit (env : Env) (s : Store) (b : Batch) : Except Err Store :=
  if env.readonly then .error .ErrWriteInROnly
  else match env.commitErr s b with
    | some e => .error e
    | none => .ok (s.applyBatch b)

def Env.Commits (env : Env) : Prop := env.readonly = false ∧ ∀ s b, env.commitErr s b = none

theorem Env.Commits.commit (h : env.Commits) (s : Store) (b : Batch) :
    commit env s b = .ok (s.applyBatch b) := by
  simp [LedisDB.commit, h.1, h.2]

def exec (env : Env) (x : Op (Ret α)) (st : State) : Except Err α × State :=
  match x env st.store ⟨[], st.nc⟩ with
  | (.error e, t) => (.error e, ⟨st.store, t.nc⟩)
  | (.ok (.done a), t) => (.ok a, ⟨st.store, t.nc⟩)
  | (.ok (.commit a), t) =>
    match commit env st.store t.batch with
    | .error e => (.error e, ⟨st.store, t.nc⟩)
    | .ok s => (.ok a, ⟨s, t.nc⟩)
  | (.ok (.commitOr a fallback), t) =>
    match commit env st.store t.batch with
    | .error _ => (.ok fallback, ⟨st.store, t.nc⟩)
    | .ok s => (.ok a, ⟨s, t.nc⟩)

theorem Env.Commits.exec {env : Env} (h : env.Commits) {x : Op (Ret α)} {st : State}
    {a : α} (hx : x env st.store ⟨[], st.nc⟩ = (.ok (.commit a), t)) :
    exec env x st = (.ok a, ⟨st.store.applyBatch t.batch, t.nc⟩) := by
  simp [LedisDB.exec, hx, h.commit]

/-- The call returned an error; it has then changed nothing. -/
def Fails (r : Except Err α × State) : Prop := ∃ e, r.1 = .error e

instance {α : Type} (r : Except Err α × State) : Decidable (Fails r) :=
  match r with
  | (.error e, _) => isTrue ⟨e, rfl⟩
  | (.ok _, _) => isFalse (by simp [Fails])

theorem commit_ok {s s' : Store} {b : Batch} (h : commit env s b = .ok s') :
    s' = s.applyBatch b := by
  unfold commit at h
  split_ifs at h
  cases he : env.commitErr s b with
  | some e => simp [he] at h
  | none => simpa [he] using h.symm

theorem exec_store (env : Env) (x : Op (Ret α)) (st : State) :
    (exec env x st).2.store = st.store ∨
    (exec env x st).2.store = st.store.applyBatch (x env st.store ⟨[], st.nc⟩).2.batch := by
  unfold exec
  rcases x env st.store ⟨[], st.nc⟩ with ⟨r, t⟩
  cases r with
  | error e => exact .inl rfl
  | ok a =>
    cases a with
    | done a => exact .inl rfl
    | commit a | commitOr a b =>
      cases hc : commit env st.store t.batch with
      | error e => simp [hc]
      | ok s' => simp [hc, commit_ok hc]

theorem exec_error {x : Op (Ret α)} {e : Err} (h : (exec env x st).1 = .error e) :
    (exec env x st).2.store = st.store := by
  unfold exec at h ⊢
  generalize x env st.store ⟨[], st.nc⟩ = r at h ⊢
  rcases r with ⟨r, t⟩
  cases r with
  | error e => rfl
  | ok a =>
    cases a with
    | done a => rfl
    | commit a | commitOr a b =>
      cases hc : commit env st.store t.batch with
      | error e => simp [hc]
      | ok s' => simp [hc] at h

theorem exec_of_not_fails {x : Op (Ret α)} {a : α}
    (hx : x env st.store ⟨[], st.nc⟩ = (.ok (.commit a), t)) (h : ¬ Fails (exec env x st)) :
    exec env x st = (.ok a, ⟨st.store.applyBatch t.batch, t.nc⟩) := by
  rw [exec, hx] at h ⊢
  cases hc : commit env st.store t.batch with
  | error e => exact absurd ⟨e, by simp [hc]⟩ h
  | ok s => simp [hc, commit_ok hc]

theorem exec_commit_ok {x : Op (Ret α)} {st' : State} {a : α}
    (hx : ∀ r t, x env st.store ⟨[], st.nc⟩ = (.ok r, t) → ∃ b, r = .commit b)
    (h : exec env x st = (.ok a, st')) :
    ∃ t, x env st.store ⟨[], st.nc⟩ = (.ok (.commit a), t) ∧
      st' = ⟨st.store.applyBatch t.batch, t.nc⟩ := by
  rw [exec] at h
  rcases hrun : x env st.store ⟨[], st.nc⟩ with ⟨r, t⟩
  rw [hrun] at h
  cases r with
  | error e => cases h
  | ok r =>
    obtain ⟨b, rfl⟩ := hx r t hrun
    cases hc : commit env st.store t.batch with
    | error e => simp [hc] at h
    | ok s' =>
      simp only [hc] at h
      cases h
      exact ⟨t, rfl, by rw [commit_ok hc]⟩

theorem exec_cases (env : Env) (x : Op (Ret α)) (st : State) :
    (exec env x st).2.store = st.store ∨ ∃ r t, x env st.store ⟨[], st.nc⟩ = (.ok r, t) ∧
      (exec env x st).2.store = st.store.applyBatch t.batch := by
  rcases exec_store env x st with h | h
  · exact .inl h
  · rcases hx : x env st.store ⟨[], st.nc⟩ with ⟨r, t⟩
    cases r with
    | error e =>
      simp [exec, hx]
    | ok r =>
      right
      exact ⟨r, t, rfl, by rw [h, hx]⟩

theorem exec_store_of_queues {x : Op (Ret α)} {P : Batch → Prop} (hx : x.Queues env st.store P) :
    (exec env x st).2.store = st.store ∨
    ∃ b, P b ∧ (exec env x st).2.store = st.store.applyBatch b := by
  obtain ⟨ws, hws, hp⟩ := hx ⟨[], st.nc⟩
  rcases exec_store env x st with h | h
  · exact .inl h
  · right
    exact ⟨ws, hp, by rw [h, hws, List.nil_append]⟩

end LedisDB
