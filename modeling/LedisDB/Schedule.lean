import LedisDB.ExpiryCompleteness
import LedisDB.Simulation

/-!
# When the checker looks next

An expire call lowers the next check time and then commits, under the lock of its type.
A check computes the next check time from a snapshot of the time index and overwrites
the shared one at its end, so a deadline that came in after the snapshot is forgotten
until the computed time, up to an hour later. Without such a deadline below the
computed time, and with the commits of the check succeeding, the next check time is
never behind a deadline.
-/

namespace LedisDB

structure PendingExpire where
  type : DataType
  w : Int64
  batch : Batch

/-- A check between its steps: the rest of its snapshot and the time it will set. -/
structure Checker where
  now : Int64
  rest : List (Bytes × Bytes)
  nc : Int64
deriving DecidableEq

/-- A database with its clients and its checker. Of the expire calls that were under way when
the snapshot was taken or began later, `late` has the deadlines. -/
structure Schedule (ι : Type*) where
  st : State
  clients : ι → Option PendingExpire
  checker : Option Checker
  late : Set Int64

namespace Schedule

inductive Action (ι : Type*)
  | expire (i : ι) (env : Env) (c : Write)
  | commit (i : ι) (env : Env)
  | snapshot (now : Int64)
  | checkKey (env : Env)
  | setNextCheckTime

variable {ι : Type*} [DecidableEq ι]

def expire (db : DB) (σ : Schedule ι) (i : ι) (env : Env) (c : Write) (w : Int64) : Schedule ι :=
  match c.body db env σ.st.store ⟨[], σ.st.nc⟩ with
  | (.ok (.commit _), t) =>
    { σ with
      st := ⟨σ.st.store, t.nc⟩
      clients := Function.update σ.clients i (some ⟨c.type, w, t.batch⟩)
      late := insert w σ.late }
  | (_, t) => { σ with st := ⟨σ.st.store, t.nc⟩ }

def commit (σ : Schedule ι) (i : ι) (env : Env) (p : PendingExpire) : Schedule ι :=
  { σ with
    st := ⟨match LedisDB.commit env σ.st.store p.batch with
      | .ok s => s
      | .error _ => σ.st.store, σ.st.nc⟩
    clients := Function.update σ.clients i none }

def snapshot (db : DB) (σ : Schedule ι) (now : Int64) : Schedule ι :=
  { σ with
    checker := some ⟨now, LedisDB.snapshot db now σ.st.store, now + 3600⟩
    late := {w | ∃ i p, σ.clients i = some p ∧ p.w = w} }

def checkKey (db : DB) (σ : Schedule ι) (env : Env) (c : Checker) (tk mk : Bytes)
    (es : List (Bytes × Bytes)) : Option (Schedule ι) :=
  match db.expDecodeTimeKey tk with
  | .error _ => some { σ with checker := some { c with rest := es } }
  | .ok (dt, k, nt) =>
    if nt > c.now then some { σ with checker := some ⟨c.now, [], nt⟩ }
    else if dt ≥ maxDataType then none
    else match onExpired db dt with
      | none => some { σ with checker := some { c with rest := es } }
      | some cb =>
        match exec env (LedisDB.checkKey cb tk mk k) σ.st with
        | (.error _, _) => none
        | (.ok _, st) => some { σ with st, checker := some { c with rest := es } }

/-- A step of a call or of the checker on a key waits for the lock of the type. -/
def Step (db : DB) (σ : Schedule ι) : Action ι → Schedule ι → Prop
  | .expire i env c, σ' => ∃ k w, c.deadline env.now = some (k, w) ∧ σ.clients i = none ∧
      (∀ j p, σ.clients j = some p → p.type ≠ c.type) ∧ σ.expire db i env c w = σ'
  | .commit i env, σ' => ∃ p, σ.clients i = some p ∧ σ.commit i env p = σ'
  | .snapshot now, σ' => σ.checker = none ∧ σ.st.nc ≤ now ∧ σ.snapshot db now = σ'
  | .checkKey env, σ' => ∃ c tk mk es, σ.checker = some c ∧ c.rest = (tk, mk) :: es ∧
      env.now = c.now ∧
      (∀ dt k nt, db.expDecodeTimeKey tk = .ok (dt, k, nt) → nt ≤ c.now →
        ∀ j p, σ.clients j = some p → p.type.code ≠ dt) ∧
      σ.checkKey db env c tk mk es = some σ'
  | .setNextCheckTime, σ' => ∃ c, σ.checker = some c ∧ c.rest = [] ∧
      { σ with st := ⟨σ.st.store, c.nc⟩, checker := none } = σ'

/-- The commit on a key succeeds, and the check does not set a time behind a deadline that it
cannot have seen. -/
def Safe (σ : Schedule ι) : Action ι → Prop
  | .checkKey env => env.Commits
  | .setNextCheckTime => ∀ c, σ.checker = some c → ∀ w ∈ σ.late, 0 < w → c.nc ≤ w
  | _ => True

def opened (s : Store) : Schedule ι := ⟨⟨s, 0⟩, fun _ => none, none, ∅⟩

end Schedule

section
variable {α : Type} {db : DB} {env : Env} {s : Store} {w duration : Int64} {key value : Bytes}
  {f : Int64 → Op (Ret Int64)}

def Lowers (env : Env) (s : Store) (w : Int64) (x : Op (Ret α)) : Prop :=
  ∀ u, (∃ e, x env s u = (.error e, u)) ∨ (∃ a, x env s u = (.ok (.done a), u)) ∨
    ∃ a b, x env s u = (.ok (.commit a), ⟨b, if u.nc > w then w else u.nc⟩)

theorem Lowers.throw (e : Err) : Lowers env s w (Op.throw e : Op (Ret α)) :=
  fun _ => Or.inl ⟨e, rfl⟩

theorem Lowers.reads_bind {γ : Type} {x : Op γ} (hx : x.Reads env s) {f : γ → Op (Ret α)}
    (hf : ∀ a, Lowers env s w (f a)) : Lowers env s w (x >>= f) := by
  intro u
  rw [Op.bind_run, hx u]
  cases x.eval env s with
  | error e => exact .inl ⟨e, rfl⟩
  | ok a => exact hf a u

theorem Lowers.discard {x : Op (Ret α)} (hx : Lowers env s w x) : Lowers env s w x.discard := by
  intro u
  rw [Op.discard, Op.bind_run]
  rcases hx u with ⟨e, h⟩ | ⟨a, h⟩ | ⟨a, b, h⟩ <;> rw [h]
  · exact .inl ⟨e, rfl⟩
  · exact .inr (.inl ⟨(), rfl⟩)
  · exact .inr (.inr ⟨(), b, rfl⟩)

theorem expireSized_lowers {t : UInt8} {size : Op Int64} (hsize : size.Reads env s) :
    Lowers env s w (db.expireSized t key size w) := by
  refine .reads_bind hsize fun n => ?_
  split_ifs
  · exact fun u => .inr (.inl ⟨0, rfl⟩)
  · exact fun u => .inr (.inr ⟨1, _, rfl⟩)

theorem expireDuration_lowers (hf : Lowers env s (env.now + duration) (f (env.now + duration))) :
    Lowers env s (env.now + duration) (DB.expireDuration duration f) := by
  unfold DB.expireDuration
  split_ifs
  · exact .throw _
  · exact hf

theorem expireDeadline_lowers (hf : Lowers env s w (f w)) :
    Lowers env s w (DB.expireDeadline w f) := by
  refine .reads_bind (fun _ => rfl) fun now => ?_
  split_ifs
  · exact .throw _
  · exact hf

theorem SetEX_lowers : Lowers env s (env.now + duration) (db.SetEX key duration value) := by
  refine .reads_bind (.lift _) fun _ => .reads_bind (.lift _) fun _ => ?_
  split_ifs
  · exact .throw _
  · exact fun u => .inr (.inr ⟨(), _, rfl⟩)

theorem Write.lowers {c : Write} (hD : c.deadline env.now = some (key, w)) :
    Lowers env s w (c.body db) := by
  cases c <;> cases hD
  case SetEX => exact SetEX_lowers.discard
  case Expire => exact (expireDuration_lowers (expireSized_lowers (keyExists_reads _ _))).discard
  case ExpireAt => exact (expireDeadline_lowers (expireSized_lowers (keyExists_reads _ _))).discard
  case HExpire => exact (expireDuration_lowers (expireSized_lowers (readSize_reads _ _))).discard
  case HExpireAt => exact (expireDeadline_lowers (expireSized_lowers (readSize_reads _ _))).discard
  case LExpire => exact (expireDuration_lowers (expireSized_lowers LLen_reads)).discard
  case LExpireAt => exact (expireDeadline_lowers (expireSized_lowers LLen_reads)).discard
  case SExpire => exact (expireDuration_lowers (expireSized_lowers (readSize_reads _ _))).discard
  case SExpireAt => exact (expireDeadline_lowers (expireSized_lowers (readSize_reads _ _))).discard
  case ZExpire => exact (expireDuration_lowers (expireSized_lowers (readSize_reads _ _))).discard
  case ZExpireAt => exact (expireDeadline_lowers (expireSized_lowers (readSize_reads _ _))).discard

end

namespace Schedule

variable {ι : Type*} {db : DB} {env : Env} {σ σ' : Schedule ι} {s : Store} {st : State}

section
variable [DecidableEq ι]

abbrev Runs (db : DB) : Schedule ι → Schedule ι → Prop := Reaches (Step db) fun _ _ => True

def idle (st : State) (late : Set Int64) : Schedule ι := ⟨st, fun _ => none, none, late⟩

theorem Runs.next {s₀ : Schedule ι} (a : Action ι) (h : Runs db s₀ σ) (hs : Step db σ a σ') :
    Runs db s₀ σ' := .step h trivial hs

theorem expire_runs {c : Write} {k : Bytes} {w : Int64} (hD : c.deadline env.now = some (k, w))
    (i : ι) (late : Set Int64) :
    ∃ late', Runs db (idle st late : Schedule ι) (idle (exec env (c.body db) st).2 late') := by
  have hlow : Lowers env st.store w (c.body db) := c.lowers hD
  have hbegin : Runs db (idle st late) ((idle st late).expire db i env c w) :=
    Runs.next (.expire i env c) .refl ⟨k, w, hD, rfl, (fun _ _ h => nomatch h), rfl⟩
  unfold expire at hbegin
  unfold exec
  rcases hlow ⟨[], st.nc⟩ with ⟨e, h⟩ | ⟨a, h⟩ | ⟨a, b, h⟩ <;> simp only [idle, h] at hbegin ⊢
  · exact ⟨_, hbegin⟩
  · exact ⟨_, hbegin⟩
  · have hcommit := hbegin.next (.commit i env) ⟨⟨c.type, w, b⟩, by simp, rfl⟩
    have hnone : Function.update (fun _ : ι => (none : Option PendingExpire)) i none =
        fun _ => none := Function.update_eq_self i _
    simp only [commit, Function.update_idem, hnone] at hcommit
    cases hres : LedisDB.commit env st.store b <;> simp only [hres] at hcommit ⊢ <;>
      exact ⟨_, hcommit⟩

theorem checkLoop_runs {s₀ : Schedule ι} {es : List (Bytes × Bytes)} {nc n : Int64}
    {late : Set Int64} {st' : State} {xs : List Expiry}
    (hrun : Runs db s₀ ⟨st, fun _ => none, some ⟨env.now, es, nc⟩, late⟩)
    (h : checkLoop db env es nc st = (.ok n, st', xs)) :
    Runs db s₀ ⟨st', fun _ => none, some ⟨env.now, [], n⟩, late⟩ := by
  induction es generalizing st xs with
  | nil =>
    cases h
    exact hrun
  | cons e es ih =>
    obtain ⟨tk, mk⟩ := e
    have hnext : ∀ σ', checkKey db ⟨st, fun _ => none, some ⟨env.now, (tk, mk) :: es, nc⟩, late⟩
        env ⟨env.now, (tk, mk) :: es, nc⟩ tk mk es = some σ' → Runs db s₀ σ' := fun σ' hσ' =>
      hrun.next (.checkKey env)
        ⟨_, tk, mk, es, rfl, rfl, rfl, (fun _ _ _ _ _ _ _ h => nomatch h), hσ'⟩
    unfold checkLoop at h
    unfold checkKey at hnext
    cases hdec : db.expDecodeTimeKey tk with
    | error e =>
      simp only [hdec] at h hnext
      exact ih (hnext _ rfl) h
    | ok x =>
      obtain ⟨dt, k, nt⟩ := x
      simp only [hdec] at h hnext
      split_ifs at h hnext with hnt hdt
      · cases h
        exact hnext _ rfl
      · cases h
      · cases hcb : onExpired db dt with
        | none =>
          simp only [hcb] at h hnext
          exact ih (hnext _ rfl) h
        | some cb =>
          simp only [hcb] at h hnext
          rcases hx : exec env (LedisDB.checkKey cb tk mk k) st with ⟨e | called, st₁⟩
          · simp only [hx] at h
            cases h
          · simp only [hx] at h hnext
            obtain ⟨h1, h2⟩ := Prod.ext_iff.mp h
            obtain ⟨h2, h3⟩ := Prod.ext_iff.mp h2
            exact @ih st₁ (checkLoop db env es nc st₁).2.2 (hnext _ rfl)
              (Prod.ext h1 (Prod.ext h2 rfl))

theorem check_runs (h : (check db env st).1 = .ok ()) (late : Set Int64) :
    ∃ late', Runs db (idle st late : Schedule ι) (idle (check db env st).2.1 late') := by
  unfold check at h ⊢
  split_ifs at h ⊢ with hnc
  · exact ⟨late, .refl⟩
  · have hsnap : Runs db (idle st late) ((idle st late : Schedule ι).snapshot db env.now) :=
      Runs.next (.snapshot env.now) .refl ⟨rfl, Int64.not_lt.mp hnc, rfl⟩
    rcases hloop : checkLoop db env (LedisDB.snapshot db env.now st.store) (env.now + 3600) st
      with ⟨r, st', xs⟩
    have hloop' := hloop
    rw [LedisDB.snapshot, timeRange] at hloop'
    dsimp only at h ⊢
    rw [hloop'] at h ⊢
    cases r with
    | error e => cases h
    | ok n =>
      exact ⟨_, (checkLoop_runs hsnap hloop).next .setNextCheckTime ⟨_, rfl, rfl, rfl⟩⟩

/-- The calls that are taken apart into steps: a check that succeeds, and what sets a deadline. -/
def Divides (db : DB) (env : Env) (st : State) : Call → Prop
  | .check => (check db env st).1 = .ok ()
  | .write c => ∃ k w, c.deadline env.now = some (k, w)

/-- Calls and checks one after the other are one of the interleavings of their steps. -/
theorem sequential_runs {cs : List (Env × Call)} (h : AllSteps db (Divides db) cs st) (i : ι)
    (late : Set Int64) :
    ∃ late', Runs db (idle st late : Schedule ι) (idle (run db cs st) late') := by
  induction cs generalizing st late with
  | nil => exact ⟨late, .refl⟩
  | cons c cs ih =>
    obtain ⟨env, c⟩ := c
    obtain ⟨hc, hcs⟩ := h
    have hstep : ∃ late', Runs db (idle st late : Schedule ι)
        (idle (c.step db env st).2.1 late') := by
      cases c with
      | check => exact check_runs hc late
      | write c =>
        obtain ⟨k, w, hD⟩ := hc
        exact expire_runs hD i late
    obtain ⟨late₁, h₁⟩ := hstep
    obtain ⟨late₂, h₂⟩ := ih hcs late₁
    exact ⟨late₂, h₁.trans h₂⟩

theorem sequential_runs_expired : ∃ late', Runs DB.zero (idle State.empty ∅ : Schedule Unit)
    (idle (run DB.zero [(Env.quiet 0, .write (.SetEX [107] 5 [118])), (Env.quiet 6, .check)]
      State.empty) late') :=
  @sequential_runs Unit DB.zero State.empty _
    [(Env.quiet 0, .write (.SetEX [107] 5 [118])), (Env.quiet 6, .check)]
    ⟨⟨_, _, rfl⟩, rfl, trivial⟩ () ∅

end

def Ahead (db : DB) (c : Checker) (w : Int64) : Prop :=
  c.nc ≤ w ∧ ∀ (T : DataType) (k : Bytes) (w' : Int64),
    (db.expEncodeTimeKey T.code k w', db.expEncodeMetaKey T.code k) ∈ c.rest → c.now < w' → w' ≤ w

/-- Every deadline is late, or still in front of the check, or behind the time it will set. -/
structure Covers (db : DB) (σ : Schedule ι) (c : Checker) : Prop where
  timed : Timed db c.rest
  sorted : c.rest.Pairwise fun a b => a.1 < b.1
  pending : ∀ i p, σ.clients i = some p → p.w ∈ σ.late
  covered : ∀ T k w, deadlineOf db σ.st.store T k = some (PutInt64 w) → 0 < w → w ∈ σ.late ∨
    (db.expEncodeTimeKey T.code k w, db.expEncodeMetaKey T.code k) ∈ c.rest ∨ Ahead db c w

structure Inv (db : DB) (σ : Schedule ι) : Prop where
  wf : StoreWf σ.st.store
  proper : Proper σ.st.store
  paired : Paired db (fun _ _ _ => True) σ.st.store
  early : ∀ T k w, deadlineOf db σ.st.store T k = some (PutInt64 w) → 0 < w → σ.st.nc ≤ w
  pending : ∀ i p, σ.clients i = some p → (0 < p.w → σ.st.nc ≤ p.w) ∧
    ∃ s A k, Proper s ∧ Emits db s p.type A (some (k, p.w)) p.batch
  checker : ∀ c, σ.checker = some c → Covers db σ c

namespace Inv

variable {p : PendingExpire} {c : Checker} {k : Bytes} {w : Int64} {es : List (Bytes × Bytes)}

theorem opened (cs : List (Env × Call)) :
    Inv db (Schedule.opened (run db cs State.empty).store : Schedule ι) where
  wf := run_wf db cs
  proper := run_proper db cs
  paired := run_paired_any cs
  early := fun _ _ _ _ h => Int64.le_of_lt h
  pending := fun _ _ h => nomatch h
  checker := fun _ h => nomatch h

theorem applied (h : Inv db σ) {i : ι} (hp : σ.clients i = some p) :
    Inv db { σ with st := ⟨σ.st.store.applyBatch p.batch, σ.st.nc⟩ } := by
  obtain ⟨hnc, s₀, A, k₀, hs₀, hemits⟩ := h.pending i p hp
  have hdeadline T k w
      (hd : deadlineOf db (σ.st.store.applyBatch p.batch) T k = some (PutInt64 w)) :
      deadlineOf db σ.st.store T k = some (PutInt64 w) ∨ w = p.w := by
    refine (hemits.deadline hd).imp_right ?_
    rintro ⟨-, w', hw', hw⟩
    cases hw'
    exact PutInt64_inj hw
  refine { h with
    wf := hemits.wf h.wf
    proper := hemits.proper hs₀ h.proper
    paired := hemits.paired (fun _ _ _ => trivial) h.paired
    early := fun T k w hd h0 => ?_
    checker := fun c hc => ?_ }
  · rcases hdeadline T k w hd with hd | rfl
    · exact h.early T k w hd h0
    · exact hnc h0
  · refine { h.checker c hc with covered := fun T k w hd h0 => ?_ }
    rcases hdeadline T k w hd with hd | rfl
    · exact (h.checker c hc).covered T k w hd h0
    · exact .inl ((h.checker c hc).pending i p hp)

theorem snapshot (h : Inv db σ) (now : Int64) : Inv db (σ.snapshot db now) := by
  refine { h with checker := fun c hc => ?_ }
  cases hc
  refine ⟨snapshot_timed db now h.wf, OrderedMap.rangeLimit_sorted _ _,
    fun i p hp => ⟨i, p, hp, rfl⟩,
    fun T k w hd h0 => .inr ?_⟩
  have htime := (h.paired T k w hd).2
  by_cases hin : w.toUInt64.toNat ≤ (now + 3600).toUInt64.toNat
  · exact .inl (OrderedMap.mem_rangeLimit_all.mpr ⟨htime, aboveMin_timeRange now w,
      belowMax_timeRange.mpr hin⟩)
  · have h0' := Int64.le_of_lt h0
    refine .inr ⟨le_of_toUInt64_le h0' (not_le.mp hin).le, fun T' k' w' hmem _ => ?_⟩
    have hmax := (OrderedMap.mem_rangeLimit_all.mp hmem).2.2
    exact le_of_toUInt64_le h0' ((belowMax_timeRange.mp hmax).trans (not_le.mp hin).le)

theorem setNextCheckTime (h : Inv db σ) (hc : σ.checker = some c) (hrest : c.rest = [])
    (hsafe : ∀ w ∈ σ.late, 0 < w → c.nc ≤ w) :
    Inv db { σ with st := ⟨σ.st.store, c.nc⟩, checker := none } := by
  have hcov := h.checker c hc
  refine { h with early := fun T k w hd h0 => ?_, pending := fun i p hp => ?_, checker := nofun }
  · rcases hcov.covered T k w hd h0 with hl | hin | hahead
    · exact hsafe w hl h0
    · rw [hrest] at hin
      cases hin
    · exact hahead.1
  · exact ⟨hsafe p.w (hcov.pending i p hp), (h.pending i p hp).2⟩

theorem checkKey_time (T : DataType) (k : Bytes) (w : Int64) (c : Checker)
    (es : List (Bytes × Bytes)) :
    σ.checkKey db env c (db.expEncodeTimeKey T.code k w) (db.expEncodeMetaKey T.code k) es =
      if w > c.now then some { σ with checker := some ⟨c.now, [], w⟩ }
      else match expiry db env T k w σ.st with
        | (.error _, _) => none
        | (.ok _, st) => some { σ with st, checker := some { c with rest := es } } := by
  rw [checkKey, DB.expDecodeTimeKey_expEncodeTimeKey]
  dsimp only
  split_ifs with hw hT
  · rfl
  · exact absurd hT (code_lt_maxDataType T)
  · simp [expiry, onExpired_deleteFunc]

theorem breaks (h : Inv db σ) (hc : σ.checker = some c) {T : DataType}
    (hrest : c.rest = (db.expEncodeTimeKey T.code k w, db.expEncodeMetaKey T.code k) :: es)
    (hw : c.now < w) : Inv db { σ with checker := some ⟨c.now, [], w⟩ } := by
  have hcov := h.checker c hc
  have hsorted := hcov.sorted
  rw [hrest] at hsorted
  refine { h with checker := fun c' hc' => ?_ }
  cases hc'
  refine ⟨(fun _ h => nomatch h), .nil, hcov.pending, fun T' k' w' hd h0 => ?_⟩
  have hend : w ≤ w' → Ahead db ⟨c.now, [], w⟩ w' := fun hle =>
    ⟨hle, fun _ _ _ h => nomatch h⟩
  rcases hcov.covered T' k' w' hd h0 with hl | hin | hahead
  · exact .inl hl
  · refine .inr (.inr (hend ?_))
    rw [hrest] at hin
    rcases List.mem_cons.mp hin with heq | hin
    · obtain ⟨rfl, -, -⟩ := DB.expEncodeTimeKey_inj.mp (Prod.ext_iff.mp heq).1
      exact Int64.le_refl _
    · have hlt := (List.pairwise_cons.mp hsorted).1 _ hin
      refine le_of_toUInt64_le (Int64.le_of_lt h0) ?_
      rcases DB.expEncodeTimeKey_lt_iff.mp hlt with h | h
      · exact h.le
      · exact h.1.le
  · exact .inr (.inr (hend (hahead.2 T k w (by simp [hrest]) hw)))

theorem expired (h : Inv db σ) (hc : σ.checker = some c) {T : DataType}
    (hrest : c.rest = (db.expEncodeTimeKey T.code k w, db.expEncodeMetaKey T.code k) :: es)
    (hw : w ≤ env.now) (henv : env.Commits) {called : Bool} {s' : Store}
    (hrun : expiry db env T k w σ.st = (.ok called, ⟨s', σ.st.nc⟩)) :
    Inv db { σ with st := ⟨s', σ.st.nc⟩, checker := some { c with rest := es } } := by
  have hcov := h.checker c hc
  have hs' : s' = (expiry db env T k w σ.st).2.store := by rw [hrun]
  have hdeadline T' k' v (hd : deadlineOf db s' T' k' = some v) :
      deadlineOf db σ.st.store T' k' = some v := by
    rw [hs'] at hd
    exact expiry_deadline h.wf hd
  refine { h with
    wf := hs' ▸ expiry_wf db env h.wf T k w
    proper := hs' ▸ expiry_proper h.wf h.proper T k w
    paired := hs' ▸ expiry_paired h.wf h.paired k w
    early := fun T' k' w' hd h0 => h.early T' k' w' (hdeadline _ _ _ hd) h0
    checker := fun c' hc' => ?_ }
  cases hc'
  refine ⟨fun e he => hcov.timed e (by simp [hrest, he]), ?_, hcov.pending,
    fun T' k' w' hd h0 => ?_⟩
  · have hsorted := hcov.sorted
    rw [hrest] at hsorted
    exact (List.pairwise_cons.mp hsorted).2
  · rcases hcov.covered T' k' w' (hdeadline _ _ _ hd) h0 with hl | hin | hahead
    · exact .inl hl
    · rw [hrest] at hin
      rcases List.mem_cons.mp hin with heq | hin
      · obtain ⟨rfl, hT, rfl⟩ := DB.expEncodeTimeKey_inj.mp (Prod.ext_iff.mp heq).1
        obtain rfl := DataType.code_inj hT
        have hexp : decodeInt64 (deadlineOf db σ.st.store T' k') = .ok w' := by
          rw [hdeadline _ _ _ hd, decodeInt64_PutInt64]
        obtain ⟨n, b, hdel⟩ := deleteFunc_returns db h.wf h.proper T' k' env ⟨[], σ.st.nc⟩
        rw [hs', expiry_due henv hexp hw hdel, deadlineOf_expired] at hd
        cases hd
      · exact .inr (.inl hin)
    · exact .inr (.inr ⟨hahead.1,
        fun T'' k'' w'' hin => hahead.2 T'' k'' w'' (by simp [hrest, hin])⟩)

theorem checkKey (h : Inv db σ) (hc : σ.checker = some c) {tk mk : Bytes}
    (hrest : c.rest = (tk, mk) :: es) (hnow : env.now = c.now) (henv : env.Commits)
    (hrun : σ.checkKey db env c tk mk es = some σ') : Inv db σ' := by
  obtain ⟨T, k, w, rfl, rfl⟩ := (h.checker c hc).timed (tk, mk) (by simp [hrest])
  rw [checkKey_time] at hrun
  split_ifs at hrun with hw
  · cases hrun
    exact h.breaks hc hrest hw
  · obtain ⟨called, s', hx⟩ := expiry_returns db env h.wf h.proper T k w
    rw [hx] at hrun
    cases hrun
    exact h.expired hc hrest (hnow ▸ Int64.not_lt.mp hw) henv hx

variable [DecidableEq ι]

theorem eq_some_of_update {f : ι → Option PendingExpire} {i j : ι} {x : Option PendingExpire}
    (h : Function.update f i x j = some p) : x = some p ∨ f j = some p := by
  rw [Function.update_apply] at h
  split_ifs at h
  · exact .inl h
  · exact .inr h

theorem expire (h : Inv db σ) {i : ι} {c : Write} (hD : c.deadline env.now = some (k, w)) :
    Inv db (σ.expire db i env c w) := by
  have hlow : Lowers env σ.st.store w (c.body db) := c.lowers hD
  obtain ⟨b, hb, hemits⟩ := c.emits db env h.wf ⟨[], σ.st.nc⟩
  unfold Schedule.expire
  rcases hlow ⟨[], σ.st.nc⟩ with ⟨e, hrun⟩ | ⟨a, hrun⟩ | ⟨a, b', hrun⟩ <;> rw [hrun] at hb ⊢
  · exact h
  · exact h
  · obtain rfl := hb
    rw [hD] at hemits
    have hnc : (if σ.st.nc > w then w else σ.st.nc) ≤ σ.st.nc := by
      split_ifs with hlt
      · exact Int64.le_of_lt hlt
      · exact Int64.le_refl _
    have hw : (if σ.st.nc > w then w else σ.st.nc) ≤ w := by
      split_ifs with hlt
      · exact Int64.le_refl _
      · exact Int64.not_lt.mp hlt
    refine { h with early := fun T k w' hd h0 => ?_, pending := fun j p hp => ?_,
                    checker := fun c hc => ?_ }
    · exact Int64.le_trans hnc (h.early T k w' hd h0)
    · rcases eq_some_of_update hp with hp | hp
      · cases hp
        exact ⟨fun _ => hw, _, _, k, h.proper, hemits⟩
      · obtain ⟨hle, hrest⟩ := h.pending j p hp
        exact ⟨fun h0 => Int64.le_trans hnc (hle h0), hrest⟩
    · have hcov := h.checker c hc
      refine { hcov with pending := fun j p hp => ?_, covered := fun T k w' hd h0 => ?_ }
      · rcases eq_some_of_update hp with hp | hp
        · cases hp
          exact .inl rfl
        · exact .inr (hcov.pending j p hp)
      · exact (hcov.covered T k w' hd h0).imp_left .inr

theorem finish (h : Inv db σ) (i : ι) :
    Inv db { σ with clients := Function.update σ.clients i none } := by
  have hclients j q (hq : Function.update σ.clients i none j = some q) : σ.clients j = some q :=
    (eq_some_of_update hq).resolve_left nofun
  exact { h with
    pending := fun j q hq => h.pending j q (hclients j q hq)
    checker := fun c hc =>
      { h.checker c hc with
        pending := fun j q hq => (h.checker c hc).pending j q (hclients j q hq) } }

theorem commit (h : Inv db σ) {i : ι} (hp : σ.clients i = some p) (env : Env) :
    Inv db (σ.commit i env p) := by
  unfold Schedule.commit
  cases hres : LedisDB.commit env σ.st.store p.batch with
  | error e => exact h.finish i
  | ok s =>
    obtain rfl := commit_ok hres
    exact (h.applied hp).finish i

theorem step (h : Inv db σ) {a : Action ι} (hsafe : Safe σ a) (hs : Step db σ a σ') :
    Inv db σ' := by
  cases a with
  | expire i env c =>
    obtain ⟨k, w, hD, -, -, rfl⟩ := hs
    exact h.expire hD
  | commit i env =>
    obtain ⟨p, hp, rfl⟩ := hs
    exact h.commit hp env
  | snapshot now =>
    obtain ⟨-, -, rfl⟩ := hs
    exact h.snapshot now
  | checkKey env =>
    obtain ⟨c, tk, mk, es, hc, hrest, hnow, -, hrun⟩ := hs
    exact h.checkKey hc hrest hnow hsafe hrun
  | setNextCheckTime =>
    obtain ⟨c, hc, hrest, rfl⟩ := hs
    exact h.setNextCheckTime hc hrest (hsafe c hc)

end Inv

variable [DecidableEq ι]

/-- In every run of checks and expire calls whose steps meet `Safe`, on any store the model
reaches, the next check time is not behind a positive deadline. -/
theorem check_never_late (db : DB) (cs : List (Env × Call)) {σ : Schedule ι}
    (hrun : Reaches (Step db) Safe (opened (run db cs State.empty).store) σ) (T : DataType)
    (k : Bytes) (w : Int64) (hd : deadlineOf db σ.st.store T k = some (PutInt64 w)) (h0 : 0 < w) :
    σ.st.nc ≤ w :=
  (hrun.invariant (Inv.opened cs) fun _ _ _ h hC hs => h.step hC hs).early T k w hd h0

theorem check_never_late_found : ∃ σ : Schedule Unit,
    Reaches (Step DB.zero) Safe (opened (run DB.zero [(Env.quiet 0, .write (.Set [107] [118]))]
      State.empty).store) σ ∧
    deadlineOf DB.zero σ.st.store .KV [107] = some (PutInt64 11) ∧ σ.st.nc ≤ 11 := by
  let s₀ : Store := (run DB.zero [(Env.quiet 0, .write (.Set [107] [118]))] State.empty).store
  let tk := DB.zero.expEncodeTimeKey KVType [107] 11
  let mk := DB.zero.expEncodeMetaKey KVType [107]
  have h1 : Reaches (Step DB.zero) Safe (opened s₀)
      ((opened s₀).expire DB.zero () (Env.quiet 1) (.ExpireAt [107] 11) 11) :=
    Reaches.next (Action.expire () (Env.quiet 1) (.ExpireAt [107] 11)) .refl trivial
      ⟨[107], 11, rfl, rfl, (fun _ _ h => nomatch h), rfl⟩
  have h2 := h1.next (Action.commit () (Env.quiet 1)) trivial
    ⟨⟨.KV, 11, [.put tk mk, .put mk (PutInt64 11)]⟩, rfl, rfl⟩
  have h3 := h2.next (Action.snapshot 2) trivial ⟨rfl, by decide, rfl⟩
  have h4 := h3.next (Action.checkKey (Env.quiet 2)) ⟨rfl, fun _ _ => rfl⟩
    ⟨⟨2, [(tk, mk)], 3602⟩, tk, mk, [], by decide, rfl, rfl, (fun _ _ _ _ _ _ _ h => nomatch h),
      rfl⟩
  have h5 := h4.next Action.setNextCheckTime
    (fun _ _ _ ⟨_, _, h, _⟩ => nomatch h) ⟨⟨2, [], 11⟩, rfl, rfl, rfl⟩
  exact ⟨_, h5, by decide, check_never_late DB.zero _ h5 .KV [107] 11 (by decide) (by decide)⟩

theorem late_deadline_forgotten : ∃ σ : Schedule Unit,
    Runs DB.zero (opened (run DB.zero [(Env.quiet 0, .write (.Set [107] [118]))]
      State.empty).store) σ ∧ (∀ i, σ.clients i = none) ∧ σ.checker = none ∧
    deadlineOf DB.zero σ.st.store .KV [107] = some (PutInt64 11) ∧ ¬ σ.st.nc ≤ 11 := by
  let s₀ : Store := (run DB.zero [(Env.quiet 0, .write (.Set [107] [118]))] State.empty).store
  let p : PendingExpire := ⟨.KV, 11, [.put (DB.zero.expEncodeTimeKey KVType [107] 11)
    (DB.zero.expEncodeMetaKey KVType [107]), .put (DB.zero.expEncodeMetaKey KVType [107])
    (PutInt64 11)]⟩
  have h1 : Runs DB.zero (opened s₀) ((opened s₀ : Schedule Unit).snapshot DB.zero 1) :=
    Runs.next (.snapshot 1) .refl ⟨rfl, by decide, rfl⟩
  have h2 := h1.next (.expire () (Env.quiet 2) (.ExpireAt [107] 11))
    ⟨[107], 11, rfl, rfl, (fun _ _ h => nomatch h), rfl⟩
  have h3 := h2.next (.commit () (Env.quiet 2)) ⟨p, rfl, rfl⟩
  have h4 := h3.next .setNextCheckTime ⟨⟨1, [], 3601⟩, rfl, rfl, rfl⟩
  exact ⟨_, h4, fun _ => rfl, rfl, by decide, by decide⟩

end Schedule

end LedisDB
