import LedisDB.ListRefinement

/-!
# Blocking pops

`BLPop` and `BRPop` of `ledis/t_list.go` and the command that is built on them
(`server/cmd_list.go`). Results are slices of untyped values. `popOrWait` already
returns the key with the element, and `lblockPop` wraps this slice up with the key
once more. The command looks for the element in the second place, finds a slice
there and gives up, after the pop was committed.
-/

namespace LedisDB

inductive Value
  | bytes (b : Bytes)
  | array (vs : List Value)

/-- What ends the waiting of a client: a signal, after which it looks at the lists as they
are then, or its timeout. -/
inductive Wake
  | ready (env : Env) (st : State)
  | timeout

inductive CmdErr
  | ErrValue
  | db (e : Err)

namespace DB

def popOrWait (db : DB) (key : Bytes) (whereSeq : Int32) (env : Env) (st : State) :
    Except Err (Option (List Value)) × State :=
  match exec env (db.lpop key whereSeq) st with
  | (.error e, st) => (.error e, st)
  | (.ok (some v), st) => (.ok (some [.bytes key, .bytes v]), st)
  | (.ok none, st) => (.ok none, st)

/-- The loop over the keys; without a value the client waits for all of them. -/
def popKeys (db : DB) (whereSeq : Int32) (env : Env) :
    List Bytes → State → Except Err (Option (List Value)) × State
  | [], st => (.ok none, st)
  | key :: keys, st =>
    match db.popOrWait key whereSeq env st with
    | (.error e, st) => (.error e, st)
    | (.ok (some v), st) => (.ok (some [.bytes key, .array v]), st)
    | (.ok none, st) => db.popKeys whereSeq env keys st

/-- Without result where the client still waits. -/
def lblockPop (db : DB) (keys : List Bytes) (whereSeq : Int32) :
    List Wake → Env → State → Option (Except Err (Option (List Value)) × State)
  | wakes, env, st =>
    match db.popKeys whereSeq env keys st, wakes with
    | (.ok none, _), [] => none
    | (.ok none, st), .timeout :: _ => some (.ok none, st)
    | (.ok none, _), .ready env st :: wakes => db.lblockPop keys whereSeq wakes env st
    | r, _ => some r

def BLPop (db : DB) (keys : List Bytes) (wakes : List Wake) (env : Env) (st : State) :
    Option (Except Err (Option (List Value)) × State) :=
  db.lblockPop keys listHeadSeq wakes env st

def BRPop (db : DB) (keys : List Bytes) (wakes : List Wake) (env : Env) (st : State) :
    Option (Except Err (Option (List Value)) × State) :=
  db.lblockPop keys listTailSeq wakes env st

def LTTL (db : DB) (key : Bytes) : Op Int64 := do
  Op.lift (checkKeySize key)
  db.ttl ListType key

def brpoplpushRest (db : DB) (source dest : Bytes) (ttl : Int64) (env env' : Env) :
    Except Err (Option (List Value)) × State → Except CmdErr (Option Bytes) × State
  | (.error e, st) => (.error (.db e), st)
  | (.ok none, st) => (.ok none, st)
  | (.ok (some ay), st) =>
    match (ay[1]? : Option Value) with
    | some (.bytes data) =>
      match exec env (db.LPush dest [data]) st with
      | (.error e, st) => (.error (.db e), (exec env' (db.RPush source [data]) st).2)
      | (.ok _, st) =>
        (.ok (some data), if ttl ≠ -1 then (exec env' (db.LExpire source ttl) st).2 else st)
    | _ => (.error .ErrValue, st)

/-- `env` is met by the pop, the others by the calls after it. -/
def brpoplpushCommand (db : DB) (source dest : Bytes) (wakes : List Wake) (env env' env'' : Env)
    (st : State) : Option (Except CmdErr (Option Bytes) × State) :=
  match (if source = dest then (db.LTTL source).eval env st.store else .ok (-1)) with
  | .error e => some (.error (.db e), st)
  | .ok ttl => (db.BRPop [source] wakes env st).map (db.brpoplpushRest source dest ttl env' env'')

end DB

def Sequence.atEnd (q : Sequence) (whereSeq : Int32) : Option Bytes :=
  if whereSeq = listHeadSeq then q.items.head? else q.items.getLast?

def Sequence.popEnd (q : Sequence) (whereSeq : Int32) : Sequence :=
  if whereSeq = listHeadSeq then q.popHead else q.popTail

section
variable {db : DB} {env : Env} {st : State} {σ σ' : Sequences} {key : Bytes} {whereSeq : Int32}
  {as : List Bytes}

theorem exec_lpop_empty (h : Sim db st σ) (hk : ValidKey key) (hq : (σ key).items = [])
    (whereSeq : Int32) : exec env (db.lpop key whereSeq) st = (.ok none, st) := by
  rw [exec, lpop_empty hk (h.rep key hk.2) hq]

theorem Sim.value_cases {c : ListCall} {x : Op (Ret (Option Bytes))} {v : Option Bytes}
    (hout : c.outcome σ = .write (.value v) σ')
    (hstep : ∃ σ'', ListCall.Spec σ (env, c) ((exec env x st).1.map .value) σ'' ∧
      Sim db (exec env x st).2 σ'') :
    ((exec env x st).1 = .ok v ∧ Sim db (exec env x st).2 σ') ∨
      ∃ e, (exec env x st).1 = .error e := by
  obtain ⟨σ'', hspec, hsim⟩ := hstep
  cases hr : (exec env x st).1 with
  | error e => exact .inr ⟨e, rfl⟩
  | ok v' =>
    rw [hr] at hspec
    cases hspec with
    | answered ho => simp [hout] at ho
    | written ho =>
      rw [hout] at ho
      cases ho
      exact .inl ⟨rfl, hsim⟩

theorem Sim.lpop (h : Sim db st σ) (hk : ValidKey key) (hq : (σ key).items ≠ [])
    (hw : whereSeq = listHeadSeq ∨ whereSeq = listTailSeq) (env : Env) :
    (∃ v st', exec env (db.lpop key whereSeq) st = (.ok (some v), st') ∧
        (σ key).atEnd whereSeq = some v ∧
        Sim db st' (Function.update σ key ((σ key).popEnd whereSeq))) ∨
      ∃ e st', exec env (db.lpop key whereSeq) st = (.error e, st') ∧ st'.store = st.store := by
  have hpop : ((exec env (db.lpop key whereSeq) st).1 = .ok ((σ key).atEnd whereSeq) ∧
      Sim db (exec env (db.lpop key whereSeq) st).2
        (Function.update σ key ((σ key).popEnd whereSeq))) ∨
      ∃ e, (exec env (db.lpop key whereSeq) st).1 = .error e := by
    rcases hw with rfl | rfl
    · exact value_cases (c := .LPop key) ((onKey_valid hk).trans (if_neg hq))
        (h.step env (.LPop key) trivial)
    · exact value_cases (c := .RPop key) ((onKey_valid hk).trans (if_neg hq))
        (h.step env (.RPop key) trivial)
  rcases hpop with ⟨hok, hsim⟩ | ⟨e, herr⟩
  · have hsome : ∃ v, (σ key).atEnd whereSeq = some v := by
      unfold Sequence.atEnd
      obtain ⟨x, xs, hx⟩ := List.exists_cons_of_ne_nil hq
      split_ifs
      · exact ⟨x, by rw [hx]; rfl⟩
      · exact ⟨_, List.getLast?_eq_some_getLast hq⟩
    obtain ⟨v, hv⟩ := hsome
    rw [hv] at hok
    exact .inl ⟨v, _, Prod.ext hok rfl, hv, hsim⟩
  · exact .inr ⟨e, _, Prod.ext herr rfl, exec_error herr⟩

theorem popKeys_skip (h : Sim db st σ) (has : ∀ k ∈ as, ValidKey k ∧ (σ k).items = [])
    (whereSeq : Int32) (keys : List Bytes) :
    db.popKeys whereSeq env (as ++ keys) st = db.popKeys whereSeq env keys st := by
  induction as with
  | nil => rfl
  | cons k as ih =>
    obtain ⟨hk, hq⟩ := has k (.head _)
    rw [List.cons_append, DB.popKeys, DB.popOrWait, exec_lpop_empty h hk hq]
    exact ih fun x hx => has x (.tail _ hx)

theorem lblockPop_nonempty (h : Sim db st σ) {as : List Bytes}
    (has : ∀ k ∈ as, ValidKey k ∧ (σ k).items = []) (hk : ValidKey key)
    (hq : (σ key).items ≠ []) (hw : whereSeq = listHeadSeq ∨ whereSeq = listTailSeq)
    (bs : List Bytes) (wakes : List Wake) (env : Env) :
    (∃ v st', exec env (db.lpop key whereSeq) st = (.ok (some v), st') ∧
        (σ key).atEnd whereSeq = some v ∧
        Sim db st' (Function.update σ key ((σ key).popEnd whereSeq)) ∧
        db.lblockPop (as ++ key :: bs) whereSeq wakes env st =
          some (.ok (some [.bytes key, .array [.bytes key, .bytes v]]), st')) ∨
      ∃ e st', exec env (db.lpop key whereSeq) st = (.error e, st') ∧ st'.store = st.store ∧
        db.lblockPop (as ++ key :: bs) whereSeq wakes env st = some (.error e, st') := by
  unfold DB.lblockPop
  rw [popKeys_skip h has, DB.popKeys, DB.popOrWait]
  rcases h.lpop hk hq hw env with ⟨v, st', hpop, hv, hsim⟩ | ⟨e, st', hpop, hst⟩
  · exact .inl ⟨v, st', hpop, hv, hsim, by rw [hpop]⟩
  · exact .inr ⟨e, st', hpop, hst, by rw [hpop]⟩

/-- The pair of the key and the element is returned and the element is removed, or an error is
returned and the lists are as before. -/
def PopsPair (db : DB) (σ : Sequences) (key : Bytes) (whereSeq : Int32)
    (r : Option (Except Err (Option (List Value)) × State)) : Prop :=
  (∃ v st', r = some (.ok (some [.bytes key, .bytes v]), st') ∧
      (σ key).atEnd whereSeq = some v ∧
      Sim db st' (Function.update σ key ((σ key).popEnd whereSeq))) ∨
    ∃ e st', r = some (.error e, st') ∧ Sim db st' σ

def moved (σ : Sequences) (source dest v : Bytes) : Sequences :=
  let σ' := Function.update σ source (σ source).popTail
  Function.update σ' dest ((σ' dest).pushHead [v])

/-- The last element is moved and returned, or an error is returned and the lists are as before. -/
def Moves (db : DB) (σ : Sequences) (source dest : Bytes)
    (r : Option (Except CmdErr (Option Bytes) × State)) : Prop :=
  (∃ v st', r = some (.ok (some v), st') ∧ (σ source).items.getLast? = some v ∧
      Sim db st' (moved σ source dest v)) ∨
    ∃ e st', r = some (.error e, st') ∧ Sim db st' σ

def PopFails (db : DB) (key : Bytes) (whereSeq : Int32) (env : Env) (st : State) : Prop :=
  ∃ e, (exec env (db.lpop key whereSeq) st).1 = .error e

theorem popsPair_iff (h : Sim db st σ) (has : ∀ k ∈ as, ValidKey k ∧ (σ k).items = [])
    (hk : ValidKey key) (hq : (σ key).items ≠ [])
    (hw : whereSeq = listHeadSeq ∨ whereSeq = listTailSeq) (bs : List Bytes) (wakes : List Wake) :
    PopsPair db σ key whereSeq (db.lblockPop (as ++ key :: bs) whereSeq wakes env st) ↔
      PopFails db key whereSeq env st := by
  unfold PopsPair PopFails
  rcases lblockPop_nonempty h has hk hq hw bs wakes env with
    ⟨v, st', hpop, -, -, hr⟩ | ⟨e, st', hpop, hst, hr⟩
  · rw [hr, hpop]
    simp
  · rw [hr, hpop]
    exact ⟨fun _ => ⟨e, rfl⟩, fun _ => .inr ⟨e, st', rfl, h.of_store hst⟩⟩

theorem moves_iff {source dest : Bytes} (h : Sim db st σ) (hk : ValidKey source)
    (hq : (σ source).items ≠ []) (wakes : List Wake) (env' env'' : Env) :
    Moves db σ source dest (db.brpoplpushCommand source dest wakes env env' env'' st) ↔
      (source = dest ∧ ∃ e, (db.LTTL source).eval env st.store = .error e) ∨
        PopFails db source listTailSeq env st := by
  have hlost : ∀ {st' : State},
      Sim db st' (Function.update σ source ((σ source).popEnd listTailSeq)) →
      ¬ Sim db st' σ := by
    intro st' hsim hsim'
    have hlen := congrArg List.length ((hsim.rep source hk.2).items_unique (hsim'.rep source hk.2))
    have hpos := List.length_pos_iff.mpr hq
    rw [Function.update_self] at hlen
    change (σ source).items.dropLast.length = _ at hlen
    rw [List.length_dropLast] at hlen
    omega
  unfold Moves DB.brpoplpushCommand
  cases httl : (if source = dest then (db.LTTL source).eval env st.store else .ok (-1)) with
  | error e =>
    have hsame : source = dest ∧ (db.LTTL source).eval env st.store = .error e := by
      split_ifs at httl with heq
      exact ⟨heq, httl⟩
    exact ⟨fun _ => .inl ⟨hsame.1, e, hsame.2⟩, fun _ => .inr ⟨_, st, rfl, h⟩⟩
  | ok ttl =>
    have hnone : ¬ (source = dest ∧ ∃ e, (db.LTTL source).eval env st.store = .error e) := by
      rintro ⟨heq, e, he⟩
      rw [if_pos heq, he] at httl
      cases httl
    rw [or_iff_right hnone]
    unfold PopFails
    rcases @lblockPop_nonempty db st σ source listTailSeq h [] (by simp) hk hq (.inr rfl) []
      wakes env with ⟨v, st', hpop, -, hsim, hr⟩ | ⟨e, st', hpop, hst, hr⟩
    · rw [List.nil_append] at hr
      simp only [DB.BRPop, hr, hpop]
      constructor
      · rintro (⟨v', st'', heq, -⟩ | ⟨e, st'', heq, hsim'⟩)
        · cases heq
        · cases heq
          exact absurd hsim' (hlost hsim)
      · rintro ⟨e, he⟩
        cases he
    · rw [List.nil_append] at hr
      simp only [DB.BRPop, hr, hpop]
      exact ⟨fun _ => ⟨e, rfl⟩, fun _ => .inr ⟨_, st', rfl, h.of_store hst⟩⟩

/-- A blocking pop conserves the elements exactly when it does not take one: the pair is never
returned, and the command loses the element that it has popped. -/
theorem blocking_pops_conserve_iff (h : Sim db st σ) :
    (∀ as key bs wakes env, (∀ k ∈ as, ValidKey k ∧ (σ k).items = []) → ValidKey key →
      (σ key).items ≠ [] →
      (PopsPair db σ key listHeadSeq (db.BLPop (as ++ key :: bs) wakes env st) ↔
          PopFails db key listHeadSeq env st) ∧
        (PopsPair db σ key listTailSeq (db.BRPop (as ++ key :: bs) wakes env st) ↔
          PopFails db key listTailSeq env st)) ∧
    ∀ source dest wakes env env' env'', ValidKey source → (σ source).items ≠ [] →
      (Moves db σ source dest (db.brpoplpushCommand source dest wakes env env' env'' st) ↔
        (source = dest ∧ ∃ e, (db.LTTL source).eval env st.store = .error e) ∨
          PopFails db source listTailSeq env st) :=
  ⟨fun _ _ bs wakes _ has hk hq =>
      ⟨popsPair_iff h has hk hq (Or.inl rfl) bs wakes,
        popsPair_iff h has hk hq (Or.inr rfl) bs wakes⟩,
    fun _ _ wakes _ env' env'' hk hq => moves_iff h hk hq wakes env' env''⟩

theorem blocking_pops_conserve_readonly :
    ∃ σ, (σ [107]).items = [[97]] ∧
      Moves DB.zero σ [107] [108] (DB.zero.brpoplpushCommand [107] [108] []
        { Env.quiet 0 with readonly := true } (Env.quiet 0) (Env.quiet 0)
        (exec (Env.quiet 0) (DB.zero.RPush [107] [[97]]) State.empty).2) := by
  have h₀ : Sim DB.zero State.empty (fun _ => ⟨0, []⟩) :=
    ⟨StoreWf.empty, fun k _ => ListRep.of_empty rfl fun _ => rfl⟩
  obtain ⟨σ, hspec, hsim⟩ := h₀.step (Env.quiet 0) (.RPush [107] [[97]])
    (by simp [ListCall.Bounded])
  have hitems : (σ [107]).items = [[97]] := by
    cases hspec with
    | answered ho => cases ho
    | written ho =>
      cases ho
      rfl
  exact ⟨σ, hitems, ((blocking_pops_conserve_iff hsim).2 [107] [108] [] _ _ _ (by decide)
    (by simp [hitems])).mpr (.inr ⟨.ErrWriteInROnly, by decide⟩)⟩

theorem brpoplpush_loses_element :
    ∃ st st' st'', exec (Env.quiet 0) (DB.zero.RPush [107] [[97]]) State.empty = (.ok 1, st) ∧
      DB.zero.brpoplpushCommand [107] [108] [] (Env.quiet 0) (Env.quiet 0) (Env.quiet 0) st =
        some (.error .ErrValue, st') ∧
      (DB.zero.LLen [107]).eval (Env.quiet 0) st'.store = .ok 0 ∧
      (DB.zero.LLen [108]).eval (Env.quiet 0) st'.store = .ok 0 ∧
      DB.zero.BLPop [[107]] [] (Env.quiet 0) st =
        some (.ok (some [.bytes [107], .array [.bytes [107], .bytes [97]]]), st'') :=
  ⟨_, _, _, rfl, rfl, rfl, rfl, rfl⟩

end

end LedisDB
