import LedisDB.ListScan
import LedisDB.Simulation

/-!
# Lists refine sequences

The specification keeps one sequence of values per key, with the position of its
head: a push answers with the new length unless an end would leave the range
between `listMinSeq` and `listMaxSeq`. The operations on the store answer as the
specification does, in every run.
-/

namespace LedisDB

inductive ListCall
  | LPush (key : Bytes) (args : List Bytes)
  | RPush (key : Bytes) (args : List Bytes)
  | LPop (key : Bytes)
  | RPop (key : Bytes)
  | LLen (key : Bytes)
  | LIndex (key : Bytes) (index : Int32)
  | LRange (key : Bytes) (start stop : Int32)
  | LClear (key : Bytes)
  | LMclear (keys : List Bytes)

inductive Reply
  | int (n : Int64)
  | value (v : Option Bytes)
  | values (vs : List Bytes)
  deriving DecidableEq

def ListCall.perform (db : DB) (st : State) : Env × ListCall → Except Err Reply × State
  | (env, .LPush key args) => (exec env (db.LPush key args) st).map (Except.map .int) id
  | (env, .RPush key args) => (exec env (db.RPush key args) st).map (Except.map .int) id
  | (env, .LPop key) => (exec env (db.LPop key) st).map (Except.map .value) id
  | (env, .RPop key) => (exec env (db.RPop key) st).map (Except.map .value) id
  | (env, .LLen key) => (((db.LLen key).eval env st.store).map .int, st)
  | (env, .LIndex key index) => (((db.LIndex key index).eval env st.store).map .value, st)
  | (env, .LRange key start stop) =>
    (((db.LRange key start stop).eval env st.store).map .values, st)
  | (env, .LClear key) => (exec env (db.LClear key) st).map (Except.map .int) id
  | (env, .LMclear keys) => (exec env (db.LMclear keys) st).map (Except.map .int) id

abbrev Sequences := Bytes → Sequence

inductive Outcome
  | refuse (e : Err)
  | answer (r : Reply)
  | write (r : Reply) (σ' : Sequences)

def onKey (key : Bytes) (o : Outcome) : Outcome := if ValidKey key then o else .refuse .errKeySize

def pushed (σ : Sequences) (key : Bytes) (args : List Bytes) (q : Sequence) : Outcome :=
  if args = [] then .answer (.int (Int64.ofNat (σ key).items.length))
  else if q.Fits then .write (.int (Int64.ofNat q.items.length)) (Function.update σ key q)
  else .refuse .errListSeq

def popped (σ : Sequences) (key : Bytes) (v : Option Bytes) (q : Sequence) : Outcome :=
  if (σ key).items = [] then .answer (.value none)
  else .write (.value v) (Function.update σ key q)

def ListCall.outcome (σ : Sequences) : ListCall → Outcome
  | .LPush key args => onKey key (pushed σ key args ((σ key).pushHead args))
  | .RPush key args => onKey key (pushed σ key args ((σ key).pushTail args))
  | .LPop key => onKey key (popped σ key (σ key).items.head? (σ key).popHead)
  | .RPop key => onKey key (popped σ key (σ key).items.getLast? (σ key).popTail)
  | .LLen key => onKey key (.answer (.int (Int64.ofNat (σ key).items.length)))
  | .LIndex key index => onKey key (.answer (.value ((σ key).index index.toInt)))
  | .LRange key start stop =>
    onKey key (.answer (.values ((σ key).slice start.toInt stop.toInt)))
  | .LClear key => onKey key (.write (.int (Int64.ofNat (σ key).items.length))
      (Function.update σ key ⟨0, []⟩))
  | .LMclear keys =>
    if ∀ key ∈ keys, ValidKey key then .write (.int (Int64.ofNat keys.length))
      fun key => if keys.contains key then ⟨0, []⟩ else σ key
    else .refuse .errKeySize

def Env.Refuses (env : Env) (e : Err) : Prop := ∃ s b, commit env s b = .error e

/-- The answers and moves that are allowed: a refused call and a refused commit change nothing. -/
inductive ListCall.Spec : Sequences → Env × ListCall → Except Err Reply → Sequences → Prop
  | refused {σ : Sequences} {env : Env} {c : ListCall} {e : Err}
      (h : c.outcome σ = .refuse e) : Spec σ (env, c) (.error e) σ
  | answered {σ : Sequences} {env : Env} {c : ListCall} {r : Reply}
      (h : c.outcome σ = .answer r) : Spec σ (env, c) (.ok r) σ
  | written {σ σ' : Sequences} {env : Env} {c : ListCall} {r : Reply}
      (h : c.outcome σ = .write r σ') : Spec σ (env, c) (.ok r) σ'
  | failed {σ σ' : Sequences} {env : Env} {c : ListCall} {r : Reply} {e : Err}
      (h : c.outcome σ = .write r σ') (he : env.Refuses e) : Spec σ (env, c) (.error e) σ

structure Sim (db : DB) (st : State) (σ : Sequences) : Prop where
  wf : StoreWf st.store
  rep : ∀ k, k.length ≤ MaxKeySize → ListRep db st.store k (σ k)

section
variable {db : DB} {env : Env} {s s' : Store} {st st' : State} {σ σ' : Sequences} {key : Bytes}
  {u t : Txn} {c : ListCall} {o : Outcome} {q : Sequence}

theorem Sim.of_store (h : Sim db st σ) (hst : st'.store = st.store) : Sim db st' σ :=
  ⟨hst ▸ h.wf, hst ▸ h.rep⟩

theorem Sim.write {w : Write} {α : Type} {x : Op (Ret α)} (h : Sim db st σ)
    (hbody : w.body db = x.discard) (hs' : (exec env x st).2.store = s')
    (hkeys : ∀ k ∈ w.keys, k.length ≤ MaxKeySize → ListRep db s' k (σ' k))
    (hother : ∀ k, k ∉ w.keys → σ' k = σ k) : Sim db (exec env x st).2 σ' := by
  have hstate := exec_discard_state env x st
  rw [← hbody] at hstate
  refine ⟨?_, fun k hk => ?_⟩
  · rw [← hstate]
    exact write_wf h.wf w
  · by_cases hin : k ∈ w.keys
    · rw [hs']
      exact hkeys k hin hk
    · rw [hother k hin, ← hstate]
      exact (h.rep k hk).congr (write_other h.wf w (.inl (.lmeta k)) (.inr hin))
        fun n => write_other h.wf w (.inl (.litem k n)) (.inr hin)

theorem Sim.write_key {α : Type} {x : Op (Ret α)} {q : Sequence} (h : Sim db st σ) (w : Write)
    (hbody : w.body db = x.discard) (hw : w.keys = [key])
    (hrep : ListRep db (exec env x st).2.store key q) :
    Sim db (exec env x st).2 (Function.update σ key q) := by
  refine h.write hbody rfl (fun k hmem _ => ?_) fun k hne => ?_
  · rw [hw] at hmem
    rwa [List.mem_singleton.mp hmem, Function.update_self]
  · rw [hw] at hne
    exact Function.update_of_ne (fun heq => hne (List.mem_singleton.mpr heq)) _ _

variable {α : Type} {x : Op (Ret α)} {f : α → Reply} {a : α} {e : Err}

theorem Sim.spec_write (h : Sim db st σ) (w : Write) (hbody : w.body db = x.discard)
    (hrun : x env st.store ⟨[], st.nc⟩ = (.ok (.commit a), t))
    (hout : c.outcome σ = .write (f a) σ') (hkeys : ∀ k ∈ w.keys, k.length ≤ MaxKeySize →
      ListRep db (st.store.applyBatch t.batch) k (σ' k)) (hother : ∀ k, k ∉ w.keys → σ' k = σ k) :
    ∃ σ'', ListCall.Spec σ (env, c) ((exec env x st).1.map f) σ'' ∧
      Sim db (exec env x st).2 σ'' := by
  cases hc : commit env st.store t.batch with
  | error e =>
    have hexec : exec env x st = (.error e, ⟨st.store, t.nc⟩) := by simp [exec, hrun, hc]
    rw [hexec]
    exact ⟨σ, .failed hout ⟨_, _, hc⟩, h.of_store rfl⟩
  | ok s' =>
    have hexec : exec env x st = (.ok a, ⟨s', t.nc⟩) := by simp [exec, hrun, hc]
    have hstore : (exec env x st).2.store = st.store.applyBatch t.batch := by
      rw [hexec, commit_ok hc]
    have hsim := h.write hbody hstore hkeys hother
    rw [hexec] at hsim ⊢
    exact ⟨σ', .written hout, hsim⟩

theorem Sim.spec_refuse (h : Sim db st σ)
    (hrun : x env st.store ⟨[], st.nc⟩ = (.error e, t)) (hout : c.outcome σ = .refuse e) :
    ∃ σ'', ListCall.Spec σ (env, c) ((exec env x st).1.map f) σ'' ∧
      Sim db (exec env x st).2 σ'' := by
  have hexec : exec env x st = (.error e, ⟨st.store, t.nc⟩) := by simp [exec, hrun]
  rw [hexec]
  exact ⟨σ, .refused hout, h.of_store rfl⟩

theorem Sim.spec_answer (h : Sim db st σ)
    (hrun : x env st.store ⟨[], st.nc⟩ = (.ok (.done a), t)) (hout : c.outcome σ = .answer (f a)) :
    ∃ σ'', ListCall.Spec σ (env, c) ((exec env x st).1.map f) σ'' ∧
      Sim db (exec env x st).2 σ'' := by
  have hexec : exec env x st = (.ok a, ⟨st.store, t.nc⟩) := by simp [exec, hrun]
  rw [hexec]
  exact ⟨σ, .answered hout, h.of_store rfl⟩

theorem onKey_valid (hk : ValidKey key) : onKey key o = o := if_pos hk

theorem onKey_invalid (hk : ¬ ValidKey key) : onKey key o = .refuse .errKeySize := if_neg hk

theorem invalidKey_run {β : Type} {f : Unit → Op β} (hk : ¬ ValidKey key) :
    (Op.lift (checkKeySize key) >>= f) env s u = (.error .errKeySize, u) := by
  rw [Op.bind_run, Op.lift_run, checkKeySize_error hk]

theorem Sim.spec_write_key (h : Sim db st σ) (w : Write) (hbody : w.body db = x.discard)
    (hw : w.keys = [key]) (hrun : x env st.store ⟨[], st.nc⟩ = (.ok (.commit a), t))
    (hout : c.outcome σ = .write (f a) (Function.update σ key q))
    (hrep : ListRep db (st.store.applyBatch t.batch) key q) :
    ∃ σ'', ListCall.Spec σ (env, c) ((exec env x st).1.map f) σ'' ∧
      Sim db (exec env x st).2 σ'' := by
  refine h.spec_write w hbody hrun hout (fun k hin _ => ?_) fun k hne => ?_
  · rw [hw] at hin
    cases List.mem_singleton.mp hin
    rwa [Function.update_self]
  · rw [hw, List.mem_singleton] at hne
    exact Function.update_of_ne hne _ _

theorem Sim.push (h : Sim db st σ) (w : Write) {x : Op (Ret Int64)} (hbody : w.body db = x.discard)
    (hw : w.keys = [key]) {args : List Bytes} (hout : c.outcome σ = pushed σ key args q)
    (hlen : q.items.length = (σ key).items.length + args.length)
    (hnil : args = [] → x env st.store ⟨[], st.nc⟩ =
      (.ok (.done (Int64.ofNat (σ key).items.length)), ⟨[], st.nc⟩))
    (hrun : args ≠ [] → Pushes db env st.store ⟨[], st.nc⟩ key x
      (Int64.ofNat ((σ key).items.length + args.length)) q) :
    ∃ σ'', ListCall.Spec σ (env, c) ((exec env x st).1.map .int) σ'' ∧
      Sim db (exec env x st).2 σ'' := by
  unfold pushed at hout
  by_cases hne : args = []
  · rw [if_pos hne] at hout
    exact h.spec_answer (hnil hne) hout
  · obtain ⟨b, hb, hrep⟩ := hrun hne
    rw [if_neg hne] at hout
    by_cases hf : q.Fits
    · rw [if_pos hf] at hb
      rw [if_pos hf, hlen] at hout
      exact h.spec_write_key w hbody hw hb hout (hrep hf)
    · rw [if_neg hf] at hb hout
      exact h.spec_refuse hb hout

theorem Sim.pop (h : Sim db st σ) (w : Write) {x : Op (Ret (Option Bytes))}
    (hbody : w.body db = x.discard) (hw : w.keys = [key]) {v : Option Bytes}
    (hout : c.outcome σ = popped σ key v q)
    (hnil : (σ key).items = [] → x env st.store ⟨[], st.nc⟩ = (.ok (.done none), ⟨[], st.nc⟩))
    (hrun : (σ key).items ≠ [] → ∃ b, x env st.store ⟨[], st.nc⟩ =
        (.ok (.commit v), ⟨[] ++ b, st.nc⟩) ∧ ListRep db (st.store.applyBatch b) key q) :
    ∃ σ'', ListCall.Spec σ (env, c) ((exec env x st).1.map .value) σ'' ∧
      Sim db (exec env x st).2 σ'' := by
  unfold popped at hout
  by_cases hne : (σ key).items = []
  · rw [if_pos hne] at hout
    exact h.spec_answer (hnil hne) hout
  · obtain ⟨b, hb, hrep⟩ := hrun hne
    rw [if_neg hne] at hout
    exact h.spec_write_key w hbody hw hb hout hrep

theorem Sim.deleter (h : Sim db st σ) : Deleter st.store (LClears db st.store) db.lDelete := by
  intro key env u hk
  obtain ⟨b, hrun, hclear⟩ := lDelete_run env u h.wf (h.rep key hk)
  exact ⟨_, b, hrun, hclear⟩

theorem LClear_run (env : Env) (h : Sim db st σ) (hk : ValidKey key) (u : Txn) : ∃ t,
    db.LClear key env st.store u = (.ok (.commit (Int64.ofNat (σ key).items.length)), t) := by
  obtain ⟨b, hrun, -⟩ := lDelete_run env u h.wf (h.rep key hk.2)
  obtain ⟨n, hn⟩ := rmExpire_run db env st.store (u.queue b) ListType key
  exact ⟨_, by simp only [DB.LClear, DB.clear, Op.bind_run, Op.lift_run, checkKeySize_ok.mpr hk,
    hrun, hn]; rfl⟩

theorem mclearLoop_run (db : DB) (env : Env) (dataType : UInt8) {Q : Bytes → Batch → Prop}
    {del : Bytes → Op Int64} (hdel : Deleter s Q del) (keys : List Bytes) (u : Txn) :
    ∃ t, db.mclearLoop dataType del keys env s u =
      (if ∀ k ∈ keys, ValidKey k then .ok () else .error .errKeySize, t) := by
  induction keys generalizing u with
  | nil => exact ⟨u, by simp [DB.mclearLoop]⟩
  | cons k ks ih =>
    by_cases hk : ValidKey k
    · obtain ⟨n, b, hrun, -⟩ := hdel k env u hk.2
      obtain ⟨n', hn'⟩ := rmExpire_run db env s (u.queue b) dataType k
      obtain ⟨t, ht⟩ := ih ((u.queue b).queue (db.rmBatch s dataType k))
      refine ⟨t, ?_⟩
      simp only [DB.mclearLoop, Op.bind_run, Op.lift_run, checkKeySize_ok.mpr hk, hrun, hn', ht,
        List.forall_mem_cons, hk, true_and]
    · refine ⟨u, ?_⟩
      rw [if_neg fun hall => hk (hall k (.head _))]
      exact invalidKey_run hk

def ListCall.Bounded : ListCall → Prop
  | .LPush _ args | .RPush _ args => args.length ≤ 2 ^ 31
  | _ => True

theorem Sim.step (h : Sim db st σ) (env : Env) (c : ListCall) (hc : c.Bounded) :
    ∃ σ', ListCall.Spec σ (env, c) (ListCall.perform db st (env, c)).1 σ' ∧
      Sim db (ListCall.perform db st (env, c)).2 σ' := by
  cases c with
  | LPush key args =>
    by_cases hk : ValidKey key
    · exact h.push (.LPush key args) rfl rfl (onKey_valid hk)
        (by simp [Sequence.pushHead, Nat.add_comm])
        (fun hne => by subst hne; exact lpush_nil hk (h.rep key hk.2) _)
        fun hne => LPush_run env _ hk (h.rep key hk.2) hne hc
    · exact h.spec_refuse (invalidKey_run hk) (onKey_invalid hk)
  | RPush key args =>
    by_cases hk : ValidKey key
    · exact h.push (.RPush key args) rfl rfl (onKey_valid hk) (by simp [Sequence.pushTail])
        (fun hne => by subst hne; exact lpush_nil hk (h.rep key hk.2) _)
        fun hne => RPush_run env _ hk (h.rep key hk.2) hne hc
    · exact h.spec_refuse (invalidKey_run hk) (onKey_invalid hk)
  | LPop key =>
    by_cases hk : ValidKey key
    · exact h.pop (.LPop key) rfl rfl (onKey_valid hk)
        (fun hne => lpop_empty hk (h.rep key hk.2) hne _)
        fun hne => by
          obtain ⟨b, hrun, hb⟩ := LPop_run env ⟨[], st.nc⟩ hk (h.rep key hk.2) hne
          exact ⟨b, hrun, hb.rep⟩
    · exact h.spec_refuse (invalidKey_run hk) (onKey_invalid hk)
  | RPop key =>
    by_cases hk : ValidKey key
    · exact h.pop (.RPop key) rfl rfl (onKey_valid hk)
        (fun hne => lpop_empty hk (h.rep key hk.2) hne _)
        fun hne => by
          obtain ⟨b, hrun, hb⟩ := RPop_run env ⟨[], st.nc⟩ hk (h.rep key hk.2) hne
          exact ⟨b, hrun, hb.rep⟩
    · exact h.spec_refuse (invalidKey_run hk) (onKey_invalid hk)
  | LLen key =>
    by_cases hk : ValidKey key
    · refine ⟨σ, ?_, h⟩
      rw [ListCall.perform, Op.eval, LLen_run hk (h.rep key hk.2)]
      exact .answered (onKey_valid hk)
    · refine ⟨σ, ?_, h⟩
      rw [ListCall.perform, Op.eval, DB.LLen, invalidKey_run hk]
      exact .refused (onKey_invalid hk)
  | LIndex key index =>
    by_cases hk : ValidKey key
    · refine ⟨σ, ?_, h⟩
      rw [ListCall.perform, Op.eval, LIndex_run hk (h.rep key hk.2)]
      exact .answered (onKey_valid hk)
    · refine ⟨σ, ?_, h⟩
      rw [ListCall.perform, Op.eval, DB.LIndex, invalidKey_run hk]
      exact .refused (onKey_invalid hk)
  | LRange key start stop =>
    by_cases hk : ValidKey key
    · refine ⟨σ, ?_, h⟩
      rw [ListCall.perform, Op.eval, LRange_run h.wf hk (h.rep key hk.2)]
      exact .answered (onKey_valid hk)
    · refine ⟨σ, ?_, h⟩
      rw [ListCall.perform, Op.eval, DB.LRange, invalidKey_run hk]
      exact .refused (onKey_invalid hk)
  | LClear key =>
    by_cases hk : ValidKey key
    · obtain ⟨t, hrun⟩ := LClear_run env h hk ⟨[], st.nc⟩
      obtain ⟨b, hb, hclear⟩ := clear_ok (clearing_lclears db st.store) h.deleter hrun
      refine h.spec_write_key (.LClear key) rfl rfl hrun (onKey_valid hk) ?_
      rw [hb]
      exact hclear.listRep 0
    · exact h.spec_refuse (invalidKey_run hk) (onKey_invalid hk)
  | LMclear keys =>
    obtain ⟨t, hloop⟩ := mclearLoop_run db env ListType h.deleter keys ⟨[], st.nc⟩
    by_cases hk : ∀ k ∈ keys, ValidKey k
    · rw [if_pos hk] at hloop
      have hrun : db.LMclear keys env st.store ⟨[], st.nc⟩ =
          (.ok (.commit (Int64.ofNat keys.length)), t) := by
        simp [DB.LMclear, DB.mclear, hloop]
      obtain ⟨b, hb, hclear⟩ := mclear_ok (clearing_lclears db st.store) h.deleter hrun
      refine h.spec_write (.LMclear keys) rfl hrun (if_pos hk) (fun k hin _ => ?_)
        fun k hne => if_neg (mt List.contains_iff_mem.mp hne)
      have hmem : keys.contains k = true := List.contains_iff_mem.mpr hin
      rw [hb, if_pos hmem]
      exact (hclear k hin).listRep 0
    · rw [if_neg hk] at hloop
      have hrun : db.LMclear keys env st.store ⟨[], st.nc⟩ = (.error .errKeySize, t) := by
        simp [DB.LMclear, DB.mclear, hloop]
      exact h.spec_refuse hrun (if_neg hk)

theorem perform_error (h : (ListCall.perform db st (env, c)).1 = .error e) :
    (ListCall.perform db st (env, c)).2.store = st.store := by
  have hexec : ∀ {α : Type} x (f : α → Reply),
      ((exec env x st).map (Except.map f) id).1 = .error e →
        ((exec env x st).map (Except.map f) id).2.store = st.store := by
    intro α x f hx
    apply exec_error
    change Except.map f (exec env x st).1 = _ at hx
    cases hr : (exec env x st).1 with
    | error e' =>
      rw [hr] at hx
      cases hx
      rfl
    | ok a =>
      rw [hr] at hx
      cases hx
  cases c with
  | LPush key args | RPush key args | LPop key | RPop key | LClear key | LMclear keys =>
    exact hexec _ _ h
  | LLen key => rfl
  | LIndex key index => rfl
  | LRange key start stop => rfl

/-- In every run from an empty database, with pushes of at most `2^31` values, the replies are
those of the specification, and a call that replies with an error changes nothing. -/
theorem lists_refine_sequences (db : DB) (cs : List (Env × ListCall))
    (hcs : ∀ c ∈ cs, c.2.Bounded) :
    Allows ListCall.Spec cs (fun _ => ⟨0, []⟩) (answers (ListCall.perform db) cs State.empty) ∧
      ∀ st c e, (ListCall.perform db st c).1 = .error e →
        (ListCall.perform db st c).2.store = st.store := by
  refine ⟨allows_of_simulation (R := Sim db)
    (fun st σ c h hc => h.step c.1 c.2 hc) hcs ?_, fun _ _ _ => perform_error⟩
  exact ⟨StoreWf.empty, fun k _ => ListRep.of_empty rfl fun _ => rfl⟩

theorem lists_refine_sequences_both_ends :
    (let cs : List (Env × ListCall) := [(Env.quiet 0, .RPush [107] [[97], [98]]),
        (Env.quiet 0, .LPush [107] [[99], [100]]), (Env.quiet 0, .LPop [107]),
        (Env.quiet 0, .LIndex [107] (-1)), (Env.quiet 0, .LRange [107] (-2) 5)];
      Allows ListCall.Spec cs (fun _ => ⟨0, []⟩)
        (answers (ListCall.perform DB.zero) cs State.empty) ∧
      answers (ListCall.perform DB.zero) cs State.empty = [.ok (.int 2), .ok (.int 4),
        .ok (.value (some [100])), .ok (.value (some [98])), .ok (.values [[97], [98]])]) := by
  refine ⟨(lists_refine_sequences DB.zero _ ?_).1, by decide⟩
  simp [ListCall.Bounded]

end

end LedisDB
