import LedisDB.BlockingPop

/-!
# Wake-ups of blocked clients

Clients in `lblockPop` and pushers, step by step (`ledis/t_list.go`). A client pops
its keys in turn; where a list is empty it registers the cancel function of its
context under the key, in a step of its own, and when all keys are done it blocks
until the context ends. A push commits first and signals later; the signal cancels
all functions under the key. A push that falls between the look at an empty list
and the registration is not noticed. Where none does, no client sleeps while one
of its lists has an element and no signal is on its way.
-/

namespace LedisDB

inductive Side
  | head
  | tail

def Side.seq : Side → Int32
  | .head => listHeadSeq
  | .tail => listTailSeq

inductive Ctx
  | live
  | canceled
  | expired
  deriving DecidableEq

def Ctx.cancel : Ctx → Ctx
  | .live => .canceled
  | c => c

/-- Where a client is in the loop over its keys; with no key left it blocks. -/
inductive Phase
  | trying (past rest : List Bytes)
  | registering (past : List Bytes) (key : Bytes) (rest : List Bytes)
  | returned

structure Client where
  keys : List Bytes
  side : Side
  round : ℕ
  ctx : Ctx
  phase : Phase

def Client.idle : Client := ⟨[], .head, 0, .canceled, .returned⟩

def Client.start (c : Client) (keys : List Bytes) (side : Side) : Client :=
  ⟨keys, side, c.round + 1, .live, .trying [] keys⟩

def Client.return (c : Client) : Client := { c with ctx := c.ctx.cancel, phase := .returned }

/-- The lists, the clients, the registered functions by key (`lBlockKeys`) and the keys of
pushes that have not signalled yet. -/
structure Server (ι : Type) where
  st : State
  clients : ι → Client
  fns : Bytes → List (ι × ℕ)
  pending : List Bytes

inductive Action (ι : Type)
  | call (c : ι) (keys : List Bytes) (side : Side)
  | lpop (c : ι) (env : Env)
  | register (c : ι)
  | expire (c : ι)
  | wake (c : ι)
  | push (env : Env) (key : Bytes) (side : Side) (args : List Bytes)
  | signal (key : Bytes)
  | pop (env : Env) (key : Bytes) (side : Side)

namespace Server

variable {ι : Type} [DecidableEq ι]

def init (ι : Type) : Server ι := ⟨State.empty, fun _ => .idle, fun _ => [], []⟩

def set (s : Server ι) (c : ι) (x : Client) : Server ι :=
  { s with clients := Function.update s.clients c x }

def woken (x : Client) : Client :=
  match x.phase, x.ctx with
  | .trying _ [], .canceled => x.start x.keys x.side
  | .trying _ [], .expired => x.return
  | _, _ => x

def canceledBy (fns : List (ι × ℕ)) (c : ι) (x : Client) : Client :=
  if fns.contains (c, x.round) then { x with ctx := x.ctx.cancel } else x

def step (db : DB) (s : Server ι) : Action ι → Server ι
  | .call c keys side =>
    match (s.clients c).phase with
    | .returned => s.set c ((s.clients c).start keys side)
    | _ => s
  | .lpop c env =>
    match (s.clients c).phase with
    | .trying past (key :: rest) =>
      match exec env (db.lpop key (s.clients c).side.seq) s.st with
      | (.ok none, st) =>
        { s with st }.set c { s.clients c with phase := .registering past key rest }
      | (_, st) => { s with st }.set c (s.clients c).return
    | _ => s
  | .register c =>
    match (s.clients c).phase with
    | .registering past key rest =>
      { s with
        fns := Function.update s.fns key (s.fns key ++ [(c, (s.clients c).round)]) }.set c
          { s.clients c with phase := .trying (past ++ [key]) rest }
    | _ => s
  | .expire c =>
    match (s.clients c).ctx with
    | .live => s.set c { s.clients c with ctx := .expired }
    | _ => s
  | .wake c => s.set c (woken (s.clients c))
  | .push env key side args =>
    match exec env (db.lpush key side.seq args) s.st with
    | (.ok _, st) => { s with st, pending := if args = [] then s.pending else key :: s.pending }
    | (.error _, st) => { s with st }
  | .signal key =>
    if s.pending.contains key then
      { s with
        clients := fun c => canceledBy (s.fns key) c (s.clients c)
        fns := Function.update s.fns key []
        pending := s.pending.erase key }
    else s
  | .pop env key side => { s with st := (exec env (db.lpop key side.seq) s.st).2 }

end Server

def ListEmpty (db : DB) (s : Store) (key : Bytes) : Prop :=
  (db.LLen key).eval (Env.quiet 0) s = .ok 0

instance (db : DB) (s : Store) (key : Bytes) : Decidable (ListEmpty db s key) :=
  inferInstanceAs (Decidable (_ = _))

section
variable {db : DB} {env : Env} {st : State} {s s' : Store} {key k : Bytes}

theorem ListEmpty.congr (h : ListEmpty db s key)
    (hmeta : s'.get (db.lEncodeMetaKey key) = s.get (db.lEncodeMetaKey key)) :
    ListEmpty db s' key := by
  unfold ListEmpty DB.LLen DB.lGetMeta Op.eval at *
  simp only [Op.bind_run, Op.get_run, hmeta] at *
  generalize s.get (db.lEncodeMetaKey key) = v at h
  cases v with
  | none => exact h
  | some v => exact h

theorem lGetMeta_env (ek : Bytes) (u : Txn) :
    db.lGetMeta ek env s u = ((db.lGetMeta ek).eval (Env.quiet 0) s, u) := by
  simp only [DB.lGetMeta, Op.eval, Op.bind_run, Op.get_run]
  cases s.get ek with
  | none => rfl
  | some v =>
    dsimp only
    cases getMeta v <;> rfl

theorem ListEmpty.meta_run (h : ListEmpty db s key) : checkKeySize key = .ok () ∧
    ∃ a b, ∀ env u, db.lGetMeta (db.lEncodeMetaKey key) env s u = (.ok (a, b, 0), u) := by
  have hrun : db.LLen key (Env.quiet 0) s ⟨[], 0⟩ = (.ok 0, ⟨[], 0⟩) := by
    rw [LLen_reads ⟨[], 0⟩, h]
  obtain ⟨⟨⟩, t, hk, hrun⟩ := Op.bind_ok.mp hrun
  obtain ⟨⟨a, b, size⟩, u, hm, hsize⟩ := Op.bind_ok.mp hrun
  rw [lGetMeta_env] at hm
  have hzero : size.toInt64 = 0 := by
    injection (Prod.mk.inj hsize).1
  have hsize : size = 0 := by
    rw [← Int32.toInt_inj, ← Int32.toInt_toInt64, hzero]
    rfl
  refine ⟨(Prod.mk.inj hk).1, a, b, fun env u => ?_⟩
  rw [lGetMeta_env, (Prod.mk.inj hm).1, hsize]

theorem ListEmpty.exec_lpop (h : ListEmpty db st.store key) (whereSeq : Int32) :
    exec env (db.lpop key whereSeq) st = (.ok none, st) := by
  obtain ⟨hk, a, b, hmeta⟩ := h.meta_run
  simp [exec, DB.lpop, hk, hmeta]

theorem exec_lpush_nil (db : DB) (env : Env) (key : Bytes) (whereSeq : Int32) (st : State) :
    (exec env (db.lpush key whereSeq []) st).2.store = st.store := by
  rcases exec_cases env (db.lpush key whereSeq []) st with h | ⟨r, t, hx, h⟩
  · exact h
  · have hreads : (db.lpush key whereSeq []).Reads env st.store :=
      (Op.Reads.lift _).bind fun _ => (lGetMeta_reads _).bind fun _ => .pure _
    rw [h, (hreads.ok hx).2]
    rfl

theorem write_lists (hs : StoreWf st.store) (c : Write) (hc : c.keys = [key]) :
    StoreWf (exec env (c.body db) st).2.store ∧ ∀ k, k ≠ key → ListEmpty db st.store k →
      ListEmpty db (exec env (c.body db) st).2.store k := by
  refine ⟨write_wf hs c, fun k hk h => h.congr (write_other hs c (.inl (.lmeta k)) (.inr ?_))⟩
  rw [hc]
  exact List.mem_singleton.not.mpr hk

theorem lpop_lists (hs : StoreWf st.store) (side : Side) :
    StoreWf (exec env (db.lpop key side.seq) st).2.store ∧
      ∀ k, ListEmpty db st.store k →
        ListEmpty db (exec env (db.lpop key side.seq) st).2.store k := by
  have hw : StoreWf (exec env (db.lpop key side.seq) st).2.store ∧ ∀ k, k ≠ key →
      ListEmpty db st.store k → ListEmpty db (exec env (db.lpop key side.seq) st).2.store k := by
    rw [← exec_discard_state]
    cases side with
    | head => exact write_lists hs (.LPop key) rfl
    | tail => exact write_lists hs (.RPop key) rfl
  refine ⟨hw.1, fun k h => ?_⟩
  by_cases hk : k = key
  · subst hk
    rwa [h.exec_lpop]
  · exact hw.2 k hk h

theorem lpush_lists (hs : StoreWf st.store) (env : Env) (key : Bytes) (side : Side)
    (args : List Bytes) : StoreWf (exec env (db.lpush key side.seq args) st).2.store ∧
      ∀ k, k ≠ key → ListEmpty db st.store k →
        ListEmpty db (exec env (db.lpush key side.seq args) st).2.store k := by
  rw [← exec_discard_state]
  cases side with
  | head => exact write_lists hs (.LPush key args) rfl
  | tail => exact write_lists hs (.RPush key args) rfl

end

def Client.Waits (x : Client) : Prop := x.ctx = .live ∧ ∃ past, x.phase = .trying past []

def Phase.past : Phase → List Bytes
  | .trying past _ => past
  | .registering past _ _ => past
  | .returned => []

def Phase.ahead : Phase → List Bytes
  | .trying _ rest => rest
  | .registering _ key rest => key :: rest
  | .returned => []

namespace Server

variable {ι : Type} {db : DB} {s s' : Server ι} {c : ι} {x : Client}

def Quiet (db : DB) (s : Server ι) (key : Bytes) : Prop :=
  ListEmpty db s.st.store key ∨ key ∈ s.pending

def NoLostWakeUp (db : DB) (s : Server ι) : Prop :=
  ∀ c, (s.clients c).Waits → ∀ k ∈ (s.clients c).keys, s.Quiet db k

/-- No push has come and gone since the client looked at the list it registers for. -/
def Timely (db : DB) (s : Server ι) : Action ι → Prop
  | .register c =>
    match (s.clients c).phase with
    | .registering _ key _ => (s.clients c).ctx = .live → s.Quiet db key
    | _ => True
  | _ => True

/-- While its context lives, a client is registered for the keys behind it. -/
def Attentive (db : DB) (s : Server ι) (c : ι) (x : Client) : Prop :=
  x.ctx = .live → x.keys = x.phase.past ++ x.phase.ahead ∧
    ∀ k ∈ x.phase.past, (c, x.round) ∈ s.fns k ∧ s.Quiet db k

structure Inv (db : DB) (s : Server ι) : Prop where
  wf : StoreWf s.st.store
  attentive : ∀ c, s.Attentive db c (s.clients c)

theorem Inv.noLostWakeUp (h : Inv db s) : NoLostWakeUp db s := by
  rintro c ⟨hctx, past, hphase⟩ k hk
  obtain ⟨hkeys, hpast⟩ := h.attentive c hctx
  rw [hphase] at hkeys hpast
  refine (hpast k ?_).2
  rw [hkeys] at hk
  simpa [Phase.ahead] using hk

theorem Inv.mono (h : Inv db s) (hwf : StoreWf s'.st.store) (hclients : s'.clients = s.clients)
    (hfns : ∀ k, s.fns k ⊆ s'.fns k) (hquiet : ∀ k, s.Quiet db k → s'.Quiet db k) : Inv db s' := by
  refine ⟨hwf, fun c hctx => ?_⟩
  rw [hclients] at hctx ⊢
  obtain ⟨hkeys, hpast⟩ := h.attentive c hctx
  exact ⟨hkeys, fun k hk => ⟨hfns k (hpast k hk).1, hquiet k (hpast k hk).2⟩⟩

theorem Attentive.of_ended (h : x.ctx ≠ .live) : s.Attentive db c x := fun hx => absurd hx h

theorem cancel_ne_live (ctx : Ctx) : ctx.cancel ≠ .live := by
  cases ctx <;> simp [Ctx.cancel]

theorem attentive_start (x : Client) (keys : List Bytes) (side : Side) :
    s.Attentive db c (x.start keys side) := fun _ => ⟨rfl, by simp [Client.start, Phase.past]⟩

theorem attentive_return (x : Client) : s.Attentive db c x.return :=
  Attentive.of_ended (cancel_ne_live x.ctx)

theorem inv_init : Inv db (init ι) :=
  ⟨StoreWf.empty, fun _ => Attentive.of_ended (by simp [init, Client.idle])⟩

theorem inv_pop (h : Inv db s) (env : Env) (key : Bytes) (side : Side) :
    Inv db { s with st := (exec env (db.lpop key side.seq) s.st).2 } := by
  obtain ⟨hwf, hempty⟩ := lpop_lists h.wf side
  exact h.mono hwf rfl (fun _ => List.Subset.refl _) fun k => Or.imp_left (hempty k)

section Steps
variable [DecidableEq ι]

section
variable (h : Inv db s)
include h

theorem Inv.set (hx : s.Attentive db c x) : Inv db (s.set c x) := by
  refine ⟨h.wf, fun d => ?_⟩
  simp only [Server.set]
  by_cases hd : d = c
  · subst hd
    rwa [Function.update_self]
  · rw [Function.update_of_ne hd]
    exact h.attentive d

theorem inv_lpop (c : ι) (env : Env) : Inv db (s.step db (.lpop c env)) := by
  simp only [step]
  split
  next past key rest hphase =>
    have hst := inv_pop h env key (s.clients c).side
    split
    next st hexec =>
      rw [hexec] at hst
      refine hst.set fun hctx => ?_
      have hc := hst.attentive c hctx
      rwa [hphase] at hc
    next r st _ hexec =>
      rw [hexec] at hst
      exact hst.set (attentive_return _)
  next => exact h

theorem inv_register (c : ι) (ht : s.Timely db (.register c)) :
    Inv db (s.step db (.register c)) := by
  simp only [step]
  split
  next past key rest hphase =>
    simp only [Timely, hphase] at ht
    have hgrown : Inv db { s with
        fns := Function.update s.fns key (s.fns key ++ [(c, (s.clients c).round)]) } := by
      refine h.mono h.wf rfl (fun k => ?_) fun _ => id
      by_cases hk : k = key
      · subst hk
        simp
      · simp [hk]
    refine hgrown.set fun hctx => ?_
    obtain ⟨hkeys, hpast⟩ := hgrown.attentive c hctx
    rw [hphase] at hkeys hpast
    refine ⟨by simpa [Phase.past, Phase.ahead] using hkeys, fun k hk => ?_⟩
    rcases List.mem_append.mp hk with hk | hk
    · exact hpast k hk
    · obtain rfl := List.mem_singleton.mp hk
      exact ⟨by simp, ht hctx⟩
  next => exact h

theorem inv_push (env : Env) (key : Bytes) (side : Side) (args : List Bytes) :
    Inv db (s.step db (.push env key side args)) := by
  obtain ⟨hwf, hother⟩ := lpush_lists h.wf env key side args
  have hfailed : ∀ e, (exec env (db.lpush key side.seq args) s.st).1 = .error e →
      (exec env (db.lpush key side.seq args) s.st).2.store = s.st.store := fun e => exec_error
  have hnil := exec_lpush_nil db env key side.seq s.st
  simp only [step]
  split
  next r st hexec =>
    rw [hexec] at hwf hother
    refine h.mono hwf rfl (fun _ => List.Subset.refl _) fun k hk => ?_
    split_ifs with hargs
    · subst hargs
      rw [hexec] at hnil
      exact hk.imp_left fun hk => hk.congr (by rw [← hnil])
    · by_cases hkey : k = key
      · exact .inr (hkey ▸ (.head _))
      · exact hk.imp (hother k hkey) (.tail _)
  next e st hexec =>
    rw [hexec] at hwf hfailed
    refine h.mono hwf rfl (fun _ => List.Subset.refl _) fun k hk => ?_
    exact hk.imp_left fun hk => hk.congr (by rw [← hfailed e rfl])

theorem inv_signal (key : Bytes) : Inv db (s.step db (.signal key)) := by
  simp only [step]
  split
  case isFalse => exact h
  refine ⟨h.wf, fun c => ?_⟩
  dsimp only [canceledBy]
  split
  case isTrue => exact Attentive.of_ended (cancel_ne_live _)
  next hcontains =>
    intro hctx
    obtain ⟨hkeys, hpast⟩ := h.attentive c hctx
    refine ⟨hkeys, fun k hk => ?_⟩
    obtain ⟨hfn, hquiet⟩ := hpast k hk
    have hne : k ≠ key := by
      rintro rfl
      exact hcontains (List.contains_iff_mem.mpr hfn)
    refine ⟨?_, hquiet.imp_right (List.mem_erase_of_ne hne).mpr⟩
    simpa only [Function.update_of_ne hne] using hfn

theorem Inv.step (a : Action ι) (ht : s.Timely db a) : Inv db (s.step db a) := by
  cases a with
  | call c keys side =>
    simp only [Server.step]
    split
    next => exact h.set (attentive_start _ keys side)
    next => exact h
  | lpop c env => exact inv_lpop h c env
  | register c => exact inv_register h c ht
  | expire c =>
    simp only [Server.step]
    split
    next => exact h.set (Attentive.of_ended (by simp))
    next => exact h
  | wake c =>
    refine h.set ?_
    unfold woken
    split
    next => exact attentive_start _ _ _
    next => exact attentive_return _
    next => exact h.attentive c
  | push env key side args => exact inv_push h env key side args
  | signal key => exact inv_signal h key
  | pop env key side => exact inv_pop h env key side

end

/-- While clients register in time, no wake-up is lost. -/
theorem no_lost_wake_up {s : Server ι}
    (h : Reaches (fun s a s' => step db s a = s') (Timely db) (init ι) s) : NoLostWakeUp db s := by
  have hinv := h.invariant (inv_init) fun s a s' hs ht hstep => hstep ▸ hs.step a ht
  exact hinv.noLostWakeUp

theorem no_lost_wake_up_pushed : NoLostWakeUp DB.zero
    ([.call () [[1]] .head, .lpop () (Env.quiet 0), .register (),
      .push (Env.quiet 0) [1] .head [[2]]].foldl (step DB.zero) (init Unit)) := by
  have hempty : ListEmpty DB.zero
      ([.call () [[1]] .head, .lpop () (Env.quiet 0)].foldl (step DB.zero) (init Unit)).st.store
        [1] := by decide
  refine no_lost_wake_up (.step (c := .push (Env.quiet 0) [1] .head [[2]])
    (.step (c := .register ()) (.step (c := .lpop () (Env.quiet 0))
      (.step (c := .call () [[1]] .head) .refl trivial rfl) trivial rfl) ?_ rfl) trivial rfl)
  exact fun _ => .inl hempty

theorem push_before_registration_unnoticed : ∃ s : Server Unit,
    Reaches (fun s a s' => step DB.zero s a = s') (fun _ _ => True) (init Unit) s ∧
      (s.clients ()).Waits ∧ [1] ∈ (s.clients ()).keys ∧ s.pending = [] ∧
      (DB.zero.LLen [1]).eval (Env.quiet 0) s.st.store = .ok 1 ∧
      ¬ NoLostWakeUp DB.zero s := by
  refine ⟨_, .step (c := .register ()) (.step (c := .signal [1])
    (.step (c := .push (Env.quiet 0) [1] .head [[2]]) (.step (c := .lpop () (Env.quiet 0))
      (.step (c := .call () [[1]] .head) .refl trivial rfl) trivial rfl) trivial rfl)
        trivial rfl) trivial rfl, ⟨rfl, _, rfl⟩, List.mem_singleton_self _, rfl, rfl, fun h => ?_⟩
  rcases h () ⟨rfl, _, rfl⟩ [1] (List.mem_singleton_self _) with hempty | hpending
  · revert hempty
    decide
  · exact absurd hpending List.not_mem_nil

end Steps

end Server

end LedisDB
