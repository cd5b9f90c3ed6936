import LedisDB.BlockingPop
import LedisDB.Deadlines
import LedisDB.Server.List

/-!
# Moving an element between lists

RPOPLPUSH of `server/cmd_list.go` is a pop and a push in two commits. When the push is
refused the element is pushed back, but a TTL that went with the last element does not
come back. The TTL is saved only for a move within one list, as a number of seconds that
is counted anew from the end of the move.
-/

namespace LedisDB

open List

/-- The environments are those that the calls meet, one after the other. -/
def DB.rpoplpushCommand (db : DB) (env₁ env₂ env₃ env₄ : Env) (st : State) :
    List Bytes → Except ServerErr RespReply × State
  | [source, dest] =>
    match (if source = dest then (db.LTTL source).eval env₁ st.store else .ok (-1)) with
    | .error e => (.error (.ledis e), st)
    | .ok ttl =>
      match exec env₂ (db.RPop source) st with
      | (.error e, st) => (.error (.ledis e), st)
      | (.ok none, st) => (.ok (.Bulk none), st)
      | (.ok (some data), st) =>
        match exec env₃ (db.LPush dest [data]) st with
        | (.error e, st) =>
          -- revert pop
          (.error (.ledis e), (exec env₄ (db.RPush source [data]) st).2)
        | (.ok _, st) =>
          -- reset ttl
          (.ok (.Bulk (some data)),
            if ttl ≠ -1 then (exec env₄ (db.LExpire source ttl) st).2 else st)
  | _ => (.error .ErrCmdParams, st)

section
variable {db : DB} {env : Env} {s : Store} {st : State} {σ : Sequences} {key k v : Bytes}
  {ttl : Int64} {xs : List Bytes} {x : Bytes}

instance : Op.Closed (ListOnly db key) where
  nil := fun _ h => absurd h not_mem_nil
  append := ListOnly.append

theorem listOnly_singleton {o : WriteOp Bytes Bytes} (h : DataEntry db .LIST key o.key) :
    ListOnly db key [o] := by
  intro o' ho
  rw [mem_singleton.mp ho]
  exact h

open Op.Queues in
theorem lpush_listOnly (whereSeq : Int32) (args : List Bytes) :
    (db.lpush key whereSeq args).Queues env s (ListOnly db key) := by
  have hloop : ∀ seq delta i, (db.lpushLoop key seq delta i args).Queues env s
      (ListOnly db key) := by
    intro seq delta i
    induction args generalizing i with
    | nil => exact pure ()
    | cons arg args ih =>
      exact (put (listOnly_singleton (.litem key _))).bind fun _ => ih (i + 1)
  have hmeta : ∀ headSeq tailSeq, (db.lSetMeta (db.lEncodeMetaKey key) headSeq tailSeq).Queues env s
      (ListOnly db key) := fun _ _ => ite (fun _ => pure _) fun _ => ite
    (fun _ => (delete (listOnly_singleton (.lmeta key))).bind fun _ => pure _)
    fun _ => (put (listOnly_singleton (.lmeta key))).bind fun _ => pure _
  exact (lift _).bind fun _ => (reads (lGetMeta_reads _)).bind fun _ => ite (fun _ => pure _)
    fun _ => (hloop _ _ _).bind fun _ => ite (fun _ => throw _) fun _ =>
      (hmeta _ _).bind fun _ => pure _

theorem push_deadline (whereSeq : Int32) (args : List Bytes) (k : Bytes) :
    deadlineOf db (exec env (db.lpush key whereSeq args) st).2.store .LIST k =
      deadlineOf db st.store .LIST k := by
  rcases exec_store_of_queues (lpush_listOnly whereSeq args) with h | ⟨b, hb, h⟩
  · rw [h]
  · rw [h]
    exact hb.get_expire .expMeta

theorem Sim.rpop (h : Sim db st σ) (hok : ¬ Fails (exec env (db.RPop key) st)) (hk : ValidKey key)
    (hx : (σ key).items = xs ++ [x]) :
    ∃ st', exec env (db.RPop key) st = (.ok (some x), st') ∧
      Sim db st' (Function.update σ key (σ key).popTail) ∧
      ∀ k, deadlineOf db st'.store .LIST k =
        if k = key ∧ xs = [] then none else deadlineOf db st.store .LIST k := by
  obtain ⟨b, hrun, hb⟩ := RPop_run env ⟨[], st.nc⟩ hk (h.rep key hk.2) (by simp [hx])
  rw [hx, getLast?_concat] at hrun
  have hexec := exec_of_not_fails hrun hok
  have hsim := @write_key db env st σ key _ (db.RPop key) (σ key).popTail h (.RPop key) rfl rfl
    (by rw [hexec]; exact hb.rep)
  rw [hexec] at hsim
  refine ⟨_, hexec, hsim, fun k => ?_⟩
  by_cases hkey : k = key
  · have hshort := hb.shortened h.wf
    rw [show (σ key).popTail.items = xs by simp [Sequence.popTail, hx]] at hshort
    rw [hkey]
    split_ifs with hc
    · exact hshort.gone hc.2 _ (.inr rfl)
    · exact hshort.kept (fun hnil => hc ⟨rfl, hnil⟩) _ .expMeta
  · rw [if_neg fun hc => hkey hc.1]
    have hsame := @write_other db env st h.wf (.RPop key) .LIST k _ (.inr .expMeta)
      (.inr fun hmem => hkey (mem_singleton.mp hmem))
    rwa [Write.body, exec_discard_state, hexec] at hsame

theorem Sim.lpush (h : Sim db st σ) (hok : ¬ Fails (exec env (db.LPush key [v]) st)) :
    ∃ n st', exec env (db.LPush key [v]) st = (.ok n, st') ∧
      Sim db st' (Function.update σ key ((σ key).pushHead [v])) := by
  have hk : ValidKey key := by
    by_contra hk
    have hrun : db.LPush key [v] env st.store ⟨[], st.nc⟩ = (.error .errKeySize, ⟨[], st.nc⟩) :=
      invalidKey_run hk
    exact hok ⟨.errKeySize, by simp [exec, hrun]⟩
  obtain ⟨b, hrun, hb⟩ := LPush_run env ⟨[], st.nc⟩ hk (h.rep key hk.2) (cons_ne_nil v []) (by simp)
  by_cases hfits : ((σ key).pushHead [v]).Fits
  · rw [if_pos hfits] at hrun
    have hexec := exec_of_not_fails hrun hok
    have hsim := @write_key db env st σ key _ (db.LPush key [v]) ((σ key).pushHead [v]) h
      (.LPush key [v]) rfl rfl (by rw [hexec]; exact hb hfits)
    rw [hexec] at hsim
    exact ⟨_, _, hexec, hsim⟩
  · rw [if_neg hfits] at hrun
    exact absurd ⟨.errListSeq, by simp [exec, hrun]⟩ hok

theorem Sim.rpush_back (h : Sim db st (Function.update σ key (σ key).popTail))
    (hlist : (σ key).items ≠ [] → (σ key).Fits) (hok : ¬ Fails (exec env (db.RPush key [x]) st))
    (hk : ValidKey key) (hx : (σ key).items = xs ++ [x]) :
    ∃ σ', Sim db (exec env (db.RPush key [x]) st).2 σ' ∧ ∀ k, (σ' k).items = (σ k).items := by
  have hpop : (σ key).popTail = ⟨(σ key).head, xs⟩ := by simp [Sequence.popTail, hx]
  have hrep := h.rep key hk.2
  rw [Function.update_self, hpop] at hrep
  have hfits : (Sequence.pushTail ⟨(σ key).head, xs⟩ [x]).Fits := by
    have hq := hlist (by simp [hx])
    unfold Sequence.Fits Sequence.tail at hq ⊢
    unfold Sequence.pushTail
    rw [hx] at hq
    by_cases hnil : xs = []
    · simp [hnil]
    · simpa [hnil] using hq
  obtain ⟨b, hrun, hb⟩ := RPush_run env ⟨[], st.nc⟩ hk hrep (cons_ne_nil x []) (by simp)
  rw [if_pos hfits] at hrun
  refine ⟨_, h.write_key (.RPush key [x]) rfl rfl
    (by rw [exec_of_not_fails hrun hok]; exact hb hfits), fun k => ?_⟩
  by_cases hkey : k = key
  · rw [hkey, Function.update_self, hx]
    rfl
  · rw [Function.update_of_ne hkey, Function.update_of_ne hkey]

theorem LTTL_eval (hs : StoreWf s) (hk : ValidKey key) (env : Env) :
    ∃ ttl, (db.LTTL key).eval env s = .ok ttl ∧ (ttl = -1 ∨
      0 < ttl ∧ deadlineOf db s .LIST key = some (PutInt64 (env.now + ttl))) := by
  have heval : ∀ {w}, decodeInt64 (s.get (db.expEncodeMetaKey ListType key)) = .ok w →
      (db.LTTL key).eval env s = .ok (if w = 0 ∨ w - env.now ≤ 0 then -1 else w - env.now) := by
    intro w hw
    simp only [DB.LTTL, DB.ttl, Op.eval, Op.bind_run, checkKeySize_ok.mpr hk, Op.get_run, hw]
    by_cases h0 : w = 0
    · simp [h0]
    · by_cases hle : w - env.now ≤ 0 <;> simp [h0]
  cases hd : s.get (db.expEncodeMetaKey ListType key) with
  | none => exact ⟨-1, heval (w := 0) (by rw [hd]; rfl), .inl rfl⟩
  | some v =>
    obtain ⟨w, rfl⟩ := hs.deadline (T := .LIST) hd
    rw [hd] at heval
    refine ⟨_, heval (decodeInt64_PutInt64 w), ?_⟩
    split_ifs with hc
    · exact .inl rfl
    · rw [not_or] at hc
      refine .inr ⟨Int64.not_le.mp hc.2, ?_⟩
      rwa [show env.now + (w - env.now) = w by grind]

theorem Sim.lexpire (h : Sim db st σ) (hok : ¬ Fails (exec env (db.LExpire key ttl) st))
    (hk : ValidKey key) (hq : (σ key).items ≠ []) (hpos : 0 < ttl) :
    Sim db (exec env (db.LExpire key ttl) st).2 σ ∧
      deadlineOf db (exec env (db.LExpire key ttl) st).2.store .LIST key =
        some (PutInt64 (env.now + ttl)) := by
  have hrep := h.rep key hk.2
  have hlen := hrep.length_lt
  have hn := ofNat_ne_zero (n := (σ key).items.length) (by simpa using hq) (by omega)
  obtain ⟨nc, hrun⟩ := @expireSized_run db env .LIST st key (db.LLen key) _ ttl
    (LLen_run hk hrep) hn hpos
  have hexec' : exec env (db.LExpire key ttl) st = _ := exec_of_not_fails hrun hok
  refine ⟨?_, ?_⟩
  · refine h.write (w := .LExpire key ttl) rfl rfl (fun k hmem _ => ?_) fun k hne => rfl
    rw [hexec', mem_singleton.mp hmem]
    exact hrep.congr (expireBatch_data (.lmeta key) _) fun n => expireBatch_data (.litem key n) _
  · rw [hexec']
    exact (deadlineOf_expireAt db st.store .LIST key _ .LIST key).trans (if_pos ⟨rfl, rfl⟩)

variable {source dest : Bytes} {env₁ env₂ env₃ env₄ : Env}

/-- The last element was moved and returned and the TTL stays with the list, or an error was
returned and the contents and TTLs of both lists are as before. -/
def MovesOne (db : DB) (st : State) (σ : Sequences) (source dest : Bytes) :
    Except ServerErr RespReply × State → Prop
  | (.error _, st') => (∃ σ', Sim db st' σ' ∧ ∀ k, (σ' k).items = (σ k).items) ∧
      ∀ k ∈ [source, dest], deadlineOf db st'.store .LIST k = deadlineOf db st.store .LIST k
  | (.ok reply, st') => ∀ xs x, (σ source).items = xs ++ [x] →
      reply = .Bulk (some x) ∧ Sim db st' (moved σ source dest x) ∧
      ((moved σ source dest x source).items ≠ [] →
        deadlineOf db st'.store .LIST source = deadlineOf db st.store .LIST source)

/-- Of the calls that follow a committed pop of `x`: the push that takes it back must succeed,
and the TTL must not have gone with the last element. -/
def KeepsMove (db : DB) (env₁ env₄ : Env) (st : State) (source dest : Bytes) (xs : List Bytes)
    (x : Bytes) (push : Except Err Int64 × State) : Prop :=
  if Fails push then ¬ Fails (exec env₄ (db.RPush source [x]) push.2) ∧
    (deadlineOf db st.store .LIST source ≠ none → xs ≠ [])
  else deadlineOf db st.store .LIST source ≠ none → source = dest →
    ∀ ttl, (db.LTTL source).eval env₁ st.store = .ok ttl →
      if ttl = -1 ∨ Fails (exec env₄ (db.LExpire source ttl) push.2) then xs ≠ []
      else env₄.now = env₁.now

theorem Sim.length_unique (h : Sim db st σ) {σ' : Sequences} (h' : Sim db st σ') (hk : ValidKey k) :
    (σ' k).items.length = (σ k).items.length := by
  have hrep := h.rep k hk.2
  have hrep' := h'.rep k hk.2
  have hlen := hrep.length_lt
  have hlen' := hrep'.length_lt
  have hrun := @LLen_run db (.quiet 0) st.store k _ ⟨[], st.nc⟩ hk hrep
  rw [LLen_run hk hrep'] at hrun
  have hsize := congrArg Int64.toInt (Except.ok.inj (Prod.mk.inj hrun).1)
  rw [Int64.toInt_ofNat_of_lt (by omega), Int64.toInt_ofNat_of_lt (by omega)] at hsize
  exact_mod_cast hsize

theorem readTTL (h : Sim db st σ) (hk : ValidKey source) (dest : Bytes) (env₁ : Env) :
    ∃ ttl, (if source = dest then (db.LTTL source).eval env₁ st.store else .ok (-1)) = .ok ttl ∧
      (ttl ≠ -1 → source = dest ∧ 0 < ttl ∧
        deadlineOf db st.store .LIST source = some (PutInt64 (env₁.now + ttl))) := by
  obtain ⟨ttl, httl, hdead⟩ := @LTTL_eval db st.store source h.wf hk env₁
  by_cases heq : source = dest
  · exact ⟨ttl, (if_pos heq).trans httl, fun hne => ⟨heq, hdead.resolve_left hne⟩⟩
  · exact ⟨-1, if_neg heq, fun hne => absurd rfl hne⟩

theorem rpoplpush_empty (h : Sim db st σ) (hk : ValidKey source) (hq : (σ source).items = []) :
    db.rpoplpushCommand env₁ env₂ env₃ env₄ st [source, dest] = (.ok (.Bulk none), st) := by
  have hpop : exec env₂ (db.RPop source) st = (.ok none, st) := exec_lpop_empty h hk hq listTailSeq
  obtain ⟨ttl, httl, -⟩ := readTTL h hk dest env₁
  simp [DB.rpoplpushCommand, httl, hpop]

theorem movesOne_of_unpopped (h : Sim db st σ) (hpop : Fails (exec env₂ (db.RPop source) st)) :
    MovesOne db st σ source dest
      (db.rpoplpushCommand env₁ env₂ env₃ env₄ st [source, dest]) := by
  obtain ⟨e, he⟩ := hpop
  have hstore := exec_error he
  rcases hexec : exec env₂ (db.RPop source) st with ⟨r, st₂⟩
  rw [hexec] at he hstore
  obtain rfl : r = .error e := he
  simp only [DB.rpoplpushCommand, hexec]
  generalize (if source = dest then (db.LTTL source).eval env₁ st.store else .ok (-1)) = saved
  cases saved with
  | error e => exact ⟨⟨σ, h, fun _ => rfl⟩, fun _ _ => rfl⟩
  | ok ttl =>
    exact ⟨⟨σ, h.of_store hstore, fun _ => rfl⟩, fun _ _ => congrArg (deadlineOf db · _ _) hstore⟩

theorem movesOne_of_refused (h : Sim db st σ) (hpop : ¬ Fails (exec env₂ (db.RPop source) st))
    (hk : ValidKey source) (hx : (σ source).items = xs ++ [x])
    (hpush : Fails (exec env₃ (db.LPush dest [x]) (exec env₂ (db.RPop source) st).2)) :
    MovesOne db st σ source dest (db.rpoplpushCommand env₁ env₂ env₃ env₄ st [source, dest]) ↔
      ¬ Fails (exec env₄ (db.RPush source [x])
        (exec env₃ (db.LPush dest [x]) (exec env₂ (db.RPop source) st).2).2) ∧
      (deadlineOf db st.store .LIST source ≠ none → xs ≠ []) := by
  obtain ⟨st₂, hexec, hsim, hdead⟩ := h.rpop hpop hk hx
  obtain ⟨ttl, httl, -⟩ := readTTL h hk dest env₁
  rw [hexec] at hpush ⊢
  obtain ⟨e, he⟩ := hpush
  have hstore := exec_error he
  rcases hexec₃ : exec env₃ (db.LPush dest [x]) st₂ with ⟨r, st₃⟩
  dsimp only at he hstore
  rw [hexec₃] at he hstore
  obtain rfl : r = .error e := he
  have hrun : db.rpoplpushCommand env₁ env₂ env₃ env₄ st [source, dest] =
      (.error (.ledis e), (exec env₄ (db.RPush source [x]) st₃).2) := by
    simp [DB.rpoplpushCommand, httl, hexec, hexec₃]
  rw [hrun]
  by_cases hback : Fails (exec env₄ (db.RPush source [x]) st₃)
  · -- the element is in neither list
    refine iff_of_false (fun hm => ?_) fun hm => hm.1 hback
    obtain ⟨⟨σ', hsim', hitems⟩, -⟩ := hm
    obtain ⟨e', he'⟩ := hback
    have hlen := (hsim.of_store ((exec_error he').trans hstore)).length_unique hsim' hk
    rw [hitems, Function.update_self, hx] at hlen
    simp [Sequence.popTail, hx] at hlen
  · have hlists := (hsim.of_store hstore).rpush_back (h.rep source hk.2).fits hback hk hx
    have hdead' : ∀ k, deadlineOf db (exec env₄ (db.RPush source [x]) st₃).2.store .LIST k =
        if k = source ∧ xs = [] then none else deadlineOf db st.store .LIST k := by
      intro k
      rw [DB.RPush, push_deadline, hstore]
      exact hdead k
    rw [and_iff_right hback]
    constructor
    · intro hm hne hnil
      have hsource := hm.2 source (.head _)
      rw [hdead', if_pos ⟨rfl, hnil⟩] at hsource
      exact hne hsource.symm
    · intro hm
      refine ⟨hlists, fun k _ => ?_⟩
      rw [hdead']
      split_ifs with hk
      · rw [hk.1]
        by_contra hne
        exact hm (Ne.symm hne) hk.2
      · rfl

theorem moved_source (σ : Sequences) (hx : (σ source).items = xs ++ [x]) :
    (moved σ source dest x source).items = if source = dest then x :: xs else xs := by
  split_ifs with heq
  · simp [moved, heq.symm, Sequence.pushHead, Sequence.popTail, hx]
  · simp [moved, Function.update_of_ne heq, Sequence.popTail, hx]

section
variable (h : Sim db st σ) (hpop : ¬ Fails (exec env₂ (db.RPop source) st))
  (hk : ValidKey source) (hx : (σ source).items = xs ++ [x])
  (hpush : ¬ Fails (exec env₃ (db.LPush dest [x]) (exec env₂ (db.RPop source) st).2))
include h hpop hk hx hpush

theorem rpoplpush_accepted
    (httl : (if source = dest then (db.LTTL source).eval env₁ st.store else .ok (-1)) = .ok ttl)
    (hpos : ttl ≠ -1 → source = dest ∧ 0 < ttl) :
    ∃ st', db.rpoplpushCommand env₁ env₂ env₃ env₄ st [source, dest] = (.ok (.Bulk (some x)), st') ∧
      Sim db st' (moved σ source dest x) ∧
      deadlineOf db st'.store .LIST source =
        if ttl = -1 ∨ Fails (exec env₄ (db.LExpire source ttl)
            (exec env₃ (db.LPush dest [x]) (exec env₂ (db.RPop source) st).2).2)
        then if xs = [] then none else deadlineOf db st.store .LIST source
        else some (PutInt64 (env₄.now + ttl)) := by
  obtain ⟨st₂, hexec, hsim, hdead⟩ := h.rpop hpop hk hx
  rw [hexec] at hpush ⊢
  obtain ⟨n, st₃, hexec₃, hsim₃⟩ := hsim.lpush hpush
  have hdead₃ := @push_deadline db env₃ st₂ dest listHeadSeq [x] source
  change deadlineOf db (exec env₃ (db.LPush dest [x]) st₂).2.store .LIST source = _ at hdead₃
  rw [hexec₃, hdead source] at hdead₃
  dsimp only
  rw [hexec₃]
  have hrun : db.rpoplpushCommand env₁ env₂ env₃ env₄ st [source, dest] = (.ok (.Bulk (some x)),
      if ttl ≠ -1 then (exec env₄ (db.LExpire source ttl) st₃).2 else st₃) := by
    simp [DB.rpoplpushCommand, httl, hexec, hexec₃]
  refine ⟨_, hrun, ?_⟩
  by_cases hne : ttl = -1
  · rw [if_neg fun hn => hn hne, if_pos (.inl hne)]
    exact ⟨hsim₃, by simpa using hdead₃⟩
  rw [if_pos hne]
  by_cases hexpire : Fails (exec env₄ (db.LExpire source ttl) st₃)
  · rw [if_pos (.inr hexpire)]
    obtain ⟨e, he⟩ := hexpire
    exact ⟨hsim₃.of_store (exec_error he), by simpa [exec_error he] using hdead₃⟩
  · obtain ⟨rfl, hlt⟩ := hpos hne
    have hq : (moved σ source source x source).items ≠ [] := by
      simp [moved, Sequence.pushHead]
    rw [if_neg (not_or.mpr ⟨hne, hexpire⟩)]
    exact Sim.lexpire hsim₃ hexpire hk hq hlt

theorem movesOne_of_accepted :
    MovesOne db st σ source dest (db.rpoplpushCommand env₁ env₂ env₃ env₄ st [source, dest]) ↔
      (deadlineOf db st.store .LIST source ≠ none → source = dest →
        ∀ ttl, (db.LTTL source).eval env₁ st.store = .ok ttl →
        if ttl = -1 ∨ Fails (exec env₄ (db.LExpire source ttl)
            (exec env₃ (db.LPush dest [x]) (exec env₂ (db.RPop source) st).2).2) then xs ≠ []
        else env₄.now = env₁.now) := by
  obtain ⟨ttl, httl, hread⟩ := readTTL h hk dest env₁
  obtain ⟨st', hrun, hsim, hdead⟩ := @rpoplpush_accepted db st σ ttl xs x source dest env₁ env₂ env₃
    env₄ h hpop hk hx hpush httl fun hne => ⟨(hread hne).1, (hread hne).2.1⟩
  have hmoves : MovesOne db st σ source dest (.ok (.Bulk (some x)), st') ↔
      ((if source = dest then x :: xs else xs) ≠ [] →
        deadlineOf db st'.store .LIST source = deadlineOf db st.store .LIST source) := by
    rw [← moved_source σ hx]
    constructor
    · intro hm
      exact (hm xs x hx).2.2
    · intro hm xs' x' hx'
      obtain ⟨rfl, heq⟩ := append_inj' (hx'.symm.trans hx) rfl
      obtain rfl := singleton_inj.mp heq
      exact ⟨rfl, hsim, hm⟩
  rw [hrun, hmoves, hdead]
  by_cases heq : source = dest
  · subst heq
    rw [if_pos rfl] at httl ⊢
    simp only [httl, Except.ok.injEq, forall_eq']
    split_ifs with hlost hxs
    · simp [hxs, eq_comm]
    · simp [hxs]
    · have hnow : PutInt64 (env₄.now + ttl) = PutInt64 (env₁.now + ttl) ↔
          env₄.now = env₁.now := by
        constructor
        · intro hput
          have hsum := PutInt64_inj hput
          grind
        · intro hnow
          rw [hnow]
      rw [(hread fun hne => hlost (.inl hne)).2.2, Option.some.injEq, hnow]
      simp
  · rw [if_neg heq] at httl ⊢
    obtain rfl : -1 = ttl := Except.ok.inj httl
    refine iff_of_true (fun hxs => ?_) fun _ heq' => absurd heq' heq
    rw [if_pos (.inl rfl), if_neg hxs]

end

theorem rpoplpush_moves_one_iff (h : Sim db st σ) (source dest : Bytes) :
    MovesOne db st σ source dest (db.rpoplpushCommand env₁ env₂ env₃ env₄ st [source, dest]) ↔
      ∀ xs x, (σ source).items = xs ++ [x] → ¬ Fails (exec env₂ (db.RPop source) st) →
        KeepsMove db env₁ env₄ st source dest xs x
          (exec env₃ (db.LPush dest [x]) (exec env₂ (db.RPop source) st).2) := by
  by_cases hpop : Fails (exec env₂ (db.RPop source) st)
  · exact iff_of_true (movesOne_of_unpopped h hpop) fun _ _ _ hn => absurd hpop hn
  have hk : ValidKey source := by
    by_contra hk
    have hrun : db.RPop source env₂ st.store ⟨[], st.nc⟩ = (.error .errKeySize, ⟨[], st.nc⟩) :=
      invalidKey_run hk
    exact hpop ⟨.errKeySize, by simp [exec, hrun]⟩
  rcases List.eq_nil_or_concat' (σ source).items with hnil | ⟨xs, x, hx⟩
  · rw [rpoplpush_empty h hk hnil]
    refine iff_of_true (fun xs x hx => ?_) fun xs x hx => ?_
    all_goals
      rw [hnil] at hx
      simp at hx
  · have hlast : MovesOne db st σ source dest
        (db.rpoplpushCommand env₁ env₂ env₃ env₄ st [source, dest]) ↔
        KeepsMove db env₁ env₄ st source dest xs x
          (exec env₃ (db.LPush dest [x]) (exec env₂ (db.RPop source) st).2) := by
      unfold KeepsMove
      split_ifs with hpush
      · exact movesOne_of_refused h hpop hk hx hpush
      · exact movesOne_of_accepted h hpop hk hx hpush
    rw [hlast]
    constructor
    · intro hm xs' x' hx' _
      obtain ⟨rfl, heq⟩ := append_inj' (hx'.symm.trans hx) rfl
      rwa [singleton_inj.mp heq]
    · intro hall
      exact hall xs x hx hpop

def timedValues : State := (exec (Env.quiet 0) (DB.zero.LExpire [107] 10) twoValues).2

theorem timedValues_sim : Sim DB.zero timedValues
    (Function.update (fun _ => ⟨0, []⟩) [107] ⟨1073741824, [[97], [98]]⟩) := by
  have hempty : Sim DB.zero State.empty fun _ => ⟨0, []⟩ :=
    ⟨StoreWf.empty, fun _ _ => ListRep.of_empty rfl fun _ => rfl⟩
  have htwo := hempty.write_key (.RPush [107] [[97], [98]]) rfl rfl twoValues_rep
  exact (htwo.lexpire (by decide) (by decide) (by simp) (by decide)).1

theorem rpoplpush_moves_last : MovesOne DB.zero timedValues
    (Function.update (fun _ => ⟨0, []⟩) [107] ⟨1073741824, [[97], [98]]⟩) [107] [108]
    (DB.zero.rpoplpushCommand (Env.quiet 0) (Env.quiet 0) (Env.quiet 0) (Env.quiet 0) timedValues
      [[107], [108]]) := by
  refine (rpoplpush_moves_one_iff timedValues_sim [107] [108]).mpr fun xs x hx _ => ?_
  rw [Function.update_self] at hx
  have hitems : [[97]] ++ [[98]] = xs ++ [x] := hx
  rw [← singleton_inj.mp (append_inj_right' hitems rfl)]
  have hpush : ¬ Fails (exec (Env.quiet 0) (DB.zero.LPush [108] [[98]])
      (exec (Env.quiet 0) (DB.zero.RPop [107]) timedValues).2) := by
    rintro ⟨e, he⟩
    cases he
  rw [KeepsMove, if_neg hpush]
  exact fun _ heq => absurd heq (by decide)

theorem rpoplpush_loses_ttl :
    ∃ st st', Reached st.store ∧
      (DB.zero.LRange [107] 0 (-1)).eval (Env.quiet 0) st.store = .ok [[97]] ∧
      (DB.zero.LTTL [107]).eval (Env.quiet 0) st.store = .ok 10 ∧
      DB.zero.rpoplpushCommand (Env.quiet 0) (Env.quiet 0) (Env.quiet 0) (Env.quiet 0) st
        [[107], []] = (.error (.ledis .errKeySize), st') ∧
      (DB.zero.LRange [107] 0 (-1)).eval (Env.quiet 0) st'.store = .ok [[97]] ∧
      (DB.zero.LTTL [107]).eval (Env.quiet 0) st'.store = .ok (-1) := by
  have hpush := @Reached.call State.empty DB.zero (Env.quiet 0) (.write (.RPush [107] [[97]]))
    .empty
  exact ⟨_, _, Reached.call DB.zero (Env.quiet 0) (.write (.LExpire [107] 10)) hpush, by decide,
    by decide, rfl, by decide, by decide⟩

end

end LedisDB
