import LedisDB.Deadlines

/-!
# Every deadline has its time entry

The checker finds deadlines by the time index. `expireAt` writes the time entry
together with the deadline and `rmExpire` reads the deadline before it deletes the
two, so a deadline without its time entry never arises, however often deadlines
are moved. `Paired` also carries a property of the deadlines that calls accept.
-/

namespace LedisDB

/-- Every deadline meets `W` and has its time entry. -/
def Paired (db : DB) (W : DataType → Bytes → Int64 → Prop) (s : Store) : Prop :=
  ∀ T k w, deadlineOf db s T k = some (PutInt64 w) →
    W T k w ∧ s.get (db.expEncodeTimeKey T.code k w) = some (db.expEncodeMetaKey T.code k)

theorem Paired.empty (db : DB) (W : DataType → Bytes → Int64 → Prop) :
    Paired db W OrderedMap.empty := by
  intro T k w h
  cases h

variable {u t : Txn}

section
variable {db : DB} {env : Env} {st : State} {s m m' : Store} {T : DataType} {A : Bytes → Prop}
  {D : Option (Bytes × Int64)} {b : Batch} {W : DataType → Bytes → Int64 → Prop} {k value : Bytes}
  {w duration : Int64} {r : Ret Unit} {f : Int64 → Op (Ret Int64)}

theorem Paired.of_same (hm : Paired db W m)
    (h : ∀ (T' : DataType) (k' ek : Bytes), ExpireEntry db T' k' ek → m'.get ek = m.get ek) :
    Paired db W m' := by
  intro T' k' w' hw'
  rw [deadlineOf, h T' k' _ .expMeta] at hw'
  rw [h T' k' _ (.time w')]
  exact hm T' k' w' hw'

theorem Paired.remove (hm : Paired db W m)
    (hget : ∀ ek, m'.get ek = if ek = db.expEncodeMetaKey T.code k ∨
      ek = db.expEncodeTimeKey T.code k w then none else m.get ek) : Paired db W m' := by
  intro T' k' w' hw'
  rw [deadlineOf, hget] at hw'
  split_ifs at hw' with hdel
  obtain ⟨hW, htime⟩ := hm T' k' w' hw'
  refine ⟨hW, ?_⟩
  rw [hget, if_neg]
  · exact htime
  · rintro (h | h)
    · exact DB.expEncodeTimeKey_ne_meta h
    · obtain ⟨-, hT, rfl⟩ := DB.expEncodeTimeKey_inj.mp h
      exact hdel (.inl (by rw [hT]))

theorem Emits.paired (hb : Emits db s T A D b) (hD : ∀ k w, D = some (k, w) → W T k w)
    (hm : Paired db W m) : Paired db W (m.applyBatch b) := by
  induction hb generalizing m with
  | nil => exact hm
  | @put k ek v b hk he _ ih => exact ih (hm.of_same (get_applyOp_data m he.stored.entry))
  | @delete k ek b hk he _ ih => exact ih (hm.of_same (get_applyOp_data m he))
  | rmExpire hk hv hw _ ih => exact ih (hm.remove (get_deletePair m _ _))
  | @expireAt k w b hk hw _ ih =>
    refine ih fun T' k' w' hw' => ?_
    rw [deadlineOf_expireAt] at hw'
    rw [get_time_expireAt]
    split_ifs at hw' with h
    · obtain ⟨rfl, rfl⟩ := h
      obtain rfl := PutInt64_inj (Option.some.inj hw')
      exact ⟨hD _ _ hw, by simp⟩
    · rw [if_neg fun h' => h ⟨h'.1, h'.2.1⟩]
      exact hm T' k' w' hw'

theorem Emits.deadline (hb : Emits db s T A D b) {T' : DataType} {k' v : Bytes}
    (h : deadlineOf db (m.applyBatch b) T' k' = some v) :
    deadlineOf db m T' k' = some v ∨ T' = T ∧ ∃ w, D = some (k', w) ∧ v = PutInt64 w := by
  induction hb generalizing m with
  | nil => exact .inl h
  | @put k ek v b hk he _ ih =>
    refine (ih h).imp_left fun h => ?_
    rwa [deadlineOf, get_applyOp_data m he.stored.entry T' k' _ .expMeta] at h
  | @delete k ek b hk he _ ih =>
    refine (ih h).imp_left fun h => ?_
    rwa [deadlineOf, get_applyOp_data m he T' k' _ .expMeta] at h
  | rmExpire hk hv hw _ ih =>
    refine (ih h).imp_left fun h => ?_
    rw [deadlineOf, get_deletePair] at h
    split_ifs at h
    exact h
  | @expireAt k w b hk hw _ ih =>
    rcases ih h with hm | hm
    · rw [deadlineOf_expireAt] at hm
      split_ifs at hm with hk'
      · obtain ⟨rfl, rfl⟩ := hk'
        exact .inr ⟨rfl, w, hw, (Option.some.inj hm).symm⟩
      · exact .inl hm
    · exact .inr hm

theorem expiry_deadline (hs : StoreWf st.store) {T : DataType} {T' : DataType} {k' v : Bytes}
    (h : deadlineOf db (expiry db env T k w st).2.store T' k' = some v) :
    deadlineOf db st.store T' k' = some v := by
  rcases expiry_store_of_queues (deleteFunc_emits hs T k) w with h' | ⟨b, hb, h'⟩ <;> rw [h'] at h
  · exact h
  · rw [applyBatch_append, deadlineOf] at h
    have hpair := get_deletePair (st.store.applyBatch b) (db.expEncodeTimeKey T.code k w)
    rw [OrderedMap.applyBatch, List.foldl_cons, List.foldl_cons, List.foldl_nil, hpair] at h
    split_ifs at h
    rcases hb.deadline h with h | ⟨-, _, hD, -⟩
    · exact h
    · cases hD

theorem expiry_paired (hs : StoreWf st.store) (hp : Paired db W st.store)
    (k : Bytes) (w : Int64) : Paired db W (expiry db env T k w st).2.store := by
  rcases expiry_store_of_queues (deleteFunc_emits hs T k) w with h | ⟨b, hb, h⟩
  · rwa [h]
  · rw [h, applyBatch_append]
    refine (hb.paired (fun _ _ h => nomatch h) hp).remove (T := T) (k := k) (w := w) fun ek => ?_
    simp only [@or_comm (ek = db.expEncodeMetaKey T.code k)]
    exact get_deletePair _ _ _ ek

theorem check_paired (hs : StoreWf st.store) (hp : Paired db W st.store) :
    Paired db W (check db env st).2.1.store :=
  (check_induction (I := Paired db W) (fun _ _ k w hs' h => expiry_paired hs' h k w) hs hp).2

/-- The key and deadline of a call of the expire family that is not refused: a duration
must be positive, a deadline must lie ahead. -/
def Write.accepted (now : Int64) : Write → Option (Bytes × Int64)
  | .SetEX key duration _ | .Expire key duration | .HExpire key duration | .LExpire key duration
  | .SExpire key duration | .ZExpire key duration =>
    if duration ≤ 0 then none else some (key, now + duration)
  | .ExpireAt key w | .HExpireAt key w | .LExpireAt key w | .SExpireAt key w
  | .ZExpireAt key w => if w ≤ now then none else some (key, w)
  | _ => none

theorem Op.discard_ok {α : Type} {x : Op (Ret α)} (h : x.discard env s u = (.ok r, t)) :
    ∃ a, x env s u = (.ok a, t) := by
  obtain ⟨a, t', ha, hr⟩ := bind_ok.mp h
  cases hr
  exact ⟨a, ha⟩

theorem checked_ok {α : Type} {f : Unit → Op α} {r : α}
    (h : (Op.lift (checkKeySize k) >>= f) env s u = (.ok r, t)) : ValidKey k := by
  obtain ⟨_, _, hc, -⟩ := Op.bind_ok.mp h
  exact checkKeySize_ok.mp (Op.lift_ok.mp hc).1

theorem expireSized_ok {dataType : UInt8} {f : Unit → Op Int64} {r : Ret Int64}
    (h : db.expireSized dataType k (Op.lift (checkKeySize k) >>= f) w env s u = (.ok r, t)) :
    ValidKey k := by
  obtain ⟨_, _, hsize, -⟩ := Op.bind_ok.mp h
  exact checked_ok hsize

theorem expireDuration_ok {r : Ret Int64} (h : DB.expireDuration duration f env s u = (.ok r, t)) :
    ¬ duration ≤ 0 ∧ f (env.now + duration) env s u = (.ok r, t) := by
  unfold DB.expireDuration at h
  split_ifs at h with hd
  · cases h
  · exact ⟨hd, h⟩

theorem expireDeadline_ok {r : Ret Int64} (h : DB.expireDeadline w f env s u = (.ok r, t)) :
    ¬ w ≤ env.now ∧ f w env s u = (.ok r, t) := by
  rw [DB.expireDeadline, Op.bind_run, Op.now_run] at h
  dsimp only at h
  split_ifs at h with hw
  · cases h
  · exact ⟨hw, h⟩

theorem SetEX_ok (h : db.SetEX k duration value env s u = (.ok r, t)) :
    ValidKey k ∧ ¬ duration ≤ 0 := by
  refine ⟨checked_ok h, fun hd => ?_⟩
  obtain ⟨_, _, _, h⟩ := Op.bind_ok.mp h
  obtain ⟨_, _, _, h⟩ := Op.bind_ok.mp h
  rw [if_pos hd] at h
  cases h

theorem Write.accepted_of_ok {c : Write} (h : c.body db env s u = (.ok r, t))
    (hD : c.deadline env.now = some (k, w)) : c.accepted env.now = some (k, w) ∧ ValidKey k := by
  cases c <;> cases hD <;> obtain ⟨_, h⟩ := Op.discard_ok h
  case SetEX =>
    obtain ⟨hk, hd⟩ := SetEX_ok h
    exact ⟨if_neg hd, hk⟩
  all_goals first
    | obtain ⟨hw, h⟩ := expireDuration_ok h
      exact ⟨if_neg hw, expireSized_ok h⟩
    | obtain ⟨hw, h⟩ := expireDeadline_ok h
      exact ⟨if_neg hw, expireSized_ok h⟩

theorem write_store (hs : StoreWf st.store) (c : Write) :
    (exec env (c.body db) st).2.store = st.store ∨
      ∃ b, Emits db st.store c.type (· ∈ c.keys) (c.deadline env.now) b ∧
        (∀ k w, c.deadline env.now = some (k, w) → c.accepted env.now = some (k, w) ∧ ValidKey k) ∧
        (exec env (c.body db) st).2.store = st.store.applyBatch b := by
  rcases exec_cases env (c.body db) st with h | ⟨r, t, hr, h⟩
  · exact .inl h
  · obtain ⟨b, hb, hemits⟩ := c.emits db env hs ⟨[], st.nc⟩
    rw [hr] at hb
    exact .inr ⟨b, hemits, fun k w hD => c.accepted_of_ok hr hD, by rw [h, hb, List.nil_append]⟩

/-- The deadline a call accepts, if any, meets `W` for its type and key. -/
def Call.Accepts (W : DataType → Bytes → Int64 → Prop) (env : Env) : Call → Prop
  | .write c => ∀ k w, c.accepted env.now = some (k, w) → W c.type k w
  | .check => True

theorem step_paired (hs : StoreWf st.store)
    (hp : Paired db (fun T k w => ValidKey k ∧ W T k w) st.store) (c : Call)
    (hc : c.Accepts W env) :
    Paired db (fun T k w => ValidKey k ∧ W T k w) (c.step db env st).2.1.store := by
  cases c with
  | check => exact check_paired hs hp
  | write c =>
    rcases write_store hs c with h | ⟨b, hb, hacc, h⟩
    · rwa [Call.step, h]
    · rw [Call.step, h]
      refine hb.paired (fun k w hD => ?_) hp
      obtain ⟨ha, hk⟩ := hacc k w hD
      exact ⟨hk, hc k w ha⟩

theorem run_paired {cs : List (Env × Call)}
    (hcs : AllSteps db (fun env _ c => c.Accepts W env) cs State.empty) :
    Paired db (fun T k w => ValidKey k ∧ W T k w) (run db cs State.empty).store :=
  (run_induction (I := fun st => StoreWf st.store ∧ Paired db (fun T k w => ValidKey k ∧ W T k w)
      st.store)
    (fun _ _ c h hc => ⟨step_wf h.1 c, step_paired h.1 h.2 c hc⟩)
    ⟨StoreWf.empty, Paired.empty db _⟩ hcs).2

theorem run_paired_any (cs : List (Env × Call)) :
    Paired db (fun _ _ _ => True) (run db cs State.empty).store := by
  have hcs : AllSteps db (fun env _ c => c.Accepts (fun _ _ _ => True) env) cs State.empty := by
    refine allSteps_of (fun env st c => ?_) cs State.empty
    cases c with
    | write c => exact fun _ _ _ => trivial
    | check => trivial
  exact fun T k w h => ⟨trivial, (run_paired hcs T k w h).2⟩

end

end LedisDB
