import LedisDB.Isolation

/-!
# When the TTL checker may delete

`expireAt` leaves the time entry of an earlier deadline behind, and the checker
reads a missing meta entry as deadline zero, so a key that was given two
different deadlines can be deleted while it has none. `Dated` is the invariant
that excludes this: a time entry stands for the deadline its key has now. It
is kept by every call except an expire call that moves a deadline, and under it
a delete callback is only made for a key whose deadline has passed.
-/

namespace LedisDB

variable {db : DB} {t t' : UInt8} {k k' : Bytes} {w : Int64}

namespace DB

theorem expEncodeMetaKey_inj :
    db.expEncodeMetaKey t k = db.expEncodeMetaKey t' k' ↔ t = t' ∧ k = k' := by
  simp [expEncodeMetaKey, plainKey_inj]

theorem expEncodeTimeKey_inj {w' : Int64} :
    db.expEncodeTimeKey t k w = db.expEncodeTimeKey t' k' w' ↔ w = w' ∧ t = t' ∧ k = k' := by
  constructor
  · intro h
    obtain ⟨-, -, hr⟩ := plainKey_inj.mp h
    obtain ⟨hw, htk⟩ := List.append_inj hr (by simp)
    obtain ⟨ht, hk⟩ := List.cons.inj htk
    refine ⟨?_, ht, hk⟩
    rw [← toInt64_beNat_beBytes w, hw, toInt64_beNat_beBytes]
  · rintro ⟨rfl, rfl, rfl⟩
    rfl

theorem expEncodeTimeKey_ne_meta : db.expEncodeTimeKey t k w ≠ db.expEncodeMetaKey t' k' :=
  fun h => absurd (plainKey_inj.mp h).2.1 (by decide)

end DB

def deadlineOf (db : DB) (s : Store) (T : DataType) (k : Bytes) : Option Bytes :=
  s.get (db.expEncodeMetaKey T.code k)

/-- Every time entry stands for the deadline its key has. -/
def Dated (db : DB) (s : Store) : Prop :=
  ∀ (T : DataType) (k : Bytes) (w : Int64), (s.get (db.expEncodeTimeKey T.code k w)).isSome →
    deadlineOf db s T k = some (PutInt64 w)

theorem Dated.empty (db : DB) : Dated db OrderedMap.empty := by
  intro T k w h
  cases h

section
variable {db : DB} {env : Env} {s m m' : Store} {T : DataType} {A : Bytes → Prop}
  {D : Option (Bytes × Int64)} {b : Batch} {k v : Bytes} {w w' : Int64}

theorem Dated.of_same (hm : Dated db m)
    (h : ∀ (T' : DataType) (k' ek : Bytes), ExpireEntry db T' k' ek → m'.get ek = m.get ek) :
    Dated db m' := by
  intro T' k' w' hw
  rw [h T' k' _ (.time w')] at hw
  rw [deadlineOf, h T' k' _ .expMeta]
  exact hm T' k' w' hw

theorem get_applyOp_data (m : Store) {o : WriteOp Bytes Bytes} (he : DataEntry db T k o.key)
    (T' : DataType) (k' ek : Bytes) (h : ExpireEntry db T' k' ek) :
    (m.applyOp o).get ek = m.get ek :=
  get_applyBatch_data (b := [o]) (List.forall_mem_singleton.mpr he) h m

theorem get_deletePair (m : Store) (a b ek : Bytes) :
    ((m.applyOp (.delete a)).applyOp (.delete b)).get ek =
      if ek = a ∨ ek = b then none else m.get ek := by
  simp only [get_applyOp, @eq_comm _ _ ek]
  split_ifs <;> simp_all

theorem Dated.remove (hm : Dated db m)
    (hk : ∀ w', deadlineOf db m T k = some (PutInt64 w') → w' = w)
    (hget : ∀ ek, m'.get ek = if ek = db.expEncodeMetaKey T.code k ∨
      ek = db.expEncodeTimeKey T.code k w then none else m.get ek) : Dated db m' := by
  intro T' k' w' hw'
  rw [hget] at hw'
  split_ifs at hw' with hdel
  · cases hw'
  · have hmeta := hm T' k' w' hw'
    rw [deadlineOf, hget, if_neg]
    · exact hmeta
    · rintro (h | h)
      · obtain ⟨hT, rfl⟩ := DB.expEncodeMetaKey_inj.mp h
        obtain rfl := DataType.code_inj hT
        exact hdel (.inr (by rw [hk w' hmeta]))
      · exact DB.expEncodeTimeKey_ne_meta h.symm

def Follows (db : DB) (s m : Store) (T : DataType) (D : Option (Bytes × Int64)) : Prop :=
  ∀ k, deadlineOf db m T k = deadlineOf db s T k ∨ deadlineOf db m T k = none ∨
    ∃ w, D = some (k, w) ∧ deadlineOf db m T k = some (PutInt64 w)

def Undated (db : DB) (s : Store) (T : DataType) (D : Option (Bytes × Int64)) : Prop :=
  ∀ k w, D = some (k, w) → deadlineOf db s T k = none ∨ deadlineOf db s T k = some (PutInt64 w)

theorem Follows.cases (hf : Follows db s m T D) (hu : Undated db s T D)
    (hv : deadlineOf db s T k = some v) (hw : decodeInt64 (some v) = .ok w)
    (hm : deadlineOf db m T k = some (PutInt64 w')) : w' = w := by
  have hs : deadlineOf db s T k = some (PutInt64 w') := by
    rcases hf k with h | h | ⟨w1, hD, h⟩
    · rw [← h, hm]
    · rw [h] at hm
      cases hm
    · rw [h] at hm
      obtain rfl := PutInt64_inj (Option.some.inj hm)
      rcases hu k w1 hD with h' | h'
      · rw [h'] at hv
        cases hv
      · exact h'
  rw [hs] at hv
  obtain rfl := Option.some.inj hv
  rw [decodeInt64_PutInt64] at hw
  exact Except.ok.inj hw

theorem deadlineOf_expireAt (db : DB) (m : Store) (T : DataType) (k : Bytes) (w : Int64)
    (T' : DataType) (k' : Bytes) :
    deadlineOf db ((m.applyOp (.put (db.expEncodeTimeKey T.code k w)
      (db.expEncodeMetaKey T.code k))).applyOp (.put (db.expEncodeMetaKey T.code k) (PutInt64 w)))
      T' k' = if T' = T ∧ k' = k then some (PutInt64 w) else deadlineOf db m T' k' := by
  rw [deadlineOf, get_applyOp, get_applyOp,
    if_neg (show ¬ (WriteOp.put (db.expEncodeTimeKey T.code k w)
      (db.expEncodeMetaKey T.code k)).key = _ from DB.expEncodeTimeKey_ne_meta)]
  by_cases h : T' = T ∧ k' = k
  · obtain ⟨rfl, rfl⟩ := h
    simp
  · rw [if_neg h, if_neg]
    · rfl
    · intro he
      obtain ⟨h1, h2⟩ := DB.expEncodeMetaKey_inj.mp he
      exact h ⟨(DataType.code_inj h1).symm, h2.symm⟩

theorem get_time_expireAt (db : DB) (m : Store) (T : DataType) (k : Bytes) (w : Int64)
    (T' : DataType) (k' : Bytes) (w' : Int64) :
    ((m.applyOp (.put (db.expEncodeTimeKey T.code k w) (db.expEncodeMetaKey T.code k))).applyOp
      (.put (db.expEncodeMetaKey T.code k) (PutInt64 w))).get (db.expEncodeTimeKey T'.code k' w') =
      if T' = T ∧ k' = k ∧ w' = w then some (db.expEncodeMetaKey T.code k)
      else m.get (db.expEncodeTimeKey T'.code k' w') := by
  rw [get_applyOp, get_applyOp,
    if_neg (show ¬ (WriteOp.put (db.expEncodeMetaKey T.code k) (PutInt64 w)).key = _ from
      fun h => DB.expEncodeTimeKey_ne_meta h.symm)]
  by_cases h : T' = T ∧ k' = k ∧ w' = w
  · obtain ⟨rfl, rfl, rfl⟩ := h
    simp
  · rw [if_neg h, if_neg]
    intro he
    obtain ⟨h1, h2, h3⟩ := DB.expEncodeTimeKey_inj.mp he
    exact h ⟨(DataType.code_inj h2).symm, h3.symm, h1.symm⟩

def expireBatch (db : DB) (T : DataType) (key : Bytes) (w : Int64) : Batch :=
  [.put (db.expEncodeTimeKey T.code key w) (db.expEncodeMetaKey T.code key),
    .put (db.expEncodeMetaKey T.code key) (PutInt64 w)]

theorem expireBatch_data {ek key : Bytes} (h : DataEntry db T k ek) (w : Int64) :
    (s.applyBatch (expireBatch db T key w)).get ek = s.get ek := by
  refine get_applyBatch_of_not_mem _ fun o ho heq => ?_
  subst heq
  simp only [expireBatch, List.mem_cons, List.not_mem_nil, or_false] at ho
  rcases ho with rfl | rfl
  · exact h.not_expire (.time w)
  · exact h.not_expire .expMeta

theorem ofNat_ne_zero {n : ℕ} (h0 : n ≠ 0) (hn : n < 2 ^ 63) : Int64.ofNat n ≠ 0 := by
  intro h
  have hint := congrArg Int64.toInt h
  rw [Int64.toInt_ofNat_of_lt hn] at hint
  exact h0 (by simpa using hint)

theorem expireSized_run {st : State} {key : Bytes} {size : Op Int64} {n duration : Int64}
    (hsize : size env st.store ⟨[], st.nc⟩ = (.ok n, ⟨[], st.nc⟩)) (hn : n ≠ 0)
    (hpos : 0 < duration) :
    ∃ nc, DB.expireDuration duration (db.expireSized T.code key size) env st.store ⟨[], st.nc⟩ =
      (.ok (.commit 1), ⟨expireBatch db T key (env.now + duration), nc⟩) := by
  refine ⟨if st.nc > env.now + duration then env.now + duration else st.nc, ?_⟩
  rw [DB.expireDuration, if_neg (by simpa using hpos)]
  simp only [DB.expireSized, Op.bind_run, Op.now_run, hsize, if_neg hn]
  rfl

theorem Emits.dated (hb : Emits db s T A D b) (hu : Undated db s T D) (hm : Dated db m)
    (hf : Follows db s m T D) : Dated db (m.applyBatch b) ∧ Follows db s (m.applyBatch b) T D := by
  induction hb generalizing m with
  | nil => exact ⟨hm, hf⟩
  | @put k ek v b hk he _ ih =>
    have hsame := get_applyOp_data m (o := .put ek v) he.stored.entry
    refine ih (hm.of_same hsame) fun k' => ?_
    rw [deadlineOf, hsame T k' _ .expMeta]
    exact hf k'
  | @delete k ek b hk he _ ih =>
    have hsame := get_applyOp_data m (o := .delete ek) he
    refine ih (hm.of_same hsame) fun k' => ?_
    rw [deadlineOf, hsame T k' _ .expMeta]
    exact hf k'
  | @rmExpire k v w b hk hv hw _ ih =>
    have hget := get_deletePair m (db.expEncodeMetaKey T.code k) (db.expEncodeTimeKey T.code k w)
    refine ih (hm.remove (fun w' h => hf.cases hu hv hw h) hget) fun k' => ?_
    rw [deadlineOf, hget]
    split_ifs
    · exact .inr (.inl rfl)
    · exact hf k'
  | @expireAt k w b hk hD _ ih =>
    have hmeta := deadlineOf_expireAt db m T k w
    have htime := get_time_expireAt db m T k w
    have hown : ∀ w', deadlineOf db m T k = some (PutInt64 w') → w' = w := by
      intro w' h
      rcases hf k with h' | h' | ⟨w1, hD', h'⟩
      · rcases hu k w hD with h'' | h'' <;> rw [h', h''] at h
        · cases h
        · exact (PutInt64_inj (Option.some.inj h)).symm
      · rw [h'] at h
        cases h
      · rw [hD] at hD'
        cases hD'
        rw [h'] at h
        exact (PutInt64_inj (Option.some.inj h)).symm
    refine ih ?_ fun k' => ?_
    · intro T' k' w' hw'
      rw [hmeta]
      rw [htime] at hw'
      by_cases h : T' = T ∧ k' = k
      · obtain ⟨rfl, rfl⟩ := h
        by_cases hww : w' = w
        · simp [hww]
        · simp only [hww] at hw'
          simp [hown w' (hm _ _ w' hw')]
      · rw [if_neg h]
        rw [if_neg (fun h' => h ⟨h'.1, h'.2.1⟩)] at hw'
        exact hm T' k' w' hw'
    · rw [hmeta]
      by_cases h : k' = k
      · subst h
        exact .inr (.inr ⟨w, hD, by simp⟩)
      · simpa [h] using hf k'

end

section
variable {db : DB} {env : Env} {st : State}

theorem expiry_dated (env : Env) (hs : StoreWf st.store) (hd : Dated db st.store) {T : DataType}
    (htk : (st.store.get (db.expEncodeTimeKey T.code k w)).isSome) :
    Dated db (expiry db env T k w st).2.store := by
  rcases expiry_store_of_queues (deleteFunc_emits hs T k) w with h | ⟨b, hb, h⟩
  · rwa [h]
  · obtain ⟨hm, hf⟩ := hb.dated (fun _ _ h => nomatch h) hd fun k' => .inl rfl
    rw [h, applyBatch_append]
    refine hm.remove (T := T) (k := k) (w := w) ?_ ?_
    · intro w' hw'
      rcases hf k with h' | h' | ⟨w1, hD, -⟩
      · rw [h', hd T k w htk] at hw'
        exact (PutInt64_inj (Option.some.inj hw')).symm
      · rw [h'] at hw'
        cases hw'
      · cases hD
    · intro ek
      simp only [@or_comm (ek = db.expEncodeMetaKey T.code k)]
      exact get_deletePair _ _ _ ek

theorem Dated.other {s : Store} (hd : Dated db s) {T T' : DataType} {w' : Int64}
    (h : (s.get (db.expEncodeTimeKey T.code k w)).isSome)
    (h' : (s.get (db.expEncodeTimeKey T'.code k' w')).isSome)
    (hne : db.expEncodeTimeKey T'.code k' w' ≠ db.expEncodeTimeKey T.code k w) :
    ¬ Entry db T k (db.expEncodeTimeKey T'.code k' w') := by
  rintro (he | he)
  · exact he.not_expire (.time w')
  · obtain ⟨-, rfl, rfl⟩ := he.unique (.time w')
    have hw := hd _ _ _ h
    rw [hd _ _ _ h'] at hw
    exact hne (by rw [PutInt64_inj (Option.some.inj hw)])

def Due (db : DB) (env : Env) (x : Expiry) : Prop :=
  ∃ w, x.store.get (db.expEncodeMetaKey x.dataType x.key) = some (PutInt64 w) ∧ w ≤ env.now

theorem checkLoop_dated (env : Env) {es : List (Bytes × Bytes)} (hes : Timed db es)
    (hnd : (es.map Prod.fst).Nodup) (nc : Int64) (hs : StoreWf st.store)
    (hd : Dated db st.store) (hpres : ∀ e ∈ es, (st.store.get e.1).isSome) :
    Dated db (checkLoop db env es nc st).2.1.store ∧
      ∀ x ∈ (checkLoop db env es nc st).2.2, Due db env x := by
  induction es generalizing st with
  | nil => exact ⟨hd, by simp [checkLoop]⟩
  | cons e es ih =>
    obtain ⟨T, k, w, rfl, hrest⟩ := hes.uncons
    obtain ⟨hnotin, hnd'⟩ := List.nodup_cons.mp hnd
    have htk := hpres _ (.head _)
    have hwf' := expiry_wf db env hs T k w
    have hd' := expiry_dated env hs hd htk
    have hpres' : ∀ e ∈ es, ((expiry db env T k w st).2.store.get e.1).isSome := by
      intro e he
      have hpe := hpres e (.tail _ he)
      obtain ⟨T', k', w', hek, -⟩ := hrest e he
      rw [hek] at hpe ⊢
      rw [expiry_frame hs w (hd.other htk hpe ?_)]
      · exact hpe
      · intro heq
        exact hnotin (List.mem_map.mpr ⟨e, he, hek.trans heq⟩)
    have hdue : ¬ w > env.now → Due db env ⟨T.code, k, st.store⟩ :=
      fun hw => ⟨w, hd T k w htk, Int64.not_lt.mp hw⟩
    rw [checkLoop_cons]
    split_ifs with hw
    · exact ⟨hd, by simp⟩
    · generalize expiry db env T k w st = x at hwf' hd' hpres' ⊢
      obtain ⟨r, st'⟩ := x
      cases r with
      | error e =>
        refine ⟨hd', fun x hx => ?_⟩
        obtain rfl := List.mem_singleton.mp hx
        exact hdue hw
      | ok called =>
        obtain ⟨h1, h2⟩ := ih hrest hnd' hwf' hd' hpres'
        refine ⟨h1, fun x hx => ?_⟩
        rcases List.mem_append.mp hx with hx | hx
        · cases called with
          | false => simp at hx
          | true =>
            obtain rfl := List.mem_singleton.mp hx
            exact hdue hw
        · exact h2 x hx

theorem check_dated (hs : StoreWf st.store) (hd : Dated db st.store) :
    Dated db (check db env st).2.1.store ∧ ∀ x ∈ (check db env st).2.2, Due db env x := by
  unfold check
  by_cases hnc : env.now < st.nc
  · simpa [hnc] using hd
  · simp only [hnc, if_false]
    have h := checkLoop_dated env (hs.timed
      (a := beBytes 8 (0 : Int64).toUInt64.toNat ++ [NoneType])
      (b := beBytes 8 (env.now + 3600).toUInt64.toNat ++ [maxDataType])
      (t := RangeROpen) (l := ⟨0, -1⟩)) (st.store.rangeLimit_nodup _ _) (env.now + 3600) hs hd
      fun e he => by rw [(OrderedMap.mem_rangeLimit he).1]; rfl
    split <;> simp_all [DB.expEncodeTimeKey]

/-- The call does not move a deadline its key has. -/
def KeepsDeadline (db : DB) (env : Env) (st : State) : Call → Prop
  | .write c => c.Idle db env st ∨ Undated db st.store c.type (c.deadline env.now)
  | .check => True

theorem step_dated (hs : StoreWf st.store) (hd : Dated db st.store) (c : Call)
    (hc : KeepsDeadline db env st c) : Dated db (c.step db env st).2.1.store := by
  cases c with
  | write c =>
    change Dated db (exec env (c.body db) st).2.store
    rcases hc with hidle | hc
    · exact hidle ▸ hd
    rcases exec_store_of_queues (c.emits db env hs) with h | ⟨b, hb, h⟩
    · rwa [h]
    · rw [h]
      exact (hb.dated hc hd fun k' => .inl rfl).1
  | check => exact (check_dated hs hd).1

theorem run_dated {cs : List (Env × Call)} (hcs : AllSteps db (KeepsDeadline db) cs State.empty) :
    Dated db (run db cs State.empty).store :=
  (run_induction (I := fun st => StoreWf st.store ∧ Dated db st.store)
    (fun _ _ c h hc => ⟨step_wf h.1 c, step_dated h.1 h.2 c hc⟩)
    ⟨StoreWf.empty, Dated.empty db⟩ hcs).2

/-- After any run that moves no deadline, a check makes its callbacks only for keys
whose deadline has passed. -/
theorem checker_deletes_due_keys (db : DB) (env : Env) (cs : List (Env × Call))
    (hcs : AllSteps db (KeepsDeadline db) cs State.empty) :
    ∀ x ∈ (check db env (run db cs State.empty)).2.2, Due db env x :=
  (check_dated (run_wf db cs) (run_dated hcs)).2

theorem checker_deletes_due_keys_redated :
    (let xs := (check DB.zero (Env.quiet 30) (run DB.zero
        [(Env.quiet 0, .write (.Set [107] [118])), (Env.quiet 0, .write (.ExpireAt [107] 10)),
          (Env.quiet 1, .write (.Persist [107])), (Env.quiet 2, .write (.ExpireAt [107] 20))]
        State.empty)).2.2;
      xs.map Expiry.key = [[107]] ∧ ∀ x ∈ xs, Due DB.zero (Env.quiet 30) x) := by
  refine ⟨by decide, checker_deletes_due_keys DB.zero (Env.quiet 30) _ 
    ⟨.inr ?_, .inr ?_, .inr ?_, .inr ?_, trivial⟩⟩
  · rintro _ _ ⟨⟩
  · rintro k w ⟨⟩
    exact .inl (by decide)
  · rintro _ _ ⟨⟩
  · rintro k w ⟨⟩
    exact .inl (by decide)

theorem checker_deletes_persisted_key :
    let st := run DB.zero
      [(Env.quiet 0, .write (.Set [107] [118])), (Env.quiet 0, .write (.ExpireAt [107] 10)),
        (Env.quiet 1, .write (.ExpireAt [107] 20)), (Env.quiet 2, .write (.Persist [107]))]
      State.empty
    (check DB.zero (Env.quiet 15) st).2.2.map (fun x => (x.dataType, x.key,
      x.store.get (DB.zero.expEncodeMetaKey x.dataType x.key))) = [(KVType, [107], none)] ∧
    st.store.get (DB.zero.encodeKVKey [107]) = some [118] ∧
    (check DB.zero (Env.quiet 15) st).2.1.store.get (DB.zero.encodeKVKey [107]) = none := by
  decide

end

end LedisDB
