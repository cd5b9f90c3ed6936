import LedisDB.Isolation

/-!
# Properties of one key

An invariant of a data type is a property of each of its keys that depends on
the data entries of the key only. A call keeps it for every key when a write
keeps it for the keys it is addressed to and an expiry for the key that
expires; the expire family and `Persist` queue no data entry at all.
-/

namespace LedisDB

variable {T : DataType} {α : Type}

section
variable {db : DB} {env : Env} {st : State} {P : Store → Bytes → Prop}

def KeyLocal (db : DB) (T : DataType) (P : Store → Bytes → Prop) : Prop :=
  ∀ s s' k, (∀ ek, DataEntry db T k ek → s'.get ek = s.get ek) → P s k → P s' k

def EveryKey (P : Store → Bytes → Prop) (s : Store) : Prop := ∀ k, k.length ≤ MaxKeySize → P s k

theorem step_keyLocal (hP : KeyLocal db T P) (hs : StoreWf st.store)
    (h : EveryKey P st.store) (c : Call)
    (hwrite : ∀ w, c = .write w → w.type = T → ∀ k ∈ w.keys, k.length ≤ MaxKeySize →
      P (exec env (w.body db) st).2.store k)
    (hexp : ∀ st' k w, StoreWf st'.store → EveryKey P st'.store → k.length ≤ MaxKeySize →
      P (expiry db env T k w st').2.store k) : EveryKey P (c.step db env st).2.1.store := by
  cases c with
  | write w =>
    intro k hk
    by_cases hin : w.type = T ∧ k ∈ w.keys
    · exact hwrite w rfl hin.1 k hin.2 hk
    · refine hP _ _ k (fun ek hE => write_other hs w (.inl hE) ?_) (h k hk)
      by_cases hT : w.type = T
      · exact .inr fun hkeys => hin ⟨hT, hkeys⟩
      · exact .inl (Ne.symm hT)
  | check =>
    refine (check_induction (fun st' T' k' w hs' hI k hk => ?_) hs h).2
    by_cases hsame : T' = T ∧ k = k'
    · obtain ⟨rfl, rfl⟩ := hsame
      exact hexp st' k w hs' hI hk
    · refine hP _ _ k (fun ek hE => expiry_other hs' w (.inl hE) ?_) (hI k hk)
      by_cases hT : T' = T
      · exact .inr fun hkey => hsame ⟨hT, hkey⟩
      · exact .inl (Ne.symm hT)

theorem exec_discard_cases (x : Op (Ret α)) :
    (exec env x.discard st).2.store = st.store ∨ ∃ r t, x env st.store ⟨[], st.nc⟩ = (.ok r, t) ∧
      (exec env x.discard st).2.store = st.store.applyBatch t.batch := by
  rcases exec_cases env x.discard st with h | ⟨r, t, hx, h⟩
  · exact .inl h
  · obtain ⟨r', t', hx', hr⟩ := Op.bind_ok.mp hx
    cases hr
    exact .inr ⟨r', t, hx', h⟩

theorem exec_keeps {x : Op (Ret α)} {k : Bytes} (h : P st.store k)
    (hx : ∀ r t, x env st.store ⟨[], st.nc⟩ = (.ok r, t) → P (st.store.applyBatch t.batch) k) :
    P (exec env x.discard st).2.store k := by
  rcases exec_discard_cases x with he | ⟨r, t, hr, he⟩
  · rwa [he]
  · rw [he]
    exact hx r t hr

theorem run_keyLocal {C : Env → State → Call → Prop} (hempty : EveryKey P OrderedMap.empty)
    (hstep : ∀ env st c, StoreWf st.store → EveryKey P st.store → C env st c →
      EveryKey P (c.step db env st).2.1.store) {cs : List (Env × Call)}
    (hC : AllSteps db C cs State.empty) : EveryKey P (run db cs State.empty).store :=
  (run_induction (I := fun st => StoreWf st.store ∧ EveryKey P st.store)
    (fun env st c h hc => ⟨step_wf h.1 c, hstep env st c h.1 h.2 hc⟩) ⟨StoreWf.empty, hempty⟩
    hC).2

end

def ExpireOnly (db : DB) (b : Batch) : Prop :=
  ∀ o ∈ b, ∃ r, o.key = db.plainKey ExpMetaType r ∨ o.key = db.plainKey ExpTimeType r

section
variable {db : DB} {env : Env} {s : Store} {dataType : UInt8} {key k : Bytes}
  {f : Int64 → Op (Ret Int64)}

instance : Op.Closed (ExpireOnly db) where
  nil := fun _ h => nomatch h
  append := fun ha hb o ho => (List.mem_append.mp ho).elim (ha o) (hb o)

theorem ExpireOnly.get {b : Batch} (hb : ExpireOnly db b) {ek : Bytes}
    (hE : DataEntry db T k ek) : (s.applyBatch b).get ek = s.get ek := by
  apply get_applyBatch_of_not_mem
  intro o ho heq
  obtain ⟨r, hr⟩ := hb o ho
  obtain ⟨hm, ht, hmi, hti⟩ := DataType.not_expire
  rw [heq] at hr
  rcases hE.form with rfl | ⟨t, hi, r', rfl⟩ <;> rcases hr with hr | hr <;>
    have h := (DB.plainKey_inj.mp hr).2.1
  · exact hm h
  · exact ht h
  · exact hmi (h ▸ hi)
  · exact hti (h ▸ hi)

theorem KeyLocal.expireOnly {P : Store → Bytes → Prop} (hP : KeyLocal db T P) {x : Op (Ret α)}
    {st : State} (hx : x.Queues env st.store (ExpireOnly db)) (h : P st.store k) :
    P (exec env x.discard st).2.store k := by
  refine exec_keeps h fun r t hr => ?_
  obtain ⟨b, hb, hP'⟩ := hx ⟨[], st.nc⟩
  rw [hr] at hb
  rw [hb]
  exact hP _ _ k (fun ek hE => hP'.get hE) h

theorem expireSized_expireOnly {size : Op Int64} (hsize : size.Reads env s) (w : Int64) :
    (db.expireSized dataType key size w).Queues env s (ExpireOnly db) := by
  refine .expireSized hsize (.of_expireAt ?_)
  simp only [ExpireOnly, List.forall_mem_cons]
  exact ⟨⟨_, .inr rfl⟩, ⟨_, .inl rfl⟩, by simp⟩

theorem rmExpire_expireOnly : (db.rmExpire dataType key).Queues env s (ExpireOnly db) := by
  refine .of_rmExpire fun v w _ _ => ?_
  simp only [ExpireOnly, List.forall_mem_cons]
  exact ⟨⟨_, .inl rfl⟩, ⟨_, .inr rfl⟩, by simp⟩

end

end LedisDB
