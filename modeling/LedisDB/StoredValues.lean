import LedisDB.Isolation

/-!
# What the stored values look like

Strings keep to `MaxValueSize`, the meta entries of lists have the eight bytes that
`lGetMeta` reads without a check, and the sizes of hashes and the scores of zset members are
what `PutInt64` writes. Every queue puts only such values, so every call keeps a store proper.
-/

namespace LedisDB

section
variable {db : DB} {env : Env} {st : State} {s m : Store} {T : DataType} {A : Bytes → Prop}
  {D : Option (Bytes × Int64)} {b : Batch}

theorem Proper.empty : Proper OrderedMap.empty := by
  intro db t r v hv
  simp at hv

theorem Proper.apply (h : Proper m)
    (hb : ∀ (db : DB) t r v, .put (db.plainKey t r) v ∈ b → Valued t v) :
    Proper (m.applyBatch b) := by
  induction b generalizing m with
  | nil => exact h
  | cons o b ih =>
    refine ih (fun db t r v hv => ?_) fun db t r v hin => hb db t r v (.tail _ hin)
    rw [get_applyOp] at hv
    split_ifs at hv with ho
    · cases o with
      | put ek u =>
        obtain rfl := ho
        obtain rfl := Option.some.inj hv
        exact hb db t r u (.head _)
      | delete ek => cases hv
    · exact h db t r v hv

theorem Emits.proper (hb : Emits db s T A D b) (hs : Proper s) (h : Proper m) :
    Proper (m.applyBatch b) :=
  h.apply fun _ _ _ _ hin => hb.valued hs hin rfl

theorem Proper.deletes (h : Proper m) (ks : List Bytes) :
    Proper (m.applyBatch (ks.map .delete)) := by
  refine h.apply fun _ _ _ _ hin => ?_
  obtain ⟨_, -, hk⟩ := List.mem_map.mp hin
  cases hk

theorem expiry_proper (hs : StoreWf st.store) (h : Proper st.store) (T : DataType) (k : Bytes)
    (w : Int64) : Proper (expiry db env T k w st).2.store := by
  rcases expiry_store_of_queues (deleteFunc_emits hs T k) w with h' | ⟨b, hb, h'⟩
  · rwa [h']
  · rw [h', applyBatch_append]
    exact (hb.proper h h).deletes [db.expEncodeTimeKey T.code k w, db.expEncodeMetaKey T.code k]

theorem step_proper (hs : StoreWf st.store) (h : Proper st.store) (c : Call) :
    Proper (c.step db env st).2.1.store := by
  cases c with
  | write c =>
    rcases exec_store_of_queues (c.emits db env hs) with h' | ⟨b, hb, h'⟩
    · rwa [Call.step, h']
    · rw [Call.step, h']
      exact hb.proper h h
  | check =>
    exact (check_induction (fun st T k w hs' h' => expiry_proper hs' h' T k w) hs h).2

theorem run_proper (db : DB) (cs : List (Env × Call)) : Proper (run db cs State.empty).store :=
  (run_induction (I := fun st => StoreWf st.store ∧ Proper st.store)
    (C := fun _ _ _ => True) (fun _ _ c h _ => ⟨step_wf h.1 c, step_proper h.1 h.2 c⟩)
    ⟨StoreWf.empty, .empty⟩ (allSteps_true db cs State.empty)).2

theorem Proper.listMeta (h : Proper s) {key v : Bytes}
    (hv : s.get (db.lEncodeMetaKey key) = some v) : ∃ m, getMeta v = .ok m :=
  ⟨_, if_neg (not_lt.mpr ((h db _ key v hv).listMeta rfl))⟩

theorem Proper.score (h : Proper s) (db : DB) (key m v : Bytes)
    (hv : s.get (db.zEncodeSetKey key m) = some v) : ∃ c, v = PutInt64 c :=
  (h db _ _ v hv).score rfl

end

end LedisDB
