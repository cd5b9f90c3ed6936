import LedisDB.KeyLocal

/-!
# Clearing a key

`HClear`, `HMclear`, their list and set counterparts and the expiry of a key
run a delete callback that queues deletes only. `Clearing Q` is a property of
such queues that more deletes do not harm; what the callback guarantees of its
own queue then holds of the queue of the whole call.
-/

namespace LedisDB

section
variable {db : DB} {env : Env} {s : Store} {u t : Txn} {b a : Batch} {x : Bytes} {r : Ret Int64}
  {keys : List Bytes} {dataType : UInt8} {key : Bytes}

def DB.rmBatch (db : DB) (s : Store) (dataType : UInt8) (key : Bytes) : Batch :=
  match s.get (db.expEncodeMetaKey dataType key) with
  | none => []
  | some v => match decodeInt64 (some v) with
    | .error _ => []
    | .ok w => [.delete (db.expEncodeMetaKey dataType key),
        .delete (db.expEncodeTimeKey dataType key w)]

theorem rmExpire_run (db : DB) (env : Env) (s : Store) (u : Txn) (dataType : UInt8)
    (key : Bytes) : ∃ n,
    (db.rmExpire dataType key).ignoreErr 0 env s u =
      (.ok n, u.queue (db.rmBatch s dataType key)) := by
  simp only [DB.rmExpire, DB.rmBatch, Op.ignoreErr, Op.bind_run, Op.get_run]
  cases s.get (db.expEncodeMetaKey dataType key) with
  | none => exact ⟨0, by simp⟩
  | some v =>
    dsimp only
    cases hd : decodeInt64 (some v) with
    | ok w => exact ⟨1, by simp⟩
    | error e => exact ⟨0, by simp [decodeInt64_error hd]⟩

theorem rmBatch_key {o : WriteOp Bytes Bytes} (ho : o ∈ db.rmBatch s dataType key) :
    ∃ r, o.key = db.plainKey ExpMetaType r ∨ o.key = db.plainKey ExpTimeType r := by
  unfold DB.rmBatch at ho
  split at ho
  · cases ho
  · split at ho
    · cases ho
    · simp only [List.mem_cons, List.not_mem_nil, or_false] at ho
      rcases ho with rfl | rfl
      · exact ⟨_, .inl rfl⟩
      · exact ⟨_, .inr rfl⟩

def Deletes (b : Batch) : Prop := ∀ o ∈ b, ∃ k, o = .delete k

theorem Deletes.append (ha : Deletes a) (hb : Deletes b) : Deletes (a ++ b) :=
  fun o ho => (List.mem_append.mp ho).elim (ha o) (hb o)

theorem Deletes.get_none (hb : Deletes b) (hx : s.get x = none ∨ .delete x ∈ b) :
    (s.applyBatch b).get x = none := by
  induction b generalizing s with
  | nil =>
    rcases hx with hx | hx
    · exact hx
    · cases hx
  | cons o b ih =>
    obtain ⟨k, rfl⟩ := hb o (.head _)
    refine ih (fun o ho => hb o (.tail _ ho)) ?_
    by_cases hk : k = x
    · rw [get_applyOp]
      simp [hk]
    · rcases hx with hx | hx
      · rw [get_applyOp]
        simp [hx]
      · right
        simpa [Ne.symm hk] using hx

theorem Deletes.get_of_not_mem (hb : Deletes b) (hx : .delete x ∉ b) :
    (s.applyBatch b).get x = s.get x := by
  refine s.get_applyBatch_of_not_mem fun o ho hkey => hx ?_
  obtain ⟨k, rfl⟩ := hb o ho
  exact hkey ▸ ho

theorem rmBatch_deletes (dataType : UInt8) (key' : Bytes) :
    Deletes (db.rmBatch s dataType key') := by
  unfold DB.rmBatch
  split
  · exact List.forall_mem_nil _
  · split
    · exact List.forall_mem_nil _
    · simp [Deletes]

structure Clearing (Q : Bytes → Batch → Prop) : Prop where
  deletes : ∀ {k a}, Q k a → Deletes a
  mono : ∀ {k a b}, Q k a → Deletes b → (∀ o ∈ a, o ∈ b) → Q k b

def Deleter (s : Store) (Q : Bytes → Batch → Prop) (del : Bytes → Op Int64) : Prop :=
  ∀ key env u, key.length ≤ MaxKeySize →
    ∃ n b, del key env s u = (.ok n, u.queue b) ∧ Q key b

variable {Q : Bytes → Batch → Prop} {del : Bytes → Op Int64}

section
variable (hQ : Clearing Q) (hdel : Deleter s Q del)
include hQ hdel

theorem clear_ok (h : db.clear dataType del key env s u = (.ok r, t)) :
    ∃ b, t.batch = u.batch ++ b ∧ Q key b := by
  obtain ⟨_, u, hc, h1⟩ := Op.bind_ok.mp h
  obtain ⟨hcheck, rfl⟩ := Op.lift_ok.mp hc
  obtain ⟨n, b, hb, hclear⟩ := hdel key env u (checkKeySize_ok.mp hcheck).2
  obtain ⟨n', hn'⟩ := rmExpire_run db env s (u.queue b) dataType key
  simp only [Op.bind_run, hb, hn'] at h1
  cases h1
  exact ⟨b ++ db.rmBatch s dataType key, by simp, hQ.mono hclear
    ((hQ.deletes hclear).append (rmBatch_deletes dataType key)) fun o ho =>
      List.mem_append_left _ ho⟩

theorem mclearLoop_ok (h : db.mclearLoop dataType del keys env s u = (.ok (), t)) :
    ∃ b, t.batch = u.batch ++ b ∧ Deletes b ∧ ∀ key ∈ keys, Q key b := by
  induction keys generalizing u with
  | nil =>
    cases h
    exact ⟨[], by simp, List.forall_mem_nil _, List.forall_mem_nil _⟩
  | cons k ks ih =>
    obtain ⟨_, u, hc, h1⟩ := Op.bind_ok.mp h
    obtain ⟨hcheck, rfl⟩ := Op.lift_ok.mp hc
    obtain ⟨n, b, hb, hclear⟩ := hdel k env u (checkKeySize_ok.mp hcheck).2
    obtain ⟨n', hn'⟩ := rmExpire_run db env s (u.queue b) dataType k
    simp only [Op.bind_run, hb, hn'] at h1
    obtain ⟨bs, hbs, hdels, hkeys⟩ := ih h1
    have hall : Deletes (b ++ db.rmBatch s dataType k ++ bs) :=
      ((hQ.deletes hclear).append (rmBatch_deletes dataType k)).append hdels
    refine ⟨_, by rw [hbs]; simp, hall, ?_⟩
    intro key hkey
    rcases List.mem_cons.mp hkey with rfl | hkey
    · exact hQ.mono hclear hall fun o ho => by simp [ho]
    · exact hQ.mono (hkeys key hkey) hall fun o ho => by simp [ho]

theorem mclear_ok (h : db.mclear dataType del keys env s u = (.ok r, t)) :
    ∃ b, t.batch = u.batch ++ b ∧ ∀ key ∈ keys, Q key b := by
  obtain ⟨_, _, hl, h1⟩ := Op.bind_ok.mp h
  cases h1
  obtain ⟨b, hb, -, hkeys⟩ := mclearLoop_ok hQ hdel hl
  exact ⟨b, hb, hkeys⟩

end

theorem expiry_clears {st : State} {T : DataType} {P : Store → Prop} (hQ : Clearing Q)
    (hdel : Deleter st.store Q (db.deleteFunc T))
    (hP : ∀ b, Q key b → P (st.store.applyBatch b)) (hk : key.length ≤ MaxKeySize) (w : Int64)
    (h : P st.store) : P (expiry db env T key w st).2.store := by
  rcases expiry_cases db env st T key w with he | ⟨-, -, he | ⟨n, t, hr, he⟩⟩
  · rwa [he]
  · rwa [he]
  · obtain ⟨n', b, hb, hclear⟩ := hdel key env ⟨[], st.nc⟩ hk
    rw [hr] at hb
    cases hb
    rw [he]
    refine hP _ (hQ.mono hclear ?_ fun o ho => ?_)
    · exact (hQ.deletes hclear).append (by simp [Deletes])
    · simp [ho]

end

end LedisDB
