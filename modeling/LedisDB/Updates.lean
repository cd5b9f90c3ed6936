import LedisDB.ZSetWrites

/-!
# Updates of one collection

`Updated s upd s'` says all there is to say of a store after members of a hash, set or
zset were set or removed: the member entries follow `upd`, the score entries follow the
member entries, the size entry counts, the TTL goes when nothing is left, and no other
entry changes. The result is determined by the start and `upd`, and updates compose.
-/

namespace LedisDB

/-- What becomes of the members: `none` leaves a member alone, `some v` makes `v` its entry. -/
abbrev Update := Bytes → Option (Option Bytes)

def Update.then (f g : Update) : Update := fun x => (g x).or (f x)

structure Updated (db : DB) (T : DataType) (key : Bytes) (s : Store) (upd : Update) (s' : Store) :
    Prop where
  member : ∀ x, s'.get (front db T key ++ x) = (upd x).getD (s.get (front db T key ++ x))
  score : T = .ZSET → ∀ m c, s'.get (db.zEncodeScoreKey key m c) =
    ((upd m).map fun v => if v = some (PutInt64 c) then some [] else none).getD
      (s.get (db.zEncodeScoreKey key m c))
  counted : Counted db s' T key
  other : ∀ ek, ¬ DataEntry db T key ek → s'.get ek =
    if members db s' T key = ∅ ∧ ek ∈ (db.rmBatch s T.code key).map WriteOp.key then none
    else s.get ek

section
variable {db : DB} {s s' s'' m : Store} {T : DataType} {key ek : Bytes} {upd upd' : Update}
  {z : Int64}

theorem Updated.members_eq (h : Updated db T key s upd s') (h' : Updated db T key s upd s'') :
    members db s' T key = members db s'' T key :=
  OrderedMap.suffixes_congr fun x => by rw [h.member, h'.member]

theorem Updated.unique (hT : T.HasMembers) (h : Updated db T key s upd s')
    (h' : Updated db T key s upd s'') : s' = s'' := by
  have hmem := h.members_eq h'
  have hsize : s'.get (sizeKey db T key) = s''.get (sizeKey db T key) := by
    rw [h.counted.size, h'.counted.size, hmem]
  have hmember : ∀ x, s'.get (front db T key ++ x) = s''.get (front db T key ++ x) :=
    fun x => by rw [h.member, h'.member]
  apply OrderedMap.ext_get
  intro ek
  by_cases hd : DataEntry db T key ek
  · rcases hT with rfl | rfl | rfl
    · cases hd with
      | hsize => exact hsize
      | hfield _ f =>
        have hf := hmember f
        rwa [front_append] at hf
    · cases hd with
      | ssize => exact hsize
      | smember _ m =>
        have hm := hmember m
        rwa [front_append] at hm
    · cases hd with
      | zsize => exact hsize
      | zmember _ m =>
        have hm := hmember m
        rwa [front_append] at hm
      | zscore _ m c => rw [h.score rfl, h'.score rfl]
  · rw [h.other ek hd, h'.other ek hd, hmem]

theorem Updated.refl (hC : Counted db s T key)
    (httl : members db s T key = ∅ → s.get (db.expEncodeMetaKey T.code key) = none) :
    Updated db T key s (fun _ => none) s := by
  refine ⟨fun _ => rfl, fun _ _ _ => rfl, hC, fun ek _ => ?_⟩
  split_ifs with h
  · rw [DB.rmBatch, httl h.1] at h
    cases h.2
  · rfl

theorem metaKey_not_data : ¬ DataEntry db T key (db.expEncodeMetaKey T.code key) :=
  fun hd => hd.not_expire (ExpireEntry.expMeta : ExpireEntry db T key _)

theorem Updated.trans (h : Updated db T key s upd s') (h' : Updated db T key s' upd' s'')
    (hempty : members db s' T key = ∅ → members db s'' T key = ∅) :
    Updated db T key s (upd.then upd') s'' := by
  refine ⟨fun x => ?_, fun hT m c => ?_, h'.counted, fun ek hd => ?_⟩
  · rw [h'.member, h.member, Update.then]
    cases upd' x <;> rfl
  · rw [h'.score hT, h.score hT, Update.then]
    cases upd' m <;> rfl
  · rw [h'.other ek hd, h.other ek hd]
    have hmeta := h.other _ (metaKey_not_data)
    by_cases hE : members db s' T key = ∅
    · have hE' := hempty hE
      have hsub : ek ∈ (db.rmBatch s' T.code key).map WriteOp.key →
          ek ∈ (db.rmBatch s T.code key).map WriteOp.key := by
        intro hek
        split_ifs at hmeta
        · rw [DB.rmBatch, hmeta] at hek
          cases hek
        · rwa [DB.rmBatch, hmeta] at hek
      by_cases hek : ek ∈ (db.rmBatch s T.code key).map WriteOp.key
      · simp [hE, hE', hek]
      · simp [hek, mt hsub hek]
    · have hsame : db.rmBatch s' T.code key = db.rmBatch s T.code key := by
        rw [if_neg (fun hc => hE hc.1)] at hmeta
        unfold DB.rmBatch
        rw [hmeta]
      simp [hE, hsame]

theorem sizeBatch_other (hd : ¬ DataEntry db T key ek) (hT : T.HasMembers) :
    (m.applyBatch (db.sizeBatch s (sizeKey db T key) T.code key z)).get ek =
      if z ≤ 0 ∧ ek ∈ (db.rmBatch s T.code key).map WriteOp.key then none else m.get ek := by
  have hsk : sizeKey db T key ≠ ek := by
    rintro rfl
    rcases hT with rfl | rfl | rfl
    · exact hd (.hsize key)
    · exact hd (.ssize key)
    · exact hd (.zsize key)
  unfold DB.sizeBatch
  by_cases hz : z ≤ 0
  · rw [if_pos hz]
    change ((m.applyOp (.delete (sizeKey db T key))).applyBatch _).get ek = _
    by_cases hek : ek ∈ (db.rmBatch s T.code key).map WriteOp.key
    · obtain ⟨o, ho, rfl⟩ := List.mem_map.mp hek
      obtain ⟨k, rfl⟩ := rmBatch_deletes T.code key o ho
      rw [if_pos ⟨hz, hek⟩]
      exact (rmBatch_deletes T.code key).get_none (.inr ho)
    · rw [if_neg (fun hc => hek hc.2), get_applyBatch_of_not_mem, get_applyOp]
      · exact if_neg hsk
      · exact fun o ho heq => hek (heq ▸ List.mem_map_of_mem ho)
  · rw [if_neg hz, if_neg (fun hc => hz hc.1)]
    exact get_applyBatch_of_not_mem _ (by simpa using hsk)

theorem Updated.of_batch (hT : T.HasMembers) {b : Batch} (hb : ∀ o ∈ b, DataEntry db T key o.key)
    (hmember : ∀ x, (s.applyBatch b).get (front db T key ++ x) =
      (upd x).getD (s.get (front db T key ++ x)))
    (hscore : T = .ZSET → ∀ m c, (s.applyBatch b).get (db.zEncodeScoreKey key m c) =
      ((upd m).map fun v => if v = some (PutInt64 c) then some [] else none).getD
        (s.get (db.zEncodeScoreKey key m c)))
    (hcounted : Counted db (s.applyBatch (b ++ db.sizeBatch s (sizeKey db T key) T.code key z))
      T key) :
    Updated db T key s upd
      (s.applyBatch (b ++ db.sizeBatch s (sizeKey db T key) T.code key z)) := by
  have hsize := hcounted.size
  have hz : z ≤ 0 ↔ members db (s.applyBatch (b ++ db.sizeBatch s (sizeKey db T key) T.code key
      z)) T key = ∅ := by
    rw [applyBatch_append, sizeBatch_get, ← applyBatch_append] at hsize
    split_ifs at hsize with h0 hcard hcard <;> simp_all
  refine ⟨fun x => ?_, fun hZ m c => ?_, hcounted, fun ek hd => ?_⟩
  · have hcode : T.code ∈ T.items := by
      rcases hT with rfl | rfl | rfl <;> decide
    rw [applyBatch_append, front_append, sizeBatch_get_item hcode, ← front_append, hmember]
  · subst hZ
    rw [applyBatch_append, DB.zEncodeScoreKey, sizeBatch_get_item (by decide)]
    exact hscore rfl m c
  · have hframe : (s.applyBatch b).get ek = s.get ek :=
      get_applyBatch_of_not_mem _ fun o ho heq => hd (heq ▸ hb o ho)
    rw [applyBatch_append, sizeBatch_other hd hT, hframe, ← applyBatch_append]
    exact if_congr (and_congr_left fun _ => hz) rfl rfl

/-- The entries of a hash, set or zset agree, and only what is not empty has a TTL. -/
structure CollectionWf (db : DB) (T : DataType) (key : Bytes) (s : Store) : Prop where
  counted : Counted db s T key
  indexed : T = .ZSET → Indexed db s key
  ttl : ∀ v, s.get (db.expEncodeMetaKey T.code key) = some v →
    members db s T key ≠ ∅ ∧ ∃ w, v = PutInt64 w

theorem CollectionWf.refl (h : CollectionWf db T key s) : Updated db T key s (fun _ => none) s := by
  refine Updated.refl h.counted fun hE => ?_
  cases hv : s.get (db.expEncodeMetaKey T.code key) with
  | none => rfl
  | some v => exact absurd hE (h.ttl v hv).1

theorem Updated.indexed (h : Updated db T key s upd s') (hT : T = .ZSET) (hs : Indexed db s key)
    (hupd : ∀ m v, upd m = some (some v) → ∃ c, v = PutInt64 c ∧ MinScore < c ∧ c < MaxScore) :
    Indexed db s' key := by
  subst hT
  have hmember : ∀ m, s'.get (db.zEncodeSetKey key m) =
      (upd m).getD (s.get (db.zEncodeSetKey key m)) := by
    intro m
    have hm := h.member m
    rwa [← zEncodeSetKey_front] at hm
  constructor
  · intro m v hv
    rw [hmember] at hv
    cases hu : upd m with
    | none =>
      rw [hu] at hv
      exact hs.scored m v hv
    | some u =>
      rw [hu] at hv
      exact hupd m v (hu.trans (congrArg some hv))
  · intro m c
    rw [hmember, h.score rfl]
    cases upd m with
    | none => exact hs.index m c
    | some u => by_cases hu : u = some (PutInt64 c) <;> simp

theorem Updated.collectionWf (h : Updated db T key s upd s') (hs : CollectionWf db T key s)
    (hupd : T = .ZSET → ∀ m v, upd m = some (some v) →
      ∃ c, v = PutInt64 c ∧ MinScore < c ∧ c < MaxScore) : CollectionWf db T key s' := by
  refine ⟨h.counted, fun hT => h.indexed hT (hs.indexed hT) (hupd hT), fun v hv => ?_⟩
  rw [h.other _ (metaKey_not_data)] at hv
  split_ifs at hv with hE
  · obtain ⟨-, w, rfl⟩ := hs.ttl v hv
    refine ⟨fun hempty => hE ⟨hempty, ?_⟩, w, rfl⟩
    simp [DB.rmBatch, hv]

end

end LedisDB
