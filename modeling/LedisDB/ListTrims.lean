import LedisDB.ListScan

/-!
# Trims and `LSet`

`LTrim`, `LTrimFront`, `LTrimBack` and `LSet` keep the form of a list under
conditions on their arguments and the length of the list. Outside of these,
`lSetMeta` is handed ends that do not match the items that are left.
-/

namespace LedisDB

open List Op

section
variable {db : DB} {env : Env} {s m : Store} {key value : Bytes} {q : Sequence} {u t : Txn}
  {a b : ℤ} {trimSize : Int32}

theorem mem_int32Range {a b n : Int32} :
    n ∈ int32Range a b ↔ a.toInt ≤ n.toInt ∧ n.toInt < b.toInt := by
  have hlt := b.toInt_lt
  have hle := a.le_toInt
  rw [int32Range, mem_map]
  constructor
  · intro h
    obtain ⟨i, hi, rfl⟩ := h
    rw [mem_range] at hi
    have hsum : a + Int32.ofNat i = Int32.ofInt (a.toInt + i) := by
      rw [Int32.ofInt_add, Int32.ofInt_toInt, int32_ofNat]
    rw [hsum, toInt_ofInt32 ⟨by omega, by omega⟩]
    omega
  · intro h
    refine ⟨(n.toInt - a.toInt).toNat, mem_range.mpr (by omega), ?_⟩
    rw [int32_ofNat, Int.toNat_of_nonneg (by omega), Int32.ofInt_sub, Int32.ofInt_toInt,
      Int32.ofInt_toInt]
    grind

theorem mem_int32Range_shift {h : ℤ} {n : Int32} (hh : 0 ≤ h ∧ h ≤ n.toInt)
    (ha : -2 ^ 31 ≤ a ∧ a < 2 ^ 31) (hb : -2 ^ 31 ≤ b ∧ b < 2 ^ 31) :
    n ∈ (int32Range (Int32.ofInt a) (Int32.ofInt b)).map (fun i => Int32.ofInt h + i) ↔
      h + a ≤ n.toInt ∧ n.toInt < h + b := by
  have hn := n.toInt_lt
  have hsub : n - Int32.ofInt h = Int32.ofInt (n.toInt - h) := by
    rw [Int32.ofInt_sub, Int32.ofInt_toInt]
  rw [mem_map]
  constructor
  · intro hex
    obtain ⟨i, hi, hin⟩ := hex
    have hi' : i = n - Int32.ofInt h := by grind
    rw [mem_int32Range, toInt_ofInt32 ha, toInt_ofInt32 hb, hi', hsub,
      toInt_ofInt32 ⟨by omega, by omega⟩] at hi
    omega
  · intro hin
    refine ⟨n - Int32.ofInt h, ?_, by grind⟩
    rw [mem_int32Range, toInt_ofInt32 ha, toInt_ofInt32 hb, hsub,
      toInt_ofInt32 ⟨by omega, by omega⟩]
    omega

theorem ListRep.deletes (h : ListRep db s key q) (hq : q.items = []) {b : Batch}
    (hb : Deletes b) : ListRep db (s.applyBatch b) key q := by
  refine ⟨h.fits, ?_, fun n => ?_⟩
  · rw [if_pos hq]
    have hmeta := h.metaEntry
    rw [if_pos hq] at hmeta
    exact hb.get_none (.inl hmeta)
  · have hn := h.items n
    rw [hq, window_nil] at hn ⊢
    exact hb.get_none (.inl hn)

theorem deletes_map (ks : List Bytes) : Deletes (ks.map .delete) := by
  intro o ho
  obtain ⟨k, -, rfl⟩ := mem_map.mp ho
  exact ⟨k, rfl⟩

def itemKeys (db : DB) (key : Bytes) (h a b : ℤ) : List Bytes :=
  (int32Range (Int32.ofInt a) (Int32.ofInt b)).map fun i =>
    db.lEncodeListKey key (Int32.ofInt h + i)

theorem itemKeys_delete (h a b : ℤ) : (itemKeys db key h a b).map WriteOp.delete =
    ((int32Range (Int32.ofInt a) (Int32.ofInt b)).map (fun i => Int32.ofInt h + i)).map
      fun i => (.delete (db.lEncodeListKey key i) : WriteOp Bytes Bytes) := by
  rw [itemKeys, map_map, map_map]
  rfl

theorem Items.trim {h : ℤ} {xs : List Bytes} (hi : Items db s key h xs)
    (hb : 0 < h ∧ h + xs.length ≤ 2 ^ 31) {i j : ℕ} (hij : i + j ≤ xs.length) :
    Items db (s.applyBatch ((itemKeys db key h 0 i).map .delete ++
      (itemKeys db key h (i + j) xs.length).map .delete)) key (h + i) ((xs.drop i).take j) := by
  rw [applyBatch_append, itemKeys_delete, itemKeys_delete]
  have hdrop := hi.drop
    ((int32Range (Int32.ofInt 0) (Int32.ofInt i)).map fun i => Int32.ofInt h + i) i
    fun n hn => by
      rw [mem_int32Range_shift ⟨hb.1.le, hn⟩ ⟨by omega, by omega⟩ ⟨by omega, by omega⟩]
      omega
  refine hdrop.take _ _ fun n hlt hle => ?_
  rw [length_drop] at hlt
  rw [mem_int32Range_shift ⟨hb.1.le, by omega⟩ ⟨by omega, by omega⟩ ⟨by omega, by omega⟩]
  omega

theorem int32Range_empty (a : Int32) : int32Range a a = [] := by
  simp [int32Range]

theorem ltrim2_loop {h n : ℤ} (hn : 0 ≤ n ∧ n < 2 ^ 31) (hb : -2 ^ 31 ≤ b ∧ b < n) :
    (if Int32.ofInt b < Int32.ofInt n - 1 then
      Op.deleteAll ((int32Range (Int32.ofInt b + 1) (Int32.ofInt n)).map
        (fun i => db.lEncodeListKey key (Int32.ofInt h + i)))
    else pure ()) env s u = (.ok (), u.queue ((itemKeys db key h (b + 1) n).map .delete)) := by
  have hlt : Int32.ofInt b < Int32.ofInt n - 1 ↔ b < n - 1 := by
    rw [one_eq_ofInt, ← Int32.ofInt_sub, ofInt_lt_iff ⟨by omega, by omega⟩ ⟨by omega, by omega⟩]
  rw [one_eq_ofInt, ← Int32.ofInt_add, ← one_eq_ofInt]
  simp only [hlt]
  split_ifs with hc
  · rw [deleteAll_run, itemKeys]
  · rw [show b + 1 = n by omega, itemKeys, int32Range_empty]
    simp

def trimBatch (db : DB) (key : Bytes) (z : ℤ) (n : ℕ) (a b : ℤ) : Batch :=
  (itemKeys db key z 0 (max a 0)).map .delete ++
    ((itemKeys db key z (min b (n - 1) + 1) n).map .delete ++
      metaBatch db key (z + max a 0) (z + min b (n - 1)))

theorem ltrim2_keep (hk : ValidKey key) (h : ListRep db s key q) {start stop : Int64}
    (ha : position q.items.length start.toInt32.toInt = a)
    (hb : position q.items.length stop.toInt32.toInt = b) (hc : ¬ (a ≥ q.items.length ∨ a > b))
    {z : ℤ} (hz : (metaOf q).1 = Int32.ofInt z) :
    db.ltrim2 key start stop env s u = (.ok (.commit ()),
      u.queue (trimBatch db key z q.items.length a b)) := by
  have hlen := h.length_lt
  have ha' := position_bounds (n := q.items.length) ⟨by omega, by omega⟩
    ⟨start.toInt32.le_toInt, start.toInt32.toInt_lt⟩
  have hb' := position_bounds (n := q.items.length) ⟨by omega, by omega⟩
    ⟨stop.toInt32.le_toInt, stop.toInt32.toInt_lt⟩
  rw [ha] at ha'
  rw [hb] at hb'
  have hge : Int32.ofInt a ≥ Int32.ofInt q.items.length ↔ a ≥ q.items.length :=
    ofInt_le_iff ⟨by omega, by omega⟩ ha'
  have hgt := ofInt_lt_iff hb' ha'
  have hstart : (if Int32.ofInt a < 0 then 0 else Int32.ofInt a) = Int32.ofInt (max a 0) := by
    have hlt : Int32.ofInt a < 0 ↔ a < 0 := ofInt_lt_iff ha' (b := 0) ⟨by decide, by decide⟩
    simp only [hlt]
    split_ifs with h0
    · rw [max_eq_right h0.le, zero_eq_ofInt]
    · rw [max_eq_left (not_lt.mp h0)]
  have hstop : (if Int32.ofInt b ≥ Int32.ofInt q.items.length
      then Int32.ofInt q.items.length - 1 else Int32.ofInt b) =
      Int32.ofInt (min b (q.items.length - 1)) := by
    have hle : Int32.ofInt b ≥ Int32.ofInt q.items.length ↔ b ≥ q.items.length :=
      ofInt_le_iff ⟨by omega, by omega⟩ hb'
    rw [one_eq_ofInt, ← Int32.ofInt_sub]
    simp only [hle]
    split_ifs with h0
    · rw [min_eq_right (by omega)]
    · rw [min_eq_left (by omega)]
  rw [DB.ltrim2, bind_run, lift_run, checkKeySize_ok.mpr hk]
  dsimp only
  rw [bind_run, h.lGetMeta]
  simp only [metaOf_size, normalize_eq, ha, hb, hge, hgt]
  rw [if_neg hc, hstart, hstop, hz, bind_run, deleteAll_run]
  dsimp only
  rw [bind_run, ltrim2_loop ⟨by omega, by omega⟩ ⟨by omega, by omega⟩]
  dsimp only
  rw [← Int32.ofInt_add, ← Int32.ofInt_add, bind_run, lSetMeta_run ⟨by omega, by omega⟩]
  simp only [Txn.queue, append_assoc]
  rfl

theorem ltrim2_clear (hs : StoreWf s) (hk : ValidKey key) (h : ListRep db s key q)
    {start stop : Int64} (hc : position q.items.length start.toInt32.toInt ≥ q.items.length ∨
      position q.items.length start.toInt32.toInt > position q.items.length stop.toInt32.toInt) :
    ∃ b, db.ltrim2 key start stop env s u = (.ok (.commit ()),
        u.queue (b ++ db.rmBatch s ListType key)) ∧ LClears db s key b := by
  have hlen := h.length_lt
  have ha := position_bounds (n := q.items.length) ⟨by omega, by omega⟩
    ⟨start.toInt32.le_toInt, start.toInt32.toInt_lt⟩
  have hb := position_bounds (n := q.items.length) ⟨by omega, by omega⟩
    ⟨stop.toInt32.le_toInt, stop.toInt32.toInt_lt⟩
  obtain ⟨b, hrun, hclear⟩ := lDelete_run env u hs h
  obtain ⟨n, hn⟩ := rmExpire_run db env s (u.queue b) ListType key
  refine ⟨b, ?_, hclear⟩
  have hge : Int32.ofInt (position q.items.length start.toInt32.toInt) ≥
      Int32.ofInt q.items.length ↔ _ := ofInt_le_iff ⟨by omega, by omega⟩ ha
  have hgt := ofInt_lt_iff hb ha
  rw [DB.ltrim2, bind_run, lift_run, checkKeySize_ok.mpr hk]
  dsimp only
  rw [bind_run, h.lGetMeta]
  simp only [metaOf_size, normalize_eq, hge, hgt]
  rw [if_pos hc, bind_run, hrun]
  dsimp only
  rw [bind_run, hn]
  simp

theorem slice_eq {start stop : ℤ} (ha : position q.items.length start = a)
    (hb : position q.items.length stop = b) {i j : ℕ} (hi : (i : ℤ) = max a 0)
    (hj : (j : ℤ) = min b (q.items.length - 1) + 1 - max a 0) :
    q.slice start stop = (q.items.drop i).take j := by
  rw [Sequence.slice, ha, drop_take, show a.toNat = i by omega, take_eq_take_iff.mpr]
  rw [length_drop]
  omega

theorem slice_of_nil (hq : q.items = []) (start stop : ℤ) : q.slice start stop = [] := by
  simp [Sequence.slice, hq]

theorem slice_of_cleared {start stop : ℤ} (hc : position q.items.length start ≥ q.items.length ∨
      position q.items.length start > position q.items.length stop) : q.slice start stop = [] := by
  rw [Sequence.slice, drop_eq_nil_iff, length_take]
  omega

theorem itemKeys_listOnly (h a b : ℤ) : ListOnly db key ((itemKeys db key h a b).map .delete) := by
  intro o ho
  rw [itemKeys_delete] at ho
  obtain ⟨n, -, rfl⟩ := mem_map.mp ho
  exact .litem key n

theorem trimBatch_listOnly (z : ℤ) (n : ℕ) (a b : ℤ) : ListOnly db key (trimBatch db key z n a b) :=
  (itemKeys_listOnly _ _ _).append ((itemKeys_listOnly _ _ _).append (metaBatch_listOnly _ _))

theorem trimBatch_deletes (z : ℤ) (hc : ¬ (a ≥ (0 : ℕ) ∨ a > b)) :
    Deletes (trimBatch db key z 0 a b) := by
  refine (deletes_map _).append ((deletes_map _).append ?_)
  unfold metaBatch
  split_ifs with h1 h2
  · intro o ho
    cases ho
  · simp [Deletes]
  · omega

theorem trimBatch_low (h : ListRep db s key q) (hq : q.items ≠ []) (hab : a ≤ b) (hlow : b < -1)
    (hb : -2 ^ 31 ≤ b) :
    (s.applyBatch (trimBatch db key q.head q.items.length a b)).get (db.lEncodeMetaKey key) ≠ none ∧
      ∀ n, (s.applyBatch (trimBatch db key q.head q.items.length a b)).get
        (db.lEncodeListKey key n) = none := by
  obtain ⟨h1, h2⟩ := push_base h hq
  rw [trimBatch, metaBatch, if_pos (by omega),
    append_nil, itemKeys_delete, itemKeys_delete, ← map_append]
  constructor
  · rw [get_applyBatch_of_not_mem, h.metaEntry, if_neg hq]
    · simp
    · intro o ho
      obtain ⟨n, -, rfl⟩ := mem_map.mp ho
      exact lEncodeListKey_ne_meta n
  · intro n
    rw [get_deleteItems, h.items]
    split_ifs with hn
    · rfl
    · apply window_eq_none
      by_contra hin
      apply hn
      rw [mem_append, mem_int32Range_shift ⟨by omega, by omega⟩ ⟨by omega, by omega⟩
        ⟨by omega, by omega⟩, mem_int32Range_shift ⟨by omega, by omega⟩ ⟨by omega, by omega⟩
        ⟨by omega, by omega⟩]
      omega

theorem trimBatch_slice (h : ListRep db s key q) (hq : q.items ≠ []) {start stop : ℤ}
    (ha : position q.items.length start = a) (hb : position q.items.length stop = b)
    (hc : ¬ (a ≥ q.items.length ∨ a > b)) (hlow : ¬ b < -1) :
    ∃ z, ListRep db (s.applyBatch (trimBatch db key q.head q.items.length a b)) key
      ⟨z, q.slice start stop⟩ := by
  obtain ⟨h1, h2⟩ := push_base h hq
  obtain ⟨i, hi⟩ : ∃ i : ℕ, i = max a 0 := ⟨(max a 0).toNat, by omega⟩
  obtain ⟨j, hj⟩ : ∃ j : ℕ, j = min b (q.items.length - 1) + 1 - max a 0 :=
    ⟨(min b (q.items.length - 1) + 1 - max a 0).toNat, by omega⟩
  refine ⟨q.head + i, ?_⟩
  rw [slice_eq ha hb hi hj]
  have hij : i + j ≤ q.items.length := by omega
  have htrim := h.items.trim ⟨by omega, by omega⟩ hij
  have hrep := htrim.listRep fun hne => by
    refine ⟨by simp; omega, ?_⟩
    simp only [Sequence.tail, length_take]
    omega
  rw [← applyBatch_append, append_assoc] at hrep
  rwa [trimBatch, ← hi, show min b (q.items.length - 1) + 1 = i + j by omega,
    show q.head + min b (q.items.length - 1) = q.head + i + ((q.items.drop i).take j).length - 1 by
        rw [length_take, length_drop]
        omega]

theorem ltrim2_kept (hk : ValidKey key) (h : ListRep db s key q) {start stop : Int64}
    (ha : position q.items.length start.toInt32.toInt = a)
    (hb : position q.items.length stop.toInt32.toInt = b) (hc : ¬ (a ≥ q.items.length ∨ a > b)) :
    ∃ bt, db.ltrim2 key start stop env s u = (.ok (.commit ()), u.queue bt) ∧ ListOnly db key bt ∧
      if q.items ≠ [] ∧ b < -1 then
        (s.applyBatch bt).get (db.lEncodeMetaKey key) ≠ none ∧
          ∀ n, (s.applyBatch bt).get (db.lEncodeListKey key n) = none
      else ∃ z, ListRep db (s.applyBatch bt) key
        ⟨z, q.slice start.toInt32.toInt stop.toInt32.toInt⟩ := by
  by_cases hq : q.items = []
  · have hz : (metaOf q).1 = Int32.ofInt 1073741824 := by
      rw [metaOf, if_pos hq, listInitialSeq_eq]
    refine ⟨_, ltrim2_keep hk h ha hb hc hz, trimBatch_listOnly _ _ _ _, ?_⟩
    rw [if_neg (fun hne => hne.1 hq)]
    refine ⟨q.head, ?_⟩
    have hsame : q = ⟨q.head, q.slice start.toInt32.toInt stop.toInt32.toInt⟩ := by
      rw [slice_of_nil hq, ← hq]
    rw [← hsame]
    rw [hq] at hc ⊢
    exact h.deletes hq (trimBatch_deletes _ hc)
  · refine ⟨_, ltrim2_keep hk h ha hb hc (by rw [metaOf_cons hq]), trimBatch_listOnly _ _ _ _, ?_⟩
    by_cases hlow : b < -1
    · have hlen := h.length_lt
      have hle := position_bounds (n := q.items.length) ⟨by omega, by omega⟩
        ⟨stop.toInt32.le_toInt, stop.toInt32.toInt_lt⟩
      rw [hb] at hle
      rw [if_pos ⟨hq, hlow⟩]
      exact trimBatch_low h hq (not_lt.mp fun hab => hc (.inr hab)) hlow hle.1
    · rw [if_neg (fun hne => hlow hne.2)]
      exact trimBatch_slice h hq ha hb hc hlow

theorem LTrim_list (hs : StoreWf s) (hk : ValidKey key) (h : ListRep db s key q)
    {start stop : Int64} (ha : position q.items.length start.toInt32.toInt = a)
    (hb : position q.items.length stop.toInt32.toInt = b) (hkeep : q.items ≠ [] → a ≤ b → -1 ≤ b) :
    ∃ q' bt, db.LTrim key start stop env s u = (.ok (.commit ()), u.queue bt) ∧
      ListRep db (s.applyBatch bt) key q' := by
  by_cases hc : a ≥ q.items.length ∨ a > b
  · rw [← ha, ← hb] at hc
    obtain ⟨bt, hrun, hclear⟩ := ltrim2_clear hs hk h hc
    refine ⟨⟨0, []⟩, _, hrun, ?_⟩
    rw [applyBatch_append]
    exact (hclear.listRep 0).expireOnly (rmBatch_expireOnly ListType key)
  · obtain ⟨bt, hrun, -, hkept⟩ := ltrim2_kept hk h ha hb hc
    have hlow : ¬ (q.items ≠ [] ∧ b < -1) := by
      intro hlow
      have := hkeep hlow.1 (not_lt.mp fun hlt => hc (.inr hlt))
      omega
    rw [if_neg hlow] at hkept
    obtain ⟨z, hrep⟩ := hkept
    exact ⟨_, bt, hrun, hrep⟩

theorem MinInt32_ofInt (ha : -2 ^ 31 ≤ a ∧ a < 2 ^ 31) (hb : -2 ^ 31 ≤ b ∧ b < 2 ^ 31) :
    MinInt32 (Int32.ofInt a) (Int32.ofInt b) = Int32.ofInt (min a b) := by
  simp only [MinInt32, ofInt_lt_iff hb ha]
  split_ifs with h
  · rw [min_eq_right h.le]
  · rw [min_eq_left (not_lt.mp h)]

theorem MaxInt32_ofInt (ha : -2 ^ 31 ≤ a ∧ a < 2 ^ 31) (hb : -2 ^ 31 ≤ b ∧ b < 2 ^ 31) :
    MaxInt32 (Int32.ofInt a) (Int32.ofInt b) = Int32.ofInt (max a b) := by
  simp only [MaxInt32, ofInt_lt_iff hb ha]
  split_ifs with h
  · rw [max_eq_left h.le]
  · rw [max_eq_right (not_lt.mp h)]

theorem ofInt_wrap (z : ℤ) : Int32.ofInt z = Int32.ofInt (z - 4294967296) := by
  rw [Int32.ofInt_sub, show Int32.ofInt 4294967296 = 0 from by decide, Int32.sub_zero]

theorem head_add_size (h : ℤ) (trimSize : Int32) :
    Int32.ofInt h + trimSize - 1 = Int32.ofInt (h + trimSize.toInt - 1) := by
  rw [Int32.ofInt_sub, Int32.ofInt_add, Int32.ofInt_toInt]
  rfl

theorem ltrim_done (hk : ValidKey key) (h : ListRep db s key q) (hc : trimSize = 0 ∨ q.items = [])
    (whereSeq : Int32) : db.ltrim key trimSize whereSeq env s u = (.ok (.done 0), u) := by
  rw [DB.ltrim, bind_run, lift_run, checkKeySize_ok.mpr hk]
  dsimp only
  by_cases h0 : trimSize = 0
  · rw [if_pos h0, pure_run]
  · have hq := hc.resolve_left h0
    rw [if_neg h0, bind_run, h.lGetMeta, metaOf, if_pos hq]
    rfl

theorem ltrim_run (hk : ValidKey key) (h : ListRep db s key q) (hq : q.items ≠ [])
    {trimSize whereSeq : Int32} (h0 : trimSize ≠ 0) {a b c d : ℤ}
    (ha : (if whereSeq = listHeadSeq then Int32.ofInt q.head
      else MaxInt32 (Int32.ofInt q.tail - trimSize + 1) (Int32.ofInt q.head)) = Int32.ofInt a)
    (hb : (if whereSeq = listHeadSeq then MinInt32 (Int32.ofInt q.head + trimSize - 1)
      (Int32.ofInt q.tail) else Int32.ofInt q.tail) = Int32.ofInt b)
    (hc : (if whereSeq = listHeadSeq then Int32.ofInt b + 1 else Int32.ofInt q.head) =
      Int32.ofInt c)
    (hd : (if whereSeq = listHeadSeq then Int32.ofInt q.tail else Int32.ofInt a - 1) =
      Int32.ofInt d)
    (hbm : -2 ^ 31 ≤ b ∧ b < 2147482648) (hcd : -2 ^ 31 ≤ d - c + 1 ∧ d - c + 1 < 2 ^ 31) :
    db.ltrim key trimSize whereSeq env s u =
      (.ok (.commit (Int32.ofInt b - Int32.ofInt a + 1)),
        u.queue (((int32Range (Int32.ofInt a) (Int32.ofInt (b + 1))).map
          (db.lEncodeListKey key)).map .delete ++ shrinkBatch db s key c d)) := by
  have hmax : Int32.ofInt b ≠ Int32.maxValue := by
    rw [Ne, ofInt_eq_iff ⟨hbm.1, by omega⟩]
    have : Int32.maxValue.toInt = 2147483647 := by decide
    omega
  rw [DB.ltrim, bind_run, lift_run, checkKeySize_ok.mpr hk]
  dsimp only
  rw [if_neg h0, bind_run, h.lGetMeta, metaOf_cons hq]
  dsimp only
  rw [if_neg (size_ne_zero h hq), ha, hb, hc, hd, if_neg hmax, bind_run, deleteAll_run]
  dsimp only
  rw [shrink_run hcd, Txn.queue_queue, one_eq_ofInt, ← Int32.ofInt_add]

theorem shrinkBatch_neg {c d : ℤ} (h : d - c + 1 < 0) : shrinkBatch db s key c d = [] := by
  rw [shrinkBatch, metaBatch, if_pos h, if_neg h.ne]
  rfl

theorem itemRange_empty (h : b ≤ a) (ha : -2 ^ 31 ≤ b ∧ a < 2 ^ 31) :
    int32Range (Int32.ofInt a) (Int32.ofInt b) = [] := by
  rw [eq_nil_iff_forall_not_mem]
  intro n hn
  rw [mem_int32Range, toInt_ofInt32 ⟨by omega, by omega⟩, toInt_ofInt32 ⟨by omega, by omega⟩] at hn
  omega

theorem LTrimFront_run (hk : ValidKey key) (h : ListRep db s key q) (hq : q.items ≠ [])
    (hin : 0 < trimSize.toInt ∧ q.head + trimSize.toInt - 1 < 2 ^ 31) {k : ℕ}
    (hmin : k = min trimSize.toInt.toNat q.items.length) :
    ∃ bt, db.LTrimFront key trimSize env s u = (.ok (.commit (Int32.ofNat k)), u.queue bt) ∧
      Shrinks db s key bt ⟨q.head + k, q.items.drop k⟩ := by
  obtain ⟨h1, h2⟩ := push_base h hq
  have htail : q.tail = q.head + q.items.length - 1 := rfl
  have h0 : trimSize ≠ 0 := by
    rintro rfl
    exact absurd hin.1 (by decide)
  have hrun := @ltrim_run db env s key q u hk h hq trimSize listHeadSeq h0 q.head
    (q.head + k - 1) (q.head + k) q.tail rfl
    (by
      change MinInt32 (Int32.ofInt q.head + trimSize - 1) (Int32.ofInt q.tail) = _
      rw [head_add_size, MinInt32_ofInt ⟨by omega, by omega⟩ ⟨by omega, by omega⟩]
      congr 1
      omega)
    (by
      change Int32.ofInt (q.head + k - 1) + 1 = _
      rw [one_eq_ofInt, ← Int32.ofInt_add]
      congr 1
      omega) rfl ⟨by omega, by omega⟩ ⟨by omega, by omega⟩
  have hcount : Int32.ofInt (q.head + k - 1) - Int32.ofInt q.head + 1 = Int32.ofNat k := by
    rw [one_eq_ofInt, ← Int32.ofInt_sub, ← Int32.ofInt_add, int32_ofNat]
    congr 1
    omega
  rw [hcount, map_map, show q.head + k - 1 + 1 = q.head + k by omega] at hrun
  refine ⟨_, hrun, ?_⟩
  have hdrop := h.items.drop
    (int32Range (Int32.ofInt q.head) (Int32.ofInt (q.head + k))) k fun n hn => by
      rw [mem_int32Range, toInt_ofInt32 ⟨by omega, by omega⟩, toInt_ofInt32 ⟨by omega, by omega⟩]
      omega
  have hrep := hdrop.shrinks fun hne => by
    refine ⟨by simp; omega, ?_⟩
    simp only [Sequence.tail, length_drop]
    omega
  rwa [length_drop, show q.head + k + (q.items.length - k : ℕ) - 1 = q.tail by
    omega] at hrep

theorem LTrimFront_wraps (env : Env) (u : Txn) (hk : ValidKey key) (h : ListRep db s key q)
    (hq : q.items ≠ []) (h0 : trimSize ≠ 0)
    (hout : ¬ (0 < trimSize.toInt ∧ q.head + trimSize.toInt - 1 < 2 ^ 31))
    (hkeep : trimSize.toInt < 0 → 2 ^ 31 ≤ q.items.length - trimSize.toInt) :
    db.LTrimFront key trimSize env s u = (.ok (.commit trimSize), u) := by
  obtain ⟨h1, h2⟩ := push_base h hq
  have htail : q.tail = q.head + q.items.length - 1 := rfl
  have hlo := trimSize.le_toInt
  have hhi := trimSize.toInt_lt
  have hne : trimSize.toInt ≠ 0 := fun h' => h0 (Int32.toInt_inj.mp h')
  obtain ⟨b, c, hb, hc, hsize⟩ : ∃ b c : ℤ, Int32.ofInt b = Int32.ofInt (q.head +
      trimSize.toInt - 1) ∧ Int32.ofInt b + 1 = Int32.ofInt c ∧ (-2 ^ 31 ≤ b ∧ b < q.head) ∧
      -2 ^ 31 ≤ q.tail - c + 1 ∧ q.tail - c + 1 < 0 := by
    by_cases hpos : 0 < trimSize.toInt
    · refine ⟨q.head + trimSize.toInt - 1 - 4294967296, q.head + trimSize.toInt,
        (ofInt_wrap _).symm, ?_, ⟨by omega, by omega⟩, by omega, by omega⟩
      rw [← ofInt_wrap, one_eq_ofInt, ← Int32.ofInt_add]
      congr 1
      omega
    · refine ⟨q.head + trimSize.toInt - 1, q.head + trimSize.toInt + 4294967296, rfl, ?_,
        ⟨by omega, by omega⟩, by omega, by omega⟩
      rw [ofInt_wrap (_ + 4294967296), one_eq_ofInt, ← Int32.ofInt_add]
      congr 1
      omega
  have hmin : MinInt32 (Int32.ofInt q.head + trimSize - 1) (Int32.ofInt q.tail) =
      Int32.ofInt b := by
    rw [head_add_size, ← hb, MinInt32_ofInt ⟨by omega, by omega⟩ ⟨by omega, by omega⟩,
      min_eq_left (by omega)]
  have hrun := @ltrim_run db env s key q u hk h hq trimSize listHeadSeq h0 q.head b c q.tail rfl
    hmin hc rfl ⟨by omega, by omega⟩ ⟨by omega, by omega⟩
  have hcount : Int32.ofInt b - Int32.ofInt q.head + 1 = trimSize := by
    rw [hb, ← head_add_size]
    grind
  rwa [shrinkBatch_neg (by omega), itemRange_empty (by omega) ⟨by omega, by omega⟩, hcount,
    map_nil, map_nil, append_nil, Txn.queue_nil] at hrun

theorem LTrimFront_list (hk : ValidKey key) (h : ListRep db s key q) (hq : q.items ≠ [])
    (h0 : trimSize ≠ 0) (hkeep : trimSize.toInt < 0 → 2 ^ 31 ≤ q.items.length - trimSize.toInt) :
    ∃ q' r bt, db.LTrimFront key trimSize env s u = (.ok (.commit r), u.queue bt) ∧
      ListRep db (s.applyBatch bt) key q' := by
  by_cases hin : 0 < trimSize.toInt ∧ q.head + trimSize.toInt - 1 < 2 ^ 31
  · obtain ⟨bt, hrun, hshrinks⟩ := LTrimFront_run hk h hq hin rfl
    exact ⟨_, _, bt, hrun, hshrinks.rep⟩
  · have hrun := LTrimFront_wraps env u hk h hq h0 hin hkeep
    exact ⟨q, _, [], by rw [hrun, Txn.queue_nil], h⟩

theorem trimBack_first (h : ListRep db s key q) (hq : q.items ≠ []) (h0 : trimSize ≠ 0)
    (hkeep : trimSize.toInt < 0 → 2 ^ 31 ≤ q.tail - trimSize.toInt + 1) :
    ∃ k ≤ q.items.length, (0 < trimSize.toInt → k = min trimSize.toInt.toNat q.items.length) ∧
      MaxInt32 (Int32.ofInt q.tail - trimSize + 1) (Int32.ofInt q.head) =
        Int32.ofInt (q.tail + 1 - k) := by
  obtain ⟨h1, h2⟩ := push_base h hq
  have htail : q.tail = q.head + q.items.length - 1 := rfl
  have hlo := trimSize.le_toInt
  have hhi := trimSize.toInt_lt
  have hne : trimSize.toInt ≠ 0 := fun h' => h0 (Int32.toInt_inj.mp h')
  obtain ⟨x, hx, hxp, hxl, hxt⟩ : ∃ x : ℤ,
      Int32.ofInt (q.tail - trimSize.toInt + 1) = Int32.ofInt x ∧
      (0 < trimSize.toInt → x = q.tail - trimSize.toInt + 1) ∧ -2 ^ 31 ≤ x ∧ x ≤ q.tail := by
    by_cases hpos : 0 < trimSize.toInt
    · exact ⟨_, rfl, fun _ => rfl, by omega, by omega⟩
    · exact ⟨_, ofInt_wrap _, fun h => absurd h hpos, by omega, by omega⟩
  obtain ⟨k, hk⟩ : ∃ k : ℕ, q.tail + 1 - k = max x q.head :=
    ⟨(q.tail + 1 - max x q.head).toNat, by omega⟩
  have hsum : Int32.ofInt q.tail - trimSize + 1 = Int32.ofInt (q.tail - trimSize.toInt + 1) := by
    rw [Int32.ofInt_add, Int32.ofInt_sub, Int32.ofInt_toInt]
    rfl
  refine ⟨k, by omega, fun hp => ?_, ?_⟩
  · omega
  · rw [hsum, hx, MaxInt32_ofInt ⟨by omega, by omega⟩ ⟨by omega, by omega⟩, hk]

section
variable (hk : ValidKey key) (h : ListRep db s key q) (hq : q.items ≠ []) (h0 : trimSize ≠ 0)
  (hkeep : trimSize.toInt < 0 → 2 ^ 31 ≤ q.tail - trimSize.toInt + 1)
include hk h hq h0 hkeep

theorem LTrimBack_run :
    ∃ k ≤ q.items.length,
      (0 < trimSize.toInt → k = min trimSize.toInt.toNat q.items.length) ∧
      ∃ bt, db.LTrimBack key trimSize env s u = (.ok (.commit (Int32.ofNat k)), u.queue bt) ∧
        Shrinks db s key bt ⟨q.head, q.items.take (q.items.length - k)⟩ := by
  obtain ⟨h1, h2⟩ := push_base h hq
  have htail : q.tail = q.head + q.items.length - 1 := rfl
  obtain ⟨k, hle, hsize, hmax⟩ := trimBack_first h hq h0 hkeep
  have hd : Int32.ofInt (q.tail + 1 - k) - 1 = Int32.ofInt (q.tail - k) := by
    rw [one_eq_ofInt, ← Int32.ofInt_sub]
    congr 1
    omega
  have hrun := @ltrim_run db env s key q u hk h hq trimSize listTailSeq h0 (q.tail + 1 - k) q.tail
    q.head (q.tail - k) hmax rfl rfl hd ⟨by omega, by omega⟩ ⟨by omega, by omega⟩
  have hcount : Int32.ofInt q.tail - Int32.ofInt (q.tail + 1 - k) + 1 = Int32.ofNat k := by
    rw [one_eq_ofInt, ← Int32.ofInt_sub, ← Int32.ofInt_add, int32_ofNat]
    congr 1
    omega
  rw [hcount, map_map] at hrun
  refine ⟨k, hle, hsize, _, hrun, ?_⟩
  have htake := h.items.take
    (int32Range (Int32.ofInt (q.tail + 1 - k)) (Int32.ofInt (q.tail + 1)))
    (q.items.length - k) fun n hlt hle => by
      rw [mem_int32Range, toInt_ofInt32 ⟨by omega, by omega⟩, toInt_ofInt32 ⟨by omega, by omega⟩]
      omega
  have hrep := htake.shrinks fun hne => by
    refine ⟨h1, ?_⟩
    simp only [Sequence.tail, length_take]
    omega
  rwa [length_take, show q.head + min (q.items.length - k) q.items.length - 1 =
    q.tail - k by omega] at hrep

theorem LTrimBack_list :
    ∃ q' r bt, db.LTrimBack key trimSize env s u = (.ok (.commit r), u.queue bt) ∧
      ListRep db (s.applyBatch bt) key q' := by
  obtain ⟨k, -, -, bt, hrun, hshrinks⟩ := LTrimBack_run hk h hq h0 hkeep
  exact ⟨_, _, bt, hrun, hshrinks.rep⟩

end

theorem LSet_list (h : ListRep db s key q) {index : Int32}
    (hkeep : q.items = [] → index ≠ 0 ∧ index ≠ -1) {r : Ret Unit}
    (hrun : db.LSet key index value env s u = (.ok r, t)) :
    ∃ q' b, t.batch = u.batch ++ b ∧ ListRep db (s.applyBatch b) key q' := by
  obtain ⟨_, u, hc, h1⟩ := bind_ok.mp hrun
  obtain ⟨hcheck, rfl⟩ := lift_ok.mp hc
  rw [bind_run, h.lGetMeta] at h1
  dsimp only at h1
  generalize hseq : (if index ≥ 0 then (metaOf q).1 + index else (metaOf q).2.1 + index + 1) = seq
    at h1
  by_cases hout : seq < (metaOf q).1 ∨ seq > (metaOf q).2.1
  · rw [if_pos hout] at h1
    cases h1
  · rw [if_neg hout] at h1
    cases h1
    rw [gt_iff_lt, Int32.lt_iff_toInt_lt, Int32.lt_iff_toInt_lt] at hout
    by_cases hq : q.items = []
    · exfalso
      obtain ⟨hn0, hn1⟩ := hkeep hq
      rw [show metaOf q = (listInitialSeq, listInitialSeq, 0) from if_pos hq] at hseq hout
      have heq : seq = listInitialSeq := Int32.toInt_inj.mp (by dsimp only at hout; omega)
      split_ifs at hseq
      · exact hn0 (by grind)
      · exact hn1 (by grind)
    · obtain ⟨hl, hr⟩ := push_base h hq
      have htail : q.tail = q.head + q.items.length - 1 := rfl
      rw [metaOf_cons hq, toInt_ofInt32 ⟨by omega, by omega⟩,
        toInt_ofInt32 ⟨by omega, by omega⟩] at hout
      obtain ⟨i, hi⟩ : ∃ i : ℕ, q.head + i = seq.toInt := ⟨(seq.toInt - q.head).toNat, by omega⟩
      refine ⟨⟨q.head, q.items.set i value⟩, _, rfl, ?_, ?_, ?_⟩
      · intro _
        obtain ⟨hf1, hf2⟩ := h.fits hq
        exact ⟨hf1, by simpa [Sequence.tail] using hf2⟩
      · rw [get_applyBatch_of_not_mem, h.metaEntry]
        · simp [Sequence.tail]
        · intro o ho
          rw [mem_singleton.mp ho]
          exact lEncodeListKey_ne_meta seq
      · have hset := h.items.set (i := i) (by omega) ⟨by omega, by omega⟩ value
        rwa [hi, Int32.ofInt_toInt] at hset

end

end LedisDB
