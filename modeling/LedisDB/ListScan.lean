import LedisDB.ListWrites

/-!
# Scanning and reading a list

The items of a list are adjacent in key order, so a scan between two of them
meets the items in between in the order of the list. Deleting a list, `LRange`,
`LIndex` and `LLen` follow.
-/

namespace LedisDB

open List

section
variable {db : DB} {env : Env} {s m : Store} {key : Bytes} {q : Sequence} {u t : Txn} {h : ℤ}
  {xs : List Bytes}

def itemEntries (db : DB) (key : Bytes) : ℤ → List Bytes → List (Bytes × Bytes)
  | _, [] => []
  | h, x :: xs => (db.lEncodeListKey key (Int32.ofInt h), x) :: itemEntries db key (h + 1) xs

theorem itemEntries_values (h : ℤ) (xs : List Bytes) :
    (itemEntries db key h xs).map Prod.snd = xs := by
  induction xs generalizing h with
  | nil => rfl
  | cons x xs ih => simp [itemEntries, ih]

theorem itemEntries_length (h : ℤ) (xs : List Bytes) :
    (itemEntries db key h xs).length = xs.length := by
  have hlen := congrArg length (@itemEntries_values db key h xs)
  rwa [length_map] at hlen

theorem mem_itemEntries {e : Bytes × Bytes} :
    e ∈ itemEntries db key h xs ↔
      ∃ z, e.1 = db.lEncodeListKey key (Int32.ofInt z) ∧ window h xs z = some e.2 := by
  induction xs generalizing h with
  | nil => simp [itemEntries]
  | cons x xs ih =>
    have hcons := fun z => window_cons (h + 1) z xs x
    simp only [add_sub_cancel_right] at hcons
    rw [itemEntries, mem_cons, ih]
    constructor
    · intro he
      rcases he with rfl | ⟨z, hz, hw⟩
      · exact ⟨h, rfl, by rw [hcons, if_pos rfl]⟩
      · refine ⟨z, hz, ?_⟩
        have hle := (window_eq_some.mp hw).1
        rw [hcons, if_neg (by omega), hw]
    · intro he
      obtain ⟨z, hz, hw⟩ := he
      rw [hcons] at hw
      by_cases hzh : z = h
      · rw [if_pos hzh] at hw
        left
        rw [← hzh, ← hz, Option.some.inj hw]
      · rw [if_neg hzh] at hw
        exact .inr ⟨z, hz, hw⟩

theorem lEncodeListKey_le_iff {a b : ℤ} (ha : 0 ≤ a ∧ a < 2 ^ 31) (hb : 0 ≤ b ∧ b < 2 ^ 31) :
    db.lEncodeListKey key (Int32.ofInt a) ≤ db.lEncodeListKey key (Int32.ofInt b) ↔ a ≤ b := by
  have hta := toInt_ofInt32 ⟨by omega, ha.2⟩
  have htb := toInt_ofInt32 ⟨by omega, hb.2⟩
  constructor
  · intro h
    by_contra hlt
    have hle : db.lEncodeListKey key (Int32.ofInt b) ≤ db.lEncodeListKey key (Int32.ofInt a) :=
      lEncodeListKey_le (by omega) (by omega)
    have heq := lEncodeListKey_inj.mp (le_antisymm h hle)
    rw [heq] at hta
    omega
  · intro h
    exact lEncodeListKey_le (by omega) (by omega)

theorem itemEntries_sorted (hb : 0 ≤ h ∧ h + xs.length ≤ 2 ^ 31) :
    (itemEntries db key h xs).Pairwise (fun a b => a.1 < b.1) := by
  induction xs generalizing h with
  | nil => exact List.Pairwise.nil
  | cons x xs ih =>
    rw [length_cons] at hb
    refine pairwise_cons.mpr ⟨fun e he => ?_, ih ⟨by omega, by omega⟩⟩
    obtain ⟨z, hz, hw⟩ := mem_itemEntries.mp he
    have hin := window_isSome.mp (Option.isSome_of_eq_some hw)
    rw [hz, ← not_le, lEncodeListKey_le_iff ⟨by omega, by omega⟩ ⟨by omega, by omega⟩]
    omega

theorem scan_items (hs : StoreWf s) (hi : Items db s key h xs) (hb : 0 ≤ h ∧ h + xs.length ≤ 2 ^ 31)
    {i j : ℕ} (hj : j ≠ 0) (hij : i + j ≤ xs.length) :
    s.rangeLimit ⟨some (db.lEncodeListKey key (Int32.ofInt (h + i))),
      some (db.lEncodeListKey key (Int32.ofInt (h + i + j - 1))), RangeClose⟩ ⟨0, -1⟩ .forward =
      itemEntries db key (h + i) ((xs.drop i).take j) := by
  have hw : ∀ z v, window (h + i) ((xs.drop i).take j) z = some v ↔
      (h + i ≤ z ∧ z < h + i + j) ∧ window h xs z = some v := by
    intro z v
    rw [window_take, window_drop]
    split_ifs <;> simp <;> omega
  have hlen : ((xs.drop i).take j).length ≤ xs.length - i := by
    rw [length_take]
    omega
  refine OrderedMap.sorted_ext (s.rangeLimit_sorted _)
    (itemEntries_sorted ⟨by omega, by omega⟩) fun e => ?_
  rw [mem_itemEntries]
  constructor
  · intro he
    obtain ⟨hst, r, hr⟩ := hs.of_range (T := .LIST) (.head _) he
    obtain ⟨hget, hmin, hmax⟩ := OrderedMap.mem_rangeLimit_all.mp he
    rw [Range.aboveMin_close, decide_eq_true_eq] at hmin
    rw [Range.belowMax_close, decide_eq_true_eq] at hmax
    obtain ⟨n, hn⟩ : ∃ n, e.1 = db.lEncodeListKey key n := by
      generalize e.1 = ek at hst hr
      cases hst with
      | lmeta => exact absurd (DB.plainKey_inj.mp hr).2.1 (by decide)
      | litem hk seq => exact ⟨seq, rfl⟩
    rw [hn, hi n] at hget
    have hin := window_isSome.mp (Option.isSome_of_eq_some hget)
    rw [hn, ← Int32.ofInt_toInt n,
      lEncodeListKey_le_iff ⟨by omega, by omega⟩ ⟨by omega, by omega⟩] at hmin hmax
    exact ⟨n.toInt, by rw [hn, Int32.ofInt_toInt], (hw _ _).mpr ⟨⟨hmin, by omega⟩, hget⟩⟩
  · intro he
    obtain ⟨z, hz, hwin⟩ := he
    obtain ⟨hrange, hget⟩ := (hw _ _).mp hwin
    rw [OrderedMap.mem_rangeLimit_all, Range.aboveMin_close, Range.belowMax_close,
      decide_eq_true_eq, decide_eq_true_eq, hz, hi, toInt_ofInt32 ⟨by omega, by omega⟩,
      lEncodeListKey_le_iff ⟨by omega, by omega⟩ ⟨by omega, by omega⟩,
      lEncodeListKey_le_iff ⟨by omega, by omega⟩ ⟨by omega, by omega⟩]
    exact ⟨hget, hrange.1, by omega⟩

structure LClears (db : DB) (s : Store) (key : Bytes) (b : Batch) : Prop where
  deletes : Deletes b
  metaEntry : .delete (db.lEncodeMetaKey key) ∈ b
  items : ∀ n, (s.get (db.lEncodeListKey key n)).isSome → .delete (db.lEncodeListKey key n) ∈ b

theorem clearing_lclears (db : DB) (s : Store) : Clearing (LClears db s) where
  deletes h := h.deletes
  mono h hb hsub := ⟨hb, hsub _ h.metaEntry, fun n hn => hsub _ (h.items n hn)⟩

theorem LClears.listRep {b : Batch} (h : LClears db s key b) (z : ℤ) :
    ListRep db (s.applyBatch b) key ⟨z, []⟩ := by
  refine ListRep.of_empty (h.deletes.get_none (.inr h.metaEntry)) fun n =>
    h.deletes.get_none ?_
  cases hn : s.get (db.lEncodeListKey key n) with
  | none => exact .inl rfl
  | some v => exact .inr (h.items n (by simp [hn]))

theorem scan_list (hs : StoreWf s) (h : ListRep db s key q) :
    s.rangeLimit ⟨some (db.lEncodeListKey key (metaOf q).1),
      some (db.lEncodeListKey key (metaOf q).2.1), RangeClose⟩ ⟨0, -1⟩ .forward =
      itemEntries db key q.head q.items := by
  by_cases hq : q.items = []
  · rw [show metaOf q = (listInitialSeq, listInitialSeq, 0) from if_pos hq, hq, itemEntries,
      eq_nil_iff_forall_not_mem]
    intro e he
    obtain ⟨hget, hmin, hmax⟩ := OrderedMap.mem_rangeLimit_all.mp he
    rw [Range.aboveMin_close, decide_eq_true_eq] at hmin
    rw [Range.belowMax_close, decide_eq_true_eq] at hmax
    rw [le_antisymm hmax hmin, h.items, hq, window_nil] at hget
    cases hget
  · obtain ⟨h1, h2⟩ := push_base h hq
    have hpos : q.items.length ≠ 0 := by simpa using hq
    have hscan := scan_items hs h.items ⟨by omega, by omega⟩ hpos (i := 0) (by omega)
    rw [drop_zero, take_length, Nat.cast_zero, Int.add_zero] at hscan
    rwa [metaOf_cons hq]

theorem lDelete_run (env : Env) (u : Txn) (hs : StoreWf s) (h : ListRep db s key q) :
    ∃ b, db.lDelete key env s u = (.ok (Int64.ofNat q.items.length), u.queue b) ∧
      LClears db s key b := by
  refine ⟨((itemEntries db key q.head q.items).map Prod.fst).map .delete ++
    [.delete (db.lEncodeMetaKey key)], ?_, ?_⟩
  · simp [DB.lDelete, h.lGetMeta, scan_list hs h, itemEntries_length]
  · refine ⟨?_, by simp, fun n hn => ?_⟩
    · intro o ho
      rcases mem_append.mp ho with ho | ho
      · obtain ⟨k, -, rfl⟩ := mem_map.mp ho
        exact ⟨k, rfl⟩
      · exact ⟨_, mem_singleton.mp ho⟩
    · obtain ⟨v, hv⟩ := Option.isSome_iff_exists.mp hn
      rw [h.items] at hv
      refine mem_append_left _ (mem_map.mpr ⟨_, mem_map.mpr
        ⟨(db.lEncodeListKey key n, v), ?_, rfl⟩, rfl⟩)
      exact mem_itemEntries.mpr ⟨n.toInt, by rw [Int32.ofInt_toInt], hv⟩

theorem LLen_run (hk : ValidKey key) (h : ListRep db s key q) :
    db.LLen key env s u = (.ok (Int64.ofNat q.items.length), u) := by
  have hsize := size_toInt64 h
  simp [DB.LLen, checkKeySize_ok.mpr hk, h.lGetMeta, hsize]

namespace Sequence

def index (q : Sequence) (i : ℤ) : Option Bytes := window 0 q.items (position q.items.length i)

def slice (q : Sequence) (start stop : ℤ) : List Bytes :=
  (q.items.take (position q.items.length stop + 1).toNat).drop (position q.items.length start).toNat

end Sequence

theorem metaOf_size : (metaOf q).2.2 = Int32.ofInt q.items.length := by
  unfold metaOf
  split_ifs with hq
  · rw [hq]
    rfl
  · rfl

theorem LIndex_run (hk : ValidKey key) (h : ListRep db s key q) (index : Int32) :
    db.LIndex key index env s u = (.ok (q.index index.toInt), u) := by
  simp only [DB.LIndex, Op.bind_run, Op.lift_run, checkKeySize_ok.mpr hk, h.lGetMeta,
    Op.find_run, h.items _, Sequence.index, position]
  by_cases hq : q.items = []
  · simp [hq]
  · obtain ⟨h1, h2⟩ := push_base h hq
    have hlo := index.le_toInt
    have hhi := index.toInt_lt
    have hge : index ≥ 0 ↔ 0 ≤ index.toInt := Int32.le_iff_toInt_le
    rw [metaOf_cons hq]
    simp only [hge]
    by_cases hpos : 0 ≤ index.toInt
    · rw [if_pos hpos, if_neg (not_lt.mpr hpos)]
      have hseq : Int32.ofInt q.head + index = Int32.ofInt (q.head + index.toInt) := by
        rw [Int32.ofInt_add, Int32.ofInt_toInt]
      rw [hseq, ← window_shift q.head]
      by_cases hlt : q.head + index.toInt < 2 ^ 31
      · rw [toInt_ofInt32 ⟨by omega, hlt⟩]
      · have hwrap : (Int32.ofInt (q.head + index.toInt)).toInt < 0 := by
          rw [Int32.toInt_ofInt, show Int32.size = 4294967296 from rfl, Int.bmod_def]
          omega
        rw [window_eq_none (.inl (by omega)), window_eq_none (.inr (by omega))]
    · rw [if_neg hpos, if_pos (not_le.mp hpos)]
      have hseq : Int32.ofInt q.tail + index + 1 =
          Int32.ofInt (q.head + (q.items.length + index.toInt)) := by
        rw [show q.head + (q.items.length + index.toInt) = q.tail + index.toInt + 1 by
          unfold Sequence.tail
          omega, Int32.ofInt_add, Int32.ofInt_add, Int32.ofInt_toInt, one_eq_ofInt]
      rw [hseq, toInt_ofInt32 ⟨by omega, by omega⟩, window_shift]

theorem scan_slice (hs : StoreWf s) (h : ListRep db s key q) {i j : ℕ} (hj : j ≠ 0)
    (hij : i + j ≤ q.items.length) :
    s.rangeLimit ⟨some (db.lEncodeListKey key ((metaOf q).1 + Int32.ofInt i)), none, RangeClose⟩
      ⟨0, j⟩ .forward = itemEntries db key (q.head + i) ((q.items.drop i).take j) := by
  have hq : q.items ≠ [] := by
    rintro hq
    rw [hq, length_nil] at hij
    omega
  obtain ⟨h1, h2⟩ := push_base h hq
  have hscan := scan_items hs h.items ⟨by omega, by omega⟩ hj hij
  have hcount := s.rangeLimit_count (db.lEncodeListKey key (Int32.ofInt (q.head + i)))
    (db.lEncodeListKey key (Int32.ofInt (q.head + i + j - 1)))
  rw [hscan, itemEntries_length, length_take, length_drop, Nat.min_eq_left (by omega)] at hcount
  rwa [metaOf_cons hq, ← Int32.ofInt_add]

theorem LRange_run (hs : StoreWf s) (hk : ValidKey key) (h : ListRep db s key q)
    (start stop : Int32) :
    db.LRange key start stop env s u = (.ok (q.slice start.toInt stop.toInt), u) := by
  have hlen := h.length_lt
  have ha := position_bounds (n := q.items.length) ⟨by omega, by omega⟩
    ⟨start.le_toInt, start.toInt_lt⟩
  have hb := position_bounds (n := q.items.length) ⟨by omega, by omega⟩
    ⟨stop.le_toInt, stop.toInt_lt⟩
  simp only [DB.LRange, Op.bind_run, Op.lift_run, checkKeySize_ok.mpr hk, h.lGetMeta,
    metaOf_size, normalize_eq, Sequence.slice]
  generalize position q.items.length start.toInt = a at ha
  generalize position q.items.length stop.toInt = b at hb
  have hclamp : (if Int32.ofInt a < 0 then 0 else Int32.ofInt a) = Int32.ofInt a.toNat := by
    have hlt : Int32.ofInt a < 0 ↔ a < 0 := ofInt_lt_iff ha (b := 0) ⟨by decide, by decide⟩
    simp only [hlt]
    split_ifs with h0
    · rw [Int.toNat_of_nonpos h0.le]
      rfl
    · rw [Int.toNat_of_nonneg (not_lt.mp h0)]
  have hgt : Int32.ofInt b < Int32.ofInt a.toNat ↔ b < a.toNat :=
    ofInt_lt_iff hb ⟨by omega, by omega⟩
  have hge : Int32.ofInt q.items.length ≤ Int32.ofInt a.toNat ↔ q.items.length ≤ a.toNat := by
    rw [ofInt_le_iff ⟨by omega, by omega⟩ ⟨by omega, by omega⟩, Nat.cast_le]
  have hstop : (if Int32.ofInt q.items.length ≤ Int32.ofInt b then Int32.ofInt q.items.length - 1
      else Int32.ofInt b) = Int32.ofInt (min (q.items.length - 1) b) := by
    rw [one_eq_ofInt, ← Int32.ofInt_sub]
    simp only [ofInt_le_iff (a := q.items.length) ⟨by omega, by omega⟩ hb]
    split_ifs with hlb
    · rw [min_eq_left (by omega)]
    · rw [min_eq_right (by omega)]
  simp only [hclamp, hgt, hge, hstop]
  by_cases hc : b < a.toNat ∨ q.items.length ≤ a.toNat
  · rw [if_pos hc, Op.pure_run, drop_eq_nil_of_le]
    rw [length_take]
    omega
  · rw [if_neg hc]
    obtain ⟨j, hj⟩ : ∃ j : ℕ, j = min ((q.items.length : ℤ) - 1) b - a.toNat + 1 :=
      ⟨(min ((q.items.length : ℤ) - 1) b - a.toNat + 1).toNat, by omega⟩
    have hlimit : (Int32.ofInt (min (q.items.length - 1) b) - Int32.ofInt a.toNat + 1).toInt =
        j := by
      rw [one_eq_ofInt, ← Int32.ofInt_sub, ← Int32.ofInt_add, ← hj,
        toInt_ofInt32 ⟨by omega, by omega⟩]
    simp only [Op.bind_run, Op.range_run, Op.pure_run, hlimit,
      scan_slice hs h (i := a.toNat) (j := j) (by omega) (by omega), itemEntries_values]
    rw [drop_take, take_eq_take_iff.mpr]
    rw [length_drop]
    omega

end

end LedisDB
