import LedisDB.Decimals
import LedisDB.Sort

/-!
# The order and the range of a sort

Without a `BY` pattern the elements are compared by their bytes, and the result is the
slice of the sorted list that the `LIMIT` names as long as its end does not wrap. With a
pattern a missing key compares below everything, itself included.
-/

namespace LedisDB

open List

open Sorting

section
variable {lib : SortLib} {heap : Heap} {db : DB} {env : Env} {s : Store} {values l : List Bytes}
  {offset size c : Int64} {desc : Bool} {sortBy : Option Bytes}

theorem checkedGet_ignoreErr {r : Except Err Unit} (hr : r ≠ .error .panic) (ek : Bytes) :
    ∃ v, ∀ t, (Op.lift r >>= fun _ => Op.get ek).ignoreErr none env s t = (.ok v, t) := by
  cases r with
  | ok u => exact ⟨s.get ek, fun t => rfl⟩
  | error e => cases e <;> first | exact absurd rfl hr | exact ⟨none, fun t => rfl⟩

theorem checkKMSize_ne_panic {maxSize : ℕ} {e : Err} (he : e ≠ .panic) (key member : Bytes) :
    checkKMSize maxSize e key member ≠ .error .panic := by
  unfold checkKMSize
  split_ifs
  · exact nofun
  · simpa using he
  · exact nofun

theorem lookup_returns (pattern subKey : Bytes) :
    ∃ v, ∀ t, db.lookupKeyByPattern pattern subKey env s t = (.ok v, t) := by
  unfold DB.lookupKeyByPattern
  split_ifs
  · exact ⟨_, fun t => rfl⟩
  · exact ⟨_, fun t => rfl⟩
  · rcases hashDereference pattern with ⟨key, _ | field⟩
    · refine checkedGet_ignoreErr ?_ _
      unfold checkKeySize
      split_ifs <;> exact nofun
    · exact checkedGet_ignoreErr (checkKMSize_ne_panic (e := .errHashFieldSize) nofun _ _) _

/-- The bytes that a value is compared by, if there are any. -/
def DB.cmpKey (db : DB) (env : Env) (s : Store) (sortBy : Option Bytes) (value : Bytes) :
    Option Bytes :=
  match sortBy with
  | none => some value
  | some pattern =>
    match (db.lookupKeyByPattern pattern value).eval env s with
    | .ok v => v
    | .error _ => none

def DB.alphaItem (lib : SortLib) (db : DB) (env : Env) (s : Store) (sortBy : Option Bytes)
    (value : Bytes) : sortItem lib.Float64 :=
  ⟨value, if sortBy.isSome then db.cmpKey env s sortBy value else none, lib.zero⟩

theorem sortItemOf_alpha (value : Bytes) (t : Txn) :
    db.sortItemOf lib true false sortBy value env s t =
      (.ok (db.alphaItem lib env s sortBy value), t) := by
  cases sortBy with
  | none => rfl
  | some pattern =>
    obtain ⟨v, hv⟩ := lookup_returns pattern value
    have heval : (db.lookupKeyByPattern pattern value).eval env s = .ok v := by
      rw [Op.eval, hv]
    simp only [DB.sortItemOf, DB.alphaItem, DB.cmpKey, heval, Bool.false_eq_true, if_false,
      Op.bind_run, hv]
    cases v <;> rfl

theorem sortItems_alpha (values : List Bytes) (t : Txn) :
    db.sortItems lib true false sortBy values env s t =
      (.ok (values.map (db.alphaItem lib env s sortBy)), t) := by
  induction values with
  | nil => rfl
  | cons value values ih =>
    simp [DB.sortItems, sortItemOf_alpha, ih]

theorem sortResult_run {F : Type} {items : List (sortItem F)} {i n : ℕ}
    (h : i + n ≤ items.length) (t : Txn) :
    db.sortResult items [] i n env s t =
      (.ok (((items.drop i).take n).map fun item => some item.value), t) := by
  induction n generalizing i with
  | zero => simp [DB.sortResult]
  | succ n ih =>
    have hi : i < items.length := by omega
    rw [DB.sortResult, getElem?_eq_getElem hi, drop_eq_getElem_cons hi]
    simp only [length_nil, if_true, Op.bind_run, Op.pure_run,
      ih (by omega : i + 1 + n ≤ items.length), take_succ_cons, map_cons,
      singleton_append]

def limited {α : Type} (offset size : Int64) (l : List α) : List α :=
  let rest := l.drop offset.toInt.toNat
  if 0 < size then rest.take size.toInt.toNat else rest

/-- The end of the range does not wrap, or nothing lies at its start. -/
def LimitFits (n : ℕ) (offset size : Int64) : Prop :=
  0 < size → offset.toInt < n → max offset.toInt 0 + size.toInt ≤ 2 ^ 63

theorem toInt_first (offset : Int64) :
    (if offset > 0 then offset else 0 : Int64).toInt = max offset.toInt 0 := by
  have hz : (0 : Int64).toInt = 0 := rfl
  split_ifs with h <;> rw [gt_iff_lt, Int64.lt_iff_toInt_lt] at h <;> omega

theorem toInt_length_sub (hlen : values.length < 2 ^ 63) (h0 : 0 ≤ c.toInt) :
    (Int64.ofNat values.length - c).toInt = values.length - c.toInt := by
  have hn := Int64.toInt_ofNat_of_lt hlen
  have hc := Int64.toInt_lt c
  rw [toInt_sub_fits, hn]
  constructor <;> omega

theorem getSortRange_past (hlen : values.length < 2 ^ 63) (ho : values.length ≤ offset.toInt) :
    (getSortRange values offset size).1.toInt = values.length - 1 ∧
      (getSortRange values offset size).2.toInt = values.length - 2 := by
  have hn := Int64.toInt_ofNat_of_lt hlen
  have h1 := toInt_length_sub hlen (show 0 ≤ (1 : Int64).toInt by decide)
  have h2 : (Int64.ofNat values.length - 2).toInt = values.length - 2 :=
    toInt_length_sub hlen (show 0 ≤ (2 : Int64).toInt by decide)
  have hstart : (if offset > 0 then offset else 0) ≥ Int64.ofNat values.length := by
    rw [ge_iff_le, Int64.le_iff_toInt_le, toInt_first]
    omega
  have hclamp : ¬ Int64.ofNat values.length - 2 ≥ Int64.ofNat values.length := by
    rw [ge_iff_le, Int64.le_iff_toInt_le]
    omega
  simp only [getSortRange, if_pos hstart, if_neg hclamp]
  exact ⟨h1, h2⟩

theorem getSortRange_within (hlen : values.length < 2 ^ 63) (ho : offset.toInt < values.length)
    (hpos : values ≠ []) :
    (getSortRange values offset size).1.toInt = max offset.toInt 0 ∧
      (getSortRange values offset size).2.toInt =
        min (if 0 < size then ((if offset > 0 then offset else 0) + size - 1).toInt
          else values.length - 1) (values.length - 1) := by
  have hlength := length_pos_iff.mpr hpos
  have hn := Int64.toInt_ofNat_of_lt hlen
  have h1 : (Int64.ofNat values.length - 1).toInt = values.length - 1 :=
    toInt_length_sub hlen (show 0 ≤ (1 : Int64).toInt by decide)
  have hstart : ¬ (if offset > 0 then offset else 0) ≥ Int64.ofNat values.length := by
    rw [ge_iff_le, Int64.le_iff_toInt_le, toInt_first]
    omega
  simp only [getSortRange, if_neg hstart]
  refine ⟨toInt_first offset, ?_⟩
  rw [← h1, ← apply_ite Int64.toInt (0 < size)]
  generalize (if 0 < size then _ else _) = stop
  split_ifs with h <;> rw [ge_iff_le, Int64.le_iff_toInt_le] at h <;> omega

theorem limited_all {α : Type} {l : List α} {i : ℕ} (hi : offset.toInt.toNat = i)
    (h : 0 < size → (l.length : ℤ) ≤ i + size.toInt) :
    (l.drop i).take (l.length - i) = limited offset size l := by
  rw [← length_drop, take_length, limited, hi]
  split_ifs with hsize
  · have hsum := h hsize
    rw [take_of_length_le]
    rw [length_drop]
    omega
  · rfl

theorem toInt_stop (hsize : 0 < size) (hfits : max offset.toInt 0 + size.toInt ≤ 2 ^ 63) :
    ((if offset > 0 then offset else 0) + size - 1).toInt =
      max offset.toInt 0 + size.toInt - 1 := by
  have hpositive : 0 < size.toInt := Int64.lt_iff_toInt_lt.mp hsize
  have hfirst := toInt_first offset
  -- the sum itself may be one too large
  rw [Int64.toInt_sub, Int64.toInt_add, hfirst, show (1 : Int64).toInt = 1 from rfl,
    Int.bmod_sub_bmod]
  exact Int.bmod_eq_of_le (by omega) (by omega)

theorem getSortRange_fits (hne : values ≠ []) (hlen : values.length < 2 ^ 63)
    (hfits : LimitFits values.length offset size) :
    ∃ i k : ℕ, i + k ≤ values.length ∧ (getSortRange values offset size).1.toInt = i ∧
      (getSortRange values offset size).2.toInt = i + k - 1 ∧
      ∀ {α : Type} (l : List α), l.length = values.length →
        (l.drop i).take k = limited offset size l := by
  have hpos := length_pos_iff.mpr hne
  rcases lt_or_ge offset.toInt values.length with ho | ho
  · obtain ⟨h1, h2⟩ := @getSortRange_within values offset size hlen ho hne
    by_cases hsize : 0 < size
    · rw [if_pos hsize, toInt_stop hsize (hfits hsize ho)] at h2
      have hpositive : 0 < size.toInt := Int64.lt_iff_toInt_lt.mp hsize
      by_cases hall : values.length ≤ max offset.toInt 0 + size.toInt
      · refine ⟨offset.toInt.toNat, values.length - offset.toInt.toNat, by omega, by omega,
          by omega, fun l hl => hl ▸ limited_all rfl fun _ => by omega⟩
      · refine ⟨offset.toInt.toNat, size.toInt.toNat, by omega, by omega, by omega, fun l hl => ?_⟩
        rw [limited, if_pos hsize]
    · rw [if_neg hsize] at h2
      exact ⟨offset.toInt.toNat, values.length - offset.toInt.toNat, by omega, by omega, by omega,
        fun l hl => hl ▸ limited_all rfl fun h => absurd h hsize⟩
  · obtain ⟨h1, h2⟩ := @getSortRange_past values offset size hlen ho
    refine ⟨values.length - 1, 0, by omega, by omega, by omega, fun l hl => ?_⟩
    have hdrop : l.drop offset.toInt.toNat = [] := drop_eq_nil_of_le (by omega)
    rw [limited, hdrop]
    simp

theorem getSortRange_wraps (hlen : values.length < 2 ^ 63) (hne : values ≠ []) (hsize : 0 < size)
    (ho : offset.toInt < values.length) (hwrap : 2 ^ 63 < max offset.toInt 0 + size.toInt) :
    (getSortRange values offset size).2.toInt < (getSortRange values offset size).1.toInt := by
  obtain ⟨h1, h2⟩ := @getSortRange_within values offset size hlen ho hne
  have hstop : ((if offset > 0 then offset else 0) + size - 1).toInt =
      max offset.toInt 0 + size.toInt - 1 - 2 ^ 64 := by
    have hmax' := Int64.toInt_lt size
    rw [Int64.toInt_sub, Int64.toInt_add, toInt_first, show (1 : Int64).toInt = 1 from rfl,
      Int.bmod_sub_bmod, ← Int.sub_bmod_right]
    exact Int.bmod_eq_of_le (by omega) (by omega)
  have hmax' := Int64.toInt_lt size
  rw [h2, if_pos hsize]
  omega

def DB.alphaSorted (lib : SortLib) (db : DB) (env : Env) (s : Store) (desc : Bool)
    (sortBy : Option Bytes) (values : List Bytes) : List (sortItem lib.Float64) :=
  lib.sorter.sort (directed desc (sortItemSlice.Less lib true sortBy.isSome))
    (values.map (db.alphaItem lib env s sortBy))

theorem alphaSorted_perm (lib : SortLib) (db : DB) (env : Env) (s : Store) (desc : Bool)
    (sortBy : Option Bytes) (values : List Bytes) :
    ((db.alphaSorted lib env s desc sortBy values).map (·.value)).Perm values := by
  have hperm := (lib.sorter.perm (directed desc (sortItemSlice.Less lib true sortBy.isSome))
    (values.map (db.alphaItem lib env s sortBy))).map (·.value)
  rw [map_map] at hperm
  have hvalue : (fun item : sortItem lib.Float64 => item.value) ∘
      db.alphaItem lib env s sortBy = id := rfl
  rwa [hvalue, map_id] at hperm

theorem alphaSorted_length :
    (db.alphaSorted lib env s desc sortBy values).length = values.length := by
  have hlength := (alphaSorted_perm lib db env s desc sortBy values).length_eq
  rwa [length_map] at hlength

theorem Heap.make_ok {elemSize n : ℕ} (h : elemSize * n ≤ heap.size) :
    heap.make elemSize n = .ok () := by
  rw [make, if_neg]
  rw [Int.toNat_natCast]
  omega

theorem Heap.make_error {elemSize n : ℕ} (h : ¬ elemSize * n ≤ heap.size) :
    heap.make elemSize n = .error .panic := by
  rw [make, if_pos]
  rw [Int.toNat_natCast]
  omega

theorem dontsort_eq (hby : ∀ pattern, sortBy = some pattern → star ∈ pattern) :
    dontsort sortBy = false := by
  cases sortBy with
  | none => rfl
  | some pattern => simpa [dontsort] using hby pattern rfl

theorem xsort_alpha (hne : values ≠ []) (hroom : sortItemSize * values.length ≤ heap.size)
    (hby : ∀ pattern, sortBy = some pattern → star ∈ pattern) :
    (db.xsort lib heap values offset size true desc sortBy []).eval env s =
      match heap.make DB.sliceSize ((getSortRange values offset size).2 -
        (getSortRange values offset size).1 + 1).toInt with
      | .error e => .error e
      | .ok _ => (db.sortResult (db.alphaSorted lib env s desc sortBy values) []
          (getSortRange values offset size).1.toInt.toNat
          ((getSortRange values offset size).2.toInt -
            (getSortRange values offset size).1.toInt + 1).toNat).eval env s := by
  have hlength := fun h => hne (length_eq_zero_iff.mp h)
  rw [DB.xsort, Op.eval, if_neg hlength]
  simp only [dontsort_eq hby, Heap.make_ok hroom, Op.bind_run, sortItems_alpha]
  have hsorted : (if false = true then values.map (db.alphaItem lib env s sortBy)
      else if (!desc) = true then lib.sorter.sort (sortItemSlice.Less lib true sortBy.isSome)
        (values.map (db.alphaItem lib env s sortBy))
      else lib.sorter.sort (fun a b => sortItemSlice.Less lib true sortBy.isSome b a)
        (values.map (db.alphaItem lib env s sortBy))) =
      db.alphaSorted lib env s desc sortBy values := by
    cases desc <;> rfl
  rw [hsorted]
  simp only [length_nil, lt_self_iff_false, if_false]
  cases heap.make DB.sliceSize ((getSortRange values offset size).2 -
    (getSortRange values offset size).1 + 1).toInt <;> rfl

def sortedBytes (desc : Bool) (values : List Bytes) : List Bytes :=
  if desc then (values.insertionSort (· ≤ ·)).reverse else values.insertionSort (· ≤ ·)

theorem sortedBytes_eq (hperm : l.Perm values)
    (hl : l.Pairwise fun a b => if desc then b ≤ a else a ≤ b) : l = sortedBytes desc values := by
  have hsorted : (values.insertionSort (· ≤ ·)).Perm values := perm_insertionSort _ _
  cases desc with
  | false =>
    exact (hperm.trans hsorted.symm).eq_of_pairwise' (by simpa using hl)
      (pairwise_insertionSort _ _)
  | true =>
    have hrev := ((reverse_perm l).trans (hperm.trans hsorted.symm)).eq_of_pairwise'
        (pairwise_reverse.mpr (by simpa using hl)) (pairwise_insertionSort _ _)
    rw [sortedBytes, if_pos rfl, ← hrev, reverse_reverse]

theorem sortedBytes_length (desc : Bool) (values : List Bytes) :
    (sortedBytes desc values).length = values.length := by
  cases desc <;> simp [sortedBytes]

theorem limited_ne_nil {α : Type} {l : List α} (hsize : 0 < size) (hpos : 0 < l.length)
    (ho : offset.toInt < l.length) : limited offset size l ≠ [] := by
  intro h
  have hpositive : 0 < size.toInt := Int64.lt_iff_toInt_lt.mp hsize
  have hlength := congrArg length h
  rw [limited, if_pos hsize, length_take, length_drop, length_nil] at hlength
  omega

theorem Less_value (a b : sortItem lib.Float64) :
    sortItemSlice.Less lib true false a b = true ↔ a.value < b.value := by
  simp [sortItemSlice.Less]

theorem alphaSorted_value (desc : Bool) (values : List Bytes) :
    (db.alphaSorted lib env s desc none values).map (·.value) = sortedBytes desc values := by
  refine sortedBytes_eq (alphaSorted_perm lib db env s desc none values) ?_
  have hweak : StrictWeakOn (sortItemSlice.Less lib true false)
      (values.map (db.alphaItem lib env s none)) :=
    .of_key fun a _ b _ => Less_value a b
  have hordered := lib.sorter.ordered _ _ (hweak.directed desc)
  refine pairwise_map.mpr (hordered.imp fun {a b} hab => ?_)
  cases desc <;> simpa [directed, Less_value] using hab

theorem length_lt_of_room (hroom : sortItemSize * values.length ≤ heap.size) :
    values.length < 2 ^ 63 := by
  have hlt := heap.size_lt
  unfold sortItemSize at hroom
  omega

theorem xsort_fits (hne : values ≠ []) (hroom : sortItemSize * values.length ≤ heap.size)
    (hby : ∀ pattern, sortBy = some pattern → star ∈ pattern)
    (hfits : LimitFits values.length offset size) :
    (db.xsort lib heap values offset size true desc sortBy []).eval env s = .ok ((limited offset
      size ((db.alphaSorted lib env s desc sortBy values).map (·.value))).map some) := by
  have hlen := length_lt_of_room hroom
  obtain ⟨i, k, hik, h1, h2, hcut⟩ := getSortRange_fits hne hlen hfits
  have hdiff : ((getSortRange values offset size).2 - (getSortRange values offset size).1).toInt =
      k - 1 := by
    rw [toInt_sub_fits]
    · omega
    · constructor <;> omega
  have hres : ((getSortRange values offset size).2 - (getSortRange values offset size).1 +
      1).toInt = k := by
    have hone : (1 : Int64).toInt = 1 := rfl
    rw [toInt_add_fits]
    · omega
    · constructor <;> omega
  have hrounds : ((getSortRange values offset size).2.toInt -
      (getSortRange values offset size).1.toInt + 1).toNat = k := by
    omega
  have hslices : DB.sliceSize * k ≤ heap.size :=
    (Nat.mul_le_mul (show DB.sliceSize ≤ sortItemSize by decide) (by omega)).trans hroom
  rw [xsort_alpha hne hroom hby, hres, Heap.make_ok hslices, hrounds, h1, Op.eval,
    sortResult_run (by rw [alphaSorted_length]; exact hik),
    ← hcut _ (by rw [length_map, alphaSorted_length]), ← map_drop, ← map_take,
    map_map]
  rfl

theorem xsort_no_room (hne : values ≠ []) (hroom : ¬ sortItemSize * values.length ≤ heap.size) :
    (db.xsort lib heap values offset size true desc sortBy []).eval env s = .error .panic := by
  have hlength := fun h => hne (length_eq_zero_iff.mp h)
  rw [DB.xsort, Op.eval, if_neg hlength]
  simp [Heap.make_error hroom]

theorem xsort_wraps (hne : values ≠ []) (hroom : sortItemSize * values.length ≤ heap.size)
    (hby : ∀ pattern, sortBy = some pattern → star ∈ pattern) (hsize : 0 < size)
    (ho : offset.toInt < values.length) (hwrap : 2 ^ 63 < max offset.toInt 0 + size.toInt) :
    (db.xsort lib heap values offset size true desc sortBy []).eval env s = .error .panic ∨
      (db.xsort lib heap values offset size true desc sortBy []).eval env s = .ok [] := by
  have hback := getSortRange_wraps (length_lt_of_room hroom) hne hsize ho hwrap
  have hrounds : ((getSortRange values offset size).2.toInt -
      (getSortRange values offset size).1.toInt + 1).toNat = 0 := by omega
  rw [xsort_alpha hne hroom hby, hrounds]
  unfold Heap.make
  split_ifs
  · exact .inl rfl
  · exact .inr rfl

/-- An alphabetical sort returns the slice of the sorted values that the `LIMIT` names exactly
when its items can be allocated and the end of the range does not wrap. -/
theorem xsort_limit_iff (lib : SortLib) (heap : Heap) (db : DB) (env : Env) (s : Store)
    (values : List Bytes) (offset size : Int64) (desc : Bool) :
    (db.xsort lib heap values offset size true desc none []).eval env s =
        .ok ((limited offset size (sortedBytes desc values)).map some) ↔
      values = [] ∨
        sortItemSize * values.length ≤ heap.size ∧ LimitFits values.length offset size := by
  have hby : ∀ pattern, (none : Option Bytes) = some pattern → star ∈ pattern := nofun
  by_cases hne : values = []
  · subst hne
    cases desc <;> simp [DB.xsort, Op.eval, limited, sortedBytes]
  constructor
  · intro h
    by_cases hroom : sortItemSize * values.length ≤ heap.size
    · refine .inr ⟨hroom, fun hsize ho => ?_⟩
      by_contra hwrap
      rcases xsort_wraps hne hroom hby hsize ho (not_le.mp hwrap) with h' | h' <;> rw [h'] at h
      · cases h
      · have hlength := sortedBytes_length desc values
        exact limited_ne_nil hsize (hlength ▸ List.length_pos_iff.mpr hne) (hlength ▸ ho)
          (List.map_eq_nil_iff.mp (Except.ok.inj h).symm)
    · rw [xsort_no_room hne hroom] at h
      cases h
  · rintro (h | ⟨hroom, hfits⟩)
    · exact absurd h hne
    · rw [xsort_fits hne hroom hby hfits, alphaSorted_value]

def SortLib.whole : SortLib where
  Float64 := Int64
  zero := 0
  lt a b := decide (a < b)
  ParseFloat v := (parseInt v).toOption
  sorter := .insertion

theorem xsort_limit_panics :
    (DB.zero.xsort .whole ⟨2 ^ 40, by decide⟩ [[99], [98], [97]] 2 Int64.maxValue true false none
      []).eval (Env.quiet 0) OrderedMap.empty = .error .panic ∧
    limited 2 Int64.maxValue (sortedBytes false [[99], [98], [97]]) = [[99]] := by
  decide +kernel

theorem xsort_all (hroom : sortItemSize * values.length ≤ heap.size)
    (hby : ∀ pattern, sortBy = some pattern → star ∈ pattern) (ho : offset ≤ 0) (hsize : size ≤ 0) :
    (db.xsort lib heap values offset size true desc sortBy []).eval env s =
      .ok (((db.alphaSorted lib env s desc sortBy values).map (·.value)).map some) := by
  by_cases hne : values = []
  · have hlength : (db.alphaSorted lib env s desc sortBy values).length = 0 := by
      rw [alphaSorted_length, hne, length_nil]
    rw [length_eq_zero_iff.mp hlength, hne]
    rfl
  · have hnone := Int64.not_lt.mpr hsize
    have hfirst : offset.toInt.toNat = 0 := by
      rw [Int64.le_iff_toInt_le, show (0 : Int64).toInt = 0 from rfl] at ho
      omega
    rw [xsort_fits hne hroom hby fun h => absurd h hnone, limited, if_neg hnone, hfirst, drop_zero]

/-- Keys in the order of a sort: a missing one comes first. -/
def keyLe : Option Bytes → Option Bytes → Prop
  | none, _ => True
  | some _, none => False
  | some c1, some c2 => c1 ≤ c2

/-- The comparison of an alphabetical sort orders the items of the values, and with enough
memory the sort returns the values in the order of their keys. -/
structure SortsByKey (lib : SortLib) (db : DB) (env : Env) (s : Store) (sortBy : Option Bytes)
    (values : List Bytes) : Prop where
  order : ∃ items, (db.sortItems lib true (dontsort sortBy) sortBy values).eval env s = .ok items ∧
    items.map (·.value) = values ∧
    StrictWeakOn (sortItemSlice.Less lib true sortBy.isSome) items
  output : ∀ (heap : Heap) (offset size : Int64) (desc : Bool),
    sortItemSize * values.length ≤ heap.size → offset ≤ 0 → size ≤ 0 →
      ∃ out : List Bytes, (db.xsort lib heap values offset size true desc sortBy []).eval env s =
          .ok (out.map some) ∧ out.Perm values ∧
        out.Pairwise fun a b =>
          if desc then keyLe (db.cmpKey env s sortBy b) (db.cmpKey env s sortBy a)
          else keyLe (db.cmpKey env s sortBy a) (db.cmpKey env s sortBy b)

theorem Less_key (hkeys : ∀ v ∈ values, db.cmpKey env s sortBy v ≠ none) :
    ∀ a ∈ values.map (db.alphaItem lib env s sortBy),
      ∀ b ∈ values.map (db.alphaItem lib env s sortBy),
      sortItemSlice.Less lib true sortBy.isSome a b = true ↔
        (db.cmpKey env s sortBy a.value).getD [] < (db.cmpKey env s sortBy b.value).getD [] := by
  intro a ha b hb
  obtain ⟨v, hv, rfl⟩ := mem_map.mp ha
  obtain ⟨v', hv', rfl⟩ := mem_map.mp hb
  obtain ⟨c, hc⟩ := Option.ne_none_iff_exists'.mp (hkeys v hv)
  obtain ⟨c', hc'⟩ := Option.ne_none_iff_exists'.mp (hkeys v' hv')
  cases sortBy with
  | none => simp [sortItemSlice.Less, DB.cmpKey]
  | some pattern => simp [sortItemSlice.Less, DB.alphaItem, hc, hc']

theorem Less_missing {pattern v : Bytes} (h : db.cmpKey env s (some pattern) v = none) :
    sortItemSlice.Less lib true true (db.alphaItem lib env s (some pattern) v)
      (db.alphaItem lib env s (some pattern) v) = true := by
  simp [sortItemSlice.Less, DB.alphaItem, h]

theorem keyLe_of_not_lt {a b : Option Bytes} (ha : a ≠ none) (hb : b ≠ none)
    (h : ¬ b.getD [] < a.getD []) : keyLe a b := by
  obtain ⟨c, rfl⟩ := Option.ne_none_iff_exists'.mp ha
  obtain ⟨c', rfl⟩ := Option.ne_none_iff_exists'.mp hb
  exact not_lt.mp h

theorem alphaSorted_key (hkeys : ∀ v ∈ values, db.cmpKey env s sortBy v ≠ none) (desc : Bool) :
    ((db.alphaSorted lib env s desc sortBy values).map (·.value)).Pairwise fun a b =>
      if desc then keyLe (db.cmpKey env s sortBy b) (db.cmpKey env s sortBy a)
      else keyLe (db.cmpKey env s sortBy a) (db.cmpKey env s sortBy b) := by
  have hless := @Less_key lib db env s values sortBy hkeys
  have hordered := lib.sorter.ordered _ _ ((StrictWeakOn.of_key hless).directed desc)
  have hmem : ∀ {a}, a ∈ db.alphaSorted lib env s desc sortBy values →
      a ∈ values.map (db.alphaItem lib env s sortBy) :=
    fun h => (lib.sorter.perm _ _).mem_iff.mp h
  have hkey : ∀ {a}, a ∈ values.map (db.alphaItem lib env s sortBy) →
      db.cmpKey env s sortBy a.value ≠ none := by
    intro a ha
    obtain ⟨v, hv, rfl⟩ := mem_map.mp ha
    exact hkeys v hv
  refine pairwise_map.mpr (hordered.imp_of_mem fun {a b} ha hb hab => ?_)
  have ha' := hmem ha
  have hb' := hmem hb
  cases desc with
  | false => exact keyLe_of_not_lt (hkey ha') (hkey hb') ((hless b hb' a ha').not.mp hab)
  | true => exact keyLe_of_not_lt (hkey hb') (hkey ha') ((hless a ha' b hb').not.mp hab)

/-- The comparison is a strict weak order, and the output sorted by it, exactly when no element
has a key that is missing. -/
theorem alpha_order_iff (lib : SortLib) (db : DB) (env : Env) (s : Store) (values : List Bytes)
    (hby : ∀ pattern, sortBy = some pattern → star ∈ pattern) :
    SortsByKey lib db env s sortBy values ↔ ∀ v ∈ values, db.cmpKey env s sortBy v ≠ none := by
  have hitems : (db.sortItems lib true (dontsort sortBy) sortBy values).eval env s =
      .ok (values.map (db.alphaItem lib env s sortBy)) := by
    rw [dontsort_eq hby, Op.eval, sortItems_alpha]
  constructor
  · rintro ⟨⟨items, heval, -, hweak⟩, -⟩ v hv hmissing
    obtain rfl := Except.ok.inj (hitems.symm.trans heval)
    cases sortBy with
    | none => cases hmissing
    | some pattern => exact hweak.irrefl _ (List.mem_map_of_mem hv) (Less_missing hmissing)
  · intro hkeys
    refine ⟨⟨_, hitems, by simp [Function.comp_def, DB.alphaItem], .of_key (Less_key hkeys)⟩, ?_⟩
    intro heap offset size desc hroom ho hsize
    refine ⟨(db.alphaSorted lib env s desc sortBy values).map (·.value), ?_,
      alphaSorted_perm lib db env s desc sortBy values, alphaSorted_key hkeys desc⟩
    rw [xsort_all hroom hby ho hsize]

theorem alpha_order_present : SortsByKey .whole DB.zero (Env.quiet 0)
    ((OrderedMap.empty.insert (DB.zero.encodeKVKey [119, 97]) [50]).insert
      (DB.zero.encodeKVKey [119, 98]) [49]) (some [119, 42]) [[97], [98]] :=
  (alpha_order_iff .whole DB.zero (Env.quiet 0) ((OrderedMap.empty.insert
      (DB.zero.encodeKVKey [119, 97]) [50]).insert (DB.zero.encodeKVKey [119, 98]) [49])
    [[97], [98]] (by rintro _ ⟨⟩; decide)).mpr (by decide)

theorem alpha_order_missing : ∃ a b : sortItem SortLib.whole.Float64,
    (DB.zero.sortItems .whole true (dontsort (some [119, 42])) (some [119, 42])
      [[97], [98]]).eval (Env.quiet 0) OrderedMap.empty = .ok [a, b] ∧
    sortItemSlice.Less .whole true true a b = true ∧
    sortItemSlice.Less .whole true true b a = true ∧
    sortItemSlice.Less .whole true true a a = true :=
  ⟨⟨[97], none, SortLib.whole.zero⟩, ⟨[98], none, SortLib.whole.zero⟩, rfl, rfl, rfl, rfl⟩

end

end LedisDB
