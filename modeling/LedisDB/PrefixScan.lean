import LedisDB.Iterator
import Mathlib.Data.Finset.Card
import Mathlib.Data.Finset.SDiff

/-!
# The part of an ordered map below a common front

Keys are lists; `under p` is the part of a map whose keys start with `p`, with
`p` taken off, and `suffixes p` is its domain. A half-open scan between
`p ++ [a]` and `p ++ [b]`, where `b` is the successor of `a`, meets exactly the
entries below `p ++ [a]`.
-/

namespace LedisDB

open List

namespace OrderedMap

variable {α β : Type*} [LinearOrder α]

def under (m : OrderedMap (List α) β) (p : List α) : List (List α × β) :=
  (m.entries.filter (fun e => p <+: e.1)).map (fun e => (e.1.drop p.length, e.2))

def suffixes (m : OrderedMap (List α) β) (p : List α) : Finset (List α) :=
  ((m.under p).map Prod.fst).toFinset

theorem mem_under {m : OrderedMap (List α) β} {p x : List α} {v : β} :
    (x, v) ∈ m.under p ↔ m.get (p ++ x) = some v := by
  rw [get_eq_some_iff, under, mem_map]
  constructor
  · rintro ⟨⟨k, w⟩, he, hx⟩
    obtain ⟨hmem, hp⟩ := mem_filter.mp he
    obtain ⟨y, rfl⟩ := of_decide_eq_true hp
    simp only [drop_left] at hx
    obtain ⟨rfl, rfl⟩ := hx
    exact hmem
  · intro h
    refine ⟨(p ++ x, v), mem_filter.mpr ⟨h, ?_⟩, by simp⟩
    exact decide_eq_true (prefix_append p x)

theorem find_under (m : OrderedMap (List α) β) (p x : List α) :
    ((m.under p).find? fun e => e.1 = x).map Prod.snd = m.get (p ++ x) := by
  cases hf : (m.under p).find? fun e => e.1 = x with
  | none =>
    cases hv : m.get (p ++ x) with
    | none => rfl
    | some v =>
      have hne := find?_eq_none.mp hf _ (mem_under.mpr hv)
      simp at hne
  | some e =>
    have hx := find?_some hf
    obtain rfl := of_decide_eq_true hx
    exact (mem_under.mp (mem_of_find?_eq_some hf)).symm

theorem under_keys (m : OrderedMap (List α) β) (p : List α) :
    ((m.under p).map Prod.fst).map (p ++ ·) = m.keys.filter (fun k => p <+: k) := by
  rw [under, keys, filter_map, map_map, map_map]
  apply map_congr_left
  intro e he
  obtain ⟨y, hy⟩ := of_decide_eq_true (mem_filter.mp he).2
  simp [← hy]

theorem under_nodup (m : OrderedMap (List α) β) (p : List α) :
    ((m.under p).map Prod.fst).Nodup := by
  apply List.Nodup.of_map (p ++ ·)
  rw [under_keys]
  exact m.keys_nodup.filter _

theorem mem_suffixes {m : OrderedMap (List α) β} {p x : List α} :
    x ∈ m.suffixes p ↔ (m.get (p ++ x)).isSome := by
  rw [suffixes, mem_toFinset, mem_map, Option.isSome_iff_exists]
  constructor
  · rintro ⟨⟨y, v⟩, he, rfl⟩
    exact ⟨v, mem_under.mp he⟩
  · rintro ⟨v, hv⟩
    exact ⟨(x, v), mem_under.mpr hv, rfl⟩

theorem card_suffixes (m : OrderedMap (List α) β) (p : List α) :
    (m.suffixes p).card = (m.under p).length := by
  rw [suffixes, toFinset_card_of_nodup (m.under_nodup p), length_map]

theorem suffixes_empty (p : List α) : (empty : OrderedMap (List α) β).suffixes p = ∅ := rfl

theorem suffixes_congr {m m' : OrderedMap (List α) β} {p : List α}
    (h : ∀ x, m'.get (p ++ x) = m.get (p ++ x)) : m'.suffixes p = m.suffixes p := by
  ext x
  rw [mem_suffixes, mem_suffixes, h]

section
variable (m : OrderedMap (List α) β)
include m

theorem suffixes_put (p x : List α) (v : β) :
    (m.applyOp (.put (p ++ x) v)).suffixes p = Insert.insert x (m.suffixes p) := by
  ext y
  rw [mem_suffixes, get_applyOp, Finset.mem_insert, mem_suffixes]
  by_cases h : y = x
  · simp [h]
  · simp [h, Ne.symm h]

theorem suffixes_delete (p x : List α) :
    (m.applyOp (.delete (p ++ x))).suffixes p = (m.suffixes p).erase x := by
  ext y
  rw [mem_suffixes, get_applyOp, Finset.mem_erase, mem_suffixes]
  by_cases h : y = x
  · simp [h]
  · simp [h, Ne.symm h]

theorem suffixes_applyBatch_other {p : List α}
    {b : List (WriteOp (List α) β)} (h : ∀ o ∈ b, ¬ p <+: o.key) :
    (m.applyBatch b).suffixes p = m.suffixes p :=
  suffixes_congr fun x => get_applyBatch_of_not_mem m fun o ho heq =>
    h o ho (heq ▸ prefix_append p x)

theorem suffixes_puts (p : List α) (xs : List (List α × β)) :
    (m.applyBatch (xs.map fun a => .put (p ++ a.1) a.2)).suffixes p =
      m.suffixes p ∪ (xs.map Prod.fst).toFinset := by
  induction xs generalizing m with
  | nil => simp
  | cons a xs ih =>
    change ((m.applyOp _).applyBatch _).suffixes p = _
    rw [ih, suffixes_put]
    ext y
    simp only [Finset.mem_union, Finset.mem_insert, map_cons, toFinset_cons]
    tauto

theorem suffixes_deletes (p : List α) (xs : List (List α)) :
    (m.applyBatch (xs.map fun x => .delete (p ++ x))).suffixes p = m.suffixes p \ xs.toFinset := by
  induction xs generalizing m with
  | nil => simp
  | cons x xs ih =>
    change ((m.applyOp _).applyBatch _).suffixes p = _
    rw [ih, suffixes_delete]
    ext y
    simp only [Finset.mem_sdiff, Finset.mem_erase, toFinset_cons, Finset.mem_insert]
    tauto

theorem map_under (p : List α) :
    (m.under p).map (fun e => (p ++ e.1, e.2)) = m.entries.filter (fun e => p <+: e.1) := by
  rw [under, map_map]
  convert map_id _ using 1
  apply map_congr_left
  intro e he
  obtain ⟨y, hy⟩ := of_decide_eq_true (mem_filter.mp he).2
  rw [Function.comp_apply, ← hy, drop_left, hy, id]

theorem under_sorted (p : List α) : (m.under p).Pairwise fun a b => a.1 < b.1 := by
  have hs := m.sorted.filter fun e => decide (p <+: e.1)
  rw [← map_under, pairwise_map] at hs
  exact hs.imp fun h => (Lexicographic.append_lt_append_iff p _ _).mp h

theorem rangeLimit_under_of {p : List α} {r : Range (List α)}
    {q : List α → Bool} (h : ∀ e ∈ m.entries,
      (r.aboveMin e.1 && r.belowMax e.1) = true ↔ ∃ x, e.1 = p ++ x ∧ q x = true)
    (direction : Direction) :
    m.rangeLimit r ⟨0, -1⟩ direction =
      (direction.arrange ((m.under p).filter fun e => q e.1)).map fun e => (p ++ e.1, e.2) := by
  have hfilter : m.entries.filter (fun e => r.aboveMin e.1 && r.belowMax e.1) =
      ((m.under p).filter fun e => q e.1).map fun e => (p ++ e.1, e.2) := by
    have hcongr : m.entries.filter (fun e => r.aboveMin e.1 && r.belowMax e.1) =
        m.entries.filter (fun e => q (e.1.drop p.length) && decide (p <+: e.1)) := by
      refine filter_congr fun e he => ?_
      rw [Bool.eq_iff_iff, h e he, Bool.and_eq_true_iff, decide_eq_true_iff]
      constructor
      · rintro ⟨x, hx, hq⟩
        rw [hx, drop_left]
        exact ⟨hq, prefix_append p x⟩
      · rintro ⟨hq, x, hx⟩
        rw [← hx, drop_left] at hq
        exact ⟨x, hx.symm, hq⟩
    rw [hcongr, ← filter_filter, ← map_under, filter_map]
    congr 2
    funext e
    simp
  rw [rangeLimit_eq, Limit.apply_all, hfilter, Direction.arrange_map]

end

theorem mem_between_iff {p : List α} {a b : α} (hab : a < b) (hc : ∀ c, c < b → c ≤ a)
    {k : List α} : (p ++ [a] ≤ k ∧ k < p ++ [b]) ↔ ∃ x, k = p ++ [a] ++ x := by
  rw [Lexicographic.between_iff_prefix hab hc]
  exact ⟨fun ⟨x, hx⟩ => ⟨x, hx.symm⟩, fun ⟨x, hx⟩ => ⟨x, hx.symm⟩⟩

theorem rangeLimit_under (m : OrderedMap (List α) β) {p : List α} {a b : α} (hab : a < b)
    (hc : ∀ c, c < b → c ≤ a) :
    m.rangeLimit ⟨some (p ++ [a]), some (p ++ [b]), RangeROpen⟩ ⟨0, -1⟩ .forward =
      (m.under (p ++ [a])).map (fun e => (p ++ [a] ++ e.1, e.2)) := by
  rw [rangeLimit_under_of m (q := fun _ => true), Direction.arrange, filter_true]
  intro e _
  simpa using mem_between_iff hab hc

theorem rangeLimit_under_open (m : OrderedMap (List α) β) {p : List α} {a b : α} (hab : a < b)
    (hc : ∀ c, c < b → c ≤ a) :
    m.rangeLimit ⟨some (p ++ [a]), some (p ++ [b]), RangeOpen⟩ ⟨0, -1⟩ .forward =
      ((m.under (p ++ [a])).filter (fun e => e.1 ≠ [])).map (fun e => (p ++ [a] ++ e.1, e.2)) := by
  refine rangeLimit_under_of m (q := fun x => x ≠ []) (fun e _ => ?_) .forward
  have hbetween := mem_between_iff (p := p) (k := e.1) hab hc
  simp only [Range.aboveMin_open, Range.belowMax_open, Bool.and_eq_true_iff, decide_eq_true_iff,
    lt_iff_le_and_ne (a := p ++ [a])]
  constructor
  · rintro ⟨⟨hle, hne⟩, hlt⟩
    obtain ⟨x, hx⟩ := hbetween.mp ⟨hle, hlt⟩
    exact ⟨x, hx, fun h => hne (by rw [hx, h, append_nil])⟩
  · rintro ⟨x, hx, hne⟩
    obtain ⟨hle, hlt⟩ := hbetween.mpr ⟨x, hx⟩
    exact ⟨⟨hle, fun h => hne (append_right_eq_self.mp (hx ▸ h).symm)⟩, hlt⟩

end OrderedMap

end LedisDB
