import Mathlib.Algebra.Order.Group.Nat
import Mathlib.Data.List.GetD
import Mathlib.Data.List.Perm.Basic

/-!
# Pointwise operations on lists of different lengths

Lists are padded with `z` to the longest one, and their entries at each place are
combined from a unit. The result does not depend on the order of the lists, and two lists
may be combined before the others.
-/

namespace LedisDB.Pointwise

open List

variable {α : Type*}

theorem ext_getD {z : α} {v w : List α} (hlen : v.length = w.length)
    (h : ∀ i, v.getD i z = w.getD i z) : v = w := by
  refine ext_getElem hlen fun i hv hw => ?_
  have := h i
  rwa [getD_eq_getElem _ _ hv, getD_eq_getElem _ _ hw] at this

def maxLength (vs : List (List α)) : ℕ := (vs.map List.length).foldl max 0

def combine (f : α → α → α) (e z : α) (vs : List (List α)) : List α :=
  (List.range (maxLength vs)).map fun i => (vs.map fun v => v.getD i z).foldl f e

@[simp] theorem combine_length (f : α → α → α) (e z : α) (vs : List (List α)) :
    (combine f e z vs).length = maxLength vs := by
  rw [combine, length_map, length_range]

theorem foldl_max_eq (a : ℕ) (ns : List ℕ) : ns.foldl max a = max a (ns.foldl max 0) := by
  induction ns generalizing a with
  | nil => simp
  | cons n ns ih =>
    rw [foldl_cons, foldl_cons, ih, ih (max 0 n), Nat.zero_max, max_assoc]

@[simp] theorem maxLength_nil : maxLength ([] : List (List α)) = 0 := rfl

@[simp] theorem maxLength_cons (v : List α) (vs : List (List α)) :
    maxLength (v :: vs) = max v.length (maxLength vs) := by
  rw [maxLength, map_cons, foldl_cons, Nat.zero_max, foldl_max_eq, maxLength]

theorem length_le_maxLength {v : List α} {vs : List (List α)} (h : v ∈ vs) :
    v.length ≤ maxLength vs := by
  induction vs with
  | nil => cases h
  | cons w vs ih =>
    rw [maxLength_cons]
    rcases mem_cons.mp h with rfl | h
    · exact le_max_left _ _
    · exact (ih h).trans (le_max_right _ _)

theorem maxLength_le {M : ℕ} {vs : List (List α)} (h : ∀ v ∈ vs, v.length ≤ M) :
    maxLength vs ≤ M := by
  induction vs with
  | nil => exact Nat.zero_le M
  | cons v vs ih =>
    rw [forall_mem_cons] at h
    rw [maxLength_cons]
    exact max_le h.1 (ih h.2)

theorem maxLength_perm {vs ws : List (List α)} (h : vs.Perm ws) : maxLength vs = maxLength ws :=
  (h.map length).foldl_op_eq

section
variable {f : α → α → α} {e z : α}

theorem combine_perm [Std.Commutative f] [Std.Associative f] {vs ws : List (List α)}
    (h : vs.Perm ws) : combine f e z vs = combine f e z ws := by
  rw [combine, maxLength_perm h]
  exact map_congr_left fun i _ => (h.map _).foldl_op_eq

variable (he : ∀ x, f e x = x) (hz : f z z = z)
include he hz

theorem foldl_padding {vs : List (List α)} (hne : vs ≠ []) {i : ℕ} (hi : maxLength vs ≤ i) :
    (vs.map fun v => v.getD i z).foldl f e = z := by
  have hpad : ∀ v ∈ vs, v.getD i z = z := fun v hv =>
    getD_eq_default _ _ ((length_le_maxLength hv).trans hi)
  have hfold : ∀ ws : List (List α), (∀ v ∈ ws, v.getD i z = z) →
      (ws.map fun v => v.getD i z).foldl f z = z := by
    intro ws hws
    induction ws with
    | nil => rfl
    | cons w ws ih =>
      rw [forall_mem_cons] at hws
      rw [map_cons, foldl_cons, hws.1, hz, ih hws.2]
  cases vs with
  | nil => exact absurd rfl hne
  | cons v vs =>
    rw [forall_mem_cons] at hpad
    rw [map_cons, foldl_cons, hpad.1, he, hfold vs hpad.2]

theorem combine_getD {vs : List (List α)} (hne : vs ≠ []) (i : ℕ) :
    (combine f e z vs).getD i z = (vs.map fun v => v.getD i z).foldl f e := by
  by_cases hi : i < maxLength vs
  · rw [getD_eq_getElem _ _ (by rwa [combine_length])]
    simp [combine]
  · rw [getD_eq_default _ _ (by rwa [combine_length, ← not_lt]),
      foldl_padding he hz hne (not_lt.mp hi)]

theorem combine_singleton (v : List α) : combine f e z [v] = v := by
  refine ext_getD (z := z) (by simp) fun i => ?_
  rw [combine_getD he hz (cons_ne_nil _ _)]
  exact he _

theorem combine_combine (v w : List α) (vs : List (List α)) :
    combine f e z (combine f e z [v, w] :: vs) = combine f e z (v :: w :: vs) := by
  refine ext_getD (z := z) (by simp) fun i => ?_
  rw [combine_getD he hz (cons_ne_nil _ _), combine_getD he hz (cons_ne_nil _ _),
    map_cons, foldl_cons, combine_getD he hz (cons_ne_nil _ _), he]
  rfl

theorem eq_combine_pair {v w r : List α} (hlen : r.length = max v.length w.length)
    (h : ∀ i, r.getD i z = f (v.getD i z) (w.getD i z)) : r = combine f e z [v, w] := by
  refine ext_getD (z := z) (by simp [hlen]) fun i => ?_
  rw [combine_getD he hz (cons_ne_nil _ _), h]
  simp [he]

end

end LedisDB.Pointwise
