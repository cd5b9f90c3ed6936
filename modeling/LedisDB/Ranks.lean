import Mathlib.Data.List.Nodup
import Mathlib.Data.List.Sort
import Mathlib.Tactic.Common

/-!
# Ranks in a sorted list

The rank of an element is its position; a negative rank counts from the end. In a list
that is strictly sorted by a key, the elements up to one of them and those from it on
are its two parts.
-/

namespace LedisDB

open List

variable {α κ : Type*}

def rankSlice (L : List α) (start stop : ℤ) : List α :=
  let place := fun i : ℤ => if i < 0 then L.length + i else i
  (L.take (place stop + 1).toNat).drop (place start).toNat

theorem rankSlice_sublist (L : List α) (start stop : ℤ) : (rankSlice L start stop).Sublist L :=
  (drop_sublist _ _).trans (take_sublist _ _)

def rankIn [DecidableEq κ] (name : α → κ) (L : List α) (x : κ) : ℤ :=
  if x ∈ L.map name then (L.map name).idxOf x else -1

theorem rankIn_absent [DecidableEq κ] {name : α → κ} {L : List α} {x : κ}
    (h : x ∉ L.map name) : rankIn name L x = -1 :=
  if_neg h

section
variable {A B : List α} {p : α}

theorem rankIn_split [DecidableEq κ] {name : α → κ} (h : ((A ++ p :: B).map name).Nodup) :
    rankIn name (A ++ p :: B) (name p) = A.length := by
  have hmem : name p ∈ (A ++ p :: B).map name := mem_map_of_mem (by simp)
  have hnot : name p ∉ A.map name := by
    intro hin
    rw [map_append] at h
    exact (nodup_append.mp h).2.2 _ hin _ (.head _) rfl
  rw [rankIn, if_pos hmem, map_append, idxOf_append_of_notMem hnot, map_cons,
    idxOf_cons_self, length_map, Nat.add_zero]

variable [LinearOrder κ] {key : α → κ}

theorem filter_upto (h : (A ++ p :: B).Pairwise fun a b => key a < key b) :
    (A ++ p :: B).filter (fun x => key x ≤ key p) = A ++ [p] := by
  obtain ⟨-, hB, hAB⟩ := pairwise_append.mp h
  obtain ⟨hp, -⟩ := pairwise_cons.mp hB
  rw [filter_append, filter_cons_of_pos (by simp), filter_eq_self.mpr, filter_eq_nil_iff.mpr]
  · intro b hb hle
    exact absurd (of_decide_eq_true hle) (not_le.mpr (hp b hb))
  · exact fun a ha => decide_eq_true (hAB a ha p (.head _)).le

theorem filter_from (h : (A ++ p :: B).Pairwise fun a b => key a < key b) :
    (A ++ p :: B).filter (fun x => key p ≤ key x) = p :: B := by
  obtain ⟨-, hB, hAB⟩ := pairwise_append.mp h
  obtain ⟨hp, -⟩ := pairwise_cons.mp hB
  rw [filter_append, filter_cons_of_pos (by simp), filter_eq_nil_iff.mpr,
    filter_eq_self.mpr, nil_append]
  · exact fun b hb => decide_eq_true (hp b hb).le
  · intro a ha hle
    exact absurd (of_decide_eq_true hle) (not_le.mpr (hAB a ha p (.head _)))

end

end LedisDB
