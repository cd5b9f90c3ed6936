import Mathlib.Data.List.Basic
import Mathlib.Algebra.Order.Ring.Nat

/-!
# Records written one after the other

A file of records is the concatenation of their encodings. `offsets` are the
positions where they start, and `whole` are the records whose encodings lie
inside a given number of leading elements: a cut leaves these, followed by a
part of the next record or of what comes after the last one.
-/

namespace LedisDB.Records

open List

variable {α β : Type*} (enc : α → List β)

def offsets : ℕ → List α → List ℕ
  | _, [] => []
  | p, x :: xs => p :: offsets (p + (enc x).length) xs

def whole : List α → ℕ → List α
  | [], _ => []
  | x :: xs, n => if (enc x).length ≤ n then x :: whole xs (n - (enc x).length) else []

theorem offsets_length (p : ℕ) (xs : List α) : (offsets enc p xs).length = xs.length := by
  induction xs generalizing p with
  | nil => rfl
  | cons x xs ih => simp [offsets, ih]

theorem offsets_append (p : ℕ) (xs ys : List α) :
    offsets enc p (xs ++ ys) =
      offsets enc p xs ++ offsets enc (p + (xs.flatMap enc).length) ys := by
  induction xs generalizing p with
  | nil => simp [offsets]
  | cons x xs ih => simp [offsets, ih, Nat.add_assoc]

theorem offsets_getElem? (p : ℕ) (xs : List α) (y : α) (ys : List α) :
    (offsets enc p (xs ++ y :: ys))[xs.length]? = some (p + (xs.flatMap enc).length) := by
  rw [offsets_append, getElem?_append_right (offsets_length enc p xs).le, offsets_length,
    Nat.sub_self]
  rfl

theorem whole_prefix (xs : List α) (n : ℕ) : whole enc xs n <+: xs := by
  induction xs generalizing n with
  | nil => exact prefix_rfl
  | cons x xs ih =>
    unfold whole
    split_ifs
    · exact (prefix_cons_inj x).mpr (ih _)
    · exact nil_prefix

theorem take_eq (xs : List α) (tail : List β) (n : ℕ) : ∃ rest,
    (xs.flatMap enc ++ tail).take n = (whole enc xs n).flatMap enc ++ rest ∧
    ((whole enc xs n = xs ∧ rest <+: tail) ∨
      ∃ y ys, xs = whole enc xs n ++ y :: ys ∧ rest <+: enc y ∧ rest.length < (enc y).length) := by
  induction xs generalizing n with
  | nil => exact ⟨tail.take n, by simp [whole], .inl ⟨rfl, take_prefix n tail⟩⟩
  | cons x xs ih =>
    unfold whole
    by_cases hx : (enc x).length ≤ n
    · obtain ⟨rest, hrest, hcase⟩ := ih (n - (enc x).length)
      refine ⟨rest, ?_, ?_⟩
      · rw [if_pos hx, flatMap_cons, append_assoc, take_append,
          take_of_length_le hx, hrest, flatMap_cons, append_assoc]
      · rw [if_pos hx]
        rcases hcase with ⟨hw, hr⟩ | ⟨y, ys, hxs, hr⟩
        · exact .inl ⟨by rw [hw], hr⟩
        · exact .inr ⟨y, ys, by rw [cons_append, ← hxs], hr⟩
    · refine ⟨(enc x).take n, ?_, .inr ⟨x, xs, ?_, take_prefix n _, ?_⟩⟩
      · rw [if_neg hx, flatMap_cons, append_assoc, take_append,
          Nat.sub_eq_zero_of_le (not_le.mp hx).le, take_zero, append_nil]
        rfl
      · rw [if_neg hx]
        rfl
      · rw [length_take]
        omega

end LedisDB.Records
