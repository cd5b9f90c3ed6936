import Mathlib.Data.List.Basic
import Mathlib.Algebra.Order.Ring.Int

/-!
# Sequences laid out over the integers

`window h xs` places the elements of `xs` at the positions `h`, `h + 1`, …; all
other positions are empty. Growing and shrinking the sequence at either end
changes the layout at the positions concerned and nowhere else.
-/

namespace LedisDB

variable {α : Type*}

def window (h : ℤ) (xs : List α) (z : ℤ) : Option α :=
  if h ≤ z then xs[(z - h).toNat]? else none

@[simp] theorem window_nil (h z : ℤ) : window h ([] : List α) z = none := by
  simp [window]

theorem window_eq_some {h z : ℤ} {xs : List α} {a : α} :
    window h xs z = some a ↔ h ≤ z ∧ xs[(z - h).toNat]? = some a := by
  unfold window
  split_ifs with hz <;> simp [hz]

theorem window_isSome {h z : ℤ} {xs : List α} :
    (window h xs z).isSome ↔ h ≤ z ∧ z < h + xs.length := by
  unfold window
  split_ifs with hz
  · simp only [isSome_getElem?]
    omega
  · simp [hz]

theorem window_eq_none {h z : ℤ} {xs : List α} (hz : z < h ∨ h + xs.length ≤ z) :
    window h xs z = none := by
  rw [← Option.not_isSome_iff_eq_none, window_isSome]
  omega

section
variable (h z : ℤ) (xs : List α)
include h z xs

theorem window_shift : window h xs (h + z) = window 0 xs z := by
  unfold window
  rw [add_sub_cancel_left, sub_zero]
  split_ifs <;> first | rfl | omega

theorem window_concat (a : α) :
    window h (xs ++ [a]) z = if z = h + xs.length then some a else window h xs z := by
  unfold window
  by_cases hz : h ≤ z
  · rw [List.getElem?_append]
    split_ifs with h1 h2 h2
    · omega
    · rfl
    · simp [show (z - h).toNat - xs.length = 0 by omega]
    · rw [List.getElem?_eq_none (by simp; omega), List.getElem?_eq_none (by omega)]
  · rw [if_neg hz, if_neg hz, if_neg (by omega)]

theorem window_cons (a : α) :
    window (h - 1) (a :: xs) z = if z = h - 1 then some a else window h xs z := by
  unfold window
  by_cases hz : z = h - 1
  · simp [hz]
  · rw [if_neg hz]
    by_cases hle : h ≤ z
    · rw [if_pos hle, if_pos (by omega), show (z - (h - 1)).toNat = (z - h).toNat + 1 by omega,
        List.getElem?_cons_succ]
    · rw [if_neg hle, if_neg (by omega)]

theorem window_drop (k : ℕ) :
    window (h + k) (xs.drop k) z = if z < h + k then none else window h xs z := by
  unfold window
  by_cases hz : z < h + k
  · rw [if_pos hz, if_neg (by omega)]
  · rw [if_neg hz, if_pos (by omega), if_pos (by omega), List.getElem?_drop]
    congr 1
    omega

theorem window_take (k : ℕ) :
    window h (xs.take k) z = if h + k ≤ z then none else window h xs z := by
  unfold window
  split_ifs with h1 h2 h2
  · exact List.getElem?_eq_none (by simp; omega)
  · rw [List.getElem?_take, if_pos (by omega)]
  · rfl
  · rfl

theorem window_set {i : ℕ} (hi : i < xs.length) (a : α) :
    window h (xs.set i a) z = if z = h + i then some a else window h xs z := by
  unfold window
  by_cases hz : z = h + i
  · simp [hz, hi]
  · split_ifs with hle
    · exact List.getElem?_set_ne (by omega)
    · rfl

end

end LedisDB
