import LedisDB.ListSlices
import LedisDB.Server.Requests

/-!
# List commands

LINDEX, LRANGE and LTRIM of `server/cmd_list.go`. The indexes are parsed as numbers of 64
bits and cut down to their low 32 bits before they are counted from either end. A command
answers as a sequence does when both numbers select the same positions, and in a sequence
without repetition only then.
-/

namespace LedisDB

open Requests (OK)

namespace DB

end DB

/-- The positions that a range selects in a sequence of length `n`, from the first number to
before the second. -/
def selected (n : ℕ) (start stop : ℤ) : ℕ × ℕ :=
  ((position n start).toNat, min (position n stop + 1).toNat n)

/-- The low 32 bits select the same positions as the numbers, or both select none. -/
def LowBitsSelect (n : ℕ) (start stop : Int64) : Prop :=
  let (a, b) := selected n start.toInt stop.toInt
  let (c, d) := selected n start.toInt32.toInt stop.toInt32.toInt
  c = a ∧ d = b ∨ d ≤ c ∧ b ≤ a

instance (n : ℕ) (start stop : Int64) : Decidable (LowBitsSelect n start stop) :=
  inferInstanceAs (Decidable (_ ∨ _))

theorem take_drop_eq {α : Type*} {l : List α} {a b c d : ℕ}
    (h : c = a ∧ d = b ∨ d ≤ c ∧ b ≤ a) : (l.take d).drop c = (l.take b).drop a := by
  rcases h with ⟨rfl, rfl⟩ | ⟨hd, hb⟩
  · rfl
  · rw [List.drop_eq_nil_of_le ((List.length_take_le _ _).trans hd),
      List.drop_eq_nil_of_le ((List.length_take_le _ _).trans hb)]

theorem take_drop_inj {α : Type*} {l : List α} (hl : l.Nodup) {a b c d : ℕ} (hb : b ≤ l.length)
    (hd : d ≤ l.length) (h : (l.take d).drop c = (l.take b).drop a) :
    c = a ∧ d = b ∨ d ≤ c ∧ b ≤ a := by
  have hlen := congrArg List.length h
  simp only [List.length_drop, List.length_take, min_eq_left hb, min_eq_left hd] at hlen
  by_cases ha : b ≤ a
  · exact .inr ⟨by omega, ha⟩
  · have hhead := congrArg (fun l => l[0]?) h
    simp only [List.getElem?_drop, Nat.add_zero] at hhead
    rw [List.getElem?_take_of_lt (by omega), List.getElem?_take_of_lt (by omega)] at hhead
    have hca : c = a := (List.getElem?_inj (by omega) hl).mp hhead
    exact .inl ⟨hca, by omega⟩

section
variable {db : DB} {env : Env} {st : State} {key arg arg' : Bytes} {q : Sequence}
  {start stop : Int64}

theorem Sequence.slice_eq (q : Sequence) (start stop : ℤ) :
    q.slice start stop = (q.items.take (selected q.items.length start stop).2).drop
      (selected q.items.length start stop).1 := by
  rw [slice, List.take_eq_take_min]
  rfl

theorem LowBitsSelect.slice (h : LowBitsSelect q.items.length start stop) :
    q.slice start.toInt32.toInt stop.toInt32.toInt = q.slice start.toInt stop.toInt := by
  rw [q.slice_eq, q.slice_eq]
  exact take_drop_eq h

theorem LowBitsSelect.of_slice (hq : q.items.Nodup)
    (h : q.slice start.toInt32.toInt stop.toInt32.toInt = q.slice start.toInt stop.toInt) :
    LowBitsSelect q.items.length start stop := by
  rw [q.slice_eq, q.slice_eq] at h
  exact take_drop_inj hq (min_le_right _ _) (min_le_right _ _) h

section
variable (hk : ValidKey key) (h : ListRep db st.store key q)
  (hstart : StrInt64 (some arg) = .ok start)
include hk h hstart

end

section
variable (hs : StoreWf st.store) (hk : ValidKey key) (h : ListRep db st.store key q)
  (hstart : StrInt64 (some arg) = .ok start) (hstop : StrInt64 (some arg') = .ok stop)
include hs hk h hstart hstop

end

end

end LedisDB
