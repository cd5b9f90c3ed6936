import Mathlib.Data.List.ReduceOption

/-!
# Aggregates over parts that may be missing

A number of sources each give a part or none. `gather` combines the parts that are there,
from left to right, and `gatherAll` does so when every source gives one. Both are computed
by taking in one source after the other.
-/

namespace LedisDB

variable {α : Type*} (f : α → α → α)

def gather (parts : List (Option α)) : Option α :=
  match parts.reduceOption with
  | [] => none
  | x :: xs => some (xs.foldl f x)

def gatherAll (parts : List (Option α)) : Option α :=
  if parts.all Option.isSome then gather f parts else none

def absorb : Option α → Option α → Option α
  | none, p => p
  | some a, none => some a
  | some a, some b => some (f a b)

def absorbNeeded : Option α → Option α → Option α
  | some a, some b => some (f a b)
  | _, _ => none

variable {f}

theorem gather_none_cons (ps : List (Option α)) : gather f (none :: ps) = gather f ps := rfl

theorem gather_absorb (a p : Option α) (ps : List (Option α)) :
    gather f (a :: p :: ps) = gather f (absorb f a p :: ps) := by
  cases a <;> cases p <;> rfl

theorem gatherAll_absorbNeeded (a p : Option α) (ps : List (Option α)) :
    gatherAll f (a :: p :: ps) = gatherAll f (absorbNeeded f a p :: ps) := by
  cases a <;> cases p <;> simp [gatherAll, absorbNeeded, gather]

theorem gather_singleton (a : Option α) : gather f [a] = a := by
  cases a <;> rfl

theorem gatherAll_singleton (a : Option α) : gatherAll f [a] = a := by
  cases a <;> rfl

theorem gather_eq_none_iff {parts : List (Option α)} :
    gather f parts = none ↔ ∀ p ∈ parts, p = none := by
  induction parts with
  | nil => simp [gather]
  | cons p ps ih =>
    cases p with
    | none => simp [gather_none_cons, ih]
    | some a => simp [gather]

theorem gatherAll_eq_none_iff {p : Option α} {ps : List (Option α)} :
    gatherAll f (p :: ps) = none ↔ none ∈ p :: ps := by
  rw [gatherAll]
  split_ifs with hall
  · have hsome := List.all_eq_true.mp hall
    refine iff_of_false (fun h => ?_) fun h => absurd (hsome none h) (by simp)
    have hp := gather_eq_none_iff.mp h p (.head _)
    simpa [hp] using hsome p (.head _)
  · refine iff_of_true rfl ?_
    by_contra hno
    refine hall (List.all_eq_true.mpr fun q hq => ?_)
    exact Option.isSome_iff_ne_none.mpr fun h => hno (h ▸ hq)

end LedisDB
