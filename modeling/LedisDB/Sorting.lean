import Mathlib.Data.List.Sort

/-!
# Sorting by a comparison

A library sort promises a permutation for every comparison and a sorted one for a strict
weak order of the elements. Insertion keeps that promise.
-/

namespace LedisDB.Sorting

variable {α κ : Type}

def Incomparable (less : α → α → Bool) (a b : α) : Prop := ¬ less a b ∧ ¬ less b a

structure StrictWeakOn (less : α → α → Bool) (l : List α) : Prop where
  irrefl : ∀ a ∈ l, ¬ less a a
  asymm : ∀ a ∈ l, ∀ b ∈ l, less a b → ¬ less b a
  trans : ∀ a ∈ l, ∀ b ∈ l, ∀ c ∈ l, less a b → less b c → less a c
  incomparable : ∀ a ∈ l, ∀ b ∈ l, ∀ c ∈ l,
    Incomparable less a b → Incomparable less b c → Incomparable less a c

section
variable {less : α → α → Bool} {l l' : List α}

theorem StrictWeakOn.of_key [LinearOrder κ] {key : α → κ}
    (h : ∀ a ∈ l, ∀ b ∈ l, less a b = true ↔ key a < key b) : StrictWeakOn less l where
  irrefl a ha := by
    rw [h a ha a ha]
    exact lt_irrefl _
  asymm a ha b hb := by
    rw [h a ha b hb, h b hb a ha]
    exact lt_asymm
  trans a ha b hb c hc := by
    rw [h a ha b hb, h b hb c hc, h a ha c hc]
    exact lt_trans
  incomparable a ha b hb c hc := by
    unfold Incomparable
    rw [h a ha b hb, h b hb a ha, h b hb c hc, h c hc b hb, h a ha c hc, h c hc a ha]
    intro hab hbc
    obtain heq := le_antisymm (not_lt.mp hab.2) (not_lt.mp hab.1)
    rwa [heq]

theorem StrictWeakOn.swap (h : StrictWeakOn less l) : StrictWeakOn (fun a b => less b a) l where
  irrefl := h.irrefl
  asymm a ha b hb := h.asymm b hb a ha
  trans a ha b hb c hc hab hbc := h.trans c hc b hb a ha hbc hab
  incomparable a ha b hb c hc hab hbc := h.incomparable a ha b hb c hc hab.symm hbc.symm |>.symm

def directed (desc : Bool) (less : α → α → Bool) : α → α → Bool :=
  if desc then fun a b => less b a else less

theorem StrictWeakOn.directed (h : StrictWeakOn less l) (desc : Bool) :
    StrictWeakOn (directed desc less) l := by
  cases desc with
  | false => exact h
  | true => exact h.swap

theorem StrictWeakOn.mono (h : StrictWeakOn less l) (hsub : ∀ a ∈ l', a ∈ l) :
    StrictWeakOn less l' where
  irrefl a ha := h.irrefl a (hsub a ha)
  asymm a ha b hb := h.asymm a (hsub a ha) b (hsub b hb)
  trans a ha b hb c hc := h.trans a (hsub a ha) b (hsub b hb) c (hsub c hc)
  incomparable a ha b hb c hc := h.incomparable a (hsub a ha) b (hsub b hb) c (hsub c hc)

theorem StrictWeakOn.not_less_trans (h : StrictWeakOn less l) {a b c : α} (ha : a ∈ l) (hb : b ∈ l)
    (hc : c ∈ l) (hba : ¬ less b a) (hcb : ¬ less c b) : ¬ less c a := by
  intro hca
  by_cases hab : less a b
  · exact hcb (h.trans c hc a ha b hb hca hab)
  by_cases hbc : less b c
  · exact hba (h.trans b hb c hc a ha hbc hca)
  · exact (h.incomparable a ha b hb c hc ⟨hab, hba⟩ ⟨hbc, hcb⟩).2 hca

end

def Ordered (less : α → α → Bool) (l : List α) : Prop := l.Pairwise fun a b => ¬ less b a

structure Sorter where
  sort : {α : Type} → (α → α → Bool) → List α → List α
  perm : ∀ {α : Type} (less : α → α → Bool) (l : List α), (sort less l).Perm l
  ordered : ∀ {α : Type} (less : α → α → Bool) (l : List α),
    StrictWeakOn less l → Ordered less (sort less l)

section
variable (less : α → α → Bool)

def insertBy (a : α) : List α → List α
  | [] => [a]
  | b :: l => if less b a then b :: insertBy a l else a :: b :: l

def insertionSort : List α → List α
  | [] => []
  | a :: l => insertBy less a (insertionSort l)

theorem insertBy_perm (a : α) (l : List α) : (insertBy less a l).Perm (a :: l) := by
  induction l with
  | nil => exact .refl _
  | cons b l ih =>
    rw [insertBy]
    split_ifs
    · exact (ih.cons b).trans (.swap a b l)
    · exact .refl _

theorem insertionSort_perm (l : List α) : (insertionSort less l).Perm l := by
  induction l with
  | nil => exact .refl _
  | cons a l ih => exact (insertBy_perm less a _).trans (ih.cons a)

variable {less}

theorem insertBy_ordered {a : α} {l : List α} (h : StrictWeakOn less (a :: l))
    (hl : Ordered less l) : Ordered less (insertBy less a l) := by
  induction l with
  | nil => exact List.pairwise_singleton _ a
  | cons b l ih =>
    obtain ⟨hb, hl⟩ := List.pairwise_cons.mp hl
    rw [insertBy]
    split_ifs with hba
    · refine List.pairwise_cons.mpr ⟨fun c hc => ?_, ih (h.mono ?_) hl⟩
      · rcases List.mem_cons.mp ((insertBy_perm less a l).mem_iff.mp hc) with rfl | hc
        · exact h.asymm b (by simp) c (by simp) hba
        · exact hb c hc
      · intro c hc
        rcases List.mem_cons.mp hc with rfl | hc <;> simp [*]
    · refine List.pairwise_cons.mpr ⟨fun c hc => ?_, List.pairwise_cons.mpr ⟨hb, hl⟩⟩
      rcases List.mem_cons.mp hc with rfl | hc
      · exact hba
      · exact h.not_less_trans (by simp) (by simp) (by simp [hc]) hba (hb c hc)

theorem insertionSort_ordered {l : List α} (h : StrictWeakOn less l) :
    Ordered less (insertionSort less l) := by
  induction l with
  | nil => exact .nil
  | cons a l ih =>
    refine insertBy_ordered (h.mono fun b hb => ?_) (ih (h.mono fun b hb => .tail _ hb))
    exact ((insertionSort_perm less l).cons a).mem_iff.mp hb

end

def Sorter.insertion : Sorter where
  sort := insertionSort
  perm := insertionSort_perm
  ordered _ _ := insertionSort_ordered

end LedisDB.Sorting
