import Mathlib.Data.List.Basic

/-!
# Runs and forward simulation

The states of a machine that are reached by steps meeting a condition satisfy
every invariant of such steps.

A machine answers each call and moves to a new state; a specification says which
answers and moves are allowed. When every step of the machine is matched by an
allowed move between related states, every run of the machine is a run of the
specification. When the calls of one kind cannot be noticed, a run agrees with the run
in which they are not made.
-/

namespace LedisDB

variable {σ τ κ ρ : Type*}

/-- `s` is reached from `s₀` by calls that meet the condition `C` where they are made. -/
inductive Reaches (step : σ → κ → σ → Prop) (C : σ → κ → Prop) (s₀ : σ) : σ → Prop
  | refl : Reaches step C s₀ s₀
  | step {s s' : σ} {c : κ} (h : Reaches step C s₀ s) (hC : C s c) (hs : step s c s') :
      Reaches step C s₀ s'

theorem Reaches.next {step : σ → κ → σ → Prop} {C : σ → κ → Prop} {s₀ s s' : σ} (c : κ)
    (h : Reaches step C s₀ s) (hC : C s c) (hs : step s c s') : Reaches step C s₀ s' :=
  .step h hC hs

theorem Reaches.trans {step : σ → κ → σ → Prop} {C : σ → κ → Prop} {s₀ s s' : σ}
    (h : Reaches step C s₀ s) (h' : Reaches step C s s') : Reaches step C s₀ s' := by
  induction h' with
  | refl => exact h
  | step _ hC hs ih => exact ih.step hC hs

theorem Reaches.invariant {step : σ → κ → σ → Prop} {C : σ → κ → Prop} {s₀ s : σ} {I : σ → Prop}
    (h : Reaches step C s₀ s) (h0 : I s₀)
    (hstep : ∀ s c s', I s → C s c → step s c s' → I s') : I s := by
  induction h with
  | refl => exact h0
  | step _ hC hs ih => exact hstep _ _ _ ih hC hs

def answers (step : σ → κ → ρ × σ) : List κ → σ → List ρ
  | [], _ => []
  | c :: cs, s => (step s c).1 :: answers step cs (step s c).2

inductive Allows (spec : τ → κ → ρ → τ → Prop) : List κ → τ → List ρ → Prop
  | nil (a : τ) : Allows spec [] a []
  | cons {c : κ} {cs : List κ} {a a' : τ} {r : ρ} {rs : List ρ} (h : spec a c r a')
      (hs : Allows spec cs a' rs) : Allows spec (c :: cs) a (r :: rs)

theorem allows_of_simulation {step : σ → κ → ρ × σ} {spec : τ → κ → ρ → τ → Prop}
    {R : σ → τ → Prop} {C : κ → Prop}
    (hstep : ∀ s a c, R s a → C c → ∃ a', spec a c (step s c).1 a' ∧ R (step s c).2 a')
    {cs : List κ} (hcs : ∀ c ∈ cs, C c) {s : σ} {a : τ} (h : R s a) :
    Allows spec cs a (answers step cs s) := by
  induction cs generalizing s a with
  | nil => exact .nil a
  | cons c cs ih =>
    obtain ⟨a', hspec, hR⟩ := hstep s a c h (hcs c (.head _))
    exact .cons hspec (ih (fun c hc => hcs c (.tail _ hc)) hR)

def Meets (step : σ → κ → ρ × σ) (C : σ → κ → Prop) : List κ → σ → Prop
  | [], _ => True
  | c :: cs, s => C s c ∧ Meets step C cs (step s c).2

instance Meets.decidable (step : σ → κ → ρ × σ) (C : σ → κ → Prop) [∀ s c, Decidable (C s c)] :
    ∀ cs s, Decidable (Meets step C cs s)
  | [], _ => isTrue trivial
  | c :: cs, s => @instDecidableAnd _ _ _ (Meets.decidable step C cs (step s c).2)

theorem Meets.imp {step : σ → κ → ρ × σ} {C C' : σ → κ → Prop} {I : σ → Prop}
    (hI : ∀ s c, I s → C s c → I (step s c).2) (h : ∀ s c, I s → C s c → C' s c) {cs : List κ}
    {s : σ} (hs : I s) (hC : Meets step C cs s) : Meets step C' cs s := by
  induction cs generalizing s with
  | nil => trivial
  | cons c cs ih => exact ⟨h s c hs hC.1, ih (hI s c hs hC.1) hC.2⟩

theorem Meets.and {step : σ → κ → ρ × σ} {C : σ → κ → Prop} {P : κ → Prop} {cs : List κ} {s : σ}
    (hC : Meets step C cs s) (hP : ∀ c ∈ cs, P c) : Meets step (fun s c => C s c ∧ P c) cs s := by
  induction cs generalizing s with
  | nil => trivial
  | cons c cs ih =>
    exact ⟨⟨hC.1, hP c (.head _)⟩, ih hC.2 fun c hc => hP c (.tail _ hc)⟩

def after (step : σ → κ → ρ × σ) (cs : List κ) (s : σ) : σ :=
  cs.foldl (fun s c => (step s c).2) s

/-- Unwinding: when the calls of a kind leave related states related and the others keep them
so, a run is related to the run without the calls of that kind. -/
theorem after_filter {step : σ → κ → ρ × σ} {C : σ → κ → Prop} {R : σ → σ → Prop} {kept : κ → Bool}
    (hdrop : ∀ s a c, R s a → C s c → kept c = false → R (step s c).2 a)
    (hkeep : ∀ s a c, R s a → C s c → kept c = true → R (step s c).2 (step a c).2)
    {cs : List κ} {s a : σ} (h : R s a) (hC : Meets step C cs s) :
    R (after step cs s) (after step (cs.filter kept) a) := by
  induction cs generalizing s a with
  | nil => exact h
  | cons c cs ih =>
    cases hc : kept c with
    | false =>
      rw [List.filter_cons_of_neg (by simp [hc])]
      exact ih (hdrop s a c h hC.1 hc) hC.2
    | true =>
      rw [List.filter_cons_of_pos hc]
      exact ih (hkeep s a c h hC.1 hc) hC.2

theorem answers_eq_of_bisimulation {step : σ → κ → ρ × σ} {step' : τ → κ → ρ × τ}
    {R : σ → τ → Prop} {C : σ → κ → Prop}
    (hstep : ∀ s a c, R s a → C s c → (step s c).1 = (step' a c).1 ∧ R (step s c).2 (step' a c).2)
    {cs : List κ} {s : σ} {a : τ} (h : R s a) (hC : Meets step C cs s) :
    answers step cs s = answers step' cs a := by
  induction cs generalizing s a with
  | nil => rfl
  | cons c cs ih =>
    obtain ⟨hr, hR⟩ := hstep s a c h hC.1
    unfold answers
    rw [hr, ih hR hC.2]

end LedisDB
