import Mathlib.Data.List.Pairwise
import Mathlib.Data.List.TakeWhile
import Mathlib.Tactic.Common

/-!
# Reading a list page by page

A server hands out a list in pages of `n` elements; a reader asks for the first
page with a start cursor and for the next one with the name of the last element it
got. `Pages` says that the answers are right for such cursors. A reader that stops
at an empty page has then read the list (`collectPages_eq`). A reader that stops at
a terminal cursor has read the list up to the first end of a full page whose name is
the terminal cursor.
-/

namespace LedisDB

open List

variable {κ α ε : Type*} {n : ℕ}

structure Pages (page : κ → Except ε (List α)) (name : α → κ) (start : κ) (n : ℕ)
    (E : List α) : Prop where
  first : page start = .ok (E.take n)
  next : ∀ A a B, E = A ++ a :: B → page (name a) = .ok (B.take n)

theorem filter_after {R : κ → κ → Prop} [DecidableRel R] (hR : ∀ a b, R a b → ¬ R b a)
    {name : α → κ} {A B : List α} {a : α}
    (hs : (A ++ a :: B).Pairwise fun x y => R (name x) (name y)) :
    (A ++ a :: B).filter (fun x => R (name a) (name x)) = B := by
  obtain ⟨-, hB, hAB⟩ := pairwise_append.mp hs
  obtain ⟨ha, -⟩ := pairwise_cons.mp hB
  have hself : ¬ R (name a) (name a) := fun h => hR _ _ h h
  rw [filter_append, filter_cons_of_neg (by simpa using hself),
    filter_eq_nil_iff.mpr, filter_eq_self.mpr, nil_append]
  · exact fun b hb => decide_eq_true (ha b hb)
  · intro x hx h
    exact hR _ _ (hAB x hx a (.head _)) (of_decide_eq_true h)

theorem Pages.of_sorted {R : κ → κ → Prop} [DecidableRel R] (hR : ∀ a b, R a b → ¬ R b a)
    {page : κ → Except ε (List α)} {name : α → κ} {start : κ} {E : List α}
    (hs : E.Pairwise fun x y => R (name x) (name y)) (hfirst : page start = .ok (E.take n))
    (hnext : ∀ a ∈ E, page (name a) = .ok ((E.filter fun x => R (name a) (name x)).take n)) :
    Pages page name start n E := by
  refine ⟨hfirst, ?_⟩
  rintro A a B rfl
  rw [hnext a (by simp), filter_after hR hs]

theorem Pages.map {γ : Type*} {page : κ → Except ε (List α)} {name : α → κ} {start : κ} {E : List α}
    (h : Pages page name start n E) (f : α → γ) (name' : γ → κ)
    (hname : ∀ a, name' (f a) = name a) :
    Pages (fun c => (page c).map fun p => p.map f) name' start n (E.map f) := by
  refine ⟨by rw [h.first, ← map_take]; rfl, fun A' b B' hE => ?_⟩
  obtain ⟨A, aB, rfl, rfl, haB⟩ := map_eq_append_iff.mp hE
  obtain ⟨a, B, rfl, rfl, rfl⟩ := map_eq_cons_iff.mp haB
  rw [hname, h.next A a B rfl, ← map_take]
  rfl

/-- Calls with the last element returned as cursor, until a page is empty. -/
def collectPages (page : κ → Except ε (List α)) (name : α → κ) : ℕ → κ → Option (List α)
  | 0, _ => none
  | fuel + 1, cursor =>
    match page cursor with
    | .error _ => none
    | .ok p =>
      match p.getLast? with
      | none => some []
      | some a => (collectPages page name fuel (name a)).map (p ++ ·)

section
variable {page : κ → Except ε (List α)} {name : α → κ} {start cursor : κ} {n fuel : ℕ}
  {E A B : List α}

theorem Pages.last (h : Pages page name start n E) (hE : E = A ++ B) {a : α}
    (ha : (B.take n).getLast? = some a) :
    E = (A ++ B.take n) ++ B.drop n ∧ page (name a) = .ok ((B.drop n).take n) := by
  obtain ⟨ys, hys⟩ := getLast?_eq_some_iff.mp ha
  have hsplit : E = (A ++ ys) ++ a :: B.drop n := by
    conv_lhs => rw [hE, ← take_append_drop n B, hys]
    simp
  refine ⟨?_, h.next _ a _ hsplit⟩
  rw [append_assoc, take_append_drop, hE]

theorem take_eq_nil (hn : 0 < n) (h : (B.take n).getLast? = none) : B = [] := by
  rw [getLast?_eq_none_iff, take_eq_nil_iff] at h
  exact h.resolve_left hn.ne'

theorem length_drop_lt (hn : 0 < n) {a : α} (h : (B.take n).getLast? = some a) :
    (B.drop n).length < B.length := by
  have hne : B ≠ [] := by
    rintro rfl
    simp at h
  have hpos := length_pos_iff.mpr hne
  rw [length_drop]
  omega

theorem Pages.collect_rest (h : Pages page name start n E) (hn : 0 < n) (hE : E = A ++ B)
    (hpage : page cursor = .ok (B.take n)) (hf : B.length < fuel) :
    collectPages page name fuel cursor = some B := by
  induction fuel generalizing A B cursor with
  | zero => omega
  | succ fuel ih =>
    cases hlast : (B.take n).getLast? with
    | none =>
      simp only [collectPages, hpage, hlast]
      rw [take_eq_nil hn hlast]
    | some a =>
      obtain ⟨hE', hpage'⟩ := h.last hE hlast
      have hlen := length_drop_lt hn hlast
      simp [collectPages, hpage, hlast, ih hE' hpage' (by omega)]

theorem collectPages_eq (h : Pages page name start n E) (hn : 0 < n) (hf : E.length < fuel) :
    collectPages page name fuel start = some E :=
  h.collect_rest hn (A := []) rfl h.first hf

/-- Requests with the cursor of the last reply, until it is the terminal one. -/
def visit [DecidableEq κ] (request : κ → Except ε (κ × List α)) (terminal : κ) :
    ℕ → κ → Option (List α)
  | 0, _ => none
  | fuel + 1, cursor =>
    match request cursor with
    | .error _ => none
    | .ok (next, p) =>
      if next = terminal then some p
      else (visit request terminal fuel next).map (p ++ ·)

def Replies (request : κ → Except ε (κ × List α)) (page : κ → Except ε (List α))
    (name : α → κ) (terminal : κ) (n : ℕ) : Prop := ∀ c p, page c = .ok p →
  (p.length < n → request c = .ok (terminal, p)) ∧
  ∀ a, p.getLast? = some a → ¬ p.length < n → request c = .ok (name a, p)

variable [DecidableEq κ] {request : κ → Except ε (κ × List α)} {terminal : κ}

section
variable (hr : Replies request page name terminal n) (hpage : page cursor = .ok (B.take n))
include hr hpage

theorem Replies.partly (hlen : B.length < n) :
    visit request terminal (fuel + 1) cursor = some B := by
  have hB := take_of_length_le hlen.le
  rw [hB] at hpage
  simp [visit, (hr _ _ hpage).1 hlen]

theorem Replies.full (hlen : n ≤ B.length) {a : α} (hlast : (B.take n).getLast? = some a) :
    visit request terminal (fuel + 1) cursor = if name a = terminal then some (B.take n)
      else (visit request terminal fuel (name a)).map (B.take n ++ ·) := by
  have hfull : ¬ (B.take n).length < n := by
    rw [length_take]
    omega
  simp [visit, (hr _ _ hpage).2 a hlast hfull]

end

theorem take_split (hn : 0 < n) (hlen : n ≤ B.length) :
    ∃ ys a, B.take n = ys ++ [a] ∧ (B.take n).getLast? = some a ∧ ys.length + 1 = n ∧
      B = ys ++ a :: B.drop n := by
  cases hlast : (B.take n).getLast? with
  | none =>
    rw [take_eq_nil hn hlast, length_nil] at hlen
    omega
  | some a =>
    obtain ⟨ys, hys⟩ := getLast?_eq_some_iff.mp hlast
    have hl := congrArg length hys
    rw [length_take, length_append, min_eq_left hlen] at hl
    refine ⟨ys, a, hys, rfl, hl.symm, ?_⟩
    conv_lhs => rw [← take_append_drop n B, hys]
    simp

/-! The cursor of a request may be translated, but only the terminal one. -/

variable {translate : κ → κ}

section
variable (h : Pages page name start n E) (hn : 0 < n)
  (hr : Replies request (fun c => page (translate c)) name terminal n)
  (htr : ∀ c, c ≠ terminal → translate c = c) (hE : E = A ++ B)
  (hpage : page (translate cursor) = .ok (B.take n)) (hf : B.length < fuel)
include h hn hr htr hE hpage hf

theorem Pages.visit_rest
    (hends : ∀ V a W, B = V ++ a :: W → name a = terminal → n ∣ V.length + 1 → W = []) :
    visit request terminal fuel cursor = some B := by
  induction fuel generalizing A B cursor with
  | zero => omega
  | succ fuel ih =>
    rcases lt_or_ge B.length n with hlen | hlen
    · exact hr.partly hpage hlen
    · obtain ⟨ys, a, hys, hlast, hl, hB⟩ := take_split hn hlen
      obtain ⟨hE', hpage'⟩ := h.last hE hlast
      rw [hr.full hpage hlen hlast]
      split_ifs with hname
      · have hnil := hends ys a _ hB hname (hl ▸ Nat.dvd_refl n)
        rw [take_of_length_le (drop_eq_nil_iff.mp hnil)]
      · have hlt := length_drop_lt hn hlast
        rw [ih hE' (by rwa [htr _ hname]) (by omega), Option.map_some, take_append_drop]
        intro V b W hV hb hdvd
        refine hends (B.take n ++ V) b W ?_ hb ?_
        · rw [append_assoc, ← hV, take_append_drop]
        · rw [length_append, length_take, min_eq_left hlen, Nat.add_assoc]
          exact Nat.dvd_add (Nat.dvd_refl n) hdvd

theorem Pages.visit_part (hnd : (B.map name).Nodup) {V W : List α} {b : α} (hB : B = V ++ b :: W)
    (hb : name b = terminal) (hdvd : n ∣ V.length + 1) :
    visit request terminal fuel cursor = some (V ++ [b]) := by
  induction fuel generalizing A B V cursor with
  | zero => omega
  | succ fuel ih =>
    have hle := Nat.le_of_dvd (Nat.succ_pos _) hdvd
    have hlen : n ≤ B.length := by
      rw [hB, length_append, length_cons]
      omega
    obtain ⟨ys, a, hys, hlast, hl, hB'⟩ := take_split hn hlen
    obtain ⟨hE', hpage'⟩ := h.last hE hlast
    rw [hr.full hpage hlen hlast]
    -- the element with the terminal name is the end of this page or of a later one
    rcases hle.eq_or_lt with heq | hlt
    · have hVb : B.take n = V ++ [b] := by
        rw [hB, heq, take_append, take_of_length_le (by omega)]
        simp
      have hab : a = b := by
        rw [hVb, getLast?_concat] at hlast
        exact (Option.some.inj hlast).symm
      rw [hab, if_pos hb, hVb]
    · have hV : V = B.take n ++ V.drop n := by
        rw [hB, take_append_of_le_length (by omega), take_append_drop]
      have hdrop : B.drop n = V.drop n ++ b :: W := by
        rw [hB, drop_append_of_le_length (by omega)]
      have hname : name a ≠ terminal := by
        intro ha
        have hmem : name a ∈ (B.take n).map name := mem_map_of_mem (mem_of_getLast? hlast)
        have hmem' : name a ∈ (V.drop n ++ b :: W).map name := by
          rw [ha, ← hb]
          exact mem_map_of_mem (by simp)
        rw [← take_append_drop n B, map_append, hdrop] at hnd
        exact (nodup_append.mp hnd).2.2 _ hmem _ hmem' rfl
      have hdvd' : n ∣ (V.drop n).length + 1 := by
        have hsum : V.length + 1 = n + ((V.drop n).length + 1) := by
          rw [length_drop]
          omega
        rw [hsum] at hdvd
        exact (Nat.dvd_add_right (Nat.dvd_refl n)).mp hdvd
      have hlt' := length_drop_lt hn hlast
      have hnd' := hnd.sublist ((drop_sublist n B).map name)
      rw [if_neg hname, ih hE' (by rwa [htr _ hname]) (by omega) hnd' hdrop hdvd', Option.map_some,
        ← append_assoc, ← hV]

end

theorem visit_flatMap {γ : Type*} (g : α → List γ) (fuel : ℕ) (cursor : κ) :
    visit (fun c => (request c).map fun a => (a.1, a.2.flatMap g)) terminal fuel cursor =
      (visit request terminal fuel cursor).map fun p => p.flatMap g := by
  induction fuel generalizing cursor with
  | zero => rfl
  | succ fuel ih =>
    rw [visit, visit]
    cases request cursor with
    | error e => rfl
    | ok a =>
      change (if a.1 = terminal then some (a.2.flatMap g) else
        (visit (fun c => (request c).map fun a => (a.1, a.2.flatMap g)) terminal fuel a.1).map
          (a.2.flatMap g ++ ·)) = (if a.1 = terminal then some a.2 else
        (visit request terminal fuel a.1).map (a.2 ++ ·)).map fun p => p.flatMap g
      split_ifs
      · rfl
      · rw [ih, Option.map_map, Option.map_map]
        congr 1
        funext p
        simp

section
variable (h : Pages page name start n E) (hn : 0 < n)
  (hr : Replies request (fun c => page (translate c)) name terminal n)
  (htr : ∀ c, c ≠ terminal → translate c = c) (hstart : translate cursor = start)
  (hf : E.length < fuel) (hnd : (E.map name).Nodup)
include h hn hr htr hstart hf hnd

theorem visit_eq_iff :
    visit request terminal fuel cursor = some E ↔
      ∀ V a W, E = V ++ a :: W → name a = terminal → n ∣ V.length + 1 → W = [] := by
  constructor
  · intro hv V a W hE ha hdvd
    rw [h.visit_part hn hr htr (A := []) rfl (hstart ▸ h.first) hf hnd hE ha hdvd] at hv
    have hsplit := Option.some.inj hv
    rw [hE] at hsplit
    have := append_cancel_left hsplit
    exact (cons.inj this).2.symm
  · exact h.visit_rest hn hr htr (A := []) rfl (hstart ▸ h.first) hf

theorem visit_prefix_list {p : List α}
    (hp : visit request terminal fuel cursor = some p) : p <+: E := by
  by_cases hends : ∀ V a W, E = V ++ a :: W → name a = terminal → n ∣ V.length + 1 → W = []
  · rw [(visit_eq_iff h hn hr htr hstart hf hnd).mpr hends] at hp
    cases hp
    exact prefix_rfl
  · push Not at hends
    obtain ⟨V, a, W, hE, ha, hdvd, -⟩ := hends
    rw [h.visit_part hn hr htr (A := []) rfl (hstart ▸ h.first) hf hnd hE ha hdvd] at hp
    cases hp
    exact ⟨W, by rw [hE]; simp⟩

end

end

end LedisDB
