import Mathlib.Data.List.Induction
import Mathlib.Data.List.Sort
import Mathlib.Data.Option.Basic
import Mathlib.Tactic.Common

/-!
# Finite ordered maps and atomic batches of writes

An ordered map is a list of bindings with strictly increasing keys, so a scan
in key order is the list itself and two maps with the same bindings are equal.
A batch is a list of puts and deletes applied in order. What a batch does to
one key is decided by its last write to that key, and a batch that does not
mention a key leaves it alone.
-/

namespace LedisDB

open List

structure OrderedMap (κ : Type*) (β : Type*) [LinearOrder κ] where
  entries : List (κ × β)
  sorted : entries.Pairwise (fun a b => a.1 < b.1)

namespace OrderedMap

variable {κ β : Type*} [LinearOrder κ]

def lookup (k : κ) : List (κ × β) → Option β
  | [] => none
  | e :: es => if e.1 = k then some e.2 else lookup k es

def insertSorted (k : κ) (v : β) : List (κ × β) → List (κ × β)
  | [] => [(k, v)]
  | e :: es =>
    if k < e.1 then (k, v) :: e :: es
    else if e.1 < k then e :: insertSorted k v es
    else (k, v) :: es

theorem mem_insertSorted_key {k : κ} {v : β} {es : List (κ × β)} {e : κ × β}
    (he : e ∈ insertSorted k v es) : e.1 = k ∨ e ∈ es := by
  induction es with
  | nil => simp_all [insertSorted]
  | cons a es ih =>
    simp only [insertSorted] at he
    split_ifs at he <;> simp only [mem_cons] at he ⊢
    · rcases he with rfl | h
      · exact .inl rfl
      · exact .inr h
    · rcases he with rfl | h
      · exact .inr (.inl rfl)
      · exact (ih h).imp_right .inr
    · rcases he with rfl | h
      · exact .inl rfl
      · exact .inr (.inr h)

theorem insertSorted_sorted (k : κ) (v : β) {es : List (κ × β)}
    (hs : es.Pairwise (fun a b => a.1 < b.1)) :
    (insertSorted k v es).Pairwise (fun a b => a.1 < b.1) := by
  induction es with
  | nil => simp [insertSorted]
  | cons a es ih =>
    obtain ⟨ha, hs'⟩ := pairwise_cons.mp hs
    simp only [insertSorted]
    split_ifs with h₁ h₂
    · refine pairwise_cons.mpr ⟨?_, hs⟩
      intro b hb
      rcases mem_cons.mp hb with rfl | hb
      · exact h₁
      · exact h₁.trans (ha b hb)
    · refine pairwise_cons.mpr ⟨?_, ih hs'⟩
      intro b hb
      rcases mem_insertSorted_key hb with hk | hb
      · rwa [hk]
      · exact ha b hb
    · have hk := le_antisymm (not_lt.mp h₂) (not_lt.mp h₁)
      refine pairwise_cons.mpr ⟨?_, hs'⟩
      intro b hb
      exact hk ▸ ha b hb

theorem lookup_eq_none {k : κ} {es : List (κ × β)} (h : ∀ e ∈ es, e.1 ≠ k) :
    lookup k es = none := by
  induction es with
  | nil => rfl
  | cons a es ih =>
    rw [lookup, if_neg (h a (.head _))]
    exact ih (fun e he => h e (.tail _ he))

theorem lookup_insertSorted (k x : κ) (v : β) {es : List (κ × β)}
    (hs : es.Pairwise (fun a b => a.1 < b.1)) :
    lookup x (insertSorted k v es) = if x = k then some v else lookup x es := by
  induction es with
  | nil => simp [insertSorted, lookup, eq_comm]
  | cons a es ih =>
    obtain ⟨ha, hs'⟩ := pairwise_cons.mp hs
    by_cases hx : x = k
    · subst hx
      simp only [insertSorted]
      split_ifs with h₁ h₂
      · simp [lookup]
      · simp [lookup, h₂.ne, ih hs']
      · simp [lookup]
    · have hx' := Ne.symm hx
      simp only [insertSorted]
      split_ifs with h₁ h₂
      · simp [lookup, hx']
      · simp [lookup, ih hs', hx]
      · have hk := le_antisymm (not_lt.mp h₂) (not_lt.mp h₁)
        simp [lookup, hx', ← hk]

theorem lookup_eq_some_iff {k : κ} {v : β} {es : List (κ × β)}
    (hs : es.Pairwise (fun a b => a.1 < b.1)) : lookup k es = some v ↔ (k, v) ∈ es := by
  induction es with
  | nil => simp [lookup]
  | cons a es ih =>
    obtain ⟨ha, hs'⟩ := pairwise_cons.mp hs
    by_cases hk : a.1 = k
    · have hn : (k, v) ∉ es := fun h => absurd (ha _ h) (by simp [hk])
      rw [lookup, if_pos hk, mem_cons]
      constructor
      · intro h
        exact .inl (Prod.ext hk.symm (Option.some.inj h).symm)
      · rintro (h | h)
        · rw [← h]
        · exact absurd h hn
    · rw [lookup, if_neg hk, ih hs', mem_cons]
      constructor
      · exact .inr
      · rintro (h | h)
        · exact absurd (congrArg Prod.fst h).symm hk
        · exact h

def empty : OrderedMap κ β := ⟨[], List.Pairwise.nil⟩

def get (m : OrderedMap κ β) (k : κ) : Option β := lookup k m.entries

def insert (m : OrderedMap κ β) (k : κ) (v : β) : OrderedMap κ β :=
  ⟨insertSorted k v m.entries, insertSorted_sorted k v m.sorted⟩

def erase (m : OrderedMap κ β) (k : κ) : OrderedMap κ β :=
  ⟨m.entries.filter (fun e => e.1 ≠ k), m.sorted.filter _⟩

def keys (m : OrderedMap κ β) : List κ := m.entries.map Prod.fst

@[simp] theorem get_empty (k : κ) : (empty : OrderedMap κ β).get k = none := rfl

theorem get_eq_some_iff {m : OrderedMap κ β} {k : κ} {v : β} :
    m.get k = some v ↔ (k, v) ∈ m.entries := lookup_eq_some_iff m.sorted

theorem get_insert (m : OrderedMap κ β) (k x : κ) (v : β) :
    (m.insert k v).get x = if x = k then some v else m.get x :=
  lookup_insertSorted k x v m.sorted

theorem get_erase (m : OrderedMap κ β) (k x : κ) :
    (m.erase k).get x = if x = k then none else m.get x := by
  split_ifs with h
  · subst h
    exact lookup_eq_none (by simp [erase])
  · apply Option.ext
    intro v
    rw [get_eq_some_iff, get_eq_some_iff]
    simp [erase, h]

theorem keys_nodup (m : OrderedMap κ β) : m.keys.Nodup := by
  rw [keys, List.Nodup, pairwise_map]
  exact m.sorted.imp (fun h => h.ne)

theorem sorted_ext {es fs : List (κ × β)} (hes : es.Pairwise (fun a b => a.1 < b.1))
    (hfs : fs.Pairwise (fun a b => a.1 < b.1)) (h : ∀ e, e ∈ es ↔ e ∈ fs) : es = fs := by
  have hp := (perm_ext_iff_of_nodup (hes.imp fun hlt he => hlt.ne (congrArg Prod.fst he))
      (hfs.imp fun hlt he => hlt.ne (congrArg Prod.fst he))).mpr h
  have hanti : ∀ a b : κ × β, a ∈ es → b ∈ fs → a.1 < b.1 → b.1 < a.1 → a = b :=
    fun a b _ _ hab hba => absurd hab (not_lt.mpr hba.le)
  exact hp.eq_of_pairwise hanti hes hfs

theorem ext_entries {m n : OrderedMap κ β} (h : m.entries = n.entries) : m = n := by
  cases n
  subst h
  rfl

theorem ext_get {m n : OrderedMap κ β} (h : ∀ k, m.get k = n.get k) : m = n := by
  have hmem : ∀ e, e ∈ m.entries ↔ e ∈ n.entries := by
    intro e
    have he := h e.1
    constructor
    · intro hm
      rw [get_eq_some_iff.mpr hm] at he
      exact get_eq_some_iff.mp he.symm
    · intro hn
      rw [get_eq_some_iff.mpr hn] at he
      exact get_eq_some_iff.mp he
  exact ext_entries (sorted_ext m.sorted n.sorted hmem)

theorem insert_entries_of_lt {m : OrderedMap κ β} {k : κ} (v : β)
    (h : ∀ e ∈ m.entries, e.1 < k) : (m.insert k v).entries = m.entries ++ [(k, v)] := by
  apply sorted_ext (m.insert k v).sorted
  · refine pairwise_append.mpr ⟨m.sorted, pairwise_singleton _ _, ?_⟩
    intro a ha b hb
    rw [mem_singleton.mp hb]
    exact h a ha
  · intro e
    have hget := get_insert m k e.1 v
    rw [← get_eq_some_iff, hget, mem_append, mem_singleton, ← get_eq_some_iff]
    split_ifs with hk
    · have hnone : m.get e.1 ≠ some e.2 := fun hsome =>
        absurd hk (h e (get_eq_some_iff.mp hsome)).ne
      rw [or_iff_right hnone, Prod.ext_iff, Option.some.injEq]
      exact ⟨fun hv => ⟨hk, hv.symm⟩, fun hv => hv.2.symm⟩
    · simp [Prod.ext_iff, hk]

theorem erase_entries_head {m : OrderedMap κ β} {e : κ × β} {es : List (κ × β)}
    (h : m.entries = e :: es) : (m.erase e.1).entries = es := by
  have hsorted := m.sorted
  rw [h] at hsorted
  change m.entries.filter (fun a => a.1 ≠ e.1) = es
  rw [h, filter_cons_of_neg (by simp), filter_eq_self]
  intro a ha
  simpa using ((pairwise_cons.mp hsorted).1 a ha).ne'

theorem insert_eq_self {m : OrderedMap κ β} {k : κ} {v : β} (h : m.get k = some v) :
    m.insert k v = m := by
  apply ext_get
  intro x
  rw [get_insert]
  split_ifs with hx
  · rw [hx, h]
  · rfl

theorem foldl_insert_eq_self {m : OrderedMap κ β} {es : List (κ × β)}
    (h : ∀ e ∈ es, e ∈ m.entries) : es.foldl (fun m e => m.insert e.1 e.2) m = m := by
  induction es with
  | nil => rfl
  | cons e es ih =>
    rw [foldl_cons, insert_eq_self (get_eq_some_iff.mpr (h e (.head _)))]
    exact ih fun a ha => h a (.tail _ ha)

end OrderedMap

inductive WriteOp (κ : Type*) (β : Type*)
  | put (k : κ) (v : β)
  | delete (k : κ)
  deriving DecidableEq

namespace WriteOp

variable {κ β : Type*}

def key : WriteOp κ β → κ
  | put k _ => k
  | delete k => k

def value : WriteOp κ β → Option β
  | put _ v => some v
  | delete _ => none

@[simp] theorem key_put (k : κ) (v : β) : (put k v).key = k := rfl
@[simp] theorem key_delete (k : κ) : (delete k : WriteOp κ β).key = k := rfl
@[simp] theorem value_put (k : κ) (v : β) : (put k v).value = some v := rfl
@[simp] theorem value_delete (k : κ) : (delete k : WriteOp κ β).value = none := rfl

end WriteOp

namespace OrderedMap

variable {κ β : Type*} [LinearOrder κ]

def applyOp (m : OrderedMap κ β) : WriteOp κ β → OrderedMap κ β
  | .put k v => m.insert k v
  | .delete k => m.erase k

def applyBatch (m : OrderedMap κ β) (b : List (WriteOp κ β)) : OrderedMap κ β :=
  b.foldl applyOp m

def lastWrite (x : κ) : List (WriteOp κ β) → Option (Option β)
  | [] => none
  | o :: b => (lastWrite x b).or (if o.key = x then some o.value else none)

@[simp] theorem lastWrite_nil (x : κ) : lastWrite x ([] : List (WriteOp κ β)) = none := rfl

theorem lastWrite_cons (x : κ) (o : WriteOp κ β) (b : List (WriteOp κ β)) :
    lastWrite x (o :: b) = (lastWrite x b).or (if o.key = x then some o.value else none) := rfl

theorem lastWrite_append (x : κ) (a b : List (WriteOp κ β)) :
    lastWrite x (a ++ b) = (lastWrite x b).or (lastWrite x a) := by
  induction a with
  | nil => simp
  | cons o a ih => simp [lastWrite_cons, ih, Option.or_assoc]

theorem lastWrite_eq_none {x : κ} {b : List (WriteOp κ β)} (h : ∀ o ∈ b, o.key ≠ x) :
    lastWrite x b = none := by
  induction b with
  | nil => rfl
  | cons o b ih =>
    rw [lastWrite_cons, if_neg (h o (.head _)), ih (fun p hp => h p (.tail _ hp))]
    rfl

section
variable (m : OrderedMap κ β)
include m

theorem get_applyOp (o : WriteOp κ β) (x : κ) :
    (m.applyOp o).get x = if o.key = x then o.value else m.get x := by
  cases o with
  | put k v => simp [applyOp, get_insert, eq_comm]
  | delete k => simp [applyOp, get_erase, eq_comm]

theorem applyOp_comm (o o' : WriteOp κ β) (h : o.key ≠ o'.key) :
    (m.applyOp o).applyOp o' = (m.applyOp o').applyOp o := by
  apply ext_get
  intro k
  simp only [get_applyOp]
  by_cases ho : o.key = k
  · rw [if_neg (fun h' => h (ho.trans h'.symm)), if_pos ho, if_pos ho]
  · simp [ho]

theorem get_applyBatch (b : List (WriteOp κ β)) (x : κ) :
    (m.applyBatch b).get x = (lastWrite x b).getD (m.get x) := by
  induction b generalizing m with
  | nil => rfl
  | cons o b ih =>
    rw [applyBatch, foldl_cons, ← applyBatch, ih, lastWrite_cons, get_applyOp]
    cases lastWrite x b with
    | some r => rfl
    | none => by_cases h : o.key = x <;> simp [h]

theorem get_applyBatch_of_not_mem {b : List (WriteOp κ β)} {x : κ}
    (h : ∀ o ∈ b, o.key ≠ x) : (m.applyBatch b).get x = m.get x := by
  rw [get_applyBatch, lastWrite_eq_none h]
  rfl

@[simp] theorem get_applyBatch_put (x : κ) (v : β) : (m.applyBatch [.put x v]).get x = some v := by
  rw [applyBatch, foldl_cons, foldl_nil, get_applyOp]
  exact if_pos rfl

theorem applyBatch_append (a b : List (WriteOp κ β)) :
    m.applyBatch (a ++ b) = (m.applyBatch a).applyBatch b := foldl_append

theorem applyBatch_applyBatch_self (b : List (WriteOp κ β)) :
    (m.applyBatch b).applyBatch b = m.applyBatch b := by
  apply ext_get
  intro x
  rw [get_applyBatch (m.applyBatch b), get_applyBatch m]
  cases lastWrite x b <;> rfl

@[simp] theorem applyBatch_nil : m.applyBatch [] = m := rfl

theorem applyBatch_of_initial {a b : List (WriteOp κ β)} (h : a <+: b) :
    (m.applyBatch a).applyBatch b = m.applyBatch b := by
  obtain ⟨c, rfl⟩ := h
  rw [applyBatch_append, applyBatch_applyBatch_self, ← applyBatch_append]

theorem applyBatch_of_contained {a b : List (WriteOp κ β)} (h : a <:+: b) :
    (m.applyBatch a).applyBatch b = m.applyBatch b := by
  obtain ⟨c, d, rfl⟩ := h
  apply ext_get
  intro x
  rw [get_applyBatch (m.applyBatch a), get_applyBatch m, get_applyBatch m, lastWrite_append,
    lastWrite_append]
  cases lastWrite x d <;> cases lastWrite x a <;> rfl

theorem applyBatch_delete_keys : m.applyBatch (m.keys.map .delete) = empty := by
  apply ext_entries
  unfold keys
  generalize hes : m.entries = es
  induction es generalizing m with
  | nil => exact hes
  | cons e es ih => exact ih (m.erase e.1) (erase_entries_head hes)

theorem applyBatch_put_entries : empty.applyBatch (m.entries.map fun e => .put e.1 e.2) = m := by
  have hput : ∀ es : List (κ × β), es.Pairwise (fun a b => a.1 < b.1) →
      (empty.applyBatch (es.map fun e => WriteOp.put e.1 e.2)).entries = es := by
    intro es hes
    induction es using reverseRecOn with
    | nil => rfl
    | append_singleton es e ih =>
      obtain ⟨hes, -, hlt⟩ := pairwise_append.mp hes
      rw [map_append, applyBatch_append]
      refine (insert_entries_of_lt e.2 ?_).trans (by rw [ih hes])
      rw [ih hes]
      exact fun a ha => hlt a ha e (mem_singleton_self e)
  exact ext_entries (hput _ m.sorted)

theorem applyBatch_comm {a b : List (WriteOp κ β)}
    (h : ∀ o ∈ a, ∀ o' ∈ b, o.key ≠ o'.key) : m.applyBatch (a ++ b) = m.applyBatch (b ++ a) := by
  refine ext_get fun x => ?_
  rw [get_applyBatch, get_applyBatch, lastWrite_append, lastWrite_append]
  by_cases hx : ∃ o ∈ a, o.key = x
  · obtain ⟨o, ho, rfl⟩ := hx
    rw [lastWrite_eq_none fun o' ho' => (h o ho o' ho').symm, Option.none_or, Option.or_none]
  · rw [lastWrite_eq_none fun o ho heq => hx ⟨o, ho, heq⟩, Option.none_or, Option.or_none]

end

theorem applyBatch_flatMap_perm {ι : Type*} {f : ι → List (WriteOp κ β)} {l l' : List ι}
    (hp : l.Perm l') (h : l.Pairwise fun i j => ∀ o ∈ f i, ∀ o' ∈ f j, o.key ≠ o'.key)
    (m : OrderedMap κ β) : m.applyBatch (l.flatMap f) = m.applyBatch (l'.flatMap f) := by
  induction hp generalizing m with
  | nil => rfl
  | cons i _ ih =>
    rw [flatMap_cons, flatMap_cons, applyBatch_append, applyBatch_append, ih (pairwise_cons.mp h).2]
  | swap i j l =>
    have hij := (pairwise_cons.mp h).1 i (.head _)
    simp only [flatMap_cons, ← append_assoc]
    rw [applyBatch_append, applyBatch_comm m hij, ← applyBatch_append]
  | trans hp _ ih ih' =>
    have hsymm : ∀ {i j}, (∀ o ∈ f i, ∀ o' ∈ f j, o.key ≠ o'.key) →
        ∀ o ∈ f j, ∀ o' ∈ f i, o.key ≠ o'.key :=
      fun hij o ho o' ho' => (hij o' ho' o ho).symm
    rw [ih h, ih' ((hp.pairwise_iff hsymm).mp h)]

end OrderedMap

export OrderedMap (applyBatch_append get_applyOp get_applyBatch_of_not_mem)

end LedisDB
