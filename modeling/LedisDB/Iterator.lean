import LedisDB.Bytes
import LedisDB.OrderedMap
import Mathlib.Data.List.TakeWhile

/-!
# Cursors and range iterators over an ordered map

`Iterator` is the driver's cursor over a snapshot of the sorted entries:
`Seek` stops at the first key not below its argument, and a cursor moved past
either end is not valid. `RangeLimitIterator` is `store/iterator.go`: the
constructor positions the cursor and skips `Offset` entries without looking at
the far end of the range, and the range is only tested by `Valid`. A caller's
loop over `Valid` and `Next` is `collect`.

Both directions are then shown to produce the requested slice of the entries
that lie in the range, in key order or against it.
-/

namespace LedisDB

open List

variable {κ β : Type*}

structure Iterator (κ β : Type*) where
  entries : List (κ × β)
  pos : Option ℕ

namespace Iterator

def current (it : Iterator κ β) : Option (κ × β) := it.pos.bind (fun i => it.entries[i]?)

def Valid (it : Iterator κ β) : Bool := it.current.isSome

def Next (it : Iterator κ β) : Iterator κ β :=
  { it with pos := it.pos.bind (fun i => if i + 1 < it.entries.length then some (i + 1) else none) }

def Prev (it : Iterator κ β) : Iterator κ β :=
  { it with pos := it.pos.bind (fun i => if i = 0 then none else some (i - 1)) }

def SeekToFirst (it : Iterator κ β) : Iterator κ β :=
  { it with pos := if it.entries.length = 0 then none else some 0 }

def SeekToLast (it : Iterator κ β) : Iterator κ β :=
  { it with pos := if it.entries.length = 0 then none else some (it.entries.length - 1) }

variable [LinearOrder κ]

def Seek (it : Iterator κ β) (k : κ) : Iterator κ β :=
  { it with pos := it.entries.findIdx? (fun e => k ≤ e.1) }

/-- `Find` and `RawFind`: seek, then compare the key reached. -/
def Find (it : Iterator κ β) (k : κ) : Option β :=
  match (it.Seek k).current with
  | none => none
  | some e => if e.1 = k then some e.2 else none

end Iterator

def OrderedMap.newIterator [LinearOrder κ] (m : OrderedMap κ β) : Iterator κ β := ⟨m.entries, none⟩

inductive Direction
  | forward
  | backward
  deriving DecidableEq

def Direction.arrange {α : Type*} (xs : List α) : Direction → List α
  | .forward => xs
  | .backward => xs.reverse

theorem Direction.arrange_map {α γ : Type*} (d : Direction) (f : α → γ) (xs : List α) :
    d.arrange (xs.map f) = (d.arrange xs).map f := by
  cases d with
  | forward => rfl
  | backward => exact map_reverse.symm

theorem Direction.arrange_length {α : Type*} (d : Direction) (xs : List α) :
    (d.arrange xs).length = xs.length := by
  cases d <;> simp [arrange]

theorem Direction.arrange_filter {α : Type*} (d : Direction) (p : α → Bool) (xs : List α) :
    d.arrange (xs.filter p) = (d.arrange xs).filter p := by
  cases d with
  | forward => rfl
  | backward => exact filter_reverse.symm

theorem Direction.mem_arrange {α : Type*} {d : Direction} {xs : List α} {x : α} :
    x ∈ d.arrange xs ↔ x ∈ xs := by
  cases d with
  | forward => rfl
  | backward => exact mem_reverse

def RangeClose : UInt8 := 0x00
def RangeLOpen : UInt8 := 0x01
def RangeROpen : UInt8 := 0x10
def RangeOpen : UInt8 := 0x11

structure Range (κ : Type*) where
  min : Option κ
  max : Option κ
  type : UInt8

structure Limit where
  offset : ℤ
  count : ℤ

structure RangeLimitIterator (κ β : Type*) where
  it : Iterator κ β
  r : Range κ
  l : Limit
  step : ℕ
  direction : Direction

section
variable [LinearOrder κ]

namespace Range

def lOpen (r : Range κ) : Bool := r.type &&& RangeLOpen > 0

def rOpen (r : Range κ) : Bool := r.type &&& RangeROpen > 0

def aboveMin (r : Range κ) (k : κ) : Bool :=
  match r.min with
  | none => true
  | some min => if r.lOpen then min < k else min ≤ k

def belowMax (r : Range κ) (k : κ) : Bool :=
  match r.max with
  | none => true
  | some max => if r.rOpen then k < max else k ≤ max

theorem aboveMin_iff {a k : κ} {b : Option κ} {t : UInt8} :
    (⟨some a, b, t⟩ : Range κ).aboveMin k = true ↔
      if t &&& RangeLOpen > 0 then a < k else a ≤ k := by
  by_cases h : t &&& RangeLOpen > 0
  · have hopen : (⟨some a, b, t⟩ : Range κ).lOpen = true := decide_eq_true h
    simp [aboveMin, hopen, h]
  · have hclosed : (⟨some a, b, t⟩ : Range κ).lOpen = false := decide_eq_false h
    simp [aboveMin, hclosed, h]

theorem belowMax_iff {a : Option κ} {b k : κ} {t : UInt8} :
    (⟨a, some b, t⟩ : Range κ).belowMax k = true ↔
      if t &&& RangeROpen > 0 then k < b else k ≤ b := by
  by_cases h : t &&& RangeROpen > 0
  · have hopen : (⟨a, some b, t⟩ : Range κ).rOpen = true := decide_eq_true h
    simp [belowMax, hopen, h]
  · have hclosed : (⟨a, some b, t⟩ : Range κ).rOpen = false := decide_eq_false h
    simp [belowMax, hclosed, h]

@[simp] theorem aboveMin_rOpen (a : κ) (b : Option κ) (k : κ) :
    (⟨some a, b, RangeROpen⟩ : Range κ).aboveMin k = decide (a ≤ k) := by
  rw [Bool.eq_iff_iff, aboveMin_iff, if_neg (by decide), decide_eq_true_iff]

@[simp] theorem belowMax_rOpen (a : Option κ) (b k : κ) :
    (⟨a, some b, RangeROpen⟩ : Range κ).belowMax k = decide (k < b) := by
  rw [Bool.eq_iff_iff, belowMax_iff, if_pos (by decide), decide_eq_true_iff]

@[simp] theorem aboveMin_open (a : κ) (b : Option κ) (k : κ) :
    (⟨some a, b, RangeOpen⟩ : Range κ).aboveMin k = decide (a < k) := by
  rw [Bool.eq_iff_iff, aboveMin_iff, if_pos (by decide), decide_eq_true_iff]

@[simp] theorem belowMax_open (a : Option κ) (b k : κ) :
    (⟨a, some b, RangeOpen⟩ : Range κ).belowMax k = decide (k < b) := by
  rw [Bool.eq_iff_iff, belowMax_iff, if_pos (by decide), decide_eq_true_iff]

@[simp] theorem aboveMin_lOpen (a : κ) (b : Option κ) (k : κ) :
    (⟨some a, b, RangeLOpen⟩ : Range κ).aboveMin k = decide (a < k) := by
  rw [Bool.eq_iff_iff, aboveMin_iff, if_pos (by decide), decide_eq_true_iff]

@[simp] theorem belowMax_lOpen (a : Option κ) (b k : κ) :
    (⟨a, some b, RangeLOpen⟩ : Range κ).belowMax k = decide (k ≤ b) := by
  rw [Bool.eq_iff_iff, belowMax_iff, if_neg (by decide), decide_eq_true_iff]

@[simp] theorem aboveMin_close (a : κ) (b : Option κ) (k : κ) :
    (⟨some a, b, RangeClose⟩ : Range κ).aboveMin k = decide (a ≤ k) := by
  rw [Bool.eq_iff_iff, aboveMin_iff, if_neg (by decide), decide_eq_true_iff]

@[simp] theorem belowMax_close (a : Option κ) (b k : κ) :
    (⟨a, some b, RangeClose⟩ : Range κ).belowMax k = decide (k ≤ b) := by
  rw [Bool.eq_iff_iff, belowMax_iff, if_neg (by decide), decide_eq_true_iff]

end Range

namespace RangeLimitIterator

def Valid (it : RangeLimitIterator κ β) : Bool :=
  if it.l.offset < 0 then false
  else match it.it.current with
    | none => false
    | some e =>
      if 0 ≤ it.l.count ∧ it.l.count ≤ it.step then false
      else match it.direction with
        | .forward => it.r.belowMax e.1
        | .backward => it.r.aboveMin e.1

def Next (it : RangeLimitIterator κ β) : RangeLimitIterator κ β :=
  { it with
    step := it.step + 1
    it := match it.direction with
      | .forward => it.it.Next
      | .backward => it.it.Prev }

/-- `for ; it.Valid(); it.Next()`, with the entries met in order. -/
def collect : ℕ → RangeLimitIterator κ β → List (κ × β)
  | 0, _ => []
  | fuel + 1, it =>
    if it.Valid then it.it.current.toList ++ collect fuel it.Next else []

end RangeLimitIterator

/-- The skipping loop of the constructor: a step is taken while the cursor is valid. -/
def skip (direction : Direction) : ℕ → Iterator κ β → Iterator κ β
  | 0, it => it
  | n + 1, it =>
    skip direction n (if it.Valid then
      match direction with
      | .forward => it.Next
      | .backward => it.Prev
    else it)

def positionForward (i : Iterator κ β) (r : Range κ) : Iterator κ β :=
  match r.min with
  | none => i.SeekToFirst
  | some min =>
    let j := i.Seek min
    if r.lOpen then
      match j.current with
      | some e => if e.1 = min then j.Next else j
      | none => j
    else j

def positionBackward (i : Iterator κ β) (r : Range κ) : Iterator κ β :=
  match r.max with
  | none => i.SeekToLast
  | some max =>
    let j := i.Seek max
    let j := match j.current with
      | none => j.SeekToLast
      | some e => if e.1 = max then j else j.Prev
    if r.rOpen then
      match j.current with
      | some e => if e.1 = max then j.Prev else j
      | none => j
    else j

def rangeLimitIterator (i : Iterator κ β) (r : Range κ) (l : Limit) (direction : Direction) :
    RangeLimitIterator κ β :=
  if l.offset < 0 then ⟨i, r, l, 0, direction⟩
  else
    let i := match direction with
      | .forward => positionForward i r
      | .backward => positionBackward i r
    ⟨skip direction l.offset.toNat i, r, l, 0, direction⟩

namespace OrderedMap

def rangeLimit (m : OrderedMap κ β) (r : Range κ) (l : Limit) (direction : Direction) :
    List (κ × β) :=
  (rangeLimitIterator m.newIterator r l direction).collect (m.entries.length + 1)

end OrderedMap

end

namespace Iterator

def Wf (it : Iterator κ β) : Prop := ∀ i, it.pos = some i → i < it.entries.length

def rest (it : Iterator κ β) : List (κ × β) :=
  match it.pos with
  | none => []
  | some i => it.entries.drop i

def back (it : Iterator κ β) : List (κ × β) :=
  match it.pos with
  | none => []
  | some i => (it.entries.take (i + 1)).reverse

def ahead (it : Iterator κ β) : Direction → List (κ × β)
  | .forward => it.rest
  | .backward => it.back

theorem current_eq_head (it : Iterator κ β) : it.current = it.rest.head? := by
  unfold current rest
  cases it.pos with
  | none => rfl
  | some i => simp

theorem current_eq_head_ahead {it : Iterator κ β} (h : it.Wf) (direction : Direction) :
    it.current = (it.ahead direction).head? := by
  cases direction with
  | forward => exact it.current_eq_head
  | backward =>
    unfold current ahead back
    cases hp : it.pos with
    | none => rfl
    | some i =>
      have hi := h i hp
      simp [getLast?_take, getElem?_eq_getElem hi]

theorem next_wf (it : Iterator κ β) : it.Next.Wf := by
  intro i hi
  unfold Next at hi
  cases hp : it.pos with
  | none => simp [hp] at hi
  | some j =>
    simp only [hp, Option.bind_some] at hi
    split_ifs at hi with h
    · cases hi
      exact h

theorem prev_wf {it : Iterator κ β} (h : it.Wf) : it.Prev.Wf := by
  intro i hi
  unfold Prev at hi ⊢
  cases hp : it.pos with
  | none => simp [hp] at hi
  | some j =>
    have hj := h j hp
    simp only [hp, Option.bind_some] at hi
    split_ifs at hi
    cases hi
    show j - 1 < it.entries.length
    omega

theorem seekToFirst_wf (it : Iterator κ β) : it.SeekToFirst.Wf := by
  intro i hi
  unfold SeekToFirst at hi ⊢
  split_ifs at hi with h
  cases hi
  exact Nat.pos_of_ne_zero h

theorem seekToLast_wf (it : Iterator κ β) : it.SeekToLast.Wf := by
  intro i hi
  unfold SeekToLast at hi ⊢
  split_ifs at hi with h
  cases hi
  show it.entries.length - 1 < it.entries.length
  omega

theorem seek_wf [LinearOrder κ] (it : Iterator κ β) (k : κ) : (it.Seek k).Wf := by
  intro i hi
  exact (findIdx?_eq_some_iff_findIdx_eq.mp hi).1

theorem next_rest (it : Iterator κ β) : it.Next.rest = it.rest.tail := by
  unfold Next rest
  cases it.pos with
  | none => rfl
  | some i =>
    simp only [Option.bind_some, tail_drop]
    split_ifs with h
    · rfl
    · exact (drop_eq_nil_of_le (not_lt.mp h)).symm

theorem prev_back {it : Iterator κ β} (h : it.Wf) : it.Prev.back = it.back.tail := by
  unfold Prev back
  cases hp : it.pos with
  | none => rfl
  | some i =>
    have hi := h i hp
    cases i with
    | zero => simp [take_one, head?_eq_getElem?, getElem?_eq_getElem hi]
    | succ i =>
      simp only [Option.bind_some, Nat.add_one_ne_zero, if_false, Nat.add_sub_cancel,
        take_succ_eq_append_getElem hi, reverse_append, reverse_singleton,
        singleton_append, tail_cons]

theorem seek_rest [LinearOrder κ] (it : Iterator κ β) (k : κ) :
    (it.Seek k).rest = it.entries.dropWhile (fun e => e.1 < k) := by
  have h : ∀ es : List (κ × β),
      (match es.findIdx? (fun e => k ≤ e.1) with
        | none => []
        | some i => es.drop i) = es.dropWhile (fun e => e.1 < k) := by
    intro es
    induction es with
    | nil => rfl
    | cons e es ih =>
      by_cases he : k ≤ e.1
      · simp [findIdx?_cons, he]
      · have hlt := not_le.mp he
        simp only [findIdx?_cons, decide_eq_true_eq, if_neg he, dropWhile_cons, hlt]
        rw [← ih]
        cases es.findIdx? (fun e => k ≤ e.1) <;> simp
  exact h it.entries

theorem seekToFirst_rest (it : Iterator κ β) : it.SeekToFirst.rest = it.entries := by
  unfold SeekToFirst rest
  by_cases h : it.entries.length = 0
  · simp [length_eq_zero_iff.mp h]
  · simp [h]

theorem seekToLast_back (it : Iterator κ β) : it.SeekToLast.back = it.entries.reverse := by
  unfold SeekToLast back
  by_cases h : it.entries.length = 0
  · simp [length_eq_zero_iff.mp h]
  · simp only [h, if_false]
    rw [take_of_length_le (by omega)]

theorem seek_back [LinearOrder κ] {it : Iterator κ β} {k : κ} {e : κ × β} {es : List (κ × β)}
    (h : (it.Seek k).rest = e :: es) :
    (it.Seek k).back = e :: (it.entries.takeWhile fun e => e.1 < k).reverse := by
  have hdrop := (it.seek_rest k).symm.trans h
  -- The cursor splits the entries, and so does the test of `Seek`.
  have hsplit : (it.Seek k).back.reverse ++ es = it.entries := by
    unfold rest at h
    unfold back
    cases hp : (it.Seek k).pos with
    | none => simp [hp] at h
    | some i =>
      simp only [hp] at h ⊢
      have htail : it.entries.drop (i + 1) = es := by
        rw [← tail_drop]
        exact congrArg tail h
      rw [reverse_reverse, ← htail]
      exact take_append_drop _ _
  have hsplit' : (it.entries.takeWhile (fun e => e.1 < k) ++ [e]) ++ es = it.entries := by
    rw [append_assoc, singleton_append, ← hdrop, takeWhile_append_dropWhile]
  have hback := append_cancel_right (hsplit.trans hsplit'.symm)
  rw [← reverse_reverse (it.Seek k).back, hback, reverse_append, reverse_singleton,
    singleton_append]

def advance (it : Iterator κ β) : Direction → Iterator κ β
  | .forward => it.Next
  | .backward => it.Prev

theorem advance_ahead {it : Iterator κ β} (h : it.Wf) (direction : Direction) :
    (it.advance direction).Wf ∧
      (it.advance direction).ahead direction = (it.ahead direction).tail := by
  cases direction with
  | forward => exact ⟨it.next_wf, it.next_rest⟩
  | backward => exact ⟨prev_wf h, prev_back h⟩

theorem pass_ahead [DecidableEq κ] {it : Iterator κ β} (h : it.Wf) (direction : Direction) {k : κ}
    (hk : ∀ e ∈ (it.ahead direction).tail, e.1 ≠ k) :
    (match it.current with
      | some e => if e.1 = k then it.advance direction else it
      | none => it).Wf ∧
    (match it.current with
      | some e => if e.1 = k then it.advance direction else it
      | none => it).ahead direction = (it.ahead direction).filter fun e => e.1 ≠ k := by
  obtain ⟨hwf, hadv⟩ := advance_ahead h direction
  rw [current_eq_head_ahead h direction]
  cases ha : it.ahead direction with
  | nil => exact ⟨h, ha⟩
  | cons e es =>
    rw [ha, tail_cons] at hk hadv
    have hes := filter_eq_self.mpr fun e he => decide_eq_true (hk e he)
    by_cases he : e.1 = k
    · simp only [head?_cons, if_pos he]
      exact ⟨hwf, by rw [hadv, filter_cons_of_neg (by simpa using he), hes]⟩
    · simp only [head?_cons, if_neg he]
      exact ⟨h, by rw [ha, filter_cons_of_pos (by simpa using he), hes]⟩

end Iterator

theorem skip_succ (direction : Direction) (n : ℕ) (it : Iterator κ β) :
    skip direction (n + 1) it =
      skip direction n (if it.Valid then it.advance direction else it) := by
  cases direction <;> rfl

theorem skip_ahead {it : Iterator κ β} (h : it.Wf) (direction : Direction) (n : ℕ) :
    (skip direction n it).Wf ∧
      (skip direction n it).ahead direction = (it.ahead direction).drop n := by
  induction n generalizing it with
  | zero => exact ⟨h, rfl⟩
  | succ n ih =>
    have hcur := Iterator.current_eq_head_ahead h direction
    obtain ⟨hwf, hadv⟩ := Iterator.advance_ahead h direction
    cases ha : it.ahead direction with
    | nil =>
      have hv : it.Valid = false := by rw [Iterator.Valid, hcur, ha]; rfl
      rw [skip_succ, hv]
      simpa [ha] using ih h
    | cons e es =>
      have hv : it.Valid = true := by rw [Iterator.Valid, hcur, ha]; rfl
      rw [ha, tail_cons] at hadv
      rw [skip_succ, hv, ← hadv]
      exact ih hwf

theorem RangeLimitIterator.next_it (it : RangeLimitIterator κ β) :
    it.Next.it = it.it.advance it.direction := by
  unfold Next
  cases it.direction <;> rfl

variable [LinearOrder κ]

theorem dropWhile_lt_eq_filter {es : List (κ × β)} (hs : es.Pairwise fun a b => a.1 < b.1)
    (k : κ) : es.dropWhile (fun e => e.1 < k) = es.filter fun e => k ≤ e.1 := by
  induction es with
  | nil => rfl
  | cons e es ih =>
    obtain ⟨he, hs'⟩ := pairwise_cons.mp hs
    by_cases hlt : e.1 < k
    · simp [hlt, ih hs']
    · have hall := fun a ha => (not_lt.mp hlt).trans (he a ha).le
      simp only [dropWhile_cons, hlt, decide_false, Bool.false_eq_true, if_false,
        filter_cons, not_lt.mp hlt, decide_true, if_true]
      rw [filter_eq_self.mpr (by simpa using hall)]

theorem positionForward_ahead (it : Iterator κ β)
    (hs : it.entries.Pairwise fun a b => a.1 < b.1) (r : Range κ) :
    (positionForward it r).Wf ∧
      (positionForward it r).rest = it.entries.filter fun e => r.aboveMin e.1 := by
  unfold positionForward Range.aboveMin
  cases r.min with
  | none => simp [Iterator.seekToFirst_wf, Iterator.seekToFirst_rest]
  | some min =>
    have hrest : (it.Seek min).rest = it.entries.filter (fun e => min ≤ e.1) := by
      rw [Iterator.seek_rest, dropWhile_lt_eq_filter hs]
    by_cases ho : r.lOpen
    · have htail : ∀ e ∈ (it.Seek min).rest.tail, e.1 ≠ min := by
        have hs' := hs.filter fun e => decide (min ≤ e.1)
        rw [hrest]
        cases hf : it.entries.filter (fun e => min ≤ e.1) with
        | nil => simp
        | cons e es =>
          have hmem := hf ▸ mem_cons_self
          have he := of_decide_eq_true (mem_filter.mp hmem).2
          rw [hf] at hs'
          exact fun a ha => (he.trans_lt ((pairwise_cons.mp hs').1 a ha)).ne'
      have hpass := Iterator.pass_ahead (it.seek_wf min) .forward htail
      have hfilter : (it.entries.filter fun e => min ≤ e.1).filter (fun e => e.1 ≠ min) =
          it.entries.filter fun e => min < e.1 := by
        rw [filter_filter]
        grind
      simp only [ho]
      exact ⟨hpass.1, (hpass.2.trans (congrArg _ hrest)).trans hfilter⟩
    · simpa [ho] using ⟨it.seek_wf min, hrest⟩

theorem takeWhile_drop_eq_drop_filter {α : Type*} {R : α → α → Prop} {p : α → Bool}
    (hp : ∀ a b, R a b → p b = true → p a = true) {es : List α} (hs : es.Pairwise R)
    (n : ℕ) : (es.drop n).takeWhile p = (es.filter p).drop n := by
  induction es generalizing n with
  | nil => simp
  | cons e es ih =>
    obtain ⟨he, hs'⟩ := pairwise_cons.mp hs
    by_cases hpe : p e = true
    · cases n with
      | zero => simpa [hpe] using ih hs' 0
      | succ n => simpa [hpe] using ih hs' n
    · have hnil : es.filter p = [] := by
        rw [filter_eq_nil_iff]
        exact fun a ha h => hpe (hp e a (he a ha) h)
      cases n with
      | zero => simp [hpe, hnil]
      | succ n => simpa [hpe, hnil] using ih hs' n

theorem seekBelow_back {it : Iterator κ β} (hs : it.entries.Pairwise fun a b => a.1 < b.1) (k : κ) :
    (match (it.Seek k).current with
      | none => (it.Seek k).SeekToLast
      | some e => if e.1 = k then it.Seek k else (it.Seek k).Prev).Wf ∧
    (match (it.Seek k).current with
      | none => (it.Seek k).SeekToLast
      | some e => if e.1 = k then it.Seek k else (it.Seek k).Prev).back =
        (it.entries.filter fun e => e.1 ≤ k).reverse := by
  have hdrop := it.seek_rest k
  rw [Iterator.current_eq_head]
  cases hr : (it.Seek k).rest with
  | nil =>
    rw [hr] at hdrop
    have hall : ∀ e ∈ it.entries, e.1 ≤ k := by
      have hnil := hdrop.trans (dropWhile_lt_eq_filter hs k)
      intro e he
      have hlt := filter_eq_nil_iff.mp hnil.symm e he
      exact (not_le.mp fun h => hlt (decide_eq_true h)).le
    refine ⟨Iterator.seekToLast_wf _, (Iterator.seekToLast_back _).trans ?_⟩
    rw [filter_eq_self.mpr fun e he => decide_eq_true (hall e he)]
    rfl
  | cons e es =>
    rw [hr] at hdrop
    have hsplit : it.entries.takeWhile (fun e => e.1 < k) ++ e :: es = it.entries := by
      rw [hdrop, takeWhile_append_dropWhile]
    have hlow : ∀ a ∈ it.entries.takeWhile (fun e => e.1 < k), a.1 ≤ k := by
      intro a ha
      have hlt := mem_takeWhile_imp ha
      exact (of_decide_eq_true hlt).le
    have hge : k ≤ e.1 := by
      have hmem : e ∈ it.entries.filter fun e => k ≤ e.1 := by
        rw [← dropWhile_lt_eq_filter hs, ← hdrop]
        exact (.head _)
      exact of_decide_eq_true (mem_filter.mp hmem).2
    have hhigh : ∀ a ∈ es, ¬ a.1 ≤ k := by
      have hs' := hs
      rw [← hsplit] at hs'
      have he := (pairwise_cons.mp (pairwise_append.mp hs').2.1).1
      exact fun a ha => not_le.mpr (hge.trans_lt (he a ha))
    have hfilter : it.entries.filter (fun e => e.1 ≤ k) =
        it.entries.takeWhile (fun e => e.1 < k) ++ if e.1 = k then [e] else [] := by
      conv_lhs => rw [← hsplit]
      rw [filter_append, filter_cons,
        filter_eq_self.mpr fun a ha => decide_eq_true (hlow a ha),
        filter_eq_nil_iff.mpr fun a ha h => hhigh a ha (of_decide_eq_true h)]
      by_cases he : e.1 = k
      · simp [he]
      · simp [he, lt_of_le_of_ne hge (Ne.symm he)]
    have hback := Iterator.seek_back hr
    by_cases he : e.1 = k
    · simp only [head?_cons, if_pos he]
      exact ⟨it.seek_wf k, by rw [hback, hfilter, if_pos he]; simp⟩
    · simp only [head?_cons, if_neg he]
      refine ⟨Iterator.prev_wf (it.seek_wf k), ?_⟩
      rw [Iterator.prev_back (it.seek_wf k), hback, hfilter, if_neg he, tail_cons, append_nil]

theorem positionBackward_ahead (it : Iterator κ β)
    (hs : it.entries.Pairwise fun a b => a.1 < b.1) (r : Range κ) :
    (positionBackward it r).Wf ∧
      (positionBackward it r).back = (it.entries.filter fun e => r.belowMax e.1).reverse := by
  unfold positionBackward Range.belowMax
  cases r.max with
  | none => simp [Iterator.seekToLast_wf, Iterator.seekToLast_back]
  | some max =>
    obtain ⟨hwf, hback⟩ := seekBelow_back hs max
    by_cases ho : r.rOpen
    · have hs' : ((it.entries.filter fun e => e.1 ≤ max).reverse).Pairwise
          fun a b => b.1 < a.1 := pairwise_reverse.mpr (hs.filter _)
      have htail : ∀ e ∈ ((it.entries.filter fun e => e.1 ≤ max).reverse).tail, e.1 ≠ max := by
        cases hf : (it.entries.filter fun e => e.1 ≤ max).reverse with
        | nil => simp
        | cons e es =>
          have hmem := hf ▸ mem_cons_self
          have he := of_decide_eq_true (mem_filter.mp (mem_reverse.mp hmem)).2
          rw [hf] at hs'
          exact fun a ha => (((pairwise_cons.mp hs').1 a ha).trans_le he).ne
      have hpass := Iterator.pass_ahead hwf .backward (fun e he => htail e (by rwa [← hback]))
      have hfilter : ((it.entries.filter fun e => e.1 ≤ max).reverse).filter
          (fun e => e.1 ≠ max) = (it.entries.filter fun e => e.1 < max).reverse := by
        rw [filter_reverse, filter_filter]
        grind
      simp only [ho]
      exact ⟨hpass.1, (hpass.2.trans (congrArg _ hback)).trans hfilter⟩
    · simpa [ho] using ⟨hwf, hback⟩

namespace RangeLimitIterator

def inside (it : RangeLimitIterator κ β) (k : κ) : Bool :=
  match it.direction with
  | .forward => it.r.belowMax k
  | .backward => it.r.aboveMin k

def remaining (it : RangeLimitIterator κ β) (es : List (κ × β)) : List (κ × β) :=
  let es := es.takeWhile (fun e => it.inside e.1)
  if 0 ≤ it.l.count then es.take (it.l.count.toNat - it.step) else es

@[simp] theorem next_inside (it : RangeLimitIterator κ β) : it.Next.inside = it.inside := rfl

theorem valid_of_head {it : RangeLimitIterator κ β} (ho : 0 ≤ it.l.offset) {e : κ × β}
    (hcur : it.it.current = some e) :
    it.Valid = (decide (¬(0 ≤ it.l.count ∧ it.l.count ≤ it.step)) && it.inside e.1) := by
  simp only [Valid, inside, not_lt.mpr ho, hcur]
  by_cases hc : 0 ≤ it.l.count ∧ it.l.count ≤ it.step <;> simp [hc]

theorem collect_ahead (fuel : ℕ) {it : RangeLimitIterator κ β} (h : it.it.Wf)
    (ho : 0 ≤ it.l.offset) (hf : (it.it.ahead it.direction).length < fuel) :
    it.collect fuel = it.remaining (it.it.ahead it.direction) := by
  induction fuel generalizing it with
  | zero => omega
  | succ fuel ih =>
    have hcur := Iterator.current_eq_head_ahead h it.direction
    cases hr : it.it.ahead it.direction with
    | nil =>
      rw [hr] at hcur
      simp [collect, Valid, hcur, remaining]
    | cons e es =>
      rw [hr] at hcur hf
      obtain ⟨hwf, hnext⟩ := Iterator.advance_ahead h it.direction
      rw [hr, ← next_it] at hnext
      rw [← next_it] at hwf
      have hrec : it.Next.collect fuel = it.Next.remaining es := by
        have hlen : (it.Next.it.ahead it.direction).length < fuel := by
          rw [hnext]
          simpa using hf
        exact (ih hwf ho hlen).trans (congrArg _ hnext)
      simp only [collect, valid_of_head ho hcur, hcur, hrec, remaining, next_inside]
      by_cases hb : it.inside e.1
      · by_cases hc : 0 ≤ it.l.count
        · by_cases hs : it.l.count ≤ it.step
          · simp [hc, hs]
          · have hk : it.l.count.toNat - it.step = it.l.count.toNat - (it.step + 1) + 1 := by omega
            simp [hb, hc, hs, Next, hk]
        · simp [hb, hc, Next]
      · simp [hb]

end RangeLimitIterator

def Limit.apply {α : Type*} (l : Limit) (es : List α) : List α :=
  if l.offset < 0 then []
  else if l.count < 0 then es.drop l.offset.toNat
  else (es.drop l.offset.toNat).take l.count.toNat

theorem Limit.apply_all {α : Type*} (es : List α) : (⟨0, -1⟩ : Limit).apply es = es := rfl

theorem Range.belowMax_anti (r : Range κ) {a b : κ} (hab : a < b) (hb : r.belowMax b = true) :
    r.belowMax a = true := by
  unfold belowMax at hb ⊢
  cases hmax : r.max with
  | none => rfl
  | some max =>
    simp only [hmax] at hb ⊢
    split_ifs at hb ⊢
    · simpa using hab.trans (of_decide_eq_true hb)
    · simpa using hab.le.trans (of_decide_eq_true hb)

theorem Range.aboveMin_mono (r : Range κ) {a b : κ} (hab : a < b) (ha : r.aboveMin a = true) :
    r.aboveMin b = true := by
  unfold aboveMin at ha ⊢
  cases hmin : r.min with
  | none => rfl
  | some min =>
    simp only [hmin] at ha ⊢
    split_ifs at ha ⊢
    · simpa using (of_decide_eq_true ha).trans hab
    · simpa using (of_decide_eq_true ha).trans hab.le

def Range.inOrder (r : Range κ) (es : List (κ × β)) (direction : Direction) : List (κ × β) :=
  direction.arrange (es.filter fun e => r.aboveMin e.1 && r.belowMax e.1)

variable {l : Limit}

theorem rangeLimitIterator_ahead {es : List (κ × β)} (hs : es.Pairwise fun a b => a.1 < b.1)
    (pos : Option ℕ) (r : Range κ) (ho : ¬ l.offset < 0) (direction : Direction) :
    let it := rangeLimitIterator ⟨es, pos⟩ r l direction
    it.it.Wf ∧ (it.it.ahead direction).length ≤ es.length ∧
      (it.it.ahead direction).takeWhile (fun e => it.inside e.1) =
        (r.inOrder es direction).drop l.offset.toNat := by
  unfold rangeLimitIterator
  rw [if_neg ho]
  cases direction with
  | forward =>
    obtain ⟨hwf, hpos⟩ := positionForward_ahead ⟨es, pos⟩ hs r
    obtain ⟨hskip, hahead⟩ := skip_ahead hwf .forward l.offset.toNat
    have hrest : (skip .forward l.offset.toNat (positionForward ⟨es, pos⟩ r)).ahead .forward =
        (es.filter fun e => r.aboveMin e.1).drop l.offset.toNat := by
      rw [hahead]
      exact congrArg _ hpos
    refine ⟨hskip, ?_, ?_⟩
    · rw [hrest, length_drop]
      exact (Nat.sub_le _ _).trans (length_filter_le _ _)
    · rw [hrest]
      refine (takeWhile_drop_eq_drop_filter (fun a b hab hb => r.belowMax_anti hab hb)
        (hs.filter _) _).trans ?_
      rw [Range.inOrder, Direction.arrange]
      simp [Bool.and_comm]
  | backward =>
    obtain ⟨hwf, hpos⟩ := positionBackward_ahead ⟨es, pos⟩ hs r
    obtain ⟨hskip, hahead⟩ := skip_ahead hwf .backward l.offset.toNat
    have hrest : (skip .backward l.offset.toNat (positionBackward ⟨es, pos⟩ r)).ahead .backward =
        (es.filter fun e => r.belowMax e.1).reverse.drop l.offset.toNat := by
      rw [hahead]
      exact congrArg _ hpos
    refine ⟨hskip, ?_, ?_⟩
    · rw [hrest, length_drop, length_reverse]
      exact (Nat.sub_le _ _).trans (length_filter_le _ _)
    · rw [hrest]
      refine (takeWhile_drop_eq_drop_filter
        (fun a b hab hb => r.aboveMin_mono hab hb)
        (pairwise_reverse.mpr (hs.filter _)) _).trans ?_
      rw [Range.inOrder, Direction.arrange, filter_reverse, filter_filter]

theorem collect_eq_slice {es : List (κ × β)} (hs : es.Pairwise fun a b => a.1 < b.1)
    (pos : Option ℕ) (r : Range κ) (l : Limit) (direction : Direction) (n : ℕ) :
    (rangeLimitIterator ⟨es, pos⟩ r l direction).collect (es.length + 1 + n) =
      l.apply (r.inOrder es direction) := by
  by_cases ho : l.offset < 0
  · rw [Nat.add_right_comm]
    simp [rangeLimitIterator, Limit.apply, ho, RangeLimitIterator.collect, RangeLimitIterator.Valid]
  · obtain ⟨hwf, hlen, htake⟩ := rangeLimitIterator_ahead hs pos r ho direction
    have hparts : (rangeLimitIterator ⟨es, pos⟩ r l direction).direction = direction ∧
        (rangeLimitIterator ⟨es, pos⟩ r l direction).l = l ∧
        (rangeLimitIterator ⟨es, pos⟩ r l direction).step = 0 := by
      simp [rangeLimitIterator, ho]
    obtain ⟨hd, hl, hstep⟩ := hparts
    rw [RangeLimitIterator.collect_ahead _ hwf (by rw [hl]; exact not_lt.mp ho)
      (by rw [hd]; omega), RangeLimitIterator.remaining, hd, hl, hstep, htake, Limit.apply,
      if_neg ho, Nat.sub_zero]
    by_cases hc : l.count < 0
    · rw [if_neg (not_le.mpr hc), if_pos hc]
    · rw [if_pos (not_lt.mp hc), if_neg hc]

/-- Wherever the cursor stood before, a loop over a range iterator of a store meets the
requested slice of the entries in the range. -/
theorem rangeLimitIterator_slice (m : OrderedMap Bytes Bytes) (pos : Option ℕ) (r : Range Bytes)
    (l : Limit) (direction : Direction) (n : ℕ) :
    (rangeLimitIterator ⟨m.entries, pos⟩ r l direction).collect (m.entries.length + 1 + n) =
      l.apply (r.inOrder m.entries direction) :=
  collect_eq_slice m.sorted pos r l direction n

theorem OrderedMap.rangeLimit_forward (m : OrderedMap κ β) (r : Range κ) (l : Limit) :
    m.rangeLimit r l .forward =
      l.apply (m.entries.filter (fun e => r.aboveMin e.1 && r.belowMax e.1)) :=
  collect_eq_slice m.sorted none r l .forward 0

theorem OrderedMap.rangeLimit_eq (m : OrderedMap κ β) (r : Range κ) (l : Limit)
    (direction : Direction) :
    m.rangeLimit r l direction = l.apply (direction.arrange
      (m.entries.filter (fun e => r.aboveMin e.1 && r.belowMax e.1))) :=
  collect_eq_slice m.sorted none r l direction 0

theorem Limit.apply_sublist {α : Type*} (l : Limit) (es : List α) : (l.apply es).Sublist es := by
  unfold apply
  split_ifs
  · exact nil_sublist _
  · exact drop_sublist _ _
  · exact (take_sublist _ _).trans (drop_sublist _ _)

theorem OrderedMap.rangeLimit_congr {m m' : OrderedMap κ β} {r : Range κ} (l : Limit)
    (h : ∀ k, r.aboveMin k = true → r.belowMax k = true → m.get k = m'.get k) :
    m.rangeLimit r l .forward = m'.rangeLimit r l .forward := by
  rw [rangeLimit_forward, rangeLimit_forward]
  congr 1
  refine sorted_ext (m.sorted.filter _) (m'.sorted.filter _) fun e => ?_
  rw [mem_filter, mem_filter, ← get_eq_some_iff, ← get_eq_some_iff]
  refine and_congr_left fun hr => ?_
  obtain ⟨hmin, hmax⟩ := Bool.and_eq_true_iff.mp hr
  rw [h e.1 hmin hmax]

theorem OrderedMap.mem_rangeLimit {m : OrderedMap κ β} {r : Range κ} {e : κ × β}
    (h : e ∈ m.rangeLimit r l .forward) :
    m.get e.1 = some e.2 ∧ r.aboveMin e.1 = true ∧ r.belowMax e.1 = true := by
  rw [rangeLimit_forward] at h
  obtain ⟨he, hr⟩ := mem_filter.mp ((l.apply_sublist _).subset h)
  exact ⟨get_eq_some_iff.mpr he, Bool.and_eq_true_iff.mp hr⟩

theorem OrderedMap.mem_rangeLimit_all {m : OrderedMap κ β} {r : Range κ} {e : κ × β} :
    e ∈ m.rangeLimit r ⟨0, -1⟩ .forward ↔
      m.get e.1 = some e.2 ∧ r.aboveMin e.1 = true ∧ r.belowMax e.1 = true := by
  rw [rangeLimit_forward, Limit.apply_all, mem_filter, Bool.and_eq_true_iff, get_eq_some_iff]

theorem OrderedMap.rangeLimit_sorted (m : OrderedMap κ β) (r : Range κ) :
    (m.rangeLimit r ⟨0, -1⟩ .forward).Pairwise (fun a b => a.1 < b.1) := by
  rw [rangeLimit_forward]
  exact m.sorted.filter _

theorem OrderedMap.rangeLimit_count (m : OrderedMap κ β) (lo hi : κ) :
    m.rangeLimit ⟨some lo, none, RangeClose⟩
      ⟨0, (m.rangeLimit ⟨some lo, some hi, RangeClose⟩ ⟨0, -1⟩ .forward).length⟩ .forward =
    m.rangeLimit ⟨some lo, some hi, RangeClose⟩ ⟨0, -1⟩ .forward := by
  have hfilter : m.entries.filter (fun e => decide (lo ≤ e.1) && decide (e.1 ≤ hi)) =
      (m.entries.filter fun e => lo ≤ e.1).takeWhile fun e => e.1 ≤ hi := by
    have htake := takeWhile_drop_eq_drop_filter
      (p := fun e => decide (e.1 ≤ hi))
      (fun a b hab hb => decide_eq_true (hab.le.trans (of_decide_eq_true hb)))
      (m.sorted.filter fun e => decide (lo ≤ e.1)) 0
    rw [drop_zero, filter_filter] at htake
    rw [htake]
    congr 1
    funext e
    exact Bool.and_comm _ _
  simp only [rangeLimit_forward, Range.aboveMin_close, Range.belowMax_close, hfilter]
  simp only [Range.belowMax, Bool.and_true]
  exact (List.prefix_iff_eq_take.mp (List.takeWhile_prefix _)).symm

theorem OrderedMap.rangeLimit_nodup (m : OrderedMap κ β) (r : Range κ) (l : Limit) :
    ((m.rangeLimit r l .forward).map Prod.fst).Nodup := by
  rw [rangeLimit_forward]
  exact m.keys_nodup.sublist (((l.apply_sublist _).trans filter_sublist).map _)

theorem Range.le_of_aboveMin {r : Range κ} {a k : κ} (hmin : r.min = some a)
    (h : r.aboveMin k = true) : a ≤ k := by
  rw [aboveMin, hmin] at h
  split_ifs at h
  · exact (of_decide_eq_true h).le
  · exact of_decide_eq_true h

theorem Range.le_of_belowMax {r : Range κ} {b k : κ} (hmax : r.max = some b)
    (h : r.belowMax k = true) : k ≤ b := by
  rw [belowMax, hmax] at h
  split_ifs at h
  · exact (of_decide_eq_true h).le
  · exact of_decide_eq_true h

theorem OrderedMap.find_eq_get (m : OrderedMap κ β) (k : κ) : m.newIterator.Find k = m.get k := by
  have h : ∀ es : List (κ × β), es.Pairwise (fun a b => a.1 < b.1) →
      (match (es.dropWhile (fun e => e.1 < k)).head? with
        | none => none
        | some e => if e.1 = k then some e.2 else none) = lookup k es := by
    intro es hs
    induction es with
    | nil => rfl
    | cons e es ih =>
      obtain ⟨he, hs'⟩ := pairwise_cons.mp hs
      rcases lt_trichotomy e.1 k with hlt | heq | hgt
      · simp [hlt, lookup, hlt.ne, ih hs']
      · simp [heq, lookup]
      · have hnone := lookup_eq_none (fun a ha => (hgt.trans (he a ha)).ne')
        simp [not_lt.mpr hgt.le, lookup, hnone]
  rw [Iterator.Find, Iterator.current_eq_head, Iterator.seek_rest]
  exact h m.entries m.sorted

end LedisDB
