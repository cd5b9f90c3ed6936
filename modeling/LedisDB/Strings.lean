import LedisDB.Decimals
import LedisDB.Effects
import LedisDB.Pointwise

/-!
# Strings

`GetSlice` and `StrLen` of `ledis/t_kv.go`, and what the writes of strings do to a value.
Every write checks or keeps the bound on its length, so strings are never longer than
`MaxValueSize`.
-/

namespace LedisDB

open List

namespace DB

def GetSlice (db : DB) (key : Bytes) : Op (Option Bytes) := do
  Op.lift (checkKeySize key)
  Op.get (db.encodeKVKey key)

/-- `Size` is called on a nil interface when the key is missing. -/
def StrLen (db : DB) (key : Bytes) : Op Int64 := do
  let s ← db.GetSlice key
  match s with
  | none => Op.throw .panic
  | some s => pure (Int64.ofNat s.length)

end DB

section
variable {old v : Bytes} {off : ℕ} {x : Int64}

theorem extend_eq (v : Bytes) (extra : Int64) :
    DB.extend v extra = v ++ List.replicate extra.toInt.toNat 0 := by
  unfold DB.extend
  split_ifs with h
  · rfl
  · have hle : extra.toInt ≤ 0 := by
      have := Int64.lt_iff_toInt_lt.not.mp h
      simpa using this
    rw [Int.toNat_of_nonpos hle, replicate_zero, append_nil]

theorem overlay_length (h : off ≤ old.length) (v : Bytes) :
    (DB.overlay old off v).length = old.length := by
  simp only [DB.overlay, length_append, length_take, length_drop]
  omega

def padTo (n : ℕ) (v : Bytes) : Bytes := v ++ List.replicate (n - v.length) 0

theorem padTo_length (n : ℕ) (v : Bytes) : (padTo n v).length = max v.length n := by
  rw [padTo, length_append, length_replicate]
  omega

theorem padTo_getD (n : ℕ) (v : Bytes) (i : ℕ) : (padTo n v).getD i 0 = v.getD i 0 := by
  rw [padTo]
  by_cases hi : i < v.length
  · rw [getD_append _ _ _ _ hi]
  · rw [getD_append_right _ _ _ _ (not_lt.mp hi), getD_eq_default v _ (not_lt.mp hi)]
    simp

/-- The value padded to the end of the range, with `v` in the range. -/
def overlaid (old : Bytes) (off : ℕ) (v : Bytes) : Bytes :=
  let padded := padTo (off + v.length) old
  padded.take off ++ v ++ padded.drop (off + v.length)

theorem overlaid_length (old : Bytes) (off : ℕ) (v : Bytes) :
    (overlaid old off v).length = max old.length (off + v.length) := by
  simp only [overlaid, length_append, length_take, length_drop, padTo_length]
  omega

theorem overlay_padTo (old : Bytes) (off : ℕ) (v : Bytes) :
    DB.overlay (padTo (off + v.length) old) off v = overlaid old off v := by
  have hle : v.length ≤ (padTo (off + v.length) old).length - off := by
    rw [padTo_length]
    omega
  rw [DB.overlay, overlaid, take_of_length_le hle]

theorem toInt_ofNat_size {n : ℕ} (h : n ≤ MaxValueSize) : (Int64.ofNat n).toInt = n :=
  Int64.toInt_ofNat_of_lt (lt_of_le_of_lt h (by decide))

theorem toInt_le_size (h : ¬ x > Int64.ofNat MaxValueSize) : x.toInt ≤ MaxValueSize := by
  have := Int64.lt_iff_toInt_lt.not.mp h
  rwa [not_lt] at this

theorem extended_toInt {L X : ℤ} (hL : L ≤ MaxValueSize) (hX : X ≤ MaxValueSize)
    (hL0 : 0 ≤ L) (hwrap : L ≤ X + 2 ^ 63) : L + ((X - L).bmod (2 ^ 64)).toNat = max L X := by
  rw [show MaxValueSize = 2 ^ 30 from rfl] at hL hX
  rw [Int.bmod_eq_of_le (by omega) (by omega)]
  omega

theorem extended_wraps {L X : ℤ} (hL : L ≤ MaxValueSize) (hX : -2 ^ 63 ≤ X)
    (hwrap : X + 2 ^ 63 < L) : (L + ((X - L).bmod (2 ^ 64)).toNat).bmod (2 ^ 64) = X := by
  rw [show MaxValueSize = 2 ^ 30 from rfl] at hL
  have hb : (X - L).bmod (2 ^ 64) = X - L + 2 ^ 64 := by
    rw [← Int.add_bmod_right, Int.bmod_eq_of_le (by omega) (by omega)]
    rfl
  rw [hb, Int.toNat_of_nonneg (by omega), show L + (X - L + 2 ^ 64) = X + (2 ^ 64 : ℕ) by omega,
    Int.add_bmod_right, Int.bmod_eq_of_le (by omega) (by omega)]

variable {N : ℕ} {offset : Int64}

theorem extend_length (hL : old.length ≤ MaxValueSize) (N : ℕ) (offset : Int64) :
    (DB.extend old (offset + Int64.ofNat N - Int64.ofNat old.length)).length =
      old.length + (((Int64.ofNat N + offset).toInt - old.length).bmod (2 ^ 64)).toNat := by
  rw [extend_eq, length_append, length_replicate, Int64.toInt_sub, toInt_ofNat_size hL,
    Int64.add_comm offset]

/-- Where the slice expression of `SetRange` is in range, for a string of `L` bytes and `N`
bytes to be written. -/
def SliceInRange (L N : ℕ) (offset : Int64) : Prop :=
  let last := (Int64.ofNat N + offset).toInt
  0 ≤ offset.toInt ∧ offset.toInt ≤ max (L : ℤ) last ∧ L ≤ last + 2 ^ 63

theorem sliceInRange_iff (hL : old.length ≤ MaxValueSize)
    (hend : ¬ Int64.ofNat N + offset > Int64.ofNat MaxValueSize) :
    ¬ (offset < 0 ∨ offset > Int64.ofNat
      (DB.extend old (offset + Int64.ofNat N - Int64.ofNat old.length)).length) ↔
      SliceInRange old.length N offset := by
  have hX := toInt_le_size hend
  have hL' : (old.length : ℤ) ≤ MaxValueSize := by exact_mod_cast hL
  rw [not_or, gt_iff_lt, Int64.lt_iff_toInt_lt, Int64.lt_iff_toInt_lt, extend_length hL, not_lt,
    not_lt, show (0 : Int64).toInt = 0 from rfl, Int64.toInt_ofNat', Nat.cast_add,
    show Int64.size = 2 ^ 64 from rfl]
  refine and_congr_right fun h0 => ?_
  by_cases hwrap : old.length ≤ (Int64.ofNat N + offset).toInt + 2 ^ 63
  · rw [extended_toInt hL' hX (Nat.cast_nonneg _) hwrap, Int.bmod_eq_of_le]
    · exact (and_iff_left hwrap).symm
    all_goals
      rw [show MaxValueSize = 2 ^ 30 from rfl] at hL' hX
      omega
  · rw [extended_wraps hL' (Int64.le_toInt _) (not_le.mp hwrap)]
    rw [show MaxValueSize = 2 ^ 30 from rfl] at hL'
    exact iff_of_false (by omega) fun h => hwrap h.2

theorem SliceInRange.extended (h : SliceInRange old.length N offset)
    (hL : old.length ≤ MaxValueSize) (hend : ¬ Int64.ofNat N + offset > Int64.ofNat MaxValueSize) :
    let len := (DB.extend old (offset + Int64.ofNat N - Int64.ofNat old.length)).length
    len ≤ MaxValueSize ∧ offset.toInt ≤ len := by
  have hX := toInt_le_size hend
  have hL' : (old.length : ℤ) ≤ MaxValueSize := by exact_mod_cast hL
  have hmax := extended_toInt hL' hX (Nat.cast_nonneg _) h.2.2
  have hle := h.2.1
  rw [extend_length hL]
  omega

end

section
variable {db : DB} {env : Env} {s : Store} {key value v r : Bytes} {op : BitOpName}
  {keys vs : List Bytes}

theorem value_length_le (h : Proper s) (db : DB) (key : Bytes) :
    ((s.get (db.encodeKVKey key)).getD []).length ≤ MaxValueSize := by
  cases hv : s.get (db.encodeKVKey key) with
  | none => exact Nat.zero_le _
  | some v => exact (h db _ key v hv).string rfl

theorem bitCombine_length {op : BitOpName} {v w r : Bytes} (h : bitCombine op v w = .ok r) :
    r.length = max v.length w.length := by
  unfold bitCombine at h
  cases hop : op.byte with
  | none =>
    simp only [hop] at h
    split_ifs at h <;> cases h <;> omega
  | some f =>
    simp only [hop, Except.ok.injEq] at h
    rw [← h]
    split_ifs <;> simp <;> omega

def DB.valuesOf (db : DB) (s : Store) (keys : List Bytes) : List Bytes :=
  keys.map fun k => (s.get (db.encodeKVKey k)).getD []

theorem bitOPLoop_ok :
    (db.bitOPLoop op v keys).eval env s = .ok r ↔
      (∀ k ∈ keys, ValidKey k) ∧ (db.valuesOf s keys).foldlM (bitCombine op) v = .ok r := by
  induction keys generalizing v with
  | nil => exact ⟨fun h => ⟨(fun _ h => nomatch h), h⟩, And.right⟩
  | cons k ks ih =>
    rw [forall_mem_cons, DB.valuesOf, map_cons, foldlM_cons]
    simp only [DB.bitOPLoop, Op.eval, Op.bind_run, Op.get_run]
    by_cases hk : ValidKey k
    · rw [checkKeySize_ok.mpr hk]
      cases hc : bitCombine op v ((s.get (db.encodeKVKey k)).getD []) with
      | error e => simp [bind, Except.bind]
      | ok w =>
        rw [and_iff_right hk]
        exact ih
    · rw [checkKeySize_error hk]
      simp [hk]

theorem foldlM_bitCombine_length (h : vs.foldlM (bitCombine op) v = .ok r) :
    r.length = Pointwise.maxLength (v :: vs) := by
  induction vs generalizing v with
  | nil =>
    cases h
    simp
  | cons w vs ih =>
    rw [foldlM_cons] at h
    cases hc : bitCombine op v w with
    | error e => simp [hc, bind, Except.bind] at h
    | ok u =>
      rw [hc] at h
      rw [ih h]
      simp [bitCombine_length hc]

theorem valuesOf_length_le (hs : Proper s) (keys : List Bytes) :
    ∀ v ∈ db.valuesOf s keys, v.length ≤ MaxValueSize := by
  intro v hv
  obtain ⟨k, -, rfl⟩ := mem_map.mp hv
  exact value_length_le hs db k

theorem bitOPLoop_length_le (hs : Proper s) (hv : v.length ≤ MaxValueSize)
    (h : (db.bitOPLoop op v keys).eval env s = .ok r) : r.length ≤ MaxValueSize := by
  rw [foldlM_bitCombine_length (bitOPLoop_ok.mp h).2]
  exact Pointwise.maxLength_le (forall_mem_cons.mpr ⟨hv, valuesOf_length_le hs keys⟩)

theorem byteOffset_lt (off : UInt32) : (off >>> 3).toNat < 2 ^ 29 := by
  have hlt := off.toNat_lt
  rw [UInt32.toNat_shiftRight, Nat.shiftRight_eq_div_pow]
  show off.toNat / 2 ^ 3 < 2 ^ 29
  omega

theorem extend_eq_padTo {b : ℕ} (hb : b < 2 ^ 29) (hv : v.length ≤ MaxValueSize) :
    DB.extend v (Int64.ofNat b + 1 - Int64.ofNat v.length) = padTo (b + 1) v := by
  have hM : MaxValueSize = 2 ^ 30 := rfl
  have hextra : (Int64.ofNat b + 1 - Int64.ofNat v.length).toInt = b + 1 - v.length := by
    rw [Int64.toInt_sub, Int64.toInt_add, toInt_ofNat_size hv, toInt_ofNat_size (by omega),
      show (1 : Int64).toInt = 1 from rfl, @Int.bmod_eq_of_le (b + 1) _ (by omega) (by omega),
      Int.bmod_eq_of_le (by omega) (by omega)]
  rw [extend_eq]
  congr 2
  omega

end

end LedisDB
