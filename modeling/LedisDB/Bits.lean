import LedisDB.Call
import LedisDB.Lanes

/-!
# Reading the bits of a string

`GetRange`, `BitCount` and `BitPos` of `ledis/t_kv.go`. All three select bytes with
`getRange`, but only `GetRange` tests whether the range is empty before it slices the value,
so the other two panic on a range that ends more than one byte before it starts. On any
other range they count and find the bits of the bytes that `GetRange` returns. Indexes are
exact integers: none of them goes beyond the length of a slice.
-/

namespace LedisDB

open List

def getRange (start stop valLen : ℤ) : ℤ × ℤ :=
  let start := if start < 0 then valLen + start else start
  let stop := if stop < 0 then valLen + stop else stop
  let start := if start < 0 then 0 else start
  let stop := if stop < 0 then 0 else stop
  let stop := if stop ≥ valLen then valLen - 1 else stop
  (start, stop)

def sliceBytes (value : Bytes) (start stop : ℤ) : Except Err Bytes :=
  if 0 ≤ start ∧ start ≤ stop + 1 ∧ stop + 1 ≤ value.length then
    .ok ((value.take (stop + 1).toNat).drop start.toNat)
  else .error .panic

def bitsInByte : List Int32 :=
  [0, 1, 1, 2, 1, 2, 2, 3, 1, 2, 2, 3, 2, 3, 3, 4, 1, 2, 2, 3, 2, 3, 3, 4, 2, 3, 3, 4, 3, 4, 4, 5,
   1, 2, 2, 3, 2, 3, 3, 4, 2, 3, 3, 4, 3, 4, 4, 5, 2, 3, 3, 4, 3, 4, 4, 5, 3, 4, 4, 5, 4, 5, 5, 6,
   1, 2, 2, 3, 2, 3, 3, 4, 2, 3, 3, 4, 3, 4, 4, 5, 2, 3, 3, 4, 3, 4, 4, 5, 3, 4, 4, 5, 4, 5, 5, 6,
   2, 3, 3, 4, 3, 4, 4, 5, 3, 4, 4, 5, 4, 5, 5, 6, 3, 4, 4, 5, 4, 5, 5, 6, 4, 5, 5, 6, 5, 6, 6, 7,
   1, 2, 2, 3, 2, 3, 3, 4, 2, 3, 3, 4, 3, 4, 4, 5, 2, 3, 3, 4, 3, 4, 4, 5, 3, 4, 4, 5, 4, 5, 5, 6,
   2, 3, 3, 4, 3, 4, 4, 5, 3, 4, 4, 5, 4, 5, 5, 6, 3, 4, 4, 5, 4, 5, 5, 6, 4, 5, 5, 6, 5, 6, 6, 7,
   2, 3, 3, 4, 3, 4, 4, 5, 3, 4, 4, 5, 4, 5, 5, 6, 3, 4, 4, 5, 4, 5, 5, 6, 4, 5, 5, 6, 5, 6, 6, 7,
   3, 4, 4, 5, 4, 5, 5, 6, 4, 5, 5, 6, 5, 6, 6, 7, 4, 5, 5, 6, 5, 6, 6, 7, 5, 6, 6, 7, 6, 7, 7, 8]

def numberBitCount (i : UInt32) : UInt32 :=
  let i : UInt32 := i - (i >>> 1 &&& 0x55555555)
  let i : UInt32 := (i &&& (0x33333333 : UInt32)) + (i >>> 2 &&& (0x33333333 : UInt32))
  ((i + i >>> 4 &&& 0x0F0F0F0F) * 0x01010101) >>> 24

def bitCountTail : Bytes → Int64 → Int64
  | [], n => n
  | v :: vs, n => bitCountTail vs (n + (bitsInByte.getD v.toNat 0).toInt64)

def bitCountWord (word : Bytes) : Int64 :=
  Int64.ofNat (numberBitCount (UInt32.ofNat (beNat word))).toNat

def bitCountLoop (count : Bytes → Int64) : ℕ → Bytes → Int64 → Int64
  | 0, value, n => bitCountTail value n
  | words + 1, value, n => bitCountLoop count words (value.drop 4) (n + count (value.take 4))

def bitPosByte (on : Int64) (v : UInt8) : Option ℕ :=
  (List.range 8).find? fun j =>
    let isNull : Bool := v &&& (1 <<< UInt8.ofNat (7 - j)) = 0
    (on = 1 && !isNull) || (on = 0 && isNull)

def bitPosLoop (on : Int64) (skipValue : UInt8) (start : ℤ) : ℤ → Bytes → Int64
  | _, [] => -1
  | i, v :: vs =>
    match if v ≠ skipValue then bitPosByte on v else none with
    | some j => Int64.ofInt ((start + i) * 8 + j)
    | none => bitPosLoop on skipValue start (i + 1) vs

namespace DB

def GetRange (db : DB) (key : Bytes) (start stop : ℤ) : Op (Option Bytes) := do
  Op.lift (checkKeySize key)
  let v ← Op.get (db.encodeKVKey key)
  let value := v.getD []
  let (start, stop) := getRange start stop value.length
  if start > stop then pure none
  else do
    let r ← Op.lift (sliceBytes value start stop)
    pure (some r)

def BitCount (db : DB) (key : Bytes) (start stop : ℤ) : Op Int64 := do
  Op.lift (checkKeySize key)
  let v ← Op.get (db.encodeKVKey key)
  let value := v.getD []
  let (start, stop) := getRange start stop value.length
  let value ← Op.lift (sliceBytes value start stop)
  pure (bitCountLoop bitCountWord (value.length / 4) value 0)

def BitPos (db : DB) (key : Bytes) (on : Int64) (start stop : ℤ) : Op Int64 := do
  Op.lift (checkKeySize key)
  if on &&& ~~~1 ≠ 0 then Op.throw .errBitValue
  else do
    let skipValue : UInt8 := if on = 0 then 0xFF else 0
    let v ← Op.get (db.encodeKVKey key)
    let value := v.getD []
    let (start, stop) := getRange start stop value.length
    let value ← Op.lift (sliceBytes value start stop)
    pure (bitPosLoop on skipValue start 0 value)

end DB

def byteBits (b : ℕ) : List Bool := (List.range 8).map fun j => b.testBit (7 - j)

def bitsOf (v : Bytes) : List Bool := v.flatMap fun b => byteBits b.toNat

def firstBit (start : ℤ) (r : Bytes) (on : Bool) : Int64 :=
  if on ∈ bitsOf r then Int64.ofInt (start * 8 + (bitsOf r).idxOf on) else -1

theorem bitsInByte_count : ∀ b : Fin 256,
    (bitsInByte.getD b.val 0).toInt64 = Int64.ofNat ((byteBits b.val).count true) := by
  decide +kernel

theorem pairCounts_lt : ∀ b : Fin 256, pairCounts b.val < 256 := by
  decide +kernel

theorem nibbleCounts_le : ∀ b : Fin 256, nibbleCounts (pairCounts b.val) % 16 ≤ 4 ∧
    nibbleCounts (pairCounts b.val) / 16 ≤ 4 := by
  decide +kernel

theorem byteCount_eq : ∀ b : Fin 256,
    byteCount (nibbleCounts (pairCounts b.val)) = (byteBits b.val).count true := by
  decide +kernel

def bitNumber (on : Bool) : Int64 := if on then 1 else 0

theorem bitPosByte_eq : ∀ (b : Fin 256) (on : Bool),
    (if UInt8.ofNat b.val ≠ (if bitNumber on = 0 then 0xFF else 0) then
      bitPosByte (bitNumber on) (UInt8.ofNat b.val) else none) =
      if on ∈ byteBits b.val then some ((byteBits b.val).idxOf on) else none := by
  decide +kernel

section
variable {i : UInt32} {bs : List ℕ}

theorem pairs_toNat (hlen : bs.length = 4) (hb : ∀ b ∈ bs, b < 256) (hi : i.toNat = lanes bs) :
    (i - (i >>> 1 &&& 0x55555555)).toNat = lanes (bs.map pairCounts) := by
  rw [UInt32.toNat_sub_of_le, ← lanes_pairCounts hb, hlen, UInt32.toNat_and,
    UInt32.toNat_shiftRight, hi]
  · rfl
  · exact Nat.and_le_left.trans (Nat.shiftRight_le _ _)

theorem nibbles_toNat (hlen : bs.length = 4) (hb : ∀ b ∈ bs, b < 256) (hi : i.toNat = lanes bs) :
    ((i &&& (0x33333333 : UInt32)) + (i >>> 2 &&& (0x33333333 : UInt32))).toNat =
      lanes (bs.map nibbleCounts) := by
  have hlt : lanes (bs.map nibbleCounts) < 2 ^ 32 := by
    have hbytes : ∀ b ∈ bs.map nibbleCounts, b < 256 := by
      intro x hx
      obtain ⟨b, -, rfl⟩ := mem_map.mp hx
      have hlow : b &&& 0x33 ≤ 0x33 := Nat.and_le_right
      have hhigh : b >>> 2 &&& 0x33 ≤ 0x33 := Nat.and_le_right
      rw [nibbleCounts]
      omega
    have hword := lanes_lt hbytes
    rwa [length_map, hlen] at hword
  have hsum := lanes_nibbleCounts hb
  rw [hlen, ← hi] at hsum
  rw [← Nat.mod_eq_of_lt hlt, ← hsum]
  rfl

theorem bytes_toNat (hlen : bs.length = 4) (hb : ∀ b ∈ bs, b % 16 ≤ 4 ∧ b / 16 ≤ 4)
    (hi : i.toNat = lanes bs) :
    (((i + i >>> 4 &&& 0x0F0F0F0F) * 0x01010101) >>> 24).toNat = (bs.map byteCount).sum := by
  have hlt : lanes bs + lanes bs >>> 4 < 2 ^ 32 := by
    have hbytes : ∀ b ∈ bs.map fun b => b + b, b < 256 := by
      intro x hx
      obtain ⟨b, hin, rfl⟩ := mem_map.mp hx
      have hnib := hb b hin
      omega
    have hword := lanes_lt hbytes
    rw [← lanes_add, length_map, hlen, map_id'] at hword
    exact lt_of_le_of_lt (Nat.add_le_add_left (Nat.shiftRight_le _ _) _) hword
  have hcount := lanes_byteCount hb
  rw [hlen] at hcount
  rw [UInt32.toNat_shiftRight, UInt32.toNat_mul, UInt32.toNat_and, UInt32.toNat_add,
    UInt32.toNat_shiftRight, hi]
  refine (congrArg (fun w => (w * 0x01010101 % 2 ^ 32) >>> 24) ?_).trans
    (lanes_sum ((length_map byteCount).trans hlen) ?_)
  · rw [← hcount]
    exact congrArg (· &&& lanes (replicate 4 0x0F)) (Nat.mod_eq_of_lt hlt)
  · intro x hx
    obtain ⟨b, -, rfl⟩ := mem_map.mp hx
    exact lt_of_le_of_lt Nat.and_le_right (by decide)

theorem numberBitCount_lanes (hlen : bs.length = 4) (hb : ∀ b ∈ bs, b < 256)
    (hi : i.toNat = lanes bs) :
    (numberBitCount i).toNat = (bs.map fun b => (byteBits b).count true).sum := by
  have hpairs : ∀ b ∈ bs.map pairCounts, b < 256 := by
    intro x hx
    obtain ⟨b, hin, rfl⟩ := mem_map.mp hx
    exact pairCounts_lt ⟨b, hb b hin⟩
  have hnibbles : ∀ b ∈ (bs.map pairCounts).map nibbleCounts, b % 16 ≤ 4 ∧ b / 16 ≤ 4 := by
    intro x hx
    obtain ⟨b, hin, rfl⟩ := mem_map.mp (map_map ▸ hx)
    exact nibbleCounts_le ⟨b, hb b hin⟩
  have hword := bytes_toNat (by simp [hlen]) hnibbles
    (nibbles_toNat (by simp [hlen]) hpairs (pairs_toNat hlen hb hi))
  rw [map_map, map_map] at hword
  refine hword.trans (congrArg sum (map_congr_left fun b hin => ?_))
  exact byteCount_eq ⟨b, hb b hin⟩

end

theorem bitsOf_cons (b : UInt8) (v : Bytes) : bitsOf (b :: v) = byteBits b.toNat ++ bitsOf v :=
  flatMap_cons

theorem bitCountTail_eq (v : Bytes) (n : Int64) :
    bitCountTail v n = n + Int64.ofNat ((bitsOf v).count true) := by
  induction v generalizing n with
  | nil => exact (Int64.add_zero n).symm
  | cons b v ih =>
    rw [bitCountTail, ih, bitsInByte_count ⟨b.toNat, b.toNat_lt⟩, bitsOf_cons, count_append,
      Int64.ofNat_add, Int64.add_assoc]

theorem bitCountWord_eq {word : Bytes} (h : word.length = 4) :
    bitCountWord word = Int64.ofNat ((bitsOf word).count true) := by
  obtain ⟨a, b, c, d, rfl⟩ : ∃ a b c d, word = [a, b, c, d] := by
    match word, h with
    | [a, b, c, d], _ => exact ⟨a, b, c, d, rfl⟩
  have hbytes : ∀ x ∈ [d.toNat, c.toNat, b.toNat, a.toNat], x < 256 := by
    simp only [forall_mem_cons]
    exact ⟨d.toNat_lt, c.toNat_lt, b.toNat_lt, a.toNat_lt, forall_mem_nil _⟩
  have hlanes : beNat [a, b, c, d] = lanes [d.toNat, c.toNat, b.toNat, a.toNat] := by
    simp only [beNat, lanes, length_cons, length_nil]
    ring
  have hword : (UInt32.ofNat (beNat [a, b, c, d])).toNat =
      lanes [d.toNat, c.toNat, b.toNat, a.toNat] := by
    rw [hlanes, UInt32.toNat_ofNat_of_lt']
    exact lt_of_lt_of_eq (lanes_lt hbytes) (by norm_num [UInt32.size])
  rw [bitCountWord, numberBitCount_lanes rfl hbytes hword]
  simp only [bitsOf, flatMap_cons, flatMap_nil, count_append, map_cons,
    map_nil, sum_cons, sum_nil, count_nil]
  congr 1
  ring

theorem bitCountLoop_eq {words : ℕ} {v : Bytes} (h : words * 4 ≤ v.length) (n : Int64) :
    bitCountLoop bitCountWord words v n = n + Int64.ofNat ((bitsOf v).count true) := by
  induction words generalizing v n with
  | zero => exact bitCountTail_eq v n
  | succ words ih =>
    have hword : (v.take 4).length = 4 := by
      rw [length_take]
      omega
    have hbits : bitsOf v = bitsOf (v.take 4) ++ bitsOf (v.drop 4) := by
      rw [bitsOf, bitsOf, bitsOf, ← flatMap_append, take_append_drop]
    rw [bitCountLoop, ih, bitCountWord_eq hword, hbits, count_append, Int64.ofNat_add,
      Int64.add_assoc]
    rw [length_drop]
    omega

theorem firstBit_cons (start : ℤ) (b : UInt8) (v : Bytes) (on : Bool) :
    firstBit start (b :: v) on =
      if on ∈ byteBits b.toNat then Int64.ofInt (start * 8 + (byteBits b.toNat).idxOf on)
      else firstBit (start + 1) v on := by
  have hlen : (byteBits b.toNat).length = 8 := by simp [byteBits]
  rw [firstBit, firstBit, bitsOf_cons, idxOf_append, hlen]
  by_cases hb : on ∈ byteBits b.toNat
  · simp [hb]
  · simp only [mem_append, hb, false_or, if_false]
    split_ifs
    · congr 1
      push_cast
      ring
    · rfl

theorem bitPosLoop_eq (on : Bool) (start i : ℤ) (v : Bytes) :
    bitPosLoop (bitNumber on) (if bitNumber on = 0 then 0xFF else 0) start i v =
      firstBit (start + i) v on := by
  induction v generalizing i with
  | nil => rfl
  | cons b v ih =>
    have hbyte := bitPosByte_eq ⟨b.toNat, b.toNat_lt⟩ on
    rw [UInt8.ofNat_toNat] at hbyte
    rw [bitPosLoop, hbyte, firstBit_cons]
    by_cases hb : on ∈ byteBits b.toNat
    · simp [if_pos hb]
    · simp only [if_neg hb]
      rw [ih, add_assoc]

section
variable {db : DB} {env : Env} {s : Store} {key value : Bytes}

theorem getRange_bounds (start stop : ℤ) (n : ℕ) :
    0 ≤ (getRange start stop n).1 ∧ (getRange start stop n).2 + 1 ≤ n ∧
      -1 ≤ (getRange start stop n).2 := by
  simp only [getRange]
  split_ifs <;> omega

def rangeBytes (value : Bytes) (start stop : ℤ) : Bytes :=
  (value.take ((getRange start stop value.length).2 + 1).toNat).drop
    (getRange start stop value.length).1.toNat

theorem sliceBytes_ok {start stop : ℤ}
    (h : (getRange start stop value.length).1 ≤ (getRange start stop value.length).2 + 1) :
    sliceBytes value (getRange start stop value.length).1 (getRange start stop value.length).2 =
      .ok (rangeBytes value start stop) := by
  have hb := getRange_bounds start stop value.length
  exact if_pos ⟨hb.1, h, hb.2.1⟩

theorem sliceBytes_panic {start stop : ℤ}
    (h : ¬ (getRange start stop value.length).1 ≤ (getRange start stop value.length).2 + 1) :
    sliceBytes value (getRange start stop value.length).1 (getRange start stop value.length).2 =
      .error .panic :=
  if_neg fun hno => h hno.2.1

theorem GetRange_eval (hk : ValidKey key) (start stop : ℤ) : ∃ r,
    (db.GetRange key start stop).eval env s = .ok r ∧
      r.getD [] = rangeBytes ((s.get (db.encodeKVKey key)).getD []) start stop := by
  generalize hv : (s.get (db.encodeKVKey key)).getD [] = value
  by_cases hlt : (getRange start stop value.length).1 > (getRange start stop value.length).2
  · refine ⟨none, ?_, ?_⟩
    · simp [DB.GetRange, Op.eval, checkKeySize_ok.mpr hk, hv, hlt]
    · symm
      rw [rangeBytes, Option.getD_none, drop_eq_nil_iff, length_take]
      omega
  · have hslice : sliceBytes value (getRange start stop value.length).1
        (getRange start stop value.length).2 = .ok (rangeBytes value start stop) :=
      sliceBytes_ok (by omega)
    simp [DB.GetRange, Op.eval, checkKeySize_ok.mpr hk, hv, hlt, hslice]

theorem BitCount_eval (hk : ValidKey key) (start stop : ℤ) :
    (db.BitCount key start stop).eval env s =
      (sliceBytes ((s.get (db.encodeKVKey key)).getD [])
        (getRange start stop ((s.get (db.encodeKVKey key)).getD []).length).1
        (getRange start stop ((s.get (db.encodeKVKey key)).getD []).length).2).map
        fun r => Int64.ofNat ((bitsOf r).count true) := by
  generalize hv : (s.get (db.encodeKVKey key)).getD [] = value
  simp only [DB.BitCount, Op.eval, Op.bind_run, Op.lift_run, checkKeySize_ok.mpr hk, Op.get_run, hv]
  cases sliceBytes value (getRange start stop value.length).1
      (getRange start stop value.length).2 with
  | error e => rfl
  | ok r =>
    simp only [bitCountLoop_eq (Nat.div_mul_le_self r.length 4), Int64.zero_add]
    rfl

theorem BitPos_eval (hk : ValidKey key) (on : Bool) (start stop : ℤ) :
    (db.BitPos key (bitNumber on) start stop).eval env s =
      (sliceBytes ((s.get (db.encodeKVKey key)).getD [])
        (getRange start stop ((s.get (db.encodeKVKey key)).getD []).length).1
        (getRange start stop ((s.get (db.encodeKVKey key)).getD []).length).2).map
        fun r => firstBit (getRange start stop ((s.get (db.encodeKVKey key)).getD []).length).1
          r on := by
  generalize hv : (s.get (db.encodeKVKey key)).getD [] = value
  have hbit : ¬ bitNumber on &&& ~~~1 ≠ 0 := by
    cases on <;> decide
  simp only [DB.BitPos, Op.eval, Op.bind_run, checkKeySize_ok.mpr hk, hbit, if_false,
    Op.get_run, hv]
  cases sliceBytes value (getRange start stop value.length).1
      (getRange start stop value.length).2 with
  | error e => rfl
  | ok r =>
    simp only [bitPosLoop_eq, add_zero]
    rfl

/-- On the bytes that `GetRange` returns `BitCount` counts the bits and `BitPos` finds the
first one, exactly when the range does not end more than one byte before it starts. -/
theorem bits_of_range_iff (db : DB) (env : Env) (s : Store) (hk : ValidKey key) (start stop : ℤ) :
    let value := (s.get (db.encodeKVKey key)).getD [];
    let first := (getRange start stop value.length).1;
    let last := (getRange start stop value.length).2;
    ∃ r, (db.GetRange key start stop).eval env s = .ok r ∧
      r.getD [] = (value.take (last + 1).toNat).drop first.toNat ∧
      ((db.BitCount key start stop).eval env s =
          .ok (Int64.ofNat ((bitsOf (r.getD [])).count true)) ∧
        (∀ on, (db.BitPos key (bitNumber on) start stop).eval env s =
          .ok (firstBit first (r.getD []) on)) ↔ first ≤ last + 1) := by
  obtain ⟨r, hr, hbytes⟩ := @GetRange_eval db env s key hk start stop
  refine ⟨r, hr, hbytes, ?_⟩
  rw [BitCount_eval hk, hbytes]
  simp only [BitPos_eval hk]
  constructor
  · rintro ⟨hcount, -⟩
    by_contra hno
    rw [sliceBytes_panic hno] at hcount
    cases hcount
  · intro h
    rw [sliceBytes_ok h]
    exact ⟨rfl, fun _ => rfl⟩

def threeBytes : Store :=
  (exec (Env.quiet 0) (DB.zero.Set [107] [0x00, 0x0F, 0xFF]) State.empty).2.store

theorem bits_of_range_last_two : ∃ r,
    (DB.zero.GetRange [107] (-2) (-1)).eval (Env.quiet 0) threeBytes = .ok r ∧
    (DB.zero.BitCount [107] (-2) (-1)).eval (Env.quiet 0) threeBytes =
      .ok (Int64.ofNat ((bitsOf (r.getD [])).count true)) ∧
    ∀ on, (DB.zero.BitPos [107] (bitNumber on) (-2) (-1)).eval (Env.quiet 0) threeBytes =
      .ok (firstBit 1 (r.getD []) on) := by
  obtain ⟨r, hr, -, hiff⟩ := @bits_of_range_iff [107] DB.zero (Env.quiet 0) threeBytes
    (by decide) (-2) (-1)
  exact ⟨r, hr, hiff.mpr (by decide)⟩

theorem bits_of_backward_range :
    (DB.zero.GetRange [107] 2 0).eval (Env.quiet 0) threeBytes = .ok none ∧
    (DB.zero.BitCount [107] 2 0).eval (Env.quiet 0) threeBytes = .error .panic ∧
    (DB.zero.BitPos [107] 1 2 0).eval (Env.quiet 0) threeBytes = .error .panic ∧
    (DB.zero.GetRange [108] 1 2).eval (Env.quiet 0) threeBytes = .ok none ∧
    (DB.zero.BitCount [108] 1 2).eval (Env.quiet 0) threeBytes = .error .panic := by
  decide

end

end LedisDB
