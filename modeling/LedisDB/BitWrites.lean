import LedisDB.Flush

/-!
# SETBIT and GETBIT

Both convert the offset to 32 bits before they use it. Offsets that differ by a multiple of
two to the thirty-second are therefore one bit, and an offset that is negative or too large
for 32 bits extends the value to where its lower half points.
-/

namespace LedisDB

def DB.GetBit (db : DB) (key : Bytes) (offset : Int64) : Op Int64 := do
  Op.lift (checkKeySize key)
  let v ← Op.get (db.encodeKVKey key)
  let value := v.getD []
  let off := offset.toUInt64.toUInt32
  let byteOffset := off >>> 3
  let bit : UInt8 := 7 - (off &&& 7).toUInt8
  if byteOffset ≥ UInt32.ofNat value.length then pure 0
  else
    let bitVal := value.getD byteOffset.toNat 0 &&& (1 <<< bit)
    pure (if bitVal > 0 then 1 else 0)

section
variable {b k o : UInt8}

theorem shiftLeft_toBitVec (x : UInt8) (hk : k.toNat < 8) :
    (x <<< k).toBitVec = x.toBitVec <<< k.toNat := by
  show x.toBitVec <<< (k.toNat % 8) = _
  rw [Nat.mod_eq_of_lt hk]

theorem and_mask_pos (hk : k.toNat < 8) :
    b &&& (1 <<< k) > 0 ↔ b.toBitVec.getLsbD k.toNat = true := by
  rw [gt_iff_lt, UInt8.pos_iff_ne_zero, not_iff_comm, ← UInt8.toBitVec_inj,
    UInt8.toBitVec_and, shiftLeft_toBitVec _ hk]
  constructor
  · simp
    grind
  · intro h
    have := congrArg (fun x => BitVec.getLsbD x k.toNat) h
    simpa [hk] using this

def putBit (b k o : UInt8) : UInt8 := (b &&& ~~~(1 <<< k)) ||| (o <<< k)

theorem getLsbD_putBit (hk : k.toNat < 8) (ho : o = 0 ∨ o = 1) {i : ℕ} (hi : i < 8) :
    (putBit b k o).toBitVec.getLsbD i =
      if i = k.toNat then decide (o = 1) else b.toBitVec.getLsbD i := by
  rw [putBit]
  rcases ho with rfl | rfl
  · simp
    grind
  · simp
    grind

end

theorem bit_cases {on : Int64} (h : on &&& ~~~1 = 0) : on = 0 ∨ on = 1 := by
  have hbits : ∀ i, 0 < i → i < 64 → on.toBitVec.getLsbD i = false := by
    intro i hi hlt
    have hand := congrArg (fun x : Int64 => x.toBitVec.getLsbD i) h
    have hone : (1#64).getLsbD i = false := by simp [hi.ne']
    have hzero : (0 : Int64).toBitVec.getLsbD i = false := BitVec.getLsbD_zero
    simp only [Int64.toBitVec_and, Int64.toBitVec_not, BitVec.getLsbD_and,
      BitVec.getLsbD_not] at hand
    rw [hzero, show (1 : Int64).toBitVec = 1#64 from rfl, hone] at hand
    simpa only [decide_eq_true hlt, Bool.not_false, Bool.and_true] using hand
  have hext : ∀ m : Int64, on.toBitVec.getLsbD 0 = m.toBitVec.getLsbD 0 →
      (∀ i, 0 < i → i < 64 → m.toBitVec.getLsbD i = false) → on = m := by
    intro m h0 hm
    refine Int64.toBitVec_inj.mp (BitVec.eq_of_getLsbD_eq fun i hi => ?_)
    rcases Nat.eq_zero_or_pos i with rfl | hpos
    · exact h0
    · rw [hbits i hpos hi, hm i hpos hi]
  by_cases h0 : on.toBitVec.getLsbD 0 = true
  · refine .inr (hext 1 h0 fun i hi _ => ?_)
    simp [hi.ne']
  · exact .inl (hext 0 (Bool.not_eq_true _ ▸ h0) fun i _ _ => BitVec.getLsbD_zero)

def shiftOf (off : UInt32) : UInt8 := 7 - (off &&& 7).toUInt8

def bitIn (value : Bytes) (off : UInt32) : Int64 :=
  if value.getD (off >>> 3).toNat 0 &&& (1 <<< shiftOf off) > 0 then 1 else 0

def withBit (value : Bytes) (off : UInt32) (o : UInt8) : Bytes :=
  let byteOffset := (off >>> 3).toNat
  (padTo (byteOffset + 1) value).set byteOffset (putBit (value.getD byteOffset 0) (shiftOf off) o)

section
variable {value : Bytes} {off off' : UInt32}

theorem byteOffset_toNat (off : UInt32) : (off >>> 3).toNat = off.toNat / 8 := by
  rw [UInt32.toNat_shiftRight, Nat.shiftRight_eq_div_pow]
  rfl

theorem shiftOf_toNat (off : UInt32) : (shiftOf off).toNat = 7 - off.toNat % 8 := by
  have hmod : (off &&& 7).toNat = off.toNat % 8 := by
    exact Nat.and_two_pow_sub_one_eq_mod off.toNat 3
  have h8 : (off &&& 7).toUInt8.toNat = off.toNat % 8 := by
    rw [UInt32.toNat_toUInt8]
    omega
  rw [shiftOf, UInt8.toNat_sub_of_le, h8]
  · rfl
  · rw [UInt8.le_iff_toNat_le]
    show _ ≤ 7
    omega

theorem shiftOf_lt (off : UInt32) : (shiftOf off).toNat < 8 := by
  rw [shiftOf_toNat]
  omega

theorem bitIn_eq (value : Bytes) (off : UInt32) : bitIn value off =
    if (value.getD (off.toNat / 8) 0).toBitVec.getLsbD (7 - off.toNat % 8) = true then 1
    else 0 := by
  simp only [bitIn, and_mask_pos (shiftOf_lt off), byteOffset_toNat, shiftOf_toNat]

theorem withBit_getD (value : Bytes) (off : UInt32) (o : UInt8) (i : ℕ) :
    (withBit value off o).getD i 0 = if i = off.toNat / 8 then
      putBit (value.getD i 0) (shiftOf off) o else value.getD i 0 := by
  have hlt : off.toNat / 8 < (padTo (off.toNat / 8 + 1) value).length := by
    rw [padTo_length]
    omega
  simp only [withBit, byteOffset_toNat]
  split_ifs with hi
  · subst hi
    rw [List.getD_eq_getElem _ _ (by rwa [List.length_set]), List.getElem_set_self]
  · rw [List.getD_eq_getElem?_getD, List.getElem?_set_ne (Ne.symm hi), ← List.getD_eq_getElem?_getD,
      padTo_getD]

theorem bitIn_withBit {on : Int64} (hon : on = 0 ∨ on = 1) (value : Bytes) (off off' : UInt32) :
    bitIn (withBit value off (on &&& 1).toUInt64.toUInt8) off' =
      if off' = off then on else bitIn value off' := by
  rw [bitIn_eq, withBit_getD, bitIn_eq]
  have ho : (on &&& 1).toUInt64.toUInt8 = 0 ∧ on = 0 ∨
      (on &&& 1).toUInt64.toUInt8 = 1 ∧ on = 1 := by
    rcases hon with rfl | rfl
    · exact .inl ⟨rfl, rfl⟩
    · exact .inr ⟨rfl, rfl⟩
  by_cases hbyte : off'.toNat / 8 = off.toNat / 8
  · rw [if_pos hbyte, getLsbD_putBit (shiftOf_lt off) (ho.imp And.left And.left) (by omega),
      shiftOf_toNat]
    by_cases hoff : off' = off
    · subst hoff
      rw [if_pos rfl, if_pos rfl]
      rcases ho with ⟨ho, rfl⟩ | ⟨ho, rfl⟩
      · rfl
      · rfl
    · have hne : off'.toNat ≠ off.toNat := fun h => hoff (UInt32.toNat_inj.mp h)
      have hshift : ¬ 7 - off'.toNat % 8 = 7 - off.toNat % 8 := by omega
      rw [if_neg hshift, if_neg hoff]
  · have hoff : off' ≠ off := fun h => hbyte (h ▸ rfl)
    rw [if_neg hbyte, if_neg hoff]

theorem withBit_length (value : Bytes) (off : UInt32) (o : UInt8) :
    (withBit value off o).length = max value.length (off.toNat / 8 + 1) := by
  rw [withBit, List.length_set, padTo_length, byteOffset_toNat]

end

section
variable {db : DB} {env : Env} {st st' : State} {s : Store} {key value : Bytes} {p q on r : Int64}

theorem offset_toNat (p : Int64) : (p.toUInt64.toUInt32.toNat : ℤ) = p.toInt % 2 ^ 32 := by
  have h := DB.toInt_eq_toNat p
  rw [UInt64.toNat_toUInt32]
  split_ifs at h <;> omega

theorem GetBit_eval (hk : ValidKey key)
    (hL : ((s.get (db.encodeKVKey key)).getD []).length ≤ MaxValueSize) (q : Int64) :
    (db.GetBit key q).eval env s =
      .ok (bitIn ((s.get (db.encodeKVKey key)).getD []) q.toUInt64.toUInt32) := by
  generalize hv : (s.get (db.encodeKVKey key)).getD [] = v at hL
  have hM : MaxValueSize = 2 ^ 30 := rfl
  simp only [DB.GetBit, Op.eval, Op.bind_run, checkKeySize_ok.mpr hk, Op.get_run, hv]
  by_cases hge : q.toUInt64.toUInt32 >>> 3 ≥ UInt32.ofNat v.length
  · have hdefault : v.getD (q.toUInt64.toUInt32 >>> 3).toNat 0 = 0 := by
      refine List.getD_eq_default _ _ ?_
      rw [ge_iff_le, UInt32.le_iff_toNat_le, UInt32.toNat_ofNat_of_lt'] at hge
      · exact hge
      · show v.length < 2 ^ 32
        omega
    rw [if_pos hge, bitIn, hdefault, UInt8.zero_and]
    rfl
  · rw [if_neg hge]
    rfl

section
variable (hL : ((st.store.get (db.encodeKVKey key)).getD []).length ≤ MaxValueSize)
include hL

theorem SetBit_exec (hk : ValidKey key) (hon : on &&& ~~~1 = 0) (p : Int64) :
    let value := (st.store.get (db.encodeKVKey key)).getD []
    exec env (db.SetBit key p on) st =
      match commit env st.store [.put (db.encodeKVKey key)
        (withBit value p.toUInt64.toUInt32 (on &&& 1).toUInt64.toUInt8)] with
      | .error e => (.error e, st)
      | .ok s => (.ok (bitIn value p.toUInt64.toUInt32), ⟨s, st.nc⟩) := by
  have hext := extend_eq_padTo (byteOffset_lt p.toUInt64.toUInt32) hL
  simp only [exec, DB.SetBit, Op.bind_run, checkKeySize_ok.mpr hk,
    if_neg (not_not.mpr hon), Op.get_run]
  rw [hext, padTo_getD]
  rfl

theorem SetBit_ok (h : exec env (db.SetBit key p on) st = (.ok r, st')) :
    let value := (st.store.get (db.encodeKVKey key)).getD []
    ValidKey key ∧ (on = 0 ∨ on = 1) ∧ r = bitIn value p.toUInt64.toUInt32 ∧
      st'.store.get (db.encodeKVKey key) =
        some (withBit value p.toUInt64.toUInt32 (on &&& 1).toUInt64.toUInt8) := by
  intro value
  by_cases hk : ValidKey key
  · by_cases hon : on &&& ~~~1 = 0
    · rw [SetBit_exec hL hk hon] at h
      cases hc : commit env st.store [.put (db.encodeKVKey key)
          (withBit value p.toUInt64.toUInt32 (on &&& 1).toUInt64.toUInt8)] with
      | error e =>
        rw [hc] at h
        cases h
      | ok s =>
        rw [hc] at h
        cases h
        refine ⟨hk, bit_cases hon, rfl, ?_⟩
        rw [commit_ok hc]
        exact OrderedMap.get_applyBatch_put _ _ _
    · simp [exec, DB.SetBit, checkKeySize_ok.mpr hk, hon] at h
  · simp [exec, DB.SetBit, checkKeySize_error hk] at h

end

structure BitLens (db : DB) (env : Env) (st st' : State) (key : Bytes) (p on r q : Int64) :
    Prop where
  read : (db.GetBit key q).eval env st'.store =
    if q = p then .ok on else (db.GetBit key q).eval env st.store
  previous : (db.GetBit key p).eval env st.store = .ok r
  length : (((st'.store.get (db.encodeKVKey key)).getD []).length : ℤ) =
    max (((st.store.get (db.encodeKVKey key)).getD []).length : ℤ) (p.toInt / 8 + 1)

theorem bit_lens_iff (h : Reached st.store)
    (hset : exec env (db.SetBit key p on) st = (.ok r, st')) (q : Int64) :
    let L := ((st.store.get (db.encodeKVKey key)).getD []).length
    BitLens db env st st' key p on r q ↔
      (q = p ∨ q.toInt % 2 ^ 32 ≠ p.toInt % 2 ^ 32 ∨ (db.GetBit key q).eval env st.store = .ok on) ∧
      (0 ≤ p.toInt ∧ p.toInt < 2 ^ 32 ∨ p.toInt % 2 ^ 32 / 8 < L ∧ p.toInt / 8 < L) := by
  intro L
  have hL := h.value_length_le db key
  obtain ⟨hk, hon, hr, hput⟩ := SetBit_ok hL hset
  have hL' : ((st'.store.get (db.encodeKVKey key)).getD []).length ≤ MaxValueSize := by
    have hreached := @Reached.exec db _ st h env (.SetBit key p on) _ rfl
    rw [hset] at hreached
    exact hreached.value_length_le db key
  have hsame : q.toUInt64.toUInt32 = p.toUInt64.toUInt32 ↔ q.toInt % 2 ^ 32 = p.toInt % 2 ^ 32 := by
    rw [← UInt32.toNat_inj, ← Nat.cast_inj (R := ℤ), offset_toNat, offset_toNat]
  have hread : (db.GetBit key q).eval env st'.store =
      if q.toInt % 2 ^ 32 = p.toInt % 2 ^ 32 then .ok on
      else (db.GetBit key q).eval env st.store := by
    rw [GetBit_eval hk hL', GetBit_eval hk hL, hput, Option.getD_some, bitIn_withBit hon]
    simp only [hsame]
    split_ifs <;> rfl
  have hprevious : (db.GetBit key p).eval env st.store = .ok r := by
    rw [GetBit_eval hk hL, hr]
  have hlength : ((st'.store.get (db.encodeKVKey key)).getD []).length =
      max (L : ℤ) (p.toInt % 2 ^ 32 / 8 + 1) := by
    rw [hput, Option.getD_some, withBit_length, ← offset_toNat]
    push_cast
    rfl
  constructor
  · intro hlens
    refine ⟨?_, ?_⟩
    · have := hlens.read
      rw [hread] at this
      by_cases hq : q = p
      · exact .inl hq
      · by_cases hmod : q.toInt % 2 ^ 32 = p.toInt % 2 ^ 32
        · rw [if_pos hmod, if_neg hq] at this
          exact .inr (.inr this.symm)
        · exact .inr (.inl hmod)
    · have := hlens.length
      omega
  · rintro ⟨hq, hlen⟩
    refine ⟨?_, hprevious, ?_⟩
    · rw [hread]
      rcases hq with rfl | hmod | hval
      · rw [if_pos rfl, if_pos rfl]
      · have hne : q ≠ p := fun he => hmod (he ▸ rfl)
        rw [if_neg hmod, if_neg hne]
      · rw [hval, ite_self, ite_self]
    · omega

end

theorem bit_lens_of_three_bytes : ∃ r st',
    exec (Env.quiet 0) (DB.zero.SetBit [107] 7 1) (oneString [1, 2, 3]) = (.ok r, st') ∧
    BitLens DB.zero (Env.quiet 0) (oneString [1, 2, 3]) st' [107] 7 1 r 8 :=
  ⟨1, _, rfl, (bit_lens_iff (oneString_reached [1, 2, 3]) rfl 8).mpr (by decide)⟩

theorem bit_lens_aliased :
    (DB.zero.GetBit [107] 0).eval (Env.quiet 0) (oneString [1, 2, 3]).store = .ok 0 ∧
    (DB.zero.GetBit [107] 0).eval (Env.quiet 0)
      (exec (Env.quiet 0) (DB.zero.SetBit [107] 4294967296 1) (oneString [1, 2, 3])).2.store =
        .ok 1 ∧
    ((exec (Env.quiet 0) (DB.zero.SetBit [107] 4294967296 1) (oneString [1, 2, 3])).2.store.get
      (DB.zero.encodeKVKey [107])).map List.length = some 3 := by
  decide

end LedisDB
