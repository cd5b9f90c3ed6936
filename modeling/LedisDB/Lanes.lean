import Mathlib.Data.List.Basic
import Mathlib.Data.Nat.Bitwise
import Mathlib.Tactic.Ring

/-!
# Bytes side by side in a word

Masks, shifts and sums act on the bytes of a word one by one as long as nothing crosses
from one byte into the next. So the population count that adds up bits in parallel works
out, in each byte of the word, the number of bits of that byte.
-/

namespace LedisDB

open List

def lanes : List ℕ → ℕ
  | [] => 0
  | b :: bs => lanes bs * 256 + b

section
variable {bs : List ℕ} {d k m x y : ℕ}

theorem and_congr_mod (h : x % 2 ^ m = y % 2 ^ m) (hk : k < 2 ^ m) : x &&& k = y &&& k := by
  have hlow : ∀ z : ℕ, z &&& k = z % 2 ^ m &&& k := by
    intro z
    have hlt : z &&& k < 2 ^ m := lt_of_le_of_lt Nat.and_le_right hk
    rw [← Nat.mod_eq_of_lt hlt, Nat.and_mod_two_pow, Nat.mod_eq_of_lt hk]
  rw [hlow x, hlow y, h]

theorem lane_and (hx : x < 256) (hk : k < 256) (X K : ℕ) :
    (X * 256 + x) &&& (K * 256 + k) = (X &&& K) * 256 + (x &&& k) := by
  have hmod := Nat.and_mod_two_pow (a := X * 256 + x) (b := K * 256 + k) (n := 8)
  have hdiv := Nat.and_div_two_pow (a := X * 256 + x) (b := K * 256 + k) (n := 8)
  rw [show (X * 256 + x) % 2 ^ 8 = x by omega, show (K * 256 + k) % 2 ^ 8 = k by omega] at hmod
  rw [show (X * 256 + x) / 2 ^ 8 = X by omega, show (K * 256 + k) / 2 ^ 8 = K by omega] at hdiv
  omega

theorem lane_shift (hd : d ≤ 8) (X b : ℕ) :
    (X * 256 + b) >>> d = (X >>> d) * 256 + (X % 2 ^ d * 2 ^ (8 - d) + b >>> d) := by
  have h256 : 2 ^ d * 2 ^ (8 - d) = 256 := by
    rw [← pow_add, Nat.add_sub_cancel' hd]
    rfl
  have hsplit : X * 2 ^ (8 - d) = X / 2 ^ d * 256 + X % 2 ^ d * 2 ^ (8 - d) := by
    nth_rewrite 1 [← Nat.div_add_mod X (2 ^ d)]
    rw [add_mul, ← h256, mul_comm (2 ^ d) (X / 2 ^ d), mul_assoc]
  simp only [Nat.shiftRight_eq_div_pow]
  rw [← add_assoc, ← hsplit, ← h256, show X * (2 ^ d * 2 ^ (8 - d)) + b =
    b + 2 ^ d * (X * 2 ^ (8 - d)) by ring, Nat.add_mul_div_left _ _ (Nat.two_pow_pos d),
    add_comm]

theorem shift_lt (hd : d ≤ 8) (h : x < 256) : x >>> d < 2 ^ (8 - d) := by
  rwa [Nat.shiftRight_eq_div_pow, Nat.div_lt_iff_lt_mul (Nat.two_pow_pos d), ← pow_add,
    Nat.sub_add_cancel hd]

theorem lanes_lt (h : ∀ b ∈ bs, b < 256) : lanes bs < 256 ^ bs.length := by
  induction bs with
  | nil => exact Nat.one_pos
  | cons b bs ih =>
    obtain ⟨hb, hbs⟩ := forall_mem_cons.mp h
    have hlt := ih hbs
    rw [length_cons, pow_succ, lanes]
    omega

theorem lanes_add (f g : ℕ → ℕ) (bs : List ℕ) :
    lanes (bs.map f) + lanes (bs.map g) = lanes (bs.map fun b => f b + g b) := by
  induction bs with
  | nil => rfl
  | cons b bs ih =>
    simp only [map_cons, lanes, ← ih]
    ring

theorem lanes_sub {f g : ℕ → ℕ} (h : ∀ b ∈ bs, g b ≤ f b) :
    lanes (bs.map f) - lanes (bs.map g) = lanes (bs.map fun b => f b - g b) := by
  refine Nat.sub_eq_of_eq_add ?_
  rw [lanes_add]
  exact congrArg lanes (map_congr_left fun b hb => (Nat.sub_add_cancel (h b hb)).symm)

theorem lanes_shift_and (hd : d ≤ 8) (hk : k < 2 ^ (8 - d)) (h : ∀ b ∈ bs, b < 256) :
    lanes bs >>> d &&& lanes (List.replicate bs.length k) =
      lanes (bs.map fun b => b >>> d &&& k) := by
  have hpow : 2 ^ (8 - d) ≤ 256 := Nat.pow_le_pow_right (by decide) (Nat.sub_le 8 d)
  induction bs with
  | nil => simp [lanes]
  | cons b bs ih =>
    obtain ⟨hb, hbs⟩ := forall_mem_cons.mp h
    have hlow := shift_lt hd hb
    have hbyte : lanes bs % 2 ^ d * 2 ^ (8 - d) + b >>> d < 256 := by
      have hmod : lanes bs % 2 ^ d + 1 ≤ 2 ^ d := Nat.mod_lt _ (Nat.two_pow_pos d)
      calc lanes bs % 2 ^ d * 2 ^ (8 - d) + b >>> d
          < (lanes bs % 2 ^ d + 1) * 2 ^ (8 - d) := by rw [add_mul]; omega
        _ ≤ 2 ^ d * 2 ^ (8 - d) := Nat.mul_le_mul_right _ hmod
        _ = 256 := by rw [← pow_add, Nat.add_sub_cancel' hd]; rfl
    simp only [length_cons, replicate_succ, lanes]
    rw [lane_shift hd, lane_and hbyte (lt_of_lt_of_le hk hpow), ih hbs]
    congr 1
    refine and_congr_mod ?_ hk
    rw [add_comm, Nat.add_mul_mod_self_right]

theorem lanes_and (hk : k < 256) (h : ∀ b ∈ bs, b < 256) :
    lanes bs &&& lanes (List.replicate bs.length k) = lanes (bs.map fun b => b &&& k) :=
  lanes_shift_and (d := 0) (Nat.zero_le 8) hk h

def pairCounts (b : ℕ) : ℕ := b - (b >>> 1 &&& 0x55)

def nibbleCounts (b : ℕ) : ℕ := (b &&& 0x33) + (b >>> 2 &&& 0x33)

def byteCount (b : ℕ) : ℕ := (b + b >>> 4) &&& 0x0F

theorem lanes_pairCounts (h : ∀ b ∈ bs, b < 256) :
    lanes bs - (lanes bs >>> 1 &&& lanes (List.replicate bs.length 0x55)) =
      lanes (bs.map pairCounts) := by
  rw [lanes_shift_and (by decide) (by decide) h]
  nth_rewrite 1 [← map_id bs]
  refine lanes_sub fun b _ => ?_
  calc b >>> 1 &&& 0x55 ≤ b >>> 1 := Nat.and_le_left
    _ ≤ b := Nat.shiftRight_le b 1

theorem lanes_nibbleCounts (h : ∀ b ∈ bs, b < 256) :
    (lanes bs &&& lanes (List.replicate bs.length 0x33)) +
      (lanes bs >>> 2 &&& lanes (List.replicate bs.length 0x33)) =
      lanes (bs.map nibbleCounts) := by
  rw [lanes_and (by decide) h, lanes_shift_and (by decide) (by decide) h, lanes_add]
  rfl

theorem lanes_byteCount (h : ∀ b ∈ bs, b % 16 ≤ 4 ∧ b / 16 ≤ 4) :
    (lanes bs + lanes bs >>> 4) &&& lanes (List.replicate bs.length 0x0F) =
      lanes (bs.map byteCount) := by
  induction bs with
  | nil => rfl
  | cons b bs ih =>
    obtain ⟨hb, hbs⟩ := forall_mem_cons.mp h
    have hnext : lanes bs % 16 ≤ 4 := by
      cases bs with
      | nil => exact Nat.zero_le 4
      | cons c cs =>
        have hc := (hbs c (.head _)).1
        simp only [lanes]
        omega
    simp only [length_cons, replicate_succ, lanes]
    have hword : lanes bs * 256 + b + (lanes bs * 256 + b) >>> 4 =
        (lanes bs + lanes bs >>> 4) * 256 + (b + b >>> 4 + lanes bs % 16 * 16) := by
      rw [lane_shift (by decide), show (2 : ℕ) ^ (8 - 4) = 16 from rfl]
      ring
    have hbyte : b + b >>> 4 + lanes bs % 16 * 16 < 256 := by
      omega
    rw [hword, lane_and hbyte (by decide), ih hbs]
    congr 1
    refine and_congr_mod (m := 4) ?_ (by decide)
    rw [show 2 ^ 4 = 16 from rfl, Nat.add_mul_mod_self_right]

theorem high_byte (X : ℕ) (hx : x < 256) (hy : y < 2 ^ 24) :
    ((X * 2 ^ 32 + (x * 2 ^ 24 + y)) % 2 ^ 32) >>> 24 = x := by
  omega

theorem lanes_sum (hlen : bs.length = 4) (h : ∀ b ∈ bs, b < 16) :
    (lanes bs * 0x01010101 % 2 ^ 32) >>> 24 = bs.sum := by
  obtain ⟨a, b, c, d, rfl⟩ : ∃ a b c d, bs = [a, b, c, d] := by
    match bs, hlen with
    | [a, b, c, d], _ => exact ⟨a, b, c, d, rfl⟩
  simp only [mem_cons, forall_eq_or_imp] at h
  have hsum : [a, b, c, d].sum = a + b + c + d := by
    simp only [sum_cons, sum_nil]
    ring
  have hhigh := high_byte (x := a + b + c + d) (y := ((a + b + c) * 256 + (a + b)) * 256 + a)
    ((d * 256 + (c + d)) * 256 + (b + c + d)) (by omega) (by omega)
  have hword : lanes [a, b, c, d] * 0x01010101 =
      ((d * 256 + (c + d)) * 256 + (b + c + d)) * 2 ^ 32 +
        ((a + b + c + d) * 2 ^ 24 + (((a + b + c) * 256 + (a + b)) * 256 + a)) := by
    simp only [lanes]
    ring
  rw [hword, hhigh, hsum]

end

end LedisDB
