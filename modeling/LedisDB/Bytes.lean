import Mathlib.Data.List.Lex
import Mathlib.Tactic.Ring
import Mathlib.Tactic.NormNum
import Mathlib.Tactic.Linarith

/-!
# Byte strings, their lexicographic order, and integer layouts

Keys of an ordered store are byte strings compared byte by byte. The first
part is the order theory the range scans rest on: a common front cancels, a
front of fixed width decides first, and the half-open interval between two
consecutive separators is exactly the set of extensions of the lower one.

The second part is the fixed-width big- and little-endian layouts and the
base-128 varint, with the laws used later: length, injectivity, order of the
big-endian form, and freedom from prefixes of the varint.
-/

namespace LedisDB

open List

abbrev Bytes := List UInt8

instance instLinearOrderUInt8 : LinearOrder UInt8 where
  le_refl _ := UInt8.le_refl _
  le_trans _ _ _ := UInt8.le_trans
  le_antisymm _ _ := UInt8.le_antisymm
  le_total := UInt8.le_total
  lt_iff_le_not_ge a b := by
    rw [UInt8.lt_iff_le_and_ne]
    constructor
    · rintro ⟨h, hn⟩
      exact ⟨h, fun h' => hn (UInt8.le_antisymm h h')⟩
    · rintro ⟨h, hn⟩
      exact ⟨h, fun e => hn (e ▸ UInt8.le_refl _)⟩
  toDecidableLE := inferInstance
  toDecidableEq := inferInstance
  toDecidableLT := inferInstance

namespace Lexicographic

variable {α : Type*} [LinearOrder α]

theorem append_lt_append_iff (p x y : List α) : p ++ x < p ++ y ↔ x < y := by
  induction p with
  | nil => rfl
  | cons a p ih => simp [ih]

theorem append_le_append_iff (p x y : List α) : p ++ x ≤ p ++ y ↔ x ≤ y := by
  rw [← not_lt, ← not_lt]
  exact not_congr (append_lt_append_iff p y x)

theorem append_lt_append_of_length {a b : List α} (hab : a.length = b.length) (x y : List α) :
    a ++ x < b ++ y ↔ a < b ∨ a = b ∧ x < y := by
  induction a generalizing b with
  | nil =>
    have hb := length_eq_zero_iff.mp hab.symm
    subst hb
    simp
  | cons u a ih =>
    cases b with
    | nil => simp at hab
    | cons v b =>
      have h := ih (by simpa using hab)
      simp only [cons_append, cons_lt_cons_iff, cons.injEq]
      tauto

theorem le_append (p x : List α) : p ≤ p ++ x := by
  have h := (append_le_append_iff p [] x).mpr (not_lt.mp (not_lt_nil x))
  simpa using h

theorem prefix_of_between {p x y k : List α} (hl : p ++ x ≤ k) (hr : k ≤ p ++ y) : p <+: k := by
  induction p generalizing k with
  | nil => exact nil_prefix
  | cons a p ih =>
    cases k with
    | nil => exact absurd (nil_lt_cons a (p ++ x)) (not_lt.mpr hl)
    | cons b k =>
      have hl' := not_lt.mpr hl
      have hr' := not_lt.mpr hr
      simp only [cons_append, cons_lt_cons_iff, not_or, not_and, not_lt] at hl' hr'
      have hab := le_antisymm hl'.1 hr'.1
      subst hab
      obtain ⟨t, ht⟩ := ih (hl'.2 rfl) (hr'.2 rfl)
      exact ⟨t, by simp [ht]⟩

theorem between_iff_prefix {p k : List α} {a b : α} (hab : a < b) (hc : ∀ c, c < b → c ≤ a) :
    (p ++ [a] ≤ k ∧ k < p ++ [b]) ↔ p ++ [a] <+: k := by
  constructor
  · rintro ⟨hl, hr⟩
    obtain ⟨t, rfl⟩ := prefix_of_between hl hr.le
    rw [append_le_append_iff] at hl
    rw [append_lt_append_iff] at hr
    cases t with
    | nil => exact absurd (nil_lt_cons a []) (not_lt.mpr hl)
    | cons c t =>
      have hl' := not_lt.mpr hl
      simp only [cons_lt_cons_iff, not_or, not_lt] at hl' hr
      have hcb : c < b := by
        rcases hr with h | ⟨-, h⟩
        · exact h
        · exact absurd h (not_lt_nil t)
      have hca := le_antisymm (hc c hcb) hl'.1
      subst hca
      exact ⟨t, by simp⟩
  · rintro ⟨t, rfl⟩
    refine ⟨le_append _ _, ?_⟩
    rw [append_assoc, append_lt_append_iff]
    exact cons_lt_cons_iff.mpr (.inl hab)

end Lexicographic

variable {n w m : ℕ}

theorem UInt8.le_of_lt_succ (c : UInt8) (hc : c < UInt8.ofNat (n + 1)) : c ≤ UInt8.ofNat n := by
  rw [UInt8.lt_iff_toNat_lt, UInt8.toNat_ofNat'] at hc
  rw [UInt8.le_iff_toNat_le, UInt8.toNat_ofNat']
  omega

def beBytes : ℕ → ℕ → Bytes
  | 0, _ => []
  | w + 1, n => UInt8.ofNat (n / 256 ^ w) :: beBytes w n

def beNat : Bytes → ℕ
  | [] => 0
  | b :: bs => b.toNat * 256 ^ bs.length + beNat bs

@[simp] theorem beBytes_length (w n : ℕ) : (beBytes w n).length = w := by
  induction w with
  | zero => rfl
  | succ w ih => simp [beBytes, ih]

theorem beBytes_mod (w n : ℕ) : beBytes w (n % 256 ^ w) = beBytes w n := by
  induction w generalizing n with
  | zero => rfl
  | succ w ih =>
    have hq : n % 256 ^ (w + 1) / 256 ^ w = n / 256 ^ w % 256 := by
      rw [pow_succ, Nat.mod_mul_right_div_self]
    have hr : beBytes w (n % 256 ^ (w + 1)) = beBytes w n := by
      rw [← ih (n % 256 ^ (w + 1)), Nat.mod_mod_of_dvd _ (pow_dvd_pow 256 (Nat.le_succ w)), ih]
    simp only [beBytes, hq]
    congr 1
    exact UInt8.ofNat_mod_size

theorem beNat_lt (b : Bytes) : beNat b < 256 ^ b.length := by
  induction b with
  | nil => simp [beNat]
  | cons a b ih =>
    have ha := a.toNat_lt
    simp only [beNat, length_cons, pow_succ]
    nlinarith

theorem beNat_beBytes (w n : ℕ) : beNat (beBytes w n) = n % 256 ^ w := by
  induction w with
  | zero => simp [beBytes, beNat, Nat.mod_one]
  | succ w ih =>
    have hb : (UInt8.ofNat (n / 256 ^ w)).toNat = n / 256 ^ w % 256 := by simp
    simp only [beBytes, beNat, beBytes_length, ih, hb]
    rw [pow_succ, Nat.mod_mul]
    ring

theorem beNat_beBytes_of_lt (h : n < 256 ^ w) : beNat (beBytes w n) = n := by
  rw [beNat_beBytes, Nat.mod_eq_of_lt h]

theorem beBytes_inj (hm : m < 256 ^ w) (hn : n < 256 ^ w)
    (h : beBytes w m = beBytes w n) : m = n := by
  rw [← beNat_beBytes_of_lt hm, ← beNat_beBytes_of_lt hn, h]

theorem beBytes_lt_iff (hm : m < 256 ^ w) (hn : n < 256 ^ w) :
    beBytes w m < beBytes w n ↔ m < n := by
  induction w generalizing m n with
  | zero => simp_all [beBytes]
  | succ w ih =>
    have hp : 0 < 256 ^ w := Nat.pow_pos (by norm_num)
    have hmq : m / 256 ^ w < 256 := Nat.div_lt_of_lt_mul (by rwa [pow_succ] at hm)
    have hnq := Nat.div_lt_of_lt_mul (by rwa [pow_succ] at hn)
    have htail := ih (Nat.mod_lt m hp) (Nat.mod_lt n hp)
    rw [beBytes_mod, beBytes_mod] at htail
    have hm' := Nat.div_add_mod m (256 ^ w)
    have hn' := Nat.div_add_mod n (256 ^ w)
    simp only [beBytes, cons_lt_cons_iff, htail, UInt8.lt_iff_toNat_lt, ← UInt8.toNat_inj,
      UInt8.toNat_ofNat', Nat.mod_eq_of_lt hmq, Nat.mod_eq_of_lt hnq]
    constructor
    · rintro (h | ⟨h, hr⟩)
      · exact Nat.lt_of_div_lt_div h
      · rw [h] at hm'
        omega
    · intro h
      rcases (Nat.div_le_div_right h.le).lt_or_eq with hlt | heq
      · exact .inl hlt
      · rw [heq] at hm'
        omega

theorem beBytes_append_lt_iff (hm : m < 256 ^ w) (hn : n < 256 ^ w) (x y : Bytes) :
    beBytes w m ++ x < beBytes w n ++ y ↔ m < n ∨ m = n ∧ x < y := by
  rw [Lexicographic.append_lt_append_of_length (by simp), beBytes_lt_iff hm hn]
  constructor
  · rintro (h | ⟨h, hx⟩)
    · exact .inl h
    · exact .inr ⟨beBytes_inj hm hn h, hx⟩
  · rintro (h | ⟨rfl, hx⟩)
    · exact .inl h
    · exact .inr ⟨rfl, hx⟩

def leBytes : ℕ → ℕ → Bytes
  | 0, _ => []
  | w + 1, n => UInt8.ofNat n :: leBytes w (n / 256)

def leNat : Bytes → ℕ
  | [] => 0
  | b :: bs => b.toNat + 256 * leNat bs

@[simp] theorem leBytes_length (w n : ℕ) : (leBytes w n).length = w := by
  induction w generalizing n with
  | zero => rfl
  | succ w ih => simp [leBytes, ih]

theorem leNat_leBytes (w n : ℕ) : leNat (leBytes w n) = n % 256 ^ w := by
  induction w generalizing n with
  | zero => simp [leBytes, leNat, Nat.mod_one]
  | succ w ih =>
    have hb : (UInt8.ofNat n).toNat = n % 256 := by simp
    simp only [leBytes, leNat, ih, hb]
    rw [pow_succ', Nat.mod_mul]

theorem leNat_leBytes_of_lt (h : n < 256 ^ w) : leNat (leBytes w n) = n := by
  rw [leNat_leBytes, Nat.mod_eq_of_lt h]

/-- Base-128 groups, least significant first, the high bit set on all but the
last. Ten groups hold every 64-bit value. -/
def uvarintGroups : ℕ → ℕ → Bytes
  | 0, n => [UInt8.ofNat n]
  | f + 1, n =>
    if n < 128 then [UInt8.ofNat n]
    else UInt8.ofNat (n % 128 + 128) :: uvarintGroups f (n / 128)

def putUvarint (n : ℕ) : Bytes := uvarintGroups 9 n

theorem uvarintGroups_append_inj {f : ℕ} (hm : m < 128 ^ (f + 1)) (hn : n < 128 ^ (f + 1))
    {x y : Bytes} (h : uvarintGroups f m ++ x = uvarintGroups f n ++ y) : m = n ∧ x = y := by
  induction f generalizing m n with
  | zero =>
    simp only [uvarintGroups, singleton_append, cons.injEq, ← UInt8.toNat_inj,
      UInt8.toNat_ofNat'] at h
    exact ⟨by omega, h.2⟩
  | succ f ih =>
    have hmq : m / 128 < 128 ^ (f + 1) := Nat.div_lt_of_lt_mul (by rwa [pow_succ'] at hm)
    have hnq : n / 128 < 128 ^ (f + 1) := Nat.div_lt_of_lt_mul (by rwa [pow_succ'] at hn)
    simp only [uvarintGroups] at h
    split_ifs at h with h₁ h₂ h₂
    all_goals simp only [cons_append, cons.injEq, ← UInt8.toNat_inj, UInt8.toNat_ofNat'] at h
    · exact ⟨by omega, h.2⟩
    · omega
    · omega
    · obtain ⟨hd, hx⟩ := ih hmq hnq h.2
      exact ⟨by omega, hx⟩

theorem putUvarint_append_inj (hm : m < 2 ^ 64) (hn : n < 2 ^ 64) {x y : Bytes}
    (h : putUvarint m ++ x = putUvarint n ++ y) : m = n ∧ x = y :=
  uvarintGroups_append_inj (lt_trans hm (by norm_num)) (lt_trans hn (by norm_num)) h

end LedisDB
