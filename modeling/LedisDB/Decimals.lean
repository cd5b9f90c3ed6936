import LedisDB.Resp
import LedisDB.Values

/-!
# Decimal text and its numbers

`ParseInt` reads an optional sign and at least one digit, and refuses numbers that do
not fit. `IsDecimal` says which text stands for which number without the reader's
accumulator; what `FormatInt64ToSlice` writes is one of the texts of its number.
-/

namespace LedisDB

def IsDecimal (v : Bytes) (n : ℤ) : Prop :=
  ∃ ds m, Resp.readNat ds = some m ∧ ((v = ds ∨ v = 43 :: ds) ∧ n = m ∨ v = 45 :: ds ∧ n = -m)

def FitsInt64 (n : ℤ) : Prop := -2 ^ 63 ≤ n ∧ n < 2 ^ 63

instance (n : ℤ) : Decidable (FitsInt64 n) := by
  unfold FitsInt64
  infer_instance

section
variable {v ds : Bytes} {n m : ℕ} {k : Int64} {f : ℕ → Except Err Int64}

theorem Int64.fits (k : Int64) : FitsInt64 k.toInt := ⟨Int64.le_toInt k, Int64.toInt_lt k⟩

theorem toInt_add_fits {a b : Int64} (h : FitsInt64 (a.toInt + b.toInt)) :
    (a + b).toInt = a.toInt + b.toInt := by
  obtain ⟨hlow, hhigh⟩ := h
  rw [Int64.toInt_add]
  exact Int.bmod_eq_of_le (by omega) (by omega)

theorem toInt_sub_fits {a b : Int64} (h : FitsInt64 (a.toInt - b.toInt)) :
    (a - b).toInt = a.toInt - b.toInt := by
  obtain ⟨hlow, hhigh⟩ := h
  rw [Int64.toInt_sub]
  exact Int.bmod_eq_of_le (by omega) (by omega)

theorem Int64.toInt_ofInt_fits {n : ℤ} (h : FitsInt64 n) : (Int64.ofInt n).toInt = n :=
  Int64.toInt_ofInt_of_le h.1 h.2

theorem readDigits_le (h : Resp.readDigits n ds = some m) : n ≤ m := by
  induction ds generalizing n with
  | nil => exact le_of_eq (Option.some.inj h)
  | cons c cs ih =>
    rw [Resp.readDigits] at h
    split_ifs at h
    have := ih h
    omega

theorem parseUint_ok (hn : n < 2 ^ 64) :
    parseUint n ds = .ok m ↔ Resp.readDigits n ds = some m ∧ m < 2 ^ 64 := by
  induction ds generalizing n with
  | nil =>
    rw [parseUint, Resp.readDigits, Except.ok.injEq, Option.some.injEq]
    exact ⟨fun h => ⟨h, h ▸ hn⟩, And.left⟩
  | cons c cs ih =>
    rw [parseUint, Resp.readDigits, Nat.mul_comm n 10]
    have hdigit : (c < 48 ∨ 57 < c) ↔ ¬ (48 ≤ c ∧ c ≤ 57) := by
      rw [not_and_or, UInt8.not_le, UInt8.not_le]
    by_cases hc : 48 ≤ c ∧ c ≤ 57
    · rw [if_neg (fun h => hdigit.mp h hc)]
      split_ifs with h1 h2
      · refine iff_of_false (by simp) fun h => ?_
        have := readDigits_le h.1
        omega
      · refine iff_of_false (by simp) fun h => ?_
        have := readDigits_le h.1
        omega
      · exact ih (Nat.not_le.mp h2)
    · rw [if_pos (hdigit.mpr hc), if_neg hc]
      simp

theorem isDecimal_unsigned {n : ℤ} (hplus : ∀ cs, v ≠ 43 :: cs) (hminus : ∀ cs, v ≠ 45 :: cs) :
    IsDecimal v n ↔ ∃ m : ℕ, Resp.readNat v = some m ∧ n = m := by
  constructor
  · rintro ⟨ds, m, hm, ⟨rfl | hv, hn⟩ | ⟨hv, -⟩⟩
    · exact ⟨m, hm, hn⟩
    · exact absurd hv (hplus ds)
    · exact absurd hv (hminus ds)
  · rintro ⟨m, hm, hn⟩
    exact ⟨v, m, hm, .inl ⟨.inl rfl, hn⟩⟩

theorem isDecimal_plus {n : ℤ} :
    IsDecimal (43 :: ds) n ↔ ∃ m : ℕ, Resp.readNat ds = some m ∧ n = m := by
  constructor
  · rintro ⟨ds', m, hm, ⟨rfl | hv, hn⟩ | ⟨hv, -⟩⟩
    · cases hm
    · cases hv
      exact ⟨m, hm, hn⟩
    · cases hv
  · rintro ⟨m, hm, hn⟩
    exact ⟨ds, m, hm, .inl ⟨.inr rfl, hn⟩⟩

theorem isDecimal_minus {n : ℤ} :
    IsDecimal (45 :: ds) n ↔ ∃ m : ℕ, Resp.readNat ds = some m ∧ n = -m := by
  constructor
  · rintro ⟨ds', m, hm, ⟨rfl | hv, hn⟩ | ⟨hv, hn⟩⟩
    · cases hm
    · cases hv
    · cases hv
      exact ⟨m, hm, hn⟩
  · rintro ⟨m, hm, hn⟩
    exact ⟨ds, m, hm, .inr ⟨rfl, hn⟩⟩

def parseDigits (ds : Bytes) (f : ℕ → Except Err Int64) : Except Err Int64 :=
  if ds = [] then .error .errNumSyntax else (parseUint 0 ds).bind f

theorem parseDigits_ok (hf : ∀ m, 2 ^ 64 ≤ m → f m ≠ .ok k) :
    parseDigits ds f = .ok k ↔ ∃ m, Resp.readNat ds = some m ∧ f m = .ok k := by
  rw [parseDigits, Resp.readNat]
  split_ifs with hds
  · simp
  · cases hp : parseUint 0 ds with
    | error e =>
      refine iff_of_false (by simp [Except.bind]) ?_
      rintro ⟨m, hm, hfm⟩
      by_cases hlt : m < 2 ^ 64
      · rw [(parseUint_ok (by decide)).mpr ⟨hm, hlt⟩] at hp
        cases hp
      · exact hf m (Nat.not_lt.mp hlt) hfm
    | ok un =>
      have hun := (parseUint_ok (by decide)).mp hp
      simp [hun.1, Except.bind]

def unsignedInt64 (un : ℕ) : Except Err Int64 :=
  if 2 ^ 63 ≤ un then .error .errNumRange else .ok (Int64.ofNat un)

def negatedInt64 (un : ℕ) : Except Err Int64 :=
  if 2 ^ 63 < un then .error .errNumRange else .ok (Int64.ofInt (-un))

theorem parseInt_plus : parseInt (43 :: ds) = parseDigits ds unsignedInt64 := by
  unfold parseInt parseDigits unsignedInt64
  cases hp : parseUint 0 ds <;> simp [hp, Except.bind]

theorem parseInt_minus : parseInt (45 :: ds) = parseDigits ds negatedInt64 := by
  unfold parseInt parseDigits negatedInt64
  cases hp : parseUint 0 ds <;> simp [hp, Except.bind]

theorem parseInt_unsigned (hplus : ∀ cs, v ≠ 43 :: cs) (hminus : ∀ cs, v ≠ 45 :: cs) :
    parseInt v = parseDigits v unsignedInt64 := by
  unfold parseInt parseDigits unsignedInt64
  split
  next neg digits heq =>
  split at heq
  · exact absurd rfl (hplus _)
  · exact absurd rfl (hminus _)
  · cases heq
    cases parseUint 0 v <;> simp [Except.bind]

theorem unsignedInt64_ok : unsignedInt64 m = .ok k ↔ k.toInt = (m : ℤ) := by
  unfold unsignedInt64
  split_ifs with h
  · refine iff_of_false (by simp) fun hk => ?_
    have := Int64.toInt_lt k
    omega
  · rw [Except.ok.injEq, ← Int64.toInt_inj, Int64.toInt_ofNat_of_lt (Nat.not_le.mp h)]
    exact eq_comm

theorem negatedInt64_ok : negatedInt64 m = .ok k ↔ k.toInt = -(m : ℤ) := by
  unfold negatedInt64
  split_ifs with h
  · refine iff_of_false (by simp) fun hk => ?_
    have := Int64.le_toInt k
    omega
  · rw [Except.ok.injEq, ← Int64.toInt_inj, Int64.toInt_ofInt_fits ⟨by omega, by omega⟩]
    exact eq_comm

theorem parseDigits_unsigned :
    parseDigits ds unsignedInt64 = .ok k ↔ ∃ m : ℕ, Resp.readNat ds = some m ∧ k.toInt = m := by
  rw [parseDigits_ok fun m hm h => ?_]
  · simp [unsignedInt64_ok]
  · have := unsignedInt64_ok.mp h
    have := Int64.toInt_lt k
    omega

theorem parseDigits_negated :
    parseDigits ds negatedInt64 = .ok k ↔ ∃ m : ℕ, Resp.readNat ds = some m ∧ k.toInt = -m := by
  rw [parseDigits_ok fun m hm h => ?_]
  · simp [negatedInt64_ok]
  · have := negatedInt64_ok.mp h
    have := Int64.le_toInt k
    omega

theorem sign_cases (v : Bytes) : (∃ ds, v = 43 :: ds) ∨ (∃ ds, v = 45 :: ds) ∨
    (∀ cs, v ≠ 43 :: cs) ∧ ∀ cs, v ≠ 45 :: cs := by
  by_cases hplus : ∃ ds, v = 43 :: ds
  · exact .inl hplus
  · by_cases hminus : ∃ ds, v = 45 :: ds
    · exact .inr (.inl hminus)
    · exact .inr (.inr ⟨not_exists.mp hplus, not_exists.mp hminus⟩)

theorem parseInt_ok_iff : parseInt v = .ok k ↔ IsDecimal v k.toInt := by
  rcases sign_cases v with ⟨ds, rfl⟩ | ⟨ds, rfl⟩ | ⟨hplus, hminus⟩
  · rw [parseInt_plus, parseDigits_unsigned, isDecimal_plus]
  · rw [parseInt_minus, parseDigits_negated, isDecimal_minus]
  · rw [parseInt_unsigned hplus hminus, parseDigits_unsigned, isDecimal_unsigned hplus hminus]

theorem IsDecimal.unique {n n' : ℤ} (h : IsDecimal v n) (h' : IsDecimal v n') : n = n' := by
  rcases sign_cases v with ⟨ds, rfl⟩ | ⟨ds, rfl⟩ | ⟨hplus, hminus⟩
  · obtain ⟨m, hm, rfl⟩ := isDecimal_plus.mp h
    obtain ⟨m', hm', rfl⟩ := isDecimal_plus.mp h'
    rw [Option.some.inj (hm.symm.trans hm')]
  · obtain ⟨m, hm, rfl⟩ := isDecimal_minus.mp h
    obtain ⟨m', hm', rfl⟩ := isDecimal_minus.mp h'
    rw [Option.some.inj (hm.symm.trans hm')]
  · obtain ⟨m, hm, rfl⟩ := (isDecimal_unsigned hplus hminus).mp h
    obtain ⟨m', hm', rfl⟩ := (isDecimal_unsigned hplus hminus).mp h'
    rw [Option.some.inj (hm.symm.trans hm')]

theorem parseUint_ne_panic (n : ℕ) (ds : Bytes) : parseUint n ds ≠ .error .panic := by
  induction ds generalizing n with
  | nil => exact nofun
  | cons c cs ih =>
    rw [parseUint]
    split_ifs
    · exact nofun
    · exact nofun
    · exact nofun
    · exact ih _

theorem parseDigits_ne_panic (hf : ∀ m, f m ≠ .error .panic) (ds : Bytes) :
    parseDigits ds f ≠ .error .panic := by
  unfold parseDigits
  split_ifs
  · exact nofun
  · cases hp : parseUint 0 ds with
    | error e =>
      rintro ⟨⟩
      exact parseUint_ne_panic 0 ds hp
    | ok un => exact hf un

theorem parseInt_ne_panic (v : Bytes) : parseInt v ≠ .error .panic := by
  have hunsigned : ∀ m, unsignedInt64 m ≠ .error .panic := by
    intro m
    unfold unsignedInt64
    split_ifs <;> exact nofun
  have hnegated : ∀ m, negatedInt64 m ≠ .error .panic := by
    intro m
    unfold negatedInt64
    split_ifs <;> exact nofun
  rcases sign_cases v with ⟨ds, rfl⟩ | ⟨ds, rfl⟩ | ⟨hplus, hminus⟩
  · rw [parseInt_plus]
    exact parseDigits_ne_panic hunsigned ds
  · rw [parseInt_minus]
    exact parseDigits_ne_panic hnegated ds
  · rw [parseInt_unsigned hplus hminus]
    exact parseDigits_ne_panic hunsigned v

theorem decimalDigits_eq (f n : ℕ) : decimalDigits f n = Resp.digits f n := by
  induction f generalizing n with
  | zero => rfl
  | succ f ih => rw [decimalDigits, Resp.digits, ih]

theorem FormatInt64ToSlice_eq (n : Int64) : FormatInt64ToSlice n = Resp.decimalInt n.toInt := by
  have hlt : n.toInt.natAbs < 10 ^ 20 := by
    have h1 := Int64.le_toInt n
    have h2 := Int64.toInt_lt n
    omega
  have hdigits : decimalDigits 20 n.toInt.natAbs = Resp.decimal n.toInt.natAbs := by
    refine Resp.digits_eq hlt ?_ (by decide) (by omega)
    exact Resp.lt_pow_succ _
  rw [FormatInt64ToSlice, hdigits]
  cases hn : n.toInt with
  | ofNat k => rfl
  | negSucc k =>
    rw [if_pos (Int.negSucc_lt_zero k)]
    rfl

theorem isDecimal_decimalInt (n : ℤ) : IsDecimal (Resp.decimalInt n) n := by
  cases n with
  | ofNat m => exact ⟨_, m, Resp.readNat_decimal m, .inl ⟨.inl rfl, rfl⟩⟩
  | negSucc m => exact ⟨_, m + 1, Resp.readNat_decimal (m + 1), .inr ⟨rfl, rfl⟩⟩

theorem parseInt_FormatInt64ToSlice (k : Int64) : parseInt (FormatInt64ToSlice k) = .ok k := by
  rw [parseInt_ok_iff, FormatInt64ToSlice_eq]
  exact isDecimal_decimalInt k.toInt

theorem FormatInt64ToSlice_length_le (k : Int64) : (FormatInt64ToSlice k).length ≤ 21 := by
  have h := Resp.digits_length 20 k.toInt.natAbs
  rw [FormatInt64ToSlice, decimalDigits_eq]
  split_ifs
  · rw [List.length_cons]
    omega
  · omega

end

end LedisDB
