import LedisDB.Bytes

/-!
# Reading and writing RESP

A RESP value is a line with a type byte, a length with that many bytes, or a count with
that many values. `Parse` is the reader of goredis: it takes one value off the front of its
input and returns what follows. A line ends at the first LF, needs a CR before it and has to
fit in the buffer of the connection, so values are read back exactly when none of their texts
has an LF or is too long; everything else is protected by its length.
-/

namespace LedisDB

open List

inductive Resp
  | status (text : Bytes)
  | error (text : Bytes)
  | integer (n : Int64)
  | nilBulk
  | bulk (b : Bytes)
  | nilArray
  | array (xs : List Resp)

variable {f n : ℕ} {bs rest : Bytes} {t : UInt8} {v : Resp}

namespace Resp

variable {l : Bytes} {d : ℕ} {b : UInt8}

abbrev Reader (α : Type) := Bytes → Option (α × Bytes)

def crlf : Bytes := [13, 10]

def digits : ℕ → ℕ → Bytes
  | 0, _ => []
  | f + 1, n =>
    if n < 10 then [UInt8.ofNat (48 + n)] else digits f (n / 10) ++ [UInt8.ofNat (48 + n % 10)]

def decimal (n : ℕ) : Bytes := digits (n + 1) n

def decimalInt : ℤ → Bytes
  | .ofNat n => decimal n
  | .negSucc n => 45 :: decimal (n + 1)

def readDigits : ℕ → Bytes → Option ℕ
  | n, [] => some n
  | n, c :: cs => if 48 ≤ c ∧ c ≤ 57 then readDigits (10 * n + (c.toNat - 48)) cs else none

def readNat (ds : Bytes) : Option ℕ := if ds = [] then none else readDigits 0 ds

theorem digit_toNat (h : d < 10) : (UInt8.ofNat (48 + d)).toNat = 48 + d :=
  UInt8.toNat_ofNat_of_lt' (by rw [UInt8.size]; omega)

theorem readDigits_append (n : ℕ) (xs ys : Bytes) :
    readDigits n (xs ++ ys) = (readDigits n xs).bind fun m => readDigits m ys := by
  induction xs generalizing n with
  | nil => rfl
  | cons c cs ih =>
    rw [cons_append, readDigits, readDigits]
    split_ifs
    · exact ih _
    · rfl

theorem readDigits_digit (n : ℕ) (h : d < 10) :
    readDigits n [UInt8.ofNat (48 + d)] = some (10 * n + d) := by
  have hd := digit_toNat h
  have hle : 48 ≤ UInt8.ofNat (48 + d) ∧ UInt8.ofNat (48 + d) ≤ 57 := by
    rw [UInt8.le_iff_toNat_le, UInt8.le_iff_toNat_le, hd]
    exact ⟨Nat.le_add_right 48 d, by show 48 + d ≤ 57; omega⟩
  rw [readDigits, if_pos hle, readDigits, hd, Nat.add_sub_cancel_left]

theorem readDigits_digits (h : n < 10 ^ f) : readDigits 0 (digits f n) = some n := by
  induction f generalizing n with
  | zero =>
    rw [Nat.pow_zero, Nat.lt_one_iff] at h
    rw [h]
    rfl
  | succ f ih =>
    rw [digits]
    split_ifs with hn
    · rw [readDigits_digit 0 hn, Nat.zero_add]
    · have hdiv : n / 10 < 10 ^ f := by
        rwa [Nat.div_lt_iff_lt_mul (by decide)]
      rw [readDigits_append, ih hdiv, Option.bind_some,
        readDigits_digit _ (Nat.mod_lt _ (by decide)),
        Nat.div_add_mod]

theorem digits_eq {g : ℕ} (hf : n < 10 ^ f) (hg : n < 10 ^ g) (hf0 : f ≠ 0) (hg0 : g ≠ 0) :
    digits f n = digits g n := by
  induction f generalizing g n with
  | zero => exact absurd rfl hf0
  | succ f ih =>
    obtain ⟨g, rfl⟩ := Nat.exists_eq_succ_of_ne_zero hg0
    rw [digits, digits]
    split_ifs with hn
    · rfl
    · have hdiv : ∀ {k}, n < 10 ^ (k + 1) → n / 10 < 10 ^ k := by
        intro k hk
        rwa [Nat.div_lt_iff_lt_mul (by decide)]
      have hpos : ∀ {k}, n < 10 ^ (k + 1) → k ≠ 0 := by
        rintro k hk rfl
        omega
      rw [ih (hdiv hf) (hdiv hg) (hpos hf) (hpos hg)]

theorem mem_digits (h : b ∈ digits f n) : 48 ≤ b ∧ b ≤ 57 := by
  induction f generalizing n with
  | zero => cases h
  | succ f ih =>
    have hdigit : ∀ d < 10, b = UInt8.ofNat (48 + d) → 48 ≤ b ∧ b ≤ 57 := by
      rintro d hd rfl
      rw [UInt8.le_iff_toNat_le, UInt8.le_iff_toNat_le, digit_toNat hd]
      exact ⟨Nat.le_add_right 48 d, by show 48 + d ≤ 57; omega⟩
    rw [digits] at h
    split_ifs at h with hn
    · exact hdigit n hn (mem_singleton.mp h)
    · rcases mem_append.mp h with h | h
      · exact ih h
      · exact hdigit _ (Nat.mod_lt _ (by decide)) (mem_singleton.mp h)

theorem digits_ne_nil (f n : ℕ) : digits (f + 1) n ≠ [] := by
  rw [digits]
  split_ifs <;> simp

theorem lt_pow_succ (n : ℕ) : n < 10 ^ (n + 1) :=
  (Nat.lt_pow_self (by decide)).trans_le (Nat.pow_le_pow_right (by decide) (Nat.le_succ n))

theorem readNat_decimal (n : ℕ) : readNat (decimal n) = some n := by
  rw [readNat, decimal, if_neg (digits_ne_nil n n)]
  exact readDigits_digits (lt_pow_succ n)

theorem mem_decimalInt {n : ℤ} (h : b ∈ decimalInt n) : b ≠ 10 := by
  have hdigit : ∀ {m}, b ∈ decimal m → b ≠ 10 := by
    rintro m hm rfl
    exact absurd (mem_digits hm).1 (by decide)
  cases n with
  | ofNat n => exact hdigit h
  | negSucc n =>
    rcases mem_cons.mp h with rfl | h
    · decide
    · exact hdigit h

/-- The loop of `parseLen` and `parseInt`, which wraps around. -/
def parseDigits : Int64 → Bytes → Option Int64
  | n, [] => some n
  | n, b :: p =>
    if 48 ≤ b ∧ b ≤ 57 then parseDigits (n * 10 + Int64.ofNat (b.toNat - 48)) p else none

def parseLen (p : Bytes) : Option Int64 :=
  if p = [] then none else if p = [45, 49] then some (-1) else parseDigits 0 p

def parseInt : Bytes → Option Int64
  | [] => none
  | c :: p =>
    if c ≠ 45 then parseDigits 0 (c :: p)
    else if p = [] then none else (parseDigits 0 p).map (- ·)

theorem parseDigits_eq (n : ℕ) (p : Bytes) :
    parseDigits (.ofNat n) p = (readDigits n p).map .ofNat := by
  induction p generalizing n with
  | nil => rfl
  | cons b p ih =>
    have hn : Int64.ofNat n * 10 + .ofNat (b.toNat - 48) = .ofNat (10 * n + (b.toNat - 48)) := by
      rw [Int64.ofNat_add, Int64.ofNat_mul, Int64.mul_comm]
      rfl
    rw [parseDigits, readDigits, hn]
    split_ifs
    · exact ih _
    · rfl

theorem parseDigits_decimal (n : ℕ) : parseDigits 0 (decimal n) = some (.ofNat n) := by
  have h := parseDigits_eq 0 (decimal n)
  rwa [decimal, readDigits_digits (lt_pow_succ n)] at h

theorem decimal_cons (n : ℕ) : ∃ c cs, decimal n = c :: cs ∧ c ≠ 45 := by
  rcases hd : decimal n with _ | ⟨c, cs⟩
  · exact absurd hd (digits_ne_nil n n)
  · refine ⟨c, cs, rfl, ?_⟩
    rintro rfl
    exact absurd (mem_digits (hd ▸ mem_cons_self : 45 ∈ decimal n)).1 (by decide)

theorem parseLen_decimal (n : ℕ) : parseLen (decimal n) = some (.ofNat n) := by
  rw [parseLen, parseDigits_decimal]
  obtain ⟨c, cs, hd, hc⟩ := decimal_cons n
  rw [if_neg (by simp [hd]), if_neg (by simp [hd, hc])]

theorem parseInt_decimalInt (n : Int64) : parseInt (decimalInt n.toInt) = some n := by
  have hn := Int64.ofInt_toInt n
  rcases hi : n.toInt with m | m <;> rw [hi] at hn
  · obtain ⟨c, cs, hd, hc⟩ := decimal_cons m
    rw [decimalInt, hd, parseInt, if_pos hc, ← hd, parseDigits_decimal, ← hn]
    rfl
  · rw [decimalInt, parseInt, if_neg (by simp), if_neg (show decimal _ ≠ [] from digits_ne_nil _ _),
      parseDigits_decimal, ← hn, Int.negSucc_eq, Int64.ofInt_neg]
    rfl

variable (size : ℕ)

/-- The buffer has `size` bytes, and a line with its LF has to fit. -/
def readLine : Reader Bytes := fun bs =>
  let p := bs.takeWhile (· ≠ 10)
  if p.length = bs.length ∨ size ≤ p.length ∨ p.getLast? ≠ some 13 then none
  else some (p.dropLast, bs.drop (p.length + 1))

theorem readLine_append (h : 10 ∉ l) (hsize : l.length + 2 ≤ size) (rest : Bytes) :
    readLine size (l ++ crlf ++ rest) = some (l, rest) := by
  have hp : (l ++ [13] ++ 10 :: rest).takeWhile (· ≠ 10) = l ++ [13] := by
    rw [takeWhile_append_of_pos]
    · simp
    · intro x hx
      rcases mem_append.mp hx with hx | hx
      · exact decide_eq_true fun heq => h (heq ▸ hx)
      · rw [mem_singleton.mp hx]
        rfl
  rw [show l ++ crlf ++ rest = l ++ [13] ++ 10 :: rest by simp [crlf], readLine, hp,
    if_neg (by simp; omega), dropLast_concat, drop_length_add_append]
  rfl

theorem readLine_clean (h : readLine size bs = some (l, rest)) : 10 ∉ l ∧ l.length + 2 ≤ size := by
  rw [readLine] at h
  split_ifs at h with hp
  cases h
  rw [not_or, not_or, not_le, not_not] at hp
  have hpos := length_pos_of_mem (mem_of_getLast? hp.2.2)
  refine ⟨fun hmem => ?_, by rw [length_dropLast]; omega⟩
  have h10 := all_eq_true.mp all_takeWhile _ (dropLast_subset _ hmem)
  simp at h10

def readBulk (n : ℕ) : Reader Bytes := fun bs =>
  if bs.length < n then none
  else (readLine size (bs.drop n)).bind fun r => if r.1 = [] then some (bs.take n, r.2) else none

def readMany {α : Type} (read : Reader α) : ℕ → Reader (List α)
  | 0, bs => some ([], bs)
  | n + 1, bs => (read bs).bind fun r => (readMany read n r.2).map fun rs => (r.1 :: rs.1, rs.2)

/-- What is read after the first line. A length below 0 stands for nil, of which the source has
only one; here it keeps the type byte it was read with. -/
def readRest (values : ℕ → Reader (List Resp)) (t : UInt8) (line : Bytes) : Reader Resp :=
  fun rest =>
    if t = 43 then some (.status line, rest)
    else if t = 45 then some (.error line, rest)
    else if t = 58 then (parseInt line).map fun n => (.integer n, rest)
    else if t = 36 then (parseLen line).bind fun n =>
      if n < 0 then some (.nilBulk, rest)
      else (readBulk size n.toNatClampNeg rest).map fun r => (.bulk r.1, r.2)
    else if t = 42 then (parseLen line).bind fun n =>
      if n < 0 then some (.nilArray, rest)
      else (values n.toNatClampNeg rest).map fun r => (.array r.1, r.2)
    else none

/-- `Parse`, to a depth of nested arrays. -/
def parseWith : ℕ → Reader Resp
  | 0, _ => none
  | f + 1, bs => (readLine size bs).bind fun (line, rest) =>
    match line with
    | [] => none
    | t :: line => readRest size (readMany (parseWith f)) t line rest

def Parse : Reader Resp := fun bs => parseWith size bs.length bs

mutual

def encode : Resp → Bytes
  | .status text => 43 :: (text ++ crlf)
  | .error text => 45 :: (text ++ crlf)
  | .integer n => 58 :: (decimalInt n.toInt ++ crlf)
  | .nilBulk => 36 :: (decimalInt (-1) ++ crlf)
  | .bulk b => 36 :: (decimalInt b.length ++ crlf ++ (b ++ crlf))
  | .nilArray => 42 :: (decimalInt (-1) ++ crlf)
  | .array xs => 42 :: (decimalInt xs.length ++ crlf ++ encodeAll xs)

def encodeAll : List Resp → Bytes
  | [] => []
  | x :: xs => x.encode ++ encodeAll xs

end

mutual

/-- The value and those it contains. -/
def parts : Resp → List Resp
  | .array xs => .array xs :: partsAll xs
  | v => [v]

def partsAll : List Resp → List Resp
  | [] => []
  | x :: xs => x.parts ++ partsAll xs

end

/-- A text has no LF and fits in the buffer with its type byte and line end, and a length is one
that a slice can have. -/
def Fits : Resp → Prop
  | .status text | .error text => 10 ∉ text ∧ text.length + 3 ≤ size
  | .bulk b => b.length < 2 ^ 63
  | .array xs => xs.length < 2 ^ 63
  | _ => True

def Clean (v : Resp) : Prop := ∀ x ∈ v.parts, x.Fits size

instance : ∀ v : Resp, Decidable (v.Fits size)
  | .status _ | .error _ => inferInstanceAs (Decidable (_ ∧ _))
  | .bulk _ | .array _ => inferInstanceAs (Decidable (_ < _))
  | .integer _ | .nilBulk | .nilArray => .isTrue trivial

instance (v : Resp) : Decidable (v.Clean size) := inferInstanceAs (Decidable (∀ x ∈ v.parts, _))

theorem partsAll_eq (xs : List Resp) : partsAll xs = xs.flatMap parts := by
  induction xs with
  | nil => rfl
  | cons x xs ih => rw [partsAll, flatMap_cons, ih]

theorem encodeAll_eq (xs : List Resp) : encodeAll xs = xs.flatMap encode := by
  induction xs with
  | nil => rfl
  | cons x xs ih => rw [encodeAll, flatMap_cons, ih]

variable {size}

theorem clean_array {xs : List Resp} :
    (Resp.array xs).Clean size ↔ xs.length < 2 ^ 63 ∧ ∀ x ∈ xs, x.Clean size := by
  simp only [Clean, parts, partsAll_eq, forall_mem_cons, Fits, mem_flatMap]
  refine and_congr_right fun _ => ⟨fun h x hx y hy => h y ⟨x, hx, hy⟩, ?_⟩
  rintro h y ⟨x, hx, hy⟩
  exact h x hx y hy

theorem toNatClampNeg_ofNat (h : n < 2 ^ 63) :
    ¬ Int64.ofNat n < 0 ∧ (Int64.ofNat n).toNatClampNeg = n := by
  have hn : (Int64.ofNat n).toInt = n := Int64.toInt_ofNat_of_lt h
  rw [Int64.lt_iff_toInt_lt, hn, Int64.toNatClampNeg, hn]
  exact ⟨by simp, Int.toNat_natCast n⟩

theorem digits_length (f n : ℕ) : (digits f n).length ≤ f := by
  induction f generalizing n with
  | zero => exact le_rfl
  | succ f ih =>
    rw [digits]
    split_ifs
    · simp
    · rw [length_append]
      exact Nat.succ_le_succ (ih _)

theorem decimal_length (h : n < 10 ^ 19) : (decimal n).length ≤ 19 := by
  rw [decimal, digits_eq (lt_pow_succ n) h (by simp) (by simp)]
  exact digits_length 19 n

theorem decimalInt_length {n : ℤ} (h : n.natAbs < 10 ^ 19) : (decimalInt n).length ≤ 20 := by
  cases n with
  | ofNat n => exact (decimal_length h).trans (by decide)
  | negSucc n => exact Nat.succ_le_succ (decimal_length h)

theorem toNatClampNeg_lt (n : Int64) : n.toNatClampNeg < 2 ^ 63 := by
  have := n.toInt_lt
  rw [Int64.toNatClampNeg]
  omega

theorem parseWith_line (f : ℕ) {line : Bytes} (h : 10 ∉ t :: line)
    (hlen : line.length + 3 ≤ size) (rest : Bytes) :
    parseWith size (f + 1) (t :: (line ++ crlf ++ rest)) =
      readRest size (readMany (parseWith size f)) t line rest := by
  have hline := readLine_append size h (by simpa using hlen) rest
  rw [parseWith, show t :: (line ++ crlf ++ rest) = t :: line ++ crlf ++ rest by simp, hline]
  rfl

section
variable (hsize : 23 ≤ size)
include hsize

theorem parseWith_number (f : ℕ) (ht : t ≠ 10) {n : ℤ} (hn : n.natAbs < 10 ^ 19)
    (rest : Bytes) : parseWith size (f + 1) (t :: (decimalInt n ++ crlf ++ rest)) =
      readRest size (readMany (parseWith size f)) t (decimalInt n) rest := by
  have hlen := decimalInt_length hn
  refine parseWith_line f (fun h => ?_) (by omega) rest
  rcases mem_cons.mp h with h | h
  · exact ht h.symm
  · exact mem_decimalInt h rfl

theorem readBulk_append (b rest : Bytes) :
    readBulk size b.length (b ++ (crlf ++ rest)) = some (b, rest) := by
  have hline := readLine_append size not_mem_nil (show 0 + 2 ≤ size by omega) rest
  rw [nil_append] at hline
  rw [readBulk, if_neg (by simp), drop_left, take_left, hline]
  rfl

end

mutual

theorem parseWith_encode (hsize : 23 ≤ size) (v : Resp) (h : v.Clean size) (f : ℕ)
    (hf : v.encode.length ≤ f) (rest : Bytes) :
    parseWith size f (v.encode ++ rest) = some (v, rest) := by
  obtain ⟨f, rfl⟩ : ∃ f', f = f' + 1 := by
    refine Nat.exists_eq_succ_of_ne_zero ?_
    rintro rfl
    cases v <;> simp [encode] at hf
  cases v with
  | status text | error text =>
    obtain ⟨hlf, hlen⟩ := h _ mem_cons_self
    rw [encode, cons_append, parseWith_line f (by simp [hlf]) hlen]
    rfl
  | integer n =>
    have h1 := n.le_toInt
    have h2 := n.toInt_lt
    rw [encode, cons_append, parseWith_number hsize f (by decide) (by omega), readRest,
      parseInt_decimalInt]
    rfl
  | nilBulk | nilArray =>
    rw [encode, cons_append, parseWith_number hsize f (by decide) (by decide)]
    rfl
  | bulk b =>
    have hb : b.length < 2 ^ 63 := h _ mem_cons_self
    obtain ⟨hneg, hn⟩ := toNatClampNeg_ofNat hb
    rw [encode, cons_append, append_assoc, parseWith_number hsize f (by decide) (by simp; omega),
      readRest, show decimalInt b.length = decimal b.length from rfl, parseLen_decimal]
    simp [hneg, hn, readBulk_append hsize]
  | array xs =>
    obtain ⟨hxs, hclean⟩ := clean_array.mp h
    obtain ⟨hneg, hn⟩ := toNatClampNeg_ofNat hxs
    have hlen : (encodeAll xs).length ≤ f := by
      simp only [encode, length_cons, length_append] at hf
      omega
    rw [encode, cons_append, append_assoc, parseWith_number hsize f (by decide) (by simp; omega),
      readRest, show decimalInt xs.length = decimal xs.length from rfl, parseLen_decimal]
    simp [hneg, hn, readMany_encodeAll hsize xs hclean f hlen rest]

theorem readMany_encodeAll (hsize : 23 ≤ size) (xs : List Resp) (h : ∀ x ∈ xs, x.Clean size) (f : ℕ)
    (hf : (encodeAll xs).length ≤ f) (rest : Bytes) :
    readMany (parseWith size f) xs.length (encodeAll xs ++ rest) = some (xs, rest) := by
  cases xs with
  | nil => rfl
  | cons x xs =>
    rw [encodeAll, length_append] at hf
    have hx := parseWith_encode hsize x (h x (.head _)) f (by omega) (encodeAll xs ++ rest)
    have hxs := readMany_encodeAll hsize xs (fun y hy => h y (.tail _ hy)) f (by omega) rest
    rw [encodeAll, append_assoc, length_cons, readMany, hx, Option.bind_some, hxs]
    rfl

end

theorem readMany_forall {α : Type} {read : Reader α} {P : α → Prop}
    (h : ∀ {bs x rest}, read bs = some (x, rest) → P x) {xs : List α}
    (hread : readMany read n bs = some (xs, rest)) : xs.length = n ∧ ∀ x ∈ xs, P x := by
  induction n generalizing bs xs with
  | zero =>
    cases hread
    exact ⟨rfl, fun x hx => absurd hx not_mem_nil⟩
  | succ n ih =>
    obtain ⟨⟨x, bs'⟩, hx, hrest⟩ := Option.bind_eq_some_iff.mp hread
    obtain ⟨⟨xs', rest'⟩, hxs, heq⟩ := Option.map_eq_some_iff.mp hrest
    cases heq
    obtain ⟨hlen, hall⟩ := ih hxs
    exact ⟨congrArg Nat.succ hlen, forall_mem_cons.mpr ⟨h hx, hall⟩⟩

theorem clean_leaf (hparts : v.parts = [v]) (h : v.Fits size) : v.Clean size := by
  rw [Clean, hparts]
  exact forall_mem_singleton.mpr h

theorem readRest_clean {values : ℕ → Reader (List Resp)}
    (hl : 10 ∉ l ∧ l.length + 3 ≤ size) (hvalues : ∀ {k bs xs rest},
      values k bs = some (xs, rest) → xs.length = k ∧ ∀ x ∈ xs, x.Clean size)
    (h : readRest size values t l bs = some (v, rest)) : v.Clean size := by
  unfold readRest at h
  split_ifs at h
  · cases h
    exact clean_leaf rfl hl
  · cases h
    exact clean_leaf rfl hl
  · obtain ⟨n, -, heq⟩ := Option.map_eq_some_iff.mp h
    cases heq
    exact clean_leaf rfl trivial
  · obtain ⟨n, -, h⟩ := Option.bind_eq_some_iff.mp h
    split_ifs at h
    · cases h
      exact clean_leaf rfl trivial
    · obtain ⟨r, hr, heq⟩ := Option.map_eq_some_iff.mp h
      cases heq
      refine clean_leaf rfl ?_
      unfold readBulk at hr
      split_ifs at hr with hlen
      obtain ⟨q, -, hq⟩ := Option.bind_eq_some_iff.mp hr
      split_ifs at hq
      cases hq
      exact (length_take_le _ _).trans_lt (toNatClampNeg_lt n)
  · obtain ⟨n, -, h⟩ := Option.bind_eq_some_iff.mp h
    split_ifs at h
    · cases h
      exact clean_leaf rfl trivial
    · obtain ⟨r, hr, heq⟩ := Option.map_eq_some_iff.mp h
      cases heq
      obtain ⟨hlen, hall⟩ := hvalues hr
      exact clean_array.mpr ⟨hlen ▸ toNatClampNeg_lt n, hall⟩

theorem parseWith_clean (h : parseWith size f bs = some (v, rest)) : v.Clean size := by
  induction f generalizing bs rest v with
  | zero => cases h
  | succ f ih =>
    obtain ⟨⟨line, rest'⟩, hline, h⟩ := Option.bind_eq_some_iff.mp h
    rcases line with _ | ⟨t, line⟩
    · cases h
    · obtain ⟨hlf, hlen⟩ := readLine_clean size hline
      exact readRest_clean ⟨not_mem_of_not_mem_cons hlf, hlen⟩ (readMany_forall ih) h

theorem Parse_encode_iff (hsize : 23 ≤ size) (v : Resp) (rest : Bytes) :
    Parse size (v.encode ++ rest) = some (v, rest) ↔ v.Clean size := by
  constructor
  · exact parseWith_clean
  · intro h
    exact parseWith_encode hsize v h _ (by rw [length_append]; exact Nat.le_add_right _ _) rest

theorem readMany_Parse_iff (hsize : 23 ≤ size) (vs : List Resp) (rest : Bytes) :
    readMany (Parse size) vs.length (vs.flatMap encode ++ rest) = some (vs, rest) ↔
      ∀ v ∈ vs, v.Clean size := by
  refine ⟨fun h => (readMany_forall parseWith_clean h).2, fun h => ?_⟩
  induction vs with
  | nil => rfl
  | cons v vs ih =>
    obtain ⟨hv, hvs⟩ := forall_mem_cons.mp h
    rw [flatMap_cons, append_assoc, length_cons, readMany,
      (Parse_encode_iff hsize v _).mpr hv, Option.bind_some, ih hvs]
    rfl

end Resp

end LedisDB
