import LedisDB.Operation

/-!
# Integers in values

`ledis/util.go` keeps sizes, scores and deadlines as eight little-endian bytes
(`Int64`, `PutInt64`) and counters as decimal text (`StrInt64` and
`num.FormatInt64ToSlice`, which are `strconv.ParseInt` and `AppendInt` at base
ten and 64 bits). Words are compared in small letters.
-/

namespace LedisDB

/-- `Int64`: a missing or empty value reads as zero. -/
def decodeInt64 (v : Option Bytes) : Except Err Int64 :=
  match v with
  | none => .ok 0
  | some v =>
    if v.length = 0 then .ok 0
    else if v.length ≠ 8 then .error .errIntNumber
    else .ok (UInt64.ofNat (leNat v)).toInt64

def PutInt64 (v : Int64) : Bytes := leBytes 8 v.toUInt64.toNat

@[simp] theorem PutInt64_length (v : Int64) : (PutInt64 v).length = 8 := leBytes_length 8 _

@[simp] theorem decodeInt64_none : decodeInt64 none = .ok 0 := rfl

@[simp] theorem decodeInt64_PutInt64 (v : Int64) : decodeInt64 (some (PutInt64 v)) = .ok v := by
  have hlt : v.toUInt64.toNat < 256 ^ 8 := by
    simpa using v.toUInt64.toNat_lt
  have hnat : leNat (PutInt64 v) = v.toUInt64.toNat := leNat_leBytes_of_lt hlt
  simp [decodeInt64, hnat]

theorem decodeInt64_error {v : Option Bytes} {e : Err} (h : decodeInt64 v = .error e) :
    e = .errIntNumber := by
  unfold decodeInt64 at h
  split at h
  · cases h
  · split_ifs at h
    exact (Except.error.inj h).symm

theorem PutInt64_inj {v w : Int64} (h : PutInt64 v = PutInt64 w) : v = w := by
  have hv := decodeInt64_PutInt64 v
  rw [h, decodeInt64_PutInt64] at hv
  exact (Except.ok.inj hv).symm

/-- The loop of `strconv.ParseUint`: overflow is reported before later bytes are read. -/
def parseUint : ℕ → Bytes → Except Err ℕ
  | n, [] => .ok n
  | n, c :: cs =>
    if c < 48 ∨ 57 < c then .error .errNumSyntax
    else if 2 ^ 64 / 10 + 1 ≤ n then .error .errNumRange
    else if 2 ^ 64 ≤ n * 10 + (c.toNat - 48) then .error .errNumRange
    else parseUint (n * 10 + (c.toNat - 48)) cs

def parseInt (s : Bytes) : Except Err Int64 :=
  let (neg, digits) := match s with
    | 43 :: cs => (false, cs)
    | 45 :: cs => (true, cs)
    | cs => (false, cs)
  if digits = [] then .error .errNumSyntax
  else match parseUint 0 digits with
    | .error e => .error e
    | .ok un =>
      if neg = false ∧ 2 ^ 63 ≤ un then .error .errNumRange
      else if neg = true ∧ 2 ^ 63 < un then .error .errNumRange
      else .ok (if neg then Int64.ofInt (-un) else Int64.ofNat un)

def StrInt64 (v : Option Bytes) : Except Err Int64 :=
  match v with
  | none => .ok 0
  | some v => parseInt v

def decimalDigits : ℕ → ℕ → Bytes
  | 0, _ => []
  | f + 1, n =>
    if n < 10 then [UInt8.ofNat (48 + n)]
    else decimalDigits f (n / 10) ++ [UInt8.ofNat (48 + n % 10)]

def FormatInt64ToSlice (v : Int64) : Bytes :=
  if v.toInt < 0 then 45 :: decimalDigits 20 v.toInt.natAbs
  else decimalDigits 20 v.toInt.natAbs

def str (s : String) : Bytes := s.toList.map fun c => UInt8.ofNat c.toNat

/-- `strings.ToLower`, as far as it can yield ASCII: besides the capital letters these are
the dotted capital i and the sign for kelvin. -/
def toLower : Bytes → Bytes
  | 0xc4 :: 0xb0 :: bs => 105 :: toLower bs
  | 0xe2 :: 0x84 :: 0xaa :: bs => 107 :: toLower bs
  | b :: bs => (if 65 ≤ b ∧ b ≤ 90 then b + 32 else b) :: toLower bs
  | [] => []

end LedisDB
