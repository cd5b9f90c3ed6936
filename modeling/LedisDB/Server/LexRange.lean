import LedisDB.Server.Errors
import LedisDB.ZSetLex

/-!
# Lexicographic ranges

`zparseMemberRange` of `server/cmd_zset.go` turns the two bounds of a client into the bounds
and the range type that the engine takes. The type has one bit for each end, and an absent
bound is the end of the members of the key.
-/

namespace LedisDB

def parseMember (word : Bytes) (openType : UInt8) (buf : Bytes) (rangeType : UInt8) :
    Except ServerErr (Option Bytes × UInt8) :=
  if toLower buf = word then .ok (none, rangeType)
  else match buf with
    | [] => .error .ErrCmdParams
    | c :: member =>
      if c = 40 then .ok (some member, rangeType ||| openType)
      else if c = 91 then .ok (some member, rangeType)
      else .error .ErrCmdParams

def zparseMemberRange (minBuf maxBuf : Bytes) :
    Except ServerErr (Option Bytes × Option Bytes × UInt8) := do
  let (min, rangeType) ← parseMember (str "-") RangeLOpen minBuf RangeClose
  let (max, rangeType) ← parseMember (str "+") RangeROpen maxBuf rangeType
  return (min, max, rangeType)

def IsBound (word buf : Bytes) : Prop :=
  buf = word ∨ ∃ member, buf = 40 :: member ∨ buf = 91 :: member

def AboveMin : Bytes → Bytes → Prop
  | 40 :: min, m => min < m
  | 91 :: min, m => min ≤ m
  | _, _ => True

def BelowMax : Bytes → Bytes → Prop
  | 40 :: max, m => m < max
  | 91 :: max, m => m ≤ max
  | _, _ => True

section
variable {db : DB} {s : Store} {key b m : Bytes} {rangeType c openType : UInt8}
  {min max bound : Option Bytes}

theorem toLower_eq_nil : toLower b = [] ↔ b = [] := by
  fun_cases toLower b <;> simp

theorem toLower_eq_singleton (hc : ¬ (97 ≤ c ∧ c ≤ 122)) (hc' : ¬ (65 ≤ c ∧ c ≤ 90)) :
    toLower b = [c] ↔ b = [c] := by
  fun_cases toLower b with
  | case1 bs =>
    refine iff_of_false (fun h => ?_) fun h => absurd (congrArg List.length h) (by simp)
    rw [← (List.cons.inj h).1] at hc
    exact hc (by decide)
  | case2 bs =>
    refine iff_of_false (fun h => ?_) fun h => absurd (congrArg List.length h) (by simp)
    rw [← (List.cons.inj h).1] at hc
    exact hc (by decide)
  | case3 b bs h1 h2 =>
    rw [List.cons.injEq, toLower_eq_nil, List.cons.injEq]
    refine and_congr_left fun _ => ?_
    split_ifs with hcap
    · have hletter : 97 ≤ b + 32 ∧ b + 32 ≤ 122 := by grind
      constructor
      · rintro rfl
        exact absurd hletter hc
      · rintro rfl
        exact absurd hcap hc'
    · exact Iff.rfl
  | case4 => simp

theorem toLower_eq_dash : toLower b = str "-" ↔ b = str "-" :=
  toLower_eq_singleton (c := 45) (by decide) (by decide)

theorem toLower_eq_plus : toLower b = str "+" ↔ b = str "+" :=
  toLower_eq_singleton (c := 43) (by decide) (by decide)

theorem parseMember_error {word buf : Bytes} (hword : ∀ {b}, toLower b = word ↔ b = word)
    {e : ServerErr} (h : parseMember word openType buf rangeType = .error e) :
    e = .ErrCmdParams ∧ ¬ IsBound word buf := by
  simp only [parseMember, hword] at h
  split_ifs at h with hw
  cases buf with
  | nil =>
    cases h
    refine ⟨rfl, ?_⟩
    rintro (rfl | ⟨x, hx | hx⟩)
    · exact hw rfl
    · cases hx
    · cases hx
  | cons c x =>
    dsimp only at h
    split_ifs at h with h1 h2
    cases h
    refine ⟨rfl, ?_⟩
    rintro (rfl | ⟨y, hy | hy⟩)
    · exact hw rfl
    · exact h1 (List.cons.inj hy).1
    · exact h2 (List.cons.inj hy).1

theorem parseMember_ok {word buf : Bytes} (hword : ∀ {b}, toLower b = word ↔ b = word) {t : UInt8}
    (h : parseMember word openType buf rangeType = .ok (bound, t)) :
    (buf = word ∧ bound = none ∧ t = rangeType) ∨
      ∃ x, bound = some x ∧ (buf = 40 :: x ∧ t = rangeType ||| openType ∨
        buf = 91 :: x ∧ t = rangeType) := by
  simp only [parseMember, hword] at h
  split_ifs at h with hw
  · cases h
    exact .inl ⟨hw, rfl, rfl⟩
  · cases buf with
    | nil => cases h
    | cons c x =>
      dsimp only at h
      split_ifs at h with h1 h2
      · cases h
        exact .inr ⟨x, rfl, .inl ⟨by rw [h1], rfl⟩⟩
      · cases h
        exact .inr ⟨x, rfl, .inr ⟨by rw [h2], rfl⟩⟩

theorem aboveMin_some {min : Bytes} :
    (db.zLexRange key (some min) max rangeType).aboveMin (db.zEncodeSetKey key m) = true ↔
      if rangeType &&& RangeLOpen > 0 then min < m else min ≤ m := by
  rw [← zEncodeSetKey_lt_iff, ← zEncodeSetKey_le_iff]
  exact Range.aboveMin_iff

theorem aboveMin_none (hopen : ¬ rangeType &&& RangeLOpen > 0) :
    (db.zLexRange key none max rangeType).aboveMin (db.zEncodeSetKey key m) = true := by
  refine Range.aboveMin_iff.mpr ?_
  rw [if_neg hopen, DB.zEncodeStartSetKey, zEncodeSetKey_le_iff]
  exact Lexicographic.le_append [] m

theorem belowMax_some {max : Bytes} :
    (db.zLexRange key min (some max) rangeType).belowMax (db.zEncodeSetKey key m) = true ↔
      if rangeType &&& RangeROpen > 0 then m < max else m ≤ max := by
  rw [← zEncodeSetKey_lt_iff, ← zEncodeSetKey_le_iff]
  exact Range.belowMax_iff

theorem belowMax_none :
    (db.zLexRange key min none rangeType).belowMax (db.zEncodeSetKey key m) = true := by
  have hlt : db.zEncodeSetKey key m < db.zEncodeStopSetKey key := by
    rw [zEncodeStopSetKey_item, DB.zEncodeSetKey, ← not_le, DB.itemKey_le_iff, not_le]
    exact List.Lex.rel (by decide)
  refine Range.belowMax_iff.mpr ?_
  split_ifs
  · exact hlt
  · exact hlt.le

theorem parseMin_above {minBuf : Bytes} {min : Option Bytes} {t : UInt8}
    (h : parseMember (str "-") RangeLOpen minBuf RangeClose = .ok (min, t)) :
    IsBound (str "-") minBuf ∧ (t = RangeClose ∨ t = RangeLOpen) ∧
      ∀ {t' : UInt8}, (t' &&& RangeLOpen > 0 ↔ t = RangeLOpen) → ∀ (max : Option Bytes) (m : Bytes),
        ((db.zLexRange key min max t').aboveMin (db.zEncodeSetKey key m) = true ↔
          AboveMin minBuf m) := by
  rcases parseMember_ok toLower_eq_dash h with ⟨rfl, rfl, rfl⟩ | ⟨x, rfl, ⟨rfl, rfl⟩ | ⟨rfl, rfl⟩⟩
  · refine ⟨.inl rfl, .inl rfl, fun hopen max m => iff_of_true (aboveMin_none ?_) trivial⟩
    rw [hopen]
    decide
  · refine ⟨.inr ⟨x, .inl rfl⟩, .inr rfl, fun hopen max m => ?_⟩
    rw [aboveMin_some, if_pos (hopen.mpr rfl)]
    exact Iff.rfl
  · refine ⟨.inr ⟨x, .inr rfl⟩, .inl rfl, fun hopen max m => ?_⟩
    rw [aboveMin_some, if_neg (hopen.not.mpr (by decide))]
    exact Iff.rfl

theorem parseMax_below {maxBuf : Bytes} {max : Option Bytes} {t t' : UInt8}
    (ht : t = RangeClose ∨ t = RangeLOpen)
    (h : parseMember (str "+") RangeROpen maxBuf t = .ok (max, t')) :
    IsBound (str "+") maxBuf ∧ (t' &&& RangeLOpen > 0 ↔ t = RangeLOpen) ∧
      ∀ (min : Option Bytes) (m : Bytes),
        ((db.zLexRange key min max t').belowMax (db.zEncodeSetKey key m) = true ↔
          BelowMax maxBuf m) := by
  rcases parseMember_ok toLower_eq_plus h with ⟨rfl, rfl, rfl⟩ | ⟨x, rfl, ⟨rfl, rfl⟩ | ⟨rfl, rfl⟩⟩
  · refine ⟨.inl rfl, ?_, fun min m => iff_of_true belowMax_none trivial⟩
    rcases ht with rfl | rfl <;> decide
  · refine ⟨.inr ⟨x, .inl rfl⟩, ?_, fun min m => ?_⟩
    · rcases ht with rfl | rfl <;> decide
    · rw [belowMax_some, if_pos]
      · exact Iff.rfl
      · rcases ht with rfl | rfl <;> decide
  · refine ⟨.inr ⟨x, .inr rfl⟩, ?_, fun min m => ?_⟩
    · rcases ht with rfl | rfl <;> decide
    · rw [belowMax_some, if_neg]
      · exact Iff.rfl
      · rcases ht with rfl | rfl <;> decide

/-- The bounds are accepted exactly when they have the right form, and the queries with what
they are turned into answer for the members between them, in byte order. -/
theorem lex_queries (db : DB) (hs : StoreWf s) (key minBuf maxBuf : Bytes) :
    match zparseMemberRange minBuf maxBuf with
    | .error e => e = .ErrCmdParams ∧ ¬ (IsBound (str "-") minBuf ∧ IsBound (str "+") maxBuf)
    | .ok (min, max, rangeType) => IsBound (str "-") minBuf ∧ IsBound (str "+") maxBuf ∧
      ∃ ms : List Bytes, ms.Pairwise (· < ·) ∧
        (∀ m, m ∈ ms ↔ (s.get (db.zEncodeSetKey key m)).isSome ∧ AboveMin minBuf m ∧
          BelowMax maxBuf m) ∧
        (∀ env offset count, (db.ZRangeByLex key min max rangeType offset count).eval env s =
          .ok (if offset < 0 then [] else if count < 0 then ms.drop offset.toNat
            else (ms.drop offset.toNat).take count.toNat)) ∧
        ∀ env, (db.ZLexCount key min max rangeType).eval env s = .ok (Int64.ofNat ms.length) := by
  cases hmin : parseMember (str "-") RangeLOpen minBuf RangeClose with
  | error e =>
    have hparse : zparseMemberRange minBuf maxBuf = .error e := by
      simp only [zparseMemberRange, hmin]
      rfl
    obtain ⟨he, hnot⟩ := parseMember_error toLower_eq_dash hmin
    rw [hparse]
    exact ⟨he, fun hb => hnot hb.1⟩
  | ok r =>
    obtain ⟨min, t⟩ := r
    obtain ⟨hminb, ht, habove⟩ := @parseMin_above db key minBuf min t hmin
    have hparse : zparseMemberRange minBuf maxBuf =
        (parseMember (str "+") RangeROpen maxBuf t).map fun r => (min, r.1, r.2) := by
      simp only [zparseMemberRange, hmin]
      rfl
    rw [hparse]
    cases hmax : parseMember (str "+") RangeROpen maxBuf t with
    | error e =>
      obtain ⟨he, hnot⟩ := parseMember_error toLower_eq_plus hmax
      exact ⟨he, fun hb => hnot hb.2⟩
    | ok r =>
      obtain ⟨max, t'⟩ := r
      obtain ⟨hmaxb, hopen, hbelow⟩ := @parseMax_below db key maxBuf max t t' ht hmax
      obtain ⟨ms, hsorted, hmem, hrange, hcount⟩ := lex_members hs min max t'
      refine ⟨hminb, hmaxb, ms, hsorted, fun m => ?_, hrange, hcount⟩
      rw [hmem, habove hopen, hbelow]

theorem lex_queries_from_b :
    ∃ ms : List Bytes, ms.Pairwise (· < ·) ∧
      (∀ m, m ∈ ms ↔ (twoMembers.get (DB.zero.zEncodeSetKey [122] m)).isSome ∧
        AboveMin (str "[b") m ∧ BelowMax (str "+") m) ∧
      (DB.zero.ZRangeByLex [122] (some [98]) none RangeClose 0 5).eval (Env.quiet 0) twoMembers =
        .ok (ms.take 5) ∧
      (DB.zero.ZLexCount [122] (some [98]) none RangeClose).eval (Env.quiet 0) twoMembers =
        .ok (Int64.ofNat ms.length) := by
  have hqueries := lex_queries DB.zero twoMembers_reached.wf [122] (str "[b") (str "+")
  obtain ⟨-, -, ms, hsorted, hmem, hrange, hcount⟩ := hqueries
  exact ⟨ms, hsorted, hmem, hrange (Env.quiet 0) 0 5, hcount (Env.quiet 0)⟩

end

end LedisDB
