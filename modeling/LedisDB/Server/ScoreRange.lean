import LedisDB.Decimals
import LedisDB.Server.Errors
import LedisDB.ZSet

/-!
# Score ranges

`zparseScoreRange` of `server/cmd_zset.go` reads the two bounds of a client. An open bound
is turned into the next score inwards. The upper end looks for its bracket twice, the second
time without a look at the length.
-/

namespace LedisDB

def parseScore (buf : Bytes) : Except ServerErr Int64 :=
  match StrInt64 (some buf) with
  | .error _ => .error .ErrValue
  | .ok n => if n ≤ MinScore ∨ n ≥ MaxScore then .error .errScoreOverflow else .ok n

def parseMinScore (minBuf : Bytes) : Except ServerErr Int64 :=
  if toLower minBuf = str "-inf" then .ok Int64.minValue
  else match minBuf with
    | [] => .error .ErrCmdParams
    | c :: buf => do
      let (lopen, minBuf) := if c = 40 then (true, buf) else (false, c :: buf)
      let min ← parseScore minBuf
      return if lopen then min + 1 else min

def parseMaxScore (maxBuf : Bytes) : Except ServerErr Int64 :=
  if toLower maxBuf = str "+inf" then .ok Int64.maxValue
  else match maxBuf with
    | [] => .error .ErrCmdParams
    | c :: buf =>
      let (ropen, maxBuf) := if c = 40 then (true, buf) else (false, c :: buf)
      match maxBuf with
      -- `maxBuf[0]` of nothing
      | [] => .error (.ledis .panic)
      | c :: buf => do
        let (ropen, maxBuf) := if c = 40 then (true, buf) else (ropen, c :: buf)
        let max ← parseScore maxBuf
        return if ropen then max - 1 else max

def zparseScoreRange (minBuf maxBuf : Bytes) : Except ServerErr (Int64 × Int64) := do
  let min ← parseMinScore minBuf
  let max ← parseMaxScore maxBuf
  return (min, max)

def IsScore (text : Bytes) (n : ℤ) : Prop :=
  IsDecimal text n ∧ MinScore.toInt < n ∧ n < MaxScore.toInt

/-- The word in any case, or a score behind at most one bracket. -/
def IsScoreBound (word buf : Bytes) : Prop :=
  toLower buf = word ∨ ∃ text n, (buf = text ∨ buf = 40 :: text) ∧ IsScore text n

def MeetsBound (word : Bytes) (closed strict : ℤ → ℤ → Prop) (buf : Bytes) (s : ℤ) : Prop :=
  toLower buf = word ∨ ∃ text n, IsScore text n ∧
    (buf = text ∧ closed n s ∨ buf = 40 :: text ∧ strict n s)

def AboveScore (minBuf : Bytes) (s : ℤ) : Prop := MeetsBound (str "-inf") (· ≤ ·) (· < ·) minBuf s

def BelowScore (maxBuf : Bytes) (s : ℤ) : Prop := MeetsBound (str "+inf") (· ≥ ·) (· > ·) maxBuf s

/-- The bounds are read without a panic, accepted exactly when they have their form, and
accepted bounds hold the scores between those written. -/
structure ScoreRangeParsed (minBuf maxBuf : Bytes) : Prop where
  no_panic : zparseScoreRange minBuf maxBuf ≠ .error (.ledis .panic)
  accepts : (∃ r, zparseScoreRange minBuf maxBuf = .ok r) ↔
    IsScoreBound (str "-inf") minBuf ∧ IsScoreBound (str "+inf") maxBuf
  bounds : ∀ min max, zparseScoreRange minBuf maxBuf = .ok (min, max) →
    ∀ s : Int64, MinScore < s → s < MaxScore →
      (min ≤ s ∧ s ≤ max ↔ AboveScore minBuf s.toInt ∧ BelowScore maxBuf s.toInt)

/-- One bracket with nothing behind it, or two before a score. -/
def BracketsTwice (maxBuf : Bytes) : Prop :=
  maxBuf = [40] ∨ ∃ text n, maxBuf = 40 :: 40 :: text ∧ IsScore text n

section
variable {buf text word minBuf maxBuf : Bytes} {n s : Int64} {k : ℤ} {closed strict : ℤ → ℤ → Prop}

theorem not_isDecimal_bracket (text : Bytes) (n : ℤ) : ¬ IsDecimal (40 :: text) n := by
  rintro ⟨ds, m, hread, (⟨rfl | h, -⟩ | ⟨h, -⟩)⟩
  · simp [Resp.readNat, Resp.readDigits] at hread
  · cases h
  · cases h

theorem parseScore_ok : parseScore buf = .ok n ↔ IsScore buf n.toInt := by
  rw [parseScore, IsScore, ← parseInt_ok_iff]
  cases hp : parseInt buf with
  | error e => simp [StrInt64, hp]
  | ok m =>
    simp only [StrInt64, hp, Except.ok.injEq, ← Int64.lt_iff_toInt_lt]
    split_ifs with h
    · refine iff_of_false nofun ?_
      rintro ⟨rfl, hlow, hhigh⟩
      rcases h with h | h
      · exact Int64.not_lt.mpr h hlow
      · exact Int64.not_lt.mpr h hhigh
    · rw [not_or, Int64.not_le, Int64.not_le] at h
      simp only [Except.ok.injEq]
      exact ⟨fun heq => ⟨heq, heq ▸ h⟩, fun heq => heq.1⟩

theorem IsScore.parse (h : IsScore buf k) : ∃ n, parseScore buf = .ok n ∧ n.toInt = k := by
  have hk : (Int64.ofInt k).toInt = k := by
    refine Int64.toInt_ofInt_fits ?_
    obtain ⟨-, hlow, hhigh⟩ := h
    have hmin : MinScore.toInt = -2 ^ 63 + 1 := rfl
    have hmax : MaxScore.toInt = 2 ^ 63 - 1 := rfl
    constructor <;> omega
  exact ⟨_, parseScore_ok.mpr (hk.symm ▸ h), hk⟩

theorem parseScore_ne_panic (buf : Bytes) : parseScore buf ≠ .error (.ledis .panic) := by
  unfold parseScore
  split
  · exact nofun
  · split_ifs <;> exact nofun

theorem parseScore_error {e : ServerErr} (h : parseScore buf = .error e) (k : ℤ) :
    ¬ IsScore buf k := by
  intro hk
  obtain ⟨n, hn, -⟩ := hk.parse
  rw [h] at hn
  cases hn

theorem isScoreBound_closed (hw : toLower buf ≠ word) (hc : buf.head? ≠ some 40) :
    IsScoreBound word buf ↔ ∃ k, IsScore buf k := by
  constructor
  · rintro (h | ⟨text, k, rfl | rfl, hk⟩)
    · exact absurd h hw
    · exact ⟨k, hk⟩
    · exact absurd rfl hc
  · rintro ⟨k, hk⟩
    exact .inr ⟨buf, k, .inl rfl, hk⟩

theorem isScoreBound_open (hw : toLower (40 :: text) ≠ word) :
    IsScoreBound word (40 :: text) ↔ ∃ k, IsScore text k := by
  constructor
  · rintro (h | ⟨text', k, rfl | h, hk⟩)
    · exact absurd h hw
    · exact absurd hk.1 (not_isDecimal_bracket text k)
    · cases h
      exact ⟨k, hk⟩
  · rintro ⟨k, hk⟩
    exact .inr ⟨text, k, .inr rfl, hk⟩

theorem meetsBound_closed (hw : toLower buf ≠ word) (hk : IsScore buf k) (s : ℤ) :
    MeetsBound word closed strict buf s ↔ closed k s := by
  constructor
  · rintro (h | ⟨text, n, hn, ⟨rfl, h⟩ | ⟨rfl, -⟩⟩)
    · exact absurd h hw
    · rwa [hk.1.unique hn.1]
    · exact absurd hk.1 (not_isDecimal_bracket text k)
  · exact fun h => .inr ⟨buf, k, hk, .inl ⟨rfl, h⟩⟩

theorem meetsBound_open (hw : toLower (40 :: text) ≠ word) (hk : IsScore text k) (s : ℤ) :
    MeetsBound word closed strict (40 :: text) s ↔ strict k s := by
  constructor
  · rintro (h | ⟨text', n, hn, ⟨rfl, -⟩ | ⟨heq, h⟩⟩)
    · exact absurd h hw
    · exact absurd hn.1 (not_isDecimal_bracket text n)
    · cases heq
      rwa [hk.1.unique hn.1]
  · exact fun h => .inr ⟨text, k, hk, .inr ⟨rfl, h⟩⟩

def BoundParsed (word : Bytes) (closed strict : ℤ → ℤ → Prop) (inside : Int64 → Int64 → Prop)
    (buf : Bytes) : Except ServerErr Int64 → Prop
  | .error e => e ≠ .ledis .panic ∧ ¬ IsScoreBound word buf
  | .ok bound => IsScoreBound word buf ∧ ∀ s, MinScore < s → s < MaxScore →
      (inside bound s ↔ MeetsBound word closed strict buf s.toInt)

section
variable {inside : Int64 → Int64 → Prop}

theorem parsed_closed (hw : toLower buf ≠ word) (hc : buf.head? ≠ some 40)
    (hin : ∀ n s : Int64, inside n s ↔ closed n.toInt s.toInt) :
    BoundParsed word closed strict inside buf (parseScore buf >>= pure) := by
  cases hp : parseScore buf with
  | error e =>
    refine ⟨fun he => parseScore_ne_panic buf (he ▸ hp), ?_⟩
    rw [isScoreBound_closed hw hc]
    exact fun ⟨k, hk⟩ => parseScore_error hp k hk
  | ok n =>
    have hn := parseScore_ok.mp hp
    refine ⟨(isScoreBound_closed hw hc).mpr ⟨_, hn⟩, fun s _ _ => ?_⟩
    rw [meetsBound_closed hw hn, hin]

theorem parsed_open {step : Int64 → Int64} (hw : toLower (40 :: text) ≠ word)
    (hin : ∀ n s : Int64, MinScore < n → n < MaxScore → (inside (step n) s ↔
      strict n.toInt s.toInt)) :
    BoundParsed word closed strict inside (40 :: text)
      (parseScore text >>= fun n => pure (step n)) := by
  cases hp : parseScore text with
  | error e =>
    refine ⟨fun he => parseScore_ne_panic text (he ▸ hp), ?_⟩
    rw [isScoreBound_open hw]
    exact fun ⟨k, hk⟩ => parseScore_error hp k hk
  | ok n =>
    have hn := parseScore_ok.mp hp
    refine ⟨(isScoreBound_open hw).mpr ⟨_, hn⟩, fun s _ _ => ?_⟩
    rw [meetsBound_open hw hn, ← hin n s (Int64.lt_iff_toInt_lt.mpr hn.2.1)
      (Int64.lt_iff_toInt_lt.mpr hn.2.2)]

theorem parsed_word (hw : toLower buf = word) {bound : Int64} (hin : ∀ s, inside bound s) :
    BoundParsed word closed strict inside buf (.ok bound) :=
  ⟨Or.inl hw, fun s _ _ => iff_of_true (hin s) (Or.inl hw)⟩

theorem parsed_empty (hw : toLower [] ≠ word) :
    BoundParsed word closed strict inside [] (.error .ErrCmdParams) := by
  refine ⟨nofun, ?_⟩
  rw [isScoreBound_closed hw nofun]
  rintro ⟨k, hk⟩
  obtain ⟨n, hn, -⟩ := hk.parse
  cases hn

end

theorem succ_le_iff (hn : n < MaxScore) (s : Int64) : n + 1 ≤ s ↔ n.toInt < s.toInt := by
  have hone : (1 : Int64).toInt = 1 := rfl
  have hmax : MaxScore.toInt = 2 ^ 63 - 1 := rfl
  rw [Int64.lt_iff_toInt_lt] at hn
  rw [Int64.le_iff_toInt_le, toInt_add_fits]
  · omega
  · have hlow := Int64.le_toInt n
    constructor <;> omega

theorem le_pred_iff (hn : MinScore < n) (s : Int64) : s ≤ n - 1 ↔ n.toInt > s.toInt := by
  have hone : (1 : Int64).toInt = 1 := rfl
  have hmin : MinScore.toInt = -2 ^ 63 + 1 := rfl
  rw [Int64.lt_iff_toInt_lt] at hn
  rw [Int64.le_iff_toInt_le, toInt_sub_fits]
  · omega
  · have hhigh := Int64.toInt_lt n
    constructor <;> omega

theorem parseMinScore_spec (minBuf : Bytes) :
    BoundParsed (str "-inf") (· ≤ ·) (· < ·) (fun min s => min ≤ s) minBuf
      (parseMinScore minBuf) := by
  unfold parseMinScore
  split_ifs with hw
  · exact parsed_word hw Int64.minValue_le
  cases minBuf with
  | nil => exact parsed_empty hw
  | cons c buf =>
    by_cases hc : c = 40
    · subst hc
      exact parsed_open hw fun n s _ hn => succ_le_iff hn s
    · dsimp only
      rw [if_neg hc]
      exact parsed_closed hw (by simpa using hc) fun n s => Int64.le_iff_toInt_le

theorem parseMaxScore_spec (h : ¬ BracketsTwice maxBuf) :
    BoundParsed (str "+inf") (· ≥ ·) (· > ·) (fun max s => s ≤ max) maxBuf
      (parseMaxScore maxBuf) := by
  unfold parseMaxScore
  split_ifs with hw
  · exact parsed_word hw Int64.le_maxValue
  cases maxBuf with
  | nil => exact parsed_empty hw
  | cons c buf =>
    by_cases hc : c = 40
    · subst hc
      cases buf with
      | nil => exact absurd (.inl rfl) h
      | cons c' buf =>
        by_cases hc' : c' = 40
        · subst hc'
          have herror : ∃ e, parseScore buf = .error e := by
            cases hp : parseScore buf with
            | error e => exact ⟨e, rfl⟩
            | ok n => exact absurd (.inr ⟨buf, _, rfl, parseScore_ok.mp hp⟩) h
          obtain ⟨e, he⟩ := herror
          simp only [if_true, he]
          refine ⟨fun hpanic => parseScore_ne_panic buf (hpanic ▸ he), ?_⟩
          rw [isScoreBound_open hw]
          exact fun ⟨k, hk⟩ => not_isDecimal_bracket buf k hk.1
        · dsimp only
          rw [if_pos rfl]
          dsimp only
          rw [if_neg hc']
          exact parsed_open hw fun n s hn _ => le_pred_iff hn s
    · dsimp only
      rw [if_neg hc]
      dsimp only
      rw [if_neg hc]
      exact parsed_closed hw (by simpa using hc) fun n s => Int64.le_iff_toInt_le

theorem parseMaxScore_brackets (h : BracketsTwice maxBuf) :
    parseMaxScore maxBuf = .error (.ledis .panic) ∨
      (∃ max, parseMaxScore maxBuf = .ok max) ∧ ¬ IsScoreBound (str "+inf") maxBuf := by
  rcases h with rfl | ⟨text, k, rfl, hk⟩
  · exact .inl rfl
  · right
    have hw : toLower (40 :: 40 :: text) ≠ str "+inf" := by
      intro h
      exact absurd (List.cons.inj h).1 (by decide)
    obtain ⟨n, hn, -⟩ := hk.parse
    refine ⟨⟨n - 1, ?_⟩, ?_⟩
    · simp only [parseMaxScore, if_true, hn]
      rfl
    · rw [isScoreBound_open hw]
      exact fun ⟨k, hk⟩ => not_isDecimal_bracket text k hk.1

/-- The bounds are parsed as documented exactly when a lower bound that is accepted does not
meet an upper bound whose bracket is looked for twice. -/
theorem score_range_iff (minBuf maxBuf : Bytes) : ScoreRangeParsed minBuf maxBuf ↔
    ¬ (IsScoreBound (str "-inf") minBuf ∧ BracketsTwice maxBuf) := by
  have hmin := parseMinScore_spec minBuf
  cases hp : parseMinScore minBuf with
  | error e =>
    rw [hp] at hmin
    have hparse : zparseScoreRange minBuf maxBuf = .error e := by
      rw [zparseScoreRange, hp]
      rfl
    refine iff_of_true ⟨?_, ?_, ?_⟩ fun h => hmin.2 h.1
    · rw [hparse]
      exact fun h => hmin.1 (Except.error.inj h)
    · rw [hparse]
      exact iff_of_false nofun fun h => hmin.2 h.1
    · rw [hparse]
      exact nofun
  | ok min =>
    rw [hp] at hmin
    have hparse : zparseScoreRange minBuf maxBuf =
        parseMaxScore maxBuf >>= fun max => pure (min, max) := by
      rw [zparseScoreRange, hp]
      rfl
    by_cases hb : BracketsTwice maxBuf
    · refine iff_of_false (fun h => ?_) (not_not.mpr ⟨hmin.1, hb⟩)
      rcases parseMaxScore_brackets hb with hmax | ⟨⟨max, hmax⟩, hno⟩ <;> rw [hmax] at hparse
      · exact h.no_panic hparse
      · exact hno (h.accepts.mp ⟨_, hparse⟩).2
    · refine iff_of_true ?_ fun h => hb h.2
      have hmax := parseMaxScore_spec hb
      cases hp' : parseMaxScore maxBuf with
      | error e =>
        rw [hp'] at hmax hparse
        refine ⟨?_, ?_, ?_⟩
        · rw [hparse]
          exact fun h => hmax.1 (Except.error.inj h)
        · rw [hparse]
          exact iff_of_false nofun fun h => hmax.2 h.2
        · rw [hparse]
          exact nofun
      | ok max =>
        rw [hp'] at hmax hparse
        refine ⟨by rw [hparse]; exact nofun, ?_, fun min' max' hok s hlow hhigh => ?_⟩
        · exact iff_of_true ⟨_, hparse⟩ ⟨hmin.1, hmax.1⟩
        · cases hparse.symm.trans hok
          exact and_congr (hmin.2 s hlow hhigh) (hmax.2 s hlow hhigh)

theorem score_range_brackets :
    zparseScoreRange (str "-inf") (str "(") = .error (.ledis .panic) ∧
    zparseScoreRange (str "-inf") (str "((5") = .ok (Int64.minValue, 4) ∧
    ¬ IsScoreBound (str "+inf") (str "((5") := by
  refine ⟨by decide, by decide, ?_⟩
  rw [show str "((5" = 40 :: str "(5" from rfl, isScoreBound_open (by decide)]
  exact fun ⟨k, hk⟩ => not_isDecimal_bracket (str "5") k hk.1

end

end LedisDB
