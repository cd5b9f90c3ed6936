import LedisDB.Decimals
import LedisDB.Server.Errors
import LedisDB.ZSet

/-!
# The arguments of the store commands of zsets

`zparseZsetoptStore` of `server/cmd_zset.go` reads the arguments of ZUNIONSTORE and
ZINTERSTORE: the key of the result, the number of source keys, the keys and the two
options. The number is only compared with the length of what is left, and an argument may be
nil, which is the weight 0.
-/

namespace LedisDB

open List

structure StoreArgs where
  destKey : Option Bytes
  srcKeys : List (Option Bytes)
  weights : Option (List Int64)
  aggregate : UInt8
  deriving DecidableEq

/-- An argument as text; that of nil is empty. -/
def lowered (arg : Option Bytes) : Bytes := toLower (arg.getD [])

def parseWeights : List (Option Bytes) → Except ServerErr (List Int64)
  | [] => .ok []
  | arg :: args =>
    match StrInt64 arg with
    | .error _ => .error .ErrValue
    | .ok weight =>
      match parseWeights args with
      | .error e => .error e
      | .ok weights => .ok (weight :: weights)

def parseAggregate (arg : Option Bytes) : Except ServerErr UInt8 :=
  if lowered arg = str "sum" then .ok AggregateSum
  else if lowered arg = str "min" then .ok AggregateMin
  else if lowered arg = str "max" then .ok AggregateMax
  else .error .ErrSyntax

/-- The loop over the options. The flags of the source are set together with the values. -/
def storeOptions (nKeys : ℕ) (weights : Option (List Int64)) (aggregate : Option UInt8) :
    List (Option Bytes) → Except ServerErr (Option (List Int64) × Option UInt8)
  | [] => .ok (weights, aggregate)
  | arg :: args =>
    if lowered arg = str "weights" then
      if weights.isSome then .error .ErrSyntax
      else if args.length < nKeys then .error .ErrSyntax
      else match parseWeights (args.take nKeys) with
        | .error e => .error e
        | .ok weights => storeOptions nKeys (some weights) aggregate (args.drop nKeys)
    else if lowered arg = str "aggregate" then
      if aggregate.isSome then .error .ErrSyntax
      else match args with
        | [] => .error .ErrSyntax
        | arg :: args =>
          match parseAggregate arg with
          | .error e => .error e
          | .ok aggregate => storeOptions nKeys weights (some aggregate) args
    else .error .ErrSyntax
termination_by args => args.length
decreasing_by
  · rw [List.length_drop, List.length_cons]
    omega
  · rw [List.length_cons, List.length_cons]
    omega

def zparseZsetoptStore (args : List (Option Bytes)) : Except ServerErr StoreArgs :=
  match args with
  | destKey :: count :: args =>
    match parseInt (count.getD []) with
    | .error _ => .error .ErrValue
    | .ok nKeys =>
      if (args.length : ℤ) < nKeys.toInt then .error .ErrSyntax
      -- `args[:nKeys]`
      else if nKeys < 0 then .error (.ledis .panic)
      else
        match storeOptions nKeys.toInt.toNat none none (args.drop nKeys.toInt.toNat) with
        | .error e => .error e
        | .ok (weights, aggregate) =>
          .ok ⟨destKey, args.take nKeys.toInt.toNat, weights, aggregate.getD AggregateSum⟩
  | _ => .error (.ledis .panic)

def IsWeight (text : Option Bytes) (weight : Int64) : Prop :=
  ∃ t, text = some t ∧ IsDecimal t weight.toInt

def OrNil (text : Option Bytes) (weight : Int64) : Prop :=
  text = none ∧ weight = 0 ∨ IsWeight text weight

section
variable (W : Option Bytes → Int64 → Prop)

def IsWeights (n : ℕ) (option : List (Option Bytes)) (weights : List Int64) : Prop :=
  ∃ word texts, option = word :: texts ∧ lowered word = str "weights" ∧ texts.length = n ∧
    List.Forall₂ W texts weights

def IsAggregate (option : List (Option Bytes)) (aggregate : UInt8) : Prop :=
  ∃ word name, option = [word, name] ∧ lowered word = str "aggregate" ∧
    (lowered name = str "sum" ∧ aggregate = AggregateSum ∨
      lowered name = str "min" ∧ aggregate = AggregateMin ∨
      lowered name = str "max" ∧ aggregate = AggregateMax)

def Optional {α : Type} (IsOption : List (Option Bytes) → α → Prop) (option : List (Option Bytes)) :
    Option α → Prop
  | none => option = []
  | some value => IsOption option value

/-- Both options in any order, each at most once. -/
def IsOptions (n : ℕ) (options : List (Option Bytes)) (weights : Option (List Int64))
    (aggregate : Option UInt8) : Prop :=
  ∃ w a, Optional (IsWeights W n) w weights ∧ Optional IsAggregate a aggregate ∧
    (options = w ++ a ∨ options = a ++ w)

def IsCount (text : Option Bytes) (n : ℕ) : Prop := IsDecimal (text.getD []) n ∧ n < 2 ^ 63

/-- The form of the arguments, with `W` for the text of a weight. -/
def IsStoreArgs (args : List (Option Bytes)) (r : StoreArgs) : Prop :=
  ∃ count options aggregate, args = r.destKey :: count :: (r.srcKeys ++ options) ∧
    IsCount count r.srcKeys.length ∧ IsOptions W r.srcKeys.length options r.weights aggregate ∧
    r.aggregate = aggregate.getD AggregateSum

end

/-- The arguments are read without a panic, and accepted exactly when they have their form. -/
structure StoreArgsParsed (args : List (Option Bytes)) : Prop where
  no_panic : zparseZsetoptStore args ≠ .error (.ledis .panic)
  accepts : ∀ r, zparseZsetoptStore args = .ok r ↔ IsStoreArgs IsWeight args r

section
variable {n : ℕ} {args rest texts : List (Option Bytes)} {w weights : Option (List Int64)}
  {a aggregate : Option UInt8} {r : Option (List Int64) × Option UInt8} {g : UInt8}
  {ws : List Int64}

theorem StrInt64_ok {text : Option Bytes} {weight : Int64} :
    StrInt64 text = .ok weight ↔ OrNil text weight := by
  cases text with
  | none => simp [StrInt64, OrNil, IsWeight, eq_comm]
  | some t => simp [StrInt64, OrNil, IsWeight, parseInt_ok_iff]

theorem parseWeights_ok {weights : List Int64} :
    parseWeights args = .ok weights ↔ List.Forall₂ OrNil args weights := by
  induction args generalizing weights with
  | nil => simp [parseWeights]
  | cons arg args ih =>
    simp only [parseWeights, forall₂_cons_left_iff, ← StrInt64_ok, ← ih]
    cases StrInt64 arg with
    | error e => simp
    | ok weight =>
      cases parseWeights args with
      | error e => simp
      | ok weights => simp [eq_comm]

theorem parseAggregate_ok {name : Option Bytes} : parseAggregate name = .ok g ↔
    lowered name = str "sum" ∧ g = AggregateSum ∨ lowered name = str "min" ∧ g = AggregateMin ∨
      lowered name = str "max" ∧ g = AggregateMax := by
  unfold parseAggregate
  split_ifs with h1 h2 h3
  · simp only [h1, show ¬ str "sum" = str "min" by decide, show ¬ str "sum" = str "max" by decide,
      Except.ok.injEq, true_and, false_and, or_false]
    exact eq_comm
  · simp only [h2, show ¬ str "min" = str "sum" by decide, show ¬ str "min" = str "max" by decide,
      Except.ok.injEq, true_and, false_and, or_false, false_or]
    exact eq_comm
  · simp only [h3, show ¬ str "max" = str "sum" by decide, show ¬ str "max" = str "min" by decide,
      Except.ok.injEq, true_and, false_and, false_or]
    exact eq_comm
  · simp [h1, h2, h3]

theorem storeOptions_weights {word : Option Bytes} {weights : List Int64}
    (hword : lowered word = str "weights") (hlen : texts.length = n)
    (hweights : List.Forall₂ OrNil texts weights) :
    storeOptions n none a (word :: (texts ++ rest)) = storeOptions n (some weights) a rest := by
  have htake : (texts ++ rest).take n = texts := hlen ▸ take_left
  have hdrop : (texts ++ rest).drop n = rest := hlen ▸ drop_left
  have hroom : ¬ (texts ++ rest).length < n := by
    rw [length_append]
    omega
  rw [storeOptions.eq_def]
  dsimp only
  rw [if_pos hword, if_neg (by simp), if_neg hroom, htake, hdrop, parseWeights_ok.mpr hweights]

theorem storeOptions_aggregate {word name : Option Bytes} {aggregate : UInt8}
    (hword : lowered word = str "aggregate") (hname : parseAggregate name = .ok aggregate) :
    storeOptions n w none (word :: name :: rest) = storeOptions n w (some aggregate) rest := by
  have hother : ¬ lowered word = str "weights" := by
    rw [hword]
    decide
  rw [storeOptions, if_neg hother, if_pos hword, if_neg (by simp), hname]

theorem storeOptions_ok : storeOptions n w a args = .ok r ↔
    args = [] ∧ (w, a) = r ∨
      (w = none ∧ ∃ option weights rest, args = option ++ rest ∧ IsWeights OrNil n option weights ∧
        storeOptions n (some weights) a rest = .ok r) ∨
      a = none ∧ ∃ option aggregate rest, args = option ++ rest ∧ IsAggregate option aggregate ∧
        storeOptions n w (some aggregate) rest = .ok r := by
  constructor
  · intro h
    cases args with
    | nil =>
      rw [storeOptions] at h
      exact .inl ⟨rfl, Except.ok.inj h⟩
    | cons word args =>
      right
      rw [storeOptions.eq_def] at h
      dsimp only at h
      split_ifs at h with hword hw hroom hword' ha
      · left
        cases hp : parseWeights (args.take n) with
        | error e =>
          rw [hp] at h
          cases h
        | ok weights =>
          rw [hp] at h
          refine ⟨Option.not_isSome_iff_eq_none.mp hw, word :: args.take n, weights, args.drop n,
            ?_, ⟨word, _, rfl, hword, ?_, parseWeights_ok.mp hp⟩, h⟩
          · rw [cons_append, take_append_drop]
          · rw [length_take]
            omega
      · right
        cases args with
        | nil => cases h
        | cons name args =>
          dsimp only at h
          cases hp : parseAggregate name with
          | error e =>
            rw [hp] at h
            cases h
          | ok aggregate =>
            rw [hp] at h
            exact ⟨Option.not_isSome_iff_eq_none.mp ha, [word, name], aggregate, args, rfl,
              ⟨word, name, rfl, hword', parseAggregate_ok.mp hp⟩, h⟩
  · rintro (⟨rfl, rfl⟩ | ⟨rfl, option, weights, rest, rfl, hweights, h⟩ |
      ⟨rfl, option, aggregate, rest, rfl, haggregate, h⟩)
    · rw [storeOptions]
    · obtain ⟨word, texts, rfl, hword, hlen, hall⟩ := hweights
      rwa [cons_append, storeOptions_weights hword hlen hall]
    · obtain ⟨word, name, rfl, hword, hname⟩ := haggregate
      rwa [cons_append, singleton_append,
        storeOptions_aggregate hword (parseAggregate_ok.mpr hname)]

theorem storeOptions_some_some :
    storeOptions n (some ws) (some g) args = .ok r ↔ args = [] ∧ (some ws, some g) = r := by
  rw [storeOptions_ok]
  simp

theorem storeOptions_some_none :
    storeOptions n (some ws) none args = .ok (weights, aggregate) ↔
      weights = some ws ∧ Optional IsAggregate args aggregate := by
  rw [storeOptions_ok]
  simp only [storeOptions_some_some, Prod.mk.injEq]
  constructor
  · rintro (⟨rfl, rfl, rfl⟩ | ⟨h, -⟩ | ⟨-, option, g, rest, rfl, hg, rfl, rfl, rfl⟩)
    · exact ⟨rfl, rfl⟩
    · cases h
    · exact ⟨rfl, (append_nil option).symm ▸ hg⟩
  · rintro ⟨rfl, h⟩
    cases aggregate with
    | none => exact .inl ⟨h, rfl, rfl⟩
    | some g =>
      exact .inr (.inr ⟨trivial, args, g, [], (append_nil _).symm, h, rfl, rfl, rfl⟩)

theorem storeOptions_none_some :
    storeOptions n none (some g) args = .ok (weights, aggregate) ↔
      Optional (IsWeights OrNil n) args weights ∧ aggregate = some g := by
  rw [storeOptions_ok]
  simp only [storeOptions_some_some, Prod.mk.injEq]
  constructor
  · rintro (⟨rfl, rfl, rfl⟩ | ⟨-, option, ws, rest, rfl, hws, rfl, rfl, rfl⟩ | ⟨h, -⟩)
    · exact ⟨rfl, rfl⟩
    · exact ⟨(append_nil option).symm ▸ hws, rfl⟩
    · cases h
  · rintro ⟨h, rfl⟩
    cases weights with
    | none => exact .inl ⟨h, rfl, rfl⟩
    | some ws =>
      exact .inr (.inl ⟨trivial, args, ws, [], (append_nil _).symm, h, rfl, rfl, rfl⟩)

theorem storeOptions_none_none :
    storeOptions n none none args = .ok (weights, aggregate) ↔
      IsOptions OrNil n args weights aggregate := by
  rw [storeOptions_ok]
  simp only [storeOptions_some_none, storeOptions_none_some, Prod.mk.injEq]
  constructor
  · rintro (⟨rfl, rfl, rfl⟩ | ⟨-, option, ws, rest, rfl, hws, rfl, ha⟩ |
      ⟨-, option, g, rest, rfl, hg, hw, rfl⟩)
    · exact ⟨[], [], rfl, rfl, .inl rfl⟩
    · exact ⟨option, rest, hws, ha, .inl rfl⟩
    · exact ⟨rest, option, hw, hg, .inr rfl⟩
  · rintro ⟨w, a, hw, ha, horder⟩
    cases weights with
    | some ws =>
      rcases horder with rfl | rfl
      · exact .inr (.inl ⟨trivial, w, ws, a, rfl, hw, rfl, ha⟩)
      · cases aggregate with
        | some g => exact .inr (.inr ⟨trivial, a, g, w, rfl, ha, hw, rfl⟩)
        | none =>
          obtain rfl := ha
          exact .inr (.inl ⟨trivial, w, ws, [], (append_nil w).symm, hw, rfl, rfl⟩)
    | none =>
      obtain rfl := hw
      have hargs : args = a := by simpa using horder
      subst hargs
      cases aggregate with
      | some g =>
        exact .inr (.inr ⟨trivial, args, g, [], (append_nil _).symm, ha, rfl, rfl⟩)
      | none => exact .inl ⟨ha, rfl, rfl⟩

theorem parseWeights_ne_panic (args : List (Option Bytes)) :
    parseWeights args ≠ .error (.ledis .panic) := by
  induction args with
  | nil => exact nofun
  | cons arg args ih =>
    rw [parseWeights]
    split
    · exact nofun
    · cases h : parseWeights args with
      | error e => exact fun he => ih (h.trans he)
      | ok weights => exact nofun

theorem parseAggregate_ne_panic (arg : Option Bytes) :
    parseAggregate arg ≠ .error (.ledis .panic) := by
  unfold parseAggregate
  split_ifs <;> exact nofun

theorem storeOptions_ne_panic : storeOptions n w a args ≠ .error (.ledis .panic) := by
  fun_induction storeOptions n w a args with
  | case4 _ _ _ _ _ _ _ e h => exact fun he => parseWeights_ne_panic _ (Except.error.inj he ▸ h)
  | case8 _ _ _ _ _ _ _ _ e h =>
    exact fun he => parseAggregate_ne_panic _ (Except.error.inj he ▸ h)
  | case5 _ _ _ _ _ _ _ _ _ ih => exact ih
  | case9 _ _ _ _ _ _ _ _ _ _ ih => exact ih
  | _ => exact nofun

theorem IsCount.parse {text : Option Bytes} (h : IsCount text n) :
    ∃ k : Int64, parseInt (text.getD []) = .ok k ∧ k.toInt = n := by
  have hk : (Int64.ofInt n).toInt = n := by
    refine Int64.toInt_ofInt_fits ?_
    have hn := h.2
    constructor <;> omega
  exact ⟨_, parseInt_ok_iff.mpr (hk.symm ▸ h.1), hk⟩

theorem zparse_negative {destKey count : Option Bytes} {k : Int64}
    (hk : parseInt (count.getD []) = .ok k) (hneg : k < 0) :
    zparseZsetoptStore (destKey :: count :: args) = .error (.ledis .panic) := by
  have hneg' : k.toInt < 0 := Int64.lt_iff_toInt_lt.mp hneg
  simp only [zparseZsetoptStore, hk]
  rw [if_neg (by omega), if_pos hneg]

theorem IsStoreArgs.count {W} {destKey count : Option Bytes} {res : StoreArgs}
    (h : IsStoreArgs W (destKey :: count :: args) res) :
    ∃ (k : Int64) (options : List (Option Bytes)) (aggregate : Option UInt8),
      parseInt (count.getD []) = .ok k ∧ k.toInt = res.srcKeys.length ∧
        res.destKey = destKey ∧ args = res.srcKeys ++ options ∧
        IsOptions W res.srcKeys.length options res.weights aggregate ∧
        res.aggregate = aggregate.getD AggregateSum := by
  obtain ⟨count', options, aggregate, hargs, hcount, hoptions, hagg⟩ := h
  cases hargs
  obtain ⟨k, hk, hlen⟩ := hcount.parse
  exact ⟨k, options, aggregate, hk, hlen, rfl, rfl, hoptions, hagg⟩

section
variable {destKey count : Option Bytes} {k : Int64}

section
variable (hp : parseInt (count.getD []) = .ok k) (h0 : 0 ≤ k)
  (hroom : ¬ (args.length : ℤ) < k.toInt)
include hp h0 hroom

theorem zparse_options : zparseZsetoptStore (destKey :: count :: args) =
      match storeOptions k.toInt.toNat none none (args.drop k.toInt.toNat) with
      | .error e => .error e
      | .ok (weights, aggregate) =>
        .ok ⟨destKey, args.take k.toInt.toNat, weights, aggregate.getD AggregateSum⟩ := by
  simp [zparseZsetoptStore, hp, if_neg hroom, if_neg (Int64.not_lt.mpr h0)]

theorem zparse_accepts (res : StoreArgs) :
    zparseZsetoptStore (destKey :: count :: args) = .ok res ↔
      IsStoreArgs OrNil (destKey :: count :: args) res := by
  have h0' := Int64.le_iff_toInt_le.mp h0
  rw [zparse_options hp h0 hroom]
  constructor
  · intro h
    cases ho : storeOptions k.toInt.toNat none none (args.drop k.toInt.toNat) with
    | error e =>
      rw [ho] at h
      cases h
    | ok r =>
      obtain ⟨weights, aggregate⟩ := r
      rw [ho] at h
      cases h
      have hlength : (args.take k.toInt.toNat).length = k.toInt.toNat := by
        rw [length_take]
        omega
      refine ⟨count, args.drop k.toInt.toNat, aggregate, ?_, ?_, ?_, rfl⟩
      · rw [take_append_drop]
      · rw [hlength]
        refine ⟨?_, ?_⟩
        · rw [Int.toNat_of_nonneg h0']
          exact parseInt_ok_iff.mp hp
        · have hmax := Int64.toInt_lt k
          omega
      · rw [hlength]
        exact storeOptions_none_none.mp ho
  · intro h
    obtain ⟨k', options, aggregate, hk', hlen, hdest, hargs, hoptions, hagg⟩ := h.count
    cases hp.symm.trans hk'
    have hn : k.toInt.toNat = res.srcKeys.length := by omega
    rw [hn, hargs, take_left, drop_left, storeOptions_none_none.mpr hoptions]
    dsimp only
    rw [← hagg, ← hdest]

end

theorem zparse_spec (hcount : ∀ k, parseInt (count.getD []) = .ok k → 0 ≤ k) :
    zparseZsetoptStore (destKey :: count :: args) ≠ .error (.ledis .panic) ∧
      ∀ res, zparseZsetoptStore (destKey :: count :: args) = .ok res ↔
        IsStoreArgs OrNil (destKey :: count :: args) res := by
  cases hp : parseInt (count.getD []) with
  | error e =>
    have hparse : zparseZsetoptStore (destKey :: count :: args) = .error .ErrValue := by
      simp [zparseZsetoptStore, hp]
    refine ⟨by rw [hparse]; exact nofun, fun res => ?_⟩
    rw [hparse]
    refine iff_of_false nofun fun h => ?_
    obtain ⟨k, -, -, hk, -⟩ := h.count
    cases hp.symm.trans hk
  | ok k =>
    by_cases hroom : args.length < k.toInt
    · have hparse : zparseZsetoptStore (destKey :: count :: args) = .error .ErrSyntax := by
        simp [zparseZsetoptStore, hp, if_pos hroom]
      refine ⟨by rw [hparse]; exact nofun, fun res => ?_⟩
      rw [hparse]
      refine iff_of_false nofun fun h => ?_
      obtain ⟨k', options, -, hk', hlen, -, hargs, -⟩ := h.count
      cases hp.symm.trans hk'
      rw [hargs, length_append] at hroom
      omega
    · refine ⟨?_, zparse_accepts hp (hcount k hp) hroom⟩
      rw [zparse_options hp (hcount k hp) hroom]
      cases ho : storeOptions k.toInt.toNat none none (args.drop k.toInt.toNat) with
      | error e => exact fun he => storeOptions_ne_panic (Except.error.inj he ▸ ho)
      | ok r => exact nofun

end

theorem lowered_nil (arg : Option Bytes) (h : lowered arg ≠ []) : arg ≠ none := by
  rintro rfl
  exact h rfl

theorem IsAggregate.nil_not_mem (h : Optional IsAggregate args aggregate) : none ∉ args := by
  cases aggregate with
  | none =>
    obtain rfl := h
    exact not_mem_nil
  | some g =>
    obtain ⟨word, name, rfl, hword, hname⟩ := h
    have hword' := lowered_nil word (by rw [hword]; decide)
    have hname' : name ≠ none := by
      refine lowered_nil name ?_
      rcases hname with ⟨hname, -⟩ | ⟨hname, -⟩ | ⟨hname, -⟩ <;>
        (rw [hname]; decide)
    simp [hword'.symm, hname'.symm]

theorem forall₂_isWeight : List.Forall₂ IsWeight texts ws ↔
    List.Forall₂ OrNil texts ws ∧ none ∉ texts := by
  induction texts generalizing ws with
  | nil => simp
  | cons text texts ih =>
    cases text with
    | none => simp [forall₂_cons_left_iff, IsWeight]
    | some t =>
      simp only [forall₂_cons_left_iff, ih, OrNil, reduceCtorEq, false_and, false_or, mem_cons]
      tauto

theorem IsWeights.iff_orNil : Optional (IsWeights IsWeight n) args weights ↔
    Optional (IsWeights OrNil n) args weights ∧ none ∉ args := by
  cases weights with
  | none => exact ⟨fun h => ⟨h, by rw [show args = [] from h]; exact not_mem_nil⟩, And.left⟩
  | some ws =>
    constructor
    · rintro ⟨word, texts, rfl, hword, hlen, hall⟩
      obtain ⟨hall, hnil⟩ := forall₂_isWeight.mp hall
      have hword' := lowered_nil word (by rw [hword]; decide)
      exact ⟨⟨word, texts, rfl, hword, hlen, hall⟩, by simp [hword'.symm, hnil]⟩
    · rintro ⟨⟨word, texts, rfl, hword, hlen, hall⟩, hnil⟩
      have hall := forall₂_isWeight.mpr ⟨hall, not_mem_of_not_mem_cons hnil⟩
      exact ⟨word, texts, rfl, hword, hlen, hall⟩

theorem IsOptions.iff_orNil : IsOptions IsWeight n args weights aggregate ↔
    IsOptions OrNil n args weights aggregate ∧ none ∉ args := by
  have hmem : ∀ {w a : List (Option Bytes)}, args = w ++ a ∨ args = a ++ w →
      Optional IsAggregate a aggregate → (none ∉ args ↔ none ∉ w) := by
    rintro w a (rfl | rfl) ha <;> simp [IsAggregate.nil_not_mem ha]
  constructor
  · rintro ⟨w, a, hw, ha, horder⟩
    obtain ⟨hw, hnil⟩ := IsWeights.iff_orNil.mp hw
    exact ⟨⟨w, a, hw, ha, horder⟩, (hmem horder ha).mpr hnil⟩
  · rintro ⟨⟨w, a, hw, ha, horder⟩, hnil⟩
    exact ⟨w, a, IsWeights.iff_orNil.mpr ⟨hw, (hmem horder ha).mp hnil⟩, ha, horder⟩

theorem IsStoreArgs.iff_orNil {res : StoreArgs} : IsStoreArgs IsWeight args res ↔
    IsStoreArgs OrNil args res ∧ none ∉ args.drop (2 + res.srcKeys.length) := by
  have hdrop : ∀ {count : Option Bytes} {options : List (Option Bytes)},
      args = res.destKey :: count :: (res.srcKeys ++ options) →
        args.drop (2 + res.srcKeys.length) = options := by
    rintro count options rfl
    rw [Nat.add_comm]
    exact drop_left
  constructor
  · rintro ⟨count, options, aggregate, hargs, hcount, hoptions, hagg⟩
    obtain ⟨hoptions, hnil⟩ := IsOptions.iff_orNil.mp hoptions
    exact ⟨⟨count, options, aggregate, hargs, hcount, hoptions, hagg⟩, hdrop hargs ▸ hnil⟩
  · rintro ⟨⟨count, options, aggregate, hargs, hcount, hoptions, hagg⟩, hnil⟩
    rw [hdrop hargs] at hnil
    exact ⟨count, options, aggregate, hargs, hcount, IsOptions.iff_orNil.mpr ⟨hoptions, hnil⟩, hagg⟩

/-- The arguments are parsed as documented exactly when the number of keys is not negative and
none of the weights is nil. -/
theorem store_args_iff (args : List (Option Bytes)) (hlen : 2 ≤ args.length) :
    StoreArgsParsed args ↔
      (∀ destKey count rest, args = destKey :: count :: rest →
        ¬ ∃ n : ℤ, IsDecimal (count.getD []) n ∧ -2 ^ 63 ≤ n ∧ n < 0) ∧
      ∀ r, IsStoreArgs OrNil args r → none ∉ args.drop (2 + r.srcKeys.length) := by
  match args, hlen with
  | destKey :: count :: args, _ =>
    constructor
    · intro h
      have hcount : ∀ n : ℤ, IsDecimal (count.getD []) n → -2 ^ 63 ≤ n → ¬ n < 0 := by
        intro n hn hlow hneg
        have hk := Int64.toInt_ofInt_fits ⟨hlow, by omega⟩
        refine h.no_panic (zparse_negative (parseInt_ok_iff.mpr (hk.symm ▸ hn)) ?_)
        rw [Int64.lt_iff_toInt_lt, hk]
        exact hneg
      constructor
      · rintro _ _ _ ⟨⟩ ⟨n, hn, hlow, hneg⟩
        exact hcount n hn hlow hneg
      · intro r hr
        have hspec := @zparse_spec args destKey count fun k hk => Int64.not_lt.mp fun hneg =>
          hcount k.toInt (parseInt_ok_iff.mp hk) k.le_toInt (Int64.lt_iff_toInt_lt.mp hneg)
        exact (IsStoreArgs.iff_orNil.mp ((h.accepts r).mp ((hspec.2 r).mpr hr))).2
    · rintro ⟨hcount, hnil⟩
      have hspec := @zparse_spec args destKey count fun k hk => Int64.not_lt.mp fun hneg =>
        hcount destKey count args rfl
          ⟨k.toInt, parseInt_ok_iff.mp hk, k.le_toInt, Int64.lt_iff_toInt_lt.mp hneg⟩
      refine ⟨hspec.1, fun r => ?_⟩
      rw [hspec.2, IsStoreArgs.iff_orNil]
      exact ⟨fun hr => ⟨hr, hnil r hr⟩, And.left⟩

theorem store_args_two_keys : StoreArgsParsed
    [some (str "d"), some (str "2"), some (str "weights"), none, some (str "AGGREGATE"),
      some (str "Max"), some (str "WEIGHTS"), some (str "1"), some (str "-2")] :=
  (store_args_iff [some (str "d"), some (str "2"), some (str "weights"), none,
    some (str "AGGREGATE"), some (str "Max"), some (str "WEIGHTS"), some (str "1"),
    some (str "-2")] (by decide)).mpr (by
      have htwo : IsDecimal (str "2") (2 : Int64).toInt := parseInt_ok_iff.mp (by decide)
      constructor
      · rintro _ _ _ ⟨⟩ ⟨n, hn, -, hneg⟩
        rw [IsDecimal.unique hn htwo] at hneg
        exact absurd hneg (by decide)
      · rintro r ⟨count, options, _, hargs, hcount, -⟩
        have hcount' : count = some (str "2") := (cons.inj (cons.inj hargs).2).1.symm
        rw [hcount'] at hcount
        have hlen : (r.srcKeys.length : ℤ) = 2 := IsDecimal.unique hcount.1 htwo
        rw [show r.srcKeys.length = 2 by omega]
        decide)

theorem store_args_negative_or_nil :
    zparseZsetoptStore [some (str "d"), some (str "-1")] = .error (.ledis .panic) ∧
    zparseZsetoptStore
        [some (str "d"), some (str "1"), some (str "k"), some (str "WEIGHTS"), none] =
      .ok ⟨some (str "d"), [some (str "k")], some [0], AggregateSum⟩ := by
  refine ⟨by decide, (zparse_accepts (k := 1) (by decide) (by decide) (by decide) _).mpr ?_⟩
  have hone : IsDecimal (str "1") (1 : Int64).toInt := parseInt_ok_iff.mp (by decide)
  refine ⟨some (str "1"), [some (str "WEIGHTS"), none], none, rfl, ⟨hone, by decide⟩,
    ⟨_, [], ⟨some (str "WEIGHTS"), [none], rfl, by decide, rfl, ?_⟩, rfl, .inl rfl⟩, rfl⟩
  exact .cons (.inl ⟨rfl, rfl⟩) .nil

end

end LedisDB
