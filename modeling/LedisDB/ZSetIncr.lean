import LedisDB.ZSetReads

/-!
# Incrementing a score

`ZIncrBy` adds to the stored score in machine arithmetic and checks the sum afterwards. It
puts the entry of the new score and then deletes that of the old one, which for an
increment by zero is the entry it has just put.
-/

namespace LedisDB

open List

section
variable {db : DB} {env : Env} {s m₀ s' : Store} {key : Bytes} {st : State} {m : Bytes}

theorem exists_scoreList (F : Finset ScorePair)
    (hF : ∀ p, p ∈ F ↔ (s.get (p.key db key)).isSome) : ∃ L, ScoreList db s key L := by
  refine ⟨F.toList.mergeSort fun a b => a.place ≤ b.place, pairwise_place F.nodup_toList,
    fun p => ?_⟩
  rw [(mergeSort_perm _ _).mem_iff, Finset.mem_toList, hF]

theorem ScoreList.find {L : List ScorePair} (h : ScoreList db s key L) {n : Int64}
    (hm : ∀ c, (s.get (db.zEncodeScoreKey key m c)).isSome ↔ c = n) (min max : Int64)
    (d : Direction) :
    (((d.arrange L).filter (ScorePair.within min max)).filter (·.Member = m)) =
      if min ≤ n ∧ n ≤ max then [⟨n, m⟩] else [] := by
  have hnd : (d.arrange L).Nodup := by
    have hL : L.Nodup := h.sorted.imp fun hab => fun heq => (heq ▸ hab).false
    cases d with
    | forward => exact hL
    | backward => exact nodup_reverse.mpr hL
  have hmem : ∀ p : ScorePair, p ∈ d.arrange L ↔ (s.get (p.key db key)).isSome := by
    intro p
    cases d with
    | forward => exact h.entry p
    | backward => exact mem_reverse.trans (h.entry p)
  have hfound : ∀ p : ScorePair, p ∈ ((d.arrange L).filter (ScorePair.within min max)).filter
      (·.Member = m) ↔ p = ⟨n, m⟩ ∧ min ≤ n ∧ n ≤ max := by
    rintro ⟨c, m'⟩
    simp only [mem_filter, hmem, ScorePair.within, Bool.and_eq_true,
      decide_eq_true_eq, ScorePair.mk.injEq]
    constructor
    · rintro ⟨⟨hsome, hwithin⟩, rfl⟩
      obtain rfl := (hm c).mp hsome
      exact ⟨⟨rfl, rfl⟩, hwithin⟩
    · rintro ⟨⟨rfl, rfl⟩, hwithin⟩
      exact ⟨⟨(hm c).mpr rfl, hwithin⟩, rfl⟩
  split_ifs with hwithin
  · refine perm_singleton.mp ?_
    rw [perm_ext_iff_of_nodup ((hnd.filter _).filter _) (nodup_singleton _)]
    intro p
    rw [hfound, mem_singleton, and_iff_left hwithin]
  · rw [eq_nil_iff_forall_not_mem]
    exact fun p hp => hwithin ((hfound p).mp hp).2

theorem incr_scores_absent (hk : key.length ≤ DB.MaxUint16) (hs : Indexed db s key)
    (hv : s.get (db.zEncodeSetKey key m) = none) {p : ScorePair}
    (hframe : m₀.get (p.key db key) = s.get (p.key db key)) (n : Int64) :
    ((m₀.applyBatch [.put (db.zEncodeScoreKey key m n) [],
      .put (db.zEncodeSetKey key m) (PutInt64 n)]).get (p.key db key)).isSome ↔
      if p.Member = m then p.Score = n else (s.get (p.key db key)).isSome := by
  obtain ⟨c, m'⟩ := p
  simp only [ScorePair.key] at hframe ⊢
  simp only [OrderedMap.applyBatch, foldl_cons, foldl_nil, get_applyOp,
    WriteOp.key_put, (zEncodeScoreKey_ne_set m' m c).symm,
    zEncodeScoreKey_inj hk, hframe]
  by_cases hm : m' = m
  · subst hm
    have hno : ¬ (s.get (db.zEncodeScoreKey key m' c)).isSome = true := by
      rw [hs.index, hv]
      simp
    by_cases hc : n = c
    · simp [hc]
    · simp [hc, hno, Ne.symm hc]
  · simp [hm, Ne.symm hm]

theorem incr_scores_present (hk : key.length ≤ DB.MaxUint16) (hs : Indexed db s key) {old : Int64}
    (hv : s.get (db.zEncodeSetKey key m) = some (PutInt64 old)) (n : Int64) (p : ScorePair) :
    ((s.applyBatch [.put (db.zEncodeScoreKey key m n) [],
      .put (db.zEncodeSetKey key m) (PutInt64 n),
      .delete (db.zEncodeScoreKey key m old)]).get (p.key db key)).isSome ↔
      if p.Member = m then p.Score = n ∧ n ≠ old else (s.get (p.key db key)).isSome := by
  obtain ⟨c, m'⟩ := p
  simp only [ScorePair.key, OrderedMap.applyBatch, foldl_cons, foldl_nil,
    get_applyOp, WriteOp.key_put, WriteOp.key_delete, (zEncodeScoreKey_ne_set m' m c).symm,
    zEncodeScoreKey_inj hk]
  by_cases hm : m' = m
  · subst hm
    have hindex : (s.get (db.zEncodeScoreKey key m' c)).isSome = true ↔ old = c := by
      rw [hs.index, hv, Option.some.injEq]
      exact ⟨fun h => PutInt64_inj h, congrArg PutInt64⟩
    by_cases hold : old = c
    · subst hold
      simp [eq_comm]
    · by_cases hc : n = c
      · subst hc
        simp [hold, Ne.symm hold]
      · simp [hold, hc, hindex, Ne.symm hc]
  · simp [hm, Ne.symm hm]

theorem ZIncrBy_exec (henv : env.Commits) (h : ZWf db st.store key)
    (hm : checkZSetKMSize key m = .ok ()) {n delta : Int64}
    (hn : n = scoreOf db st.store key m + delta) :
    ∃ s', exec env (db.ZIncrBy key delta m) st =
      (if n ≥ MaxScore ∨ n ≤ MinScore then (.error .errScoreOverflow, st)
        else (.ok n, ⟨s', st.nc⟩)) ∧
      s'.get (db.zEncodeSetKey key m) = some (PutInt64 n) ∧
      ∀ p : ScorePair, (s'.get (p.key db key)).isSome ↔
        if p.Member = m then p.Score = n ∧ (m ∈ members db st.store .ZSET key → delta ≠ 0)
        else (st.store.get (p.key db key)).isSome := by
  have hk := le_uint16 (checkKMSize_ok.mp hm).1.2
  have hin : m ∈ members db st.store .ZSET key ↔
      (st.store.get (db.zEncodeSetKey key m)).isSome := by
    rw [mem_members, zEncodeSetKey_front]
  cases hv : st.store.get (db.zEncodeSetKey key m) with
  | none =>
    obtain rfl : n = 0 + delta := by
      rw [hn, scoreOf, hv]
      rfl
    refine ⟨st.store.applyBatch (db.sizeBatch st.store (sizeKey db .ZSET key) ZSetType key
      (Int64.ofNat (members db st.store .ZSET key).card + 1) ++
        [.put (db.zEncodeScoreKey key m (0 + delta)) [],
          .put (db.zEncodeSetKey key m) (PutInt64 (0 + delta))]), ?_, ?_, fun p => ?_⟩
    · rw [exec, ZIncrBy_absent h.counted hm hv]
      split_ifs <;> simp [henv.commit]
    · simp [OrderedMap.applyBatch, get_applyOp]
    · have hout : ¬ m ∈ members db st.store .ZSET key := by
        simp [hin, hv]
      rw [applyBatch_append]
      refine (incr_scores_absent hk h.indexed hv
        (sizeBatch_get_item (by decide) _ key _ _) _).trans ?_
      simp [hout]
  | some v =>
    obtain ⟨c, rfl, -⟩ := h.indexed.scored m v hv
    obtain rfl : n = c + delta := by
      rw [hn, scoreOf, hv, decodeInt64_PutInt64]
    refine ⟨st.store.applyBatch [.put (db.zEncodeScoreKey key m (c + delta)) [],
        .put (db.zEncodeSetKey key m) (PutInt64 (c + delta)),
        .delete (db.zEncodeScoreKey key m c)], ?_, ?_, fun p => ?_⟩
    · rw [exec, ZIncrBy_present hm hv]
      split_ifs <;> simp [henv.commit]
    · simp [OrderedMap.applyBatch, get_applyOp, zEncodeScoreKey_ne_set]
    · have hmem : m ∈ members db st.store .ZSET key := by
        simp [hin, hv]
      rw [incr_scores_present hk h.indexed hv]
      simp [hmem]

def incrSum (db : DB) (s : Store) (key : Bytes) (delta : Int64) (m : Bytes) : ℤ :=
  (scoreOf db s key m).toInt + delta.toInt

theorem ZWf.scoreOf_range (h : ZWf db s key) (m : Bytes) :
    MinScore.toInt < (scoreOf db s key m).toInt ∧ (scoreOf db s key m).toInt < MaxScore.toInt := by
  unfold scoreOf
  cases hv : s.get (db.zEncodeSetKey key m) with
  | none => decide
  | some v =>
    obtain ⟨c, rfl, hlow, hhigh⟩ := h.indexed.scored m v hv
    rw [decodeInt64_PutInt64]
    exact ⟨Int64.lt_iff_toInt_lt.mp hlow, Int64.lt_iff_toInt_lt.mp hhigh⟩

/-- The increment does what it should: it is the mathematical sum that is checked and
stored, and the member is found by its new score and by no other. -/
def IncrExact (db : DB) (env : Env) (st : State) (key : Bytes) (delta : Int64) (m : Bytes) : Prop :=
  let sum := incrSum db st.store key delta m
  let r := exec env (db.ZIncrBy key delta m) st
  if MinScore.toInt < sum ∧ sum < MaxScore.toInt then
    ∃ n : Int64, n.toInt = sum ∧ r.1 = .ok n ∧ (db.ZScore key m).eval env r.2.store = .ok n ∧
      ∀ min max reverse, ∃ L,
        (db.ZRangeByScoreGeneric key min max 0 (-1) reverse).eval env r.2.store = .ok L ∧
        L.filter (·.Member = m) = if min ≤ n ∧ n ≤ max then [⟨n, m⟩] else []
  else (∃ e, r.1 = .error e) ∧ r.2 = st

theorem incr_checked {o d : Int64} (ho : MinScore.toInt < o.toInt ∧ o.toInt < MaxScore.toInt) :
    if MinScore.toInt < o.toInt + d.toInt ∧ o.toInt + d.toInt < MaxScore.toInt then
      (o + d).toInt = o.toInt + d.toInt ∧ ¬ (o + d ≥ MaxScore ∨ o + d ≤ MinScore)
    else (o + d ≥ MaxScore ∨ o + d ≤ MinScore) ↔
      -2 ^ 63 - 1 ≤ o.toInt + d.toInt ∧ o.toInt + d.toInt ≤ 2 ^ 63 + 1 := by
  have hmin : MinScore.toInt = -2 ^ 63 + 1 := by decide
  have hmax : MaxScore.toInt = 2 ^ 63 - 1 := by decide
  have hlow := Int64.le_toInt d
  have hhigh := Int64.toInt_lt d
  rw [ge_iff_le, Int64.le_iff_toInt_le, Int64.le_iff_toInt_le, Int64.toInt_add]
  split_ifs with hin
  · rw [Int.bmod_eq_of_le (by omega) (by omega)]
    omega
  · simp only [Int.bmod_def]
    omega

theorem incr_found (hs' : StoreWf s') (h : ZWf db s key) (hk : ValidKey key) {n delta : Int64}
    (hscores : ∀ p : ScorePair, (s'.get (p.key db key)).isSome ↔
      if p.Member = m then p.Score = n ∧ (m ∈ members db s .ZSET key → delta ≠ 0)
      else (s.get (p.key db key)).isSome) :
    (∀ min max reverse, ∃ L,
      (db.ZRangeByScoreGeneric key min max 0 (-1) reverse).eval env s' = .ok L ∧
      L.filter (·.Member = m) = if min ≤ n ∧ n ≤ max then [⟨n, m⟩] else []) ↔
      (m ∈ members db s .ZSET key → delta ≠ 0) := by
  obtain ⟨L, hL⟩ : ∃ L, ScoreList db s' key L := by
    refine exists_scoreList (((zsetList db s key).toFinset ∪ {⟨n, m⟩}).filter
      fun p => (s'.get (p.key db key)).isSome) fun p => ?_
    rw [Finset.mem_filter, and_iff_right_iff_imp, Finset.mem_union, Finset.mem_singleton,
      mem_toFinset, h.scoreList.entry, hscores]
    intro hp
    split_ifs at hp with hm
    · exact .inr (by rw [← hm, ← hp.1])
    · exact .inl hp
  have hquery : ∀ min max reverse,
      (db.ZRangeByScoreGeneric key min max 0 (-1) reverse).eval env s' =
        .ok (((scanDirection reverse).arrange L).filter (ScorePair.within min max)) := by
    intro min max reverse
    rw [DB.ZRangeByScoreGeneric, zRange_eval hs' hL hk.2, Limit.apply_all]
  have hentry := fun c => (hscores ⟨c, m⟩).trans (by rw [if_pos rfl])
  constructor
  · intro hfound
    obtain ⟨L', hL', hone⟩ := hfound n n false
    rw [hquery] at hL'
    cases hL'
    rw [if_pos ⟨Int64.le_refl n, Int64.le_refl n⟩] at hone
    have hmem : ⟨n, m⟩ ∈ L := by
      have hin := mem_singleton_self (⟨n, m⟩ : ScorePair)
      rw [← hone] at hin
      exact mem_of_mem_filter (mem_of_mem_filter hin)
    have hsome := (hL.entry ⟨n, m⟩).mp hmem
    exact ((hentry n).mp hsome).2
  · intro hdelta min max reverse
    have hone := fun c => (hentry c).trans (and_iff_left hdelta)
    have hfind := hL.find hone min max (scanDirection reverse)
    exact ⟨_, hquery min max reverse, hfind⟩

theorem zIncrBy_exact_iff (henv : env.Commits) (hs : StoreWf st.store) (h : ZWf db st.store key)
    (hm : checkZSetKMSize key m = .ok ()) (delta : Int64) :
    IncrExact db env st key delta m ↔
      (m ∈ members db st.store .ZSET key → delta ≠ 0) ∧
        -2 ^ 63 - 1 ≤ incrSum db st.store key delta m ∧
        incrSum db st.store key delta m ≤ 2 ^ 63 + 1 := by
  obtain ⟨s', hexec, hmember, hscores⟩ := ZIncrBy_exec henv h hm rfl
  have hwf : StoreWf (exec env (db.ZIncrBy key delta m) st).2.store := by
    rw [← exec_discard_state]
    exact write_wf hs (.ZIncrBy key delta m)
  have hchecked := incr_checked (d := delta) (h.scoreOf_range m)
  have hmin : MinScore.toInt = -2 ^ 63 + 1 := by decide
  have hmax : MaxScore.toInt = 2 ^ 63 - 1 := by decide
  have hold := h.scoreOf_range m
  unfold IncrExact incrSum
  simp only
  split_ifs at hchecked ⊢ with hin
  · obtain ⟨hsum, haccept⟩ := hchecked
    rw [if_neg haccept] at hexec
    rw [hexec] at hwf ⊢
    have hscore : (db.ZScore key m).eval env s' = .ok (scoreOf db st.store key m + delta) := by
      simp [Op.eval, DB.ZScore, hm, hmember]
    rw [← incr_found hwf h (checkKMSize_ok.mp hm).1 hscores]
    constructor
    · rintro ⟨n, -, hn, -, hfound⟩
      obtain rfl := Except.ok.inj hn
      exact ⟨hfound, by omega, by omega⟩
    · rintro ⟨hfound, -⟩
      exact ⟨_, hsum, rfl, hscore, hfound⟩
  · rw [hexec]
    by_cases hreject : scoreOf db st.store key m + delta ≥ MaxScore ∨
        scoreOf db st.store key m + delta ≤ MinScore
    · rw [if_pos hreject]
      refine iff_of_true ⟨⟨_, rfl⟩, rfl⟩ ⟨?_, hchecked.mp hreject⟩
      rintro - rfl
      simp [hold] at hin
    · rw [if_neg hreject]
      refine iff_of_false ?_ fun hbounds => hreject (hchecked.mpr hbounds.2)
      rintro ⟨⟨e, he⟩, -⟩
      cases he

theorem zIncrBy_exact_seven :
    IncrExact DB.zero (Env.quiet 0) ⟨twoMembers, State.empty.nc⟩ [122] 4 [97] :=
  (zIncrBy_exact_iff ⟨rfl, fun _ _ => rfl⟩ twoMembers_reached.wf twoMembers_zwf (by decide) 4).mpr
    ⟨fun _ => by decide, by decide, by decide⟩

theorem zIncrBy_loses_and_wraps :
    let zero := exec (Env.quiet 0) (DB.zero.ZIncrBy [122] 0 [97]) ⟨twoMembers, State.empty.nc⟩
    let wrapped := exec (Env.quiet 0) (DB.zero.ZIncrBy [122] Int64.maxValue [97])
      ⟨twoMembers, State.empty.nc⟩
    ZWf DB.zero twoMembers [122] ∧ scoreOf DB.zero twoMembers [122] [97] = 3 ∧
    zero.1 = .ok 3 ∧ (DB.zero.ZScore [122] [97]).eval (Env.quiet 0) zero.2.store = .ok 3 ∧
    (DB.zero.ZRangeByScoreGeneric [122] 3 3 0 (-1) false).eval (Env.quiet 0) zero.2.store = .ok [] ∧
    MaxScore.toInt < incrSum DB.zero twoMembers [122] Int64.maxValue [97] ∧
    wrapped.1 = .ok (MinScore + 1) := by
  refine ⟨twoMembers_zwf, by decide, by decide, by decide, by decide, by decide, by decide⟩

end

end LedisDB
