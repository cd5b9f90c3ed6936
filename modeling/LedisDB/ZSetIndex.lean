import LedisDB.Counting

/-!
# The two indexes of a zset

`Indexed` says that the member entries of a zset hold scores inside the open
range and that there is a score entry for a member and a score exactly when the
member entry holds that score. The queues of the zset operations are built
from two kinds of pieces, one that sets members and one that removes them;
each keeps `Indexed` when it takes a member in both indexes together.
-/

namespace LedisDB

open List OrderedMap

structure Indexed (db : DB) (s : Store) (key : Bytes) : Prop where
  scored : ∀ m v, s.get (db.zEncodeSetKey key m) = some v →
    ∃ c, v = PutInt64 c ∧ MinScore < c ∧ c < MaxScore
  index : ∀ m c, (s.get (db.zEncodeScoreKey key m c)).isSome ↔
    s.get (db.zEncodeSetKey key m) = some (PutInt64 c)

section
variable {db : DB} {env : Env} {s m₀ s' : Store} {key m member m' : Bytes} {u t : Txn}
  {args : List ScorePair} {X Y : List Bytes} {b : Batch}

theorem zEncodeSetKey_front (db : DB) (key member : Bytes) :
    db.zEncodeSetKey key member = front db .ZSET key ++ member :=
  (front_append db .ZSET key member).symm

theorem zEncodeSetKey_inj : db.zEncodeSetKey key m = db.zEncodeSetKey key m' ↔ m = m' := by
  rw [zEncodeSetKey_front, zEncodeSetKey_front, append_cancel_left_eq]

theorem zEncodeScoreKey_inj (hk : key.length ≤ DB.MaxUint16) {c c' : Int64} :
    db.zEncodeScoreKey key m c = db.zEncodeScoreKey key m' c' ↔ m = m' ∧ c = c' := by
  constructor
  · intro h
    have hd := db.zDecodeScoreKey_zEncodeScoreKey m c hk
    rw [h, db.zDecodeScoreKey_zEncodeScoreKey m' c' hk] at hd
    simp only [Except.ok.injEq, Prod.mk.injEq, true_and] at hd
    exact ⟨hd.1.symm, hd.2.symm⟩
  · rintro ⟨rfl, rfl⟩
    rfl

theorem zEncodeScoreKey_ne_set (m m' : Bytes) (c : Int64) :
    db.zEncodeScoreKey key m c ≠ db.zEncodeSetKey key m' := by
  intro h
  exact absurd (DB.plainKey_inj.mp h).2.1 (by decide)

theorem Indexed.congr (h : Indexed db s key)
    (hmem : ∀ m, s'.get (db.zEncodeSetKey key m) = s.get (db.zEncodeSetKey key m))
    (hscore : ∀ m c, s'.get (db.zEncodeScoreKey key m c) = s.get (db.zEncodeScoreKey key m c)) :
    Indexed db s' key := by
  constructor
  · intro m v hv
    exact h.scored m v (hmem m ▸ hv)
  · intro m c
    rw [hscore, hmem]
    exact h.index m c

theorem Indexed.empty (db : DB) (key : Bytes) : Indexed db OrderedMap.empty key := by
  constructor <;> simp

theorem sizeBatch_get_item {T : DataType} {t : UInt8} (ht : t ∈ T.items) (z : Int64)
    (k r : Bytes) (m : Store) :
    (m.applyBatch (db.sizeBatch s (sizeKey db T key) T.code key z)).get (db.itemKey t k r) =
      m.get (db.itemKey t k r) := by
  apply get_applyBatch_of_not_mem
  obtain ⟨-, -, hmeta, htime⟩ := DataType.not_expire
  have hne : ∀ t' r', t' ∉ T.items → db.plainKey t' r' ≠ db.itemKey t k r := by
    intro t' r' ht' h
    exact ht' ((DB.plainKey_inj.mp h).2.1 ▸ ht)
  have hsk : sizeKey db T key ≠ db.itemKey t k r := hne _ _ DataType.plain_not_item
  have hrm : ∀ o ∈ db.rmBatch s T.code key, o.key ≠ db.itemKey t k r := by
    intro o ho
    obtain ⟨r', hr | hr⟩ := rmBatch_key ho <;> rw [hr]
    · exact hne _ _ hmeta
    · exact hne _ _ htime
  unfold DB.sizeBatch
  split_ifs
  · simpa using ⟨hsk, hrm⟩
  · simpa using hsk

theorem Indexed.sizeBatch (h : Indexed db m₀ key) (z : Int64) :
    Indexed db (m₀.applyBatch (db.sizeBatch s (sizeKey db .ZSET key) ZSetType key z)) key :=
  h.congr (fun _ => sizeBatch_get_item (T := .ZSET) (by decide) z _ _ _)
    (fun _ _ => sizeBatch_get_item (T := .ZSET) (by decide) z _ _ _)

def zItemBatch (db : DB) (s : Store) (key : Bytes) (a : ScorePair) : Batch :=
  (match s.get (db.zEncodeSetKey key a.Member) with
    | none => []
    | some v => match decodeInt64 (some v) with
      | .error _ => []
      | .ok c => [.delete (db.zEncodeScoreKey key a.Member c)]) ++
  [.put (db.zEncodeSetKey key a.Member) (PutInt64 a.Score),
    .put (db.zEncodeScoreKey key a.Member a.Score) []]

theorem zSetItem_ok {score n : Int64} (h : db.zSetItem key score member env s u = (.ok n, t)) :
    t = u.queue (zItemBatch db s key ⟨score, member⟩) ∧
      n = (if (s.get (db.zEncodeSetKey key member)).isNone then 0 else 1) ∧
      MinScore < score ∧ score < MaxScore := by
  unfold DB.zSetItem at h
  split_ifs at h with hrange
  · cases h
  · have hr : MinScore < score ∧ score < MaxScore := by
      simpa using hrange
    obtain ⟨_, _, hg, h1⟩ := Op.bind_ok.mp h
    cases hg
    unfold zItemBatch
    cases hv : s.get (db.zEncodeSetKey key member) with
    | none =>
      simp only [hv] at h1
      cases h1
      exact ⟨by simp, rfl, hr⟩
    | some v =>
      simp only [hv] at h1
      obtain ⟨_, _, he, h2⟩ := Op.bind_ok.mp h1
      obtain ⟨c, _, hd, h3⟩ := Op.bind_ok.mp he
      obtain ⟨hdec, rfl⟩ := Op.lift_ok.mp hd
      cases h3
      cases h2
      exact ⟨by simp [hdec], rfl, hr⟩

theorem Indexed.scores (h : Indexed db s key) (m v : Bytes)
    (hv : s.get (db.zEncodeSetKey key m) = some v) : ∃ c, v = PutInt64 c :=
  (h.scored m v hv).imp fun _ hc => hc.1

theorem zSetItem_run (hs : ∀ m v, s.get (db.zEncodeSetKey key m) = some v → ∃ c, v = PutInt64 c)
    (env : Env) (u : Txn) {score : Int64} (member : Bytes)
    (h : MinScore < score ∧ score < MaxScore) :
    ∃ n t, db.zSetItem key score member env s u = (.ok n, t) := by
  have hrange : ¬ (score ≤ MinScore ∨ score ≥ MaxScore) := by
    simpa using h
  simp only [DB.zSetItem, hrange, if_false, Op.bind_run, Op.get_run]
  cases hv : s.get (db.zEncodeSetKey key member) with
  | none => exact ⟨_, _, rfl⟩
  | some v =>
    obtain ⟨c, rfl⟩ := hs member v hv
    exact ⟨_, _, rfl⟩

theorem zItemBatch_cases (hs : Indexed db s key) (a : ScorePair) :
    (s.get (db.zEncodeSetKey key a.Member) = none ∧ zItemBatch db s key a =
      [.put (db.zEncodeSetKey key a.Member) (PutInt64 a.Score),
        .put (db.zEncodeScoreKey key a.Member a.Score) []]) ∨
    ∃ c, s.get (db.zEncodeSetKey key a.Member) = some (PutInt64 c) ∧ zItemBatch db s key a =
      [.delete (db.zEncodeScoreKey key a.Member c),
        .put (db.zEncodeSetKey key a.Member) (PutInt64 a.Score),
        .put (db.zEncodeScoreKey key a.Member a.Score) []] := by
  cases hv : s.get (db.zEncodeSetKey key a.Member) with
  | none => exact .inl ⟨rfl, by simp [zItemBatch, hv]⟩
  | some v =>
    obtain ⟨c, rfl, -⟩ := hs.scored _ v hv
    exact .inr ⟨c, rfl, by simp [zItemBatch, hv]⟩

theorem zItem_get_member (hs : Indexed db s key) (a : ScorePair) (m : Bytes) :
    (m₀.applyBatch (zItemBatch db s key a)).get (db.zEncodeSetKey key m) =
      if a.Member = m then some (PutInt64 a.Score) else m₀.get (db.zEncodeSetKey key m) := by
  rcases zItemBatch_cases hs a with ⟨-, h⟩ | ⟨c, -, h⟩ <;> rw [h] <;>
    simp [applyBatch, get_applyOp, zEncodeScoreKey_ne_set, zEncodeSetKey_inj]

theorem zItem_get_score (hk : key.length ≤ DB.MaxUint16) (hs : Indexed db s key) (a : ScorePair)
    (m : Bytes) (c : Int64) :
    (m₀.applyBatch (zItemBatch db s key a)).get (db.zEncodeScoreKey key m c) =
      if a.Member = m then
        if a.Score = c then some []
        else if s.get (db.zEncodeSetKey key m) = some (PutInt64 c) then none
        else m₀.get (db.zEncodeScoreKey key m c)
      else m₀.get (db.zEncodeScoreKey key m c) := by
  have hne : ∀ m c m', ¬ db.zEncodeSetKey key m' = db.zEncodeScoreKey key m c :=
    fun m c m' => (zEncodeScoreKey_ne_set m m' c).symm
  rcases zItemBatch_cases hs a with ⟨hv, h⟩ | ⟨c', hv, h⟩ <;> rw [h]
  · by_cases hm : a.Member = m
    · subst hm
      simp [applyBatch, get_applyOp, hne, zEncodeScoreKey_inj hk, hv]
    · simp [applyBatch, get_applyOp, hne, zEncodeScoreKey_inj hk, hm]
  · by_cases hm : a.Member = m
    · subst hm
      have hp : PutInt64 c' = PutInt64 c ↔ c' = c := ⟨fun h => PutInt64_inj h, fun h => h ▸ rfl⟩
      simp [applyBatch, get_applyOp, hne, zEncodeScoreKey_inj hk, hv, hp]
    · simp [applyBatch, get_applyOp, hne, zEncodeScoreKey_inj hk, hm]

def lastFor (args : List ScorePair) (m : Bytes) : Option ScorePair :=
  (args.filter (·.Member = m)).getLast?

theorem lastFor_append (args : List ScorePair) (a : ScorePair) (m : Bytes) :
    lastFor (args ++ [a]) m = if a.Member = m then some a else lastFor args m := by
  unfold lastFor
  by_cases h : a.Member = m
  · simp [h]
  · simp [h]

theorem lastFor_cons (a : ScorePair) (args : List ScorePair) (m : Bytes) :
    lastFor (a :: args) m = (lastFor args m).or (if a.Member = m then some a else none) := by
  unfold lastFor
  by_cases h : a.Member = m
  · simp only [filter_cons, h, decide_true, if_true, getLast?_cons]
    cases (args.filter (·.Member = m)).getLast? <;> rfl
  · simp

theorem lastFor_mem {a : ScorePair} (h : lastFor args m = some a) : a ∈ args ∧ a.Member = m := by
  have hmem := mem_of_getLast? h
  simpa using mem_filter.mp hmem

theorem lastFor_isSome : (lastFor args m).isSome ↔ m ∈ args.map ScorePair.Member := by
  unfold lastFor
  simp

def zItems (db : DB) (s : Store) (key : Bytes) (args : List ScorePair) : Batch :=
  args.flatMap (zItemBatch db s key)

theorem zItems_append (args : List ScorePair) (a : ScorePair) :
    m₀.applyBatch (zItems db s key (args ++ [a])) =
      (m₀.applyBatch (zItems db s key args)).applyBatch (zItemBatch db s key a) := by
  rw [← applyBatch_append]
  simp [zItems]

theorem zItems_get_member (hs : Indexed db s key) (args : List ScorePair) (m : Bytes) :
    (m₀.applyBatch (zItems db s key args)).get (db.zEncodeSetKey key m) =
      match lastFor args m with
      | none => m₀.get (db.zEncodeSetKey key m)
      | some a => some (PutInt64 a.Score) := by
  induction args using reverseRecOn with
  | nil => rfl
  | append_singleton args a ih =>
    rw [zItems_append, zItem_get_member hs, lastFor_append]
    split_ifs
    · rfl
    · exact ih

theorem zItems_get_score (hk : key.length ≤ DB.MaxUint16) (hs : Indexed db s key)
    (args : List ScorePair) (m : Bytes) (c : Int64) :
    (m₀.applyBatch (zItems db s key args)).get (db.zEncodeScoreKey key m c) =
      match lastFor args m with
      | none => m₀.get (db.zEncodeScoreKey key m c)
      | some a =>
        if a.Score = c then some []
        else if s.get (db.zEncodeSetKey key m) = some (PutInt64 c) then none
        else if (⟨c, m⟩ : ScorePair) ∈ args then some []
        else m₀.get (db.zEncodeScoreKey key m c) := by
  induction args using reverseRecOn with
  | nil => rfl
  | append_singleton args a ih =>
    rw [zItems_append, zItem_get_score hk hs, lastFor_append]
    by_cases hm : a.Member = m
    · simp only [hm, if_true]
      split_ifs with hc hst hin
      · rfl
      · rfl
      · have hin' : ⟨c, m⟩ ∈ args := by
          rcases mem_append.mp hin with h | h
          · exact h
          · rw [mem_singleton] at h
            exact absurd (h ▸ rfl) hc
        obtain ⟨l, hl⟩ := Option.isSome_iff_exists.mp (lastFor_isSome.mpr (mem_map_of_mem hin'))
        rw [ih, hl]
        simp [hst, hin']
      · have hin' : ⟨c, m⟩ ∉ args := fun h => hin (mem_append.mpr (.inl h))
        rw [ih]
        cases hl : lastFor args m with
        | none => rfl
        | some l =>
          have hlc : l.Score ≠ c := by
            rintro rfl
            obtain ⟨hmem, rfl⟩ := lastFor_mem hl
            exact hin' hmem
          simp [hlc, hst, hin']
    · have hin : ⟨c, m⟩ ∈ args ++ [a] ↔ ⟨c, m⟩ ∈ args := by
        rw [mem_append, mem_singleton, or_iff_left]
        rintro rfl
        exact hm rfl
      simp [hm, hin, ih]

/-- Every listed score is the last one of its member or the one the store has for it. -/
def LastScores (db : DB) (s : Store) (key : Bytes) (args : List ScorePair) : Prop :=
  ∀ a ∈ args, ∀ l, lastFor args a.Member = some l →
    a.Score = l.Score ∨ s.get (db.zEncodeSetKey key a.Member) = some (PutInt64 a.Score)

theorem zItems_indexed (hk : key.length ≤ DB.MaxUint16) (hs : Indexed db s key)
    (hm₀ : Indexed db m₀ key) (hsub : ∀ m v, m₀.get (db.zEncodeSetKey key m) = some v →
      s.get (db.zEncodeSetKey key m) = some v)
    (hrange : ∀ a ∈ args, MinScore < a.Score ∧ a.Score < MaxScore)
    (hlast : LastScores db s key args) : Indexed db (m₀.applyBatch (zItems db s key args)) key := by
  constructor
  · intro m v hv
    rw [zItems_get_member hs] at hv
    cases hl : lastFor args m with
    | none =>
      rw [hl] at hv
      exact hm₀.scored m v hv
    | some a =>
      rw [hl] at hv
      exact ⟨a.Score, (Option.some.inj hv).symm, hrange a (lastFor_mem hl).1⟩
  · intro m c
    rw [zItems_get_score hk hs, zItems_get_member hs]
    cases hl : lastFor args m with
    | none => exact hm₀.index m c
    | some l =>
      have hput : (PutInt64 l.Score = PutInt64 c) ↔ l.Score = c :=
        ⟨fun h => PutInt64_inj h, congrArg PutInt64⟩
      simp only [Option.some.injEq, hput]
      split_ifs with hc hst hin
      · simp [hc]
      · simp [hc]
      · rcases hlast _ hin l hl with h | h
        · exact absurd h.symm hc
        · exact absurd h hst
      · refine iff_of_false (fun h => hst (hsub m _ ((hm₀.index m c).mp h))) hc

theorem zItems_members (hs : Indexed db s key) (args : List ScorePair) :
    members db (m₀.applyBatch (zItems db s key args)) .ZSET key =
      members db m₀ .ZSET key ∪ (args.map ScorePair.Member).toFinset := by
  ext x
  have hx : (lastFor args x).isSome ↔ x ∈ args.map ScorePair.Member := lastFor_isSome
  rw [Finset.mem_union, mem_toFinset, mem_members, mem_members, ← zEncodeSetKey_front,
    zItems_get_member hs, ← hx]
  cases lastFor args x <;> simp

structure Removes (db : DB) (s : Store) (key : Bytes) (X : List Bytes) (b : Batch) : Prop where
  only : ∀ o ∈ b, ∃ m ∈ X, ∃ c, s.get (db.zEncodeSetKey key m) = some (PutInt64 c) ∧
    (o = .delete (db.zEncodeSetKey key m) ∨ o = .delete (db.zEncodeScoreKey key m c))
  all : ∀ m ∈ X, ∀ c, s.get (db.zEncodeSetKey key m) = some (PutInt64 c) →
    .delete (db.zEncodeSetKey key m) ∈ b ∧ .delete (db.zEncodeScoreKey key m c) ∈ b

theorem Removes.nil : Removes db s key [] [] := ⟨List.forall_mem_nil _, List.forall_mem_nil _⟩

theorem Removes.append {a : Batch} (ha : Removes db s key X a) (hb : Removes db s key Y b) :
    Removes db s key (X ++ Y) (a ++ b) := by
  constructor
  · intro o ho
    rcases mem_append.mp ho with ho | ho
    · obtain ⟨m, hm, h⟩ := ha.only o ho
      exact ⟨m, mem_append_left _ hm, h⟩
    · obtain ⟨m, hm, h⟩ := hb.only o ho
      exact ⟨m, mem_append_right _ hm, h⟩
  · intro m hm c hc
    rcases mem_append.mp hm with hm | hm
    · exact (ha.all m hm c hc).imp (mem_append_left _) (mem_append_left _)
    · exact (hb.all m hm c hc).imp (mem_append_right _) (mem_append_right _)

section
variable (h : Removes db s key X b)
include h

theorem Removes.deletes : Deletes b := by
  intro o ho
  obtain ⟨m, -, c, -, rfl | rfl⟩ := h.only o ho <;> exact ⟨_, rfl⟩

theorem Removes.get_member (hs : Indexed db s key) (m : Bytes) :
    (s.applyBatch b).get (db.zEncodeSetKey key m) =
      if m ∈ X then none else s.get (db.zEncodeSetKey key m) := by
  split_ifs with hm
  · apply h.deletes.get_none
    cases hv : s.get (db.zEncodeSetKey key m) with
    | none => exact .inl rfl
    | some v =>
      obtain ⟨c, rfl, -⟩ := hs.scored m v hv
      exact .inr (h.all m hm c hv).1
  · apply get_applyBatch_of_not_mem
    intro o ho heq
    obtain ⟨m', hm', c, -, rfl | rfl⟩ := h.only o ho
    · exact hm (zEncodeSetKey_inj.mp heq ▸ hm')
    · exact zEncodeScoreKey_ne_set _ _ _ heq

theorem Removes.get_score (hk : key.length ≤ DB.MaxUint16)
    (hs : Indexed db s key) (m : Bytes) (c : Int64) :
    (s.applyBatch b).get (db.zEncodeScoreKey key m c) =
      if m ∈ X then none else s.get (db.zEncodeScoreKey key m c) := by
  split_ifs with hm
  · apply h.deletes.get_none
    by_cases hc : s.get (db.zEncodeSetKey key m) = some (PutInt64 c)
    · exact .inr (h.all m hm c hc).2
    · left
      simpa using (hs.index m c).not.mpr hc
  · apply get_applyBatch_of_not_mem
    intro o ho heq
    obtain ⟨m', hm', c', -, rfl | rfl⟩ := h.only o ho
    · exact zEncodeScoreKey_ne_set _ _ _ heq.symm
    · exact hm (((zEncodeScoreKey_inj hk).mp heq).1 ▸ hm')

theorem Removes.indexed (hk : key.length ≤ DB.MaxUint16)
    (hs : Indexed db s key) : Indexed db (s.applyBatch b) key := by
  constructor
  · intro m v hv
    rw [h.get_member hs] at hv
    split_ifs at hv
    exact hs.scored m v hv
  · intro m c
    rw [h.get_score hk hs, h.get_member hs]
    split_ifs
    · simp
    · exact hs.index m c

theorem Removes.members (hs : Indexed db s key) :
    members db (s.applyBatch b) .ZSET key = members db s .ZSET key \ X.toFinset := by
  ext x
  rw [Finset.mem_sdiff, mem_members, mem_members, ← zEncodeSetKey_front, h.get_member hs]
  split_ifs with hx <;> simp [hx]

end

theorem zEncodeStopScoreKey_eq (db : DB) (key : Bytes) (c : Int64) :
    db.zEncodeStopScoreKey key c = db.itemKey ZScoreType key
      (DB.scoreSep c :: (beBytes 8 c.toUInt64.toNat ++ [zsetStopMemSep])) := by
  have hlast : db.zEncodeScoreKey key [] c = db.itemKey ZScoreType key
      (DB.scoreSep c :: beBytes 8 c.toUInt64.toNat) ++ [zsetStartMemSep] := by
    rw [← DB.itemKey_append]
    rfl
  rw [DB.zEncodeStopScoreKey, hlast, DB.setLast_append, ← DB.itemKey_append]
  rfl

theorem zIterator_scan (hs : StoreWf s) (min max : Int64) (l : Limit) : ∃ L : List (Bytes × Int64),
      (s.rangeLimit ⟨some (db.zEncodeStartScoreKey key min), some (db.zEncodeStopScoreKey key max),
        RangeClose⟩ l .forward).map Prod.fst = L.map (fun p => db.zEncodeScoreKey key p.1 p.2) ∧
      L.Nodup ∧ ∀ p ∈ L, (s.get (db.zEncodeScoreKey key p.1 p.2)).isSome := by
  generalize hes : s.rangeLimit _ l .forward = es
  have hnd := hes ▸ s.rangeLimit_nodup _ _
  have hform : ∀ e ∈ es, ∃ m c, e.1 = db.zEncodeScoreKey key m c ∧
      (s.get (db.zEncodeScoreKey key m c)).isSome := by
    intro e he
    rw [← hes] at he
    have hget := (mem_rangeLimit he).1
    rw [zEncodeStopScoreKey_eq] at he
    obtain ⟨hst, r, hr⟩ := hs.of_range (T := .ZSET) (by decide) he
    generalize hek : e.1 = ek at hst hr hget
    cases hst with
    | zsize | zmember => exact absurd (DB.plainKey_inj.mp hr).2.1 (by decide)
    | zscore hk hm c => exact ⟨_, c, rfl, by rw [hget]; rfl⟩
  clear hes
  induction es with
  | nil => exact ⟨[], rfl, nodup_nil, fun _ h => nomatch h⟩
  | cons e es ih =>
    obtain ⟨m, c, hmc, hsome⟩ := hform e (.head _)
    rw [map_cons, nodup_cons] at hnd
    obtain ⟨L, hL, hLnd, hLs⟩ := ih hnd.2 fun e' h => hform e' (.tail _ h)
    refine ⟨(m, c) :: L, by rw [map_cons, map_cons, hL, hmc], ?_, ?_⟩
    · rw [nodup_cons]
      refine ⟨fun hin => hnd.1 ?_, hLnd⟩
      rw [hL, hmc]
      exact mem_map.mpr ⟨(m, c), hin, rfl⟩
    · intro p hp
      rcases mem_cons.mp hp with rfl | hp
      · exact hsome
      · exact hLs p hp

theorem zIterator_full {c : Int64} (hc : MinScore < c ∧ c < MaxScore)
    (hsome : (s.get (db.zEncodeScoreKey key m c)).isSome) :
    db.zEncodeScoreKey key m c ∈ (s.rangeLimit ⟨some (db.zEncodeStartScoreKey key MinScore),
      some (db.zEncodeStopScoreKey key MaxScore), RangeClose⟩ ⟨0, -1⟩ .forward).map Prod.fst := by
  obtain ⟨v, hv⟩ := Option.isSome_iff_exists.mp hsome
  have hmin : db.zEncodeStartScoreKey key MinScore ≤ db.zEncodeScoreKey key m c :=
    (db.itemKey_le_iff ZScoreType key _ _).mpr ((DB.score_lt_iff _ _).mpr (.inl hc.1)).le
  have hmax : db.zEncodeScoreKey key m c ≤ db.zEncodeStopScoreKey key MaxScore := by
    rw [zEncodeStopScoreKey_eq]
    exact (db.itemKey_le_iff ZScoreType key _ _).mpr ((DB.score_lt_iff _ _).mpr (.inl hc.2)).le
  rw [rangeLimit_forward]
  refine mem_map.mpr ⟨(db.zEncodeScoreKey key m c, v), ?_, rfl⟩
  refine mem_filter.mpr ⟨get_eq_some_iff.mp hv, ?_⟩
  simp [hmin, hmax]

end

end LedisDB
