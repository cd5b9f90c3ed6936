import Mathlib.Data.Prod.Lex
import LedisDB.Ranks
import LedisDB.ScanPages
import LedisDB.ZSetInvariant

/-!
# Reading a zset

The reads of `ledis/t_zset.go`. Ranges and counts run over the score entries, which sort
by score and then by member, so every read agrees with the list of the members sorted
that way.
-/

namespace LedisDB

open DB List OrderedMap

namespace DB

def ZScore (db : DB) (key member : Bytes) : Op Int64 := do
  Op.lift (checkZSetKMSize key member)
  let v ← Op.get (db.zEncodeSetKey key member)
  match v with
  | none => Op.throw .ErrScoreMiss
  | some v => Op.lift (decodeInt64 (some v))

def ZKeyExists (db : DB) (key : Bytes) : Op Int64 := keyExists (db.zEncodeSizeKey key) key

def ZCount (db : DB) (key : Bytes) (min max : Int64) : Op Int64 := do
  Op.lift (checkKeySize key)
  let minKey := db.zEncodeStartScoreKey key min
  let maxKey := db.zEncodeStopScoreKey key max
  let es ← Op.range ⟨some minKey, some maxKey, RangeROpen⟩ ⟨0, -1⟩ .forward
  pure (Int64.ofNat es.length)

def zrank (db : DB) (key member : Bytes) (reverse : Bool) : Op Int64 := do
  Op.lift (checkZSetKMSize key member)
  let v ← Op.find (db.zEncodeSetKey key member)
  match v with
  | none => pure (-1)
  | some v => do
    let s ← Op.lift (decodeInt64 (some v))
    let sk := db.zEncodeScoreKey key member s
    let es ← (if !reverse then
        Op.range ⟨some (db.zEncodeStartScoreKey key MinScore), some sk, RangeClose⟩ ⟨0, -1⟩ .forward
      else
        Op.range ⟨some sk, some (db.zEncodeStopScoreKey key MaxScore), RangeClose⟩ ⟨0, -1⟩
          .backward)
    let n := Int64.ofNat es.length
    let lastKey := (es.getLast?.map Prod.fst).getD []
    match db.zDecodeScoreKey lastKey with
    | .ok (_, m, _) => pure (if m = member then n - 1 else -1)
    | .error _ => pure (-1)

def ZRank (db : DB) (key member : Bytes) : Op Int64 := db.zrank key member false

def ZRevRank (db : DB) (key member : Bytes) : Op Int64 := db.zrank key member true

def ZRangeByScoreGeneric (db : DB) (key : Bytes) (min max : Int64) (offset count : ℤ)
    (reverse : Bool) : Op (List ScorePair) :=
  db.zRange key min max offset count reverse

end DB

def ScorePair.place (p : ScorePair) : ℤ ×ₗ Bytes := toLex (p.Score.toInt, p.Member)

def ScorePair.key (db : DB) (key : Bytes) (p : ScorePair) : Bytes :=
  db.zEncodeScoreKey key p.Member p.Score

/-- The members of a zset with their scores, sorted by score and then by member. -/
def zsetList (db : DB) (s : Store) (key : Bytes) : List ScorePair :=
  ((s.under (front db .ZSET key)).map fun e => ⟨scoreIn e.2, e.1⟩).mergeSort
    fun a b => a.place ≤ b.place

section
variable {db : DB} {env : Env} {s : Store} {key m : Bytes} {p q : ScorePair} {L l : List ScorePair}
  {max min i : Int64}

theorem scoreIn_putInt64 (c : Int64) : scoreIn (PutInt64 c) = c := by
  simp [scoreIn, Except.toOption]

theorem place_inj (h : p.place = q.place) : p = q := by
  have h' := toLex_inj.mp h
  cases p
  cases q
  simpa [Int64.toInt_inj] using h'

theorem scoreKey_lt_iff : p.key db key < q.key db key ↔ p.place < q.place := by
  rw [ScorePair.key, ScorePair.key, zEncodeScoreKey, zEncodeScoreKey, ← not_le,
    itemKey_le_iff, not_le, score_lt_iff, ScorePair.place, ScorePair.place,
    Prod.Lex.toLex_lt_toLex, Int64.lt_iff_toInt_lt, Int64.toInt_inj]
  simp

theorem ZWf.mem_pairs (h : ZWf db s key) :
    p ∈ zsetList db s key ↔ s.get (db.zEncodeSetKey key p.Member) = some (PutInt64 p.Score) := by
  rw [zsetList, (mergeSort_perm _ _).mem_iff, zEncodeSetKey_front]
  constructor
  · intro hp
    obtain ⟨e, he, rfl⟩ := mem_map.mp hp
    have hget := mem_under.mp he
    obtain ⟨c, hc, -⟩ := h.indexed.scored e.1 e.2 (by rwa [zEncodeSetKey_front])
    rw [hget, hc, scoreIn_putInt64]
  · intro hget
    refine mem_map.mpr ⟨(p.Member, PutInt64 p.Score), mem_under.mpr hget, ?_⟩
    rw [scoreIn_putInt64]

theorem zsetList_members (db : DB) (s : Store) (key : Bytes) :
    ((zsetList db s key).map ScorePair.Member).Nodup := by
  have hperm := ((mergeSort_perm ((s.under (front db .ZSET key)).map fun e =>
    ⟨scoreIn e.2, e.1⟩) fun a b => a.place ≤ b.place).map ScorePair.Member)
  refine hperm.nodup_iff.mpr ?_
  rw [map_map]
  exact s.under_nodup _

theorem pairwise_place (hnd : l.Nodup) :
    (l.mergeSort fun a b => a.place ≤ b.place).Pairwise fun a b => a.place < b.place := by
  have hle : (l.mergeSort fun a b => a.place ≤ b.place).Pairwise
      fun a b => decide (a.place ≤ b.place) = true := by
    apply pairwise_mergeSort
    · intro a b c hab hbc
      exact decide_eq_true ((of_decide_eq_true hab).trans (of_decide_eq_true hbc))
    · intro a b
      simpa using le_total a.place b.place
  refine hle.imp₂ ?_ ((mergeSort_perm l _).nodup_iff.mpr hnd)
  intro a b hab hne
  exact lt_of_le_of_ne (of_decide_eq_true hab) fun h => hne (place_inj h)

theorem zsetList_sorted (db : DB) (s : Store) (key : Bytes) :
    (zsetList db s key).Pairwise fun a b => a.place < b.place := by
  refine pairwise_place (List.Nodup.of_map ScorePair.Member ?_)
  rw [map_map]
  exact s.under_nodup _

structure ScoreList (db : DB) (s : Store) (key : Bytes) (L : List ScorePair) : Prop where
  sorted : L.Pairwise fun a b => a.place < b.place
  entry : ∀ p : ScorePair, p ∈ L ↔ (s.get (p.key db key)).isSome

theorem ZWf.scoreList (h : ZWf db s key) : ScoreList db s key (zsetList db s key) := by
  refine ⟨zsetList_sorted db s key, fun p => ?_⟩
  rw [h.mem_pairs, ScorePair.key, h.indexed.index]

theorem scoreKey_item (db : DB) (key m : Bytes) (c : Int64) :
    ∃ a, db.zEncodeScoreKey key m c = db.itemKey ZScoreType key a := ⟨_, rfl⟩

theorem scan_scores (hs : StoreWf s) (h : ScoreList db s key L) {lo hi : Bytes}
    (hlo : ∃ a, lo = db.itemKey ZScoreType key a) (hhi : ∃ b, hi = db.itemKey ZScoreType key b)
    (type : UInt8) {q : ScorePair → Bool}
    (hq : ∀ p : ScorePair, ((⟨some lo, some hi, type⟩ : Range Bytes).aboveMin (p.key db key) &&
      (⟨some lo, some hi, type⟩ : Range Bytes).belowMax (p.key db key)) = q p) :
    (s.rangeLimit ⟨some lo, some hi, type⟩ ⟨0, -1⟩ .forward).map Prod.fst =
      (L.filter q).map (ScorePair.key db key) := by
  obtain ⟨a, hlo⟩ := hlo
  obtain ⟨b, hhi⟩ := hhi
  generalize hr : (⟨some lo, some hi, type⟩ : Range Bytes) = r at hq ⊢
  have hscan := pairwise_map.mpr (s.rangeLimit_sorted r)
  have hlist : ((L.filter q).map (ScorePair.key db key)).Pairwise (· < ·) :=
    pairwise_map.mpr ((h.sorted.imp scoreKey_lt_iff.mpr).filter _)
  refine hscan.eq_of_mem_iff hlist fun ek => ?_
  constructor
  · intro hek
    obtain ⟨e, he, rfl⟩ := mem_map.mp hek
    obtain ⟨hget, hin⟩ := mem_rangeLimit_all.mp he
    rw [← hr, hlo, hhi] at he
    obtain ⟨hst, x, hx⟩ := hs.of_range (T := .ZSET) (by decide) he
    generalize hek : e.1 = ek at hst hx hget hin
    cases hst with
    | zsize | zmember => exact absurd (plainKey_inj.mp hx).2.1 (by decide)
    | @zscore _ m _ _ c =>
      have hmem : ⟨c, m⟩ ∈ L := by
        rw [h.entry, ScorePair.key, hget]
        rfl
      refine mem_map.mpr ⟨⟨c, m⟩, mem_filter.mpr ⟨hmem, ?_⟩, rfl⟩
      rw [← hq]
      exact Bool.and_eq_true_iff.mpr hin
  · intro hek
    obtain ⟨p, hp, rfl⟩ := mem_map.mp hek
    obtain ⟨hmem, hqp⟩ := mem_filter.mp hp
    obtain ⟨v, hv⟩ := Option.isSome_iff_exists.mp ((h.entry p).mp hmem)
    refine mem_map.mpr ⟨(p.key db key, v), mem_rangeLimit_all.mpr ⟨hv, ?_⟩, rfl⟩
    exact Bool.and_eq_true_iff.mp ((hq p).trans hqp)

def ScorePair.within (min max : Int64) (p : ScorePair) : Bool := min ≤ p.Score && p.Score ≤ max

theorem startScoreKey_le : db.zEncodeStartScoreKey key min ≤ p.key db key ↔ min ≤ p.Score := by
  rw [zEncodeStartScoreKey, ScorePair.key, zEncodeScoreKey, zEncodeScoreKey,
    itemKey_le_iff, ← not_lt, score_lt_iff]
  simp

theorem memberSep_lt (m : Bytes) : zsetStartMemSep :: m < [zsetStopMemSep] :=
  cons_lt_cons_iff.mpr (.inl (by decide))

theorem lt_stopScoreKey : p.key db key < db.zEncodeStopScoreKey key max ↔ p.Score ≤ max := by
  rw [zEncodeStopScoreKey_eq, ScorePair.key, zEncodeScoreKey, ← not_le, itemKey_le_iff,
    not_le, score_lt_iff, Int64.le_iff_lt_or_eq]
  simp [memberSep_lt]

theorem le_stopScoreKey : p.key db key ≤ db.zEncodeStopScoreKey key max ↔ p.Score ≤ max := by
  refine ⟨fun h => ?_, fun h => (lt_stopScoreKey.mpr h).le⟩
  rw [zEncodeStopScoreKey_eq, ScorePair.key, zEncodeScoreKey, itemKey_le_iff, ← not_lt,
    score_lt_iff, not_or] at h
  exact Int64.not_lt.mp h.1

theorem Limit.apply_map {α γ : Type*} (l : Limit) (f : α → γ) (es : List α) :
    (l.apply es).map f = l.apply (es.map f) := by
  unfold apply
  split_ifs <;> simp

theorem rangeLimit_slice (s : Store) (r : Range Bytes) (l : Limit) (d : Direction) :
    s.rangeLimit r l d = l.apply (d.arrange (s.rangeLimit r ⟨0, -1⟩ .forward)) := by
  rw [rangeLimit_eq, rangeLimit_eq]
  rfl

theorem zIterator_keys (hs : StoreWf s) (h : ScoreList db s key L) (min max : Int64) (l : Limit)
    (d : Direction) :
    (s.rangeLimit ⟨some (db.zEncodeStartScoreKey key min), some (db.zEncodeStopScoreKey key max),
      RangeClose⟩ l d).map Prod.fst =
    (l.apply ((d.arrange L).filter (ScorePair.within min max))).map (ScorePair.key db key) := by
  have hscan := scan_scores hs h (scoreKey_item db key [] min)
    ⟨_, zEncodeStopScoreKey_eq db key max⟩ RangeClose (q := ScorePair.within min max) fun p => by
      rw [← zEncodeStartScoreKey, ScorePair.within]
      simp [startScoreKey_le, le_stopScoreKey]
  rw [← zEncodeStartScoreKey] at hscan
  rw [rangeLimit_slice, Limit.apply_map, Limit.apply_map, ← Direction.arrange_map, hscan,
    Direction.arrange_map, Direction.arrange_filter]

theorem zRangeLoop_run (hk : key.length ≤ MaxKeySize) {es : List (Bytes × Bytes)}
    (h : es.map Prod.fst = L.map (ScorePair.key db key)) (t : Txn) :
    db.zRangeLoop es env s t = (.ok L, t) := by
  induction L generalizing es with
  | nil =>
    rw [map_eq_nil_iff.mp h]
    rfl
  | cons p L ih =>
    obtain ⟨e, es', rfl, he, hes⟩ := map_eq_cons_iff.mp h
    have hdec : db.zDecodeScoreKey e.1 = .ok (key, p.Member, p.Score) := by
      rw [he]
      exact db.zDecodeScoreKey_zEncodeScoreKey _ _ (le_uint16 hk)
    simp [zRangeLoop, hdec, ih hes]

theorem zRange_eval (hs : StoreWf s) (h : ScoreList db s key L) (hk : key.length ≤ MaxKeySize)
    (min max : Int64) (offset count : ℤ) (reverse : Bool) :
    (db.zRange key min max offset count reverse).eval env s =
      .ok ((⟨offset, count⟩ : Limit).apply
        (((scanDirection reverse).arrange L).filter (ScorePair.within min max))) := by
  by_cases hoff : offset < 0
  · simp [Op.eval, zRange, not_lt.mpr hk, hoff, Limit.apply]
  have hrun : ∀ d t, db.zRangeLoop (s.rangeLimit ⟨some (db.zEncodeStartScoreKey key min),
      some (db.zEncodeStopScoreKey key max), RangeClose⟩ ⟨offset, count⟩ d) env s t =
      (.ok ((⟨offset, count⟩ : Limit).apply
        ((d.arrange L).filter (ScorePair.within min max))), t) :=
    fun d t => zRangeLoop_run hk (zIterator_keys hs h min max _ d) t
  by_cases hwhole : offset = 0 ∧ count < 0
  · obtain ⟨rfl, hcount⟩ := hwhole
    have hall : ∀ es : List ScorePair, (⟨0, count⟩ : Limit).apply es = es := by
      simp [Limit.apply, hcount]
    cases reverse <;>
      simp [Op.eval, zRange, zIterator, not_lt.mpr hk, hcount, hrun, hall, scanDirection,
        Direction.arrange]
  · simp [Op.eval, zRange, not_lt.mpr hk, hoff, zIterator, hrun, hwhole, scanDirection]

theorem zsetList_length (db : DB) (s : Store) (key : Bytes) :
    (zsetList db s key).length = (members db s .ZSET key).card := by
  rw [zsetList, length_mergeSort, length_map, members, card_suffixes]

theorem ZCount_eval (hs : StoreWf s) (h : ZWf db s key) (hk : ValidKey key) (min max : Int64) :
    (db.ZCount key min max).eval env s =
      .ok (Int64.ofNat ((zsetList db s key).filter (ScorePair.within min max)).length) := by
  have hscan := scan_scores hs h.scoreList (scoreKey_item db key [] min)
    ⟨_, zEncodeStopScoreKey_eq db key max⟩ RangeROpen (q := ScorePair.within min max) fun p => by
      rw [← zEncodeStartScoreKey, ScorePair.within]
      simp [startScoreKey_le, lt_stopScoreKey]
  have hlen := congrArg length hscan
  rw [length_map, ← zEncodeStartScoreKey] at hlen
  simp [Op.eval, DB.ZCount, checkKeySize_ok.mpr hk, hlen]

theorem limit_rank {α : Type*} {L : List α} (hL : L.length < 2 ^ 63) {start stop : Int64}
    (h0 : 0 ≤ start.toInt) (h1 : start.toInt ≤ stop.toInt) :
    (⟨start.toInt, (stop - start + 1).toInt⟩ : Limit).apply L =
      (L.take (stop.toInt + 1).toNat).drop start.toInt.toNat := by
  have hstop := Int64.toInt_lt stop
  have hsub : (stop - start + 1).toInt = (stop.toInt - start.toInt + 1).bmod (2 ^ 64) := by
    simp
  rcases lt_or_ge (stop.toInt - start.toInt + 1) (2 ^ 63) with hlt | hge
  · have hcount : (stop - start + 1).toInt = stop.toInt - start.toInt + 1 := by
      rw [hsub, Int.bmod_eq_of_le (by omega) (by omega)]
    rw [Limit.apply, hcount]
    simp only [not_lt.mpr h0, if_false, show ¬ stop.toInt - start.toInt + 1 < 0 by omega, drop_take]
    congr 1
    omega
  · have hstart : start.toInt = 0 := by omega
    have hlast : stop.toInt = 2 ^ 63 - 1 := by omega
    have hcount : (stop - start + 1).toInt < 0 := by
      rw [hsub, hstart, hlast]
      decide
    have hall : L.take ((2 ^ 63 - 1 : ℤ) + 1).toNat = L := take_of_length_le (by omega)
    rw [Limit.apply, hstart, hlast, hall]
    generalize (stop - start + 1).toInt = count at hcount
    simp [hcount]

theorem toInt_add_card {n : ℕ} (hn : n < 2 ^ 63) (hi : i.toInt < 0) :
    (Int64.ofNat n + i).toInt = n + i.toInt := by
  have hlow := Int64.le_toInt i
  rw [Int64.toInt_add, Int64.toInt_ofNat_of_lt hn, Int.bmod_eq_of_le (by omega) (by omega)]

theorem rankSlice_nil {α : Type*} {L : List α} {a b : ℤ} (h : b < a ∨ (L.length : ℤ) ≤ a)
    (hb : 0 ≤ a) : (L.take (b + 1).toNat).drop a.toNat = [] := by
  rw [drop_eq_nil_iff, length_take]
  omega

theorem limit_ranks {α : Type*} {L : List α} (hL : L.length < 2 ^ 63) {start stop : Int64}
    (h0 : 0 ≤ start.toInt) {l : ℤ × ℤ}
    (hl : l = if start > stop then (-1, 0) else (start.toInt, (stop - start + 1).toInt)) :
    (⟨l.1, l.2⟩ : Limit).apply L = (L.take (stop.toInt + 1).toNat).drop start.toInt.toNat := by
  rw [hl]
  split_ifs with hgt
  · exact (rankSlice_nil (.inl (Int64.lt_iff_toInt_lt.mp hgt)) h0).symm
  · exact limit_rank hL h0 (Int64.le_iff_toInt_le.mp (Int64.not_lt.mp hgt))

theorem zParseLimit_eval (h : Counted db s .ZSET key) (hk : ValidKey key) (env : Env)
    (start stop : Int64) :
    ∃ l : ℤ × ℤ, (∀ t, db.zParseLimit key start stop env s t = (.ok l, t)) ∧
      ∀ {α : Type} (L : List α), L.length = (members db s .ZSET key).card →
        (⟨l.1, l.2⟩ : Limit).apply L = rankSlice L start.toInt stop.toInt := by
  have hn := h.card_lt
  have hcard : ∀ t, db.ZCard key env s t =
      (.ok (Int64.ofNat (members db s .ZSET key).card), t) := by
    intro t
    rw [DB.ZCard, readSize_reads _ _ t]
    exact congrArg (·, t) (h.readSize hk)
  generalize (members db s .ZSET key).card = n at hn hcard
  have hlen := Int64.toInt_ofNat_of_lt hn
  have hplace : ∀ i : Int64, (if i < 0 then Int64.ofNat n + i else i).toInt =
      if i.toInt < 0 then n + i.toInt else i.toInt := by
    intro i
    have hi : i < 0 ↔ i.toInt < 0 := Int64.lt_iff_toInt_lt
    by_cases hneg : i.toInt < 0
    · rw [if_pos (hi.mpr hneg), if_pos hneg, toInt_add_card hn hneg]
    · rw [if_neg (mt hi.mp hneg), if_neg hneg]
  by_cases hneg : start < 0 ∨ stop < 0
  · generalize hstop : (if stop < 0 then Int64.ofNat n + stop else stop) = stop'
    generalize hst : (if start < 0 then Int64.ofNat n + start else start) = start'
    generalize hst' : (if start' < 0 then 0 else start') = start''
    have hplaceStart := hplace start
    have hplaceStop := hplace stop
    rw [hst] at hplaceStart
    rw [hstop] at hplaceStop
    have h0 : start''.toInt = if start'.toInt < 0 then 0 else start'.toInt := by
      rw [← hst', apply_ite Int64.toInt]
      exact if_congr Int64.lt_iff_toInt_lt rfl rfl
    refine ⟨if start'' ≥ Int64.ofNat n then (-1, 0) else if start'' > stop' then (-1, 0)
      else (start''.toInt, (stop' - start'' + 1).toInt), fun t => ?_, fun L hL => ?_⟩
    · simp only [zParseLimit, if_pos hneg, Op.bind_run, hcard, hst, hstop, hst']
      split_ifs <;> rfl
    · have hslice : rankSlice L start.toInt stop.toInt =
          (L.take (stop'.toInt + 1).toNat).drop start''.toInt.toNat := by
        simp only [rankSlice, hL, ← hplaceStop]
        congr 1
        split_ifs <;> omega
      have hpos : 0 ≤ start''.toInt := by
        rw [h0]
        split_ifs <;> omega
      rw [hslice]
      by_cases hge : start'' ≥ Int64.ofNat n
      · have hout : L.length ≤ start''.toInt := by
          rw [hL, ← hlen]
          exact Int64.le_iff_toInt_le.mp hge
        rw [if_pos hge]
        exact (rankSlice_nil (.inr hout) hpos).symm
      · rw [if_neg hge]
        exact limit_ranks (hL ▸ hn) hpos rfl
  · have hstart : ¬ start.toInt < 0 := fun hlt => hneg (.inl (Int64.lt_iff_toInt_lt.mpr hlt))
    have hstop : ¬ stop.toInt < 0 := fun hlt => hneg (.inr (Int64.lt_iff_toInt_lt.mpr hlt))
    refine ⟨if start > stop then (-1, 0) else (start.toInt, (stop - start + 1).toInt),
      fun t => ?_, fun L hL => ?_⟩
    · simp only [zParseLimit]
      split_ifs <;> rfl
    · rw [limit_ranks (hL ▸ hn) (not_lt.mp hstart) rfl]
      simp [rankSlice, hstart, hstop]

theorem ZWf.within_all (h : ZWf db s key) (hp : p ∈ zsetList db s key) :
    p.within MinScore MaxScore = true := by
  obtain ⟨c, hc, hmin, hmax⟩ := h.indexed.scored _ _ (h.mem_pairs.mp hp)
  rw [ScorePair.within, PutInt64_inj hc, Bool.and_eq_true_iff]
  exact ⟨decide_eq_true (Int64.le_of_lt hmin), decide_eq_true (Int64.le_of_lt hmax)⟩

theorem ZRangeGeneric_eval (hs : StoreWf s) (h : ZWf db s key) (hk : ValidKey key)
    (start stop : Int64) (reverse : Bool) :
    (db.ZRangeGeneric key start stop reverse).eval env s =
      .ok (rankSlice ((scanDirection reverse).arrange (zsetList db s key)) start.toInt
        stop.toInt) := by
  obtain ⟨l, hl, hslice⟩ := zParseLimit_eval h.counted hk env start stop
  have hrun : (db.ZRangeGeneric key start stop reverse).eval env s =
      (db.zRange key MinScore MaxScore l.1 l.2 reverse).eval env s := by
    simp [Op.eval, DB.ZRangeGeneric, hl]
  rw [hrun, zRange_eval hs h.scoreList hk.2, filter_eq_self.mpr, hslice]
  · rw [Direction.arrange_length, zsetList_length]
  · exact fun p hp => h.within_all (Direction.mem_arrange.mp hp)

theorem zrank_scan (hs : StoreWf s) (h : ZWf db s key) (hp : p ∈ zsetList db s key)
    (reverse : Bool) : ∃ A B,
    (scanDirection reverse).arrange (zsetList db s key) = A ++ p :: B ∧
    (if !reverse then s.rangeLimit ⟨some (db.zEncodeStartScoreKey key MinScore),
        some (p.key db key), RangeClose⟩ ⟨0, -1⟩ .forward
      else s.rangeLimit ⟨some (p.key db key), some (db.zEncodeStopScoreKey key MaxScore),
        RangeClose⟩ ⟨0, -1⟩ .backward).map Prod.fst =
      (A ++ [p]).map (ScorePair.key db key) := by
  obtain ⟨A, B, hL⟩ := append_of_mem hp
  have hsorted := zsetList_sorted db s key
  have hwithin : ∀ q ∈ zsetList db s key, MinScore ≤ q.Score ∧ q.Score ≤ MaxScore := by
    intro q hq
    simpa [ScorePair.within] using h.within_all hq
  have hle : ∀ q q' : ScorePair, q.key db key ≤ q'.key db key ↔ q.place ≤ q'.place := by
    intro q q'
    rw [← not_lt, scoreKey_lt_iff, not_lt]
  cases reverse with
  | false =>
    have hscan := scan_scores hs h.scoreList (scoreKey_item db key [] MinScore)
      (scoreKey_item db key p.Member p.Score) RangeClose
      (q := fun q => decide (MinScore ≤ q.Score) && decide (q.place ≤ p.place)) fun q => by
        rw [← zEncodeStartScoreKey, ← ScorePair.key]
        simp [startScoreKey_le, hle]
    rw [filter_congr (q := fun q => decide (q.place ≤ p.place)) fun q hq => by
      simp [(hwithin q hq).1], hL, filter_upto (hL ▸ hsorted)] at hscan
    exact ⟨A, B, hL, hscan⟩
  | true =>
    have hscan := scan_scores hs h.scoreList (scoreKey_item db key p.Member p.Score)
      ⟨_, zEncodeStopScoreKey_eq db key MaxScore⟩ RangeClose
      (q := fun q => decide (p.place ≤ q.place) && decide (q.Score ≤ MaxScore)) fun q => by
        rw [← ScorePair.key]
        simp [le_stopScoreKey, hle]
    rw [filter_congr (q := fun q => decide (p.place ≤ q.place)) fun q hq => by
      simp [(hwithin q hq).2], hL, filter_from (hL ▸ hsorted)] at hscan
    refine ⟨B.reverse, A.reverse, ?_, ?_⟩
    · rw [hL]
      simp [scanDirection, Direction.arrange]
    · change (s.rangeLimit ⟨some (p.key db key), some (db.zEncodeStopScoreKey key MaxScore),
        RangeClose⟩ ⟨0, -1⟩ .backward).map Prod.fst = _
      rw [rangeLimit_slice, Limit.apply_all, Direction.arrange, map_reverse]
      change (map Prod.fst (s.rangeLimit ⟨some (db.zEncodeScoreKey key p.Member p.Score),
        _, RangeClose⟩ ⟨0, -1⟩ .forward)).reverse = _
      rw [hscan]
      simp

theorem zrank_eval (hs : StoreWf s) (h : ZWf db s key) (hk : key.length ≤ MaxKeySize)
    (hm : checkZSetKMSize key m = .ok ()) (reverse : Bool) :
    ((db.zrank key m reverse).eval env s).map Int64.toInt =
      .ok (rankIn ScorePair.Member ((scanDirection reverse).arrange (zsetList db s key)) m) := by
  cases hget : s.get (db.zEncodeSetKey key m) with
  | none =>
    have habsent : m ∉ ((scanDirection reverse).arrange (zsetList db s key)).map
        ScorePair.Member := by
      intro hmem
      obtain ⟨p, hp, rfl⟩ := mem_map.mp hmem
      have hsome := h.mem_pairs.mp (Direction.mem_arrange.mp hp)
      rw [hget] at hsome
      cases hsome
    rw [rankIn_absent habsent]
    simp [Op.eval, zrank, hm, hget, Except.map]
  | some v =>
    obtain ⟨c, rfl, -⟩ := h.indexed.scored m v hget
    have hp : ⟨c, m⟩ ∈ zsetList db s key := h.mem_pairs.mpr hget
    obtain ⟨A, B, hL, hscan⟩ := zrank_scan hs h hp reverse
    have hnd : ((A ++ ⟨c, m⟩ :: B).map ScorePair.Member).Nodup := by
      rw [← hL, ← Direction.arrange_map]
      cases reverse with
      | false => exact zsetList_members db s key
      | true => exact nodup_reverse.mpr (zsetList_members db s key)
    have hlen : A.length + 1 < 2 ^ 63 := by
      have hlength := congrArg length hL
      rw [Direction.arrange_length, zsetList_length, length_append, length_cons] at hlength
      have hcard := h.counted.card_lt
      omega
    rw [hL, rankIn_split hnd]
    generalize hes : (if !reverse then s.rangeLimit _ _ _ else _) = es at hscan
    have hrange : ∀ t, (if !reverse then Op.range ⟨some (db.zEncodeStartScoreKey key MinScore),
          some (db.zEncodeScoreKey key m c), RangeClose⟩ ⟨0, -1⟩ .forward
        else Op.range ⟨some (db.zEncodeScoreKey key m c),
          some (db.zEncodeStopScoreKey key MaxScore), RangeClose⟩ ⟨0, -1⟩ .backward) env s t =
        (.ok es, t) := by
      intro t
      rw [← hes]
      cases reverse <;> rfl
    have hlast : (es.getLast?.map Prod.fst).getD [] = db.zEncodeScoreKey key m c := by
      rw [← getLast?_map, hscan, map_append, map_singleton, getLast?_concat]
      rfl
    have hcount : es.length = A.length + 1 := by
      have hlength := congrArg length hscan
      simpa using hlength
    have hdec := db.zDecodeScoreKey_zEncodeScoreKey m c (le_uint16 hk)
    have hrank : (Int64.ofNat (A.length + 1) - 1).toInt = A.length := by
      rw [Int64.toInt_sub, Int64.toInt_ofNat_of_lt hlen,
        Int.bmod_eq_of_le (by simp) (by simp; omega)]
      simp
    have hrun : (db.zrank key m reverse).eval env s = .ok (Int64.ofNat (A.length + 1) - 1) := by
      simp only [Op.eval, zrank, Op.bind_run, Op.lift_run, hm, Op.find_run, hget,
        decodeInt64_PutInt64, hrange, hlast, hdec, hcount, if_true, Op.pure_run]
    rw [hrun, ← hrank]
    rfl

theorem except_map_ok {α γ : Type} {x : Except Err α} {f : α → γ} {y : γ}
    (h : x.map f = .ok y) : ∃ a, x = .ok a ∧ f a = y := by
  cases x with
  | error e => cases h
  | ok a => exact ⟨a, rfl, Except.ok.inj h⟩

/-- The reads of a zset agree with one list of its elements. -/
structure ReadsAgree (db : DB) (env : Env) (s : Store) (key : Bytes) (L : List ScorePair) :
    Prop where
  elements : ∀ p : ScorePair, p ∈ L ↔
    s.get (db.zEncodeSetKey key p.Member) = some (PutInt64 p.Score)
  sorted : L.Pairwise fun a b => a.Score < b.Score ∨ a.Score = b.Score ∧ a.Member < b.Member
  rangeByScore : ∀ min max offset count reverse,
    (db.ZRangeByScoreGeneric key min max offset count reverse).eval env s =
      .ok ((⟨offset, count⟩ : Limit).apply (((scanDirection reverse).arrange L).filter
        fun p => min ≤ p.Score && p.Score ≤ max))
  rangeByRank : ∀ start stop reverse, (db.ZRangeGeneric key start stop reverse).eval env s =
    .ok (rankSlice ((scanDirection reverse).arrange L) start.toInt stop.toInt)
  count : ∀ min max, ((db.ZCount key min max).eval env s).map Int64.toInt =
    .ok (L.filter fun p => min ≤ p.Score && p.Score ≤ max).length
  rank : ∀ m, checkZSetKMSize key m = .ok () →
    ((db.ZRank key m).eval env s).map Int64.toInt = .ok (rankIn ScorePair.Member L m)
  revRank : ∀ m, checkZSetKMSize key m = .ok () →
    ((db.ZRevRank key m).eval env s).map Int64.toInt = .ok (rankIn ScorePair.Member L.reverse m)
  ranks : ∀ p ∈ L, ∃ r r' n, (db.ZRank key p.Member).eval env s = .ok r ∧
    (db.ZRevRank key p.Member).eval env s = .ok r' ∧ (db.ZCard key).eval env s = .ok n ∧
    r.toInt + r'.toInt = n.toInt - 1

/-- In every well-formed store the reads of a zset whose entries are consistent agree with its
elements sorted by score and then by member. -/
theorem zset_reads_agree (hs : StoreWf s) (h : ZWf db s key) (hk : ValidKey key) (env : Env) :
    ReadsAgree db env s key (zsetList db s key) := by
  have hrank : ∀ m, checkZSetKMSize key m = .ok () →
      ((db.ZRank key m).eval env s).map Int64.toInt =
        .ok (rankIn ScorePair.Member (zsetList db s key) m) :=
    fun m hm => zrank_eval hs h hk.2 hm false
  have hrev : ∀ m, checkZSetKMSize key m = .ok () →
      ((db.ZRevRank key m).eval env s).map Int64.toInt =
        .ok (rankIn ScorePair.Member (zsetList db s key).reverse m) :=
    fun m hm => zrank_eval hs h hk.2 hm true
  refine ⟨fun p => h.mem_pairs, ?_, fun min max offset count reverse =>
    zRange_eval hs h.scoreList hk.2 min max offset count reverse, fun start stop reverse =>
    ZRangeGeneric_eval hs h hk start stop reverse, fun min max => ?_, hrank, hrev, ?_⟩
  · refine (zsetList_sorted db s key).imp fun {a b} hab => ?_
    rwa [ScorePair.place, ScorePair.place, Prod.Lex.toLex_lt_toLex, ← Int64.lt_iff_toInt_lt,
      Int64.toInt_inj] at hab
  · have hle := List.length_filter_le (ScorePair.within min max) (zsetList db s key)
    have hcard := h.counted.card_lt
    rw [← zsetList_length] at hcard
    rw [ZCount_eval hs h hk]
    exact congrArg Except.ok (Int64.toInt_ofNat_of_lt (hle.trans_lt hcard))
  · intro p hp
    have hm : checkZSetKMSize key p.Member = .ok () :=
      checkKMSize_ok.mpr ⟨hk, (hs.member_entry (.inr (.inr rfl)) (h.mem_pairs.mp hp)).2⟩
    obtain ⟨r, hr, hA⟩ := except_map_ok (hrank _ hm)
    obtain ⟨r', hr', hB⟩ := except_map_ok (hrev _ hm)
    obtain ⟨A, B, hL⟩ := List.append_of_mem hp
    have hrevL : (A ++ p :: B).reverse = B.reverse ++ p :: A.reverse := by simp
    have hnd := zsetList_members db s key
    have hnd' : ((B.reverse ++ p :: A.reverse).map ScorePair.Member).Nodup := by
      rw [← hrevL, ← hL, List.map_reverse]
      exact List.nodup_reverse.mpr hnd
    rw [hL, rankIn_split (hL ▸ hnd)] at hA
    rw [hL, hrevL, rankIn_split hnd'] at hB
    refine ⟨r, r', _, hr, hr', h.counted.readSize hk, ?_⟩
    rw [hB, Int64.toInt_ofNat_of_lt h.counted.card_lt, ← zsetList_length, hL,
      List.length_reverse, List.length_append, List.length_cons]
    omega

def twoMembers : Store :=
  (exec (Env.quiet 0) (DB.zero.ZAdd [122] [⟨3, [97]⟩, ⟨-5, [98]⟩]) State.empty).2.store

theorem twoMembers_reached : Reached twoMembers :=
  @Reached.call State.empty zero (Env.quiet 0) (.write (.ZAdd [122] [⟨3, [97]⟩, ⟨-5, [98]⟩])) .empty

theorem twoMembers_everyKey : EveryKey (ZWf DB.zero) twoMembers := by
  have hstep := @zset_step_zwf zero (Env.quiet 0) State.empty StoreWf.empty
    (fun k _ => ZWf.empty zero k) (.write (.ZAdd [122] [⟨3, [97]⟩, ⟨-5, [98]⟩]))
  refine hstep (.inr fun _ => ⟨⟨by decide, by decide⟩, ?_⟩)
  intro a ha l hl
  left
  simp only [mem_cons, not_mem_nil, or_false] at ha
  rcases ha with rfl | rfl <;> cases hl <;> rfl

theorem twoMembers_zwf : ZWf DB.zero twoMembers [122] := twoMembers_everyKey [122] (by decide)

theorem zset_reads_agree_two : ReadsAgree DB.zero (Env.quiet 0) twoMembers [122]
    (zsetList DB.zero twoMembers [122]) :=
  zset_reads_agree twoMembers_reached.wf twoMembers_zwf (by decide) (Env.quiet 0)

end

end LedisDB
