import LedisDB.Aggregates
import LedisDB.Decimals
import LedisDB.ZSetRemovals

/-!
# Storing a weighted aggregate of zsets

`ZUnionStore` and `ZInterStore` collect the weighted scores of the sources in a Go map,
clear the destination and write the map to it, all in one batch, so that the destination may
be a source. The products and sums are machine integers: the scores are the mathematical
ones only as long as nothing wraps round. The size entry is written even when the map is
empty.
-/

namespace LedisDB

open DB List OrderedMap

inductive Aggregate
  | sum
  | min
  | max

def Aggregate.code : Aggregate → UInt8
  | .sum => AggregateSum
  | .min => AggregateMin
  | .max => AggregateMax

def Aggregate.onScores : Aggregate → Int64 → Int64 → Int64
  | .sum, a, b => a + b
  | .min, a, b => if a > b then b else a
  | .max, a, b => if a > b then a else b

def Aggregate.onInts : Aggregate → ℤ → ℤ → ℤ
  | .sum, a, b => a + b
  | .min, a, b => Min.min a b
  | .max, a, b => Max.max a b

inductive ZStoreOp
  | union
  | inter

variable (db : DB) (s : Store) (op : ZStoreOp)

def ZStoreOp.body (destKey : Bytes) (srcKeys : List Bytes)
    (weights : Option (List Int64)) (aggregate : UInt8) : ZStoreOp → Op (Ret Int64)
  | .union => db.ZUnionStore destKey srcKeys weights aggregate
  | .inter => db.ZInterStore destKey srcKeys weights aggregate

/-- A member of the union has an aggregate of the parts that are there, a member of the
intersection one of all parts. -/
def ZStoreOp.combine {α : Type} (f : α → α → α) : ZStoreOp → List (Option α) → Option α
  | .union => gather f
  | .inter => gatherAll f

def weighted (srcKeys : List Bytes) : Option (List Int64) → List (Bytes × Int64)
  | none => srcKeys.map fun key => (key, 1)
  | some weights => srcKeys.zip weights

def scoreAt (key m : Bytes) : Option Int64 :=
  (s.get (db.zEncodeSetKey key m)).map scoreIn

def machineScore (aggregate : Aggregate) (srcs : List (Bytes × Int64)) (m : Bytes) : Option Int64 :=
  op.combine aggregate.onScores (srcs.map fun src => (scoreAt db s src.1 m).map (· * src.2))

/-- The mathematical aggregate of weight times score. -/
def exactScore (aggregate : Aggregate) (srcs : List (Bytes × Int64)) (m : Bytes) : Option ℤ :=
  op.combine aggregate.onInts
    (srcs.map fun src => (scoreAt db s src.1 m).map fun c => c.toInt * src.2.toInt)

/-- Weight times score at every source that has the member. -/
def products (srcs : List (Bytes × Int64)) (m : Bytes) : List ℤ :=
  (srcs.map fun src => (scoreAt db s src.1 m).map fun c => c.toInt * src.2.toInt).reduceOption

/-- The aggregate of products modulo 2^64. -/
def Aggregate.wrapped : Aggregate → List ℤ → Option ℤ
  | .sum, zs => some (zs.sum.bmod (2 ^ 64))
  | .min, zs => (zs.map (·.bmod (2 ^ 64))).min?
  | .max, zs => (zs.map (·.bmod (2 ^ 64))).max?

/-- The sum fits in 64 bits; or the least (greatest) product does, and none wraps round to a
number beyond it. -/
def Aggregate.Fits : Aggregate → List ℤ → Prop
  | .sum, zs => FitsInt64 zs.sum
  | .min, zs => ∃ z ∈ zs, FitsInt64 z ∧ ∀ y ∈ zs, z ≤ y ∧ z ≤ y.bmod (2 ^ 64)
  | .max, zs => ∃ z ∈ zs, FitsInt64 z ∧ ∀ y ∈ zs, y ≤ z ∧ y.bmod (2 ^ 64) ≤ z

section
variable {db : DB} {env : Env} {s : Store} {key m : Bytes} {u t : Txn} {ps pairs : List ScorePair}
  {c : Int64}

theorem getAggregateFunc_code (a : Aggregate) : getAggregateFunc a.code = some a.onScores := by
  cases a <;> rfl

theorem zStoreArgs_ok {srcKeys : List Bytes} {weights : Option (List Int64)} (a : Aggregate)
    (hne : srcKeys ≠ []) (hw : ∀ ws, weights = some ws → ws.length = srcKeys.length) :
    DB.zStoreArgs srcKeys weights a.code = .ok (a.onScores, weighted srcKeys weights) := by
  have hlen : ¬ srcKeys.length < 1 := by simpa using hne
  cases weights with
  | none => simp only [zStoreArgs, getAggregateFunc_code, hlen, if_false, weighted]
  | some ws =>
    simp [zStoreArgs, getAggregateFunc_code, hlen, hw ws rfl, weighted]

def lookupPair (pairs : List ScorePair) (m : Bytes) : Option Int64 :=
  (pairs.find? fun p => p.Member = m).map ScorePair.Score

theorem lookupPair_cons (p : ScorePair) (ps : List ScorePair) (m : Bytes) :
    lookupPair (p :: ps) m = if p.Member = m then some p.Score else lookupPair ps m := by
  split_ifs with h <;> simp [h, lookupPair]

theorem lookupPair_none (h : m ∉ ps.map ScorePair.Member) : lookupPair ps m = none := by
  rw [lookupPair, Option.map_eq_none_iff, find?_eq_none]
  intro p hp hm
  exact h (mem_map.mpr ⟨p, hp, of_decide_eq_true hm⟩)

theorem foldl_pairs {step : DB.ScoreMap → ScorePair → DB.ScoreMap}
    {g : Bytes → Option Int64 → Int64 → Option Int64}
    (hstep : ∀ d p m, (step d p).get m = if p.Member = m then g m (d.get m) p.Score else d.get m)
    (hnd : (pairs.map ScorePair.Member).Nodup) (d : DB.ScoreMap) (m : Bytes) :
    (pairs.foldl step d).get m =
      match lookupPair pairs m with
      | none => d.get m
      | some c => g m (d.get m) c := by
  induction pairs generalizing d with
  | nil => rfl
  | cons p ps ih =>
    obtain ⟨hp, hps⟩ := nodup_cons.mp hnd
    rw [foldl_cons, ih hps, hstep, lookupPair_cons]
    by_cases hm : p.Member = m
    · rw [lookupPair_none (hm ▸ hp), if_pos hm, if_pos hm]
    · rw [if_neg hm, if_neg hm]

section
variable {pairs : List ScorePair} (hnd : (pairs.map ScorePair.Member).Nodup)
  (f : Int64 → Int64 → Int64) (w : Int64) (d : DB.ScoreMap) (m : Bytes)
include hnd

theorem zUnionPairs_get : (DB.zUnionPairs f w d pairs).get m =
    absorb f (d.get m) ((lookupPair pairs m).map (· * w)) := by
  rw [zUnionPairs, foldl_pairs (g := fun _ a c => absorb f a (some (c * w))) ?_ hnd]
  · cases lookupPair pairs m <;> cases d.get m <;> rfl
  · intro d p m
    by_cases hm : p.Member = m
    · subst hm
      cases d.get p.Member <;> simp [get_insert, absorb]
    · cases d.get p.Member <;> simp [get_insert, hm, Ne.symm hm]

theorem zInterPairs_get : (DB.zInterPairs f w d pairs).get m =
    absorbNeeded f (d.get m) ((lookupPair pairs m).map (· * w)) := by
  rw [zInterPairs, foldl_pairs (g := fun m a c => (d.get m).elim a fun x => some (f x (c * w)))
    ?_ hnd]
  · cases lookupPair pairs m <;> cases d.get m <;> rfl
  · intro e p m
    by_cases hm : p.Member = m
    · subst hm
      cases d.get p.Member <;> simp [get_insert]
    · cases d.get p.Member <;> simp [get_insert, hm, Ne.symm hm]

theorem firstPairs_get : (pairs.foldl (fun (d : DB.ScoreMap) pair =>
    d.insert pair.Member (pair.Score * w)) OrderedMap.empty).get m =
      (lookupPair pairs m).map (· * w) := by
  rw [foldl_pairs (g := fun _ _ c => some (c * w)) ?_ hnd]
  · cases lookupPair pairs m <;> rfl
  · simp [get_insert, eq_comm]

end

theorem rankSlice_all {α : Type*} (L : List α) : rankSlice L 0 (-1) = L := by
  simp [rankSlice]

theorem ZRange_run (hs : StoreWf s) (h : ZWf db s key) (hk : ValidKey key) :
    db.ZRange key 0 (-1) env s u = (.ok (zsetList db s key), u) := by
  have heval : (db.ZRange key 0 (-1)).eval env s = _ := ZRangeGeneric_eval hs h hk 0 (-1) false
  rw [ZRange_reads key 0 (-1) u, heval]
  exact congrArg (fun L => (Except.ok L, u)) (rankSlice_all (zsetList db s key))

theorem ZRange_invalid (hk : ¬ ValidKey key) :
    db.ZRange key 0 (-1) env s u = (.error .errKeySize, u) := by
  simp [DB.ZRange, DB.ZRangeGeneric, zParseLimit, DB.ZCard, readSize, checkKeySize_error hk]

theorem lookupPair_eq_some (hnd : (ps.map ScorePair.Member).Nodup) :
    lookupPair ps m = some c ↔ (⟨c, m⟩ : ScorePair) ∈ ps := by
  induction ps with
  | nil => simp [lookupPair]
  | cons p ps ih =>
    obtain ⟨hp, hps⟩ := nodup_cons.mp hnd
    rw [lookupPair_cons, mem_cons]
    by_cases hm : p.Member = m
    · rw [if_pos hm, Option.some_inj]
      constructor
      · rintro rfl
        exact .inl (by rw [← hm])
      · rintro (rfl | hin)
        · rfl
        · exact absurd (mem_map_of_mem hin) (hm ▸ hp)
    · rw [if_neg hm, ih hps]
      exact (or_iff_right fun heq => hm (congrArg ScorePair.Member heq).symm).symm

theorem lookupPair_zsetList (h : ZWf db s key) (m : Bytes) :
    lookupPair (zsetList db s key) m = scoreAt db s key m := by
  ext c
  rw [lookupPair_eq_some (zsetList_members db s key), h.mem_pairs, scoreAt, Option.map_eq_some_iff]
  constructor
  · intro hget
    exact ⟨_, hget, scoreIn_putInt64 c⟩
  · rintro ⟨v, hget, rfl⟩
    obtain ⟨c, rfl, -⟩ := h.indexed.scored m v hget
    rw [hget, scoreIn_putInt64]

section
variable (hs : StoreWf s) (h : EveryKey (ZWf db) s) {srcs : List (Bytes × Int64)}
include hs h

section
variable {loop : DB.ScoreMap → List (Bytes × Int64) → Op DB.ScoreMap}
  {next : Int64 → DB.ScoreMap → List ScorePair → DB.ScoreMap}
  (hloop : ∀ d src srcs, loop d (src :: srcs) =
    db.ZRange src.1 0 (-1) >>= fun pairs => loop (next src.2 d pairs) srcs)
include hloop

theorem zLoop_run {ab : Option Int64 → Option Int64 → Option Int64}
    {G : List (Option Int64) → Option Int64} (hnil : ∀ d, loop d [] = pure d)
    (hnext : ∀ {pairs}, (pairs.map ScorePair.Member).Nodup → ∀ w d m,
      (next w d pairs).get m = ab (d.get m) ((lookupPair pairs m).map (· * w)))
    (hone : ∀ a, G [a] = a) (hab : ∀ a p ps, G (a :: p :: ps) = G (ab a p :: ps))
    (hk : ∀ src ∈ srcs, ValidKey src.1) (d : DB.ScoreMap) :
    ∃ d' : DB.ScoreMap, (∀ env u, loop d srcs env s u = (.ok d', u)) ∧ ∀ m, d'.get m =
      G (d.get m :: srcs.map fun src => (scoreAt db s src.1 m).map (· * src.2)) := by
  induction srcs generalizing d with
  | nil => exact ⟨d, fun _ _ => by rw [hnil]; rfl, fun m => (hone _).symm⟩
  | cons src srcs ih =>
    obtain ⟨hfirst, hrest⟩ := forall_mem_cons.mp hk
    have hz := h src.1 hfirst.2
    obtain ⟨d', hrun, hget⟩ := ih hrest (next src.2 d (zsetList db s src.1))
    refine ⟨d', fun env u => ?_, fun m => ?_⟩
    · simp [hloop, ZRange_run hs hz hfirst, hrun]
    · rw [hget, hnext (zsetList_members db s src.1), lookupPair_zsetList hz, map_cons, hab]

theorem zLoop_invalid (hk : ∃ src ∈ srcs, ¬ ValidKey src.1) (env : Env) (u : Txn)
    (d : DB.ScoreMap) : loop d srcs env s u = (.error .errKeySize, u) := by
  induction srcs generalizing d with
  | nil => simp at hk
  | cons src srcs ih =>
    rw [hloop]
    by_cases hfirst : ValidKey src.1
    · have hrest : ∃ src ∈ srcs, ¬ ValidKey src.1 := by
        simpa [hfirst] using hk
      simp [ZRange_run hs (h src.1 hfirst.2) hfirst, ih hrest]
    · simp [ZRange_invalid hfirst]

end

end

section
variable {srcKeys : List Bytes} {weights : Option (List Int64)}

theorem weighted_keys (hw : ∀ ws, weights = some ws → ws.length = srcKeys.length) :
    (weighted srcKeys weights).map Prod.fst = srcKeys := by
  cases weights with
  | none => simp [weighted, Function.comp_def]
  | some ws => exact map_fst_zip (hw ws rfl).ge

theorem forall_weighted (hw : ∀ ws, weights = some ws → ws.length = srcKeys.length)
    {P : Bytes → Prop} : (∀ src ∈ weighted srcKeys weights, P src.1) ↔ ∀ k ∈ srcKeys, P k := by
  conv_rhs => rw [← weighted_keys hw]
  simp

theorem body_valid (hs : StoreWf s) (h : EveryKey (ZWf db) s) (op : ZStoreOp) (a : Aggregate)
    (hne : srcKeys ≠ []) (hw : ∀ ws, weights = some ws → ws.length = srcKeys.length)
    (hk : ∀ k ∈ srcKeys, ValidKey k) (destKey : Bytes) : ∃ d : DB.ScoreMap,
      (∀ env u, op.body db destKey srcKeys weights a.code env s u = db.zStore destKey d env s u) ∧
      ∀ m, d.get m = machineScore db s op a (weighted srcKeys weights) m := by
  have hargs := zStoreArgs_ok a hne hw
  have hvalid := (forall_weighted hw).mpr hk
  cases op with
  | union =>
    obtain ⟨d, hrun, hget⟩ := @zLoop_run db s hs h _ (db.zUnionLoop a.onScores) _
      (fun _ _ _ => rfl) _ _ (fun _ => rfl) (zUnionPairs_get · a.onScores) gather_singleton
      gather_absorb hvalid empty
    refine ⟨d, fun env u => ?_, fun m => ?_⟩
    · simp [ZStoreOp.body, DB.ZUnionStore, hargs, hrun]
    · rw [hget]
      rfl
  | inter =>
    -- the scores of the first source are the start of the loop over the others
    have hkeys := weighted_keys hw
    cases hsrcs : weighted srcKeys weights with
    | nil =>
      rw [hsrcs] at hkeys
      exact absurd hkeys.symm hne
    | cons src srcs =>
      rw [hsrcs] at hvalid
      obtain ⟨hfirst, hrest⟩ := forall_mem_cons.mp hvalid
      have hz := h src.1 hfirst.2
      obtain ⟨d, hrun, hget⟩ := @zLoop_run db s hs h _ (db.zInterLoop a.onScores) _
        (fun _ _ _ => rfl) _ _ (fun _ => rfl) (zInterPairs_get · a.onScores) gatherAll_singleton
        gatherAll_absorbNeeded hrest ((zsetList db s src.1).foldl (fun d pair =>
          d.insert pair.Member (pair.Score * src.2)) empty)
      refine ⟨d, fun env u => ?_, fun m => ?_⟩
      · simp [ZStoreOp.body, DB.ZInterStore, hargs, hsrcs, ZRange_run hs hz hfirst, hrun]
      · rw [hget, firstPairs_get (zsetList_members db s src.1), lookupPair_zsetList hz]
        rfl

theorem body_invalid (hs : StoreWf s) (h : EveryKey (ZWf db) s) (op : ZStoreOp) (a : Aggregate)
    (hw : ∀ ws, weights = some ws → ws.length = srcKeys.length)
    (hk : ∃ k ∈ srcKeys, ¬ ValidKey k) (destKey : Bytes) :
    op.body db destKey srcKeys weights a.code env s u = (.error .errKeySize, u) := by
  have hne : srcKeys ≠ [] := by
    rintro rfl
    simp at hk
  have hargs := zStoreArgs_ok a hne hw
  have hinvalid : ∃ src ∈ weighted srcKeys weights, ¬ ValidKey src.1 := by
    by_contra hno
    push Not at hno
    obtain ⟨k, hin, hinv⟩ := hk
    exact hinv ((forall_weighted hw).mp hno k hin)
  cases op with
  | union =>
    have hloop := @zLoop_invalid db s hs h _ (db.zUnionLoop a.onScores)
      (zUnionPairs a.onScores) (fun _ _ _ => rfl) hinvalid env u empty
    simp [ZStoreOp.body, DB.ZUnionStore, hargs, hloop]
  | inter =>
    cases hsrcs : weighted srcKeys weights with
    | nil => simp [hsrcs] at hinvalid
    | cons src srcs =>
      simp only [ZStoreOp.body, DB.ZInterStore, hargs, hsrcs]
      by_cases hfirst : ValidKey src.1
      · have hrest : ∃ src ∈ srcs, ¬ ValidKey src.1 := by
          simpa [hsrcs, hfirst] using hinvalid
        have hloop := @zLoop_invalid db s hs h _ (db.zInterLoop a.onScores)
          (zInterPairs a.onScores) (fun _ _ _ => rfl) hrest env u
        simp [ZRange_run hs (h src.1 hfirst.2) hfirst, hloop]
      · simp [ZRange_invalid hfirst]

end

def InRange (score : Int64) : Prop := MinScore < score ∧ score < MaxScore

section
variable {destMap : DB.ScoreMap} {ms : List Bytes} {m ek : Bytes}

theorem zStoreLoop_run (hs : Indexed db s key) (hvalid : ∀ m ∈ ms, checkZSetKMSize key m = .ok ())
    (hrange : ∀ m ∈ ms, InRange ((destMap.get m).getD 0)) (env : Env) (u : Txn) :
    ∃ t, db.zStoreLoop key destMap ms env s u = (.ok (), t) := by
  induction ms generalizing u with
  | nil => exact ⟨u, rfl⟩
  | cons m ms ih =>
    obtain ⟨hm, hms⟩ := forall_mem_cons.mp hvalid
    obtain ⟨hr, hrs⟩ := forall_mem_cons.mp hrange
    obtain ⟨n, t, hset⟩ := zSetItem_run hs.scores env u m hr
    simp only [zStoreLoop, Op.bind_run, Op.lift_run, hm, hset]
    exact ih hms hrs t

theorem zStoreLoop_overflow (hs : Indexed db s key)
    (hvalid : ∀ m ∈ ms, checkZSetKMSize key m = .ok ())
    (hrange : ∃ m ∈ ms, ¬ InRange ((destMap.get m).getD 0)) (env : Env) (u : Txn) :
    ∃ t, db.zStoreLoop key destMap ms env s u = (.error .errScoreOverflow, t) ∧ t.nc = u.nc := by
  induction ms generalizing u with
  | nil => simp at hrange
  | cons m ms ih =>
    obtain ⟨hm, hms⟩ := forall_mem_cons.mp hvalid
    simp only [zStoreLoop, Op.bind_run, Op.lift_run, hm]
    by_cases hr : InRange ((destMap.get m).getD 0)
    · have hrest : ∃ m ∈ ms, ¬ InRange ((destMap.get m).getD 0) := by
        simpa [hr] using hrange
      obtain ⟨n, t, hset⟩ := zSetItem_run hs.scores env u m hr
      obtain ⟨rfl, -⟩ := zSetItem_ok hset
      simp only [hset]
      exact ih hms hrest _
    · have hout : (destMap.get m).getD 0 ≤ MinScore ∨ (destMap.get m).getD 0 ≥ MaxScore := by
        rwa [InRange, not_and_or, Int64.not_lt, Int64.not_lt] at hr
      refine ⟨u, ?_, rfl⟩
      simp only [zSetItem, if_pos hout]
      rfl

theorem zStoreLoop_invalid (hk : ¬ ValidKey key) (hne : ms ≠ []) :
    db.zStoreLoop key destMap ms env s u = (.error .errKeySize, u) := by
  obtain ⟨m, ms, rfl⟩ := exists_cons_of_ne_nil hne
  simp [zStoreLoop, checkZSetKMSize, checkKMSize_error hk]

def zDeleteBatch (db : DB) (s : Store) (key : Bytes) : Batch :=
  if key.length ≤ MaxKeySize then zRemBatch db s key (zScored db s key) ++ zSizeBatch db s key
  else []

theorem zDelete_run (db : DB) (hs : StoreWf s) (key : Bytes) (env : Env) (u : Txn) : ∃ n,
    db.zDelete key env s u = (.ok n, u.queue (zDeleteBatch db s key)) := by
  by_cases hk : key.length ≤ MaxKeySize
  · rw [zDeleteBatch, if_pos hk]
    exact zDelete_queue db hs hk env u
  · rw [zDeleteBatch, if_neg hk, Txn.queue_nil]
    exact ⟨0, zDelete_long hk env u⟩

def zStoreBatch (db : DB) (s : Store) (key : Bytes) (env : Env) (destMap : DB.ScoreMap) : Batch :=
  zDeleteBatch db s key ++ (zItems db s key (storePairs env destMap) ++
    [.put (db.zEncodeSizeKey key) (PutInt64 (Int64.ofNat destMap.keys.length))])

theorem zStore_run (hw : StoreWf s) (env : Env) (nc : Int64)
    (h : db.zStoreLoop key destMap (env.mapOrder destMap.keys) env s
      ⟨zDeleteBatch db s key, nc⟩ = (.ok (), t)) :
    db.zStore key destMap env s ⟨[], nc⟩ =
      (.ok (.commit (Int64.ofNat destMap.keys.length)),
        ⟨zStoreBatch db s key env destMap, nc⟩) := by
  obtain ⟨n, hdel⟩ := zDelete_run db hw key env ⟨[], nc⟩
  obtain ⟨rfl, -⟩ := zStoreLoop_ok h
  simp only [Txn.queue, nil_append] at hdel
  simp only [zStore, Op.bind_run, hdel, Op.mapOrder_run, h, Op.put_run, Txn.queue_queue]
  rfl

theorem zStore_error (hw : StoreWf s) (env : Env) (nc : Int64) {e : Err}
    (h : db.zStoreLoop key destMap (env.mapOrder destMap.keys) env s
      ⟨zDeleteBatch db s key, nc⟩ = (.error e, t)) :
    db.zStore key destMap env s ⟨[], nc⟩ = (.error e, t) := by
  obtain ⟨n, hdel⟩ := zDelete_run db hw key env ⟨[], nc⟩
  simp [zStore, hdel, h]

theorem mem_keys : m ∈ destMap.keys ↔ (destMap.get m).isSome := by
  rw [OrderedMap.keys, mem_map, Option.isSome_iff_exists]
  constructor
  · rintro ⟨⟨k, c⟩, he, rfl⟩
    exact ⟨c, get_eq_some_iff.mpr he⟩
  · rintro ⟨c, hc⟩
    exact ⟨(m, c), get_eq_some_iff.mp hc, rfl⟩

theorem mem_mapOrder_keys : m ∈ env.mapOrder destMap.keys ↔ (destMap.get m).isSome := by
  rw [(env.mapOrder_perm destMap.keys).mem_iff, mem_keys]

theorem lastFor_storePairs (destMap : DB.ScoreMap) (m : Bytes) :
    lastFor (storePairs env destMap) m = (destMap.get m).map fun c => ⟨c, m⟩ := by
  have hmem : m ∈ (storePairs env destMap).map ScorePair.Member ↔ (destMap.get m).isSome := by
    rw [storePairs_member, mem_mapOrder_keys]
  cases hl : lastFor (storePairs env destMap) m with
  | none =>
    have hno : ¬ (destMap.get m).isSome := by
      rw [← hmem, ← lastFor_isSome, hl]
      simp
    simpa using hno
  | some l =>
    obtain ⟨hin, hm⟩ := lastFor_mem hl
    obtain ⟨c, hc⟩ := Option.isSome_iff_exists.mp (hmem.mp (mem_map.mpr ⟨l, hin, hm⟩))
    obtain ⟨k, -, rfl⟩ := mem_map.mp hin
    obtain rfl := hm
    simp [hc]

theorem zItemBatch_keys (hs : Indexed db s key) {p : ScorePair} {o : WriteOp Bytes Bytes}
    (ho : o ∈ zItemBatch db s key p) : o.key = db.zEncodeSetKey key p.Member ∨
      ∃ c, o.key = db.zEncodeScoreKey key p.Member c := by
  rcases zItemBatch_cases hs p with ⟨-, hb⟩ | ⟨c, -, hb⟩ <;> rw [hb] at ho <;>
    simp only [mem_cons, not_mem_nil, or_false] at ho
  · rcases ho with rfl | rfl
    · exact .inl rfl
    · exact .inr ⟨p.Score, rfl⟩
  · rcases ho with rfl | rfl | rfl
    · exact .inr ⟨c, rfl⟩
    · exact .inl rfl
    · exact .inr ⟨p.Score, rfl⟩

theorem zItemBatch_apart (hk : key.length ≤ DB.MaxUint16) (hs : Indexed db s key)
    {p q : ScorePair} (hpq : p.Member ≠ q.Member) :
    ∀ o ∈ zItemBatch db s key p, ∀ o' ∈ zItemBatch db s key q, o.key ≠ o'.key := by
  intro o ho o' ho' heq
  rcases zItemBatch_keys hs ho with h | ⟨c, h⟩ <;>
    rcases zItemBatch_keys hs ho' with h' | ⟨c', h'⟩ <;> rw [h, h'] at heq
  · exact hpq (zEncodeSetKey_inj.mp heq)
  · exact zEncodeScoreKey_ne_set q.Member p.Member c' heq.symm
  · exact zEncodeScoreKey_ne_set p.Member q.Member c heq
  · exact hpq ((zEncodeScoreKey_inj hk).mp heq).1

theorem zStoreBatch_order (hk : key.length ≤ DB.MaxUint16) (hs : Indexed db s key)
    (env' : Env) (destMap : DB.ScoreMap) (m₀ : Store) :
    m₀.applyBatch (zStoreBatch db s key env destMap) =
      m₀.applyBatch (zStoreBatch db s key env' destMap) := by
  have hperm : (storePairs env destMap).Perm (storePairs env' destMap) :=
    ((env.mapOrder_perm _).trans (env'.mapOrder_perm _).symm).map _
  have hnd : ((storePairs env destMap).map ScorePair.Member).Nodup := by
    rw [storePairs_member]
    exact (env.mapOrder_perm _).nodup_iff.mpr destMap.keys_nodup
  have hapart := (pairwise_map.mp hnd).imp fun hpq => zItemBatch_apart hk hs hpq
  simp [zStoreBatch, zItems, applyBatch_append, applyBatch_flatMap_perm hperm hapart]

theorem zDelete_slice (hw : StoreWf s) (h : ZWf db s key) (hk : key.length ≤ MaxKeySize) :
    SliceRemoved db s key (zsetList db s key) (s.applyBatch (zDeleteBatch db s key)) := by
  have hall : (⟨0, -1⟩ : Limit).apply ((zsetList db s key).filter
      (ScorePair.within MinScore MaxScore)) = zsetList db s key :=
    filter_eq_self.mpr fun p hp => h.within_all hp
  obtain ⟨b, hrun, hremoved⟩ := zRemRange_slice hw h hk (Env.quiet 0) 0 hall (List.Sublist.refl _)
  obtain ⟨n, hdel⟩ := zDelete_run db hw key (Env.quiet 0) ⟨[], 0⟩
  simp only [zDelete, Op.ignoreErr, hrun, nil_append, Prod.mk.injEq, Txn.mk.injEq, and_true] at hdel
  rwa [← hdel.2]

theorem mem_members_scoreAt : m ∈ members db s .ZSET key ↔ (scoreAt db s key m).isSome := by
  rw [mem_members, scoreAt, zEncodeSetKey_front, Option.isSome_map]

theorem zStoreBatch_size (destMap : DB.ScoreMap) :
    (s.applyBatch (zStoreBatch db s key env destMap)).get (db.zEncodeSizeKey key) =
      some (PutInt64 (Int64.ofNat destMap.keys.length)) := by
  rw [zStoreBatch]
  simp [applyBatch, get_applyOp]

section
variable (hw : StoreWf s) (h : ZWf db s key) (hk : key.length ≤ MaxKeySize)
include hw h hk

theorem zDeleteBatch_none : zsetList db (s.applyBatch (zDeleteBatch db s key)) key = [] := by
  refine eq_nil_iff_forall_not_mem.mpr fun p hp => ?_
  obtain ⟨hin, hout⟩ := ((zDelete_slice hw h hk).rest p).mp hp
  exact hout hin

theorem zDeleteBatch_member
    (m : Bytes) : (s.applyBatch (zDeleteBatch db s key)).get (db.zEncodeSetKey key m) = none := by
  have hno : m ∉ members db (s.applyBatch (zDeleteBatch db s key)) .ZSET key := by
    rw [zsetList_eq_nil_iff.mp (zDeleteBatch_none hw h hk)]
    simp
  rw [mem_members, ← zEncodeSetKey_front] at hno
  simpa using hno

theorem zStoreBatch_score (env : Env) (destMap : DB.ScoreMap) (m : Bytes) :
    scoreAt db (s.applyBatch (zStoreBatch db s key env destMap)) key m = destMap.get m := by
  have hsize : db.zEncodeSizeKey key ≠ db.zEncodeSetKey key m :=
    fun h => absurd (plainKey_inj.mp h).2.1 (by decide)
  rw [scoreAt, zStoreBatch, applyBatch_append, applyBatch_append,
    get_applyBatch_of_not_mem _ (by simpa using hsize), zItems_get_member h.indexed,
    lastFor_storePairs, zDeleteBatch_member hw h hk]
  cases destMap.get m <;> simp [scoreIn, Except.toOption]

theorem zStoreBatch_indexed
    (hrange : ∀ m ∈ env.mapOrder destMap.keys, InRange ((destMap.get m).getD 0)) :
    Indexed db (s.applyBatch (zStoreBatch db s key env destMap)) key := by
  rw [zStoreBatch, applyBatch_append, applyBatch_append]
  exact storePairs_indexed hk h.indexed (zDelete_slice hw h hk).wf.indexed
    (zDeleteBatch_member hw h hk) hrange _

end

theorem zStoreBatch_expire (h : Indexed db s key) (destMap : DB.ScoreMap)
    (hek : ExpireEntry db .ZSET key ek) :
    (s.applyBatch (zStoreBatch db s key env destMap)).get ek =
      (s.applyBatch (zDeleteBatch db s key)).get ek := by
  have hdata : ∀ o ∈ zItems db s key (storePairs env destMap) ++
      [.put (db.zEncodeSizeKey key) (PutInt64 (Int64.ofNat destMap.keys.length))],
      DataEntry db .ZSET key o.key := by
    intro o ho
    rcases mem_append.mp ho with ho | ho
    · exact zItems_data h _ o ho
    · obtain rfl := mem_singleton.mp ho
      exact .zsize key
  rw [zStoreBatch, applyBatch_append]
  exact get_applyBatch_data hdata hek _

end

/-- The destination is a new zset with the scores `Z`, and nothing of the zset that the old
store `s` had is left. -/
structure AggregateStored (db : DB) (s : Store) (key : Bytes) (Z : Bytes → Option ℤ) (n : Int64)
    (s' : Store) : Prop where
  scores : ∀ m, (scoreAt db s' key m).map Int64.toInt = Z m
  indexed : Indexed db s' key
  ttl : deadlineOf db s' .ZSET key = none ∧ ∀ w, deadlineOf db s .ZSET key = some (PutInt64 w) →
    s'.get (db.expEncodeTimeKey ZSetType key w) = none
  count : n = Int64.ofNat (members db s' .ZSET key).card
  absent : members db s' .ZSET key = ∅ → s'.get (db.zEncodeSizeKey key) = none ∧
    ∀ env, (db.ZKeyExists key).eval env s' = .ok 0

structure StoresAggregate (db : DB) (env : Env) (st : State) (key : Bytes)
    (body : Op (Ret Int64)) (Z : Bytes → Option ℤ) : Prop where
  stored : ∀ n st', exec env body st = (.ok n, st') → AggregateStored db st.store key Z n st'.store
  overflow : (∃ m z, Z m = some z ∧ ¬ (MinScore.toInt < z ∧ z < MaxScore.toInt)) →
    ∃ e, exec env body st = (.error e, st)
  order : ∀ env' : Env, env'.Commits → exec env' body st = exec env body st

section
variable {st : State} {body : Op (Ret Int64)} {d : DB.ScoreMap} {Z : Bytes → Option ℤ} {e : Err}

theorem zStore_exec_error (hs : StoreWf st.store)
    (hbody : ∀ env u, body env st.store u = db.zStore key d env st.store u)
    (hloop : ∀ u, ∃ t, db.zStoreLoop key d (env.mapOrder d.keys) env st.store u = (.error e, t) ∧
      t.nc = u.nc) : exec env body st = (.error e, st) := by
  obtain ⟨t, ht, hnc⟩ := hloop ⟨zDeleteBatch db st.store key, st.nc⟩
  rw [exec, hbody, zStore_error hs env st.nc ht]
  simp [hnc]

theorem zStore_exec_invalid (hs : StoreWf st.store) (hk : ¬ ValidKey key)
    (hbody : ∀ env u, body env st.store u = db.zStore key d env st.store u)
    (hne : ∃ m, d.get m ≠ none) (env : Env) : exec env body st = (.error .errKeySize, st) := by
  obtain ⟨m, hm⟩ := hne
  have hin : m ∈ env.mapOrder d.keys := mem_mapOrder_keys.mpr (Option.isSome_iff_ne_none.mpr hm)
  exact zStore_exec_error hs hbody fun u =>
    ⟨u, zStoreLoop_invalid hk (ne_nil_of_mem hin), rfl⟩

theorem mapOrder_check (hk : ValidKey key) (hvalid : ∀ m, d.get m ≠ none → ValidKey m) :
    ∀ m ∈ env.mapOrder d.keys, checkZSetKMSize key m = .ok () := by
  intro m hm
  exact checkKMSize_ok.mpr ⟨hk, hvalid m (Option.isSome_iff_ne_none.mp (mem_mapOrder_keys.mp hm))⟩

theorem zStore_exec_overflow (hs : StoreWf st.store) (h : ZWf db st.store key) (hk : ValidKey key)
    (hbody : ∀ env u, body env st.store u = db.zStore key d env st.store u)
    (hvalid : ∀ m, d.get m ≠ none → ValidKey m) (hout : ∃ m c, d.get m = some c ∧ ¬ InRange c)
    (env : Env) : exec env body st = (.error .errScoreOverflow, st) := by
  obtain ⟨m, c, hc, hrange⟩ := hout
  refine zStore_exec_error hs hbody
    (zStoreLoop_overflow h.indexed (mapOrder_check hk hvalid) ⟨m, ?_, ?_⟩ env)
  · exact mem_mapOrder_keys.mpr (by simp [hc])
  · simpa [hc] using hrange

theorem zStore_exec (henv : env.Commits) (hs : StoreWf st.store)
    (hbody : ∀ env u, body env st.store u = db.zStore key d env st.store u)
    (hloop : ∀ u, ∃ t, db.zStoreLoop key d (env.mapOrder d.keys) env st.store u = (.ok (), t)) :
    exec env body st = (.ok (Int64.ofNat d.keys.length),
      ⟨st.store.applyBatch (zStoreBatch db st.store key env d), st.nc⟩) := by
  obtain ⟨t, ht⟩ := hloop ⟨zDeleteBatch db st.store key, st.nc⟩
  exact henv.exec ((hbody env _).trans (zStore_run hs env st.nc ht))

theorem mapOrder_inRange (hrange : ∀ m c, d.get m = some c → InRange c) :
    ∀ m ∈ env.mapOrder d.keys, InRange ((d.get m).getD 0) := by
  intro m hm
  obtain ⟨c, hc⟩ := Option.isSome_iff_exists.mp (mem_mapOrder_keys.mp hm)
  rw [hc]
  exact hrange m c hc

theorem aggregateStored (hs : StoreWf s) (h : ZWf db s key) (hk : key.length ≤ MaxKeySize)
    (hrange : ∀ m c, d.get m = some c → InRange c) (hne : ∃ m, Z m ≠ none)
    (hexact : ∀ m, (d.get m).map Int64.toInt = Z m) :
    AggregateStored db s key Z (Int64.ofNat d.keys.length)
      (s.applyBatch (zStoreBatch db s key env d)) := by
  have hscore := zStoreBatch_score hs h hk env d
  have hmem : members db (s.applyBatch (zStoreBatch db s key env d)) .ZSET key =
      d.keys.toFinset := by
    ext m
    rw [mem_members_scoreAt, hscore, mem_toFinset, mem_keys]
  obtain ⟨-, hdeadline, htime⟩ := (zDelete_slice hs h hk).gone (zDeleteBatch_none hs h hk)
  refine ⟨fun m => by rw [hscore, hexact], zStoreBatch_indexed hs h hk
    (mapOrder_inRange hrange), ⟨?_, fun w hw => ?_⟩, ?_, fun hempty => ?_⟩
  · exact (zStoreBatch_expire h.indexed d .expMeta).trans hdeadline
  · exact (zStoreBatch_expire h.indexed d (.time w)).trans (htime w hw)
  · rw [hmem, toFinset_card_of_nodup d.keys_nodup]
  · obtain ⟨m, hm⟩ := hne
    have hin : m ∈ members db (s.applyBatch (zStoreBatch db s key env d)) .ZSET key := by
      rw [mem_members_scoreAt, hscore, ← Option.isSome_map, hexact]
      exact Option.isSome_iff_ne_none.mpr hm
    rw [hempty] at hin
    simp at hin

theorem StoresAggregate.of_error (h : ∀ env : Env, exec env body st = (.error e, st)) :
    StoresAggregate db env st key body Z := by
  refine ⟨fun n st' hrun => ?_, fun _ => ⟨e, h env⟩, fun env' _ => (h env').trans (h env).symm⟩
  rw [h env] at hrun
  cases hrun

theorem not_storesAggregate_empty (henv : env.Commits) (hs : StoreWf st.store)
    (hbody : ∀ env u, body env st.store u = db.zStore key d env st.store u)
    (hnil : ∀ m, d.get m = none) (hZ : ∀ m, Z m = none) :
    ¬ StoresAggregate db env st key body Z := by
  intro hstores
  have horder : env.mapOrder d.keys = [] := by
    refine eq_nil_iff_forall_not_mem.mpr fun m hm => ?_
    rw [mem_mapOrder_keys, hnil m] at hm
    cases hm
  have hstored := hstores.stored _ _ (zStore_exec henv hs hbody fun u => ⟨u, by rw [horder]; rfl⟩)
  have hempty : members db (st.store.applyBatch (zStoreBatch db st.store key env d)) .ZSET key =
      ∅ := by
    refine Finset.eq_empty_of_forall_notMem fun m hm => ?_
    rw [mem_members_scoreAt, ← Option.isSome_map, hstored.scores, hZ] at hm
    cases hm
  have hsize := (hstored.absent hempty).1
  rw [zStoreBatch_size] at hsize
  cases hsize

theorem InRange.toInt_iff : InRange c ↔ MinScore.toInt < c.toInt ∧ c.toInt < MaxScore.toInt := by
  rw [InRange, Int64.lt_iff_toInt_lt, Int64.lt_iff_toInt_lt]

theorem stores_map_iff (henv : env.Commits) (hs : StoreWf st.store) (h : EveryKey (ZWf db) st.store)
    (hbody : ∀ env u, body env st.store u = db.zStore key d env st.store u)
    (hvalid : ∀ m, d.get m ≠ none → ValidKey m) (hnone : ∀ m, d.get m = none ↔ Z m = none) :
    StoresAggregate db env st key body Z ↔ (∃ m, Z m ≠ none) ∧ (¬ ValidKey key ∨
      (∃ m c, d.get m = some c ∧ ¬ InRange c) ∨ ∀ m, (d.get m).map Int64.toInt = Z m) := by
  by_cases hne : ∃ m, Z m ≠ none
  swap
  · push Not at hne
    refine iff_of_false (not_storesAggregate_empty henv hs hbody (fun m => ?_) hne) fun hno => ?_
    · exact (hnone m).mpr (hne m)
    · obtain ⟨⟨m, hm⟩, -⟩ := hno
      exact hm (hne m)
  rw [and_iff_right hne]
  by_cases hk : ValidKey key
  swap
  · have hsome := hne.imp fun m hm hno => hm ((hnone m).mp hno)
    exact iff_of_true (.of_error (zStore_exec_invalid hs hk hbody hsome)) (.inl hk)
  have hz := h key hk.2
  rw [or_iff_right (not_not.mpr hk)]
  by_cases hr : ∃ m c, d.get m = some c ∧ ¬ InRange c
  · exact iff_of_true (.of_error (zStore_exec_overflow hs hz hk hbody hvalid hr)) (.inl hr)
  rw [or_iff_right hr]
  push Not at hr
  have hexec := fun env henv =>
    zStore_exec henv hs hbody
      (zStoreLoop_run hz.indexed (mapOrder_check hk hvalid) (mapOrder_inRange hr) env)
  constructor
  · intro hstores m
    have hscore := (hstores.stored _ _ (hexec env henv)).scores m
    rwa [zStoreBatch_score hs hz hk.2] at hscore
  · intro hexact
    refine ⟨fun n st' hrun => ?_, fun hout => ?_, fun env' henv' => ?_⟩
    · rw [hexec env henv] at hrun
      cases hrun
      exact aggregateStored hs hz hk.2 hr hne hexact
    · obtain ⟨m, z, hZ, hout⟩ := hout
      rw [← hexact, Option.map_eq_some_iff] at hZ
      obtain ⟨c, hc, rfl⟩ := hZ
      exact absurd (InRange.toInt_iff.mp (hr m c hc)) hout
    · rw [hexec env' henv', hexec env henv, zStoreBatch_order (le_uint16 hk.2) hz.indexed env d]

end

theorem combine_eq_none_iff {α β γ : Type} {f : α → α → α} {g : β → β → β}
    {l : List γ} {p : γ → Option α} {q : γ → Option β} (hpq : ∀ x, p x = none ↔ q x = none) :
    op.combine f (l.map p) = none ↔ op.combine g (l.map q) = none := by
  cases op with
  | union => simp [ZStoreOp.combine, gather_eq_none_iff, hpq]
  | inter =>
    cases l with
    | nil => exact iff_of_true rfl rfl
    | cons x l => simp [ZStoreOp.combine, gatherAll_eq_none_iff, hpq, eq_comm]

theorem machineScore_eq_none_iff (a : Aggregate) (srcs : List (Bytes × Int64))
    (m : Bytes) : machineScore db s op a srcs m = none ↔ exactScore db s op a srcs m = none := by
  refine combine_eq_none_iff op fun src => ?_
  rw [Option.map_eq_none_iff, Option.map_eq_none_iff]

theorem machineScore_valid (hs : StoreWf s) {op : ZStoreOp} {a : Aggregate}
    {srcs : List (Bytes × Int64)} (hm : machineScore db s op a srcs m ≠ none) : ValidKey m := by
  have hsrc : ∃ src ∈ srcs, scoreAt db s src.1 m ≠ none := by
    cases op with
    | union => simpa [machineScore, ZStoreOp.combine, gather_eq_none_iff] using hm
    | inter =>
      cases srcs with
      | nil => exact absurd rfl hm
      | cons src srcs =>
        refine ⟨src, (.head _), fun hno => hm (gatherAll_eq_none_iff.mpr ?_)⟩
        simp [hno]
  obtain ⟨src, -, hscore⟩ := hsrc
  obtain ⟨v, hv⟩ : ∃ v, s.get (db.zEncodeSetKey src.1 m) = some v := by
    rw [← Option.ne_none_iff_exists']
    simpa [scoreAt] using hscore
  rw [zEncodeSetKey_front] at hv
  exact hs.member_valid (.inr (.inr rfl)) (mem_under.mpr hv)

theorem combine_eq_gather {α : Type} {f : α → α → α} {op : ZStoreOp} {parts : List (Option α)}
    (h : op.combine f parts ≠ none) : op.combine f parts = gather f parts := by
  cases op with
  | union => rfl
  | inter =>
    change gatherAll f parts ≠ none at h
    change gatherAll f parts = _
    unfold gatherAll at h ⊢
    split_ifs at h ⊢ with hall
    · rfl
    · exact absurd rfl h

theorem bmod_eq_self_iff {z : ℤ} : z.bmod (2 ^ 64) = z ↔ FitsInt64 z := by
  rw [Int.bmod_def, FitsInt64]
  omega

/-- The extreme product is also that of the wrapped products when it fits and bounds them. -/
theorem extreme_wrapped_iff {zs : List ℤ} {r : ℤ → ℤ → Prop} {o o' : Option ℤ} (hne : o ≠ none)
    (ho : ∀ {z}, o = some z ↔ z ∈ zs ∧ ∀ y ∈ zs, r z y) (ho' : ∀ {z}, o' = some z ↔
      z ∈ zs.map (·.bmod (2 ^ 64)) ∧ ∀ y ∈ zs.map (·.bmod (2 ^ 64)), r z y) :
    o' = o ↔ ∃ z ∈ zs, FitsInt64 z ∧ ∀ y ∈ zs, r z y ∧ r z (y.bmod (2 ^ 64)) := by
  simp only [forall_mem_map] at ho'
  constructor
  · rintro rfl
    obtain ⟨z, hz⟩ := Option.ne_none_iff_exists'.mp hne
    obtain ⟨hmem, hall⟩ := ho.mp hz
    obtain ⟨hmem', hall'⟩ := ho'.mp hz
    obtain ⟨y, -, hy⟩ := mem_map.mp hmem'
    refine ⟨z, hmem, ?_, fun y hy => ⟨hall y hy, hall' y hy⟩⟩
    rw [← bmod_eq_self_iff, ← hy, Int.bmod_bmod]
  · rintro ⟨z, hmem, hfits, hall⟩
    have hwrap : z ∈ zs.map (·.bmod (2 ^ 64)) :=
      mem_map.mpr ⟨z, hmem, bmod_eq_self_iff.mpr hfits⟩
    rw [ho.mpr ⟨hmem, fun y hy => (hall y hy).1⟩, ho'.mpr ⟨hwrap, fun y hy => (hall y hy).2⟩]

section
variable {parts : List (Option ℤ)} {x : ℤ} {xs : List ℤ} (hparts : parts.reduceOption = x :: xs)
include hparts

theorem gather_onInts (a : Aggregate) : gather a.onInts parts =
    match a with
    | .sum => some (x :: xs).sum
    | .min => (x :: xs).min?
    | .max => (x :: xs).max? := by
  rw [gather, hparts]
  cases a with
  | sum =>
    rw [List.sum_eq_foldl, foldl_cons, zero_add]
    rfl
  | min => exact min?_cons'.symm
  | max => exact max?_cons'.symm

theorem gather_onScores (a : Aggregate) :
    (gather a.onScores (parts.map (Option.map Int64.ofInt))).map Int64.toInt =
      a.wrapped (x :: xs) := by
  rw [gather, reduceOption_map, hparts]
  have hwrap : ∀ z, (Int64.ofInt z).toInt = z.bmod (2 ^ 64) := fun z => Int64.toInt_ofInt
  -- addition commutes with the reduction to 64 bits, the comparisons with the value it gives
  have hfold : ∀ {f : Int64 → Int64 → Int64} {g : ℤ → ℤ → ℤ},
      (∀ b c, (f b c).toInt = g b.toInt c.toInt) →
      (foldl f (.ofInt x) (xs.map .ofInt)).toInt =
        foldl g (x.bmod (2 ^ 64)) (xs.map (·.bmod (2 ^ 64))) := by
    intro f g hfg
    rw [foldl_map, foldl_map, ← hwrap]
    refine (foldl_hom Int64.toInt fun b z => ?_).symm
    rw [hfg, hwrap]
  cases a with
  | sum =>
    rw [Aggregate.wrapped, List.sum_eq_foldl, foldl_cons, zero_add, map_cons, ← hwrap]
    refine congrArg some (congrArg Int64.toInt ?_)
    rw [foldl_map]
    exact foldl_hom Int64.ofInt fun b z => (Int64.ofInt_add b z).symm
  | min =>
    rw [Aggregate.wrapped, map_cons, map_cons, min?_cons']
    refine congrArg some (hfold fun b c => ?_)
    simp only [Aggregate.onScores, gt_iff_lt, Int64.lt_iff_toInt_lt]
    split_ifs <;> omega
  | max =>
    rw [Aggregate.wrapped, map_cons, map_cons, max?_cons']
    refine congrArg some (hfold fun b c => ?_)
    simp only [Aggregate.onScores, gt_iff_lt, Int64.lt_iff_toInt_lt]
    split_ifs <;> omega

theorem wrapped_eq_gather_iff (a : Aggregate) :
    a.wrapped (x :: xs) = gather a.onInts parts ↔ a.Fits (x :: xs) := by
  rw [gather_onInts hparts]
  cases a with
  | sum =>
    rw [Aggregate.wrapped, Option.some.injEq, bmod_eq_self_iff]
    rfl
  | min =>
    unfold Aggregate.wrapped
    exact extreme_wrapped_iff (by simp) min?_eq_some_iff min?_eq_some_iff
  | max =>
    unfold Aggregate.wrapped
    exact extreme_wrapped_iff (r := (· ≥ ·)) (by simp) max?_eq_some_iff max?_eq_some_iff

end

section
variable {op : ZStoreOp} {a : Aggregate} {srcs : List (Bytes × Int64)}
  (hm : exactScore db s op a srcs m ≠ none)
include hm

theorem machineScore_wrapped :
    (machineScore db s op a srcs m).map Int64.toInt = a.wrapped (products db s srcs m) ∧
      (a.wrapped (products db s srcs m) = exactScore db s op a srcs m ↔
        a.Fits (products db s srcs m)) := by
  have hmachine := mt (machineScore_eq_none_iff op a srcs m).mp hm
  have hparts : (srcs.map fun src => (scoreAt db s src.1 m).map (· * src.2)) =
      (srcs.map fun src => (scoreAt db s src.1 m).map fun c => c.toInt * src.2.toInt).map
        (Option.map Int64.ofInt) := by
    rw [map_map]
    refine map_congr_left fun src _ => ?_
    simp only [Function.comp_apply, Option.map_map]
    refine congrArg (Option.map · _) (funext fun c => ?_)
    simp [Int64.ofInt_mul]
  have hexact := combine_eq_gather hm
  rw [machineScore, combine_eq_gather hmachine, hparts, exactScore, hexact]
  unfold exactScore at hm
  rw [hexact, gather] at hm
  unfold products
  cases hred : (srcs.map fun src =>
      (scoreAt db s src.1 m).map fun c => c.toInt * src.2.toInt).reduceOption with
  | nil => simp [hred] at hm
  | cons x xs => exact ⟨gather_onScores hred a, wrapped_eq_gather_iff hred a⟩

end

/-- The mathematical aggregate is stored unless the result is empty or a score wraps round
to another one in the range of scores. -/
theorem stores_aggregate_iff {st : State} (henv : env.Commits) (hs : StoreWf st.store)
    (h : EveryKey (ZWf db) st.store) (op : ZStoreOp) (a : Aggregate) {srcKeys : List Bytes}
    {weights : Option (List Int64)} (hne : srcKeys ≠ [])
    (hw : ∀ ws, weights = some ws → ws.length = srcKeys.length) (destKey : Bytes) :
    let ideal := exactScore db st.store op a (weighted srcKeys weights)
    let parts := products db st.store (weighted srcKeys weights)
    StoresAggregate db env st destKey (op.body db destKey srcKeys weights a.code) ideal ↔
      (∃ k ∈ srcKeys, ¬ ValidKey k) ∨ (∃ m, ideal m ≠ none) ∧ (¬ ValidKey destKey ∨
        (∃ m, ideal m ≠ none ∧
          ∃ z ∈ a.wrapped (parts m), z ≤ MinScore.toInt ∨ MaxScore.toInt ≤ z) ∨
        ∀ m, ideal m ≠ none → a.Fits (parts m)) := by
  intro ideal parts
  by_cases hkeys : ∃ k ∈ srcKeys, ¬ ValidKey k
  · refine iff_of_true (.of_error (e := .errKeySize) fun env => ?_) (.inl hkeys)
    rw [exec, body_invalid hs h op a hw hkeys]
  rw [or_iff_right hkeys]
  push Not at hkeys
  obtain ⟨d, hbody, hget⟩ := body_valid hs h op a hne hw hkeys destKey
  have hvalid : ∀ m, d.get m ≠ none → ValidKey m := by
    intro m hm
    rw [hget] at hm
    exact machineScore_valid hs hm
  have hnone : ∀ m, d.get m = none ↔ ideal m = none := by
    intro m
    rw [hget]
    exact machineScore_eq_none_iff op a _ m
  rw [stores_map_iff henv hs h hbody hvalid hnone]
  refine and_congr_right fun _ => or_congr_right (or_congr (exists_congr fun m => ?_)
    (forall_congr' fun m => ?_))
  · by_cases hm : ideal m = none
    · simp [hm, (hnone m).mpr hm]
    · have hwrapped := (machineScore_wrapped hm).1
      rw [← hget] at hwrapped
      rw [and_iff_right hm, ← hwrapped]
      simp [InRange.toInt_iff, -not_and, not_and_or]
  · by_cases hm : ideal m = none
    · simp [hm, (hnone m).mpr hm]
    · obtain ⟨hwrapped, hfits⟩ := machineScore_wrapped hm
      rw [hget, hwrapped, imp_iff_right hm]
      exact hfits

theorem twoMembers_scoreAt (h : scoreAt DB.zero twoMembers [122] m = some c) : c = 3 ∨ c = -5 := by
  have hmem : members zero twoMembers .ZSET [122] = {[97], [98]} := by decide
  have hin : m ∈ members zero twoMembers .ZSET [122] := by
    rw [mem_members_scoreAt, h]
    rfl
  rw [hmem, Finset.mem_insert, Finset.mem_singleton] at hin
  rcases hin with rfl | rfl
  · left
    exact Option.some.inj (h.symm.trans (by decide))
  · right
    exact Option.some.inj (h.symm.trans (by decide))

theorem stores_aggregate_of_two :
    StoresAggregate DB.zero (Env.quiet 0) ⟨twoMembers, 0⟩ [122]
      (DB.zero.ZUnionStore [122] [[122], [122]] (some [2, 3]) AggregateSum)
      (exactScore DB.zero twoMembers .union .sum [([122], 2), ([122], 3)]) ∧
    (exec (Env.quiet 0) (DB.zero.ZUnionStore [122] [[122], [122]] (some [2, 3]) AggregateSum)
      ⟨twoMembers, 0⟩).1 = .ok 2 := by
  have hiff := @stores_aggregate_iff DB.zero (Env.quiet 0) ⟨twoMembers, 0⟩ ⟨rfl, fun _ _ => rfl⟩
    twoMembers_reached.wf twoMembers_everyKey .union .sum [[122], [122]] (some [2, 3]) (by decide)
    (by simp) [122]
  refine ⟨hiff.mpr (.inr ⟨⟨[97], by decide⟩, .inr (.inr fun m hm => ?_)⟩), by decide⟩
  simp only [exactScore, products, weighted, List.zip_cons_cons, List.zip_nil_right,
    List.map_cons, List.map_nil] at hm ⊢
  cases hscore : scoreAt DB.zero twoMembers [122] m with
  | none => simp [hscore, ZStoreOp.combine, gather] at hm
  | some c => rcases twoMembers_scoreAt hscore with rfl | rfl <;> exact ⟨by decide, by decide⟩

theorem stores_wrapped_and_empty :
    let wrapped := exec (Env.quiet 0) (DB.zero.ZUnionStore [99] [[122]] (some [2 ^ 62])
      AggregateSum) ⟨twoMembers, 0⟩;
    let empty := exec (Env.quiet 0) (DB.zero.ZInterStore [99] [[122], [120]] none AggregateSum)
      ⟨twoMembers, 0⟩;
    StoreWf twoMembers ∧ EveryKey (ZWf DB.zero) twoMembers ∧
    wrapped.1 = .ok 2 ∧ scoreAt DB.zero wrapped.2.store [99] [97] = some (-2 ^ 62) ∧
    exactScore DB.zero twoMembers .union .sum [([122], 2 ^ 62)] [97] = some (3 * 2 ^ 62) ∧
    ¬ StoresAggregate DB.zero (Env.quiet 0) ⟨twoMembers, 0⟩ [99]
      (DB.zero.ZUnionStore [99] [[122]] (some [2 ^ 62]) AggregateSum)
      (exactScore DB.zero twoMembers .union .sum [([122], 2 ^ 62)]) ∧
    empty.1 = .ok 0 ∧ members DB.zero empty.2.store .ZSET [99] = ∅ ∧
    (DB.zero.ZKeyExists [99]).eval (Env.quiet 0) empty.2.store = .ok 1 ∧
    ¬ StoresAggregate DB.zero (Env.quiet 0) ⟨twoMembers, 0⟩ [99]
      (DB.zero.ZInterStore [99] [[122], [120]] none AggregateSum)
      (exactScore DB.zero twoMembers .inter .sum [([122], 1), ([120], 1)]) := by
  intro wrapped empty
  have htwo : wrapped.1 = .ok 2 := by decide +kernel
  have hexact : exactScore DB.zero twoMembers .union .sum [([122], 2 ^ 62)] [97] =
    some (3 * 2 ^ 62) := by decide +kernel
  have hzero : empty.1 = .ok 0 := by decide
  have hnone : members DB.zero empty.2.store .ZSET [99] = ∅ := by decide
  have hexists : (DB.zero.ZKeyExists [99]).eval (Env.quiet 0) empty.2.store = .ok 1 := by decide
  refine ⟨twoMembers_reached.wf, twoMembers_everyKey, htwo, by decide +kernel, hexact, fun h => ?_,
    hzero, hnone, hexists, fun h => ?_⟩
  · obtain ⟨e, he⟩ := h.overflow ⟨[97], _, hexact, by decide⟩
    have hno := congrArg Prod.fst he
    rw [htwo] at hno
    cases hno
  · have hrun : exec (Env.quiet 0) (DB.zero.ZInterStore [99] [[122], [120]] none AggregateSum)
        ⟨twoMembers, 0⟩ = (.ok 0, empty.2) := by
      rw [← hzero]
    have hno := ((h.stored 0 empty.2 hrun).absent hnone).2 (Env.quiet 0)
    cases hno

end

end LedisDB
