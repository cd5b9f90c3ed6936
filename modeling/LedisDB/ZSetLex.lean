import LedisDB.MultiWrite

/-!
# Removing a lexicographic range

`ZRemRangeByLex` deletes the member entries that `ZRangeByLex` lists and nothing else, so
the scores, the size and the TTL stay as they were.
-/

namespace LedisDB

namespace DB

def zMembers (db : DB) (es : List (Bytes × Bytes)) : List Bytes :=
  es.filterMap fun e =>
    match db.zDecodeSetKey e.1 with
    | .ok (_, m) => some m
    | .error _ => none

def ZRangeByLex (db : DB) (key : Bytes) (min max : Option Bytes) (rangeType : UInt8)
    (offset count : ℤ) : Op (List Bytes) := do
  let es ← Op.range (db.zLexRange key min max rangeType) ⟨offset, count⟩ .forward
  pure (db.zMembers es)

def ZLexCount (db : DB) (key : Bytes) (min max : Option Bytes) (rangeType : UInt8) : Op Int64 := do
  let es ← Op.range (db.zLexRange key min max rangeType) ⟨0, -1⟩ .forward
  pure (Int64.ofNat es.length)

end DB

section
variable {db : DB} {env : Env} {s : Store} {key : Bytes} {st : State}

theorem zMembers_keys {es : List (Bytes × Bytes)}
    (h : ∀ e ∈ es, ∃ m, e.1 = db.zEncodeSetKey key m ∧ key.length ≤ DB.MaxUint16) :
    es.map Prod.fst = (db.zMembers es).map (db.zEncodeSetKey key) := by
  induction es with
  | nil => rfl
  | cons e es ih =>
    obtain ⟨m, he, hk⟩ := h e (.head _)
    have hdec : db.zDecodeSetKey e.1 = .ok (key, m) := by
      rw [he, db.zDecodeSetKey_zEncodeSetKey m hk]
    rw [List.map_cons, ih fun e' he' => h e' (.tail e he'), he]
    simp [DB.zMembers, hdec]

theorem lex_entry (hs : StoreWf s) {min max : Option Bytes} {rangeType : UInt8} {e : Bytes × Bytes}
    (he : e ∈ s.rangeLimit (db.zLexRange key min max rangeType) ⟨0, -1⟩ .forward) :
    ∃ m, e.1 = db.zEncodeSetKey key m ∧ checkZSetKMSize key m = .ok () ∧
      m ∈ members db s .ZSET key := by
  obtain ⟨a, b, hab⟩ := zLexRange_items key min max rangeType
  have hget := (OrderedMap.mem_rangeLimit_all.mp he).1
  rw [hab] at he
  obtain ⟨hst, x, hx⟩ := hs.of_range (T := .ZSET) (by decide) he
  generalize hek : e.1 = ek at hst hx hget
  cases hst with
  | zsize | zscore => exact absurd (DB.plainKey_inj.mp hx).2.1 (by decide)
  | @zmember _ m hk hm =>
    refine ⟨m, rfl, checkKMSize_ok.mpr ⟨hk, hm⟩, ?_⟩
    rw [mem_members, ← zEncodeSetKey_front, hget]
    rfl

theorem lex_scan (db : DB) (hs : StoreWf s) (key : Bytes) (min max : Option Bytes)
    (rangeType : UInt8) :
    ∃ ms : List Bytes, db.zMembers (s.rangeLimit (db.zLexRange key min max rangeType) ⟨0, -1⟩
        .forward) = ms ∧
      (s.rangeLimit (db.zLexRange key min max rangeType) ⟨0, -1⟩ .forward).map Prod.fst =
        ms.map (db.zEncodeSetKey key) ∧
      ∀ m ∈ ms, checkZSetKMSize key m = .ok () ∧ m ∈ members db s .ZSET key := by
  have hkeys : (s.rangeLimit (db.zLexRange key min max rangeType) ⟨0, -1⟩ .forward).map Prod.fst =
      (db.zMembers (s.rangeLimit (db.zLexRange key min max rangeType) ⟨0, -1⟩ .forward)).map
        (db.zEncodeSetKey key) := by
    refine zMembers_keys fun e he => ?_
    obtain ⟨m, hem, hcheck, -⟩ := lex_entry hs he
    exact ⟨m, hem, le_uint16 (checkKMSize_ok.mp hcheck).1.2⟩
  refine ⟨_, rfl, hkeys, fun m hm => ?_⟩
  have hkey := List.mem_map_of_mem (f := db.zEncodeSetKey key) hm
  rw [← hkeys] at hkey
  obtain ⟨e, he, hem⟩ := List.mem_map.mp hkey
  obtain ⟨m', hem', hm'⟩ := lex_entry hs he
  obtain rfl := zEncodeSetKey_inj.mp (hem.symm.trans hem')
  exact hm'

theorem zEncodeSetKey_lt_iff {m m' : Bytes} :
    db.zEncodeSetKey key m < db.zEncodeSetKey key m' ↔ m < m' := by
  rw [zEncodeSetKey_front, zEncodeSetKey_front, Lexicographic.append_lt_append_iff]

theorem zEncodeSetKey_le_iff {m m' : Bytes} :
    db.zEncodeSetKey key m ≤ db.zEncodeSetKey key m' ↔ m ≤ m' := by
  rw [zEncodeSetKey_front, zEncodeSetKey_front, Lexicographic.append_le_append_iff]

theorem lex_members (hs : StoreWf s) (min max : Option Bytes) (rangeType : UInt8) :
    ∃ ms : List Bytes, ms.Pairwise (· < ·) ∧
      (∀ m, m ∈ ms ↔ (s.get (db.zEncodeSetKey key m)).isSome ∧
        (db.zLexRange key min max rangeType).aboveMin (db.zEncodeSetKey key m) = true ∧
        (db.zLexRange key min max rangeType).belowMax (db.zEncodeSetKey key m) = true) ∧
      (∀ env offset count, (db.ZRangeByLex key min max rangeType offset count).eval env s =
        .ok (Limit.apply ⟨offset, count⟩ ms)) ∧
      ∀ env, (db.ZLexCount key min max rangeType).eval env s = .ok (Int64.ofNat ms.length) := by
  obtain ⟨ms, hms, hkeys, hvalid⟩ := lex_scan db hs key min max rangeType
  refine ⟨ms, ?_, fun m => ?_, fun env offset count => ?_, fun env => ?_⟩
  · have hsorted := List.pairwise_map.mpr (s.rangeLimit_sorted (db.zLexRange key min max rangeType))
    rw [hkeys, List.pairwise_map] at hsorted
    exact hsorted.imp fun h => zEncodeSetKey_lt_iff.mp h
  · have hmem : m ∈ ms ↔ db.zEncodeSetKey key m ∈ (s.rangeLimit
        (db.zLexRange key min max rangeType) ⟨0, -1⟩ .forward).map Prod.fst := by
      rw [hkeys, List.mem_map_of_injective fun _ _ h => zEncodeSetKey_inj.mp h]
    rw [hmem, List.mem_map, Option.isSome_iff_exists]
    constructor
    · rintro ⟨e, he, heq⟩
      obtain ⟨hget, hmin, hmax⟩ := OrderedMap.mem_rangeLimit_all.mp he
      rw [heq] at hget hmin hmax
      exact ⟨⟨e.2, hget⟩, hmin, hmax⟩
    · rintro ⟨⟨v, hget⟩, hmin, hmax⟩
      exact ⟨(_, v), OrderedMap.mem_rangeLimit_all.mpr ⟨hget, hmin, hmax⟩, rfl⟩
  · have hslice : (s.rangeLimit (db.zLexRange key min max rangeType) ⟨offset, count⟩
        .forward).map Prod.fst = (Limit.apply ⟨offset, count⟩ ms).map (db.zEncodeSetKey key) := by
      rw [rangeLimit_slice, Limit.apply_map, Limit.apply_map, ← hkeys]
      rfl
    have hdecoded := @zMembers_keys db key (s.rangeLimit (db.zLexRange key min max rangeType)
      ⟨offset, count⟩ .forward) fun e he => by
        rw [rangeLimit_slice] at he
        obtain ⟨m, hem, hcheck, -⟩ := lex_entry hs ((Limit.apply_sublist _ _).subset he)
        exact ⟨m, hem, le_uint16 (checkKMSize_ok.mp hcheck).1.2⟩
    have hlist := (List.map_injective_iff.mpr fun _ _ h => zEncodeSetKey_inj.mp h)
      (hdecoded.symm.trans hslice)
    simp [Op.eval, DB.ZRangeByLex, hlist]
  · have hlen := congrArg List.length hkeys
    rw [List.length_map] at hlen
    simp [Op.eval, DB.ZLexCount, hlen]

/-- Removing a range gives the number of members it lists, and leaves what `ZRem` of them
would leave exactly when it lists none. -/
theorem zRemRangeByLex_eq_zRem_iff (henv : env.Commits) (hs : StoreWf st.store)
    (h : ZWf db st.store key) (min max : Option Bytes) (rangeType : UInt8) :
    ∃ ms, (db.ZRangeByLex key min max rangeType 0 (-1)).eval env st.store = .ok ms ∧
      (exec env (db.ZRemRangeByLex key min max rangeType) st).1 = .ok (Int64.ofNat ms.length) ∧
      ((exec env (db.ZRemRangeByLex key min max rangeType) st).2.store =
        (exec env (db.ZRem key ms) st).2.store ↔ ms = []) := by
  obtain ⟨ms, hms, hkeys, hvalid⟩ := lex_scan db hs key min max rangeType
  have hexec : exec env (db.ZRemRangeByLex key min max rangeType) st =
      (.ok (Int64.ofNat ms.length), ⟨st.store.applyBatch
        ((ms.map (db.zEncodeSetKey key)).map .delete), st.nc⟩) := by
    have hlen := congrArg List.length hkeys
    rw [List.length_map] at hlen
    simp [exec, DB.ZRemRangeByLex, hkeys, hlen, henv.commit]
  refine ⟨ms, by simp [Op.eval, DB.ZRangeByLex, hms], by rw [hexec], ?_⟩
  rw [hexec]
  constructor
  · intro hstore
    by_contra hne
    obtain ⟨m, hm⟩ := List.exists_mem_of_ne_nil ms hne
    obtain ⟨hcheck, hmem⟩ := hvalid m hm
    have hk := le_uint16 (checkKMSize_ok.mp hcheck).1.2
    rw [mem_members, ← zEncodeSetKey_front] at hmem
    obtain ⟨v, hv⟩ := Option.isSome_iff_exists.mp hmem
    obtain ⟨c, rfl, -⟩ := h.indexed.scored m v hv
    obtain ⟨b, hb, hrem⟩ := ZRem_exec henv h (fun m hm => (hvalid m hm).1) hne
    -- the score entry stays, and `ZRem` deletes it
    have hstays : (st.store.applyBatch ((ms.map (db.zEncodeSetKey key)).map .delete)).get
        (db.zEncodeScoreKey key m c) = st.store.get (db.zEncodeScoreKey key m c) := by
      refine get_applyBatch_of_not_mem _ fun o ho heq => ?_
      obtain ⟨ek, hek, rfl⟩ := List.mem_map.mp ho
      obtain ⟨m', -, rfl⟩ := List.mem_map.mp hek
      exact zEncodeScoreKey_ne_set m m' c heq.symm
    have hgone : (exec env (db.ZRem key ms) st).2.store.get (db.zEncodeScoreKey key m c) =
        none := by
      rw [hrem, applyBatch_append]
      refine (sizeBatch_get_item (by decide) _ key _ _).trans ?_
      exact (hb.get_score hk h.indexed m c).trans (if_pos hm)
    have hsome := (h.indexed.index m c).mpr hv
    have hsame := (congrArg (·.get (db.zEncodeScoreKey key m c)) hstore).trans hgone
    rw [← hstays, hsame] at hsome
    cases hsome
  · rintro rfl
    rfl

theorem zRemRangeByLex_eq_zRem_above :
    ∃ ms, (DB.zero.ZRangeByLex [122] (some [120]) none RangeClose 0 (-1)).eval (Env.quiet 0)
        twoMembers = .ok ms ∧
      (exec (Env.quiet 0) (DB.zero.ZRemRangeByLex [122] (some [120]) none RangeClose)
        ⟨twoMembers, State.empty.nc⟩).1 = .ok (Int64.ofNat ms.length) ∧
      ((exec (Env.quiet 0) (DB.zero.ZRemRangeByLex [122] (some [120]) none RangeClose)
        ⟨twoMembers, State.empty.nc⟩).2.store = (exec (Env.quiet 0) (DB.zero.ZRem [122] ms)
          ⟨twoMembers, State.empty.nc⟩).2.store ↔ ms = []) :=
  @zRemRangeByLex_eq_zRem_iff DB.zero (Env.quiet 0) [122] ⟨twoMembers, State.empty.nc⟩
    ⟨rfl, fun _ _ => rfl⟩ twoMembers_reached.wf twoMembers_zwf (some [120]) none RangeClose

theorem zRemRangeByLex_leaves_scores :
    let removed := exec (Env.quiet 0) (DB.zero.ZRemRangeByLex [122] none none RangeClose)
      ⟨twoMembers, State.empty.nc⟩
    let listed := exec (Env.quiet 0) (DB.zero.ZRem [122] [[97], [98]])
      ⟨twoMembers, State.empty.nc⟩
    ZWf DB.zero twoMembers [122] ∧
    (DB.zero.ZRangeByLex [122] none none RangeClose 0 (-1)).eval (Env.quiet 0) twoMembers =
      .ok [[97], [98]] ∧
    removed.1 = .ok 2 ∧ listed.1 = .ok 2 ∧
    removed.2.store.get (DB.zero.zEncodeScoreKey [122] [97] 3) = some [] ∧
    listed.2.store.get (DB.zero.zEncodeScoreKey [122] [97] 3) = none ∧
    removed.2.store.get (DB.zero.zEncodeSizeKey [122]) = some (PutInt64 2) ∧
    listed.2.store.get (DB.zero.zEncodeSizeKey [122]) = none := by
  refine ⟨twoMembers_zwf, by decide, by decide, by decide, by decide, by decide, by decide,
    by decide⟩

end

end LedisDB
