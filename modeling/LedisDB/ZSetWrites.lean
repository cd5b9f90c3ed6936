import LedisDB.ZSetIndex

/-!
# What the zset operations keep

`ZWf` joins the two indexes of `Indexed` with the size entry of `Counted`. For
each operation a lemma says on which arguments its queue keeps both; a range
removal does so always, and with the widest range it clears the key.
-/

namespace LedisDB

open List Op

structure ZWf (db : DB) (s : Store) (key : Bytes) : Prop where
  indexed : Indexed db s key
  counted : Counted db s .ZSET key

section
variable {db : DB} {env : Env} {s m₀ : Store} {st : State} {key k m member : Bytes} {u t : Txn}
  {X ms srcKeys keys : List Bytes} {b : Batch} {n c delta : Int64} {r : Ret Int64}
  {L : List (Bytes × Int64)} {es : List (Bytes × Bytes)} {a : ScorePair} {args : List ScorePair}
  {destMap : DB.ScoreMap} {weights : Option (List Int64)} {aggregate : UInt8}

theorem le_uint16 (hk : k.length ≤ MaxKeySize) : k.length ≤ DB.MaxUint16 := hk.trans (by decide)

theorem keyLocal_zwf : KeyLocal db .ZSET (ZWf db) := by
  intro s s' k hsame h
  refine ⟨h.indexed.congr (fun m => hsame _ (.zmember k m)) fun m c => hsame _ (.zscore k m c), ?_⟩
  exact keyLocal_counted (by simp) s s' k hsame h.counted

theorem ZWf.empty (db : DB) (key : Bytes) : ZWf db OrderedMap.empty key :=
  ⟨Indexed.empty db key, Counted.empty db .ZSET key⟩

theorem ZWf.remove (h : ZWf db s key) (hk : key.length ≤ MaxKeySize) (hr : Removes db s key X b)
    (hX : RemovesOnce (members db s .ZSET key) X) :
    ZWf db (s.applyBatch (b ++ db.sizeBatch s (sizeKey db .ZSET key) ZSetType key
      (Int64.ofNat (members db s .ZSET key).card +
        -Int64.ofNat (X.filter (· ∈ members db s .ZSET key)).length))) key := by
  rw [applyBatch_append]
  refine ⟨(hr.indexed (le_uint16 hk) h.indexed).sizeBatch _,
    counted_sizeBatch (by decide) ?_ ?_⟩ <;> rw [hr.members h.indexed]
  · exact lt_of_le_of_lt (Finset.card_le_card Finset.sdiff_subset) h.counted.card_lt
  · exact hX.toInt h.counted.card_lt

theorem zDelItem_ok (hs : Indexed db s key) (h : db.zDelItem key m false env s u = (.ok n, t)) :
    ∃ b, t = u.queue b ∧ Removes db s key [m] b ∧
      n = if (s.get (db.zEncodeSetKey key m)).isSome then 1 else 0 := by
  obtain ⟨_, _, hg, h1⟩ := bind_ok.mp h
  cases hg
  cases hv : s.get (db.zEncodeSetKey key m) with
  | none =>
    simp only [hv] at h1
    cases h1
    refine ⟨[], by simp, ⟨forall_mem_nil _, ?_⟩, rfl⟩
    intro m' hm' c' hc'
    rw [mem_singleton] at hm'
    rw [hm', hv] at hc'
    cases hc'
  | some v =>
    obtain ⟨c, rfl, -⟩ := hs.scored m v hv
    simp only [hv, decodeInt64_PutInt64] at h1
    cases h1
    refine ⟨[.delete (db.zEncodeScoreKey key m c), .delete (db.zEncodeSetKey key m)],
      by simp, ⟨?_, ?_⟩, rfl⟩
    · intro o ho
      refine ⟨m, mem_singleton_self m, c, hv, ?_⟩
      simpa [or_comm] using ho
    · intro m' hm' c' hc'
      rw [mem_singleton] at hm'
      subst hm'
      have hcc := PutInt64_inj (Option.some.inj (hv.symm.trans hc'))
      simp [hcc]

theorem zDelItem_run (hs : Indexed db s key) (env : Env) (u : Txn) (m : Bytes) :
    ∃ n t, db.zDelItem key m false env s u = (.ok n, t) := by
  simp only [DB.zDelItem, bind_run, get_run]
  cases hv : s.get (db.zEncodeSetKey key m) with
  | none => exact ⟨_, _, rfl⟩
  | some v =>
    obtain ⟨c, rfl, -⟩ := hs.scored m v hv
    exact ⟨_, _, rfl⟩

theorem zRemLoop_ok (hs : Indexed db s key) {num r : Int64}
    (h : db.zRemLoop key ms num env s u = (.ok r, t)) : ∃ b, t = u.queue b ∧ Removes db s key ms b ∧
      r = num + Int64.ofNat (ms.filter (· ∈ members db s .ZSET key)).length ∧
      ∀ m ∈ ms, checkZSetKMSize key m = .ok () := by
  induction ms generalizing num u with
  | nil =>
    cases h
    exact ⟨[], by simp, Removes.nil, by simp, forall_mem_nil _⟩
  | cons m ms ih =>
    obtain ⟨_, u, hc, h1⟩ := bind_ok.mp h
    obtain ⟨hcheck, rfl⟩ := lift_ok.mp hc
    obtain ⟨n, _, hd, h2⟩ := bind_ok.mp h1
    obtain ⟨b, rfl, hb, hn⟩ := zDelItem_ok hs hd
    obtain ⟨bs, rfl, hbs, rfl, hall⟩ := ih h2
    refine ⟨b ++ bs, by simp, hb.append hbs, ?_, ?_⟩
    · have hm : m ∈ members db s .ZSET key ↔ (s.get (db.zEncodeSetKey key m)).isSome := by
        rw [mem_members, zEncodeSetKey_front]
      by_cases hin : (s.get (db.zEncodeSetKey key m)).isSome
      · simp [hn, hin, hm, Int64.add_assoc, Int64.add_comm]
      · simp [hn, hin, hm]
    · simpa using ⟨hcheck, hall⟩

theorem zRemLoop_run (hs : Indexed db s key) (env : Env)
    (h : ∀ m ∈ ms, checkZSetKMSize key m = .ok ()) (num : Int64) (u : Txn) :
    ∃ r t, db.zRemLoop key ms num env s u = (.ok r, t) := by
  induction ms generalizing num u with
  | nil => exact ⟨num, u, rfl⟩
  | cons m ms ih =>
    obtain ⟨n, t, hdel⟩ := zDelItem_run hs env u m
    simp only [DB.zRemLoop, bind_run, lift_run, h m (.head _), hdel]
    exact ih (fun m' hm' => h m' (.tail m hm')) _ _

theorem ZRem_zwf (h : ZWf db s key) (hk : key.length ≤ MaxKeySize)
    (hms : (∀ m ∈ ms, checkZSetKMSize key m = .ok ()) → RemovesOnce (members db s .ZSET key) ms)
    (hr : db.ZRem key ms env s ⟨[], u.nc⟩ = (.ok r, t)) : ZWf db (s.applyBatch t.batch) key := by
  unfold DB.ZRem at hr
  split_ifs at hr
  · cases hr
    exact h
  · obtain ⟨num, _, hl, h1⟩ := bind_ok.mp hr
    obtain ⟨b, rfl, hb, rfl, hcheck⟩ := zRemLoop_ok h.indexed hl
    obtain ⟨_, _, hn, h2⟩ := bind_ok.mp h1
    obtain rfl := incrSize_ok h.counted.decode hn
    cases h2
    simp only [Int64.zero_add]
    exact h.remove hk hb (hms hcheck)

def zRemBatch (db : DB) (s : Store) (key : Bytes) (L : List (Bytes × Int64)) : Batch :=
  L.flatMap fun p => (if (s.get (db.zEncodeSetKey key p.1)).isSome
    then [.delete (db.zEncodeSetKey key p.1)] else []) ++ [.delete (db.zEncodeScoreKey key p.1 p.2)]

theorem zRemRangeLoop_queue (hk : key.length ≤ MaxKeySize)
    (hes : es.map Prod.fst = L.map fun p => db.zEncodeScoreKey key p.1 p.2) (env : Env) (u : Txn)
    (num : Int64) : db.zRemRangeLoop key es num env s u = (.ok (num + Int64.ofNat (L.filter fun p =>
        (s.get (db.zEncodeSetKey key p.1)).isSome).length), u.queue (zRemBatch db s key L)) := by
  induction L generalizing es num u with
  | nil =>
    obtain rfl : es = [] := by simpa using hes
    simp [DB.zRemRangeLoop, zRemBatch]
  | cons p L ih =>
    cases es with
    | nil => simp at hes
    | cons e es =>
      obtain ⟨m, c⟩ := p
      rw [map_cons, map_cons, cons.injEq] at hes
      rw [DB.zRemRangeLoop, hes.1, db.zDecodeScoreKey_zEncodeScoreKey m c (le_uint16 hk)]
      cases hv : s.get (db.zEncodeSetKey key m) with
      | none => simp [DB.zDelItem, hv, ih hes.2, zRemBatch]
      | some v =>
        simp [DB.zDelItem, hv, ih hes.2, zRemBatch, Int64.add_assoc, Int64.add_comm]

theorem zRemBatch_removes (hL : ∀ p ∈ L, s.get (db.zEncodeSetKey key p.1) = some (PutInt64 p.2)) :
    Removes db s key (L.map Prod.fst) (zRemBatch db s key L) := by
  induction L with
  | nil => exact Removes.nil
  | cons p L ih =>
    obtain ⟨m, c⟩ := p
    have hv := hL _ (.head _)
    have hone : Removes db s key [m] [.delete (db.zEncodeSetKey key m),
        .delete (db.zEncodeScoreKey key m c)] := by
      constructor
      · intro o ho
        exact ⟨m, mem_singleton_self m, c, hv, by simpa using ho⟩
      · intro m' hm' c' hc'
        rw [mem_singleton] at hm'
        subst hm'
        have hcc : c = c' := PutInt64_inj (Option.some.inj (hv.symm.trans hc'))
        simp [hcc]
    have hcons : zRemBatch db s key ((m, c) :: L) = [.delete (db.zEncodeSetKey key m),
        .delete (db.zEncodeScoreKey key m c)] ++ zRemBatch db s key L := by
      simp [zRemBatch, hv]
    rw [hcons]
    exact hone.append (ih fun p hp => hL p (.tail _ hp))

theorem zRemRangeLoop_run (env : Env) (u : Txn) (hk : key.length ≤ MaxKeySize)
    (hL : ∀ p ∈ L, s.get (db.zEncodeSetKey key p.1) = some (PutInt64 p.2))
    (hes : es.map Prod.fst = L.map fun p => db.zEncodeScoreKey key p.1 p.2) (num : Int64) :
    ∃ b, db.zRemRangeLoop key es num env s u = (.ok (num + Int64.ofNat L.length), u.queue b) ∧
      Removes db s key (L.map Prod.fst) b := by
  have hall : L.filter (fun p => (s.get (db.zEncodeSetKey key p.1)).isSome) = L :=
    filter_eq_self.mpr fun p hp => by rw [hL p hp]; rfl
  refine ⟨zRemBatch db s key L, ?_, zRemBatch_removes hL⟩
  rw [zRemRangeLoop_queue hk hes, hall]

theorem stored_nodup (hnd : L.Nodup)
    (hL : ∀ p ∈ L, s.get (db.zEncodeSetKey key p.1) = some (PutInt64 p.2)) :
    (L.map Prod.fst).Nodup := by
  refine List.Nodup.map_on ?_ hnd
  rintro ⟨m, c⟩ hp ⟨m', c'⟩ hq h
  subst h
  have hc : some (PutInt64 c) = some (PutInt64 c') := (hL (m, c) hp).symm.trans (hL (m, c') hq)
  rw [PutInt64_inj (Option.some.inj hc)]

theorem stored_members (hL : ∀ p ∈ L, s.get (db.zEncodeSetKey key p.1) = some (PutInt64 p.2)) :
    ∀ x ∈ L.map Prod.fst, x ∈ members db s .ZSET key := by
  intro x hx
  obtain ⟨p, hp, rfl⟩ := mem_map.mp hx
  rw [mem_members, ← zEncodeSetKey_front, hL p hp]
  rfl

theorem filter_members (h : ∀ x ∈ X, x ∈ members db s .ZSET key) :
    X.filter (· ∈ members db s .ZSET key) = X :=
  filter_eq_self.mpr fun x hx => decide_eq_true (h x hx)

theorem zRemRange_scan (h : ZWf db s key) (hk : key.length ≤ MaxKeySize) (env : Env) (u : Txn)
    {min max : Int64} {offset count : ℤ}
    (hL : (s.rangeLimit ⟨some (db.zEncodeStartScoreKey key min),
      some (db.zEncodeStopScoreKey key max), RangeClose⟩ ⟨offset, count⟩ .forward).map Prod.fst =
        L.map fun p => db.zEncodeScoreKey key p.1 p.2)
    (hst : ∀ p ∈ L, s.get (db.zEncodeSetKey key p.1) = some (PutInt64 p.2)) :
    ∃ b, Removes db s key (L.map Prod.fst) b ∧
      db.zRemRange key min max offset count env s u = (.ok (Int64.ofNat L.length),
        u.queue ((b ++ db.sizeBatch s (sizeKey db .ZSET key) ZSetType key
          (Int64.ofNat (members db s .ZSET key).card + -Int64.ofNat
            ((L.map Prod.fst).filter (· ∈ members db s .ZSET key)).length)))) := by
  obtain ⟨b, hrun, hb⟩ := zRemRangeLoop_run env u hk hst hL 0
  rw [Int64.zero_add] at hrun
  obtain ⟨n, hn⟩ := incrSize_run db env (u.queue b) ZSetType key
    (-Int64.ofNat L.length) h.counted.decode
  have hn' : db.zIncrSize key (-Int64.ofNat L.length) env s (u.queue b) =
    _ := hn
  refine ⟨b, hb, ?_⟩
  simp only [DB.zRemRange, DB.zIterator, not_lt.mpr hk, Bool.false_eq_true, if_false,
    bind_run, range_run, hrun, hn', pure_run]
  rw [filter_members (stored_members hst), length_map, Txn.queue_queue]

theorem zRemRange_run (hw : StoreWf s) (h : ZWf db s key) (hk : key.length ≤ MaxKeySize)
    (env : Env) (u : Txn) (min max : Int64) (offset count : ℤ) :
    ∃ n X b, db.zRemRange key min max offset count env s u =
        (.ok n, u.queue ((b ++ db.sizeBatch s (sizeKey db .ZSET key) ZSetType
          key (Int64.ofNat (members db s .ZSET key).card +
            -Int64.ofNat (X.filter (· ∈ members db s .ZSET key)).length)))) ∧
      Removes db s key X b ∧ X.Nodup ∧
      (min = MinScore ∧ max = MaxScore ∧ offset = 0 ∧ count = -1 →
        X.toFinset = members db s .ZSET key) := by
  obtain ⟨L, hL, hLnd, hLsome⟩ := zIterator_scan hw min max ⟨offset, count⟩
  have hst : ∀ p ∈ L, s.get (db.zEncodeSetKey key p.1) = some (PutInt64 p.2) :=
    fun p hp => (h.indexed.index p.1 p.2).mp (hLsome p hp)
  obtain ⟨b, hb, hrun⟩ := zRemRange_scan h hk env u hL hst
  refine ⟨Int64.ofNat L.length, L.map Prod.fst, b, hrun, hb, stored_nodup hLnd hst, ?_⟩
  rintro ⟨rfl, rfl, rfl, rfl⟩
  ext x
  rw [mem_toFinset]
  refine ⟨stored_members hst x, fun hx => ?_⟩
  rw [mem_members, ← zEncodeSetKey_front] at hx
  obtain ⟨v, hv⟩ := Option.isSome_iff_exists.mp hx
  obtain ⟨c, rfl, hc⟩ := h.indexed.scored x v hv
  have hmem := zIterator_full hc ((h.indexed.index x c).mpr hv)
  rw [hL] at hmem
  obtain ⟨p, hp, heq⟩ := mem_map.mp hmem
  exact mem_map.mpr ⟨p, hp, ((zEncodeScoreKey_inj (le_uint16 hk)).mp heq).1⟩

theorem zRemRange_zwf (hw : StoreWf s) (h : ZWf db s key) (hk : key.length ≤ MaxKeySize)
    {min max : Int64} {offset count : ℤ}
    (hr : db.zRemRange key min max offset count env s ⟨[], u.nc⟩ = (.ok n, t)) :
    ZWf db (s.applyBatch t.batch) key := by
  obtain ⟨_, X, b, hrun, hb, hnd, -⟩ := zRemRange_run hw h hk env ⟨[], u.nc⟩ min max offset count
  rw [hrun] at hr
  cases hr
  exact h.remove hk hb (.inl (hnd.filter _))

/-- A queue that clears a zset: it deletes the size entry and every member in both
indexes and puts nothing of the key. -/
structure ZClears (db : DB) (s : Store) (key : Bytes) (b : Batch) : Prop where
  clears : Clears db s .ZSET key b
  score : ∀ m c, (s.get (db.zEncodeScoreKey key m c)).isSome →
    .delete (db.zEncodeScoreKey key m c) ∈ b

theorem ZClears.get_score (h : ZClears db s key b) (m : Bytes) (c : Int64) :
    (s.applyBatch b).get (db.zEncodeScoreKey key m c) = none := by
  apply h.clears.deletes.get_none
  by_cases hc : (s.get (db.zEncodeScoreKey key m c)).isSome
  · exact .inr (h.score m c hc)
  · left
    simpa using hc

theorem ZClears.indexed (h : ZClears db s key b) : Indexed db (s.applyBatch b) key := by
  have hmem : ∀ m, (s.applyBatch b).get (db.zEncodeSetKey key m) = none := by
    intro m
    rw [zEncodeSetKey_front]
    exact h.clears.get_member m
  constructor
  · intro m v hv
    rw [hmem] at hv
    cases hv
  · intro m c
    rw [h.get_score, hmem]
    simp

theorem ZClears.zwf (h : ZClears db s key b) : ZWf db (s.applyBatch b) key :=
  ⟨h.indexed, h.clears.counted⟩

theorem ZClears.of_subset {a : Batch} (h : ZClears db s key a) (hb : Deletes b)
    (hab : ∀ o ∈ a, o ∈ b) : ZClears db s key b :=
  ⟨h.clears.of_subset hb hab, fun m c hc => hab _ (h.score m c hc)⟩

theorem clearing_zclears : Clearing (ZClears db s) where
  deletes := fun h => h.clears.deletes
  mono := ZClears.of_subset

theorem zRemRange_clears (hw : StoreWf s) (h : ZWf db s key) (hk : key.length ≤ MaxKeySize)
    (env : Env) (u : Txn) : ∃ n b, db.zRemRange key MinScore MaxScore 0 (-1) env s u =
      (.ok n, u.queue b) ∧ ZClears db s key b := by
  obtain ⟨n, X, b, hrun, hb, hnd, hfull⟩ := zRemRange_run hw h hk env u MinScore MaxScore 0 (-1)
  have hX := hfull ⟨rfl, rfl, rfl, rfl⟩
  have hfilter : X.filter (· ∈ members db s .ZSET key) = X := by
    simp [← hX]
  have hzero : Int64.ofNat (members db s .ZSET key).card + -Int64.ofNat X.length = 0 := by
    rw [← hX, toFinset_card_of_nodup hnd]
    exact Int64.add_right_neg _
  have hbatch : db.sizeBatch s (sizeKey db .ZSET key) ZSetType key (Int64.ofNat
      (members db s .ZSET key).card + -Int64.ofNat (X.filter (· ∈ members db s .ZSET key)).length) =
      .delete (sizeKey db .ZSET key) :: db.rmBatch s ZSetType key := by
    rw [hfilter, hzero]
    rfl
  rw [hbatch] at hrun
  refine ⟨n, _, hrun, ⟨⟨?_, ?_, by simp⟩, ?_⟩⟩
  · refine hb.deletes.append ?_
    intro o ho
    rcases mem_cons.mp ho with rfl | ho
    · exact ⟨_, rfl⟩
    · exact rmBatch_deletes ZSetType key o ho
  · intro x hx
    have hin : x ∈ X := by
      rw [← hX] at hx
      exact mem_toFinset.mp hx
    rw [mem_members, ← zEncodeSetKey_front] at hx
    obtain ⟨v, hv⟩ := Option.isSome_iff_exists.mp hx
    obtain ⟨c, rfl, -⟩ := h.indexed.scored x v hv
    rw [← zEncodeSetKey_front]
    exact mem_append_left _ (hb.all x hin c hv).1
  · intro m c hc
    have hv := (h.indexed.index m c).mp hc
    have hin : m ∈ X := by
      rw [← mem_toFinset, hX, mem_members, ← zEncodeSetKey_front, hv]
      rfl
    exact mem_append_left _ (hb.all m hin c hv).2

theorem zMclearLoop_clears (hw : StoreWf s) (h : EveryKey (ZWf db) s)
    (hr : db.zMclearLoop keys env s u = (.ok (), t)) :
    ∃ b, t = u.queue b ∧ Deletes b ∧ ∀ k ∈ keys, ZClears db s k b := by
  induction keys generalizing u with
  | nil =>
    cases hr
    exact ⟨[], by simp, forall_mem_nil _, forall_mem_nil _⟩
  | cons k ks ih =>
    obtain ⟨_, _, hrem, h1⟩ := bind_ok.mp hr
    have hk : k.length ≤ MaxKeySize := by
      by_contra hlen
      simp [DB.zRemRange, not_le.mp hlen] at hrem
    obtain ⟨_, b, hrun, hb⟩ := zRemRange_clears hw (h k hk) hk env u
    rw [hrun] at hrem
    cases hrem
    obtain ⟨bs, rfl, hdels, hkeys⟩ := ih h1
    have hall := hb.clears.deletes.append hdels
    refine ⟨b ++ bs, by simp, hall, ?_⟩
    intro k' hk'
    rcases mem_cons.mp hk' with rfl | hk'
    · exact hb.of_subset hall fun o ho => mem_append_left _ ho
    · exact (hkeys k' hk').of_subset hall fun o ho => mem_append_right _ ho

theorem zDelete_clears (hw : StoreWf s) (h : ZWf db s key) (hk : key.length ≤ MaxKeySize)
    (env : Env) (u : Txn) : ∃ n b,
    db.zDelete key env s u = (.ok n, u.queue b) ∧ ZClears db s key b := by
  obtain ⟨n, b, hrun, hb⟩ := zRemRange_clears hw h hk env u
  exact ⟨n, b, by simp [DB.zDelete, ignoreErr, hrun], hb⟩

theorem zAddLoop_ok {num r : Int64} (h : db.zAddLoop key args num env s u = (.ok r, t)) :
    t = u.queue (zItems db s key args) ∧ r = num + Int64.ofNat
        ((args.map ScorePair.Member).filter (· ∉ members db s .ZSET key)).length ∧
      ∀ a ∈ args, checkZSetKMSize key a.Member = .ok () ∧ MinScore < a.Score ∧
        a.Score < MaxScore := by
  induction args generalizing num u with
  | nil =>
    cases h
    exact ⟨by simp [zItems], by simp, forall_mem_nil _⟩
  | cons a as ih =>
    obtain ⟨_, u, hc, h1⟩ := bind_ok.mp h
    obtain ⟨hcheck, rfl⟩ := lift_ok.mp hc
    obtain ⟨n, _, hset, h2⟩ := bind_ok.mp h1
    obtain ⟨rfl, hn, hrange⟩ := zSetItem_ok hset
    obtain ⟨rfl, rfl, hall⟩ := ih h2
    refine ⟨by simp [zItems], ?_, by simpa using ⟨⟨hcheck, hrange⟩, hall⟩⟩
    have hm : a.Member ∈ members db s .ZSET key ↔
        (s.get (db.zEncodeSetKey key a.Member)).isSome := by
      rw [mem_members, zEncodeSetKey_front]
    cases hv : s.get (db.zEncodeSetKey key a.Member) with
    | none => simp [hn, hv, hm, Int64.add_assoc, Int64.add_comm]
    | some v => simp [hn, hv, hm]

theorem zAddLoop_run (hs : ∀ m v, s.get (db.zEncodeSetKey key m) = some v → ∃ c, v = PutInt64 c)
    (env : Env) (h : ∀ a ∈ args, checkZSetKMSize key a.Member = .ok () ∧ MinScore < a.Score ∧
      a.Score < MaxScore) (num : Int64) (u : Txn) :
    ∃ r t, db.zAddLoop key args num env s u = (.ok r, t) := by
  induction args generalizing num u with
  | nil => exact ⟨num, u, rfl⟩
  | cons a as ih =>
    obtain ⟨hcheck, hrange⟩ := h a (.head _)
    obtain ⟨n, t, hset⟩ := zSetItem_run hs env u a.Member hrange
    simp only [DB.zAddLoop, bind_run, lift_run, hcheck, hset]
    exact ih (fun b hb => h b (.tail a hb)) _ _

theorem ZAdd_zwf (h : ZWf db s key) (hk : key.length ≤ MaxKeySize)
    (hargs : (∀ a ∈ args, checkZSetKMSize key a.Member = .ok () ∧ MinScore < a.Score ∧
        a.Score < MaxScore) →
      AddsOnce (members db s .ZSET key) (args.map ScorePair.Member) ∧ LastScores db s key args)
    (hr : db.ZAdd key args env s ⟨[], u.nc⟩ = (.ok r, t)) : ZWf db (s.applyBatch t.batch) key := by
  unfold DB.ZAdd at hr
  split_ifs at hr
  · cases hr
    exact h
  obtain ⟨num, _, hl, h1⟩ := bind_ok.mp hr
  obtain ⟨rfl, rfl, hcheck⟩ := zAddLoop_ok hl
  obtain ⟨_, _, hn, h2⟩ := bind_ok.mp h1
  obtain rfl := incrSize_ok h.counted.decode hn
  cases h2
  obtain ⟨hadds, hlast⟩ := hargs hcheck
  simp only [Int64.zero_add, applyBatch_append]
  refine ⟨(zItems_indexed (le_uint16 hk) h.indexed h.indexed (fun _ _ hv => hv)
    (fun a ha => (hcheck a ha).2) hlast).sizeBatch _,
    counted_sizeBatch (by decide) ?_ (.inl ?_)⟩ <;> rw [zItems_members h.indexed]
  · exact hadds.2
  · exact hadds.toInt

theorem zItems_get_size (args : List ScorePair) (m₀ : Store) :
    (m₀.applyBatch (zItems db s key args)).get (sizeKey db .ZSET key) =
      m₀.get (sizeKey db .ZSET key) := by
  apply get_applyBatch_of_not_mem
  have hset : ∀ m, db.zEncodeSetKey key m ≠ sizeKey db .ZSET key :=
    fun m h => absurd (DB.plainKey_inj.mp h).2.1 (by decide)
  have hscore : ∀ m c, db.zEncodeScoreKey key m c ≠ sizeKey db .ZSET key :=
    fun m c h => absurd (DB.plainKey_inj.mp h).2.1 (by decide)
  intro o ho
  obtain ⟨a, -, ho⟩ := mem_flatMap.mp ho
  rcases mem_append.mp ho with ho | ho
  · split at ho
    · cases ho
    · split at ho
      · cases ho
      · rw [mem_singleton] at ho
        rw [ho]
        exact hscore _ _
  · simp only [mem_cons, not_mem_nil, or_false] at ho
    rcases ho with rfl | rfl
    · exact hset _
    · exact hscore _ _

theorem zIncr_absent (hs : Indexed db s key) (ha : s.get (db.zEncodeSetKey key a.Member) = none)
    (m₀ : Store) :
    m₀.applyBatch [.put (db.zEncodeScoreKey key a.Member a.Score) [],
      .put (db.zEncodeSetKey key a.Member) (PutInt64 a.Score)] =
      m₀.applyBatch (zItems db s key [a]) := by
  rcases zItemBatch_cases hs a with ⟨-, h⟩ | ⟨c, hc, -⟩
  · rw [zItems, flatMap_singleton, h]
    exact m₀.applyOp_comm (.put _ _) (.put _ _) (zEncodeScoreKey_ne_set a.Member a.Member a.Score)
  · rw [ha] at hc
    cases hc

theorem zIncr_present (hk : key.length ≤ DB.MaxUint16) (hs : Indexed db s key)
    (ha : s.get (db.zEncodeSetKey key a.Member) = some (PutInt64 c)) (hc : c ≠ a.Score)
    (m₀ : Store) :
    m₀.applyBatch [.put (db.zEncodeScoreKey key a.Member a.Score) [],
      .put (db.zEncodeSetKey key a.Member) (PutInt64 a.Score),
      .delete (db.zEncodeScoreKey key a.Member c)] = m₀.applyBatch (zItems db s key [a]) := by
  rcases zItemBatch_cases hs a with ⟨hn, -⟩ | ⟨c', hc', h⟩
  · rw [ha] at hn
    cases hn
  · rw [ha] at hc'
    obtain rfl := PutInt64_inj (Option.some.inj hc')
    rw [zItems, flatMap_singleton, h]
    simp only [OrderedMap.applyBatch, foldl_cons]
    have hMS := @zEncodeScoreKey_ne_set db key a.Member a.Member
    have hSS : db.zEncodeScoreKey key a.Member a.Score ≠ db.zEncodeScoreKey key a.Member c :=
      fun heq => hc ((zEncodeScoreKey_inj hk).mp heq).2.symm
    have hMc := hMS c
    have hMa := hMS a.Score
    generalize db.zEncodeScoreKey key a.Member a.Score = S at hSS hMa ⊢
    generalize db.zEncodeScoreKey key a.Member c = D at hSS hMc ⊢
    generalize db.zEncodeSetKey key a.Member = M at hMa hMc ⊢
    rw [OrderedMap.applyOp_comm _ (.put M _) (.delete D) hMc.symm,
      OrderedMap.applyOp_comm m₀ (.put S _) (.delete D) hSS,
      OrderedMap.applyOp_comm _ (.put S _) (.put M _) hMa]

theorem lastScores_singleton (a : ScorePair) : LastScores db s key [a] := by
  intro b hb l hl
  rw [mem_singleton] at hb
  subst hb
  left
  rw [mem_singleton.mp (lastFor_mem hl).1]

theorem zIncrSize_ignoreErr (h : Counted db s .ZSET key) (env : Env) (u : Txn) (delta : Int64) :
    ∃ n, (db.zIncrSize key delta).ignoreErr 0 env s u =
      (.ok n, u.queue ((db.sizeBatch s (sizeKey db .ZSET key) ZSetType key
        (Int64.ofNat (members db s .ZSET key).card + delta)))) := by
  obtain ⟨n, hn⟩ := incrSize_run db env u ZSetType key delta h.decode
  refine ⟨n, ?_⟩
  rw [ignoreErr, DB.zIncrSize, show db.zEncodeSizeKey key = sizeKey db .ZSET key from rfl, hn]

section
variable (h : ZWf db s key) (hk : key.length ≤ MaxKeySize)
  (hrange : MinScore < a.Score ∧ a.Score < MaxScore)
include h hk hrange

theorem ZWf.insert (ha : s.get (db.zEncodeSetKey key a.Member) = none)
    (hadds : AddsOnce (members db s .ZSET key) [a.Member]) :
    ZWf db (s.applyBatch (db.sizeBatch s (sizeKey db .ZSET key) ZSetType key
      (Int64.ofNat (members db s .ZSET key).card + 1) ++
      [.put (db.zEncodeScoreKey key a.Member a.Score) [],
        .put (db.zEncodeSetKey key a.Member) (PutInt64 a.Score)])) key := by
  have hnot : a.Member ∉ members db s .ZSET key := by
    rw [mem_members, ← zEncodeSetKey_front, ha]
    simp
  have htoInt := hadds.toInt
  have hfilter : [a.Member].filter (· ∉ members db s .ZSET key) = [a.Member] := by
    simpa using hnot
  rw [hfilter] at htoInt
  rw [applyBatch_append, zIncr_absent h.indexed ha]
  have hmem : members db ((s.applyBatch (db.sizeBatch s (sizeKey db .ZSET key) ZSetType key
      (Int64.ofNat (members db s .ZSET key).card + 1))).applyBatch (zItems db s key [a])) .ZSET
      key = members db s .ZSET key ∪ [a.Member].toFinset := by
    rw [zItems_members h.indexed]
    congr 1
    exact sizeBatch_members (by decide) _
  constructor
  · refine zItems_indexed (le_uint16 hk) h.indexed (h.indexed.sizeBatch _) ?_
      (by simpa using hrange)
      (lastScores_singleton a)
    intro m v hv
    exact (sizeBatch_get_item (by decide) _ _ _ _).symm.trans hv
  · refine Counted.of_size (z := Int64.ofNat (members db s .ZSET key).card + 1) ?_ ?_ (.inl ?_)
    · rw [zItems_get_size]
      exact sizeBatch_get _
    · rw [hmem]
      exact hadds.2
    · rwa [hmem]

theorem ZWf.rescore
    (ha : s.get (db.zEncodeSetKey key a.Member) = some (PutInt64 c)) (hc : c ≠ a.Score) :
    ZWf db (s.applyBatch [.put (db.zEncodeScoreKey key a.Member a.Score) [],
      .put (db.zEncodeSetKey key a.Member) (PutInt64 a.Score),
      .delete (db.zEncodeScoreKey key a.Member c)]) key := by
  have hin : a.Member ∈ members db s .ZSET key := by
    rw [mem_members, ← zEncodeSetKey_front, ha]
    rfl
  rw [zIncr_present (le_uint16 hk) h.indexed ha hc]
  have hmem : members db (s.applyBatch (zItems db s key [a])) .ZSET key =
      members db s .ZSET key := by
    rw [zItems_members h.indexed]
    simpa using hin
  constructor
  · exact zItems_indexed (le_uint16 hk) h.indexed h.indexed (fun _ _ hv => hv)
      (by simpa using hrange) (lastScores_singleton a)
  · constructor
    · rw [hmem]
      exact h.counted.card_lt
    · rw [hmem, zItems_get_size]
      exact h.counted.size

end

theorem ZIncrBy_absent (h : Counted db s .ZSET key) (hc : checkZSetKMSize key member = .ok ())
    (hv : s.get (db.zEncodeSetKey key member) = none) (env : Env) (nc delta : Int64) :
    db.ZIncrBy key delta member env s ⟨[], nc⟩ =
      if 0 + delta ≥ MaxScore ∨ 0 + delta ≤ MinScore then
        (.error .errScoreOverflow, ⟨db.sizeBatch s (sizeKey db .ZSET key) ZSetType key
          (Int64.ofNat (members db s .ZSET key).card + 1), nc⟩)
      else (.ok (.commit (0 + delta)), ⟨db.sizeBatch s (sizeKey db .ZSET key) ZSetType key
          (Int64.ofNat (members db s .ZSET key).card + 1) ++
        [.put (db.zEncodeScoreKey key member (0 + delta)) [],
          .put (db.zEncodeSetKey key member) (PutInt64 (0 + delta))], nc⟩) := by
  obtain ⟨n, hn⟩ := zIncrSize_ignoreErr h env ⟨[], nc⟩ 1
  simp only [DB.ZIncrBy, bind_run, lift_run, hc, get_run, hv, hn, pure_run]
  by_cases hrange : 0 + delta ≥ MaxScore ∨ 0 + delta ≤ MinScore
  · rw [if_pos hrange, if_pos hrange]
    rfl
  · rw [if_neg hrange, if_neg hrange]
    simp

theorem ZIncrBy_present (hc : checkZSetKMSize key member = .ok ())
    (hv : s.get (db.zEncodeSetKey key member) = some (PutInt64 c)) (nc delta : Int64) :
    db.ZIncrBy key delta member env s ⟨[], nc⟩ =
      if c + delta ≥ MaxScore ∨ c + delta ≤ MinScore then
        (.error .errScoreOverflow, ⟨[], nc⟩)
      else (.ok (.commit (c + delta)), ⟨[.put (db.zEncodeScoreKey key member (c + delta)) [],
        .put (db.zEncodeSetKey key member) (PutInt64 (c + delta)),
        .delete (db.zEncodeScoreKey key member c)], nc⟩) := by
  simp only [DB.ZIncrBy, bind_run, lift_run, hc, get_run, hv, decodeInt64_PutInt64]
  by_cases hrange : c + delta ≥ MaxScore ∨ c + delta ≤ MinScore
  · rw [if_pos hrange, if_pos hrange]
    rfl
  · rw [if_neg hrange, if_neg hrange]
    simp

theorem ZIncrBy_zwf (h : ZWf db s key) (hk : key.length ≤ MaxKeySize)
    (hd : member ∈ members db s .ZSET key → delta ≠ 0)
    (hadds : AddsOnce (members db s .ZSET key) [member])
    (hr : db.ZIncrBy key delta member env s ⟨[], u.nc⟩ = (.ok r, t)) :
    ZWf db (s.applyBatch t.batch) key := by
  have hin : member ∈ members db s .ZSET key ↔ (s.get (db.zEncodeSetKey key member)).isSome := by
    rw [mem_members, zEncodeSetKey_front]
  obtain ⟨_, _, hc, -⟩ := bind_ok.mp hr
  obtain ⟨hcheck, -⟩ := lift_ok.mp hc
  cases hv : s.get (db.zEncodeSetKey key member) with
  | none =>
    rw [ZIncrBy_absent h.counted hcheck hv] at hr
    by_cases hrange : 0 + delta ≥ MaxScore ∨ 0 + delta ≤ MinScore
    · rw [if_pos hrange] at hr
      cases hr
    rw [if_neg hrange] at hr
    cases hr
    have hadd : MinScore < 0 + delta ∧ 0 + delta < MaxScore := by
      simpa [and_comm] using hrange
    exact h.insert (a := ⟨0 + delta, member⟩) hk hadd hv hadds
  | some v =>
    obtain ⟨c, rfl, -⟩ := h.indexed.scored member v hv
    rw [ZIncrBy_present hcheck hv] at hr
    by_cases hrange : c + delta ≥ MaxScore ∨ c + delta ≤ MinScore
    · rw [if_pos hrange] at hr
      cases hr
    rw [if_neg hrange] at hr
    cases hr
    have hadd : MinScore < c + delta ∧ c + delta < MaxScore := by
      simpa [and_comm] using hrange
    refine h.rescore (a := ⟨c + delta, member⟩) hk hadd hv fun hcd => ?_
    grind

def storePairs (env : Env) (destMap : DB.ScoreMap) : List ScorePair :=
  (env.mapOrder destMap.keys).map fun m => ⟨(destMap.get m).getD 0, m⟩

theorem storePairs_member (destMap : DB.ScoreMap) :
    (storePairs env destMap).map ScorePair.Member = env.mapOrder destMap.keys := by
  simp [storePairs, Function.comp_def]

theorem lastScores_storePairs (destMap : DB.ScoreMap) :
    LastScores db s key (storePairs env destMap) := by
  intro a ha l hl
  left
  obtain ⟨hlm, hlM⟩ := lastFor_mem hl
  obtain ⟨m, -, rfl⟩ := mem_map.mp ha
  obtain ⟨m', -, rfl⟩ := mem_map.mp hlm
  simp only at hlM
  rw [hlM]

theorem zStoreLoop_ok (h : db.zStoreLoop key destMap ms env s u = (.ok (), t)) :
    t = u.queue ((zItems db s key (ms.map fun m => ⟨(destMap.get m).getD 0, m⟩))) ∧
    ∀ m ∈ ms, MinScore < (destMap.get m).getD 0 ∧ (destMap.get m).getD 0 < MaxScore := by
  induction ms generalizing u with
  | nil =>
    cases h
    exact ⟨by simp [zItems], forall_mem_nil _⟩
  | cons m ms ih =>
    obtain ⟨_, u, hc, h1⟩ := bind_ok.mp h
    obtain ⟨-, rfl⟩ := lift_ok.mp hc
    obtain ⟨n, _, hset, h2⟩ := bind_ok.mp h1
    obtain ⟨rfl, -, hrange⟩ := zSetItem_ok hset
    obtain ⟨rfl, hall⟩ := ih h2
    exact ⟨by simp [zItems], by simpa using ⟨hrange, hall⟩⟩

theorem storePairs_indexed (hk : key.length ≤ MaxKeySize) (h : Indexed db s key)
    (hm₀ : Indexed db m₀ key) (hnone : ∀ m, m₀.get (db.zEncodeSetKey key m) = none)
    (hrange : ∀ m ∈ env.mapOrder destMap.keys,
      MinScore < (destMap.get m).getD 0 ∧ (destMap.get m).getD 0 < MaxScore) (v : Bytes) :
    Indexed db ((m₀.applyBatch (zItems db s key (storePairs env destMap))).applyBatch
      [.put (sizeKey db .ZSET key) v]) key := by
  have hindexed : Indexed db (m₀.applyBatch (zItems db s key (storePairs env destMap))) key := by
    refine zItems_indexed (le_uint16 hk) h hm₀ ?_ ?_ (lastScores_storePairs destMap)
    · intro m v hv
      rw [hnone] at hv
      cases hv
    · intro a ha
      obtain ⟨m, hm, rfl⟩ := mem_map.mp ha
      exact hrange m hm
  refine hindexed.congr (fun m => ?_) (fun m c => ?_) <;>
    refine get_applyBatch_of_not_mem _ ?_ <;>
    simp only [mem_singleton, forall_eq] <;> intro heq <;>
    exact absurd (DB.plainKey_inj.mp heq).2.1 (by decide)

theorem zStore_zwf (hw : StoreWf s) (h : ZWf db s key) (hk : key.length ≤ MaxKeySize)
    (hne : destMap.keys ≠ []) (hlt : destMap.keys.length < 2 ^ 63)
    (hr : db.zStore key destMap env s ⟨[], u.nc⟩ = (.ok r, t)) :
    ZWf db (s.applyBatch t.batch) key := by
  obtain ⟨_, _, hd, h1⟩ := bind_ok.mp hr
  obtain ⟨n, b, hrun, hb⟩ := zDelete_clears hw h hk env ⟨[], u.nc⟩
  rw [hrun] at hd
  cases hd
  obtain ⟨_, _, hord, h2⟩ := bind_ok.mp h1
  cases hord
  obtain ⟨_, _, hl, h3⟩ := bind_ok.mp h2
  obtain ⟨rfl, hrange⟩ := zStoreLoop_ok hl
  cases h3
  change ZWf db (s.applyBatch ([] ++ b ++ zItems db s key (storePairs env destMap) ++
    [.put (sizeKey db .ZSET key) (PutInt64 (Int64.ofNat destMap.keys.length))])) key
  have hperm := env.mapOrder_perm destMap.keys
  have hnd := hperm.nodup_iff.mpr destMap.keys_nodup
  have hnone : ∀ m, (s.applyBatch b).get (db.zEncodeSetKey key m) = none := by
    intro m
    rw [zEncodeSetKey_front]
    exact hb.clears.get_member m
  have hmem : members db (((s.applyBatch b).applyBatch
      (zItems db s key (storePairs env destMap))).applyBatch
        [.put (sizeKey db .ZSET key) (PutInt64 (Int64.ofNat destMap.keys.length))]) .ZSET key =
      (env.mapOrder destMap.keys).toFinset := by
    rw [members, OrderedMap.suffixes_applyBatch_other]
    · change members db _ .ZSET key = _
      rw [zItems_members h.indexed, hb.clears.members_eq, storePairs_member, Finset.empty_union]
    · simp only [mem_singleton, forall_eq]
      exact front_not_prefix (by decide) key
  rw [nil_append, applyBatch_append, applyBatch_append]
  have hcard : (env.mapOrder destMap.keys).toFinset.card = destMap.keys.length := by
    rw [toFinset_card_of_nodup hnd, hperm.length_eq]
  have hpos : ¬ Int64.ofNat destMap.keys.length ≤ 0 := by
    have hlen : destMap.keys.length ≠ 0 := by simpa using hne
    rw [Int64.le_iff_toInt_le, Int64.toInt_ofNat_of_lt hlt, show (0 : Int64).toInt = 0 from rfl]
    omega
  constructor
  · exact storePairs_indexed hk h.indexed hb.indexed hnone hrange _
  · refine Counted.of_size (z := Int64.ofNat destMap.keys.length) ?_ ?_ (.inl ?_)
    · rw [if_neg hpos]
      simp
    · rwa [hmem, hcard]
    · rw [hmem, hcard, Int64.toInt_ofNat_of_lt hlt]

def zUnionResult (db : DB) (srcKeys : List Bytes) (weights : Option (List Int64))
    (aggregate : UInt8) : Op DB.ScoreMap := do
  let (aggregateFunc, srcs) ← Op.lift (DB.zStoreArgs srcKeys weights aggregate)
  db.zUnionLoop aggregateFunc OrderedMap.empty srcs

def zInterResult (db : DB) (srcKeys : List Bytes) (weights : Option (List Int64))
    (aggregate : UInt8) : Op DB.ScoreMap := do
  let (aggregateFunc, srcs) ← Op.lift (DB.zStoreArgs srcKeys weights aggregate)
  match srcs with
  | [] => Op.throw .panic
  | (key, weight) :: srcs => do
    let pairs ← db.ZRange key 0 (-1)
    let destMap := pairs.foldl (fun (d : DB.ScoreMap) pair =>
      d.insert pair.Member (pair.Score * weight)) OrderedMap.empty
    db.zInterLoop aggregateFunc destMap srcs

theorem zUnionResult_reads (srcKeys : List Bytes) (weights : Option (List Int64))
    (aggregate : UInt8) : (zUnionResult db srcKeys weights aggregate).Reads env s :=
  (Op.Reads.lift _).bind fun ⟨_, _⟩ => zUnionLoop_reads _ _ _

theorem zInterResult_reads (srcKeys : List Bytes) (weights : Option (List Int64))
    (aggregate : UInt8) : (zInterResult db srcKeys weights aggregate).Reads env s := by
  refine (Op.Reads.lift _).bind fun ⟨_, srcs⟩ => ?_
  cases srcs with
  | nil => exact Op.Reads.throw _
  | cons src srcs => exact (ZRange_reads _ _ _).bind fun _ => zInterLoop_reads _ _ _

theorem ZUnionStore_ok (h : db.ZUnionStore key srcKeys weights aggregate env s u = (.ok r, t)) :
    ∃ destMap, (zUnionResult db srcKeys weights aggregate).eval env s = .ok destMap ∧
      db.zStore key destMap env s u = (.ok r, t) := by
  obtain ⟨⟨f, srcs⟩, _, ha, h1⟩ := bind_ok.mp h
  obtain ⟨destMap, u', hd, h2⟩ := bind_ok.mp h1
  have hres : zUnionResult db srcKeys weights aggregate env s u = (.ok destMap, u') :=
    bind_ok.mpr ⟨_, _, ha, hd⟩
  obtain ⟨heval, rfl⟩ := (zUnionResult_reads srcKeys weights aggregate).ok hres
  exact ⟨destMap, heval, h2⟩

theorem ZInterStore_ok (h : db.ZInterStore key srcKeys weights aggregate env s u = (.ok r, t)) :
    ∃ destMap, (zInterResult db srcKeys weights aggregate).eval env s = .ok destMap ∧
      db.zStore key destMap env s u = (.ok r, t) := by
  obtain ⟨⟨f, srcs⟩, _, ha, h1⟩ := bind_ok.mp h
  cases srcs with
  | nil => cases h1
  | cons src srcs =>
    obtain ⟨pairs, _, hp, h2⟩ := bind_ok.mp h1
    obtain ⟨destMap, u', hd, h3⟩ := bind_ok.mp h2
    have hres : zInterResult db srcKeys weights aggregate env s u = (.ok destMap, u') :=
      bind_ok.mpr ⟨_, _, ha, bind_ok.mpr ⟨_, _, hp, hd⟩⟩
    obtain ⟨heval, rfl⟩ := (zInterResult_reads srcKeys weights aggregate).ok hres
    exact ⟨destMap, heval, h3⟩

end

end LedisDB
