import LedisDB.ListEntries
import LedisDB.Scan
import LedisDB.ZSetWrites

/-!
# What the delete functions leave behind

The delete functions of the five types find the entries of a key through other
entries: list items through the ends in the meta entry, zset members through the
score index. `Removable` says when they find everything. Then the queue of the
delete function and of `rmExpire` leaves no data, size, meta or expire-meta entry
of the key; otherwise something stays that no later call of them removes.
-/

namespace LedisDB

open DB List OrderedMap

variable (db : DB) (s : Store) (key : Bytes)

/-- No data, size, meta or expire-meta entry of the key. -/
def Clean (T : DataType) (key : Bytes) : Prop :=
  ∀ ek, DataEntry db T key ek ∨ ek = db.expEncodeMetaKey T.code key → s.get ek = none

def zRangeAll : Range Bytes :=
  ⟨some (db.zEncodeStartScoreKey key MinScore), some (db.zEncodeStopScoreKey key MaxScore),
    RangeClose⟩

def zScored : List (Bytes × Int64) :=
  (s.rangeLimit (zRangeAll db key) ⟨0, -1⟩ .forward).filterMap
    fun e => (db.zDecodeScoreKey e.1).toOption.map Prod.snd

def zCounted : List (Bytes × Int64) :=
  (zScored db s key).filter fun p => (s.get (db.zEncodeSetKey key p.1)).isSome

/-- The items of a list lie between its ends; the size of a zset is not larger than the
number of members its delete function counts, and it meets all of them. -/
def Removable : DataType → Bytes → Prop
  | .LIST, key => ∀ v, s.get (db.lEncodeMetaKey key) = some v → ∃ m, getMeta v = .ok m ∧
      ∀ seq, s.get (db.lEncodeListKey key seq) ≠ none →
        m.1.toUInt32 ≤ seq.toUInt32 ∧ seq.toUInt32 ≤ m.2.toUInt32
  | .ZSET, key => key.length ≤ MaxKeySize ∧
      (∃ n, decodeInt64 (s.get (db.zEncodeSizeKey key)) = .ok n ∧
        n + -Int64.ofNat (zCounted db s key).length ≤ 0) ∧
      (∀ m, s.get (db.zEncodeSetKey key m) ≠ none → ∃ c, (m, c) ∈ zScored db s key) ∧
      ∀ m c, s.get (db.zEncodeScoreKey key m c) ≠ none → (m, c) ∈ zScored db s key
  | _, _ => True

def Flushable (T : DataType) (key : Bytes) : Prop :=
  Clean db s T key ∨ key ≠ [] ∧ s.get (db.plainKey T.plain key) ≠ none ∧ Removable db s T key

section
variable {db : DB} {env : Env} {s s' : Store} {T : DataType} {key v r ek : Bytes} {u t : Txn}
  {b : Batch} {m : Int32 × Int32} {seq : Int32} {L : List (Bytes × Int64)} {n c : Int64}

theorem DataEntry.plain (db : DB) (T : DataType) (key : Bytes) :
    DataEntry db T key (db.plainKey T.plain key) := by
  cases T
  · exact .kv key
  · exact .lmeta key
  · exact .hsize key
  · exact .ssize key
  · exact .zsize key

theorem Clean.congr (h : Clean db s T key)
    (hsame : ∀ ek, Entry db T key ek → s'.get ek = s.get ek) : Clean db s' T key := by
  intro ek hek
  rw [hsame ek, h ek hek]
  rcases hek with hek | rfl
  · exact .inl hek
  · exact .inr .expMeta

theorem entry_of_zRangeAll (hs : StoreWf s) (hget : s.get ek = some v)
    (hmin : (zRangeAll db key).aboveMin ek = true) (hmax : (zRangeAll db key).belowMax ek = true) :
    Entry db .ZSET key ek := by
  have hmem : (ek, v) ∈ s.rangeLimit (zRangeAll db key) ⟨0, -1⟩ .forward :=
    mem_rangeLimit_all.mpr ⟨hget, hmin, hmax⟩
  rw [zRangeAll, zEncodeStopScoreKey_eq] at hmem
  exact .inl (hs.of_range (by decide) hmem).1.entry

theorem zScored_congr (hs : StoreWf s) (hs' : StoreWf s')
    (hsame : ∀ ek, Entry db .ZSET key ek → s'.get ek = s.get ek) :
    zScored db s' key = zScored db s key := by
  have hrange : ∀ ek, (zRangeAll db key).aboveMin ek = true →
      (zRangeAll db key).belowMax ek = true → s'.get ek = s.get ek := by
    intro ek hmin hmax
    cases hget : s.get ek with
    | some v => rw [hsame ek (entry_of_zRangeAll hs hget hmin hmax), hget]
    | none =>
      cases hget' : s'.get ek with
      | none => rfl
      | some v =>
        rw [hsame ek (entry_of_zRangeAll hs' hget' hmin hmax), hget] at hget'
        cases hget'
  unfold zScored
  rw [rangeLimit_congr ⟨0, -1⟩ hrange]

theorem Removable.congr (h : Removable db s T key) (hs : StoreWf s) (hs' : StoreWf s')
    (hsame : ∀ ek, Entry db T key ek → s'.get ek = s.get ek) : Removable db s' T key := by
  cases T with
  | KV | HASH | SET => trivial
  | LIST =>
    intro v hv
    rw [hsame _ (.inl (.lmeta key))] at hv
    obtain ⟨m, hm, hitems⟩ := h v hv
    refine ⟨m, hm, fun seq hseq => hitems seq ?_⟩
    rwa [hsame _ (.inl (.litem key seq))] at hseq
  | ZSET =>
    obtain ⟨hk, ⟨n, hn, hle⟩, hmembers, hscores⟩ := h
    have hscored := zScored_congr hs hs' hsame
    have hmember := fun m => hsame _ (.inl (.zmember key m))
    refine ⟨hk, ⟨n, ?_, ?_⟩, fun m hm => ?_, fun m c hc => ?_⟩
    · rw [hsame _ (.inl (.zsize key)), hn]
    · simpa only [zCounted, hscored, hmember] using hle
    · rw [hscored]
      exact hmembers m (hmember m ▸ hm)
    · rw [hscored]
      exact hscores m c (hsame _ (.inl (.zscore key m c)) ▸ hc)

theorem Flushable.congr (h : Flushable db s T key) (hs : StoreWf s) (hs' : StoreWf s')
    (hsame : ∀ ek, Entry db T key ek → s'.get ek = s.get ek) : Flushable db s' T key := by
  rcases h with h | ⟨hne, hplain, hrem⟩
  · exact .inl (h.congr hsame)
  · refine .inr ⟨hne, ?_, hrem.congr hs hs' hsame⟩
    rwa [hsame _ (.inl (.plain db T key))]

structure Wipes (db : DB) (s : Store) (T : DataType) (key : Bytes) (b : Batch) : Prop where
  deletes : Deletes b
  all : ∀ ek, DataEntry db T key ek → s.get ek ≠ none → .delete ek ∈ b

theorem rmBatch_expMeta (hs : StoreWf s) (h : s.get (db.expEncodeMetaKey T.code key) ≠ none) :
    .delete (db.expEncodeMetaKey T.code key) ∈ db.rmBatch s T.code key := by
  obtain ⟨v, hv⟩ := Option.ne_none_iff_exists'.mp h
  obtain ⟨w, rfl⟩ := hs.deadline hv
  simp [rmBatch, hv]

theorem Wipes.clean (h : Wipes db s T key b) (hs : StoreWf s) :
    Clean db (s.applyBatch (b ++ db.rmBatch s T.code key)) T key := by
  intro ek hek
  apply (h.deletes.append (rmBatch_deletes T.code key)).get_none
  by_cases hget : s.get ek = none
  · exact .inl hget
  · right
    rcases hek with hek | rfl
    · exact mem_append_left _ (h.all ek hek hget)
    · exact mem_append_right _ (rmBatch_expMeta hs hget)

theorem rmBatch_get_data {k : Bytes} (hek : DataEntry db T key ek) (dataType : UInt8) (m : Store) :
    (m.applyBatch (db.rmBatch s dataType k)).get ek = m.get ek := by
  obtain ⟨hmeta, htime, himeta, hitime⟩ := DataType.not_expire
  apply get_applyBatch_of_not_mem
  intro o ho heq
  obtain ⟨r, hr⟩ := rmBatch_key ho
  rw [heq] at hr
  rcases hek.form with hf | ⟨t, ht, x, hf⟩ <;> rw [hf] at hr <;> rcases hr with hr | hr <;>
    have hcode := (plainKey_inj.mp hr).2.1
  · exact hmeta hcode
  · exact htime hcode
  · exact himeta (hcode ▸ ht)
  · exact hitime (hcode ▸ ht)

theorem delete_run (db : DB) (env : Env) (s : Store) (key : Bytes) (u : Txn) :
    db.delete key env s u = (.ok 1, u.queue [.delete (db.encodeKVKey key)]) := by
  simp [delete]

theorem delete_wipes : Wipes db s .KV key [.delete (db.encodeKVKey key)] := by
  refine ⟨by simp [Deletes], fun ek hek _ => ?_⟩
  cases hek
  exact mem_singleton_self _

theorem clearBatch_wipes (hT : T = .HASH ∨ T = .SET) :
    Wipes db s T key (clearBatch db s T key) := by
  have hclear : Clears db s T key (clearBatch db s T key) := clearBatch_clears
  have hmember := fun x hx => hclear.member x (mem_members.mpr (Option.isSome_iff_ne_none.mpr hx))
  refine ⟨hclear.deletes, fun ek hek hget => ?_⟩
  rcases hT with rfl | rfl
  · cases hek with
    | hsize => exact hclear.size
    | hfield _ f =>
      have hf : db.hEncodeHashKey key f = front db .HASH key ++ f := itemKey_cons _ _ _ _ _
      rw [hf] at hget ⊢
      exact hmember f hget
  · cases hek with
    | ssize => exact hclear.size
    | smember _ m =>
      have hm : db.sEncodeSetKey key m = front db .SET key ++ m := itemKey_cons _ _ _ _ _
      rw [hm] at hget ⊢
      exact hmember m hget

theorem lEncodeListKey_le_iff_toUInt32 {a b : Int32} :
    db.lEncodeListKey key a ≤ db.lEncodeListKey key b ↔ a.toUInt32 ≤ b.toUInt32 := by
  rw [lEncodeListKey, lEncodeListKey, itemKey_le_iff, UInt32.le_iff_toNat_le, ← not_lt,
    ← not_lt, beBytes_lt_iff (toUInt32_toNat_lt b) (toUInt32_toNat_lt a)]

def lDeleteBatch (db : DB) (s : Store) (key : Bytes) (m : Int32 × Int32) : Batch :=
  ((s.rangeLimit ⟨some (db.lEncodeListKey key m.1), some (db.lEncodeListKey key m.2),
    RangeClose⟩ ⟨0, -1⟩ .forward).map fun e => .delete e.1) ++ [.delete (db.lEncodeMetaKey key)]

theorem lDelete_of_ends {head tail size : Int32}
    (hmeta : db.lGetMeta (db.lEncodeMetaKey key) env s u = (.ok (head, tail, size), u)) :
    ∃ n, db.lDelete key env s u = (.ok n, u.queue (lDeleteBatch db s key (head, tail))) := by
  simp only [lDelete, Op.bind_run, hmeta, Op.deleteAll_run, Op.delete_run, Txn.queue_queue, map_map]
  exact ⟨_, rfl⟩

theorem lDelete_queue (hv : s.get (db.lEncodeMetaKey key) = some v) (hm : getMeta v = .ok m) :
    ∃ n, db.lDelete key env s u = (.ok n, u.queue (lDeleteBatch db s key m)) := by
  have hmeta : db.lGetMeta (db.lEncodeMetaKey key) env s u =
      (.ok (m.1, m.2, m.2 - m.1 + 1), u) := by
    simp [lGetMeta, hv, hm]
  exact lDelete_of_ends hmeta

theorem lDelete_absent (hv : s.get (db.lEncodeMetaKey key) = none) :
    ∃ n, db.lDelete key env s u = (.ok n,
      u.queue (lDeleteBatch db s key (listInitialSeq, listInitialSeq))) := by
  have hmeta : db.lGetMeta (db.lEncodeMetaKey key) env s u =
      (.ok (listInitialSeq, listInitialSeq, 0), u) := by
    simp [lGetMeta, hv]
  exact lDelete_of_ends hmeta

theorem mem_lDeleteBatch :
    .delete (db.lEncodeListKey key seq) ∈ lDeleteBatch db s key m ↔
      s.get (db.lEncodeListKey key seq) ≠ none ∧
        m.1.toUInt32 ≤ seq.toUInt32 ∧ seq.toUInt32 ≤ m.2.toUInt32 := by
  rw [lDeleteBatch, mem_append, mem_map, mem_singleton]
  constructor
  · rintro (⟨e, he, heq⟩ | heq)
    · injection heq with heq
      obtain ⟨hget, hmin, hmax⟩ := mem_rangeLimit_all.mp he
      rw [heq] at hget hmin hmax
      rw [Range.aboveMin_close, decide_eq_true_eq, lEncodeListKey_le_iff_toUInt32] at hmin
      rw [Range.belowMax_close, decide_eq_true_eq, lEncodeListKey_le_iff_toUInt32] at hmax
      exact ⟨by rw [hget]; simp, hmin, hmax⟩
    · injection heq with heq
      exact absurd heq (lEncodeListKey_ne_meta seq)
  · rintro ⟨hget, hmin, hmax⟩
    obtain ⟨v, hv⟩ := Option.ne_none_iff_exists'.mp hget
    refine .inl ⟨(db.lEncodeListKey key seq, v), mem_rangeLimit_all.mpr ⟨hv, ?_, ?_⟩, rfl⟩
    · rwa [Range.aboveMin_close, decide_eq_true_eq, lEncodeListKey_le_iff_toUInt32]
    · rwa [Range.belowMax_close, decide_eq_true_eq, lEncodeListKey_le_iff_toUInt32]

theorem lDeleteBatch_deletes (m : Int32 × Int32) : Deletes (lDeleteBatch db s key m) := by
  refine Deletes.append ?_ (by simp [Deletes])
  intro o ho
  obtain ⟨e, -, rfl⟩ := mem_map.mp ho
  exact ⟨_, rfl⟩

theorem lDelete_wipes (hitems : ∀ seq, s.get (db.lEncodeListKey key seq) ≠ none →
      m.1.toUInt32 ≤ seq.toUInt32 ∧ seq.toUInt32 ≤ m.2.toUInt32) :
    Wipes db s .LIST key (lDeleteBatch db s key m) := by
  refine ⟨lDeleteBatch_deletes m, fun ek hek hget => ?_⟩
  cases hek with
  | lmeta => exact mem_append_right _ (mem_singleton_self _)
  | litem _ seq => exact mem_lDeleteBatch.mpr ⟨hget, hitems seq hget⟩

theorem lDelete_residue (hseq : s.get (db.lEncodeListKey key seq) ≠ none)
    (hout : ¬ (m.1.toUInt32 ≤ seq.toUInt32 ∧ seq.toUInt32 ≤ m.2.toUInt32)) :
    ¬ Flushable db (s.applyBatch (lDeleteBatch db s key m ++ db.rmBatch s ListType key)) .LIST
      key := by
  rw [applyBatch_append]
  rintro (hclean | ⟨-, hplain, -⟩)
  · have hitem := hclean _ (.inl (.litem key seq))
    rw [rmBatch_get_data (.litem key seq), get_applyBatch_of_not_mem] at hitem
    · exact hseq hitem
    · intro o ho heq
      obtain ⟨k, rfl⟩ := lDeleteBatch_deletes m o ho
      rw [WriteOp.key_delete] at heq
      exact hout (mem_lDeleteBatch.mp (heq ▸ ho)).2
  · apply hplain
    rw [rmBatch_get_data (.plain db .LIST key)]
    exact (lDeleteBatch_deletes m).get_none (.inr (mem_append_right _ (mem_singleton_self _)))

theorem zScored_scan (db : DB) (hs : StoreWf s) (hk : key.length ≤ MaxKeySize) :
    (s.rangeLimit (zRangeAll db key) ⟨0, -1⟩ .forward).map Prod.fst =
      (zScored db s key).map fun p => db.zEncodeScoreKey key p.1 p.2 := by
  obtain ⟨L, hL, -, -⟩ := zIterator_scan hs MinScore MaxScore ⟨0, -1⟩
  have hscored : zScored db s key = L := by
    have hfst : zScored db s key = (L.map fun p => db.zEncodeScoreKey key p.1 p.2).filterMap
        fun ek => (db.zDecodeScoreKey ek).toOption.map Prod.snd := by
      rw [← hL, filterMap_map]
      rfl
    rw [hfst]
    simp [db.zDecodeScoreKey_zEncodeScoreKey _ _ (le_uint16 hk), Except.toOption]
  rwa [hscored]

theorem mem_zScored (hs : StoreWf s) (hk : key.length ≤ MaxKeySize) {p : Bytes × Int64} :
    p ∈ zScored db s key ↔ s.get (db.zEncodeScoreKey key p.1 p.2) ≠ none ∧
      (zRangeAll db key).aboveMin (db.zEncodeScoreKey key p.1 p.2) = true ∧
      (zRangeAll db key).belowMax (db.zEncodeScoreKey key p.1 p.2) = true := by
  have hmem : p ∈ zScored db s key ↔ db.zEncodeScoreKey key p.1 p.2 ∈
      (s.rangeLimit (zRangeAll db key) ⟨0, -1⟩ .forward).map Prod.fst := by
    rw [zScored_scan db hs hk, mem_map]
    constructor
    · exact fun h => ⟨p, h, rfl⟩
    · rintro ⟨q, hq, heq⟩
      obtain ⟨hm, hc⟩ := (zEncodeScoreKey_inj (le_uint16 hk)).mp heq
      rwa [← Prod.ext hm hc]
  rw [hmem, mem_map]
  constructor
  · rintro ⟨e, he, heq⟩
    obtain ⟨hget, hrange⟩ := mem_rangeLimit_all.mp he
    rw [heq] at hget hrange
    exact ⟨by simp [hget], hrange⟩
  · rintro ⟨hget, hrange⟩
    obtain ⟨v, hv⟩ := Option.ne_none_iff_exists'.mp hget
    exact ⟨(db.zEncodeScoreKey key p.1 p.2, v), mem_rangeLimit_all.mpr ⟨hv, hrange⟩, rfl⟩

def zSizeBatch (db : DB) (s : Store) (key : Bytes) : Batch :=
  match decodeInt64 (s.get (db.zEncodeSizeKey key)) with
  | .ok n => db.sizeBatch s (db.zEncodeSizeKey key) ZSetType key
      (n + -Int64.ofNat (zCounted db s key).length)
  | .error _ => []

theorem zRemRange_queue (db : DB) (hs : StoreWf s) (hk : key.length ≤ MaxKeySize) (env : Env)
    (u : Txn) : db.zRemRange key MinScore MaxScore 0 (-1) env s u =
      ((decodeInt64 (s.get (db.zEncodeSizeKey key))).map fun _ =>
        Int64.ofNat (zCounted db s key).length, { u with batch :=
          u.batch ++ (zRemBatch db s key (zScored db s key) ++ zSizeBatch db s key) }) := by
  have hloop := zRemRangeLoop_queue (s := s) hk (zScored_scan db hs hk) env u 0
  rw [← zCounted, zRangeAll] at hloop
  simp only [zRemRange, zSizeBatch, not_lt.mpr hk, if_false, Op.bind_run, zIterator,
    Bool.false_eq_true, Op.range_run, hloop, zIncrSize]
  cases hsize : decodeInt64 (s.get (db.zEncodeSizeKey key)) with
  | ok n =>
    obtain ⟨z, hz⟩ := incrSize_run db env
      (u.queue (zRemBatch db s key (zScored db s key))) ZSetType key
      (-Int64.ofNat (zCounted db s key).length) hsize
    simp [hz, Except.map]
  | error e => simp [incrSize, hsize, Except.map]

theorem zDelete_queue (db : DB) (hs : StoreWf s) (hk : key.length ≤ MaxKeySize) (env : Env)
    (u : Txn) : ∃ n, db.zDelete key env s u = (.ok n, { u with batch :=
      u.batch ++ (zRemBatch db s key (zScored db s key) ++ zSizeBatch db s key) }) := by
  rw [zDelete, Op.ignoreErr, zRemRange_queue db hs hk]
  cases hsize : decodeInt64 (s.get (db.zEncodeSizeKey key)) with
  | ok n => exact ⟨_, rfl⟩
  | error e =>
    obtain rfl := decodeInt64_error hsize
    exact ⟨0, rfl⟩

theorem zDelete_long (hk : ¬ key.length ≤ MaxKeySize) (env : Env) (u : Txn) :
    db.zDelete key env s u = (.ok 0, u) := by
  simp [zDelete, zRemRange, Op.ignoreErr, not_le.mp hk]

theorem zRemBatch_deletes (L : List (Bytes × Int64)) : Deletes (zRemBatch db s key L) := by
  intro o ho
  obtain ⟨p, -, ho⟩ := mem_flatMap.mp ho
  rcases mem_append.mp ho with ho | ho
  · split_ifs at ho
    · exact ⟨_, mem_singleton.mp ho⟩
    · cases ho
  · exact ⟨_, mem_singleton.mp ho⟩

theorem mem_zRemBatch_score (hk : key.length ≤ MaxKeySize) {m : Bytes} :
    .delete (db.zEncodeScoreKey key m c) ∈ zRemBatch db s key L ↔ (m, c) ∈ L := by
  rw [zRemBatch, mem_flatMap]
  constructor
  · rintro ⟨p, hp, ho⟩
    rcases mem_append.mp ho with ho | ho
    · split_ifs at ho
      · injection mem_singleton.mp ho with heq
        exact absurd heq (zEncodeScoreKey_ne_set _ _ _)
      · cases ho
    · injection mem_singleton.mp ho with heq
      obtain ⟨hm, hc⟩ := (zEncodeScoreKey_inj (le_uint16 hk)).mp heq
      rwa [hm, hc]
  · intro h
    exact ⟨(m, c), h, mem_append_right _ (mem_singleton_self _)⟩

theorem mem_zRemBatch_set {m : Bytes} :
    .delete (db.zEncodeSetKey key m) ∈ zRemBatch db s key L ↔
      s.get (db.zEncodeSetKey key m) ≠ none ∧ ∃ c, (m, c) ∈ L := by
  rw [zRemBatch, mem_flatMap]
  constructor
  · rintro ⟨p, hp, ho⟩
    rcases mem_append.mp ho with ho | ho
    · split_ifs at ho with hsome
      · injection mem_singleton.mp ho with heq
        obtain rfl := zEncodeSetKey_inj.mp heq
        exact ⟨Option.isSome_iff_ne_none.mp hsome, p.2, hp⟩
      · cases ho
    · injection mem_singleton.mp ho with heq
      exact absurd heq.symm (zEncodeScoreKey_ne_set _ _ _)
  · rintro ⟨hget, c, hc⟩
    refine ⟨(m, c), hc, mem_append_left _ ?_⟩
    rw [if_pos (Option.isSome_iff_ne_none.mpr hget)]
    exact mem_singleton_self _

theorem zSizeBatch_get_item {t : UInt8} (ht : t ∈ DataType.items .ZSET) (r : Bytes) (m : Store) :
    (m.applyBatch (zSizeBatch db s key)).get (db.itemKey t key r) = m.get (db.itemKey t key r) := by
  unfold zSizeBatch
  cases decodeInt64 (s.get (db.zEncodeSizeKey key)) with
  | ok n => exact sizeBatch_get_item ht _ key r m
  | error e => rfl

abbrev zDeleted (db : DB) (s : Store) (key : Bytes) : Store :=
  s.applyBatch (zRemBatch db s key (zScored db s key) ++ zSizeBatch db s key ++
    db.rmBatch s ZSetType key)

theorem zDeleted_item {t : UInt8} (ht : t ∈ DataType.items .ZSET)
    (hek : DataEntry db .ZSET key (db.itemKey t key r)) :
    (zDeleted db s key).get (db.itemKey t key r) =
      if .delete (db.itemKey t key r) ∈ zRemBatch db s key (zScored db s key) then none
      else s.get (db.itemKey t key r) := by
  rw [zDeleted, applyBatch_append, applyBatch_append, rmBatch_get_data hek, zSizeBatch_get_item ht]
  split_ifs with hin
  · exact (zRemBatch_deletes _).get_none (.inr hin)
  · exact (zRemBatch_deletes _).get_of_not_mem hin

theorem zDeleted_member (m : Bytes) : (zDeleted db s key).get (db.zEncodeSetKey key m) =
    if .delete (db.zEncodeSetKey key m) ∈ zRemBatch db s key (zScored db s key) then none
    else s.get (db.zEncodeSetKey key m) :=
  zDeleted_item (t := ZSetType) (by decide) (.zmember key m)

theorem zDeleted_score (m : Bytes) (c : Int64) :
    (zDeleted db s key).get (db.zEncodeScoreKey key m c) =
      if .delete (db.zEncodeScoreKey key m c) ∈ zRemBatch db s key (zScored db s key) then none
      else s.get (db.zEncodeScoreKey key m c) :=
  zDeleted_item (t := ZScoreType) (by decide) (.zscore key m c)

theorem zDeleted_size : (zDeleted db s key).get (db.zEncodeSizeKey key) =
    match decodeInt64 (s.get (db.zEncodeSizeKey key)) with
    | .ok n =>
      if n + -Int64.ofNat (zCounted db s key).length ≤ 0 then none
      else some (PutInt64 (n + -Int64.ofNat (zCounted db s key).length))
    | .error _ => s.get (db.zEncodeSizeKey key) := by
  have hitems : (s.applyBatch (zRemBatch db s key (zScored db s key))).get
      (db.zEncodeSizeKey key) = s.get (db.zEncodeSizeKey key) := by
    refine get_applyBatch_of_not_mem _ fun o ho heq => ?_
    obtain ⟨p, -, ho⟩ := mem_flatMap.mp ho
    have hcases : o.key = db.zEncodeSetKey key p.1 ∨ o.key = db.zEncodeScoreKey key p.1 p.2 := by
      split_ifs at ho <;> simp only [mem_append, mem_singleton, not_mem_nil, false_or] at ho
      · exact ho.imp (congrArg WriteOp.key) (congrArg WriteOp.key)
      · exact .inr (congrArg WriteOp.key ho)
    rw [heq] at hcases
    rcases hcases with h | h
    · exact absurd (plainKey_inj.mp h).2.1 (by decide)
    · exact absurd (plainKey_inj.mp h).2.1 (by decide)
  rw [zDeleted, applyBatch_append, applyBatch_append, rmBatch_get_data (.zsize key), zSizeBatch]
  cases decodeInt64 (s.get (db.zEncodeSizeKey key)) with
  | error e => exact hitems
  | ok n =>
    simp only [sizeBatch]
    split_ifs with hle
    · refine Deletes.get_none ?_ (.inr (.head _))
      intro o ho
      rcases mem_cons.mp ho with rfl | ho
      · exact ⟨_, rfl⟩
      · exact rmBatch_deletes _ _ o ho
    · simp

theorem emits_of_deleteFunc (hs : StoreWf s) (hrun : db.deleteFunc T key env s u = (.ok n, t))
    (hb : t.batch = u.batch ++ b) : Emits db s T (· = key) none (b ++ db.rmBatch s T.code key) := by
  obtain ⟨ws, hws, hemits⟩ := deleteFunc_emits hs T key u
  have hrm : Emits db s T (· = key) none (db.rmBatch s T.code key) := by
    obtain ⟨n, hn⟩ := rmExpire_run db env s ⟨[], 0⟩ T.code key
    have hq : Emitting db env s T (· = key) none ((db.rmExpire T.code key).ignoreErr 0) :=
      Emitting.rmExpire_ignoreErr (A := (· = key)) rfl rfl
    obtain ⟨rs, hrs, hr⟩ := hq ⟨[], 0⟩
    rw [hn] at hrs
    simpa [← append_cancel_left hrs] using hr
  rw [hrun] at hws
  rw [append_cancel_left (hb.symm.trans hws)]
  exact hemits.append hrm

theorem zDeleted_wf (hs : StoreWf s) (hk : key.length ≤ MaxKeySize) :
    StoreWf (zDeleted db s key) := by
  obtain ⟨n, hn⟩ := zDelete_queue db hs hk (Env.quiet 0) ⟨[], 0⟩
  exact (emits_of_deleteFunc (T := .ZSET) hs hn rfl).wf hs

theorem zDeleted_zScored (hs : StoreWf s) (hk : key.length ≤ MaxKeySize) :
    zScored db (zDeleted db s key) key = [] := by
  rw [eq_nil_iff_forall_not_mem]
  rintro ⟨m, c⟩ hp
  obtain ⟨hget, hrange⟩ := (mem_zScored (zDeleted_wf hs hk) hk).mp hp
  rw [zDeleted_score] at hget
  split_ifs at hget with hin
  · exact hget rfl
  · exact hin ((mem_zRemBatch_score hk).mpr ((mem_zScored hs hk).mpr ⟨hget, hrange⟩))

theorem zDelete_wipes (h : Removable db s .ZSET key) :
    Wipes db s .ZSET key (zRemBatch db s key (zScored db s key) ++ zSizeBatch db s key) := by
  obtain ⟨hk, ⟨n, hn, hle⟩, hmembers, hscores⟩ := h
  have hsize : zSizeBatch db s key =
      .delete (db.zEncodeSizeKey key) :: db.rmBatch s ZSetType key := by
    simp [zSizeBatch, hn, sizeBatch, hle]
  rw [hsize]
  constructor
  · refine (zRemBatch_deletes _).append fun o ho => ?_
    rcases mem_cons.mp ho with rfl | ho
    · exact ⟨_, rfl⟩
    · exact rmBatch_deletes _ _ o ho
  · intro ek hek hget
    cases hek with
    | zsize => exact mem_append_right _ (.head _)
    | zmember _ m =>
      exact mem_append_left _ (mem_zRemBatch_set.mpr ⟨hget, hmembers m hget⟩)
    | zscore _ m c =>
      exact mem_append_left _ ((mem_zRemBatch_score hk).mpr (hscores m c hget))

theorem zDelete_residue (hs : StoreWf s) (hk : key.length ≤ MaxKeySize)
    (h : ¬ Removable db s .ZSET key) : ¬ Flushable db (zDeleted db s key) .ZSET key := by
  intro hflush
  have hscored : zScored db (zDeleted db s key) key = [] := zDeleted_zScored hs hk
  have hcounted : zCounted db (zDeleted db s key) key = [] := by
    rw [zCounted, hscored, filter_nil]
  apply h
  refine ⟨hk, ?_, fun m hm => ?_, fun m c hc => ?_⟩
  · have hsize : (zDeleted db s key).get (db.zEncodeSizeKey key) = _ := zDeleted_size
    cases hn : decodeInt64 (s.get (db.zEncodeSizeKey key)) with
    | error e =>
      simp only [hn] at hsize
      rcases hflush with hclean | ⟨-, -, -, ⟨n, hn', -⟩, -⟩
      · rw [← hsize, hclean _ (.inl (.zsize key))] at hn
        cases hn
      · rw [hsize, hn] at hn'
        cases hn'
    | ok n =>
      refine ⟨n, rfl, ?_⟩
      by_contra hgt
      simp only [hn, if_neg hgt] at hsize
      rcases hflush with hclean | ⟨-, -, -, ⟨n', hn', hle⟩, -⟩
      · rw [hclean _ (.inl (.zsize key))] at hsize
        cases hsize
      · rw [hsize, decodeInt64_PutInt64] at hn'
        cases hn'
        rw [hcounted] at hle
        exact hgt (by simpa using hle)
  · by_contra hno
    have hstays : (zDeleted db s key).get (db.zEncodeSetKey key m) ≠ none := by
      rwa [zDeleted_member, if_neg fun hin => hno (mem_zRemBatch_set.mp hin).2]
    rcases hflush with hclean | ⟨-, -, -, -, hmembers, -⟩
    · exact hstays (hclean _ (.inl (.zmember key m)))
    · obtain ⟨c, hc⟩ := hmembers m hstays
      rw [hscored] at hc
      cases hc
  · by_contra hno
    have hstays : (zDeleted db s key).get (db.zEncodeScoreKey key m c) ≠ none := by
      rwa [zDeleted_score, if_neg fun hin => hno ((mem_zRemBatch_score hk).mp hin)]
    rcases hflush with hclean | ⟨-, -, -, -, -, hscores⟩
    · exact hstays (hclean _ (.inl (.zscore key m c)))
    · have hin := hscores m c hstays
      rw [hscored] at hin
      cases hin

theorem deleteFunc_wipes (hs : StoreWf s) (hplain : s.get (db.plainKey T.plain key) ≠ none)
    (h : Removable db s T key) (env : Env) (u : Txn) : ∃ n b,
      db.deleteFunc T key env s u = (.ok n, u.queue b) ∧ Wipes db s T key b := by
  cases T with
  | KV => exact ⟨_, _, delete_run db env s key u, delete_wipes⟩
  | LIST =>
    obtain ⟨v, hv⟩ := Option.ne_none_iff_exists'.mp hplain
    obtain ⟨m, hm, hitems⟩ := h v hv
    obtain ⟨n, hn⟩ := lDelete_queue hv hm
    exact ⟨n, _, hn, lDelete_wipes hitems⟩
  | HASH =>
    obtain ⟨n, hn⟩ := deleteMembers_run db env s .HASH key u
    exact ⟨n, _, hn, clearBatch_wipes (.inl rfl)⟩
  | SET =>
    obtain ⟨n, hn⟩ := deleteMembers_run db env s .SET key u
    exact ⟨n, _, hn, clearBatch_wipes (.inr rfl)⟩
  | ZSET =>
    obtain ⟨n, hn⟩ := zDelete_queue db hs h.1 env u
    exact ⟨n, _, hn, zDelete_wipes h⟩

theorem deleteFunc_residue (hs : StoreWf s) (hplain : s.get (db.plainKey T.plain key) ≠ none)
    (h : ¬ Removable db s T key) (hrun : db.deleteFunc T key env s u = (.ok n, t)) :
    ∃ b, t.batch = u.batch ++ b ∧
      ¬ Flushable db (s.applyBatch (b ++ db.rmBatch s T.code key)) T key := by
  cases T with
  | KV | HASH | SET => exact absurd trivial h
  | LIST =>
    obtain ⟨v, hv⟩ := Option.ne_none_iff_exists'.mp hplain
    have hv : s.get (db.lEncodeMetaKey key) = some v := hv
    cases hm : getMeta v with
    | error e => simp [deleteFunc, lDelete, lGetMeta, hv, hm] at hrun
    | ok m =>
      have hout : ∃ seq, s.get (db.lEncodeListKey key seq) ≠ none ∧
          ¬ (m.1.toUInt32 ≤ seq.toUInt32 ∧ seq.toUInt32 ≤ m.2.toUInt32) := by
        by_contra hno
        refine h fun v' hv' => ⟨m, ?_, fun seq hseq => ?_⟩
        · rw [← Option.some.inj (hv.symm.trans hv'), hm]
        · exact by_contra fun hout => hno ⟨seq, hseq, hout⟩
      obtain ⟨seq, hseq, hout⟩ := hout
      obtain ⟨n', hn'⟩ := lDelete_queue hv hm
      rw [deleteFunc, hn'] at hrun
      cases hrun
      exact ⟨_, rfl, lDelete_residue hseq hout⟩
  | ZSET =>
    by_cases hk : key.length ≤ MaxKeySize
    · obtain ⟨n', hn'⟩ := zDelete_queue db hs hk env u
      rw [deleteFunc, hn'] at hrun
      cases hrun
      exact ⟨_, rfl, zDelete_residue hs hk h⟩
    · rw [deleteFunc, zDelete_long hk env u] at hrun
      cases hrun
      refine ⟨[], by simp, ?_⟩
      rintro (hclean | ⟨-, -, hrem⟩)
      · have hsize := hclean _ (.inl (.zsize key))
        rw [nil_append, rmBatch_get_data (.zsize key)] at hsize
        exact hplain hsize
      · exact hk hrem.1

end

end LedisDB
