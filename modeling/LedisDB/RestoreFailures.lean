import LedisDB.Durations
import LedisDB.Restore

/-!
# Restores that fail

The three calls of `Restore` commit one by one, and the checks of a value are in the
second. When it refuses the value, what the first call cleared is lost. A key with no
bytes is cleared in a sorted set, and only the third call refuses it when there is
nothing to add.
-/

namespace LedisDB

open DB List

/-- The value and the TTL of the key are as before. -/
def KeptKey (db : DB) (T : DataType) (key : Bytes) (s s' : Store) : Prop :=
  ∀ ek, DataEntry db T key ek ∨ ek = db.expEncodeMetaKey T.code key → s'.get ek = s.get ek

/-- The clear of the type takes the key. -/
def Clearable (key : Bytes) : DataType → Prop
  | .KV => True
  | .ZSET => key.length ≤ MaxKeySize
  | _ => ValidKey key

/-- The clear of the type finds nothing of the key, or cannot read the size of a sorted set. -/
def Spared (db : DB) (s : Store) (key : Bytes) : DataType → Prop
  | .LIST => s.get (db.lEncodeMetaKey key) = none ∧
      s.get (db.lEncodeListKey key listInitialSeq) = none ∧ deadlineOf db s .LIST key = none
  | .ZSET => ∀ n, decodeInt64 (s.get (db.zEncodeSizeKey key)) = .ok n → zScored db s key = [] ∧
      (n ≤ 0 → s.get (db.zEncodeSizeKey key) = none ∧ deadlineOf db s .ZSET key = none)
  | T => Clean db s T key

/-- The call that writes the value refuses no part of it. -/
def RdbValue.Accepts (rdb : Rdb) (key : Bytes) : RdbValue rdb.Float64 → Prop
  | .String v => ValidKey key ∧ checkValueSize v = .ok ()
  | .Hash v => ∀ a ∈ v, (do checkHashKFSize key a.Field; checkValueSize a.Value) = .ok ()
  | .List v => v ≠ [] → listMinSeq < listInitialSeq + Int32.ofNat (v.length - 1) ∧
      listInitialSeq + Int32.ofNat (v.length - 1) < listMaxSeq
  | .Set v => ∀ m ∈ v, checkSetKMSize key m = .ok ()
  | .ZSet v => ∀ p ∈ v, checkZSetKMSize key p.1 = .ok () ∧ MinScore < rdb.int64 p.2 ∧
      rdb.int64 p.2 < MaxScore

def Ready (db : DB) (s : Store) (key : Bytes) : DataType → Prop
  | .LIST => s.get (db.lEncodeMetaKey key) = none
  | .ZSET => ∃ n, decodeInt64 (s.get (sizeKey db .ZSET key)) = .ok n
  | T => Clean db s T key

/-- The write `x` refuses its value and changes nothing, or takes it and the TTL can be set. -/
def Fills (env : Env) (st : State) (key : Bytes) (d : Int64) (accepts : Prop)
    (x expire : Op (Ret Unit)) : Prop :=
  (¬ accepts → ∃ e nc, exec env x st = (.error e, ⟨st.store, nc⟩)) ∧
    (accepts → ∃ st', exec env x st = (.ok (), st') ∧
      (0 < d → ValidKey key → ∃ st'', exec env expire st' = (.ok (), st'')))

section
variable {db : DB} {env : Env} {st st' st₁ : State} {s s' : Store} {T : DataType} {key : Bytes}
  {b : Batch} {t : Txn} {n : Int64} {rdb : Rdb}

theorem Clean.keptKey_iff (h : Clean db s' T key) : KeptKey db T key s s' ↔ Clean db s T key :=
  ⟨fun hk ek hek => (hk ek hek).symm.trans (h ek hek),
    fun hc ek hek => (h ek hek).trans (hc ek hek).symm⟩

theorem Deletes.keptKey_iff (hb : Deletes b) :
    KeptKey db T key s (s.applyBatch b) ↔
      ∀ ek, DataEntry db T key ek ∨ ek = db.expEncodeMetaKey T.code key → .delete ek ∈ b →
        s.get ek = none := by
  constructor
  · intro h ek hek hmem
    rw [← h ek hek]
    exact hb.get_none (.inr hmem)
  · intro h ek hek
    by_cases hmem : .delete ek ∈ b
    · rw [h ek hek hmem]
      exact hb.get_none (.inr hmem)
    · exact hb.get_of_not_mem hmem

theorem exec_discard_ok {α : Type} {x : Op (Ret α)} {a : α} (h : exec env x st = (.ok a, st')) :
    exec env x.discard st = (.ok (), st') := by
  rw [exec_discard, h]
  rfl

theorem exec_discard_error {α : Type} {x : Op (Ret α)} {e : Err}
    (h : x env st.store ⟨[], st.nc⟩ = (.error e, t)) :
    exec env x.discard st = (.error e, ⟨st.store, t.nc⟩) := by
  rw [exec_discard, exec, h]
  rfl

theorem clear_exec (henv : env.Commits) (hk : ValidKey key) {del : Bytes → Op Int64}
    (hrun : del key env st.store ⟨[], st.nc⟩ = (.ok n, ⟨b, st.nc⟩)) :
    exec env (db.clear T.code del key) st =
      (.ok n, ⟨st.store.applyBatch (b ++ db.rmBatch st.store T.code key), st.nc⟩) := by
  obtain ⟨r, hrm⟩ := rmExpire_run db env st.store ⟨b, st.nc⟩ T.code key
  refine henv.exec (t := ⟨b ++ db.rmBatch st.store T.code key, st.nc⟩) ?_
  simp [clear, checkKeySize_ok.mpr hk, hrun, hrm]

theorem clear_invalid (hk : ¬ ValidKey key) (del : Bytes → Op Int64) (dataType : UInt8) :
    exec env (db.clear dataType del key).discard st = (.error .errKeySize, ⟨st.store, st.nc⟩) :=
  exec_discard_error (t := ⟨[], st.nc⟩) (by simp [clear, checkKeySize_error hk])

theorem lDelete_found (db : DB) (hm : Proper s) (u : Txn) : ∃ n m,
    db.lDelete key env s u = (.ok n, u.queue (lDeleteBatch db s key m)) ∧
    (s.get (db.lEncodeMetaKey key) = none → m = (listInitialSeq, listInitialSeq)) := by
  cases hv : s.get (db.lEncodeMetaKey key) with
  | none =>
    obtain ⟨n, hn⟩ := lDelete_absent hv
    exact ⟨n, _, hn, fun _ => rfl⟩
  | some v =>
    obtain ⟨m, hget⟩ := hm.listMeta hv
    obtain ⟨n, hn⟩ := lDelete_queue hv hget
    exact ⟨n, m, hn, nofun⟩

theorem rmBatch_undated (h : deadlineOf db s T key = none) : db.rmBatch s T.code key = [] := by
  have hget : s.get (db.expEncodeMetaKey T.code key) = none := h
  rw [rmBatch, hget]

theorem dated_of_kept (hs : StoreWf s) (hb : ∀ o ∈ db.rmBatch s T.code key, o ∈ b)
    (h : ∀ ek, DataEntry db T key ek ∨ ek = db.expEncodeMetaKey T.code key → .delete ek ∈ b →
      s.get ek = none) : deadlineOf db s T key = none := by
  by_contra hne
  exact hne (h _ (.inr rfl) (hb _ (rmBatch_expMeta hs hne)))

theorem lClear_spares (hs : StoreWf s) {m : Int32 × Int32}
    (hm : s.get (db.lEncodeMetaKey key) = none → m = (listInitialSeq, listInitialSeq)) :
    KeptKey db .LIST key s (s.applyBatch (lDeleteBatch db s key m ++ db.rmBatch s ListType key)) ↔
      Spared db s key .LIST := by
  rw [((lDeleteBatch_deletes m).append (rmBatch_deletes _ _)).keptKey_iff]
  constructor
  · intro h
    have hmeta := h _ (.inl (.lmeta key)) (mem_append_left _ (by simp [lDeleteBatch]))
    refine ⟨hmeta, ?_, dated_of_kept hs (fun o ho => mem_append_right _ ho) h⟩
    by_contra hitem
    refine hitem (h _ (.inl (.litem key _)) (mem_append_left _ (mem_lDeleteBatch.mpr ?_)))
    rw [hm hmeta]
    exact ⟨hitem, UInt32.le_refl _, UInt32.le_refl _⟩
  · rintro ⟨hmeta, hitem, hdead⟩ ek hek hmem
    rw [show db.rmBatch s ListType key = [] from rmBatch_undated hdead,
      append_nil, hm hmeta] at hmem
    rcases hek with hek | rfl
    · cases hek with
      | lmeta => exact hmeta
      | litem _ seq =>
        obtain ⟨-, hle, hge⟩ := mem_lDeleteBatch.mp hmem
        have heq : listInitialSeq = seq := congrArg UInt32.toInt32 (UInt32.le_antisymm hle hge)
        rwa [← heq]
    · exact hdead

theorem leBytes_leNat (v : Bytes) : leBytes v.length (leNat v) = v := by
  induction v with
  | nil => rfl
  | cons b v ih =>
    have hdiv : (b.toNat + 256 * leNat v) / 256 = leNat v := by
      have := b.toNat_lt
      omega
    rw [leNat, length_cons, leBytes, hdiv, ih]
    simp

theorem decodeInt64_pos {v : Option Bytes} (h : decodeInt64 v = .ok n) (hn : ¬ n ≤ 0) :
    v = some (PutInt64 n) := by
  cases v with
  | none =>
    cases h
    exact absurd (Int64.le_refl 0) hn
  | some v =>
    simp only [decodeInt64] at h
    split_ifs at h with hnil hlen
    · cases h
      exact absurd (Int64.le_refl 0) hn
    · have hmod := leNat_leBytes v.length (leNat v)
      rw [leBytes_leNat, not_not.mp hlen] at hmod
      rw [← Except.ok.inj h, PutInt64]
      simp only [UInt64.toUInt64_toInt64, UInt64.toNat_ofNat']
      rw [show leNat v % 2 ^ 64 = leNat v from hmod.symm, ← not_not.mp hlen, leBytes_leNat]

theorem size_spares (hs : StoreWf s) (hn : decodeInt64 (s.get (db.zEncodeSizeKey key)) = .ok n) :
    KeptKey db .ZSET key s (s.applyBatch (db.sizeBatch s (sizeKey db .ZSET key) ZSetType key n)) ↔
      (n ≤ 0 → s.get (db.zEncodeSizeKey key) = none ∧ deadlineOf db s .ZSET key = none) := by
  by_cases hle : n ≤ 0
  · have hb : Deletes (.delete (sizeKey db .ZSET key) :: db.rmBatch s ZSetType key) :=
      Deletes.append (a := [_]) (by simp [Deletes]) (rmBatch_deletes _ _)
    rw [sizeBatch, if_pos hle, hb.keptKey_iff]
    constructor
    · intro h _
      exact ⟨h _ (.inl (.zsize key)) (.head _), dated_of_kept hs (fun o ho => .tail _ ho) h⟩
    · intro h ek hek hmem
      rw [show db.rmBatch s ZSetType key = [] from rmBatch_undated (h hle).2, mem_singleton] at hmem
      cases hmem
      exact (h hle).1
  · refine iff_of_true (fun ek _ => ?_) fun h => absurd h hle
    rw [sizeBatch, if_neg hle]
    by_cases hek : ek = sizeKey db .ZSET key
    · rw [hek, OrderedMap.get_applyBatch_put]
      exact (decodeInt64_pos hn hle).symm
    · exact s.get_applyBatch_of_not_mem (by simpa using Ne.symm hek)

theorem zClear_spares (hs : StoreWf s) (hk : key.length ≤ MaxKeySize)
    (hn : decodeInt64 (s.get (db.zEncodeSizeKey key)) = .ok n) :
    KeptKey db .ZSET key s (s.applyBatch
      (zRemBatch db s key (zScored db s key) ++ zSizeBatch db s key)) ↔ Spared db s key .ZSET := by
  have hall : Spared db s key .ZSET ↔ zScored db s key = [] ∧
      (n ≤ 0 → s.get (db.zEncodeSizeKey key) = none ∧ deadlineOf db s .ZSET key = none) := by
    simp [Spared, hn]
  rw [hall]
  by_cases hnil : zScored db s key = []
  · have hsize : zSizeBatch db s key = db.sizeBatch s (sizeKey db .ZSET key) ZSetType key n := by
      simp only [zSizeBatch, hn, zCounted, hnil, filter_nil, length_nil]
      rw [show n + -Int64.ofNat 0 = n by simp]
      rfl
    rw [hnil, hsize, ← size_spares hs hn]
    exact (and_iff_right rfl).symm
  · refine iff_of_false (fun h => hnil ?_) fun h => hnil h.1
    rw [eq_nil_iff_forall_not_mem]
    rintro ⟨m, c⟩ hp
    refine ((mem_zScored hs hk).mp hp).1 ((h _ (.inl (.zscore key m c))).symm.trans ?_)
    rw [applyBatch_append]
    refine (zSizeBatch_get_item (by decide) _ _).trans ?_
    exact (zRemBatch_deletes _).get_none (.inr ((mem_zRemBatch_score hk).mpr hp))

theorem sizeBatch_decodes (m : Store) (z : Int64) : ∃ n, decodeInt64 ((m.applyBatch
    (db.sizeBatch s (sizeKey db T key) T.code key z)).get (sizeKey db T key)) = .ok n := by
  rw [sizeBatch_get]
  split_ifs
  · exact ⟨0, rfl⟩
  · exact ⟨z, decodeInt64_PutInt64 z⟩

theorem ZClear_run (hs : StoreWf s) (hk : key.length ≤ MaxKeySize) (env : Env) (u : Txn) :
    db.ZClear key env s u = ((decodeInt64 (s.get (db.zEncodeSizeKey key))).map fun _ =>
      .commit (Int64.ofNat (zCounted db s key).length), { u with batch :=
        u.batch ++ (zRemBatch db s key (zScored db s key) ++ zSizeBatch db s key) }) := by
  rw [DB.ZClear, Op.bind_run, zRemRange_queue db hs hk]
  cases decodeInt64 (s.get (db.zEncodeSizeKey key)) <;> rfl

theorem xdel_spares (henv : env.Commits) (h : Reached st.store) (db : DB) (T : DataType)
    (key : Bytes) :
    (∃ e st', exec env ((xdel key T).body db) st = (.error e, st') ∧ st'.store = st.store ∧
      (Clearable key T → Spared db st.store key T)) ∨
    ∃ st', exec env ((xdel key T).body db) st = (.ok (), st') ∧ Clearable key T ∧
      Ready db st'.store key T ∧
      (KeptKey db T key st.store st'.store ↔ Spared db st.store key T) := by
  have hs := h.wf
  cases T with
  | KV =>
    obtain ⟨st', hexec, hclean⟩ := @Del_exec db env key st henv hs
    exact .inr ⟨st', exec_discard_ok hexec, trivial, hclean, hclean.keptKey_iff⟩
  | LIST =>
    by_cases hk : ValidKey key
    · obtain ⟨n, m, hrun, hm⟩ := lDelete_found db h.proper ⟨[], st.nc⟩
      refine .inr ⟨_, exec_discard_ok (clear_exec (T := .LIST) henv hk hrun), hk, ?_,
        lClear_spares hs hm⟩
      refine ((lDeleteBatch_deletes m).append (rmBatch_deletes _ _)).get_none (.inr ?_)
      exact mem_append_left _ (by simp [lDeleteBatch])
    · exact .inl ⟨_, _, clear_invalid hk db.lDelete ListType, rfl, fun hk' => absurd hk' hk⟩
  | HASH =>
    by_cases hk : ValidKey key
    · obtain ⟨n, st', hexec, hclean⟩ := (erases_members (.inl rfl)).clear_exec henv hs hk
      exact .inr ⟨st', exec_discard_ok hexec, hk, hclean, hclean.keptKey_iff⟩
    · exact .inl ⟨_, _, clear_invalid hk db.hDelete HashType, rfl, fun hk' => absurd hk' hk⟩
  | SET =>
    by_cases hk : ValidKey key
    · obtain ⟨n, st', hexec, hclean⟩ := (erases_members (.inr rfl)).clear_exec henv hs hk
      exact .inr ⟨st', exec_discard_ok hexec, hk, hclean, hclean.keptKey_iff⟩
    · exact .inl ⟨_, _, clear_invalid hk db.sDelete SetType, rfl, fun hk' => absurd hk' hk⟩
  | ZSET =>
    by_cases hk : key.length ≤ MaxKeySize
    · have hrun := @ZClear_run db st.store key hs hk env ⟨[], st.nc⟩
      cases hn : decodeInt64 (st.store.get (db.zEncodeSizeKey key)) with
      | error e =>
        rw [hn] at hrun
        refine .inl ⟨e, _, exec_discard_error hrun, rfl, fun _ n hn' => ?_⟩
        cases hn.symm.trans hn'
      | ok n =>
        rw [hn] at hrun
        refine .inr ⟨_, exec_discard_ok (henv.exec hrun), hk, ?_, zClear_spares hs hk hn⟩
        simp only [applyBatch_append, zSizeBatch, hn]
        exact sizeBatch_decodes _ _
    · refine Or.inl ⟨.errKeySize, _, exec_discard_error (t := ⟨[], st.nc⟩) ?_,
        rfl, fun hk' => absurd hk' hk⟩
      simp [DB.ZClear, zRemRange, not_le.mp hk]

theorem commits_discard (henv : env.Commits) {α : Type} {x : Op (Ret α)} {r : Ret α}
    (hx : x env st.store ⟨[], st.nc⟩ = (.ok r, t)) :
    ∃ st', exec env x.discard st = (.ok (), st') := by
  rw [exec_discard, exec, hx]
  cases r <;> simp [henv.commit, Except.map]

theorem expireSized_succeeds (henv : env.Commits) {size : Op Int64} {d : Int64}
    (hsize : size env st.store ⟨[], st.nc⟩ = (.ok n, ⟨[], st.nc⟩)) (hpos : 0 < d) :
    ∃ st', exec env (DB.expireDuration d (db.expireSized T.code key size)).discard st =
      (.ok (), st') := by
  by_cases hn : n = 0
  · refine commits_discard henv (r := .done 0) (t := ⟨[], st.nc⟩) ?_
    rw [expireDuration, if_neg (by simpa using hpos)]
    simp [expireSized, hsize, hn]
  · obtain ⟨nc, hrun⟩ := expireSized_discard henv hsize hn hpos
    exact ⟨_, hrun⟩

theorem readSize_expires (henv : env.Commits) (hk : ValidKey key)
    (h : ∃ n, decodeInt64 (st.store.get (sizeKey db T key)) = .ok n) {d : Int64} (hpos : 0 < d) :
    ∃ st', exec env (DB.expireDuration d (db.expireSized T.code key
      (DB.readSize (sizeKey db T key) key))).discard st = (.ok (), st') := by
  obtain ⟨n, hn⟩ := h
  exact expireSized_succeeds henv (n := n) (by simp [readSize, checkKeySize_ok.mpr hk, hn]) hpos

theorem Clean.decodes (h : Clean db s T key) :
    ∃ n, decodeInt64 (s.get (sizeKey db T key)) = .ok n :=
  ⟨0, by rw [sizeKey, h _ (Or.inl (DataEntry.plain db T key)), decodeInt64_none]⟩

theorem sized_fills (henv : env.Commits) {α : Type} {loop : Op Int64} (f : Int64 → α)
    (h : ∃ n, decodeInt64 (st.store.get (sizeKey db T key)) = .ok n) {c : Prop}
    (hloop : (∃ r t, loop env st.store ⟨[], st.nc⟩ = (.ok r, t)) ↔ c) (d : Int64) :
    Fills env st key d c (do
        let num ← loop
        let _ ← db.incrSize (sizeKey db T key) T.code key num
        pure (.commit (f num)) : Op (Ret α)).discard
      (DB.expireDuration d (db.expireSized T.code key
        (DB.readSize (sizeKey db T key) key))).discard := by
  obtain ⟨n, hn⟩ := h
  rcases hrun : loop env st.store ⟨[], st.nc⟩ with ⟨r | r, t⟩
  · refine ⟨fun _ => ⟨r, t.nc, exec_discard_error ?_⟩, fun hc => ?_⟩
    · simp [hrun]
    · obtain ⟨r', t', hrun'⟩ := hloop.mpr hc
      cases hrun.symm.trans hrun'
  · refine ⟨fun hc => absurd (hloop.mp ⟨r, t, hrun⟩) hc, fun _ => ?_⟩
    obtain ⟨z, hz⟩ := incrSize_run db env t T.code key r hn
    refine ⟨_, exec_discard_ok (henv.exec (a := f r) (t := ⟨t.batch ++
      db.sizeBatch st.store (sizeKey db T key) T.code key (n + r), t.nc⟩) ?_),
      fun hpos hk => readSize_expires henv hk ?_ hpos⟩
    · simp only [Op.bind_run, hrun, hz]
      rfl
    · rw [applyBatch_append]
      exact sizeBatch_decodes _ _

theorem addLoop_fills (henv : env.Commits) (hclean : Clean db st.store T key) {α β : Type}
    (pair : β → Bytes × Bytes) (args : List β) (check : Bytes → Bytes → Except Err Unit)
    (enc : Bytes → Bytes) (f : Int64 → α) (d : Int64) :
    Fills env st key d (∀ a ∈ args, check (pair a).1 (pair a).2 = .ok ()) (do
        let num ← DB.addLoop check enc (args.map pair) 0
        let _ ← db.incrSize (sizeKey db T key) T.code key num
        pure (.commit (f num)) : Op (Ret α)).discard
      (DB.expireDuration d (db.expireSized T.code key
        (DB.readSize (sizeKey db T key) key))).discard := by
  refine sized_fills henv f hclean.decodes ?_ d
  constructor
  · rintro ⟨r, t, h⟩
    exact forall_mem_map.mp (addLoop_ok h).2.2
  · exact fun h => addLoop_run (forall_mem_map.mpr h) enc env _ _ 0

theorem Set_fills (henv : env.Commits) (v : Bytes) (d : Int64) :
    Fills env st key d (ValidKey key ∧ checkValueSize v = .ok ()) (db.Set key v).discard
      (db.Expire key d).discard := by
  constructor
  · intro hnot
    by_cases hk : ValidKey key
    · cases hv : checkValueSize v with
      | ok u => exact absurd ⟨hk, hv⟩ hnot
      | error e =>
        exact ⟨e, st.nc, exec_discard_error (t := ⟨[], st.nc⟩)
          (by simp [DB.Set, checkKeySize_ok.mpr hk, hv])⟩
    · exact ⟨.errKeySize, st.nc, exec_discard_error (t := ⟨[], st.nc⟩)
        (by simp [DB.Set, checkKeySize_error hk])⟩
  · rintro ⟨hk, hv⟩
    have hset := @Env.Commits.exec ⟨[.put (db.encodeKVKey key) v], st.nc⟩ _ env henv
      (db.Set key v) st () (by simp [DB.Set, checkKeySize_ok.mpr hk, hv])
    refine ⟨_, exec_discard_ok hset, fun hpos _ => ?_⟩
    exact expireSized_succeeds (T := .KV) (n := 1) henv
      (by simp [DB.Exists, keyExists, checkKeySize_ok.mpr hk]) hpos

theorem LLen_returns (db : DB) (hm : Proper s) (hk : ValidKey key) (u : Txn) :
    ∃ n, db.LLen key env s u = (.ok n, u) := by
  simp only [DB.LLen, lGetMeta, Op.bind_run, checkKeySize_ok.mpr hk, Op.get_run]
  cases hv : s.get (db.lEncodeMetaKey key) with
  | none => exact ⟨_, rfl⟩
  | some v =>
    obtain ⟨m, hget⟩ := hm.listMeta hv
    simp only [hget]
    exact ⟨_, rfl⟩

theorem lSetMeta_returns (ek : Bytes) (head tail : Int32) (u : Txn) :
    ∃ n t, db.lSetMeta ek head tail env s u = (.ok n, t) := by
  unfold lSetMeta
  split_ifs <;> exact ⟨_, _, rfl⟩

theorem RPush_fresh (hk : ValidKey key) (hmeta : s.get (db.lEncodeMetaKey key) = none)
    {v : List Bytes} (hne : v ≠ []) (u : Txn) {seq : Int32}
    (hseq : listInitialSeq + Int32.ofNat (v.length - 1) = seq) :
    if listMinSeq < seq ∧ seq < listMaxSeq then ∃ r t, db.RPush key v env s u = (.ok r, t)
    else ∃ t, db.RPush key v env s u = (.error .errListSeq, t) := by
  have hpos : v.length ≠ 0 := by simpa using hne
  have hget : db.lGetMeta (db.lEncodeMetaKey key) env s u =
      (.ok (listInitialSeq, listInitialSeq, 0), u) := by
    simp [lGetMeta, hmeta]
  have hcheck : (seq ≤ listMinSeq ∨ seq ≥ listMaxSeq) ↔
      ¬ (listMinSeq < seq ∧ seq < listMaxSeq) := by
    rw [not_and_or, Int32.not_lt, Int32.not_lt]
  simp only [DB.RPush, lpush, Op.bind_run, Op.lift_run, checkKeySize_ok.mpr hk, hget,
    if_neg hpos, if_true, lpushLoop_run, Int32.mul_one, Int32.lt_irrefl, if_false, hseq,
    hcheck]
  by_cases hin : listMinSeq < seq ∧ seq < listMaxSeq
  · rw [if_pos hin, if_neg (not_not.mpr hin)]
    simp only [Op.bind_run]
    obtain ⟨n, t, hset⟩ := @lSetMeta_returns db env s (db.lEncodeMetaKey key)
      (if listTailSeq = listHeadSeq then seq else listInitialSeq)
      (if listTailSeq = listHeadSeq then listInitialSeq else seq)
      ⟨u.batch ++ pushBatch db key listInitialSeq 1 0 v, u.nc⟩
    rw [hset]
    exact ⟨_, _, rfl⟩
  · rw [if_neg hin, if_pos hin]
    exact ⟨_, rfl⟩

theorem RPush_fills (henv : env.Commits) (h : Reached st.store) (hk : ValidKey key)
    (hmeta : st.store.get (db.lEncodeMetaKey key) = none) (v : List Bytes) (d : Int64) :
    Fills env st key d (v ≠ [] → listMinSeq < listInitialSeq + Int32.ofNat (v.length - 1) ∧
        listInitialSeq + Int32.ofNat (v.length - 1) < listMaxSeq)
      (db.RPush key v).discard (db.LExpire key d).discard := by
  constructor
  · intro hnot
    obtain ⟨hne, hout⟩ := Classical.not_imp.mp hnot
    have hrun := @RPush_fresh db env _ key hk hmeta v hne ⟨[], st.nc⟩ _ rfl
    rw [if_neg hout] at hrun
    obtain ⟨t, hrun⟩ := hrun
    exact ⟨_, _, exec_discard_error hrun⟩
  · intro hin
    obtain ⟨r, t, hrun⟩ : ∃ r t, db.RPush key v env st.store ⟨[], st.nc⟩ = (.ok r, t) := by
      by_cases hne : v = []
      · subst hne
        simp [DB.RPush, lpush, lGetMeta, checkKeySize_ok.mpr hk, hmeta]
      · have hrun := @RPush_fresh db env _ key hk hmeta v hne ⟨[], st.nc⟩ _ rfl
        rwa [if_pos (hin hne)] at hrun
    obtain ⟨st', hexec⟩ := commits_discard henv hrun
    refine ⟨st', hexec, fun hpos _ => ?_⟩
    have hreach := @Reached.exec db _ st h env (.RPush key v) _ rfl
    rw [← exec_discard_state, hexec] at hreach
    obtain ⟨n, hn⟩ := LLen_returns db hreach.proper hk ⟨[], st'.nc⟩
    exact expireSized_succeeds (T := .LIST) henv hn hpos

theorem ZAdd_fills (henv : env.Commits) (h : Reached st.store)
    (hsize : ∃ n, decodeInt64 (st.store.get (sizeKey db .ZSET key)) = .ok n)
    (args : List ScorePair) (d : Int64) :
    Fills env st key d (∀ a ∈ args, checkZSetKMSize key a.Member = .ok () ∧ MinScore < a.Score ∧
        a.Score < MaxScore) (db.ZAdd key args).discard (db.ZExpire key d).discard := by
  by_cases hnil : args.length = 0
  · obtain rfl := eq_nil_of_length_eq_zero hnil
    refine ⟨fun hnot => absurd (by simp) hnot, fun _ => ⟨st, ?_, fun hpos hk => ?_⟩⟩
    · rfl
    · exact readSize_expires henv hk hsize hpos
  · have hadd : db.ZAdd key args = (do
        let num ← db.zAddLoop key args 0
        let _ ← db.zIncrSize key num
        pure (.commit num)) := if_neg hnil
    rw [hadd]
    refine sized_fills henv id hsize ⟨?_, fun h' => ?_⟩ d
    · rintro ⟨r, t, hrun⟩
      exact (zAddLoop_ok hrun).2.2
    · exact zAddLoop_run (h.proper.score db key) env h' 0 _

theorem restoreCalls_fill (rdb : Rdb) (value : RdbValue rdb.Float64) (henv : env.Commits)
    (h : Reached st.store) (hk : Clearable key value.type)
    (hready : Ready db st.store key value.type) (d : Int64) :
    Fills env st key d (value.Accepts rdb key) ((DB.restoreCalls rdb key d value).2.1.body db)
      ((DB.restoreCalls rdb key d value).2.2.body db) := by
  cases value with
  | String v => exact Set_fills henv v d
  | Hash v =>
    exact addLoop_fills henv hready (fun a : FVPair => (a.Field, a.Value)) v
      (fun field value => do checkHashKFSize key field; checkValueSize value)
      (db.hEncodeHashKey key) (fun _ => ()) d
  | List v => exact RPush_fills henv h hk hready v d
  | Set v =>
    exact addLoop_fills henv hready (fun m => (m, [])) v
      (fun member _ => checkSetKMSize key member) (db.sEncodeSetKey key) id d
  | ZSet v =>
    have hfill := ZAdd_fills henv h hready (v.map fun p => ⟨rdb.int64 p.2, p.1⟩) d
    rwa [forall_mem_map] at hfill

theorem Accepts_empty_key {value : RdbValue rdb.Float64} (hk : Clearable key value.type)
    (h : value.Accepts rdb key) (hinvalid : ¬ ValidKey key) : key = [] ∧ value = .ZSet [] := by
  cases value with
  | String v => exact absurd h.1 hinvalid
  | ZSet v =>
    have hnil : key.length = 0 := by
      by_contra hne
      exact hinvalid ⟨Nat.pos_of_ne_zero hne, hk⟩
    refine ⟨eq_nil_of_length_eq_zero hnil, ?_⟩
    cases v with
    | nil => rfl
    | cons p ps =>
      have hcheck := (h p (.head _)).1
      rw [checkZSetKMSize, checkKMSize_error hinvalid] at hcheck
      cases hcheck
  | _ => exact absurd hk hinvalid

theorem Restore_cleared {value : RdbValue rdb.Float64} {data : rdb.Data} {ttl : Int64}
    (hdec : rdb.DecodeDump data = .ok value) (henv : env.Commits)
    (hclear : exec env ((xdel key value.type).body db) st = (.ok (), st₁)) (h : Reached st₁.store)
    (hk : Clearable key value.type) (hready : Ready db st₁.store key value.type) :
    (value.Accepts rdb key ∧ (key = [] → ttl ≤ 0)) ∧
        (∃ st', db.Restore rdb key ttl data env st = (.ok (), st')) ∨
      ¬ (value.Accepts rdb key ∧ (key = [] → ttl ≤ 0)) ∧
        ∃ e nc, db.Restore rdb key ttl data env st = (.error e, ⟨st₁.store, nc⟩) := by
  rw [← restoreCalls_clear rdb (restoreSeconds ttl)] at hclear
  obtain ⟨hno, hyes⟩ := restoreCalls_fill rdb value henv h hk hready (restoreSeconds ttl)
  by_cases hacc : value.Accepts rdb key
  · obtain ⟨st₂, hfill, hexp⟩ := hyes hacc
    by_cases hpos : 0 < ttl
    · have hsecs := restoreSeconds_pos hpos
      by_cases hvalid : ValidKey key
      · obtain ⟨st₃, hexp⟩ := hexp hsecs hvalid
        refine .inl ⟨⟨hacc, fun hnil => absurd (hnil ▸ hvalid) (by decide)⟩, st₃, ?_⟩
        simp [DB.Restore, hdec, hclear, hfill, if_pos hsecs, hexp]
      · obtain ⟨rfl, rfl⟩ := Accepts_empty_key hk hacc hvalid
        refine .inr ⟨fun h => Int64.not_le.mpr hpos (h.2 rfl), .errKeySize, st₁.nc, ?_⟩
        have hadd : exec env ((restoreCalls rdb [] (restoreSeconds ttl)
            (.ZSet [])).2.1.body db) st₁ = (.ok (), st₁) :=
          exec_discard env (db.ZAdd [] []) st₁
        have hexp : exec env ((restoreCalls rdb [] (restoreSeconds ttl)
            (.ZSet [])).2.2.body db) st₁ = (.error .errKeySize, ⟨st₁.store, st₁.nc⟩) := by
          refine exec_discard_error (t := ⟨[], st₁.nc⟩) ?_
          rw [DB.ZExpire, expireDuration, if_neg (Int64.not_le.mpr hsecs)]
          rfl
        simp [DB.Restore, hdec, hclear, hadd, if_pos hsecs, hexp]
    · have hle := Int64.not_lt.mp hpos
      refine .inl ⟨⟨hacc, fun _ => hle⟩, st₂, ?_⟩
      simp [DB.Restore, hdec, hclear, hfill, if_neg (restoreSeconds_nonpos hle)]
  · obtain ⟨e, nc, hfill⟩ := hno hacc
    refine .inr ⟨fun h => hacc h.1, e, nc, ?_⟩
    simp [DB.Restore, hdec, hclear, hfill]

end

theorem failed_restore_iff (rdb : Rdb) (db : DB) (env : Env) (henv : env.Commits) (st : State)
    (h : Reached st.store) (key : Bytes) (ttl : Int64) (data : rdb.Data) :
    (∀ e st' T, db.Restore rdb key ttl data env st = (.error e, st') →
      (∀ value, rdb.DecodeDump data = .ok value → value.type = T) →
        KeptKey db T key st.store st'.store) ↔
    ∀ value, rdb.DecodeDump data = .ok value → Clearable key value.type →
      value.Accepts rdb key ∧ (key = [] → ttl ≤ 0) ∨ Spared db st.store key value.type := by
  cases hdec : rdb.DecodeDump data with
  | error e =>
    refine iff_of_true (fun e st' T hr _ => ?_) nofun
    rw [DB.Restore, hdec] at hr
    cases hr
    exact fun _ _ => rfl
  | ok value =>
    simp only [Except.ok.injEq, forall_eq']
    rcases xdel_spares henv h db value.type key with
      ⟨e, st₁, hclear, hstore, hspared⟩ | ⟨st₁, hclear, hk, hready, hkept⟩
    · refine iff_of_true (fun e' st' T hr _ => ?_) fun hk => .inr (hspared hk)
      rw [← restoreCalls_clear rdb (DB.restoreSeconds ttl)] at hclear
      simp only [DB.Restore, hdec, hclear] at hr
      cases hr
      exact fun _ _ => by rw [hstore]
    · have hreach : Reached st₁.store := by
        have hcall := h.call db env (.write (xdel key value.type))
        rwa [Call.step, hclear] at hcall
      rcases Restore_cleared hdec henv hclear hreach hk hready with
        ⟨hacc, st', hok⟩ | ⟨hacc, e, nc, hfail⟩
      · refine iff_of_true (fun e st'' T hr _ => ?_) fun _ => .inl hacc
        cases hok.symm.trans hr
      · rw [hfail, or_iff_right hacc, ← hkept]
        constructor
        · exact fun h' _ => h' e ⟨st₁.store, nc⟩ _ rfl rfl
        · rintro h' _ _ _ hr rfl
          cases hr
          exact h' hk

theorem failed_restore_absent : ∃ st',
    DB.zero.Restore Migration.plain [107] 0 (.Hash [⟨[], [118]⟩]) (Env.quiet 0) State.empty =
      (.error .errHashFieldSize, st') ∧
    KeptKey DB.zero .HASH [107] State.empty.store st'.store := by
  refine ⟨_, rfl, (failed_restore_iff Migration.plain DB.zero (Env.quiet 0) ⟨rfl, fun _ _ => rfl⟩
    State.empty .empty [107] 0 (.Hash [⟨[], [118]⟩])).mpr ?_ _ _ _ rfl ?_⟩
  · rintro value h -
    cases h
    exact .inr fun _ _ => rfl
  · intro value h
    cases h
    rfl

theorem failed_restore_loses : ∃ st st', Reached st.store ∧
    DB.zero.Restore Migration.plain [107] 0 (.ZSet [([110], MaxScore)]) (Env.quiet 0) st =
      (.error .errScoreOverflow, st') ∧
    st.store.get (DB.zero.zEncodeSetKey [107] [109]) = some (PutInt64 1) ∧
    st'.store.get (DB.zero.zEncodeSetKey [107] [109]) = none :=
  ⟨_, _, @Reached.call State.empty DB.zero (Env.quiet 0) (.write (.ZAdd [107] [⟨1, [109]⟩])) .empty,
    rfl, rfl, rfl⟩

end LedisDB
