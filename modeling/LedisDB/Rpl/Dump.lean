import Mathlib.Algebra.Order.Ring.GeomSum
import Mathlib.Data.Fintype.BigOperators
import Mathlib.Data.Fintype.Vector
import LedisDB.Call
import LedisDB.Rpl.Replay

/-!
# Dumps

`ledis/dump.go`, and `flushAll` of `ledis/ledis.go`. A dump is the commit ID and
the entries of a snapshot, keys and values compressed, the lengths of the
compressed keys in 16 bits and those of the values in 32. Loading it clears the
node first. The batch that is loaded is committed now and then while it grows and
is never emptied, so each commit applies all of it.

A dump whose lengths fit in their fields is loaded as it was. Where one does not
fit, the reader meets the start of a compressed key or value, which snappy does
not decode. No code makes all long keys fit, since there are more of them than short
encodings.
-/

namespace LedisDB.Rpl

open List OrderedMap

/-- The deletes of `flushAll`, and the store after the commits in between. -/
def deleteAll : List Bytes → ℕ → Batch → Store → Batch × Store
  | [], _, w, s => (w, s)
  | k :: ks, n, w, s =>
    if n + 1 = 10000 then deleteAll ks 0 (w ++ [.delete k]) (s.applyBatch w)
    else deleteAll ks (n + 1) (w ++ [.delete k]) s

variable (sn : Snappy) (l : Ledis) (ldb : Store)

/-- The part of `flushAll` on the database. -/
def flushStore : Store :=
  let (w, s) := deleteAll ldb.keys 0 [] ldb
  s.applyBatch w

def dumpEntry (e : Bytes × Bytes) : Bytes :=
  let key := sn.Encode e.1
  let value := sn.Encode e.2
  beBytes 2 (UInt16.ofNat key.length).toNat ++ (key ++
    (beBytes 4 (UInt32.ofNat value.length).toNat ++ value))

/-- The dump of a snapshot under a commit ID, which is 0 without replication. -/
def dumpStore (commitID : UInt64) (ldb : Store) : Bytes :=
  beBytes 8 commitID.toNat ++ ldb.entries.flatMap (dumpEntry sn)

def loadChunk (n : ℕ) (rb : Bytes) : Except Err (Bytes × Bytes) :=
  if rb.length < n then .error .eof
  else do
    let b ← sn.Decode (rb.take n)
    .ok (b, rb.drop n)

def loadEntry (keyLen : ℕ) (rb : Bytes) : Except Err ((Bytes × Bytes) × Bytes) := do
  let (key, rb) ← loadChunk sn keyLen rb
  let (buf, rb) ← Log.readFull rb 4
  let (value, rb) ← loadChunk sn (beNat buf) rb
  .ok ((key, value), rb)

def loadEntries (sn : Snappy) : ℕ → Bytes → Batch → Store → Except Err Batch × Store
  | 0, _, wb, s => (.ok wb, s)
  | fuel + 1, rb, wb, s =>
    match Log.readFull rb 2 with
    | .error .eof => (.ok wb, s)
    | .error e => (.error e, s)
    | .ok (buf, rb) =>
      match loadEntry sn (beNat buf) rb with
      | .error e => (.error e, s)
      | .ok (e, rb) =>
        let wb := wb ++ [.put e.1 e.2]
        loadEntries sn fuel rb wb (if wb.length % 1024 = 0 then s.applyBatch wb else s)

/-- The part of `LoadDump` on the database, with the commit ID of the head. -/
def loadStore (rb : Bytes) : Except Err UInt64 × Store :=
  let ldb := flushStore ldb
  match Log.readFull rb 8 with
  | .error e => (.error e, ldb)
  | .ok (buf, rb) =>
    match loadEntries sn (rb.length + 1) rb [] ldb with
    | (.error e, s) => (.error e, s)
    | (.ok wb, s) => (.ok (UInt64.ofNat (beNat buf)), s.applyBatch wb)

namespace Ledis

def flushAll : Ledis := ⟨flushStore l.ldb, l.r.Clear⟩

def FlushAll : Ledis := l.flushAll

def Dump : Bytes := dumpStore sn l.r.commitID l.ldb

def LoadDump (rb : Bytes) : Except Err UInt64 × Ledis :=
  match loadStore sn l.ldb rb with
  | (.error e, ldb) => (.error e, ⟨ldb, l.r.Clear⟩)
  | (.ok commitID, ldb) => (.ok commitID, ⟨ldb, (l.r.Clear.UpdateCommitID none commitID).2⟩)

end Ledis

theorem deleteAll_spec (s₀ : Store) (ks : List Bytes) (n : ℕ) {a w : Batch} (ha : a <+: w) :
    ∃ a', a' <+: w ++ ks.map .delete ∧
      deleteAll ks n w (s₀.applyBatch a) = (w ++ ks.map .delete, s₀.applyBatch a') := by
  induction ks generalizing n a w with
  | nil => exact ⟨a, by simpa using ha, by simp [deleteAll]⟩
  | cons k ks ih =>
    have hstep : w ++ (k :: ks).map .delete = w ++ [.delete k] ++ ks.map .delete := by simp
    rw [hstep]
    unfold deleteAll
    split_ifs with hn
    · rw [applyBatch_of_initial _ ha]
      exact ih 0 (prefix_append _ _)
    · exact ih (n + 1) (ha.trans (prefix_append _ _))

@[simp] theorem flushStore_eq : flushStore ldb = .empty := by
  obtain ⟨a, ha, heq⟩ := deleteAll_spec ldb ldb.keys 0 (prefix_refl [])
  rw [applyBatch_nil] at heq
  rw [flushStore, heq]
  rw [nil_append] at ha ⊢
  exact (applyBatch_of_initial _ ha).trans (applyBatch_delete_keys _)

section
variable {sn : Snappy} {e : Bytes × Bytes} {es : List (Bytes × Bytes)} {ldb : Store}

/-- The lengths of the compressed key and value fit in their fields. -/
def Dumpable (sn : Snappy) (e : Bytes × Bytes) : Prop :=
  (sn.Encode e.1).length < 2 ^ 16 ∧ (sn.Encode e.2).length < 2 ^ 32

theorem loadChunk_Encode (sn : Snappy) (b rb : Bytes) :
    loadChunk sn (sn.Encode b).length (sn.Encode b ++ rb) = .ok (b, rb) := by
  rw [loadChunk, if_neg (by rw [length_append]; omega), take_left, drop_left, sn.Decode_Encode]
  rfl

theorem readFull_beBytes (k : ℕ) {n : ℕ} (hn : n < 256 ^ k) (rb : Bytes) :
    ∃ buf, Log.readFull (beBytes k n ++ rb) k = .ok (buf, rb) ∧ beNat buf = n := by
  refine ⟨beBytes k n, ?_, beNat_beBytes_of_lt hn⟩
  rw [Log.readFull_append rb (by simp), take_of_length_le (by simp),
    drop_eq_nil_of_le (by simp), nil_append]

theorem dumpEntry_append (h : Dumpable sn e) (rb : Bytes) :
    dumpEntry sn e ++ rb = beBytes 2 (sn.Encode e.1).length ++ (sn.Encode e.1 ++
      (beBytes 4 (sn.Encode e.2).length ++ (sn.Encode e.2 ++ rb))) := by
  have hkey : (UInt16.ofNat (sn.Encode e.1).length).toNat = (sn.Encode e.1).length := by
    rw [UInt16.toNat_ofNat', Nat.mod_eq_of_lt h.1]
  have hvalue : (UInt32.ofNat (sn.Encode e.2).length).toNat = (sn.Encode e.2).length := by
    rw [UInt32.toNat_ofNat', Nat.mod_eq_of_lt h.2]
  simp [dumpEntry, hkey, hvalue]

theorem loadEntry_Encode {x buf rb : Bytes} (e : Bytes × Bytes)
    (hbuf : Log.readFull x 4 = .ok (buf, sn.Encode e.2 ++ rb))
    (hnat : beNat buf = (sn.Encode e.2).length) :
    loadEntry sn (sn.Encode e.1).length (sn.Encode e.1 ++ x) = .ok (e, rb) := by
  rw [loadEntry, loadChunk_Encode]
  dsimp only [bind, Except.bind]
  rw [hbuf]
  dsimp only
  rw [hnat, loadChunk_Encode]

theorem loadEntries_cons (h : Dumpable sn e) (fuel : ℕ) (rb : Bytes) (wb : Batch) (s : Store) :
    loadEntries sn (fuel + 1) (dumpEntry sn e ++ rb) wb s =
      loadEntries sn fuel rb (wb ++ [.put e.1 e.2])
        (if (wb ++ [WriteOp.put e.1 e.2]).length % 1024 = 0 then
          s.applyBatch (wb ++ [.put e.1 e.2]) else s) := by
  obtain ⟨buf, hbuf, hnat⟩ := readFull_beBytes 2 (lt_of_lt_of_eq h.1 (by norm_num))
    (sn.Encode e.1 ++ (beBytes 4 (sn.Encode e.2).length ++ (sn.Encode e.2 ++ rb)))
  obtain ⟨vbuf, hvbuf, hvnat⟩ := readFull_beBytes 4 (lt_of_lt_of_eq h.2 (by norm_num))
    (sn.Encode e.2 ++ rb)
  rw [dumpEntry_append h, loadEntries, hbuf]
  dsimp only
  rw [hnat, loadEntry_Encode e hvbuf hvnat]

theorem loadEntries_dump (s₀ : Store) (h : ∀ e ∈ es, Dumpable sn e) {fuel : ℕ}
    (hfuel : es.length < fuel) {a wb : Batch} (ha : a <+: wb) :
    ∃ a', a' <+: wb ++ es.map (fun e => .put e.1 e.2) ∧
      loadEntries sn fuel (es.flatMap (dumpEntry sn)) wb (s₀.applyBatch a) =
        (.ok (wb ++ es.map fun e => .put e.1 e.2), s₀.applyBatch a') := by
  induction es generalizing fuel a wb with
  | nil =>
    obtain ⟨fuel, rfl⟩ : ∃ f, fuel = f + 1 := ⟨fuel - 1, by omega⟩
    exact ⟨a, by simpa using ha, by simp [loadEntries, Log.readFull]⟩
  | cons e es ih =>
    obtain ⟨fuel, rfl⟩ : ∃ f, fuel = f + 1 := ⟨fuel - 1, by omega⟩
    have hes := fun x hx => h x (.tail _ hx)
    have hlen : es.length < fuel := by
      rw [length_cons] at hfuel
      omega
    have hgrown : a <+: wb ++ [.put e.1 e.2] := ha.trans (prefix_append _ _)
    rw [flatMap_cons, loadEntries_cons (h e (.head _)), map_cons, append_cons]
    split_ifs with hcommit
    · rw [applyBatch_of_initial _ hgrown]
      exact ih hes hlen prefix_rfl
    · exact ih hes hlen hgrown

theorem dumpEntry_length_pos (sn : Snappy) (e : Bytes × Bytes) : 0 < (dumpEntry sn e).length := by
  simp only [dumpEntry, length_append, beBytes_length]
  omega

theorem length_le_flatMap_dumpEntry (sn : Snappy) (es : List (Bytes × Bytes)) :
    es.length ≤ (es.flatMap (dumpEntry sn)).length := by
  induction es with
  | nil => exact Nat.zero_le _
  | cons e es ih =>
    have := dumpEntry_length_pos sn e
    rw [flatMap_cons, length_append, length_cons]
    omega

theorem loadStore_dumpStore (ldb' : Store) (commitID : UInt64)
    (h : ∀ e ∈ ldb.entries, Dumpable sn e) :
    loadStore sn ldb' (dumpStore sn commitID ldb) = (.ok commitID, ldb) := by
  obtain ⟨buf, hbuf, hnat⟩ := readFull_beBytes 8 commitID.toNat_lt
    (ldb.entries.flatMap (dumpEntry sn))
  have hfuel := length_le_flatMap_dumpEntry sn ldb.entries
  obtain ⟨a, ha, hload⟩ := loadEntries_dump .empty h (Nat.lt_succ_of_le hfuel) (prefix_refl [])
  rw [applyBatch_nil] at hload
  rw [loadStore, dumpStore, flushStore_eq, hbuf]
  dsimp only
  rw [hload, hnat, UInt64.ofNat_toNat]
  rw [nil_append] at ha ⊢
  dsimp only
  rw [applyBatch_of_initial _ ha, applyBatch_put_entries]

theorem Ledis.LoadDump_dumpStore (commitID : UInt64) (h : ∀ e ∈ ldb.entries, Dumpable sn e) :
    l.LoadDump sn (dumpStore sn commitID ldb) =
      (.ok commitID, ⟨ldb, (l.r.Clear.UpdateCommitID none commitID).2⟩) := by
  rw [LoadDump, loadStore_dumpStore l.ldb commitID h]

end

/-- Only whole encodings are decoded, which is so for snappy: they start with the length of
what they encode, and every part of them stands for at least a byte. -/
def Snappy.Strict (sn : Snappy) : Prop :=
  ∀ b n, n < (sn.Encode b).length → ∃ e, sn.Decode ((sn.Encode b).take n) = .error e

section
variable {sn : Snappy} {e : Bytes × Bytes} {es : List (Bytes × Bytes)} {n : ℕ}

section
variable (hsn : sn.Strict)
include hsn

theorem Snappy.Strict.loadChunk_error (b rb : Bytes)
    (hn : n < (sn.Encode b).length) : ∃ err, loadChunk sn n (sn.Encode b ++ rb) = .error err := by
  obtain ⟨err, herr⟩ := hsn b n hn
  refine ⟨err, ?_⟩
  rw [loadChunk, if_neg (by rw [length_append]; omega), take_append_of_le_length hn.le, herr]
  rfl

theorem loadEntry_value_error {x buf rb : Bytes} (e : Bytes × Bytes)
    (hbuf : Log.readFull x 4 = .ok (buf, sn.Encode e.2 ++ rb))
    (hnat : beNat buf < (sn.Encode e.2).length) :
    ∃ err, loadEntry sn (sn.Encode e.1).length (sn.Encode e.1 ++ x) = .error err := by
  obtain ⟨err, herr⟩ := hsn.loadChunk_error e.2 rb hnat
  refine ⟨err, ?_⟩
  rw [loadEntry, loadChunk_Encode]
  dsimp only [bind, Except.bind]
  rw [hbuf]
  dsimp only
  rw [herr]

theorem loadEntry_key_error (e : Bytes × Bytes) (x : Bytes) (hn : n < (sn.Encode e.1).length) :
    ∃ err, loadEntry sn n (sn.Encode e.1 ++ x) = .error err := by
  obtain ⟨err, herr⟩ := hsn.loadChunk_error e.1 x hn
  refine ⟨err, ?_⟩
  rw [loadEntry, herr]
  rfl

theorem loadEntries_error (h : ¬ Dumpable sn e) (fuel : ℕ) (rb : Bytes) (wb : Batch) (s : Store) :
    ∃ err, loadEntries sn (fuel + 1) (dumpEntry sn e ++ rb) wb s = (.error err, s) := by
  obtain ⟨buf, hbuf, hnat⟩ := readFull_beBytes 2
    (lt_of_lt_of_eq (UInt16.toNat_lt (UInt16.ofNat (sn.Encode e.1).length)) (by norm_num))
    (sn.Encode e.1 ++ (beBytes 4 (UInt32.ofNat (sn.Encode e.2).length).toNat ++
      (sn.Encode e.2 ++ rb)))
  obtain ⟨vbuf, hvbuf, hvnat⟩ := readFull_beBytes 4
    (lt_of_lt_of_eq (UInt32.toNat_lt (UInt32.ofNat (sn.Encode e.2).length)) (by norm_num))
    (sn.Encode e.2 ++ rb)
  have hload : ∃ err, loadEntry sn (beNat buf) (sn.Encode e.1 ++
      (beBytes 4 (UInt32.ofNat (sn.Encode e.2).length).toNat ++ (sn.Encode e.2 ++ rb))) =
      .error err := by
    by_cases hkey : (sn.Encode e.1).length < 2 ^ 16
    · have hvalue := fun hlt => h ⟨hkey, hlt⟩
      have hlen : beNat buf = (sn.Encode e.1).length := by
        rw [hnat, UInt16.toNat_ofNat', Nat.mod_eq_of_lt hkey]
      rw [hlen]
      refine loadEntry_value_error hsn e hvbuf (hvnat.trans_lt ?_)
      exact lt_of_lt_of_le (UInt32.toNat_lt _) (Nat.le_of_not_lt hvalue)
    · refine loadEntry_key_error hsn e _ (hnat.trans_lt ?_)
      exact lt_of_lt_of_le (UInt16.toNat_lt _) (Nat.le_of_not_lt hkey)
  obtain ⟨err, herr⟩ := hload
  refine ⟨err, ?_⟩
  have hentry : dumpEntry sn e ++ rb = beBytes 2 (UInt16.ofNat (sn.Encode e.1).length).toNat ++
      (sn.Encode e.1 ++ (beBytes 4 (UInt32.ofNat (sn.Encode e.2).length).toNat ++
        (sn.Encode e.2 ++ rb))) := by
    simp [dumpEntry]
  rw [hentry, loadEntries, hbuf]
  dsimp only
  rw [herr]

theorem loadEntries_dump_error (h : ∃ e ∈ es, ¬ Dumpable sn e) {fuel : ℕ}
    (hfuel : es.length < fuel) (wb : Batch) (s : Store) :
    ∃ err, (loadEntries sn fuel (es.flatMap (dumpEntry sn)) wb s).1 = .error err := by
  induction es generalizing fuel wb s with
  | nil =>
    obtain ⟨e, he, -⟩ := h
    cases he
  | cons e es ih =>
    obtain ⟨fuel, rfl⟩ : ∃ f, fuel = f + 1 := ⟨fuel - 1, by omega⟩
    rw [flatMap_cons]
    by_cases hfits : Dumpable sn e
    · have hrest : ∃ e ∈ es, ¬ Dumpable sn e := by
        obtain ⟨x, hx, hnot⟩ := h
        rcases mem_cons.mp hx with rfl | hx
        · exact absurd hfits hnot
        · exact ⟨x, hx, hnot⟩
      rw [loadEntries_cons hfits]
      exact ih hrest (by rw [length_cons] at hfuel; omega) _ _
    · obtain ⟨err, herr⟩ := loadEntries_error hsn hfits fuel (es.flatMap (dumpEntry sn)) wb s
      exact ⟨err, by rw [herr]⟩

theorem loadStore_error (ldb' : Store) (commitID : UInt64) {ldb : Store}
    (h : ∃ e ∈ ldb.entries, ¬ Dumpable sn e) :
    ∃ err, (loadStore sn ldb' (dumpStore sn commitID ldb)).1 = .error err := by
  obtain ⟨buf, hbuf, -⟩ := readFull_beBytes 8 commitID.toNat_lt (ldb.entries.flatMap (dumpEntry sn))
  have hfuel := length_le_flatMap_dumpEntry sn ldb.entries
  obtain ⟨err, herr⟩ := loadEntries_dump_error hsn h (Nat.lt_succ_of_le hfuel) [] (flushStore ldb')
  refine ⟨err, ?_⟩
  rw [loadStore, dumpStore, hbuf]
  dsimp only
  rcases hrun : loadEntries sn ((ldb.entries.flatMap (dumpEntry sn)).length + 1)
    (ldb.entries.flatMap (dumpEntry sn)) [] (flushStore ldb') with ⟨res, s⟩
  rw [hrun] at herr
  obtain rfl := herr
  rfl

end

def Replication.EmptyLog (r : Replication) : Prop :=
  r.FirstLogID.1 = 0 ∧ r.LastLogID.1 = 0 ∧ ∀ id, 0 < id → r.GetLog id = .error .ErrLogNotFound

theorem LogStore.Clear_empty (s : LogStore) :
    s.Clear.FirstID.1 = 0 ∧ s.Clear.LastID.1 = 0 ∧
      ∀ id, 0 < id → s.Clear.GetLog id = .error .ErrLogNotFound := by
  cases s with
  | file s =>
    refine ⟨rfl, rfl, fun id hid => ?_⟩
    change s.Clear.GetLog id = _
    have hw : s.Clear.w.GetLog id = .error .ErrLogNotFound := if_pos (.inr hid)
    rw [FileStore.GetLog, hw]
    rfl
  | level s => exact ⟨rfl, rfl, fun _ _ => rfl⟩

theorem Replication.Clear_UpdateCommitID (r : Replication) (id : UInt64) :
    (r.Clear.UpdateCommitID none id).2.commitID = id ∧
      (r.Clear.UpdateCommitID none id).2.EmptyLog := by
  have hs : (r.Clear.UpdateCommitID none id).2.s = r.s.Clear := by
    unfold UpdateCommitID updateCommitID
    split_ifs <;> rfl
  refine ⟨?_, ?_⟩
  · unfold UpdateCommitID updateCommitID
    split_ifs <;> rfl
  · have hclear := LogStore.Clear_empty r.s
    unfold EmptyLog FirstLogID LastLogID GetLog
    rwa [hs]

/-- Every dump of the store is loaded as it was, by a database without replication and by a
node with it, exactly when the lengths of its entries fit. -/
theorem Ledis.LoadDump_undoes_Dump_iff (hsn : sn.Strict) (commitID : UInt64) (ldb : Store) :
    ((∀ ldb', loadStore sn ldb' (dumpStore sn commitID ldb) = (.ok commitID, ldb)) ∧
      ∀ l : Ledis, ∃ r, l.LoadDump sn (dumpStore sn commitID ldb) = (.ok commitID, ⟨ldb, r⟩) ∧
        r.commitID = commitID ∧ r.EmptyLog) ↔
      ∀ e ∈ ldb.entries, Dumpable sn e := by
  constructor
  · rintro ⟨hload, -⟩ e he
    by_contra hnot
    obtain ⟨err, herr⟩ := loadStore_error hsn ldb commitID ⟨e, he, hnot⟩
    rw [hload ldb] at herr
    cases herr
  · intro h
    refine ⟨fun ldb' => loadStore_dumpStore ldb' commitID h, fun l => ?_⟩
    exact ⟨_, l.LoadDump_dumpStore commitID h, l.r.Clear_UpdateCommitID commitID⟩

end

def markedDecode : Bytes → Except Err Bytes
  | [0] => .ok []
  | 1 :: x :: rest => (markedDecode rest).map (x :: ·)
  | _ => .error .corrupt

def marked : Snappy where
  Encode b := b.flatMap (fun x => [1, x]) ++ [0]
  Decode := markedDecode
  Decode_Encode b := by
    induction b with
    | nil => rfl
    | cons x b ih =>
      change (markedDecode (b.flatMap (fun x => [1, x]) ++ [0])).map (x :: ·) = _
      rw [ih]
      rfl

theorem marked_length (b : Bytes) : (marked.Encode b).length = 2 * b.length + 1 := by
  simp [marked, Nat.mul_comm]

theorem marked_strict : marked.Strict := by
  intro b n hn
  induction b generalizing n with
  | nil =>
    obtain rfl : n = 0 := by
      rw [marked_length, length_nil] at hn
      omega
    exact ⟨.corrupt, rfl⟩
  | cons x b ih =>
    match n with
    | 0 => exact ⟨.corrupt, rfl⟩
    | 1 => exact ⟨.corrupt, rfl⟩
    | n + 2 =>
      obtain ⟨e, he⟩ := ih n (by rw [marked_length] at hn ⊢; simp at hn ⊢; omega)
      refine ⟨e, ?_⟩
      change (markedDecode ((marked.Encode b).take n)).map (x :: ·) = _
      change markedDecode _ = _ at he
      rw [he]
      rfl

theorem LoadDump_undoes_Dump_entry :
    ((∀ ldb', loadStore marked ldb' (dumpStore marked 7 (OrderedMap.empty.insert [1] [2])) =
        (.ok 7, OrderedMap.empty.insert [1] [2])) ∧
      ∀ l : Ledis, ∃ r, l.LoadDump marked (dumpStore marked 7 (OrderedMap.empty.insert [1] [2])) =
        (.ok 7, ⟨OrderedMap.empty.insert [1] [2], r⟩) ∧ r.commitID = 7 ∧ r.EmptyLog) :=
  (Ledis.LoadDump_undoes_Dump_iff marked_strict 7 (OrderedMap.empty.insert [1] [2])).mpr (by
    intro e he
    obtain rfl : e = ([1], [2]) := List.mem_singleton.mp he
    exact ⟨by decide, by decide⟩)

theorem zDelete_long (db : DB) {key : Bytes} (h : MaxKeySize < key.length) (env : Env) (s : Store)
    (t : Txn) : db.zDelete key env s t = (.ok 0, t) := by
  rw [DB.zDelete, DB.zRemRange, if_pos h]
  rfl

theorem ZUnionStore_long (db : DB) {key : Bytes} (h : MaxKeySize < key.length) :
    (exec (.quiet 0) (db.ZUnionStore key [[0]] none AggregateSum) .empty).2.store =
      OrderedMap.empty.insert (db.zEncodeSizeKey key) (PutInt64 0) := by
  have hrun : db.ZUnionStore key [[0]] none AggregateSum (.quiet 0) .empty ⟨[], 0⟩ =
      (.ok (.commit 0), ⟨[.put (db.zEncodeSizeKey key) (PutInt64 0)], 0⟩) := by
    change db.zStore key .empty (.quiet 0) .empty ⟨[], 0⟩ = _
    simp only [DB.zStore, Op.bind_run, zDelete_long db h]
    rfl
  rw [exec, State.empty, hrun]
  rfl

/-- There are more lists of length `n` than lists that are shorter. -/
theorem exists_long_image {α : Type*} [Finite α] [Nontrivial α] {f : List α → List α}
    (hf : Function.Injective f) {m n : ℕ} (h : m ≤ n) : ∃ b, b.length = n ∧ m ≤ (f b).length := by
  by_contra! hshort
  cases nonempty_fintype α
  let code : List.Vector α n → Σ k : Fin m, List.Vector α k := fun v =>
    ⟨⟨(f v.1).length, hshort v.1 v.2⟩, f v.1, rfl⟩
  have hcode : Function.Injective code := fun v w heq =>
    Subtype.ext (hf (congrArg (fun x => x.2.1) heq))
  have hcard := Fintype.card_le_of_injective code hcode
  have htwo : 2 ≤ Fintype.card α := Fintype.one_lt_card
  have hsum : ∑ k ∈ Finset.range m, Fintype.card α ^ k < Fintype.card α ^ m :=
    Nat.geomSum_lt htwo (by simp)
  have hpow : Fintype.card α ^ m ≤ Fintype.card α ^ n := Nat.pow_le_pow_right (by omega) h
  simp only [Fintype.card_sigma, card_vector,
    Fin.sum_univ_eq_sum_range (fun k => Fintype.card α ^ k)] at hcard
  omega

theorem exists_long_key (db : DB) :
    ∃ key : Bytes, key.length = 70000 ∧ 2 ^ 16 ≤ (sn.Encode (db.zEncodeSizeKey key)).length := by
  have : Finite UInt8 := .of_injective UInt8.toFin fun _ _ => UInt8.toFin_inj.mp
  have : Nontrivial UInt8 := ⟨0, 1, by decide⟩
  refine exists_long_image (fun k k' heq => ?_) (by norm_num)
  have hdecode := congrArg sn.Decode heq
  rw [sn.Decode_Encode, sn.Decode_Encode] at hdecode
  exact (DB.plainKey_inj.mp (Except.ok.inj hdecode)).2.2

/-- No code loads the dumps of all stores with one size entry that ZUNIONSTORE left. -/
theorem long_key_not_loaded :
    ¬ ∃ sn : Snappy, sn.Strict ∧ ∀ key : Bytes, key.length = 70000 → ∃ ldb' commitID id,
      (loadStore sn ldb' (dumpStore sn commitID
        (exec (.quiet 0) (DB.zero.ZUnionStore key [[0]] none AggregateSum) .empty).2.store)).1 =
          .ok id := by
  rintro ⟨sn, hsn, hloads⟩
  obtain ⟨key, hkey, hlong⟩ := exists_long_key sn DB.zero
  obtain ⟨ldb', commitID, id, hid⟩ := hloads key hkey
  rw [ZUnionStore_long _ (by rw [hkey]; decide)] at hid
  have hnot : ¬ Dumpable sn (DB.zero.zEncodeSizeKey key, PutInt64 0) := fun h =>
    Nat.not_lt.mpr hlong h.1
  have hmem : (DB.zero.zEncodeSizeKey key, PutInt64 0) ∈
      (OrderedMap.empty.insert (DB.zero.zEncodeSizeKey key) (PutInt64 0)).entries := .head _
  obtain ⟨err, herr⟩ := loadStore_error hsn ldb' commitID ⟨_, hmem, hnot⟩
  exact absurd (hid.symm.trans herr) (by simp)

end LedisDB.Rpl
