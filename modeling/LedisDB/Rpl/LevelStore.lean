import LedisDB.Iterator
import LedisDB.Rpl.TableContents

/-!
# The log store over goleveldb

`rpl/goleveldb_store.go`. The logs are values of a database under their IDs as
big-endian keys; the first and the last ID are read from the ends of the key
space and cached until they may have changed.
-/

namespace LedisDB.Rpl

open List

structure LevelStore where
  db : OrderedMap Bytes Bytes
  first : UInt64
  last : UInt64

variable (s : LevelStore) (id : UInt64)

def logKey : Bytes := beBytes 8 id.toNat

def logKeyID (k : Bytes) : UInt64 := UInt64.ofNat (beNat k)

namespace LevelStore

def «open» (db : OrderedMap Bytes Bytes) : LevelStore := ⟨db, 0, 0⟩

def firstID : UInt64 × LevelStore :=
  if s.first ≠ 0 then (s.first, s)
  else match s.db.newIterator.SeekToFirst.current with
    | some e => (logKeyID e.1, { s with first := logKeyID e.1 })
    | none => (0, s)

def lastID : UInt64 × LevelStore :=
  if s.last ≠ 0 then (s.last, s)
  else match s.db.newIterator.SeekToLast.current with
    | some e => (logKeyID e.1, { s with last := logKeyID e.1 })
    | none => (0, s)

def GetLog : Except Err Log :=
  match s.db.get (logKey id) with
  | none => .error .ErrLogNotFound
  | some v => do
    let (l, _) ← Log.Decode v
    .ok l

/-- The cached last ID is given up before the IDs are compared. -/
def StoreLog (l : Log) : Except Err Unit × LevelStore :=
  let (last, s) := s.lastID
  if l.ID ≠ last + 1 then (.error .ErrStoreLogID, { s with last := 0 })
  else (.ok (), { s with db := s.db.insert (logKey l.ID) l.Encode, last := l.ID })

def expiredKeys (t : UInt32) : List (Bytes × Bytes) → Except Err (List Bytes)
  | [] => .ok []
  | (k, v) :: es => do
    let (l, _) ← Log.Decode v
    if l.CreateTime > t then .ok []
    else do
      let ks ← expiredKeys t es
      .ok (k :: ks)

def PurgeExpired (n now : Int64) : Except Err Unit × LevelStore :=
  if n ≤ 0 then (.error .invalidExpire, s)
  else match expiredKeys (now - n).toUInt64.toUInt32 s.db.entries with
    | .error e => (.error e, .open s.db)
    | .ok ks => (.ok (), .open (s.db.applyBatch (ks.map .delete)))

def Clear (_ : LevelStore) : LevelStore := .open .empty

end LevelStore

theorem logKey_inj {a b : UInt64} : logKey a = logKey b ↔ a = b := by
  constructor
  · intro h
    exact UInt64.toNat_inj.mp (beBytes_inj a.toNat_lt b.toNat_lt h)
  · rintro rfl
    rfl

theorem logKey_lt_iff {a b : UInt64} : logKey a < logKey b ↔ a.toNat < b.toNat :=
  beBytes_lt_iff a.toNat_lt b.toNat_lt

@[simp] theorem logKeyID_logKey : logKeyID (logKey id) = id := by
  unfold logKeyID logKey
  rw [beNat_beBytes_of_lt id.toNat_lt, UInt64.ofNat_toNat]

namespace LevelStore

structure Holds (ls : List Log) : Prop where
  db_eq : s.db.entries = ls.map fun l => (logKey l.ID, l.Encode)
  contiguous : Contiguous ls
  first_eq : s.first = 0 ∨ s.first = Rpl.firstID ls
  last_eq : s.last = 0 ∨ s.last = Rpl.lastID ls

variable {s : LevelStore} {ls : List Log} {l : Log} {id : UInt64}

section
variable (h : s.Holds ls)
include h

theorem Holds.firstID_eq : s.firstID.1 = Rpl.firstID ls ∧ s.firstID.2.Holds ls := by
  have hcur : s.db.newIterator.SeekToFirst.current = s.db.entries.head? := by
    rw [Iterator.current_eq_head, Iterator.seekToFirst_rest]
    rfl
  unfold firstID
  by_cases hf : s.first = 0
  · rw [if_neg (not_not.mpr hf), hcur, h.db_eq]
    cases ls with
    | nil => exact ⟨rfl, h⟩
    | cons l ls =>
      simp only [map_cons, head?_cons, logKeyID_logKey]
      exact ⟨rfl, h.db_eq, h.contiguous, .inr rfl, h.last_eq⟩
  · rw [if_pos hf]
    exact ⟨h.first_eq.resolve_left hf, h⟩

theorem Holds.lastID_eq :
    s.lastID.1 = Rpl.lastID ls ∧ s.lastID.2.Holds ls ∧ s.lastID.2.db = s.db := by
  have hcur : s.db.newIterator.SeekToLast.current = s.db.entries.getLast? := by
    unfold Iterator.SeekToLast Iterator.current OrderedMap.newIterator
    cases hes : s.db.entries with
    | nil => simp
    | cons e es => simp [getLast?_eq_getElem?]
  unfold lastID
  by_cases hf : s.last = 0
  · rw [if_neg (not_not.mpr hf), hcur, h.db_eq, getLast?_map]
    cases hlast : ls.getLast? with
    | none =>
      refine ⟨?_, h, rfl⟩
      rw [Rpl.lastID, hlast]
      rfl
    | some l =>
      have hid : Rpl.lastID ls = l.ID := by
        rw [Rpl.lastID, hlast]
        rfl
      simp only [Option.map_some, logKeyID_logKey, hid, true_and, and_true]
      exact ⟨h.db_eq, h.contiguous, h.first_eq, .inr hid.symm⟩
  · rw [if_pos hf]
    exact ⟨h.last_eq.resolve_left hf, h, rfl⟩

theorem Holds.get_eq_some_iff {v : Bytes} :
    s.db.get (logKey id) = some v ↔ ∃ l ∈ ls, l.ID = id ∧ l.Encode = v := by
  rw [OrderedMap.get_eq_some_iff, h.db_eq]
  simp [logKey_inj]

theorem Holds.GetLog_of_mem (hl : l ∈ ls) : s.GetLog l.ID = .ok l.wire := by
  obtain ⟨r, hdec⟩ := Log.Decode_Encode_self l
  rw [GetLog, h.get_eq_some_iff.mpr ⟨l, hl, rfl, rfl⟩]
  dsimp only
  rw [hdec]
  rfl

theorem Holds.GetLog_of_not_mem (hid : ∀ l ∈ ls, l.ID ≠ id) :
    s.GetLog id = .error .ErrLogNotFound := by
  unfold GetLog
  cases hget : s.db.get (logKey id) with
  | none => rfl
  | some v =>
    obtain ⟨l, hl, hlid, -⟩ := h.get_eq_some_iff.mp hget
    exact absurd hlid (hid l hl)

theorem Holds.StoreLog_refused (hl : l.ID ≠ Rpl.lastID ls + 1) :
    (s.StoreLog l).1 = .error .ErrStoreLogID ∧ (s.StoreLog l).2.Holds ls := by
  obtain ⟨hid, hs, -⟩ := h.lastID_eq
  unfold StoreLog
  dsimp only
  rw [hid, if_pos hl]
  exact ⟨rfl, hs.db_eq, hs.contiguous, hs.first_eq, .inl rfl⟩

theorem Holds.StoreLog_next (hl : Takes ls l) (hnext : l.ID = Rpl.lastID ls + 1) :
    (s.StoreLog l).1 = .ok () ∧ (s.StoreLog l).2.Holds (ls ++ [l]) := by
  obtain ⟨hid, hs, hdb⟩ := h.lastID_eq
  have hc := h.contiguous.append_singleton hl
  unfold StoreLog
  dsimp only
  rw [hid, if_neg (not_not.mpr hnext), hdb]
  refine ⟨rfl, ?_, hc, ?_, .inr (lastID_append_singleton ls l).symm⟩
  · have hlt : ∀ e ∈ s.db.entries, e.1 < logKey l.ID := by
      rw [h.db_eq]
      intro e he
      obtain ⟨x, hx, rfl⟩ := mem_map.mp he
      have hn := hc.numbered
      have hx' := ((numbered_append.mp hn).1.mem_ids_iff x.ID).mp ⟨x, hx, rfl⟩
      rw [logKey_lt_iff, hn.id_eq]
      omega
    rw [OrderedMap.insert_entries_of_lt _ hlt, h.db_eq, map_append, map_singleton]
  · rcases hs.first_eq with h0 | h0
    · exact .inl h0
    · by_cases hls : ls = []
      · rw [hls] at h0
        exact .inl h0
      · rw [firstID_append hls]
        exact .inr h0

end

theorem open_holds {db : OrderedMap Bytes Bytes}
    (hdb : db.entries = ls.map fun l => (logKey l.ID, l.Encode)) (hc : Contiguous ls) :
    (LevelStore.open db).Holds ls := ⟨hdb, hc, Or.inl rfl, Or.inl rfl⟩

theorem expiredKeys_eq (t : UInt32) (ls : List Log) :
    expiredKeys t (ls.map fun l => (logKey l.ID, l.Encode)) =
      .ok ((ls.takeWhile fun l => l.CreateTime ≤ t).map fun l => logKey l.ID) := by
  induction ls with
  | nil => rfl
  | cons l ls ih =>
    obtain ⟨r, hdec⟩ := Log.Decode_Encode_self l
    have htime := l.wire_CreateTime
    rw [map_cons, expiredKeys, hdec, ih]
    by_cases hl : l.CreateTime ≤ t
    · rw [takeWhile_cons_of_pos (by simpa using hl), map_cons]
      simp only [bind, Except.bind, htime]
      rw [if_neg (UInt32.not_lt.mpr hl)]
    · rw [takeWhile_cons_of_neg (by simpa using hl)]
      simp only [bind, Except.bind, htime]
      rw [if_pos (UInt32.not_le.mp hl)]
      rfl

theorem deleteAll_entries {as bs : List (Bytes × Bytes)} {db : OrderedMap Bytes Bytes}
    (h : db.entries = as ++ bs) : (db.applyBatch (as.map fun e => .delete e.1)).entries = bs := by
  induction as generalizing db with
  | nil => exact h
  | cons e as ih => exact ih (OrderedMap.erase_entries_head h)

theorem Holds.PurgeExpired (h : s.Holds ls) (n now : Int64) :
    ∃ xs ls', xs ++ ls' = ls ∧ (s.PurgeExpired n now).2.Holds ls' ∧
      ∀ x ∈ xs, x.CreateTime ≤ (now - n).toUInt64.toUInt32 := by
  unfold LevelStore.PurgeExpired
  split_ifs with hn
  · exact ⟨[], ls, rfl, h, by simp⟩
  · generalize (now - n).toUInt64.toUInt32 = t
    have hc := h.contiguous
    rw [h.db_eq, expiredKeys_eq]
    have hsplit := takeWhile_append_dropWhile (p := fun l : Log => decide (l.CreateTime ≤ t))
      (l := ls)
    rw [← hsplit, ← append_nil (dropWhile _ ls)] at hc
    refine ⟨_, ls.dropWhile _, hsplit, open_holds ?_ hc.of_infix, fun x hx => ?_⟩
    · have hdb := h.db_eq
      rw [← hsplit, map_append] at hdb
      have := deleteAll_entries hdb
      rwa [map_map] at this ⊢
    · simpa using mem_takeWhile_imp hx

theorem Holds.Clear (s : LevelStore) : s.Clear.Holds [] := open_holds rfl .nil

end LevelStore

end LedisDB.Rpl
