import LedisDB.Rpl.LevelStore

/-!
# Runs of the goleveldb log store

Every sequence of calls of `GoLevelDBStore`, with a driver that may refuse a Put or
the commit of a purge. The cached IDs are the bounds of the stored ones in every
state; a log of 2³² bytes or more is read back shorter.
-/

namespace LedisDB.Rpl

/-- A call, with what the driver answers to its Put or to its commit. -/
inductive LevelCall
  | store (l : Log) (put : Except Err Unit)
  | purge (n now : Int64) (commit : Except Err Unit)
  | firstID
  | lastID
  | clear
  | reopen

namespace LevelStore

def storeLogFailing (s : LevelStore) (l : Log) (e : Err) : Except Err Unit × LevelStore :=
  let (last, s) := s.lastID
  (.error (if l.ID ≠ last + 1 then .ErrStoreLogID else e), { s with last := 0 })

def purgeFailing (s : LevelStore) (n now : Int64) (e : Err) : Except Err Unit × LevelStore :=
  if n ≤ 0 then (.error .invalidExpire, s)
  else match expiredKeys (now - n).toUInt64.toUInt32 s.db.entries with
    | .error e => (.error e, .open s.db)
    | .ok _ => (.error e, .open s.db)

def call (s : LevelStore) : LevelCall → Except Err Unit × LevelStore
  | .store l (.ok ()) => s.StoreLog l
  | .store l (.error e) => s.storeLogFailing l e
  | .purge n now (.ok ()) => s.PurgeExpired n now
  | .purge n now (.error e) => s.purgeFailing n now e
  | .firstID => (.ok (), s.firstID.2)
  | .lastID => (.ok (), s.lastID.2)
  | .clear => (.ok (), s.Clear)
  | .reopen => (.ok (), .open s.db)

end LevelStore

/-- The store, and the log last stored under each ID. -/
structure LevelRun where
  store : LevelStore
  stored : UInt64 → Option Log

namespace LevelRun

def new : LevelRun := ⟨.open .empty, fun _ => none⟩

def step (r : LevelRun) (c : LevelCall) : LevelRun :=
  ⟨(r.store.call c).2, match c, (r.store.call c).1 with
    | .store l _, .ok () => Function.update r.stored l.ID (some l)
    | _, _ => r.stored⟩

def has (r : LevelRun) (id : UInt64) : Prop := (r.store.db.get (logKey id)).isSome

structure BoundsRight (r : LevelRun) : Prop where
  empty : (∀ id, ¬ r.has id) → r.store.firstID.1 = 0 ∧ r.store.lastID.1 = 0
  bounds : (∃ id, r.has id) → r.store.firstID.1 ≤ r.store.lastID.1 ∧
    ∀ id, r.has id ↔ r.store.firstID.1 ≤ id ∧ id ≤ r.store.lastID.1
  logs : ∀ id, r.has id → ∃ l, r.stored id = some l ∧ r.store.GetLog id = .ok l

structure Inv (r : LevelRun) (ls : List Log) : Prop where
  holds : r.store.Holds ls
  small : ∀ l ∈ ls, l.ID.toNat < 2 ^ 64 - 1 ∧ l.Data.length < 2 ^ 32
  stored_eq : ∀ l ∈ ls, r.stored l.ID = some l

variable {r : LevelRun} {ls : List Log}

theorem Inv.boundsRight (h : r.Inv ls) : r.BoundsRight := by
  have hhas : ∀ id, r.has id ↔ ∃ l ∈ ls, l.ID = id := by
    intro id
    rw [has, Option.isSome_iff_exists]
    constructor
    · rintro ⟨v, hv⟩
      obtain ⟨l, hl, hid, -⟩ := h.holds.get_eq_some_iff.mp hv
      exact ⟨l, hl, hid⟩
    · rintro ⟨l, hl, hid⟩
      exact ⟨_, h.holds.get_eq_some_iff.mpr ⟨l, hl, hid, rfl⟩⟩
  refine ⟨fun hnone => ?_, fun hsome => ?_, fun id hid => ?_⟩
  · have hls := List.eq_nil_iff_forall_not_mem.mpr fun l hl =>
      hnone l.ID ((hhas _).mpr ⟨l, hl, rfl⟩)
    rw [h.holds.firstID_eq.1, h.holds.lastID_eq.1, hls]
    exact ⟨rfl, rfl⟩
  · have hne : ls ≠ [] := by
      obtain ⟨id, hid⟩ := hsome
      obtain ⟨l, hl, -⟩ := (hhas id).mp hid
      exact List.ne_nil_of_mem hl
    rw [h.holds.firstID_eq.1, h.holds.lastID_eq.1]
    refine ⟨h.holds.contiguous.firstID_le_lastID, fun id => ?_⟩
    have hout := h.holds.contiguous.numbered.out_of_range_iff hne id
    rw [hhas, ← not_iff_not, not_exists]
    simp only [not_and]
    rw [← hout, ← UInt64.not_le, gt_iff_lt, ← UInt64.not_le]
    tauto
  · obtain ⟨l, hl, rfl⟩ := (hhas id).mp hid
    refine ⟨l, h.stored_eq l hl, ?_⟩
    rw [h.holds.GetLog_of_mem hl, l.wire_eq (h.small l hl).2]

theorem Inv.store (h : r.Inv ls) {l : Log} (hid : l.ID.toNat < 2 ^ 64 - 1)
    (hl : l.Data.length < 2 ^ 32) (put : Except Err Unit) :
    ∃ ls', (r.step (.store l put)).Inv ls' := by
  cases put with
  | error e =>
    obtain ⟨-, hs, -⟩ := h.holds.lastID_eq
    exact ⟨ls, ⟨hs.db_eq, hs.contiguous, hs.first_eq, .inl rfl⟩, h.small, h.stored_eq⟩
  | ok u =>
    by_cases hnext : l.ID = lastID ls + 1
    · have htakes : Takes ls l := by
        refine ⟨fun h0 => ?_, fun _ => hnext⟩
        have hlast : (lastID ls).toNat < 2 ^ 64 - 1 := by
          rw [lastID]
          cases hg : ls.getLast? with
          | none => decide
          | some x => exact (h.small x (List.mem_of_getLast? hg)).1
        have h1 : (lastID ls + 1).toNat = 0 := by rw [← hnext, h0]; rfl
        rw [UInt64.toNat_add] at h1
        simp only [UInt64.toNat_one] at h1
        omega
      obtain ⟨hok, hs⟩ := h.holds.StoreLog_next htakes hnext
      refine ⟨ls ++ [l], hs, ?_, ?_⟩
      · intro x hx
        rcases List.mem_append.mp hx with hx | hx
        · exact h.small x hx
        · rw [List.mem_singleton.mp hx]
          exact ⟨hid, hl⟩
      · intro x hx
        have hst : (r.step (.store l (.ok u))).stored = Function.update r.stored l.ID (some l) := by
          simp [step, LevelStore.call, hok]
        rw [hst]
        rcases List.mem_append.mp hx with hx | hx
        · rw [Function.update_of_ne (hs.contiguous.numbered.id_ne_of_append hx
            (List.mem_singleton_self l)), h.stored_eq x hx]
        · rw [List.mem_singleton.mp hx, Function.update_self]
    · obtain ⟨herr, hs⟩ := h.holds.StoreLog_refused hnext
      refine ⟨ls, hs, h.small, ?_⟩
      simp only [step, LevelStore.call, herr]
      exact h.stored_eq

theorem Inv.purge (h : r.Inv ls) (n now : Int64) (commit : Except Err Unit) :
    ∃ ls', (r.step (.purge n now commit)).Inv ls' := by
  cases commit with
  | ok u =>
    obtain ⟨xs, ls', rfl, hs, -⟩ := h.holds.PurgeExpired n now
    exact ⟨ls', hs, fun l hl => h.small l (List.mem_append_right xs hl),
      fun l hl => h.stored_eq l (List.mem_append_right xs hl)⟩
  | error e =>
    refine ⟨ls, ?_, h.small, h.stored_eq⟩
    show (r.store.purgeFailing n now e).2.Holds ls
    unfold LevelStore.purgeFailing
    split_ifs
    · exact h.holds
    · split <;> exact LevelStore.open_holds h.holds.db_eq h.holds.contiguous

theorem Inv.step (h : r.Inv ls) {c : LevelCall}
    (hc : ∀ l put, c = .store l put → l.ID.toNat < 2 ^ 64 - 1 ∧ l.Data.length < 2 ^ 32) :
    ∃ ls', (r.step c).Inv ls' := by
  cases c with
  | store l put => exact h.store (hc l put rfl).1 (hc l put rfl).2 put
  | purge n now commit => exact h.purge n now commit
  | firstID => exact ⟨ls, h.holds.firstID_eq.2, h.small, h.stored_eq⟩
  | lastID => exact ⟨ls, h.holds.lastID_eq.2.1, h.small, h.stored_eq⟩
  | clear => exact ⟨[], .Clear r.store, by simp, by simp⟩
  | reopen =>
    exact ⟨ls, LevelStore.open_holds h.holds.db_eq h.holds.contiguous, h.small, h.stored_eq⟩

theorem Inv.run (h : r.Inv ls) (cs : List LevelCall)
    (hc : ∀ l put, .store l put ∈ cs → l.ID.toNat < 2 ^ 64 - 1 ∧ l.Data.length < 2 ^ 32) :
    ∃ ls', (cs.foldl LevelRun.step r).Inv ls' := by
  induction cs generalizing r ls with
  | nil => exact ⟨ls, h⟩
  | cons c cs ih =>
    obtain ⟨ls', h'⟩ := h.step fun l put hcl => hc l put (hcl ▸ (.head _))
    exact ih h' fun l put hl => hc l put (.tail c hl)

/-- After any calls, FirstID and LastID are the bounds of the stored IDs, every ID between them is
stored, and GetLog returns the log last stored under it. -/
theorem level_bounds_right (cs : List LevelCall)
    (hid : ∀ l put, .store l put ∈ cs → l.ID.toNat < 2 ^ 64 - 1)
    (hdata : ∀ l put, .store l put ∈ cs → l.Data.length < 2 ^ 32) :
    (cs.foldl step new).BoundsRight := by
  have h0 : new.Inv [] := ⟨LevelStore.open_holds rfl .nil, by simp, by simp⟩
  obtain ⟨ls, h⟩ := h0.run cs fun l put hl => ⟨hid l put hl, hdata l put hl⟩
  exact h.boundsRight

theorem level_bounds_right_reopened :
    ([.store ⟨1, 0, 0, []⟩ (.ok ()), .purge 1 2 (.error .closed), .reopen].foldl step
      new).BoundsRight :=
  level_bounds_right _ (by simp) (by simp)

theorem level_log_cut :
    ¬ ([.store ⟨1, 0, 0, List.replicate (2 ^ 32) 0⟩ (.ok ())].foldl step new).BoundsRight := by
  intro h
  generalize hl : (⟨1, 0, 0, List.replicate (2 ^ 32) 0⟩ : Log) = l at h
  have hID : l.ID = 1 := by rw [← hl]
  have hlen : l.Data.length = 2 ^ 32 := by
    rw [← hl]
    exact List.length_replicate
  have hnew : new.store.Holds [] := LevelStore.open_holds rfl .nil
  have htakes : Takes [] l := ⟨by rw [hID]; decide, fun hne => absurd rfl hne⟩
  obtain ⟨hok, hs⟩ := hnew.StoreLog_next htakes hID
  have hmem := List.mem_singleton_self l
  obtain ⟨x, hx, hlog⟩ := h.logs l.ID
    (Option.isSome_iff_exists.mpr ⟨_, hs.get_eq_some_iff.mpr ⟨l, hmem, rfl, rfl⟩⟩)
  have hxl : x = l := by
    simp only [List.foldl_cons, List.foldl_nil, step, LevelStore.call, hok,
      Function.update_self] at hx
    exact (Option.some.inj hx).symm
  have hwire := Except.ok.inj ((hs.GetLog_of_mem hmem).symm.trans hlog)
  rw [hxl, Log.wire_eq_iff, hlen] at hwire
  exact lt_irrefl _ hwire

end LevelRun

end LedisDB.Rpl
