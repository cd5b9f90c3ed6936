import LedisDB.Rpl.LevelStore
import LedisDB.Rpl.StoreRuns

/-!
# The two log stores

Both implementations of `LogStore` as machines that answer the same calls. They
take different IDs when the open table of the file store has no log yet: the file
store then takes every ID but 0, the store over goleveldb only the next one. In
runs that stay clear of this the two answer alike.
-/

namespace LedisDB.Rpl

inductive LogCall
  | StoreLog (l : Log)
  | GetLog (id : UInt64)
  | FirstID
  | LastID
  | Clear
  | Reopen

inductive LogReply
  | result (r : Except Err Unit)
  | log (r : Except Err Log)
  | id (n : UInt64)

def FileStore.answer (cfg : ℤ) (useMmap : Bool) (s : FileStore) : LogCall → LogReply × FileStore
  | .StoreLog l => (.result (s.storeLog l).1, (s.storeLog l).2)
  | .GetLog id => (.log (s.GetLog id), s)
  | .FirstID => (.id s.FirstID, s)
  | .LastID => (.id s.LastID, s)
  | .Clear => (.result (.ok ()), s.Clear)
  | .Reopen =>
    match new cfg useMmap s.Close with
    | .ok s' => (.result (.ok ()), s')
    | .error e => (.result (.error e), s)

def LevelStore.answer (s : LevelStore) : LogCall → LogReply × LevelStore
  | .StoreLog l => (.result (s.StoreLog l).1, (s.StoreLog l).2)
  | .GetLog id => (.log (s.GetLog id), s)
  | .FirstID => (.id s.firstID.1, s.firstID.2)
  | .LastID => (.id s.lastID.1, s.lastID.2)
  | .Clear => (.result (.ok ()), s.Clear)
  | .Reopen => (.result (.ok ()), .open s.db)

/-- While the open table has no log, a log to be stored has the next ID or 0 and the ID 0 is
not asked for; the ID 0 is not stored where the IDs would wrap around; lengths fit in the
heads of the logs and data files can be opened. -/
def Agreeable (s : FileStore) : LogCall → Prop
  | .StoreLog l => (s.w.last = 0 → l.ID = 0 ∨ l.ID = s.LastID + 1) ∧
      (l.ID = 0 → s.LastID + 1 ≠ 0) ∧ l.Data.length < 2 ^ 32 ∧ s.Mappable
  | .GetLog id => id = 0 → s.w.last ≠ 0
  | _ => True

instance (s : FileStore) : ∀ c, Decidable (Agreeable s c)
  | .StoreLog l => inferInstanceAs (Decidable ((s.w.last = 0 → l.ID = 0 ∨ l.ID = s.LastID + 1) ∧
      (l.ID = 0 → s.LastID + 1 ≠ 0) ∧ l.Data.length < 2 ^ 32 ∧ s.Mappable))
  | .GetLog id => inferInstanceAs (Decidable (id = 0 → s.w.last ≠ 0))
  | .FirstID | .LastID | .Clear | .Reopen => isTrue trivial

def SameLogs (s : FileStore) (t : LevelStore) : Prop :=
  ∃ ts cur, s.Holds ts cur ∧ t.Holds (logsOf ts cur) ∧ ∀ l ∈ logsOf ts cur, l.Data.length < 2 ^ 32

variable {s : FileStore} {t : LevelStore}

theorem SameLogs.StoreLog (h : SameLogs s t) {l : Log} (hc : Agreeable s (.StoreLog l)) :
    (s.storeLog l).1 = (t.StoreLog l).1 ∧ SameLogs (s.storeLog l).2 (t.StoreLog l).2 := by
  obtain ⟨ts, cur, hs, ht, hsmall⟩ := h
  obtain ⟨hnext, hzero, hlen, hmap⟩ := hc
  rw [hs.LastID_eq] at hnext hzero
  rw [hs.writer.last_eq] at hnext
  by_cases hid : l.ID = lastID (logsOf ts cur) + 1
  · have h0 := fun h0 => hzero h0 (hid ▸ h0)
    have htakes : Takes (logsOf ts cur) l := ⟨h0, fun _ => hid⟩
    obtain ⟨s', hstore⟩ := hs.storeLog_eq_ok htakes hmap
    obtain ⟨ts', cur', hs', hlogs, -⟩ := hs.storeLog_ok htakes hstore
    obtain ⟨hr, ht'⟩ := ht.StoreLog_next htakes hid
    rw [hstore, hr]
    refine ⟨rfl, ts', cur', hs', hlogs ▸ ht', ?_⟩
    rw [hlogs]
    intro x hx
    rcases List.mem_append.mp hx with hx | hx
    · exact hsmall x hx
    · rwa [List.mem_singleton.mp hx]
  · have hrefused : ¬ Takes cur l := by
      rintro ⟨h0, hlast⟩
      by_cases hcur : cur = []
      · rcases hnext (by rw [hcur]; rfl) with h | h
        · exact h0 h
        · exact hid h
      · exact hid (by rw [hlast hcur, logsOf, lastID_append _ hcur])
    obtain ⟨hr, ht'⟩ := ht.StoreLog_refused hid
    rw [hs.storeLog_refused hrefused, hr]
    exact ⟨rfl, ts, cur, hs, ht', hsmall⟩

theorem SameLogs.GetLog (h : SameLogs s t) {id : UInt64} (hc : Agreeable s (.GetLog id)) :
    s.GetLog id = t.GetLog id := by
  obtain ⟨ts, cur, hs, ht, -⟩ := h
  by_cases hid : ∃ l ∈ logsOf ts cur, l.ID = id
  · obtain ⟨l, hl, rfl⟩ := hid
    rw [hs.GetLog_of_mem hl, ht.GetLog_of_mem hl]
  · have hnone := fun l hl he => hid ⟨l, hl, he⟩
    rw [hs.GetLog_of_not_mem hnone, ht.GetLog_of_not_mem hnone, if_neg]
    rintro ⟨hcur, h0⟩
    apply hc h0
    rw [hs.writer.last_eq, hcur]
    rfl

theorem SameLogs.answer (h : SameLogs s t) {c : LogCall} (hc : Agreeable s c) (cfg : ℤ)
    (useMmap : Bool) :
    (s.answer cfg useMmap c).1 = (t.answer c).1 ∧
      SameLogs (s.answer cfg useMmap c).2 (t.answer c).2 := by
  cases c with
  | StoreLog l =>
    obtain ⟨hr, h'⟩ := h.StoreLog hc
    exact ⟨congrArg LogReply.result hr, h'⟩
  | GetLog id => exact ⟨congrArg LogReply.log (h.GetLog hc), h⟩
  | FirstID =>
    obtain ⟨ts, cur, hs, ht, hsmall⟩ := h
    refine ⟨congrArg LogReply.id ?_, ts, cur, hs, ht.firstID_eq.2, hsmall⟩
    rw [hs.FirstID_eq, ht.firstID_eq.1]
  | LastID =>
    obtain ⟨ts, cur, hs, ht, hsmall⟩ := h
    refine ⟨congrArg LogReply.id ?_, ts, cur, hs, ht.lastID_eq.2.1, hsmall⟩
    rw [hs.LastID_eq, ht.lastID_eq.1]
  | Clear =>
    obtain ⟨ts, cur, hs, -, -⟩ := h
    exact ⟨rfl, [], [], hs.clear, .Clear t, by simp⟩
  | Reopen =>
    obtain ⟨ts, cur, hs, ht, hsmall⟩ := h
    obtain ⟨s', hnew, hs', -⟩ := hs.reopen hsmall cfg useMmap
    have hlogs := FileStore.logsOf_closedTables s.w.index ts cur
    simp only [FileStore.answer, hnew]
    refine ⟨rfl, _, [], hs', ?_, by rwa [hlogs]⟩
    rw [hlogs]
    exact LevelStore.open_holds ht.db_eq ht.contiguous

/-- The two stores answer every run of calls alike that is agreeable to the file store. -/
theorem stores_agree {cfg : ℤ} {useMmap : Bool} {s₀ : FileStore}
    (h₀ : FileStore.new cfg useMmap .empty = .ok s₀) {cs : List LogCall}
    (hcs : Meets (FileStore.answer cfg useMmap) Agreeable cs s₀) :
    answers (FileStore.answer cfg useMmap) cs s₀ =
      answers LevelStore.answer cs (LevelStore.open .empty) := by
  have hsame : SameLogs s₀ (LevelStore.open .empty) := by
    obtain ⟨s, hs, hholds, -⟩ := FileStore.new_empty_holds cfg useMmap
    rw [hs] at h₀
    cases h₀
    exact ⟨[], [], hholds, LevelStore.open_holds rfl .nil, by simp⟩
  exact answers_eq_of_bisimulation (fun s t c h hc => h.answer hc cfg useMmap) hsame hcs

theorem stores_agree_reopened : ∃ s₀, FileStore.new 0 false .empty = .ok s₀ ∧
    answers (FileStore.answer 0 false)
      [.StoreLog ⟨1, 0, 0, [7]⟩, .StoreLog ⟨3, 0, 0, []⟩, .Reopen, .StoreLog ⟨2, 0, 0, []⟩,
        .GetLog 1, .GetLog 0, .LastID] s₀ =
    answers LevelStore.answer
      [.StoreLog ⟨1, 0, 0, [7]⟩, .StoreLog ⟨3, 0, 0, []⟩, .Reopen, .StoreLog ⟨2, 0, 0, []⟩,
        .GetLog 1, .GetLog 0, .LastID] (LevelStore.open .empty) :=
  ⟨_, rfl, @stores_agree 0 false _ rfl _ (by decide)⟩

theorem stores_disagree : ∃ s₀, FileStore.new 0 false .empty = .ok s₀ ∧
    answers (FileStore.answer 0 false) [.StoreLog ⟨5, 0, 0, []⟩, .LastID] s₀ =
      [.result (.ok ()), .id 5] ∧
    answers LevelStore.answer [.StoreLog ⟨5, 0, 0, []⟩, .LastID] (LevelStore.open .empty) =
      [.result (.error .ErrStoreLogID), .id 0] :=
  ⟨_, rfl, rfl, rfl⟩

end LedisDB.Rpl
