import LedisDB.Simulation
import LedisDB.Rpl.Replication

/-!
# Logging the next write

On a master the store holds no log, or its last log is the one with the commit
ID. The next write is then logged under the ID after the commit ID whenever the
store takes it: the file store does so as long as it can open its files, the
store over goleveldb only where its last log is the one with the commit ID.
-/

namespace LedisDB.Rpl

theorem WriteFile.size_pos_of_new {useMmap : Bool} {size : ℤ} {f : WriteFile}
    (h : WriteFile.new useMmap none size = .ok f) (hmmap : useMmap = true) : 0 < size := by
  unfold new newMmap at h
  dsimp only [Option.getD_none, List.length_nil] at h
  split_ifs at h <;> omega

namespace FileStore

variable {s : FileStore} {ts : List (ℕ × List Log)} {cur : List Log} {l : Log}

theorem Holds.files_missing (h : s.Holds ts cur) : s.dir.files s.w.index = .missing := by
  unfold Dir.files
  cases hget : s.dir.get s.w.index with
  | none => rfl
  | some files =>
    have hmem := OrderedMap.get_eq_some_iff.mp hget
    rw [h.dir_eq] at hmem
    obtain ⟨T, hT, heq⟩ := List.mem_map.mp hmem
    exact absurd (congrArg Prod.fst heq) (h.index_lt T hT).ne

theorem Holds.mappable_of_storeLog (h : s.Holds ts []) {w : TableWriter}
    (hw : s.w.storeLog (s.dir.files s.w.index) l = .ok w) : s.Mappable := by
  intro hmmap
  rw [h.files_missing, h.writer.storeLog_eq] at hw
  split_ifs at hw
  obtain ⟨p, hopen, -⟩ := Err.bind_ok_iff.mp hw
  rw [TableWriter.openFile, (h.writer.files_eq rfl).1] at hopen
  obtain ⟨data, hdata, -⟩ := Err.bind_ok_iff.mp hopen
  have hpos := WriteFile.size_pos_of_new hdata (h.useMmap_eq.trans hmmap)
  rwa [h.maxLogSize_eq] at hpos

/-- Data files can be opened, or the open table takes one more log. -/
def CanWrite (s : FileStore) : Prop := s.Mappable ∨ s.w.last ≠ 0 ∧ s.w.needFlush = false

instance (s : FileStore) : Decidable s.CanWrite := inferInstanceAs (Decidable (_ ∨ _))

theorem Holds.storeLog_ok_iff (h : s.Holds ts cur) (hl : Takes (logsOf ts cur) l) :
    (∃ s', s.storeLog l = (.ok (), s')) ↔ s.CanWrite := by
  have htakes := takes_cur hl
  cases hflush : s.w.needFlush with
  | false =>
    constructor
    · rintro ⟨s', hok⟩
      by_cases hcur : cur = []
      · left
        subst hcur
        cases hw : s.w.storeLog (s.dir.files s.w.index) l with
        | ok w => exact h.mappable_of_storeLog hw
        | error e =>
          obtain rfl := h.writer.storeLog_error htakes hflush hw
          simp [storeLog, hw] at hok
      · right
        exact ⟨UInt64.pos_iff_ne_zero.mp (h.writer.last_pos_iff.mpr hcur), hflush⟩
    · rintro (hmap | ⟨hlast, -⟩)
      · exact h.storeLog_eq_ok hl hmap
      · have hcur := h.writer.last_pos_iff.mp (UInt64.pos_iff_ne_zero.mpr hlast)
        obtain ⟨w, hw⟩ := h.writer.storeLog_eq_ok htakes hflush (fun hnil => absurd hnil hcur)
          (s.dir.files s.w.index)
        rw [storeLog, hw]
        exact ⟨_, rfl⟩
  | true =>
    obtain ⟨hne, heq⟩ := h.storeLog_eq_flushed htakes hflush
    constructor
    · rintro ⟨s', hok⟩
      rw [heq] at hok
      cases hw : s.w.flushed.storeLog ((s.flushed cur).dir.files s.w.flushed.index) l with
      | ok w => exact .inl ((h.flushed hne).mappable_of_storeLog hw)
      | error e => simp [hw] at hok
    · rintro (hmap | ⟨-, hopen⟩)
      · exact h.storeLog_eq_ok hl hmap
      · rw [hflush] at hopen
        cases hopen

end FileStore

def LogStore.Accepts (c : UInt64) : LogStore → Prop
  | .file s => s.CanWrite
  | .level s => s.lastID.1 = c

instance (c : UInt64) : ∀ s : LogStore, Decidable (s.Accepts c)
  | .file s => inferInstanceAs (Decidable s.CanWrite)
  | .level s => inferInstanceAs (Decidable (s.lastID.1 = c))

theorem LogStore.Holds.StoreLog_next {s : LogStore} {ls : List Log} {c : UInt64} {l : Log}
    (h : s.Holds ls) (hlast : ls ≠ [] → lastID ls = c) (hid : l.ID = c + 1) (h0 : l.ID ≠ 0) :
    (s.Accepts c ∧ (s.StoreLog l).1 = .ok () ∧ (s.StoreLog l).2.Holds (ls ++ [l])) ∨
      (¬ s.Accepts c ∧ (s.StoreLog l).1 ≠ .ok () ∧ (s.StoreLog l).2.Holds ls) := by
  have htakes : Takes ls l := ⟨h0, fun hne => by rw [hlast hne]; exact hid⟩
  cases s with
  | file s =>
    obtain ⟨ts, cur, h, rfl⟩ := h
    have hiff := h.storeLog_ok_iff htakes
    obtain ⟨ts', cur', h', ⟨hok, -, hlogs⟩ | ⟨herr, hlogs⟩⟩ := h.storeLog_cases fun _ => htakes
    · exact .inl ⟨hiff.mp ⟨_, Prod.ext hok rfl⟩, hok, ts', cur', h', hlogs⟩
    · refine .inr ⟨fun hacc => ?_, herr, ts', cur', h', hlogs⟩
      obtain ⟨s', hs'⟩ := hiff.mpr hacc
      exact herr (congrArg Prod.fst hs')
  | level s =>
    have heq := (LevelStore.Holds.lastID_eq h).1
    by_cases hacc : s.lastID.1 = c
    · exact .inl ⟨hacc, LevelStore.Holds.StoreLog_next h htakes (by rw [hid, ← hacc, heq])⟩
    · have hne : l.ID ≠ lastID ls + 1 := by
        intro hnext
        rw [hid] at hnext
        exact hacc (heq.trans ((UInt64.add_left_inj 1).mp hnext).symm)
      obtain ⟨herr, h'⟩ := LevelStore.Holds.StoreLog_refused h hne
      refine .inr ⟨hacc, ?_, h'⟩
      change (s.StoreLog l).1 ≠ .ok ()
      rw [herr]
      simp

theorem LogStore.Holds.accepts_LastID {s : LogStore} {ls : List Log} (h : s.Holds ls) (c : UInt64) :
    s.LastID.2.Accepts c ↔ s.Accepts c := by
  cases s with
  | file s => exact Iff.rfl
  | level s =>
    obtain ⟨heq, h', -⟩ := LevelStore.Holds.lastID_eq h
    change s.lastID.2.lastID.1 = c ↔ s.lastID.1 = c
    rw [(LevelStore.Holds.lastID_eq h').1, heq]

namespace Replication

variable {r r' : Replication} {sn : Snappy} {now : UInt32} {data : Bytes}

/-- The store ends with the commit ID or holds nothing, and its logs can be read back. -/
def MasterInv (r : Replication) : Prop :=
  ∃ ls, r.s.Holds ls ∧ (ls ≠ [] → lastID ls = r.commitID) ∧ ∀ l ∈ ls, l.Data.length < 2 ^ 32

theorem MasterInv.LastLogID_le (h : r.MasterInv) : r.LastLogID.1 ≤ r.commitID := by
  obtain ⟨ls, hs, hlast, -⟩ := h
  change r.s.LastID.1 ≤ r.commitID
  rw [hs.LastID_eq.1]
  by_cases hne : ls = []
  · rw [hne]
    exact UInt64.zero_le
  · rw [hlast hne]
    exact UInt64.le_refl _

def nextLog (r : Replication) (sn : Snappy) (now : UInt32) (data : Bytes) : Rpl.Log :=
  ⟨r.commitID + 1, now, if r.cfg.Compression then 1 else 0, r.compressed sn data⟩

theorem payload_nextLog (r : Replication) (sn : Snappy) (now : UInt32) (data : Bytes) :
    sn.payload (r.nextLog sn now data) = .ok data := by
  unfold Snappy.payload nextLog compressed
  cases r.cfg.Compression with
  | true => exact sn.Decode_Encode data
  | false => rfl

theorem Log_eq_of_le (hle : r.s.LastID.1 ≤ r.commitID) (sn : Snappy) (now : UInt32) (data : Bytes) :
    r.Log sn now data =
      match r.s.LastID.2.StoreLog (r.nextLog sn now data) with
      | (.error e, s) => (.error e, { r with s })
      | (.ok _, s) => (.ok (r.nextLog sn now data), { r with s }) := by
  have hmax : (if r.s.LastID.1 < r.commitID then r.commitID else r.s.LastID.1) = r.commitID := by
    split_ifs with hlt
    · rfl
    · exact UInt64.le_antisymm hle (UInt64.not_lt.mp hlt)
  unfold Log
  dsimp only
  rw [if_neg (UInt64.not_lt.mpr hle), hmax]
  rfl

def LogsNext (r : Replication) (sn : Snappy) (now : UInt32) (data : Bytes) : Prop :=
  ∃ l r', r.Log sn now data = (.ok l, r') ∧ l.ID.toNat = r.commitID.toNat + 1 ∧
    r'.GetLog l.ID = .ok l ∧ sn.payload l = .ok data

/-- There is a next ID, the length of the data fits in the head of the log, and the store
takes the log. -/
def CanLog (r : Replication) (sn : Snappy) (data : Bytes) : Prop :=
  r.commitID.toNat + 1 < 2 ^ 64 ∧ (r.compressed sn data).length < 2 ^ 32 ∧ r.s.Accepts r.commitID

theorem next_toNat {c : UInt64} (h : c.toNat + 1 < 2 ^ 64) : (c + 1).toNat = c.toNat + 1 := by
  rw [UInt64.toNat_add, UInt64.toNat_one, Nat.mod_eq_of_lt h]

theorem MasterInv.Log_cases (h : r.MasterInv) (hid : r.commitID.toNat + 1 < 2 ^ 64) (sn : Snappy)
    (now : UInt32) (data : Bytes) :
    ∃ ls s', r.s.Holds ls ∧ (∀ l ∈ ls, l.Data.length < 2 ^ 32) ∧
      ((r.s.Accepts r.commitID ∧ s'.Holds (ls ++ [r.nextLog sn now data]) ∧
          r.Log sn now data = (.ok (r.nextLog sn now data), { r with s := s' })) ∨
        (¬ r.s.Accepts r.commitID ∧ s'.Holds ls ∧ (ls ≠ [] → lastID ls = r.commitID) ∧
          ∃ e, r.Log sn now data = (.error e, { r with s := s' }))) := by
  have heq := Log_eq_of_le h.LastLogID_le sn now data
  obtain ⟨ls, hs, hlast, hsmall⟩ := h
  have h0 : (r.nextLog sn now data).ID ≠ 0 := by
    rw [← UInt64.toNat_inj.ne]
    change (r.commitID + 1).toNat ≠ 0
    rw [next_toNat hid]
    exact Nat.succ_ne_zero _
  have hstore := hs.LastID_eq.2.StoreLog_next hlast rfl h0
  rw [hs.accepts_LastID] at hstore
  rcases hst : r.s.LastID.2.StoreLog (r.nextLog sn now data) with ⟨res, s'⟩
  rw [hst] at heq hstore
  refine ⟨ls, s', hs, hsmall, ?_⟩
  rcases hstore with ⟨hacc, hok, hs'⟩ | ⟨hacc, herr, hs'⟩
  · obtain rfl := hok
    exact .inl ⟨hacc, hs', heq⟩
  · cases res with
    | ok _ => exact absurd rfl herr
    | error e => exact .inr ⟨hacc, hs', hlast, e, heq⟩

theorem MasterInv.logsNext_iff (h : r.MasterInv) (sn : Snappy) (now : UInt32) (data : Bytes) :
    r.LogsNext sn now data ↔ r.CanLog sn data := by
  by_cases hid : r.commitID.toNat + 1 < 2 ^ 64
  · obtain ⟨ls, s', -, -, ⟨hacc, hs', hlog⟩ | ⟨hacc, -, -, e, hlog⟩⟩ := h.Log_cases hid sn now data
    · have hget := hs'.GetLog_of_mem (l := r.nextLog sn now data) (by simp)
      constructor
      · rintro ⟨l, r', hlog', -, hget', -⟩
        rw [hlog] at hlog'
        cases hlog'
        have hwire := hget.symm.trans hget'
        exact ⟨hid, Log.wire_eq_iff.mp (Except.ok.inj hwire), hacc⟩
      · rintro ⟨-, hlen, -⟩
        refine ⟨_, _, hlog, next_toNat hid, ?_, payload_nextLog r sn now data⟩
        rwa [Log.wire_eq hlen] at hget
    · constructor
      · rintro ⟨l, r', hlog', -⟩
        rw [hlog] at hlog'
        cases hlog'
      · exact fun hcan => absurd hcan.2.2 hacc
  · constructor
    · rintro ⟨l, -, -, hnext, -⟩
      exact absurd (hnext ▸ l.ID.toNat_lt) hid
    · exact fun hcan => absurd hcan.1 hid

inductive MasterCall
  | Log (now : UInt32) (data : Bytes)
  | PurgeExpired (n now : Int64)
  | purgeExcess (maxNum : ℕ)
  | ClearWithCommitID (id : UInt64)
  | LoadDump (commitID : UInt64)
  | Reopen (cfg : Config)

def logged (r : Replication) (sn : Snappy) (now : UInt32) (data : Bytes) : Replication :=
  match r.Log sn now data with
  | (.ok l, r) => (r.UpdateCommitID none l.ID).2
  | (.error _, r) => r

def MasterStep (sn : Snappy) (r : Replication) : MasterCall → Replication → Prop
  | .Log now data, r' => r.logged sn now data = r'
  | .PurgeExpired n now, r' => r.PurgeExpired n now = r'
  | .purgeExcess maxNum, r' => { r with s := r.s.purgeExcess maxNum } = r'
  | .ClearWithCommitID id, r' => r.ClearWithCommitID id = r'
  | .LoadDump id, r' => (r.Clear.UpdateCommitID none id).2 = r'
  | .Reopen cfg, r' => NewReplication cfg r.Close.1 r.Close.2 = .ok r'

def Fits (sn : Snappy) (r : Replication) : MasterCall → Prop
  | .Log _ data => r.commitID.toNat + 1 < 2 ^ 64 ∧ (r.compressed sn data).length < 2 ^ 32
  | _ => True

theorem UpdateCommitID_none (r : Replication) (id : UInt64) :
    (r.UpdateCommitID none id).1 = .ok () ∧ (r.UpdateCommitID none id).2.s = r.s ∧
      (r.UpdateCommitID none id).2.commitID = id ∧ (r.UpdateCommitID none id).2.cfg = r.cfg := by
  unfold UpdateCommitID updateCommitID
  split_ifs <;> exact ⟨rfl, rfl, rfl, rfl⟩

theorem MasterInv.logged (h : r.MasterInv) (hfits : Fits sn r (.Log now data)) :
    (r.logged sn now data).MasterInv := by
  obtain ⟨hid, hlen⟩ := hfits
  unfold Replication.logged
  obtain ⟨ls, s', -, hsmall, ⟨-, hs', hlog⟩ | ⟨-, hs', hlast, e, hlog⟩⟩ :=
    h.Log_cases hid sn now data
  · rw [hlog]
    obtain ⟨-, hstore, hcommit, -⟩ :=
      UpdateCommitID_none { r with s := s' } (r.nextLog sn now data).ID
    refine ⟨_, by rw [hstore]; exact hs', fun _ => ?_, ?_⟩
    · rw [lastID_append_singleton, hcommit]
    · intro l hl
      rcases List.mem_append.mp hl with hl | hl
      · exact hsmall l hl
      · rwa [List.mem_singleton.mp hl]
  · rw [hlog]
    exact ⟨ls, hs', hlast, hsmall⟩

theorem MasterInv.of_suffix {ls' : List Rpl.Log} {s' : LogStore} {ls : List Rpl.Log}
    (hlast : ls ≠ [] → lastID ls = r.commitID) (hsmall : ∀ l ∈ ls, l.Data.length < 2 ^ 32)
    (hsuffix : ls' <:+ ls) (hs' : s'.Holds ls') : ({ r with s := s' } : Replication).MasterInv := by
  refine ⟨ls', hs', fun hne => ?_, fun l hl => hsmall l (hsuffix.subset hl)⟩
  obtain ⟨xs, rfl⟩ := hsuffix
  rw [← lastID_append xs hne]
  exact hlast (by simp [hne])

theorem MasterInv.step {c : MasterCall} (h : r.MasterInv) (hfits : Fits sn r c)
    (hstep : MasterStep sn r c r') : r'.MasterInv := by
  cases c with
  | Log now data =>
    obtain rfl := hstep
    exact h.logged hfits
  | PurgeExpired n now =>
    obtain rfl := hstep
    obtain ⟨ls, hs, hlast, hsmall⟩ := h
    obtain ⟨ls', hsuffix, hs'⟩ := hs.PurgeExpired n now
    exact .of_suffix hlast hsmall hsuffix hs'
  | purgeExcess maxNum =>
    obtain rfl := hstep
    obtain ⟨ls, hs, hlast, hsmall⟩ := h
    obtain ⟨ls', hsuffix, hs'⟩ := hs.purgeExcess maxNum
    exact .of_suffix hlast hsmall hsuffix hs'
  | ClearWithCommitID id =>
    obtain rfl := hstep
    obtain ⟨ls, hs, -, -⟩ := h
    exact ⟨[], hs.clear, fun hne => absurd rfl hne, by simp⟩
  | LoadDump id =>
    obtain rfl := hstep
    obtain ⟨ls, hs, -, -⟩ := h
    refine ⟨[], ?_, fun hne => absurd rfl hne, by simp⟩
    rw [(UpdateCommitID_none r.Clear id).2.1]
    exact hs.clear
  | Reopen cfg =>
    obtain ⟨ls, hs, hlast, hsmall⟩ := h
    obtain ⟨s', hopen, hs'⟩ := hs.reopen hsmall cfg
    change NewReplication cfg r.s.Close (some r.commitID) = .ok r' at hstep
    rw [NewReplication, hopen] at hstep
    cases hstep
    exact ⟨ls, hs', hlast, hsmall⟩

theorem new_masterInv {cfg : Config} {files : LogFiles}
    (hfiles : files = .file .empty ∨ files = .level .empty)
    (h : NewReplication cfg files none = .ok r) : r.MasterInv := by
  obtain ⟨s, hopen, hs⟩ := LogStore.open_empty cfg hfiles
  rw [NewReplication, hopen] at h
  cases h
  exact ⟨[], hs, fun hne => absurd rfl hne, by simp⟩

/-- In every state of a master the store ends at or before the commit ID, and the next write
is logged under the ID after the commit ID exactly when `CanLog` says so. -/
theorem master_logs_next_iff {cfg : Config} {files : LogFiles} {r₀ r : Replication} {sn : Snappy}
    (hfiles : files = .file .empty ∨ files = .level .empty)
    (h₀ : NewReplication cfg files none = .ok r₀) (hr : Reaches (MasterStep sn) (Fits sn) r₀ r) :
    r.LastLogID.1 ≤ r.commitID ∧ ∀ now data, r.LogsNext sn now data ↔ r.CanLog sn data := by
  have hinv := hr.invariant (new_masterInv hfiles h₀) fun _ _ _ h hfits hstep => h.step hfits hstep
  exact ⟨hinv.LastLogID_le, fun now data => hinv.logsNext_iff sn now data⟩

theorem master_logs_next_cleared :
    ∃ r₀ r : Replication, NewReplication ⟨true, 1, 0, false⟩ (.file .empty) none = .ok r₀ ∧
      (r₀.logged ⟨id, .ok, fun _ => rfl⟩ 7 [1, 2]).ClearWithCommitID 5 = r ∧
      r.LogsNext ⟨id, .ok, fun _ => rfl⟩ 8 [3] :=
  ⟨_, _, rfl, rfl, ((@master_logs_next_iff ⟨true, 1, 0, false⟩ (.file .empty) _ _
    ⟨id, .ok, fun _ => rfl⟩ (Or.inl rfl) rfl
    (.step (c := .ClearWithCommitID 5)
      (.step (c := .Log 7 [1, 2]) .refl ⟨by decide, by decide⟩ rfl) trivial rfl)).2 8 [3]).mpr
    ⟨by decide, by decide, by decide⟩⟩

theorem cleared_level_store_refuses :
    ∃ r₀ : Replication, NewReplication ⟨false, 1, 0, false⟩ (.level .empty) none = .ok r₀ ∧
      (r₀.ClearWithCommitID 5).LastLogID.1 ≤ (r₀.ClearWithCommitID 5).commitID ∧
      ((r₀.ClearWithCommitID 5).Log ⟨id, .ok, fun _ => rfl⟩ 8 [3]).1 = .error .ErrStoreLogID :=
  ⟨_, rfl, by decide, rfl⟩

end Replication

end LedisDB.Rpl
