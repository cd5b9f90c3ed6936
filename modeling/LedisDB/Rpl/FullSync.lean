import LedisDB.Rpl.RoleSwitch

/-!
# Full syncs

`fullsyncCommand` of `server/cmd_replication.go` and the snapshots of
`server/snapshot.go`. A master answers a full sync with its latest snapshot unless this
is older than half the time for which logs are kept. It compares nothing else, while
logs are given up by age, by the number of tables and by `FlushAll`.

A snapshot that may be reused is safe from the purge by age: the logs after its commit ID
are younger than it is. The name of a snapshot has its local time, which is read back
as UTC, so this needs a time zone that is not too far ahead.
-/

namespace LedisDB.Rpl

/-- A snapshot file. The time, in nanoseconds, is that of its name. -/
structure Snapshot where
  time : ℕ
  dump : Bytes

def Snapshot.CommitID (s : Snapshot) : UInt64 := UInt64.ofNat (beNat (s.dump.take 8))

/-- Local time is `zone` seconds ahead of UTC. -/
structure SnapshotConfig where
  ExpiredLogDays : ℕ
  MaxNum : ℕ
  zone : ℤ

/-- A master with its snapshots, from old to new, and the commit IDs of the dumps that were served
since logs were last given up. -/
structure Master where
  node : Ledis
  names : List Snapshot
  now : ℕ
  served : List UInt64

variable (sn : Snappy) (cfg : SnapshotConfig) (σ : Master)

namespace Master

def unix : ℕ := σ.now / 1000000000

def purge (create : Bool) (names : List Snapshot) : List Snapshot :=
  names.drop (names.length + (if create then 1 else 0) - cfg.MaxNum)

/-- Without result where the name would not come after the last one. Only the nanoseconds within
the second are compared. -/
def Create : Option Snapshot × Master :=
  let names := purge cfg true σ.names
  let s : Snapshot := ⟨σ.now, σ.node.Dump sn⟩
  match names.getLast? with
  | none => (some s, { σ with names := names ++ [s] })
  | some last =>
    if σ.now % 1000000000 ≤ last.time % 1000000000 then (none, { σ with names })
    else (some s, { σ with names := names ++ [s] })

def Reusable (now : ℕ) (s : Snapshot) : Prop :=
  now - (cfg.ExpiredLogDays * 24 * 3600 * 1000000000 / 2 : ℤ) ≤ s.time + cfg.zone * 1000000000

instance (cfg : SnapshotConfig) (now : ℕ) (s : Snapshot) : Decidable (Reusable cfg now s) :=
  inferInstanceAs (Decidable (_ ≤ _))

def openLatest (needNew : Bool) (σ : Master) : Option Snapshot × Master :=
  if needNew then σ.Create sn cfg
  else match σ.names.getLast? with
    | none => σ.Create sn cfg
    | some s => if Reusable cfg σ.now s then (some s, σ) else σ.Create sn cfg

def fullsync (needNew : Bool) (σ : Master) : Master :=
  match σ.openLatest sn cfg needNew with
  | (none, σ) => σ
  | (some s, σ) => { σ with served := s.CommitID :: σ.served }

inductive Action
  | write (seq : ℕ) (b : Batch)
  | Create
  | fullsync (needNew : Bool)
  | checkSnapshots
  | PurgeExpired
  | purgeExcess (maxNum : ℕ)
  | FlushAll
  | wait (d : ℕ)

def write (seq : ℕ) (b : Batch) : Master :=
  { σ with node := (σ.node.handleCommit sn .none (UInt32.ofNat σ.unix) seq b).2 }

def purged (s : LogStore) : Master :=
  { σ with node := { σ.node with r := { σ.node.r with s } }, served := [] }

def expired : LogStore :=
  σ.node.r.s.PurgeExpired (.ofNat (cfg.ExpiredLogDays * 24 * 3600)) (.ofNat σ.unix)

def step : Action → Master
  | .write seq b => σ.write sn seq b
  | .Create => (σ.Create sn cfg).2
  | .fullsync needNew => σ.fullsync sn cfg needNew
  | .checkSnapshots => { σ with names := purge cfg false σ.names }
  | .PurgeExpired => σ.purged (σ.expired cfg)
  | .purgeExcess maxNum => σ.purged (σ.node.r.s.purgeExcess maxNum)
  | .FlushAll => { σ with node := σ.node.FlushAll, served := [] }
  | .wait d => { σ with now := σ.now + d }

def Step (c : Action) (σ' : Master) : Prop :=
  σ.step sn cfg c = σ'

def Answers (logId : UInt64) : Prop :=
  (σ.node.syncCommand logId).1 ≠ .error .ErrLogMissed ∧
    (σ.node.syncCommand logId).1 ≠ .error .invalidSyncID

/-- A write leaves another ID, and times fit in 32 bits. A purge keeps the last log. The clock and
the time zone fit the purge by age. A purge by number keeps the log after the snapshot that may be
reused, and there is none at `FlushAll` other than one of an empty log. -/
def Safe : Action → Prop
  | .write _ _ => σ.node.r.commitID.toNat + 2 < 2 ^ 64 ∧ σ.unix < 2 ^ 32
  | .PurgeExpired => cfg.ExpiredLogDays * 24 * 3600 ≤ σ.unix ∧ σ.unix < 2 ^ 32 ∧
      cfg.zone < cfg.ExpiredLogDays * 12 * 3600 ∧ (σ.expired cfg).LastID.1 = σ.node.r.s.LastID.1
  | .purgeExcess maxNum => (σ.node.r.s.purgeExcess maxNum).LastID.1 = σ.node.r.s.LastID.1 ∧
      ∀ s, σ.names.getLast? = some s → Reusable cfg σ.now s →
        (σ.node.r.s.purgeExcess maxNum).FirstID.1 ≤ s.CommitID + 1
  | .FlushAll => ∀ s, σ.names.getLast? = some s → Reusable cfg σ.now s → s.CommitID = 0
  | _ => True

end Master

section
variable {ls : List Log} {r : Replication} {l : Ledis}

theorem LogStore.Holds.readLogs_error (h : r.s.Holds ls) {last i : UInt64} {fuel : ℕ}
    {out : Reading} {e : Err} (herr : r.readLogs last fuel i out = .error e) :
    e = .ErrLogNotFound ∨ e = .panic := by
  induction fuel generalizing i out with
  | zero => cases herr
  | succ fuel ih =>
    unfold Replication.readLogs at herr
    split_ifs at herr
    cases hget : r.GetLog i with
    | error e' =>
      rw [hget] at herr
      cases herr
      exact h.GetLog_error hget
    | ok x =>
      rw [hget] at herr
      dsimp only at herr
      split_ifs at herr
      exact ih herr

def Landed (c : UInt64) (ls : List Log) : Prop := c ≤ lastID ls ∧ firstID ls ≤ c + 1

theorem Landed.syncCommand {c : UInt64} (hland : Landed c ls) (h : l.r.s.Holds ls) :
    (l.syncCommand (c + 1)).1 ≠ .error .ErrLogMissed ∧
      (l.syncCommand (c + 1)).1 ≠ .error .invalidSyncID := by
  obtain ⟨s₁, h₁, hstat⟩ := h.Stat_eq
  obtain ⟨s₂, h₂, hfirst⟩ := @LogStore.Holds.FirstLogID_eq ls { l.r with s := s₁ } h₁
  obtain ⟨s₃, h₃, hlast⟩ := @LogStore.Holds.LastLogID_eq ls { l.r with s := s₂ } h₂
  rw [Ledis.syncCommand, hstat]
  dsimp only
  rw [UInt64.add_sub_cancel, if_neg (UInt64.not_lt.mpr hland.1), Ledis.ReadLogsTo, hfirst]
  dsimp only
  rw [if_neg (UInt64.not_lt.mpr hland.2), hlast]
  cases hread : { l.r with s := s₃ }.readLogs (lastID ls) (maxReplLogSize + 1)
    (c + 1) ⟨[], 0, c + 1⟩ with
  | ok out => simp
  | error e => rcases LogStore.Holds.readLogs_error h₃ hread with rfl | rfl <;> simp

end

namespace Master

variable {sn : Snappy} {cfg : SnapshotConfig} {σ σ' : Master} {ls : List Log}

/-- The node holds the logs `ls`. What was served, and the latest snapshot as long as it may be
reused, has its next request among them, and the logs after this snapshot are younger than it. -/
structure Inv (cfg : SnapshotConfig) (σ : Master) (ls : List Log) : Prop where
  holds : σ.node.r.s.Holds ls
  last : lastID ls = σ.node.r.commitID
  next : σ.node.r.commitID.toNat + 1 < 2 ^ 64
  past : ∀ s, σ.names.getLast? = some s → s.time ≤ σ.now
  latest : ∀ s, σ.names.getLast? = some s → Reusable cfg σ.now s → Landed s.CommitID ls ∧
    ∀ l ∈ ls, s.CommitID < l.ID → s.time / 1000000000 ≤ l.CreateTime.toNat
  served : ∀ c ∈ σ.served, Landed c ls

theorem Dump_CommitID (sn : Snappy) (t : ℕ) (l : Ledis) :
    (⟨t, l.Dump sn⟩ : Snapshot).CommitID = l.r.commitID := by
  rw [Snapshot.CommitID, Ledis.Dump, dumpStore, List.take_left' (by simp),
    beNat_beBytes_of_lt (lt_of_lt_of_eq l.r.commitID.toNat_lt (by norm_num))]
  exact UInt64.ofNat_toNat

theorem purge_getLast? {create : Bool} {names : List Snapshot} {s : Snapshot}
    (h : (purge cfg create names).getLast? = some s) : names.getLast? = some s := by
  rw [purge, List.getLast?_drop] at h
  by_cases hall : names.length ≤ names.length + (if create then 1 else 0) - cfg.MaxNum
  · rw [if_pos hall] at h
    cases h
  · rwa [if_neg hall] at h

namespace Inv

section
variable (h : σ.Inv cfg ls)
include h

theorem le_next : σ.node.r.commitID ≤ σ.node.r.commitID + 1 := by
  rw [UInt64.le_iff_toNat_le, Replication.next_toNat h.next]
  exact Nat.le_succ _

theorem landed_commitID : Landed σ.node.r.commitID ls := by
  refine ⟨UInt64.le_of_eq h.last.symm, ?_⟩
  by_cases hne : ls = []
  · rw [hne]
    exact UInt64.zero_le
  · obtain ⟨l, hl, hid⟩ := firstID_mem hne
    rw [← hid]
    exact UInt64.le_trans (h.last ▸ h.holds.contiguous.numbered.le_lastID hl) h.le_next

theorem wait (d : ℕ) : Inv cfg { σ with now := σ.now + d } ls := by
  refine { h with past := fun s hs => (h.past s hs).trans (Nat.le_add_right _ _), latest := ?_ }
  intro s hs hreuse
  refine h.latest s hs ?_
  unfold Reusable at hreuse ⊢
  push_cast at hreuse
  omega

theorem names_purge (create : Bool) : Inv cfg { σ with names := purge cfg create σ.names } ls :=
  { h with
    past := fun s hs => h.past s (purge_getLast? hs)
    latest := fun s hs => h.latest s (purge_getLast? hs) }

theorem created : Inv cfg { σ with names := σ.names ++ [⟨σ.now, σ.node.Dump sn⟩] } ls := by
  have hlast s
      (hs : (σ.names ++ [(⟨σ.now, σ.node.Dump sn⟩ : Snapshot)]).getLast? = some s) :
      ⟨σ.now, σ.node.Dump sn⟩ = s := by
    rw [List.getLast?_append] at hs
    exact Option.some.inj hs
  refine { h with past := fun s hs => ?_, latest := fun s hs _ => ?_ }
  · rw [← hlast s hs]
  · rw [← hlast s hs, Dump_CommitID]
    refine ⟨h.landed_commitID, fun l hl hlt => ?_⟩
    have hle := h.holds.contiguous.numbered.le_lastID hl
    rw [h.last] at hle
    exact absurd hlt (UInt64.not_lt.mpr hle)

theorem Create :
    (σ.Create sn cfg).2.Inv cfg ls ∧ ∀ s, (σ.Create sn cfg).1 = some s → Landed s.CommitID ls := by
  have hnew : Landed (⟨σ.now, σ.node.Dump sn⟩ : Snapshot).CommitID ls := by
    rw [Dump_CommitID]
    exact h.landed_commitID
  have hpurge := h.names_purge true
  unfold Master.Create
  dsimp only
  split
  · refine ⟨hpurge.created, fun s hs => ?_⟩
    rwa [← Option.some.inj hs]
  · split_ifs
    · exact ⟨hpurge, nofun⟩
    · refine ⟨hpurge.created, fun s hs => ?_⟩
      rwa [← Option.some.inj hs]

end

theorem openLatest (h : σ.Inv cfg ls) (needNew : Bool) :
    (σ.openLatest sn cfg needNew).2.Inv cfg ls ∧
      ∀ s, (σ.openLatest sn cfg needNew).1 = some s → Landed s.CommitID ls := by
  unfold Master.openLatest
  split_ifs
  · exact h.Create
  · cases hlast : σ.names.getLast? with
    | none => exact h.Create
    | some s =>
      dsimp only
      split_ifs with hreuse
      · refine ⟨h, fun s' hs' => ?_⟩
        rw [← Option.some.inj hs']
        exact (h.latest s hlast hreuse).1
      · exact h.Create

section
variable (h : σ.Inv cfg ls)
include h

theorem fullsync (needNew : Bool) : (σ.fullsync sn cfg needNew).Inv cfg ls := by
  obtain ⟨hinv, hland⟩ := @openLatest sn _ _ _ h needNew
  unfold Master.fullsync
  rcases hopen : σ.openLatest sn cfg needNew with ⟨_ | s, σ₁⟩ <;> rw [hopen] at hinv hland
  · exact hinv
  · refine { hinv with served := fun c hc => ?_ }
    rcases List.mem_cons.mp hc with rfl | hc
    · exact hland s rfl
    · exact hinv.served c hc

theorem append {c : UInt64} {l : Log} (hid : l.ID = σ.node.r.commitID + 1)
    (hland : Landed c ls) : Landed c (ls ++ [l]) := by
  obtain ⟨hle, hfirst⟩ := hland
  refine ⟨?_, ?_⟩
  · rw [lastID_append_singleton, hid]
    exact UInt64.le_trans (h.last ▸ hle) h.le_next
  · by_cases hne : ls = []
    · have hc : σ.node.r.commitID = 0 := by
        rw [← h.last, hne]
        rfl
      have hc0 := UInt64.le_antisymm (hc ▸ h.last ▸ hle) UInt64.zero_le
      rw [hne, hc0]
      change l.ID ≤ 0 + 1
      rw [hid, hc]
      exact UInt64.le_refl _
    · rwa [firstID_append hne]

theorem write {seq : ℕ} {b : Batch} (hsafe : Safe cfg σ (.write seq b)) :
    ∃ ls', (σ.write sn seq b).Inv cfg ls' := by
  obtain ⟨hid, htime⟩ := hsafe
  have hb : σ.node.Bounded ls := fun _ => UInt64.le_of_eq h.last.symm
  unfold Master.write
  obtain ⟨r', hc, -, -, ⟨hs', e, heq⟩ | ⟨-, hs', ⟨e, hfail, -⟩ | ⟨-, heq⟩⟩⟩ :=
    Ledis.handleCommit_cases h.holds hb h.next sn .none (UInt32.ofNat σ.unix) seq b
  · rw [heq]
    exact ⟨ls, { h with holds := hs', last := h.last.trans hc.symm, next := hc ▸ h.next }⟩
  · cases hfail
  · obtain ⟨-, hstore, hcommit, -⟩ := Replication.UpdateCommitID_none r' (σ.node.r.commitID + 1)
    have hnext c hland :
        Landed c (ls ++ [σ.node.r.nextLog sn (UInt32.ofNat σ.unix) (BatchData.encode seq b)]) :=
      h.append rfl hland
    rw [heq]
    refine ⟨_, ?_, ?_, ?_, h.past, fun s hlast hreuse => ?_, fun c hc => hnext c (h.served c hc)⟩
    · change LogStore.Holds (r'.UpdateCommitID none (σ.node.r.commitID + 1)).2.s _
      rwa [hstore]
    · rw [lastID_append_singleton]
      exact hcommit.symm
    · change (r'.UpdateCommitID none (σ.node.r.commitID + 1)).2.commitID.toNat + 1 < _
      rwa [hcommit, Replication.next_toNat h.next]
    · obtain ⟨hland, hyoung⟩ := h.latest s hlast hreuse
      refine ⟨hnext _ hland, fun l hl hlt => ?_⟩
      rcases List.mem_append.mp hl with hl | hl
      · exact hyoung l hl hlt
      · rw [List.mem_singleton.mp hl]
        change _ ≤ (UInt32.ofNat σ.unix).toNat
        rw [UInt32.toNat_ofNat_of_lt' htime]
        exact Nat.div_le_div_right (h.past s hlast)

theorem FlushAll (hsafe : Safe cfg σ .FlushAll) :
    Inv cfg { σ with node := σ.node.FlushAll, served := [] } [] where
  holds := h.holds.clear
  last := rfl
  next := show (0 : ℕ) + 1 < 2 ^ 64 by norm_num
  past := h.past
  latest := fun s hlast hreuse => by
    rw [hsafe s hlast hreuse]
    exact ⟨⟨UInt64.le_refl _, UInt64.zero_le⟩, by simp⟩
  served := by simp

theorem purged {t : LogStore} {xs ls' : List Log} (hls : xs ++ ls' = ls)
    (ht : t.Holds ls') (hlast : lastID ls' = lastID ls)
    (hfirst : ∀ s, σ.names.getLast? = some s → Reusable cfg σ.now s →
      firstID ls' ≤ s.CommitID + 1) : (σ.purged t).Inv cfg ls' where
  holds := ht
  last := hlast.trans h.last
  next := h.next
  past := h.past
  latest := fun s hs hreuse => by
    obtain ⟨⟨hle, -⟩, hyoung⟩ := h.latest s hs hreuse
    refine ⟨⟨hlast ▸ hle, hfirst s hs hreuse⟩, fun l hl hlt => hyoung l ?_ hlt⟩
    rw [← hls]
    exact List.mem_append_right _ hl
  served := by simp [Master.purged]

theorem purgeExcess {maxNum : ℕ} (hsafe : Safe cfg σ (.purgeExcess maxNum)) :
    ∃ ls', (σ.purged (σ.node.r.s.purgeExcess maxNum)).Inv cfg ls' := by
  obtain ⟨hlast, hfirst⟩ := hsafe
  obtain ⟨ls', ⟨xs, hls⟩, h'⟩ := h.holds.purgeExcess maxNum
  rw [h'.LastID_eq.1, h.holds.LastID_eq.1] at hlast
  rw [h'.FirstID_eq.1] at hfirst
  exact ⟨ls', h.purged hls h' hlast hfirst⟩

end

theorem expiry_toNat {n now : ℕ} (hn : n ≤ now) (hnow : now < 2 ^ 32) :
    ((Int64.ofNat now - Int64.ofNat n).toUInt64.toUInt32).toNat = now - n := by
  rw [← Int64.ofNat_sub _ _ hn, Int64.toUInt64_ofNat', UInt64.toUInt32_ofNat',
    UInt32.toNat_ofNat_of_lt' (lt_of_le_of_lt (Nat.sub_le _ _) hnow)]

theorem young (h : σ.Inv cfg ls) (hsafe : Safe cfg σ .PurgeExpired) {s : Snapshot}
    (hs : σ.names.getLast? = some s) (hreuse : Reusable cfg σ.now s) {l : Log} (hl : l ∈ ls)
    (hexpired : l.CreateTime.toNat ≤ σ.unix - cfg.ExpiredLogDays * 24 * 3600) :
    l.ID ≤ s.CommitID := by
  obtain ⟨hclock, -, hzone, -⟩ := hsafe
  refine UInt64.not_lt.mp fun hlt => ?_
  have hyoung := (h.latest s hs hreuse).2 l hl hlt
  unfold Reusable at hreuse
  unfold unix at hclock hexpired
  omega

theorem firstID_le (h : σ.Inv cfg ls) {xs ls' : List Log} (hls : xs ++ ls' = ls) {x : Log}
    (hx : xs.getLast? = some x) {c : UInt64} (hc : c ≤ lastID ls) (hle : x.ID ≤ c) :
    firstID ls' ≤ c + 1 := by
  by_cases hne : ls' = []
  · rw [hne]
    exact UInt64.zero_le
  · have hnum := h.holds.contiguous.numbered
    rw [← hls, numbered_append] at hnum
    have hfirst := hnum.2.firstID_eq hne
    have hlast := hnum.1.lastID_eq (by rintro rfl; cases hx)
    have hid : lastID xs = x.ID := by
      rw [lastID, hx]
      rfl
    have hnext := h.next
    rw [h.last, UInt64.le_iff_toNat_le] at hc
    rw [UInt64.le_iff_toNat_le, Replication.next_toNat (by omega), hfirst, ← hlast, hid]
    exact Nat.succ_le_succ hle

theorem PurgeExpired (h : σ.Inv cfg ls) (hsafe : Safe cfg σ .PurgeExpired) :
    ∃ ls', (σ.purged (σ.expired cfg)).Inv cfg ls' := by
  obtain ⟨hclock, htime, -, hlast⟩ := id hsafe
  obtain ⟨xs, ls', hls, h', hexpired⟩ := h.holds.PurgeExpired_split
    (.ofNat (cfg.ExpiredLogDays * 24 * 3600)) (.ofNat σ.unix)
  unfold expired at hlast ⊢
  rw [h'.LastID_eq.1, h.holds.LastID_eq.1] at hlast
  refine ⟨ls', h.purged hls h' hlast fun s hs hreuse => ?_⟩
  by_cases hxs : xs = []
  · rw [hxs, List.nil_append] at hls
    rw [hls]
    exact (h.latest s hs hreuse).1.2
  · have hx := List.getLast?_eq_some_getLast hxs
    have hle := hexpired _ hx
    rw [UInt32.le_iff_toNat_le, expiry_toNat hclock htime] at hle
    have hold := h.young hsafe hs hreuse (by rw [← hls]; simp) hle
    exact h.firstID_le hls hx (h.latest s hs hreuse).1.1 hold

theorem step {c : Action} (h : ∃ ls, σ.Inv cfg ls) (hsafe : Safe cfg σ c)
    (hstep : Step sn cfg σ c σ') : ∃ ls, σ'.Inv cfg ls := by
  obtain ⟨ls, h⟩ := h
  obtain rfl := hstep
  cases c with
  | write seq b => exact h.write hsafe
  | Create => exact ⟨ls, h.Create.1⟩
  | fullsync needNew => exact ⟨ls, h.fullsync needNew⟩
  | checkSnapshots => exact ⟨ls, h.names_purge false⟩
  | PurgeExpired => exact h.PurgeExpired hsafe
  | purgeExcess maxNum => exact h.purgeExcess hsafe
  | FlushAll => exact ⟨[], h.FlushAll hsafe⟩
  | wait d => exact ⟨ls, h.wait d⟩

theorem new {rcfg : Config} {files : LogFiles} {r : Replication} {now : ℕ}
    (hfiles : files = .file .empty ∨ files = .level .empty)
    (hr : NewReplication rcfg files none = .ok r) : Inv cfg ⟨⟨.empty, r⟩, [], now, []⟩ [] := by
  obtain ⟨t, hopen, ht⟩ := LogStore.open_empty rcfg hfiles
  rw [NewReplication, hopen] at hr
  cases hr
  exact ⟨ht, rfl, show 0 + 1 < 2 ^ 64 by norm_num, by simp, by simp, by simp⟩

end Inv

/-- In every run that is safe, the request after a full sync is answered. -/
theorem fullsync_lands_in_log {rcfg : Config} {files : LogFiles} {r : Replication} {now : ℕ}
    (hfiles : files = .file .empty ∨ files = .level .empty)
    (hr : NewReplication rcfg files none = .ok r)
    (hrun : Reaches (Step sn cfg) (Safe cfg) ⟨⟨.empty, r⟩, [], now, []⟩ σ) :
    ∀ c ∈ σ.served, σ.Answers (c + 1) := by
  have hinv := hrun.invariant ⟨[], .new hfiles hr⟩ fun _ _ _ h hsafe hstep => Inv.step h hsafe hstep
  obtain ⟨ls, h⟩ := hinv
  exact fun c hc => (h.served c hc).syncCommand h.holds

open RoleSwitch (fresh plain)

theorem fullsync_lands_reused :
    ∃ σ, Reaches (Step plain ⟨7, 1, 0⟩) (Safe ⟨7, 1, 0⟩) ⟨fresh, [], 0, []⟩ σ ∧
      σ.served = [1, 1] ∧ σ.node.r.commitID = 2 ∧ σ.Answers 2 := by
  have hrun : Reaches (Step plain ⟨7, 1, 0⟩) (Safe ⟨7, 1, 0⟩) ⟨fresh, [], 0, []⟩ _ :=
    .step (c := .fullsync false)
      (.step (c := .write 1 [.put [1] [3]])
        (.step (c := .fullsync false)
          (.step (c := .write 0 [.put [1] [2]]) .refl ⟨by decide, by decide⟩ rfl) trivial rfl)
        ⟨by decide, by decide⟩ rfl)
      trivial rfl
  have hnew : NewReplication ⟨false, 0, 0, false⟩ (.file .empty) none = .ok fresh.r := rfl
  exact ⟨_, hrun, by decide, by decide, fullsync_lands_in_log (.inl rfl) hnew hrun 1 (by decide)⟩

theorem flushed_master_reuses_snapshot :
    ∃ σ, Reaches (Step plain ⟨7, 1, 0⟩) (fun _ _ => True) ⟨fresh, [], 0, []⟩ σ ∧
      σ.served = [1] ∧ (σ.node.syncCommand 2).1 = .error .invalidSyncID ∧
      ¬ ∀ c ∈ σ.served, σ.Answers (c + 1) := by
  have hrun : Reaches (Step plain ⟨7, 1, 0⟩) (fun _ _ => True) ⟨fresh, [], 0, []⟩ _ :=
    .step (c := .fullsync false)
      (.step (c := .FlushAll)
        (.step (c := .fullsync false)
          (.step (c := .write 0 [.put [1] [2]]) .refl trivial rfl) trivial rfl)
        trivial rfl)
      trivial rfl
  refine ⟨_, hrun, by decide, by decide, fun h => ?_⟩
  exact (h 1 (by decide)).2 (by decide)

end Master

end LedisDB.Rpl
