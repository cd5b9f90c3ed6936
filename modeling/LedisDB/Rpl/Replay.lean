import LedisDB.Rpl.BatchData
import LedisDB.Rpl.Replication

/-!
# Applying the logs

`handleReplication` of `ledis/replication.go` on a node that has a database and a
replication log. A pass of its loop takes the log after the commit ID, decodes
its batch, commits the batch and moves the commit ID on. An error of the replay
is only logged, so what was handed out before it is committed.
-/

namespace LedisDB.Rpl

open List

structure Ledis where
  ldb : Store
  r : Replication

/-- What can fail outside: the commit of the driver and writing the commit log. -/
structure Faults where
  commitErr : Option Err
  writeErr : Option Err

def Faults.none : Faults := ⟨.none, .none⟩

inductive Pass
  | next
  | done
  | failed (e : Err)
  | panicked
  deriving DecidableEq

def Pass.ofErr : Err → Pass
  | .panic => .panicked
  | e => .failed e

namespace Ledis

def applyLog (sn : Snappy) (f : Faults) (l : Ledis) (rl : Log) : Pass × Ledis :=
  match sn.payload rl with
  | .error e => (.ofErr e, l)
  | .ok data =>
    match BatchData.load data with
    | .error e => (.ofErr e, l)
    | .ok _ =>
      -- of the errors of the replay only a panic ends the pass
      if (BatchData.Replay data).2 = .error .panic then (.panicked, l)
      else match f.commitErr with
        | some e => (.failed e, l)
        | none =>
          match l.r.UpdateCommitID f.writeErr rl.ID with
          | (.ok _, r) => (.next, ⟨l.ldb.applyBatch (BatchData.Replay data).1, r⟩)
          | (.error e, r) => (.failed e, ⟨l.ldb.applyBatch (BatchData.Replay data).1, r⟩)

def pass (sn : Snappy) (f : Faults) (l : Ledis) : Pass × Ledis :=
  match l.r.NextNeedCommitLog with
  | (.error .ErrNoBehindLog, r) => (.done, { l with r })
  | (.error e, r) => (.ofErr e, { l with r })
  | (.ok rl, r) => applyLog sn f { l with r } rl

/-- The loop; without result where the fuel does not last. -/
def handleReplication (sn : Snappy) (f : Faults) : ℕ → Ledis → Option Pass × Ledis
  | 0, l => (none, l)
  | fuel + 1, l =>
    match l.pass sn f with
    | (.next, l) => handleReplication sn f fuel l
    | (p, l) => (some p, l)

end Ledis

def Encodes (sn : Snappy) (rl : Log) (b : Batch) : Prop :=
  ∃ data, sn.payload rl = .ok data ∧ BatchData.load data = .ok () ∧
    BatchData.Replay data = (b, .ok ())

namespace Ledis

variable {sn : Snappy} {f : Faults} {l : Ledis} {rl : Log} {b b' : Batch} {data : Bytes}

/-- The pass has applied the log as a whole, or has returned an error and changed nothing. -/
def AllOrNothing (sn : Snappy) (f : Faults) (l : Ledis) (rl : Log) : Prop :=
  (∃ b, Encodes sn rl b ∧ (l.pass sn f).1 = .next ∧
      (l.pass sn f).2.ldb = l.ldb.applyBatch b ∧ (l.pass sn f).2.r.commitID = rl.ID) ∨
    ∃ e, (l.pass sn f).1 = .failed e ∧ (l.pass sn f).2.ldb = l.ldb ∧
      (l.pass sn f).2.r.commitID = l.r.commitID

def Updates (f : Faults) (r : Replication) : Prop := f.writeErr = none ∨ r.cfg.SyncLog ≠ 2

/-- Nothing panics. When it comes to a commit, the replay has gone through to the end and the
commit ID can be updated, or the commit changes nothing and the commit ID cannot be updated. -/
def Clean (sn : Snappy) (f : Faults) (l : Ledis) (rl : Log) : Prop :=
  match sn.payload rl with
  | .error e => e ≠ .panic
  | .ok data =>
    match BatchData.load data with
    | .error _ => True
    | .ok _ =>
      (BatchData.Replay data).2 ≠ .error .panic ∧
        (f.commitErr ≠ none ∨ (BatchData.Replay data).2 = .ok () ∧ Updates f l.r ∨
          ¬ Updates f l.r ∧ l.ldb.applyBatch (BatchData.Replay data).1 = l.ldb)

theorem NextNeedCommitLog_keeps (r : Replication) :
    r.NextNeedCommitLog.2.commitID = r.commitID ∧ r.NextNeedCommitLog.2.cfg = r.cfg := by
  unfold Replication.NextNeedCommitLog
  dsimp only
  split_ifs <;> exact ⟨rfl, rfl⟩

theorem pass_eq_applyLog {r : Replication} (h : l.r.NextNeedCommitLog = (.ok rl, r)) (sn : Snappy)
    (f : Faults) : l.pass sn f = applyLog sn f { l with r } rl := by
  rw [pass, h]

theorem ofErr_eq_failed_iff {e e' : Err} : Pass.ofErr e = .failed e' ↔ e ≠ .panic ∧ e = e' := by
  cases e <;> simp [Pass.ofErr]

theorem UpdateCommitID_cases (f : Faults) (r : Replication) (id : UInt64) :
    (Updates f r ∧ ∃ r', r.UpdateCommitID f.writeErr id = (.ok (), r') ∧ r'.commitID = id ∧
        r'.s = r.s ∧ r'.cfg = r.cfg) ∨
      (¬ Updates f r ∧ ∃ e, r.UpdateCommitID f.writeErr id = (.error e, r)) := by
  unfold Updates Replication.UpdateCommitID Replication.updateCommitID
  by_cases hsync : r.cfg.SyncLog = 2
  · rw [if_pos (by simp [hsync])]
    cases f.writeErr with
    | none => exact .inl ⟨.inl rfl, _, rfl, rfl, rfl, rfl⟩
    | some e => exact .inr ⟨by simp [hsync], e, rfl⟩
  · rw [if_neg (by simp [hsync])]
    exact .inl ⟨.inr hsync, _, rfl, rfl, rfl, rfl⟩

theorem load_error {e : Err} (h : BatchData.load data = .error e) : e = .corrupt := by
  unfold BatchData.load at h
  split_ifs at h
  cases h
  rfl

theorem applyLog_replayed {data : Bytes} {res : Except Err Unit}
    (hdata : sn.payload rl = .ok data) (hload : BatchData.load data = .ok ())
    (hreplay : BatchData.Replay data = (b, res)) (hres : res ≠ .error .panic) :
    (∃ e, f.commitErr = some e ∧ l.applyLog sn f rl = (.failed e, l)) ∨
      (f.commitErr = none ∧ Updates f l.r ∧ ∃ r, r.commitID = rl.ID ∧ r.s = l.r.s ∧
        r.cfg = l.r.cfg ∧ l.applyLog sn f rl = (.next, ⟨l.ldb.applyBatch b, r⟩)) ∨
      (f.commitErr = none ∧ ¬ Updates f l.r ∧
        ∃ e, l.applyLog sn f rl = (.failed e, ⟨l.ldb.applyBatch b, l.r⟩)) := by
  simp only [applyLog, hdata, hload, hreplay]
  rw [if_neg hres]
  cases f.commitErr with
  | some e => exact .inl ⟨e, rfl, rfl⟩
  | none =>
    rcases UpdateCommitID_cases f l.r rl.ID with ⟨hup, r', heq, hid, hs, hcfg⟩ | ⟨hup, e, heq⟩
    · exact .inr (.inl ⟨rfl, hup, r', hid, hs, hcfg, by rw [heq]⟩)
    · exact .inr (.inr ⟨rfl, hup, e, by rw [heq]⟩)

theorem encodes_of_replay {res : Except Err Unit} (hdata : sn.payload rl = .ok data)
    (hreplay : BatchData.Replay data = (b, res)) (h : Encodes sn rl b') :
    b' = b ∧ res = .ok () := by
  obtain ⟨data', hdata', -, hreplay'⟩ := h
  rw [hdata] at hdata'
  cases hdata'
  rw [hreplay] at hreplay'
  exact ⟨(congrArg Prod.fst hreplay').symm, congrArg Prod.snd hreplay'⟩

section
variable {r : Replication} (h : l.r.NextNeedCommitLog = (.ok rl, r))
include h

theorem next_keeps : r.commitID = l.r.commitID ∧ (Updates f r ↔ Updates f l.r) := by
  obtain ⟨hcommit, hcfg⟩ := NextNeedCommitLog_keeps l.r
  rw [h] at hcommit hcfg
  unfold Updates
  rw [hcfg]
  exact ⟨hcommit, Iff.rfl⟩

theorem allOrNothing_undecoded {e : Err} (hdata : sn.payload rl = .error e) :
    l.AllOrNothing sn f rl ↔ e ≠ .panic := by
  have heq : applyLog sn f { l with r } rl = (.ofErr e, { l with r }) := by
    unfold applyLog
    rw [hdata]
  rw [AllOrNothing, pass_eq_applyLog h, heq]
  constructor
  · rintro (⟨b, ⟨data, hdata', -⟩, -⟩ | ⟨e', he, -⟩)
    · rw [hdata] at hdata'
      cases hdata'
    · exact (ofErr_eq_failed_iff.mp he).1
  · intro hne
    exact .inr ⟨e, ofErr_eq_failed_iff.mpr ⟨hne, rfl⟩, rfl, (next_keeps (f := f) h).1⟩

section
variable (hdata : sn.payload rl = .ok data)
include hdata

theorem allOrNothing_corrupt {e : Err} (hload : BatchData.load data = .error e) :
    l.AllOrNothing sn f rl := by
  obtain rfl := load_error hload
  have heq : applyLog sn f { l with r } rl = (.failed .corrupt, { l with r }) := by
    unfold applyLog
    simp only [hdata, hload]
    rfl
  rw [AllOrNothing, pass_eq_applyLog h, heq]
  exact .inr ⟨_, rfl, rfl, (next_keeps (f := f) h).1⟩

variable {res : Except Err Unit} (hload : BatchData.load data = .ok ())
  (hreplay : BatchData.Replay data = (b, res))
include hload hreplay

theorem not_allOrNothing_panicked (hres : res = .error .panic) : ¬ l.AllOrNothing sn f rl := by
  have heq : applyLog sn f { l with r } rl = (.panicked, { l with r }) := by
    unfold applyLog
    simp only [hdata, hload, hreplay]
    rw [if_pos hres]
  rw [AllOrNothing, pass_eq_applyLog h, heq]
  simp

theorem allOrNothing_replayed (hres : res ≠ .error .panic) :
    l.AllOrNothing sn f rl ↔ f.commitErr ≠ none ∨ res = .ok () ∧ Updates f l.r ∨
      ¬ Updates f l.r ∧ l.ldb.applyBatch b = l.ldb := by
  obtain ⟨hcommit, hup⟩ := next_keeps (f := f) h
  rw [AllOrNothing, pass_eq_applyLog h]
  rcases @applyLog_replayed sn f { l with r } rl b data res hdata hload hreplay hres with
    ⟨e, hfail, heq⟩ | ⟨hfail, hupd, r', hid, -, -, heq⟩ | ⟨hfail, hupd, e, heq⟩
  · rw [heq]
    exact ⟨fun _ => .inl (by simp [hfail]), fun _ => .inr ⟨e, rfl, rfl, hcommit⟩⟩
  · rw [heq]
    have hupd := hup.mp hupd
    constructor
    · rintro (⟨b', henc, -⟩ | ⟨e, he, -⟩)
      · exact .inr (.inl ⟨(encodes_of_replay hdata hreplay henc).2, hupd⟩)
      · cases he
    · rintro (hne | ⟨hok, -⟩ | ⟨hnot, -⟩)
      · exact absurd hfail hne
      · exact .inl ⟨b, ⟨data, hdata, hload, by rw [hreplay, hok]⟩, rfl, rfl, hid⟩
      · exact absurd hupd hnot
  · rw [heq]
    have hupd := fun hu => hupd (hup.mpr hu)
    constructor
    · rintro (⟨b', -, hnext, -⟩ | ⟨e', -, hnoop, -⟩)
      · cases hnext
      · exact .inr (.inr ⟨hupd, hnoop⟩)
    · rintro (hne | ⟨-, hu⟩ | ⟨-, hnoop⟩)
      · exact absurd hfail hne
      · exact absurd hu hupd
      · exact .inr ⟨e, rfl, hnoop, hcommit⟩

end

/-- A pass applies the next log as a whole or leaves everything as it is exactly when the log
is clean. -/
theorem log_applied_all_or_nothing_iff : l.AllOrNothing sn f rl ↔ l.Clean sn f rl := by
  unfold Clean
  cases hdata : sn.payload rl with
  | error e => exact allOrNothing_undecoded h hdata
  | ok data =>
    cases hload : BatchData.load data with
    | error e => exact iff_of_true (allOrNothing_corrupt h hdata hload) (by simp [hload])
    | ok u =>
      rcases hreplay : BatchData.Replay data with ⟨b, res⟩
      simp only [hload, hreplay]
      by_cases hres : res = .error .panic
      · exact iff_of_false (not_allOrNothing_panicked h hdata hload hreplay hres)
          fun hc => hc.1 hres
      · rw [and_iff_right hres]
        exact allOrNothing_replayed h hdata hload hreplay hres

end

theorem log_applied_put :
    ∃ r₀ r₁ : Replication, NewReplication ⟨false, 2, 0, false⟩ (.file .empty) none = .ok r₀ ∧
      r₀.StoreLog ⟨1, 0, 0, BatchData.encode 0 [.put [7] [8]]⟩ = (.ok (), r₁) ∧
      AllOrNothing ⟨id, .ok, fun _ => rfl⟩ .none ⟨.empty, r₁⟩
        ⟨1, 0, 0, BatchData.encode 0 [.put [7] [8]]⟩ :=
  ⟨_, _, rfl, rfl, (@log_applied_all_or_nothing_iff ⟨id, .ok, fun _ => rfl⟩ .none ⟨.empty, _⟩
    ⟨1, 0, 0, BatchData.encode 0 [.put [7] [8]]⟩ _ rfl).mpr
    ⟨by decide, Or.inr (Or.inl ⟨rfl, Or.inl rfl⟩)⟩⟩

theorem malformed_log_partly_applied :
    ∃ r₀ r₁ : Replication, NewReplication ⟨false, 2, 0, false⟩ (.file .empty) none = .ok r₀ ∧
      r₀.StoreLog ⟨1, 0, 0, [0, 0, 0, 0, 0, 0, 0, 0, 2, 0, 0, 0, 1, 1, 7, 1, 8]⟩ = (.ok (), r₁) ∧
      ((⟨.empty, r₁⟩ : Ledis).pass ⟨id, .ok, fun _ => rfl⟩ .none).1 = .next ∧
      ((⟨.empty, r₁⟩ : Ledis).pass ⟨id, .ok, fun _ => rfl⟩ .none).2.ldb.get [7] = some [8] ∧
      ((⟨.empty, r₁⟩ : Ledis).pass ⟨id, .ok, fun _ => rfl⟩ .none).2.r.commitID = 1 ∧
      ¬ AllOrNothing ⟨id, .ok, fun _ => rfl⟩ .none ⟨.empty, r₁⟩
        ⟨1, 0, 0, [0, 0, 0, 0, 0, 0, 0, 0, 2, 0, 0, 0, 1, 1, 7, 1, 8]⟩ := by
  refine ⟨_, _, rfl, rfl, rfl, rfl, rfl, ?_⟩
  rintro (⟨b, ⟨data, hdata, -, hreplay⟩, -⟩ | ⟨e, hfailed, -⟩)
  · cases hdata
    have hend : (BatchData.Replay [0, 0, 0, 0, 0, 0, 0, 0, 2, 0, 0, 0, 1, 1, 7, 1, 8]).2 = .ok () :=
      congrArg Prod.snd hreplay
    exact absurd hend (by decide)
  · cases hfailed

section Run

variable {ls : List Log} {bs : List Batch} {k j fuel : ℕ} {s : LogStore}

structure Logged (sn : Snappy) (s : LogStore) (k : ℕ) (ls : List Log) (bs : List Batch) : Prop where
  holds : s.Holds ls
  numbered : Numbered (k + 1) ls
  encodes : List.Forall₂ (fun rl b => Encodes sn rl.wire b) ls (bs.drop k)

theorem Logged.length_eq (h : Logged sn s k ls bs) (hk : k ≤ bs.length) :
    k + ls.length = bs.length := by
  have := h.encodes.length_eq
  rw [length_drop] at this
  omega

theorem Logged.LastID (h : Logged sn s k ls bs) : Logged sn s.LastID.2 k ls bs :=
  ⟨h.holds.LastID_eq.2, h.numbered, h.encodes⟩

theorem Logged.pass_done (h : Logged sn l.r.s k ls bs) (hk : k ≤ bs.length)
    (hcommit : l.r.commitID.toNat = bs.length) :
    ∃ l', l.pass sn f = (.done, l') ∧ l'.ldb = l.ldb ∧ l'.r.commitID = l.r.commitID := by
  have hle : l.r.s.LastID.1 ≤ l.r.commitID := by
    rw [h.holds.LastID_eq.1]
    by_cases hne : ls = []
    · rw [hne]
      exact UInt64.zero_le
    · have hlast := h.numbered.lastID_eq hne
      have hlen := h.length_eq hk
      rw [UInt64.le_iff_toNat_le]
      omega
  unfold pass Replication.NextNeedCommitLog
  dsimp only
  rw [if_pos hle]
  exact ⟨_, rfl, rfl, rfl⟩

section
variable (h : Logged sn l.r.s k ls bs) (hk : k ≤ j) (hj : j < bs.length)
  (hcommit : l.r.commitID.toNat = j)
include h hk hj hcommit

theorem Logged.NextNeedCommitLog_eq :
    ∃ rl : Log, rl.ID.toNat = j + 1 ∧ Encodes sn rl.wire bs[j] ∧
      l.r.NextNeedCommitLog = (.ok rl.wire, { l.r with s := l.r.s.LastID.2 }) := by
  have hlen := h.length_eq (hk.trans hj.le)
  have hi : j - k < ls.length := by omega
  obtain ⟨rl, hrl⟩ : ∃ rl, rl = ls[j - k] := ⟨_, rfl⟩
  have hls : ls = ls.take (j - k) ++ rl :: ls.drop (j - k + 1) := by
    rw [hrl, getElem_cons_drop, take_append_drop]
  have hnat : rl.ID.toNat = j + 1 := by
    have hnum := h.numbered
    rw [hls] at hnum
    rw [hnum.id_eq, length_take]
    omega
  have hid : rl.ID = l.r.commitID + 1 := by
    have hlt := rl.ID.toNat_lt
    rw [← UInt64.toNat_inj, UInt64.toNat_add, UInt64.toNat_one]
    omega
  have hlast : ¬ l.r.s.LastID.1 ≤ l.r.commitID := by
    have := h.numbered.lastID_eq (ne_nil_of_length_pos (by omega))
    rw [h.holds.LastID_eq.1, UInt64.le_iff_toNat_le]
    omega
  refine ⟨rl, hnat, ?_, ?_⟩
  · have hrel := (forall₂_iff_get.mp h.encodes).2 (j - k) hi (by rw [length_drop]; omega)
    simp only [get_eq_getElem, getElem_drop, Nat.add_sub_cancel' hk] at hrel
    rwa [hrl]
  · have hget := h.holds.LastID_eq.2.GetLog_of_mem (l := rl) (by rw [hls]; simp)
    unfold Replication.NextNeedCommitLog
    dsimp only
    rw [if_neg hlast, ← hid, hget]

theorem Logged.pass_next :
    ∃ l', l.pass sn .none = (.next, l') ∧ l'.ldb = l.ldb.applyBatch bs[j] ∧
      l'.r.commitID.toNat = j + 1 ∧ Logged sn l'.r.s k ls bs := by
  obtain ⟨rl, hnat, ⟨data, hdata, hload, hreplay⟩, hnext⟩ := h.NextNeedCommitLog_eq hk hj hcommit
  rw [pass_eq_applyLog hnext]
  rcases @applyLog_replayed sn .none { l with r := { l.r with s := l.r.s.LastID.2 } } rl.wire
    bs[j] data (.ok ()) hdata hload hreplay (by simp) with
    ⟨e, hfail, -⟩ | ⟨-, -, r', hcommit', hs', -, heq⟩ | ⟨-, hupd, -⟩
  · cases hfail
  · refine ⟨_, heq, rfl, ?_, ?_⟩
    · rwa [hcommit']
    · rw [hs']
      exact h.LastID
  · exact absurd (.inl rfl) hupd

end

theorem Logged.handleReplication (h : Logged sn l.r.s k ls bs) (hk : k ≤ j) (hj : j ≤ bs.length)
    (hcommit : l.r.commitID.toNat = j) (hfuel : bs.length - j < fuel) :
    ∃ l', l.handleReplication sn .none fuel = (some .done, l') ∧
      l'.r.commitID.toNat = bs.length ∧ l'.ldb = l.ldb.applyBatch (bs.drop j).flatten := by
  induction fuel generalizing l j with
  | zero => exact absurd hfuel (Nat.not_lt_zero _)
  | succ fuel ih =>
    unfold handleReplication
    rcases Nat.lt_or_eq_of_le hj with hlt | rfl
    · obtain ⟨l₁, hpass, hldb, hcommit₁, h₁⟩ := h.pass_next hk hlt hcommit
      obtain ⟨l', hrun, hc', hl'⟩ := ih h₁ (by omega) hlt hcommit₁ (by omega)
      rw [hpass]
      refine ⟨l', hrun, hc', ?_⟩
      rw [hl', hldb, ← applyBatch_append, ← flatten_cons, getElem_cons_drop hlt]
    · obtain ⟨l', hpass, hldb, hcommit'⟩ := h.pass_done hk hcommit
      rw [hpass]
      refine ⟨l', rfl, by rw [hcommit', hcommit], ?_⟩
      rw [hldb, drop_length]
      rfl

end Run

end Ledis

end LedisDB.Rpl
