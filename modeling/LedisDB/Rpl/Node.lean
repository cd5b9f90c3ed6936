import LedisDB.Rpl.Dump
import LedisDB.Rpl.Sync

/-!
# The steps of a node

`handleCommit` of `ledis/batch.go`: a batch is logged, then committed, and then the
commit ID moves on. For this, for a pass of the loop that applies logs and for what a
slave does with a reply: what becomes of the logs that the node holds, of its database
and of its commit ID.
-/

namespace LedisDB.Rpl

namespace Ledis

def handleCommit (sn : Snappy) (f : Faults) (now : UInt32) (seq : ℕ) (l : Ledis) (b : Batch) :
    Except Err Unit × Ledis :=
  match l.r.Log sn now (BatchData.encode seq b) with
  | (.error e, r) => (.error e, { l with r })
  | (.ok rl, r) =>
    match f.commitErr with
    | some e => (.error e, { l with r })
    | none => ((r.UpdateCommitID f.writeErr rl.ID).1,
        ⟨l.ldb.applyBatch b, (r.UpdateCommitID f.writeErr rl.ID).2⟩)

end Ledis

section
variable {sn : Snappy} {f : Faults} {l : Ledis} {ls : List Rpl.Log} {rl : Rpl.Log}

def Ledis.Bounded (l : Ledis) (ls : List Rpl.Log) : Prop := ls ≠ [] → l.r.commitID ≤ lastID ls

namespace Ledis

theorem Log_cases (h : l.r.s.Holds ls) (hb : l.Bounded ls)
    (hid : l.r.commitID.toNat + 1 < 2 ^ 64) (sn : Snappy) (now : UInt32) (data : Bytes) :
    ∃ s', (s'.Holds ls ∧ ∃ e, l.r.Log sn now data = (.error e, { l.r with s := s' })) ∨
      ((ls ≠ [] → lastID ls = l.r.commitID) ∧ s'.Holds (ls ++ [l.r.nextLog sn now data]) ∧
        l.r.Log sn now data = (.ok (l.r.nextLog sn now data), { l.r with s := s' })) := by
  obtain ⟨hlast, h'⟩ := h.LastID_eq
  by_cases hbehind : l.r.s.LastID.1 > l.r.commitID
  · refine ⟨l.r.s.LastID.2, .inl ⟨h', .ErrCommitIDBehind, ?_⟩⟩
    unfold Replication.Log
    dsimp only
    rw [if_pos hbehind]
  · have hle := UInt64.not_lt.mp hbehind
    have heq := fun hne => UInt64.le_antisymm (hlast ▸ hle) (hb hne)
    have h0 : (l.r.nextLog sn now data).ID ≠ 0 := by
      rw [← UInt64.toNat_inj.ne]
      change (l.r.commitID + 1).toNat ≠ 0
      rw [Replication.next_toNat hid]
      exact Nat.succ_ne_zero _
    rw [Replication.Log_eq_of_le hle]
    rcases hst : l.r.s.LastID.2.StoreLog (l.r.nextLog sn now data) with ⟨res, s'⟩
    have hcases := h'.StoreLog_cases h0 fun hne => by rw [heq hne]; rfl
    rw [hst] at hcases
    refine ⟨s', ?_⟩
    rcases hcases with ⟨hok, hs'⟩ | ⟨herr, hs'⟩
    · obtain rfl := hok
      exact .inr ⟨heq, hs', rfl⟩
    · cases res with
      | ok _ => exact absurd rfl herr
      | error e => exact .inl ⟨hs', e, rfl⟩

theorem UpdateCommitID_keeps (r : Replication) (writeErr : Option Err) (id : UInt64) :
    (r.UpdateCommitID writeErr id).2.s = r.s ∧ (r.UpdateCommitID writeErr id).2.cfg = r.cfg ∧
      ((r.UpdateCommitID writeErr id).2.commitID = id ∨
        (r.UpdateCommitID writeErr id).2.commitID = r.commitID) := by
  rcases UpdateCommitID_cases ⟨none, writeErr⟩ r id with ⟨-, r', heq, hid, hs, hcfg⟩ | ⟨-, e, heq⟩
  · rw [heq]
    exact ⟨hs, hcfg, .inl hid⟩
  · rw [heq]
    exact ⟨rfl, rfl, .inr rfl⟩

theorem handleCommit_cases (h : l.r.s.Holds ls) (hb : l.Bounded ls)
    (hid : l.r.commitID.toNat + 1 < 2 ^ 64) (sn : Snappy) (f : Faults) (now : UInt32) (seq : ℕ)
    (b : Batch) :
    ∃ r' : Replication, r'.commitID = l.r.commitID ∧ r'.cfg = l.r.cfg ∧
      r'.commitLog = l.r.commitLog ∧
      ((r'.s.Holds ls ∧ ∃ e, l.handleCommit sn f now seq b = (.error e, ⟨l.ldb, r'⟩)) ∨
        ((ls ≠ [] → lastID ls = l.r.commitID) ∧
          r'.s.Holds (ls ++ [l.r.nextLog sn now (BatchData.encode seq b)]) ∧
          ((∃ e, f.commitErr = some e ∧ l.handleCommit sn f now seq b = (.error e, ⟨l.ldb, r'⟩)) ∨
            f.commitErr = none ∧ l.handleCommit sn f now seq b =
              ((r'.UpdateCommitID f.writeErr (l.r.commitID + 1)).1,
                ⟨l.ldb.applyBatch b, (r'.UpdateCommitID f.writeErr (l.r.commitID + 1)).2⟩)))) := by
  unfold handleCommit
  obtain ⟨s', ⟨hs', e, hlog⟩ | ⟨heq, hs', hlog⟩⟩ :=
    Log_cases h hb hid sn now (BatchData.encode seq b)
  · rw [hlog]
    exact ⟨{ l.r with s := s' }, rfl, rfl, rfl, .inl ⟨hs', e, rfl⟩⟩
  · rw [hlog]
    refine ⟨{ l.r with s := s' }, rfl, rfl, rfl, .inr ⟨heq, hs', ?_⟩⟩
    cases f.commitErr with
    | some e => exact .inl ⟨e, rfl, rfl⟩
    | none => exact .inr ⟨rfl, rfl⟩

theorem handleCommit_logs (h : l.r.s.Holds ls) (hb : l.Bounded ls)
    (hid : l.r.commitID.toNat + 1 < 2 ^ 64) (sn : Snappy) (f : Faults) (now : UInt32) (seq : ℕ)
    (b : Batch) :
    ∃ ls', (l.handleCommit sn f now seq b).2.r.s.Holds ls' ∧
      (l.handleCommit sn f now seq b).2.Bounded ls' ∧
      (ls' = ls ∨ ls' = ls ++ [l.r.nextLog sn now (BatchData.encode seq b)]) := by
  have hlast : lastID (ls ++ [l.r.nextLog sn now (BatchData.encode seq b)]) = l.r.commitID + 1 :=
    lastID_append_singleton _ _
  have hlt : l.r.commitID ≤ l.r.commitID + 1 := by
    rw [UInt64.le_iff_toNat_le, Replication.next_toNat hid]
    exact Nat.le_succ _
  obtain ⟨r', hc, -, -, ⟨hs', e, heq⟩ | ⟨-, hs', ⟨e, -, heq⟩ | ⟨-, heq⟩⟩⟩ :=
    handleCommit_cases h hb hid sn f now seq b
  · rw [heq]
    exact ⟨ls, hs', fun hne => hc ▸ hb hne, .inl rfl⟩
  · rw [heq]
    refine ⟨_, hs', fun _ => ?_, .inr rfl⟩
    rw [hlast]
    exact hc ▸ hlt
  · rw [heq]
    obtain ⟨hs, -, hid'⟩ := UpdateCommitID_keeps r' f.writeErr (l.r.commitID + 1)
    refine ⟨_, ?_, fun _ => ?_, .inr rfl⟩
    · rwa [hs]
    · rw [hlast]
      rcases hid' with hid' | hid'
      · rw [hid']
        exact UInt64.le_refl _
      · rwa [hid', hc]

theorem pass_cases (h : l.r.s.Holds ls) (sn : Snappy) (f : Faults) :
    ∃ p r', r'.s.Holds ls ∧ r'.cfg = l.r.cfg ∧ r'.commitID = l.r.commitID ∧
      r'.commitLog = l.r.commitLog ∧
      (l.pass sn f = (p, ⟨l.ldb, r'⟩) ∨
        ∃ rl ∈ ls, rl.ID = l.r.commitID + 1 ∧ l.r.commitID < lastID ls ∧ f.commitErr = none ∧
          ∃ data, sn.payload rl.wire = .ok data ∧
            l.pass sn f = (p, ⟨l.ldb.applyBatch (BatchData.Replay data).1,
              (r'.UpdateCommitID f.writeErr rl.ID).2⟩)) := by
  obtain ⟨hlast, h'⟩ := h.LastID_eq
  unfold pass Replication.NextNeedCommitLog
  dsimp only
  rw [hlast]
  by_cases hle : lastID ls ≤ l.r.commitID
  · rw [if_pos hle]
    exact ⟨_, { l.r with s := l.r.s.LastID.2 }, h', rfl, rfl, rfl, .inl rfl⟩
  · rw [if_neg hle]
    have hlt := UInt64.not_le.mp hle
    cases hget : l.r.s.LastID.2.GetLog (l.r.commitID + 1) with
    | error e =>
      refine ⟨if e = .ErrNoBehindLog then .done else .ofErr e, { l.r with s := l.r.s.LastID.2 }, h',
        rfl, rfl, rfl, .inl ?_⟩
      cases e <;> rfl
    | ok x =>
      obtain ⟨rl, hrl, hid, rfl⟩ := h'.GetLog_ok hget
      dsimp only
      unfold applyLog
      cases hdata : sn.payload rl.wire with
      | error e => exact ⟨_, { l.r with s := l.r.s.LastID.2 }, h', rfl, rfl, rfl, .inl rfl⟩
      | ok data =>
        dsimp only
        cases BatchData.load data with
        | error e => exact ⟨_, { l.r with s := l.r.s.LastID.2 }, h', rfl, rfl, rfl, .inl rfl⟩
        | ok _ =>
          split_ifs with hpanic
          · exact ⟨_, { l.r with s := l.r.s.LastID.2 }, h', rfl, rfl, rfl, .inl rfl⟩
          · cases hcommit : f.commitErr with
            | some e => exact ⟨_, { l.r with s := l.r.s.LastID.2 }, h', rfl, rfl, rfl, .inl rfl⟩
            | none =>
              rcases hup : { l.r with s := l.r.s.LastID.2 }.UpdateCommitID
                f.writeErr rl.wire.ID with ⟨res, r'⟩
              cases res with
              | ok _ =>
                refine ⟨.next, { l.r with s := l.r.s.LastID.2 }, h', rfl, rfl, rfl,
                  .inr ⟨rl, hrl, hid, hlt, rfl, data, hdata, ?_⟩⟩
                change _ = (_, (⟨_, (Replication.UpdateCommitID _ _ rl.wire.ID).2⟩ : Ledis))
                rw [hup]
              | error e =>
                refine ⟨.failed e, { l.r with s := l.r.s.LastID.2 }, h', rfl, rfl, rfl,
                  .inr ⟨rl, hrl, hid, hlt, rfl, data, hdata, ?_⟩⟩
                change _ = (_, (⟨_, (Replication.UpdateCommitID _ _ rl.wire.ID).2⟩ : Ledis))
                rw [hup]

theorem pass_logs (h : l.r.s.Holds ls) (hb : l.Bounded ls) (sn : Snappy) (f : Faults) :
    (l.pass sn f).2.r.s.Holds ls ∧ (l.pass sn f).2.Bounded ls := by
  obtain ⟨p, r', hs', -, hc, -, heq | ⟨rl, -, hid, hlt, -, data, -, heq⟩⟩ := pass_cases h sn f
  · rw [heq]
    exact ⟨hs', fun hne => hc ▸ hb hne⟩
  · rw [heq]
    obtain ⟨hs, -, hid'⟩ := UpdateCommitID_keeps r' f.writeErr rl.ID
    refine ⟨?_, fun hne => ?_⟩
    · rwa [hs]
    · rcases hid' with hid' | hid'
      · rw [hid', hid]
        rw [UInt64.lt_iff_toNat_lt] at hlt
        rw [UInt64.le_iff_toNat_le, UInt64.toNat_add, UInt64.toNat_one]
        omega
      · rw [hid', hc]
        exact hb hne

def nextID (l : Ledis) (ls : List Rpl.Log) : UInt64 :=
  if ls = [] then l.r.commitID + 1 else lastID ls + 1

theorem nextSyncLogID_eq (h : l.r.s.Holds ls) (hb : l.Bounded ls) :
    ∃ s', s'.Holds ls ∧ l.nextSyncLogID = (l.nextID ls, ⟨l.ldb, { l.r with s := s' }⟩) := by
  obtain ⟨s', hs', hstat⟩ := h.Stat_eq
  refine ⟨s', hs', ?_⟩
  rw [nextSyncLogID, nextID, hstat]
  dsimp only
  by_cases hne : ls = []
  · subst hne
    have hle : ¬ lastID [] > l.r.commitID := UInt64.not_lt.mpr UInt64.zero_le
    rw [if_pos rfl, if_neg hle]
  · split_ifs with hgt
    · rfl
    · rw [UInt64.le_antisymm (hb hne) (UInt64.not_lt.mp hgt)]

theorem le_of_eq_add_one {a b : UInt64} (h : b = a + 1) (h0 : b ≠ 0) : a ≤ b := by
  rw [← UInt64.toNat_inj.ne, UInt64.toNat_zero] at h0
  have hb := congrArg UInt64.toNat h
  rw [UInt64.toNat_add, UInt64.toNat_one] at hb
  rw [UInt64.le_iff_toNat_le]
  have := a.toNat_lt
  omega

theorem StoreLog_cases (h : l.r.s.Holds ls) (hb : l.Bounded ls) (hid : rl.ID = l.nextID ls)
    (h0 : rl.ID ≠ 0) :
    ∃ s' res, l.r.StoreLog rl = (res, { l.r with s := s' }) ∧
      ((res = .ok () ∧ s'.Holds (ls ++ [rl]) ∧ l.r.commitID ≤ rl.ID) ∨
        res ≠ .ok () ∧ s'.Holds ls) := by
  refine ⟨_, _, rfl, ?_⟩
  unfold nextID at hid
  have hnext : ls ≠ [] → rl.ID = lastID ls + 1 := fun hne => by rw [hid, if_neg hne]
  have hle : l.r.commitID ≤ rl.ID := by
    by_cases hne : ls = []
    · rw [if_pos hne] at hid
      exact le_of_eq_add_one hid h0
    · exact UInt64.le_trans (hb hne) (le_of_eq_add_one (hnext hne) h0)
  rcases h.StoreLog_cases h0 hnext with ⟨hok, h'⟩ | ⟨herr, h'⟩
  · exact .inl ⟨hok, h', hle⟩
  · exact .inr ⟨herr, h'⟩

theorem pass_nextID (h : l.r.s.Holds ls) (sn : Snappy) (f : Faults) :
    (l.pass sn f).2.nextID ls = l.nextID ls := by
  unfold nextID
  by_cases hne : ls = []
  · obtain ⟨p, r', -, -, hc, -, heq | ⟨rl, hrl, -⟩⟩ := pass_cases h sn f
    · rw [heq, if_pos hne, if_pos hne, hc]
    · rw [hne] at hrl
      cases hrl
  · rw [if_neg hne, if_neg hne]

theorem LoadDump_store (l : Ledis) (sn : Snappy) (rb : Bytes) :
    (l.LoadDump sn rb).2.r.s = l.r.s.Clear := by
  unfold LoadDump
  split
  · rfl
  · exact (UpdateCommitID_keeps _ _ _).1

end Ledis

end

end LedisDB.Rpl
