import LedisDB.Rpl.Cluster

/-!
# Flushing a master

`FlushAll` is not logged: it clears the database and the log of the master, and log IDs
start again from 1. The request of a slave has only an ID. When the new history has
reached the length of the old one, the master answers the slave as if it had the logs
before this ID, and the slave keeps what it has of the old history. When every slave that
is answered has nothing, more than the master or a part of its new history, an answered
slave that has caught up has what the master has.
-/

namespace LedisDB.Rpl.Cluster

variable {sn : Snappy} {σ : Cluster}

theorem Inv.lastLogID_eq (h : σ.Inv sn 0) : σ.master.r.LastLogID.1.toNat = σ.history.length := by
  obtain ⟨ls, hm⟩ := h.master
  change σ.master.r.s.LastID.1.toNat = _
  rw [hm.holds.LastID_eq.1]
  have hle := hm.le_length
  have hcommit := hm.commit_le
  rw [h.commit] at hcommit
  by_cases hne : ls = []
  · subst hne
    exact (Nat.le_zero.mp hcommit).symm
  · rw [hm.carries.lastID_eq hne]
    exact Nat.le_antisymm hle hcommit

theorem answered_slave_equals_master {mcfg scfg : Config} {mfiles sfiles : LogFiles}
    {mr sr : Replication} (hmfiles : mfiles = .file .empty ∨ mfiles = .level .empty)
    (hsfiles : sfiles = .file .empty ∨ sfiles = .level .empty)
    (hmr : NewReplication mcfg mfiles none = .ok mr)
    (hsr : NewReplication scfg sfiles none = .ok sr)
    (hrun : Reaches (Step sn) (fun σ a => σ.Fits sn a ∧ σ.Fresh a ∧ ¬ a.Purges)
      (start ⟨.empty, mr⟩ ⟨.empty, sr⟩) σ) (hanswered : σ.answered = true)
    (hdone : σ.slave.r.NextNeedCommitLog.1 = .error .ErrNoBehindLog)
    (hlast : σ.slave.r.commitID = σ.master.r.LastLogID.1) : σ.slave.ldb = σ.master.ldb := by
  have h : σ.Inv sn 0 := by
    refine hrun.invariant (I := fun σ => σ.Inv sn 0)
      (.start (follows_new hmfiles hmr) (follows_new hsfiles hsr)) ?_
    rintro σ a σ' h ⟨hfits, hfresh, hpurges⟩ hstep
    obtain ⟨k, h', rfl | rfl | ha⟩ := h.step hfits hfresh hstep
    · exact h'
    · exact h'
    · exact absurd ha hpurges
  obtain ⟨hs, k, ls, hslave, horigin⟩ := h.slave
  obtain rfl := horigin (h.answered hanswered)
  rw [hslave.follows.ldb_of_done hdone, hlast, h.lastLogID_eq, h.master_ldb]

open RoleSwitch (fresh plain)

theorem answered_slave_reloaded : ∃ σ, Reaches (Step plain)
      (fun σ a => σ.Fits plain a ∧ σ.Fresh a ∧ ¬ a.Purges) (start fresh fresh) σ ∧
    σ.epoch = 1 ∧ σ.slave.r.commitID = 1 ∧ σ.slave.ldb.get [3] = some [4] ∧
    σ.slave.ldb = σ.master.ldb := by
  have h1 : Reaches (Step plain) (fun σ a => σ.Fits plain a ∧ σ.Fresh a ∧ ¬ a.Purges)
      (start fresh fresh) ((start fresh fresh).write plain 0 0 [.put [1] [2]]) :=
    Reaches.next (Action.write 0 0 [.put [1] [2]]) .refl
      ⟨⟨by decide, by decide, by decide, by simp [BatchData.Sized]⟩, trivial, id⟩ rfl
  have h2 := h1.next Action.nextSyncLogID ⟨trivial, trivial, id⟩ rfl
  have h3 := h2.next Action.syncCommand ⟨trivial, fun _ _ => .inl rfl, id⟩ ⟨_, rfl, rfl⟩
  have h4 := h3.next Action.receive ⟨trivial, trivial, id⟩ ⟨_, rfl, rfl⟩
  have h5 := h4.next (Action.apply .none) ⟨trivial, trivial, id⟩ rfl
  have h6 := h5.next Action.FlushAll ⟨trivial, trivial, id⟩ rfl
  have h7 := h6.next Action.nextSyncLogID ⟨trivial, trivial, id⟩ rfl
  have h8 := h7.next Action.syncCommand
    ⟨trivial, fun id hid => .inr (.inr (Option.some.inj hid ▸ by decide)), id⟩ ⟨_, rfl, rfl⟩
  have h9 := h8.next (Action.write 0 0 [.put [3] [4]])
    ⟨⟨by decide, by decide, by decide, by simp [BatchData.Sized]⟩, trivial, id⟩ rfl
  have hdump : ∀ e ∈ [([3], [4])], Dumpable plain e := by
    simp [Dumpable, plain]
  have h10 := h9.next Action.Dump ⟨hdump, trivial, id⟩ rfl
  have h11 := h10.next Action.LoadDump ⟨trivial, trivial, id⟩ ⟨_, _, rfl, rfl⟩
  have h12 := h11.next Action.nextSyncLogID ⟨trivial, trivial, id⟩ rfl
  have h13 := h12.next Action.syncCommand ⟨trivial, fun _ _ => .inl rfl, id⟩ ⟨_, rfl, rfl⟩
  have hnew : NewReplication ⟨false, 0, 0, false⟩ (.file .empty) none = .ok fresh.r := rfl
  exact ⟨_, h13, by decide, by decide, by decide,
    answered_slave_equals_master (.inl rfl) (.inl rfl) hnew hnew h13 (by decide) (by decide)
      (by decide)⟩

theorem flushed_master_diverges : ∃ σ, Reaches (Step plain) (fun _ a => ¬ a.Purges)
      (start fresh fresh) σ ∧
    σ.answered = true ∧ σ.slave.r.NextNeedCommitLog.1 = .error .ErrNoBehindLog ∧
    σ.slave.r.commitID = σ.master.r.LastLogID.1 ∧
    σ.slave.ldb.get [1] = some [2] ∧ σ.master.ldb.get [1] = none := by
  have h1 : Reaches (Step plain) (fun _ a => ¬ a.Purges) (start fresh fresh)
      ((start fresh fresh).write plain 0 0 [.put [1] [2]]) :=
    Reaches.next (Action.write 0 0 [.put [1] [2]]) .refl id rfl
  have h2 := h1.next Action.nextSyncLogID id rfl
  have h3 := h2.next Action.syncCommand id ⟨_, rfl, rfl⟩
  have h4 := h3.next Action.receive id ⟨_, rfl, rfl⟩
  have h5 := h4.next (Action.apply .none) id rfl
  have h6 := h5.next Action.FlushAll id rfl
  have h7 := h6.next (Action.write 0 0 [.put [3] [4]]) id rfl
  have h8 := h7.next Action.nextSyncLogID id rfl
  have h9 := h8.next Action.syncCommand id ⟨_, rfl, rfl⟩
  have h10 := h9.next Action.receive id ⟨_, rfl, rfl⟩
  exact ⟨_, h10, by decide, by decide, by decide, by decide, by decide⟩

end LedisDB.Rpl.Cluster
