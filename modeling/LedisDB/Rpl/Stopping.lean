import LedisDB.Rpl.RoleSwitch

/-!
# Stopping in between

A node writes its commit ID to disk with every update when `SyncLog` is 2, and
otherwise every second, in `Clear` and in `Close`. Here the writes, the replicated
logs, `FlushAll` and `LoadDump` are taken apart into the steps between which the
process can stop. A node that is reopened with the commit ID on disk applies the logs
after it once more. This leads to what the node would have come to without the stop
when a flush starts with the commit ID on disk, and a dump is loaded with `SyncLog` 2.
Otherwise the flush leaves logs behind that bring back what it has deleted, and the
dump is loaded under a commit ID that is not on disk and has no logs.
-/

namespace LedisDB.Rpl

open List

/-- What the node is in the middle of: a batch that is logged and not committed, a batch whose
commit ID is not updated, `flushAll` before and after the log is cleared, `LoadDump` after it. -/
inductive Phase
  | idle
  | committing (id : UInt64) (b : Batch)
  | committed (id : UInt64)
  | flushing (load : Bool)
  | cleared (load : Bool)
  | loading

structure Running where
  l : Ledis
  phase : Phase

/-- What `run` does every second. -/
def Replication.syncCommitID (r : Replication) : Replication :=
  if r.cfg.SyncLog ≠ 2 then (r.updateCommitID none r.commitID true).2 else r

variable (sn : Snappy) (l : Ledis)

namespace Running

inductive Action
  | Log (now : UInt32) (seq : ℕ) (b : Batch)
  | NextNeedCommitLog
  | Commit (err : Option Err)
  | UpdateCommitID
  | StoreLog (rl : Rpl.Log)
  | flushAll (load : Bool)
  | deletes (ks : List Bytes)
  | Clear
  | clearCommitID
  | puts (es : List (Bytes × Bytes))
  | loaded (head : UInt64)
  | fail
  | syncCommitID
  | Reopen (cfg : Config)

def Log (sn : Snappy) (l : Ledis) (now : UInt32) (seq : ℕ) (b : Batch) : Running :=
  match l.r.Log sn now (BatchData.encode seq b) with
  | (.error _, r) => ⟨{ l with r }, .idle⟩
  | (.ok rl, r) => ⟨{ l with r }, .committing rl.ID b⟩

def NextNeedCommitLog (sn : Snappy) (l : Ledis) : Running :=
  match l.r.NextNeedCommitLog with
  | (.error _, r) => ⟨{ l with r }, .idle⟩
  | (.ok rl, r) =>
    match sn.payload rl with
    | .error _ => ⟨{ l with r }, .idle⟩
    | .ok data =>
      match BatchData.load data with
      | .error _ => ⟨{ l with r }, .idle⟩
      | .ok _ =>
        if (BatchData.Replay data).2 = .error .panic then ⟨{ l with r }, .idle⟩
        else ⟨{ l with r }, .committing rl.ID (BatchData.Replay data).1⟩

def Commit (err : Option Err) (id : UInt64) (b : Batch) : Running :=
  match err with
  | some _ => ⟨l, .idle⟩
  | none => ⟨⟨l.ldb.applyBatch b, l.r⟩, .committed id⟩

def UpdateCommitID (l : Ledis) (id : UInt64) : Running :=
  ⟨⟨l.ldb, (l.r.UpdateCommitID none id).2⟩, .idle⟩

def clearCommitID (load : Bool) : Running :=
  ⟨⟨l.ldb, (l.r.updateCommitID none 0 true).2⟩, if load then .loading else .idle⟩

def Stores : Phase → Prop
  | .idle | .committing _ _ | .committed _ => True
  | _ => False

def FromMaster (rl : Rpl.Log) : Prop :=
  rl.ID = l.nextSyncLogID.1 ∧ rl.ID ≠ 0 ∧ rl.Data.length < 2 ^ 32 ∧ ∃ b, Encodes sn rl b

-- The mutex of the log is held from `Clear` of the store to the commit ID.
def Step (s : Running) : Action → Running → Prop
  | .Log now seq b, s' => s.phase = .idle ∧ Running.Log sn s.l now seq b = s'
  | .NextNeedCommitLog, s' => s.phase = .idle ∧ Running.NextNeedCommitLog sn s.l = s'
  | .Commit err, s' => ∃ id b, s.phase = .committing id b ∧ Running.Commit s.l err id b = s'
  | .UpdateCommitID, s' => ∃ id, s.phase = .committed id ∧ Running.UpdateCommitID s.l id = s'
  | .StoreLog rl, s' => Stores s.phase ∧ FromMaster sn s.l rl ∧
      ⟨⟨s.l.ldb, (s.l.r.StoreLog rl).2⟩, s.phase⟩ = s'
  | .flushAll load, s' => s.phase = .idle ∧ ⟨s.l, .flushing load⟩ = s'
  | .deletes ks, s' => ∃ load, s.phase = .flushing load ∧
      ⟨⟨s.l.ldb.applyBatch (ks.map .delete), s.l.r⟩, .flushing load⟩ = s'
  | .Clear, s' => ∃ load, s.phase = .flushing load ∧ s.l.ldb = .empty ∧
      ⟨⟨s.l.ldb, { s.l.r with s := s.l.r.s.Clear }⟩, .cleared load⟩ = s'
  | .clearCommitID, s' => ∃ load, s.phase = .cleared load ∧ Running.clearCommitID s.l load = s'
  | .puts es, s' => s.phase = .loading ∧
      ⟨⟨s.l.ldb.applyBatch (es.map fun e => .put e.1 e.2), s.l.r⟩, .loading⟩ = s'
  | .loaded head, s' => s.phase = .loading ∧ Running.UpdateCommitID s.l head = s'
  | .fail, s' => (s.phase = .loading ∨ ∃ load, s.phase = .flushing load) ∧ ⟨s.l, .idle⟩ = s'
  | .syncCommitID, s' => (∀ load, s.phase ≠ .cleared load) ∧
      ⟨⟨s.l.ldb, s.l.r.syncCommitID⟩, s.phase⟩ = s'
  | .Reopen cfg, s' => s.phase = .idle ∧
      ∃ r, NewReplication cfg s.l.r.Close.1 s.l.r.Close.2 = .ok r ∧ ⟨⟨s.l.ldb, r⟩, .idle⟩ = s'

end Running

namespace Running

variable {sn : Snappy} {l : Ledis} {s₀ : Running} {f : Faults} {ldb : Store} {r : Replication}
  {id : UInt64} {b : Batch}

abbrev Runs (sn : Snappy) : Running → Running → Prop := Reaches (Step sn) fun _ _ => True

theorem Runs.next {s s' : Running} (c : Action) (h : Runs sn s₀ s) (hs : Step sn s c s') :
    Runs sn s₀ s' := Reaches.step h trivial hs

theorem Runs.commit (h : Runs sn s₀ ⟨l, .committing id b⟩) :
    Runs sn s₀ ⟨⟨l.ldb.applyBatch b, (l.r.UpdateCommitID none id).2⟩, .idle⟩ :=
  (h.next (.Commit none) ⟨id, b, rfl, rfl⟩).next .UpdateCommitID ⟨id, rfl, rfl⟩

theorem Runs.commitFailed (h : Runs sn s₀ ⟨l, .committing id b⟩) (e : Err) :
    Runs sn s₀ ⟨l, .idle⟩ :=
  h.next (.Commit (some e)) ⟨id, b, rfl, rfl⟩

theorem handleCommit_runs (hf : f.writeErr = none) (now : UInt32) (seq : ℕ) (b : Batch) :
    Runs sn ⟨l, .idle⟩ ⟨(l.handleCommit sn f now seq b).2, .idle⟩ := by
  have hlog : Runs sn ⟨l, .idle⟩ (Log sn l now seq b) := Runs.next (.Log now seq b) .refl ⟨rfl, rfl⟩
  unfold Log at hlog
  unfold Ledis.handleCommit
  rcases hres : l.r.Log sn now (BatchData.encode seq b) with ⟨e | rl, r⟩ <;> rw [hres] at hlog
  · exact hlog
  · rw [hf]
    cases f.commitErr with
    | some e => exact hlog.commitFailed e
    | none => exact hlog.commit

theorem pass_runs (hf : f.writeErr = none) : Runs sn ⟨l, .idle⟩ ⟨(l.pass sn f).2, .idle⟩ := by
  have hnext : Runs sn ⟨l, .idle⟩ (NextNeedCommitLog sn l) :=
    Runs.next .NextNeedCommitLog .refl ⟨rfl, rfl⟩
  unfold NextNeedCommitLog at hnext
  unfold Ledis.pass
  rcases hres : l.r.NextNeedCommitLog with ⟨e | rl, r⟩ <;> rw [hres] at hnext
  · cases e <;> exact hnext
  · dsimp only at hnext ⊢
    unfold Ledis.applyLog
    cases hdata : sn.payload rl with
    | error e =>
      rwa [hdata] at hnext
    | ok data =>
      rw [hdata] at hnext
      dsimp only at hnext ⊢
      cases hload : BatchData.load data with
      | error e =>
        rwa [hload] at hnext
      | ok _ =>
        rw [hload] at hnext
        split_ifs at hnext ⊢
        · exact hnext
        · rw [hf]
          cases f.commitErr with
          | some e => exact hnext.commitFailed e
          | none =>
            have hrun := hnext.commit
            rcases hup : r.UpdateCommitID none rl.ID with ⟨e | u, r'⟩ <;> rw [hup] at hrun <;>
              exact hrun

inductive Turn
  | write (now : UInt32) (seq : ℕ) (b : Batch)
  | pass

def Turn.run (sn : Snappy) (l : Ledis) : Faults × Turn → Ledis
  | (f, .write now seq b) => (l.handleCommit sn f now seq b).2
  | (f, .pass) => (l.pass sn f).2

/-- Writes and passes of the replication loop one after the other are among the runs in which
their steps interleave. -/
theorem turns_run {ts : List (Faults × Turn)} (h : ∀ t ∈ ts, t.1.writeErr = none)
    (sn : Snappy) (l : Ledis) : Runs sn ⟨l, .idle⟩ ⟨ts.foldl (Turn.run sn) l, .idle⟩ := by
  induction ts generalizing l with
  | nil => exact .refl
  | cons t ts ih =>
    obtain ⟨hf, hts⟩ := forall_mem_cons.mp h
    have hturn : Runs sn ⟨l, .idle⟩ ⟨Turn.run sn l t, .idle⟩ := by
      obtain ⟨f, c⟩ := t
      cases c with
      | write now seq b => exact handleCommit_runs hf now seq b
      | pass => exact pass_runs hf
    exact hturn.trans (ih hts _)

theorem turns_run_retried : Runs RoleSwitch.plain ⟨RoleSwitch.fresh, .idle⟩
    ⟨[(⟨some .ErrLogNotFound, none⟩, .write 7 0 [.put [1] [2]]), (Faults.none, .pass)].foldl
      (Turn.run RoleSwitch.plain) RoleSwitch.fresh, .idle⟩ :=
  turns_run (by decide) RoleSwitch.plain RoleSwitch.fresh

theorem deleteAll_runs {load : Bool} (ks : List Bytes) (n : ℕ) (kw : List Bytes)
    (h : Runs sn s₀ ⟨⟨ldb, r⟩, .flushing load⟩) :
    ∃ kw' : List Bytes, (deleteAll ks n (kw.map .delete) ldb).1 = kw'.map .delete ∧
      Runs sn s₀ ⟨⟨(deleteAll ks n (kw.map .delete) ldb).2, r⟩, .flushing load⟩ := by
  induction ks generalizing n kw ldb with
  | nil => exact ⟨kw, rfl, h⟩
  | cons k ks ih =>
    have hw : (kw.map .delete ++ [.delete k] : Batch) = (kw ++ [k]).map .delete := by simp
    rw [deleteAll, hw]
    split_ifs
    · exact ih 0 (kw ++ [k]) (h.next (.deletes kw) ⟨load, rfl, rfl⟩)
    · exact ih (n + 1) (kw ++ [k]) h

theorem flushAll_runs (load : Bool) :
    Runs sn ⟨l, .idle⟩ ⟨l.flushAll, if load then .loading else .idle⟩ := by
  have hstart : Runs sn ⟨l, .idle⟩ ⟨l, .flushing load⟩ :=
    Runs.next (.flushAll load) .refl ⟨rfl, rfl⟩
  obtain ⟨kw, hkw, hrun⟩ := deleteAll_runs l.ldb.keys 0 [] hstart
  have hdeleted : Runs sn ⟨l, .idle⟩ ⟨⟨flushStore l.ldb, l.r⟩, .flushing load⟩ := by
    have h := hrun.next (.deletes kw) ⟨load, rfl, rfl⟩
    rwa [← hkw] at h
  exact (hdeleted.next .Clear ⟨load, rfl, flushStore_eq _, rfl⟩).next .clearCommitID
    ⟨load, rfl, rfl⟩

theorem loadEntries_runs (fuel : ℕ) (rb : Bytes) (es : List (Bytes × Bytes))
    (h : Runs sn s₀ ⟨⟨ldb, r⟩, .loading⟩) :
    ∃ ldb', Runs sn s₀ ⟨⟨ldb', r⟩, .loading⟩ ∧
      ((∃ e, loadEntries sn fuel rb (es.map fun e => .put e.1 e.2) ldb = (.error e, ldb')) ∨
        ∃ es' : List (Bytes × Bytes), loadEntries sn fuel rb (es.map fun e => .put e.1 e.2) ldb =
          (.ok (es'.map fun e => .put e.1 e.2), ldb')) := by
  induction fuel generalizing rb es ldb with
  | zero => exact ⟨ldb, h, .inr ⟨es, rfl⟩⟩
  | succ fuel ih =>
    unfold loadEntries
    rcases Log.readFull rb 2 with e | ⟨buf, rb⟩
    · cases e with
      | eof => exact ⟨ldb, h, .inr ⟨es, rfl⟩⟩
      | _ => exact ⟨ldb, h, .inl ⟨_, rfl⟩⟩
    · dsimp only
      rcases loadEntry sn (beNat buf) rb with e | ⟨e, rb⟩
      · exact ⟨ldb, h, .inl ⟨_, rfl⟩⟩
      · have hwb : ((es.map fun e => .put e.1 e.2) ++ [.put e.1 e.2] : Batch) =
            (es ++ [e]).map fun e => .put e.1 e.2 := by simp
        dsimp only
        rw [hwb]
        split_ifs
        · exact ih rb (es ++ [e]) (h.next (.puts (es ++ [e])) ⟨rfl, rfl⟩)
        · exact ih rb (es ++ [e]) h

theorem LoadDump_runs (rb : Bytes) : Runs sn ⟨l, .idle⟩ ⟨(l.LoadDump sn rb).2, .idle⟩ := by
  have hflush : Runs sn ⟨l, .idle⟩ ⟨⟨flushStore l.ldb, l.r.Clear⟩, .loading⟩ := flushAll_runs true
  unfold Ledis.LoadDump loadStore
  rcases Log.readFull rb 8 with e | ⟨buf, rb⟩
  · exact hflush.next .fail ⟨.inl rfl, rfl⟩
  · dsimp only
    obtain ⟨ldb, hrun, ⟨e, heq⟩ | ⟨es, heq⟩⟩ := loadEntries_runs (rb.length + 1) rb [] hflush
    · rw [map_nil] at heq
      rw [heq]
      exact hrun.next .fail ⟨.inl rfl, rfl⟩
    · rw [map_nil] at heq
      rw [heq]
      exact (hrun.next (.puts es) ⟨rfl, rfl⟩).next (.loaded _) ⟨rfl, rfl⟩

end Running

namespace Ledis

def persistedID : UInt64 := l.r.commitLog.getD 0

def reopened : Ledis := { l with r := { l.r with commitID := l.persistedID } }

/-- The logs after the commit ID on disk are there, and applying them leads to the content and
the commit ID that the node comes to without a stop, which are those it has when no log is
behind. -/
structure Recovers : Prop where
  available : ∀ id, l.persistedID < id → id ≤ l.r.LastLogID.1 → ∃ rl, l.r.GetLog id = .ok rl
  replayed : ∃ fuel l₁ l₂, l.reopened.handleReplication sn .none fuel = (some .done, l₁) ∧
    l.handleReplication sn .none fuel = (some .done, l₂) ∧
    l₁.ldb = l₂.ldb ∧ l₁.r.commitID = l₂.r.commitID ∧
    (l.r.LastLogID.1 ≤ l.r.commitID → l₂.ldb = l.ldb ∧ l₂.r.commitID = l.r.commitID)

end Ledis

section
variable {sn : Snappy} {s s' : LogStore} {k : ℕ} {ls : List Log} {rl : Log} {bs : List Batch}
  {b : Batch}

theorem Ledis.Logged.of_holds (h : Logged sn s k ls bs) (hs' : s'.Holds ls) :
    Logged sn s' k ls bs := ⟨hs', h.numbered, h.encodes⟩

theorem Ledis.Logged.nil (hs : s.Holds []) (bs : List Batch) : Logged sn s bs.length [] bs :=
  ⟨hs, .nil, by rw [drop_length]; exact .nil⟩

theorem Ledis.Logged.append (h : Logged sn s k ls bs) (hk : k ≤ bs.length)
    (hs' : s'.Holds (ls ++ [rl])) (hid : rl.ID.toNat = bs.length + 1)
    (henc : Encodes sn rl.wire b) : Logged sn s' k (ls ++ [rl]) (bs ++ [b]) := by
  refine ⟨hs', numbered_append.mpr ⟨h.numbered, numbered_cons.mpr ⟨?_, .nil⟩⟩, ?_⟩
  · rw [hid, ← h.length_eq hk]
    omega
  · rw [drop_append_of_le_length hk]
    exact rel_append h.encodes (.cons henc .nil)

theorem Ledis.Logged.lastID_toNat (h : Logged sn s k ls bs) (hk : k ≤ bs.length) (hne : ls ≠ []) :
    (lastID ls).toNat = bs.length := by
  have h1 := h.length_eq hk
  have h2 := h.numbered.lastID_eq hne
  omega

theorem encodes_nextLog {r : Replication} (hlen : b.length < 2 ^ 32)
    (hb : ∀ op ∈ b, BatchData.Sized op) (now : UInt32) (seq : ℕ)
    (hsmall : (r.compressed sn (BatchData.encode seq b)).length < 2 ^ 32) :
    Encodes sn (r.nextLog sn now (BatchData.encode seq b)).wire b := by
  rw [Log.wire_eq hsmall]
  obtain ⟨hload, hreplay⟩ := BatchData.Replay_encode hlen hb seq
  exact ⟨_, Replication.payload_nextLog r sn now _, hload, hreplay⟩

end

def Converges (ldb : Store) (bs : List Batch) (p q : ℕ) : Prop :=
  ∀ j, p ≤ j → j ≤ q → ldb.applyBatch (bs.drop j).flatten = ldb.applyBatch (bs.drop q).flatten

namespace Converges

variable {ldb : Store} {bs : List Batch} {p q : ℕ} {b : Batch}

theorem refl (ldb : Store) (bs : List Batch) (q : ℕ) : Converges ldb bs q q := by
  intro j hp hq
  rw [Nat.le_antisymm hq hp]

theorem mono (h : Converges ldb bs p q) {p' q' : ℕ} (hp : p ≤ p') (hpq : p' ≤ q') (hq : q' ≤ q) :
    Converges ldb bs p' q' := by
  intro j hpj hjq
  rw [h j (hp.trans hpj) (hjq.trans hq), h q' (hp.trans hpq) hq]

theorem append (h : Converges ldb bs p q) (hq : q ≤ bs.length) (b : Batch) :
    Converges ldb (bs ++ [b]) p q := by
  intro j hpj hjq
  rw [drop_append_of_le_length (hjq.trans hq), drop_append_of_le_length hq,
    flatten_append, flatten_append, applyBatch_append,
    applyBatch_append, h j hpj hjq]

theorem commit (h : Converges ldb bs p q) (hb : bs[q]? = some b) :
    Converges (ldb.applyBatch b) bs p (q + 1) := by
  obtain ⟨hlt, rfl⟩ := List.getElem?_eq_some_iff.mp hb
  intro j hpj hjq
  rcases Nat.lt_or_eq_of_le hjq with hle | rfl
  · have hle := Nat.le_of_lt_succ hle
    have hcontained : bs[q] <:+: (bs.drop j).flatten := by
      refine infix_of_mem_flatten (mem_iff_getElem.mpr ⟨q - j, ?_, ?_⟩)
      · rw [length_drop]
        omega
      · simp [Nat.add_sub_cancel' hle]
    rw [OrderedMap.applyBatch_of_contained _ hcontained, h j hpj hle,
      ← applyBatch_append, ← flatten_cons, getElem_cons_drop hlt]
  · rfl

end Converges

namespace Running

variable {sn : Snappy} {s s' : Running} {k : ℕ} {ls : List Rpl.Log} {bs : List Batch}

/-- There is a next ID for a write, its length fits in the head of the log and its batch in that
of the driver; a flush starts with the commit ID on disk; the commit ID of a dump is written to
disk with its update, or is the one that is there. -/
def Safe (sn : Snappy) (s : Running) : Action → Prop
  | .Log _ seq b => s.l.r.commitID.toNat + 1 < 2 ^ 64 ∧
      (s.l.r.compressed sn (BatchData.encode seq b)).length < 2 ^ 32 ∧
      b.length < 2 ^ 32 ∧ ∀ op ∈ b, BatchData.Sized op
  | .flushAll _ => s.l.persistedID = s.l.r.commitID
  | .loaded head => s.l.r.cfg.SyncLog = 2 ∨ head = 0
  | _ => True

def PhaseInv (ldb : Store) (ls : List Rpl.Log) (bs : List Batch) (p c : ℕ) : Phase → Prop
  | .idle => Converges ldb bs p c
  | .committing id b => Converges ldb bs p c ∧ id.toNat = c + 1 ∧ bs[c]? = some b
  | .committed id => Converges ldb bs p (c + 1) ∧ id.toNat = c + 1 ∧ c < bs.length
  | .flushing _ => p = c
  | .cleared _ => p = c ∧ ls = []
  | .loading => p = 0 ∧ c = 0 ∧ ls = []

structure Inv (sn : Snappy) (s : Running) (k : ℕ) (ls : List Rpl.Log) (bs : List Batch) : Prop where
  logged : Ledis.Logged sn s.l.r.s k ls bs
  small : ∀ rl ∈ ls, rl.Data.length < 2 ^ 32
  first_le : k ≤ s.l.persistedID.toNat
  persisted_le : s.l.persistedID.toNat ≤ s.l.r.commitID.toNat
  commit_le : s.l.r.commitID.toNat ≤ bs.length
  phase : PhaseInv s.l.ldb ls bs s.l.persistedID.toNat s.l.r.commitID.toNat s.phase

namespace Inv

section
variable (h : s.Inv sn k ls bs)
include h

theorem le_length : k ≤ bs.length := h.first_le.trans (h.persisted_le.trans h.commit_le)

theorem bounded : s.l.Bounded ls := by
  intro hne
  rw [UInt64.le_iff_toNat_le, h.logged.lastID_toNat h.le_length hne]
  exact h.commit_le

theorem commit_eq (hle : lastID ls ≤ s.l.r.commitID) : s.l.r.commitID.toNat = bs.length := by
  refine Nat.le_antisymm h.commit_le ?_
  by_cases hne : ls = []
  · have hlen := h.logged.length_eq h.le_length
    have h1 := h.first_le
    have h2 := h.persisted_le
    rw [hne, length_nil] at hlen
    omega
  · rw [← h.logged.lastID_toNat h.le_length hne]
    exact UInt64.le_iff_toNat_le.mp hle

theorem nextID_toNat (h0 : s.l.nextID ls ≠ 0) : (s.l.nextID ls).toNat = bs.length + 1 := by
  rw [← UInt64.toNat_inj.ne, UInt64.toNat_zero] at h0
  unfold Ledis.nextID at h0 ⊢
  by_cases hne : ls = []
  · subst hne
    rw [if_pos rfl, UInt64.toNat_add, UInt64.toNat_one] at h0 ⊢
    have := h.commit_eq UInt64.zero_le
    have := s.l.r.commitID.toNat_lt
    omega
  · rw [if_neg hne, UInt64.toNat_add, UInt64.toNat_one] at h0 ⊢
    have := h.logged.lastID_toNat h.le_length hne
    have := (lastID ls).toNat_lt
    omega

theorem converges : Converges s.l.ldb bs s.l.persistedID.toNat s.l.r.commitID.toNat := by
  have hphase := h.phase
  cases hs : s.phase with
  | idle =>
    rwa [hs] at hphase
  | committing id b =>
    rw [hs] at hphase
    exact hphase.1
  | committed id =>
    rw [hs] at hphase
    exact hphase.1.mono le_rfl h.persisted_le (Nat.le_succ _)
  | flushing load =>
    rw [hs] at hphase
    have hpc := hphase
    rw [hpc]
    exact .refl _ _ _
  | cleared load =>
    rw [hs] at hphase
    rw [hphase.1]
    exact .refl _ _ _
  | loading =>
    rw [hs] at hphase
    rw [hphase.1, hphase.2.1]
    exact .refl _ _ _

theorem recovers : s.l.Recovers sn := by
  refine ⟨fun id hlt hle => ?_, bs.length + 1, ?_⟩
  · change id ≤ s.l.r.s.LastID.1 at hle
    rw [h.logged.holds.LastID_eq.1, UInt64.le_iff_toNat_le] at hle
    rw [UInt64.lt_iff_toNat_lt] at hlt
    have hne : ls ≠ [] := by
      rintro rfl
      rw [show lastID [] = 0 from rfl, UInt64.toNat_zero] at hle
      omega
    have hlast := h.logged.numbered.lastID_eq hne
    have hfirst := h.first_le
    obtain ⟨rl, hrl, rfl⟩ := (h.logged.numbered.mem_ids_iff id).mpr ⟨by omega, by omega⟩
    exact ⟨_, h.logged.holds.GetLog_of_mem hrl⟩
  · have hrun₁ := @Ledis.Logged.handleReplication sn s.l.reopened ls bs k s.l.persistedID.toNat
      (bs.length + 1) h.logged h.first_le (h.persisted_le.trans h.commit_le) rfl (by omega)
    have hrun₂ := @Ledis.Logged.handleReplication sn s.l ls bs k s.l.r.commitID.toNat
      (bs.length + 1) h.logged (h.first_le.trans h.persisted_le) h.commit_le rfl (by omega)
    obtain ⟨l₁, hrun₁, hc₁, hl₁⟩ := hrun₁
    obtain ⟨l₂, hrun₂, hc₂, hl₂⟩ := hrun₂
    refine ⟨l₁, l₂, hrun₁, hrun₂, ?_, ?_, fun hle => ?_⟩
    · rw [hl₁, hl₂]
      exact h.converges _ le_rfl h.persisted_le
    · rw [← UInt64.toNat_inj, hc₁, hc₂]
    · have hall := h.commit_eq (h.logged.holds.LastID_eq.1 ▸ hle)
      refine ⟨?_, UInt64.toNat_inj.mp (hc₂.trans hall.symm)⟩
      rw [hl₂, hall, drop_length]
      rfl

end

variable {l : Ledis} {phase : Phase} {b : Batch} {id head : UInt64} {load : Bool} {cfg : Config}
  {r : Replication}

theorem of_holds (h : Inv sn ⟨l, phase⟩ k ls bs) {t : LogStore} (ht : t.Holds ls) :
    Inv sn ⟨⟨l.ldb, { l.r with s := t }⟩, phase⟩ k ls bs :=
  { h with logged := h.logged.of_holds ht }

theorem Log (h : Inv sn ⟨l, .idle⟩ k ls bs) {now : UInt32} {seq : ℕ}
    (hsafe : Safe sn ⟨l, .idle⟩ (.Log now seq b)) :
    ∃ ls' bs', Inv sn (Running.Log sn l now seq b) k ls' bs' := by
  obtain ⟨hid, hsmall, hlen, hb⟩ := hsafe
  unfold Running.Log
  obtain ⟨t, ⟨ht, e, hlog⟩ | ⟨heq, ht, hlog⟩⟩ :=
    Ledis.Log_cases h.logged.holds h.bounded hid sn now (BatchData.encode seq b)
  · rw [hlog]
    exact ⟨ls, bs, h.of_holds ht⟩
  · have hc : l.r.commitID.toNat = bs.length := by
      refine h.commit_eq ?_
      by_cases hne : ls = []
      · rw [hne]
        exact UInt64.zero_le
      · rw [heq hne]
        exact UInt64.le_refl _
    have hnext := Replication.next_toNat hid
    rw [hlog]
    refine ⟨_, bs ++ [b], h.logged.append h.le_length ht (hc ▸ hnext)
      (encodes_nextLog hlen hb now seq hsmall), ?_, h.first_le, h.persisted_le, ?_, ?_⟩
    · intro rl hrl
      rcases mem_append.mp hrl with hrl | hrl
      · exact h.small rl hrl
      · rwa [mem_singleton.mp hrl]
    · rw [length_append]
      exact h.commit_le.trans (Nat.le_add_right _ _)
    · refine ⟨Converges.append h.phase h.commit_le b, hnext, ?_⟩
      rw [hc, getElem?_concat_length]

theorem NextNeedCommitLog (h : Inv sn ⟨l, .idle⟩ k ls bs) :
    Inv sn (Running.NextNeedCommitLog sn l) k ls bs := by
  have hlast := h.of_holds h.logged.holds.LastID_eq.2
  unfold Running.NextNeedCommitLog
  rcases Nat.lt_or_eq_of_le h.commit_le with hlt | heq
  · obtain ⟨rl, hid, ⟨data, hdata, hload, hreplay⟩, hnext⟩ :=
      h.logged.NextNeedCommitLog_eq (h.first_le.trans h.persisted_le) hlt rfl
    rw [hnext]
    simp only [hdata, hload, hreplay]
    exact { hlast with phase := ⟨h.phase, hid, getElem?_eq_getElem hlt⟩ }
  · have hle : l.r.s.LastID.1 ≤ l.r.commitID := by
      rw [h.logged.holds.LastID_eq.1]
      by_cases hne : ls = []
      · rw [hne]
        exact UInt64.zero_le
      · rw [UInt64.le_iff_toNat_le, h.logged.lastID_toNat h.le_length hne]
        exact heq.ge
    unfold Replication.NextNeedCommitLog
    dsimp only
    rwa [if_pos hle]

theorem Commit (h : Inv sn ⟨l, .committing id b⟩ k ls bs) (err : Option Err) :
    Inv sn (Running.Commit l err id b) k ls bs := by
  obtain ⟨hconv, hid, hb⟩ := h.phase
  cases err with
  | some e => exact { h with phase := hconv }
  | none =>
    obtain ⟨hlt, -⟩ := List.getElem?_eq_some_iff.mp hb
    exact { h with phase := ⟨hconv.commit hb, hid, hlt⟩ }

theorem persistedID_UpdateCommitID (l : Ledis) (id : UInt64) :
    (Running.UpdateCommitID l id).l.persistedID =
      if l.r.cfg.SyncLog = 2 then id else l.persistedID := by
  unfold UpdateCommitID Replication.UpdateCommitID Replication.updateCommitID
  by_cases hsync : l.r.cfg.SyncLog = 2
  · simp [hsync, Ledis.persistedID]
  · simp [hsync, Ledis.persistedID]

theorem UpdateCommitID (h : Inv sn ⟨l, .committed id⟩ k ls bs) :
    Inv sn (Running.UpdateCommitID l id) k ls bs := by
  obtain ⟨hconv, hid, hlt⟩ := h.phase
  obtain ⟨-, hs, hcommit, -⟩ := Replication.UpdateCommitID_none l.r id
  have hp := persistedID_UpdateCommitID l id
  have hc : (Running.UpdateCommitID l id).l.r.commitID.toNat = l.r.commitID.toNat + 1 := by
    rw [← hid]
    exact congrArg UInt64.toNat hcommit
  have hfirst := h.first_le
  have hle := h.persisted_le
  have hbounds : l.persistedID.toNat ≤ (Running.UpdateCommitID l id).l.persistedID.toNat ∧
      (Running.UpdateCommitID l id).l.persistedID.toNat ≤ l.r.commitID.toNat + 1 := by
    rw [hp]
    dsimp only at hid hle
    split_ifs <;> omega
  refine ⟨h.logged.of_holds ?_, h.small, hfirst.trans hbounds.1, hc ▸ hbounds.2, hc ▸ hlt, ?_⟩
  · change LogStore.Holds (l.r.UpdateCommitID none id).2.s ls
    rw [hs]
    exact h.logged.holds
  · rw [hc]
    exact hconv.mono hbounds.1 hbounds.2 le_rfl

theorem StoreLog (h : Inv sn ⟨l, phase⟩ k ls bs) (hphase : Stores phase) {rl : Rpl.Log}
    (hrl : FromMaster sn l rl) :
    ∃ ls' bs', Inv sn ⟨⟨l.ldb, (l.r.StoreLog rl).2⟩, phase⟩ k ls' bs' := by
  obtain ⟨hid, h0, hsmall, b, henc⟩ := hrl
  obtain ⟨t, -, hnext⟩ := Ledis.nextSyncLogID_eq h.logged.holds h.bounded
  rw [hnext] at hid
  obtain ⟨t, res, hst, ⟨-, ht, -⟩ | ⟨-, ht⟩⟩ := Ledis.StoreLog_cases h.logged.holds h.bounded hid h0
  · rw [hst]
    have hnat : rl.ID.toNat = bs.length + 1 := by
      rw [hid] at h0 ⊢
      exact h.nextID_toNat h0
    refine ⟨_, bs ++ [b], h.logged.append h.le_length ht hnat ?_, ?_, h.first_le, h.persisted_le,
      ?_, ?_⟩
    · rwa [Log.wire_eq hsmall]
    · intro x hx
      rcases mem_append.mp hx with hx | hx
      · exact h.small x hx
      · rwa [mem_singleton.mp hx]
    · rw [length_append]
      exact h.commit_le.trans (Nat.le_add_right _ _)
    · have hinv := h.phase
      cases phase with
      | idle => exact Converges.append hinv h.commit_le b
      | committing id b' =>
        obtain ⟨hconv, hid', hb'⟩ := hinv
        refine ⟨hconv.append h.commit_le b, hid', ?_⟩
        rwa [List.getElem?_append_left (List.getElem?_eq_some_iff.mp hb').1]
      | committed id =>
        obtain ⟨hconv, hid', hlt⟩ := hinv
        refine ⟨hconv.append hlt b, hid', ?_⟩
        rw [length_append]
        exact hlt.trans_le (Nat.le_add_right _ _)
      | _ => cases hphase
  · rw [hst]
    exact ⟨ls, bs, h.of_holds ht⟩

theorem flushAll (h : Inv sn ⟨l, .idle⟩ k ls bs) (load : Bool)
    (hsafe : l.persistedID = l.r.commitID) : Inv sn ⟨l, .flushing load⟩ k ls bs :=
  { h with phase := congrArg UInt64.toNat hsafe }

theorem deletes (h : Inv sn ⟨l, .flushing load⟩ k ls bs) (b : Batch) :
    Inv sn ⟨⟨l.ldb.applyBatch b, l.r⟩, .flushing load⟩ k ls bs :=
  { h with phase := h.phase }

theorem Clear (h : Inv sn ⟨l, .flushing load⟩ k ls bs) :
    ∃ k' bs', Inv sn ⟨⟨l.ldb, { l.r with s := l.r.s.Clear }⟩, .cleared load⟩ k' [] bs' := by
  have hpc := h.phase
  have hlen : (replicate l.r.commitID.toNat ([] : Batch)).length = l.r.commitID.toNat :=
    length_replicate
  refine ⟨_, replicate l.r.commitID.toNat [], .nil h.logged.holds.clear _, by simp,
    (hlen.trans hpc.symm).le, hpc.le, hlen.ge, hpc, rfl⟩

theorem clearCommitID (h : Inv sn ⟨l, .cleared load⟩ k ls bs) :
    Inv sn (Running.clearCommitID l load) 0 [] [] := by
  obtain ⟨-, rfl⟩ := h.phase
  refine ⟨.nil h.logged.holds [], by simp, le_rfl, le_rfl, le_rfl, ?_⟩
  cases load with
  | true => exact ⟨rfl, rfl, rfl⟩
  | false => exact .refl _ _ _

theorem puts (h : Inv sn ⟨l, .loading⟩ k ls bs) (b : Batch) :
    Inv sn ⟨⟨l.ldb.applyBatch b, l.r⟩, .loading⟩ k ls bs :=
  { h with phase := h.phase }

theorem loaded (h : Inv sn ⟨l, .loading⟩ k ls bs) (hsafe : l.r.cfg.SyncLog = 2 ∨ head = 0) :
    ∃ k' bs', Inv sn (Running.UpdateCommitID l head) k' [] bs' := by
  obtain ⟨hp0, -, rfl⟩ := h.phase
  obtain ⟨-, hs, hcommit, -⟩ := Replication.UpdateCommitID_none l.r head
  have hp : (Running.UpdateCommitID l head).l.persistedID = head := by
    rw [persistedID_UpdateCommitID]
    split_ifs with hsync
    · rfl
    · rw [hsafe.resolve_left hsync]
      exact UInt64.toNat_inj.mp hp0
  have hc : (Running.UpdateCommitID l head).l.r.commitID = head := hcommit
  have hlen : (replicate head.toNat ([] : Batch)).length = head.toNat := length_replicate
  refine ⟨_, replicate head.toNat [], .nil ?_ _, by simp, ?_, ?_, ?_, ?_⟩
  · change LogStore.Holds (l.r.UpdateCommitID none head).2.s []
    rw [hs]
    exact h.logged.holds
  · rw [hp]
    exact hlen.le
  · rw [hp, hc]
  · rw [hc]
    exact hlen.ge
  · rw [hp, hc]
    exact .refl _ _ _

theorem fail (h : Inv sn ⟨l, phase⟩ k ls bs) : Inv sn ⟨l, .idle⟩ k ls bs :=
  { h with phase := h.converges }

theorem syncCommitID (h : Inv sn ⟨l, phase⟩ k ls bs) :
    Inv sn ⟨⟨l.ldb, l.r.syncCommitID⟩, phase⟩ k ls bs := by
  unfold Replication.syncCommitID
  split_ifs
  · refine ⟨h.logged, h.small, h.first_le.trans h.persisted_le, le_rfl, h.commit_le, ?_⟩
    have hinv := h.phase
    cases phase with
    | idle => exact .refl _ _ _
    | committing id b => exact ⟨.refl _ _ _, hinv.2⟩
    | committed id => exact ⟨hinv.1.mono h.persisted_le (Nat.le_succ _) le_rfl, hinv.2⟩
    | flushing load => rfl
    | cleared load => exact ⟨rfl, hinv.2⟩
    | loading => exact ⟨hinv.2.1, hinv.2⟩
  · exact h

theorem Reopen (h : Inv sn ⟨l, .idle⟩ k ls bs)
    (hr : NewReplication cfg l.r.Close.1 l.r.Close.2 = .ok r) :
    Inv sn ⟨⟨l.ldb, r⟩, .idle⟩ k ls bs := by
  obtain ⟨t, hopen, ht⟩ := h.logged.holds.reopen h.small cfg
  change NewReplication cfg l.r.s.Close (some l.r.commitID) = .ok r at hr
  rw [NewReplication, hopen] at hr
  cases hr
  exact ⟨h.logged.of_holds ht, h.small, h.first_le.trans h.persisted_le, le_rfl, h.commit_le,
    .refl _ _ _⟩

theorem step {c : Action} (h : ∃ k ls bs, s.Inv sn k ls bs) (hsafe : Safe sn s c)
    (hstep : Step sn s c s') : ∃ k ls bs, s'.Inv sn k ls bs := by
  obtain ⟨k, ls, bs, h⟩ := h
  obtain ⟨l, phase⟩ := s
  cases c with
  | Log now seq b =>
    obtain ⟨rfl, rfl⟩ := hstep
    exact ⟨k, h.Log hsafe⟩
  | NextNeedCommitLog =>
    obtain ⟨rfl, rfl⟩ := hstep
    exact ⟨k, ls, bs, h.NextNeedCommitLog⟩
  | Commit err =>
    obtain ⟨id, b, rfl, rfl⟩ := hstep
    exact ⟨k, ls, bs, h.Commit err⟩
  | UpdateCommitID =>
    obtain ⟨id, rfl, rfl⟩ := hstep
    exact ⟨k, ls, bs, h.UpdateCommitID⟩
  | StoreLog rl =>
    obtain ⟨hphase, hrl, rfl⟩ := hstep
    exact ⟨k, h.StoreLog hphase hrl⟩
  | flushAll load =>
    obtain ⟨rfl, rfl⟩ := hstep
    exact ⟨k, ls, bs, h.flushAll load hsafe⟩
  | deletes ks =>
    obtain ⟨load, rfl, rfl⟩ := hstep
    exact ⟨k, ls, bs, h.deletes _⟩
  | Clear =>
    obtain ⟨load, rfl, -, rfl⟩ := hstep
    obtain ⟨k', bs', h'⟩ := h.Clear
    exact ⟨k', [], bs', h'⟩
  | clearCommitID =>
    obtain ⟨load, rfl, rfl⟩ := hstep
    exact ⟨0, [], [], h.clearCommitID⟩
  | puts es =>
    obtain ⟨rfl, rfl⟩ := hstep
    exact ⟨k, ls, bs, h.puts _⟩
  | loaded head =>
    obtain ⟨rfl, rfl⟩ := hstep
    obtain ⟨k', bs', h'⟩ := h.loaded hsafe
    exact ⟨k', [], bs', h'⟩
  | fail =>
    obtain ⟨-, rfl⟩ := hstep
    exact ⟨k, ls, bs, h.fail⟩
  | syncCommitID =>
    obtain ⟨-, rfl⟩ := hstep
    exact ⟨k, ls, bs, h.syncCommitID⟩
  | Reopen cfg =>
    obtain ⟨rfl, r, hr, rfl⟩ := hstep
    exact ⟨k, ls, bs, h.Reopen hr⟩

theorem new {files : LogFiles} (hfiles : files = .file .empty ∨ files = .level .empty)
    (hr : NewReplication cfg files none = .ok r) : Inv sn ⟨⟨.empty, r⟩, .idle⟩ 0 [] [] := by
  obtain ⟨t, hopen, ht⟩ := LogStore.open_empty cfg hfiles
  rw [NewReplication, hopen] at hr
  cases hr
  exact ⟨.nil ht [], by simp, le_rfl, le_rfl, le_rfl, .refl _ _ _⟩

end Inv

/-- In every run that is safe, a node that stops recovers, wherever it stops. -/
theorem stopped_node_recovers {cfg : Config} {files : LogFiles} {r : Replication} {s : Running}
    (hfiles : files = .file .empty ∨ files = .level .empty)
    (hr : NewReplication cfg files none = .ok r)
    (hrun : Reaches (Step sn) (Safe sn) ⟨⟨.empty, r⟩, .idle⟩ s) : s.l.Recovers sn := by
  have hinv := hrun.invariant ⟨0, [], [], .new hfiles hr⟩ fun _ _ _ h hsafe hstep =>
    Inv.step h hsafe hstep
  obtain ⟨k, ls, bs, h⟩ := hinv
  exact h.recovers

open RoleSwitch (fresh plain)

theorem stopped_node_recovers_committed :
    ∃ s, Reaches (Step plain) (Safe plain) ⟨fresh, .idle⟩ s ∧
      s.phase = .committed 1 ∧ s.l.ldb.get [1] = some [2] ∧ s.l.persistedID = 0 ∧
      s.l.Recovers plain := by
  have hlog : Safe plain ⟨fresh, .idle⟩ (.Log 7 0 [.put [1] [2]]) :=
    ⟨by decide, by decide, by decide, by simp [BatchData.Sized]⟩
  have hrun : Reaches (Step plain) (Safe plain) ⟨fresh, .idle⟩ _ :=
    .step (c := .Commit none) (.step .refl hlog ⟨rfl, rfl⟩) trivial ⟨1, [.put [1] [2]], rfl, rfl⟩
  have hnew : NewReplication ⟨false, 0, 0, false⟩ (.file .empty) none = .ok fresh.r := rfl
  exact ⟨_, hrun, rfl, rfl, rfl, stopped_node_recovers (.inl rfl) hnew hrun⟩

theorem loaded_dump_not_recovered :
    ∃ l, Runs plain ⟨fresh, .idle⟩ ⟨l, .idle⟩ ∧
      fresh.LoadDump plain [0, 0, 0, 0, 0, 0, 0, 5, 0, 1, 1, 0, 0, 0, 1, 2] = (.ok 5, l) ∧
      l.ldb.get [1] = some [2] ∧ l.r.commitID = 5 ∧ l.r.LastLogID.1 = 0 ∧ l.persistedID = 0 ∧
      ¬ l.Recovers plain := by
  have hhead :
      (fresh.LoadDump plain [0, 0, 0, 0, 0, 0, 0, 5, 0, 1, 1, 0, 0, 0, 1, 2]).1 = .ok 5 := by
    decide
  refine ⟨(fresh.LoadDump plain [0, 0, 0, 0, 0, 0, 0, 5, 0, 1, 1, 0, 0, 0, 1, 2]).2,
    LoadDump_runs _, Prod.ext hhead rfl, by decide, by decide, by decide, by decide, ?_⟩
  rintro ⟨-, fuel, l₁, l₂, h₁, h₂, -, hc, -⟩
  cases fuel with
  | zero => cases h₁
  | succ fuel =>
    obtain rfl := congrArg Prod.snd h₁
    obtain rfl := congrArg Prod.snd h₂
    have hids : (0 : UInt64) = 5 := hc
    exact absurd hids (by decide)

end Running

end LedisDB.Rpl
