import LedisDB.Rpl.Stopping

/-!
# A master and its slave

The slave asks for the log after the last one it has, the master answers with logs, and
the slave stores them and applies them one by one; in between the master writes, purges
its log, is dumped and flushed, and the slave loads a dump or is restarted. A node
follows the history of the master: its logs carry batches of the history, and its
database is what the first of them lead to.

The head of a log has 32 bits for the length of the data. A longer batch is cut off, and
the slave skips it.
-/

namespace LedisDB.Rpl

open List

def replayed (hs : List Batch) (n : ℕ) : Store := OrderedMap.empty.applyBatch (hs.take n).flatten

/-- The two nodes, the ID that the slave has asked for, the reply on its way and the last dump.
`history` are the batches that the master has logged since it was last flushed, `epoch` counts
these flushes; the dump and what the slave has are of the epochs `snapshot.1` and `origin`.
`answered`: the last request was answered, and the master was not flushed since. -/
structure Cluster where
  master : Ledis
  slave : Ledis
  syncID : Option UInt64
  reply : Option Bytes
  snapshot : Option (ℕ × Bytes)
  history : List Batch
  epoch : ℕ
  origin : ℕ
  answered : Bool

variable (sn : Snappy) (σ : Cluster)

namespace Cluster

inductive Action
  | write (now : UInt32) (seq : ℕ) (b : Batch)
  | FlushAll
  | PurgeExpired (n now : Int64)
  | purgeExcess (maxNum : ℕ)
  | Dump
  | nextSyncLogID
  | syncCommand
  | lose
  | receive
  | apply (f : Faults)
  | LoadDump
  | restart (cfg : Config)

def write (now : UInt32) (seq : ℕ) (b : Batch) : Cluster :=
  match σ.master.handleCommit sn .none now seq b with
  | (.error _, l) => { σ with master := l }
  | (.ok _, l) => { σ with master := l, history := σ.history ++ [b] }

def FlushAll (σ : Cluster) : Cluster :=
  { σ with master := σ.master.FlushAll, history := [], epoch := σ.epoch + 1, answered := false }

def purged (s : LogStore) : Cluster :=
  { σ with master := { σ.master with r := { σ.master.r with s } } }

def Dump (sn : Snappy) (σ : Cluster) : Cluster :=
  { σ with snapshot := some (σ.epoch, σ.master.Dump sn) }

def nextSyncLogID (σ : Cluster) : Cluster :=
  { σ with
    slave := σ.slave.nextSyncLogID.2, syncID := some σ.slave.nextSyncLogID.1, reply := none }

/-- A slave that asks for the first log has nothing. -/
def syncCommand (σ : Cluster) (id : UInt64) : Cluster :=
  match σ.master.syncCommand id with
  | (.error _, l) => { σ with master := l, syncID := none, reply := none, answered := false }
  | (.ok buf, l) => { σ with
      master := l, syncID := none, reply := some buf,
      origin := if id = 1 then σ.epoch else σ.origin, answered := true }

def receive (σ : Cluster) (buf : Bytes) : Cluster :=
  { σ with slave := (σ.slave.receive true buf).2, reply := none }

def apply (f : Faults) : Cluster :=
  { σ with slave := (σ.slave.pass sn f).2 }

def LoadDump (sn : Snappy) (σ : Cluster) (epoch : ℕ) (rb : Bytes) : Cluster :=
  { σ with
    slave := (σ.slave.LoadDump sn rb).2, syncID := none, reply := none, origin := epoch
    answered := false }

def restart (r : Replication) : Cluster :=
  { σ with slave := ⟨σ.slave.ldb, r⟩, syncID := none, reply := none }

def Step : Action → Cluster → Prop
  | .write now seq b, σ' => σ.write sn now seq b = σ'
  | .FlushAll, σ' => σ.FlushAll = σ'
  | .PurgeExpired n now, σ' => σ.purged (σ.master.r.s.PurgeExpired n now) = σ'
  | .purgeExcess maxNum, σ' => σ.purged (σ.master.r.s.purgeExcess maxNum) = σ'
  | .Dump, σ' => σ.Dump sn = σ'
  | .nextSyncLogID, σ' => σ.nextSyncLogID = σ'
  | .syncCommand, σ' => ∃ id, σ.syncID = some id ∧ σ.syncCommand id = σ'
  | .lose, σ' => { σ with reply := none } = σ'
  | .receive, σ' => ∃ buf, σ.reply = some buf ∧ σ.receive buf = σ'
  | .apply f, σ' => σ.apply sn f = σ'
  | .LoadDump, σ' => ∃ epoch rb, σ.snapshot = some (epoch, rb) ∧ σ.LoadDump sn epoch rb = σ'
  | .restart cfg, σ' => ∃ r, NewReplication cfg σ.slave.r.Close.1 σ.slave.r.Close.2 = .ok r ∧
      σ.restart r = σ'

/-- There is a next ID for a write, its length fits in the head of the log and its batch in that
of the driver; the keys and values of a dump fit in it. -/
def Fits : Action → Prop
  | .write _ seq b => σ.master.r.commitID.toNat + 1 < 2 ^ 64 ∧
      (σ.master.r.compressed sn (BatchData.encode seq b)).length < 2 ^ 32 ∧
      b.length < 2 ^ 32 ∧ ∀ op ∈ b, BatchData.Sized op
  | .Dump => ∀ e ∈ σ.master.ldb.entries, Dumpable sn e
  | _ => True

/-- What the slave has is of the history of the master now, or it has nothing, or it has more
than the master. -/
def Fresh : Action → Prop
  | .syncCommand => ∀ id, σ.syncID = some id →
      σ.origin = σ.epoch ∨ id = 1 ∨ σ.master.r.LastLogID.1 < id - 1
  | _ => True

def Action.Flushes : Action → Prop
  | .FlushAll => True
  | _ => False

def Action.Purges : Action → Prop
  | .PurgeExpired _ _ | .purgeExcess _ => True
  | _ => False

def start (master slave : Ledis) : Cluster :=
  ⟨master, slave, none, none, none, [], 0, 0, false⟩

end Cluster

variable {s : LogStore} {cfg : Config} {r : Replication}

section
variable {sn : Snappy} {hs hs' : List Batch} {l : Ledis} {k n : ℕ} {ls xs : List Log} {b : Batch}

theorem replayed_append (hn : n ≤ hs.length) (hs' : List Batch) :
    replayed (hs ++ hs') n = replayed hs n := by
  rw [replayed, take_append_of_le_length hn, replayed]

theorem replayed_succ (hb : hs[n]? = some b) :
    replayed hs (n + 1) = (replayed hs n).applyBatch b := by
  rw [replayed, take_add_one, hb, flatten_append, applyBatch_append]
  simp [replayed]

theorem replayed_again (hb : hs[n]? = some b) :
    (replayed hs (n + 1)).applyBatch b = replayed hs (n + 1) := by
  rw [replayed_succ hb, OrderedMap.applyBatch_applyBatch_self]

theorem length_le_records (xs : List Log) : xs.length ≤ (records xs).length := by
  induction xs with
  | nil => exact Nat.zero_le _
  | cons x xs ih =>
    have hsize : 0 < x.Size := Nat.add_pos_left (by decide) _
    rw [records, flatMap_cons, length_append, Log.Encode_length, length_cons]
    exact Nat.add_comm 1 xs.length ▸ Nat.add_le_add hsize ih

/-- The node has the batches after the first `k` in its logs `ls`, and has applied those up to
its commit ID and at most one more. -/
structure Follows (sn : Snappy) (hs : List Batch) (l : Ledis) (k : ℕ) (ls : List Log) : Prop where
  holds : l.r.s.Holds ls
  carries : Carries sn hs k ls
  le_length : k + ls.length ≤ hs.length
  first_le : k ≤ l.r.commitID.toNat
  commit_le : l.r.commitID.toNat ≤ k + ls.length
  ldb_eq : l.ldb = replayed hs l.r.commitID.toNat ∨
    l.r.commitID.toNat < k + ls.length ∧ l.ldb = replayed hs (l.r.commitID.toNat + 1)

namespace Follows

theorem bounded (h : Follows sn hs l k ls) : l.Bounded ls := by
  intro hne
  rw [UInt64.le_iff_toNat_le, h.carries.lastID_eq hne]
  exact h.commit_le

theorem mono (h : Follows sn hs l k ls) (hs' : List Batch) : Follows sn (hs ++ hs') l k ls where
  holds := h.holds
  carries := h.carries.mono (prefix_append _ _)
  le_length := by
    rw [length_append]
    exact Nat.le_add_right_of_le h.le_length
  first_le := h.first_le
  commit_le := h.commit_le
  ldb_eq := by
    have h1 := h.le_length
    have h2 := h.commit_le
    rcases h.ldb_eq with heq | ⟨hlt, heq⟩
    · exact Or.inl (by rw [heq, replayed_append (by omega)])
    · exact Or.inr ⟨hlt, by rw [heq, replayed_append (by omega)]⟩

theorem of_holds (h : Follows sn hs l k ls) (hs' : s.Holds ls) :
    Follows sn hs ⟨l.ldb, { l.r with s }⟩ k ls :=
  ⟨hs', h.carries, h.le_length, h.first_le, h.commit_le, h.ldb_eq⟩

theorem nil (hl : l.r.s.Holds []) (hk : l.r.commitID.toNat ≤ hs.length)
    (hldb : l.ldb = replayed hs l.r.commitID.toNat) : Follows sn hs l l.r.commitID.toNat [] :=
  ⟨hl, trivial, hk, le_rfl, le_rfl, Or.inl hldb⟩

theorem new (hl : l.r.s.Holds []) (hc : l.r.commitID.toNat = 0) (hldb : l.ldb = .empty) :
    Follows sn hs l 0 [] := by
  have h := @nil sn hs l hl (hc.symm ▸ Nat.zero_le _) (by rw [hc, hldb]; rfl)
  rwa [hc] at h

section
variable (h : Follows sn hs l k ls)
include h

theorem ldb_of_done (hdone : l.r.NextNeedCommitLog.1 = .error .ErrNoBehindLog) :
    l.ldb = replayed hs l.r.commitID.toNat := by
  rcases h.ldb_eq with heq | ⟨hlt, -⟩
  · exact heq
  · have hne : ls ≠ [] := by
      rintro rfl
      have := h.first_le
      rw [length_nil] at hlt
      omega
    obtain ⟨hlast, h'⟩ := h.holds.LastID_eq
    have hnum := h.carries.lastID_eq hne
    have hgt : ¬ l.r.s.LastID.1 ≤ l.r.commitID := by
      rw [hlast, UInt64.le_iff_toNat_le]
      omega
    unfold Replication.NextNeedCommitLog at hdone
    dsimp only at hdone
    rw [if_neg hgt] at hdone
    -- the log after the commit ID is there
    have hnext : (l.r.commitID + 1).toNat = l.r.commitID.toNat + 1 := by
      have := (lastID ls).toNat_lt
      exact Replication.next_toNat (by omega)
    have hfirst := h.first_le
    obtain ⟨rl, hrl, hid⟩ := (h.carries.numbered.mem_ids_iff (l.r.commitID + 1)).mpr
      ⟨by omega, by omega⟩
    rw [← hid, h'.GetLog_of_mem hrl] at hdone
    cases hdone

theorem ldb_of_all (hall : l.r.commitID.toNat = hs.length) : l.ldb = replayed hs hs.length := by
  rcases h.ldb_eq with heq | ⟨hlt, -⟩
  · rw [heq, hall]
  · have := h.le_length
    omega

theorem nextID_toNat (h0 : l.nextID ls ≠ 0) : (l.nextID ls).toNat = k + ls.length + 1 := by
  rw [← UInt64.toNat_inj.ne, UInt64.toNat_zero] at h0
  unfold Ledis.nextID at h0 ⊢
  by_cases hne : ls = []
  · subst hne
    rw [if_pos rfl, UInt64.toNat_add, UInt64.toNat_one] at h0 ⊢
    have h1 := h.first_le
    have h2 := h.commit_le
    have := l.r.commitID.toNat_lt
    rw [length_nil] at h2 ⊢
    omega
  · rw [if_neg hne, UInt64.toNat_add, UInt64.toNat_one] at h0 ⊢
    have := h.carries.lastID_eq hne
    have := (lastID ls).toNat_lt
    omega

theorem pass (f : Faults) : Follows sn hs (l.pass sn f).2 k ls := by
  obtain ⟨p, r', hs', -, hc, -, heq | ⟨rl, hrl, hid, hlt, -, data, hdata, heq⟩⟩ :=
    Ledis.pass_cases h.holds sn f
  · rw [heq]
    exact ⟨hs', h.carries, h.le_length, hc ▸ h.first_le, hc ▸ h.commit_le, hc ▸ h.ldb_eq⟩
  · rw [heq]
    have hne := ne_nil_of_mem hrl
    have hlast := h.carries.lastID_eq hne
    rw [UInt64.lt_iff_toNat_lt, hlast] at hlt
    have hcarried := h.carries.carried_of_mem hrl
    have hnat : rl.ID.toNat = l.r.commitID.toNat + 1 := by
      have := (lastID ls).toNat_lt
      rw [hid]
      exact Replication.next_toNat (by omega)
    obtain ⟨b, hb, data', hdata', -, hreplay⟩ := hcarried.encodes
    rw [hnat, Nat.add_sub_cancel] at hb
    rw [Log.wire_eq hcarried.small, hdata'] at hdata
    cases hdata
    have hldb : l.ldb.applyBatch b = replayed hs (l.r.commitID.toNat + 1) := by
      rcases h.ldb_eq with heq | ⟨-, heq⟩
      · rw [heq, replayed_succ hb]
      · rw [heq, replayed_again hb]
    have hfirst := h.first_le
    rw [hreplay]
    obtain ⟨hs'', -, hid' | hid'⟩ := Ledis.UpdateCommitID_keeps r' f.writeErr rl.ID
    · refine ⟨hs''.symm ▸ hs', h.carries, h.le_length, ?_, ?_, Or.inl ?_⟩
      · rw [hid']
        omega
      · rw [hid']
        omega
      · rw [hldb, hid', hnat]
    · rw [hc] at hid'
      refine ⟨hs''.symm ▸ hs', h.carries, h.le_length, ?_, ?_, Or.inr ?_⟩
      · rw [hid']
        exact hfirst
      · rw [hid']
        exact h.commit_le
      · rw [hid']
        exact ⟨hlt, hldb⟩

theorem receive {buf : Bytes} (hbuf : buf.drop 8 = records xs)
    (hxs : Carries sn hs (k + ls.length) xs) :
    ∃ ys, Follows sn hs (l.receive true buf).2 k (ls ++ ys) := by
  unfold Ledis.receive
  split_ifs with hshort
  · exact ⟨[], by rwa [append_nil]⟩
  · dsimp only
    rw [hbuf]
    split_ifs with hnone
    · exact ⟨[], by rwa [append_nil]⟩
    · have hfuel : xs.length < (records xs).length + 1 := Nat.lt_succ_of_le (length_le_records xs)
      obtain ⟨ys, s', ⟨zs, hys⟩, hs', heq, -⟩ :=
        Replication.storeLogs_records h.holds h.carries hxs hfuel
      unfold Ledis.StoreLogsFromReader
      dsimp only
      rw [heq]
      rw [← hys, carries_append] at hxs
      have hlen := hxs.1.length_le h.le_length
      have hcommit := h.commit_le
      refine ⟨ys, hs', carries_append.mpr ⟨h.carries, hxs.1⟩, ?_, h.first_le, ?_, ?_⟩
      · rw [length_append, ← Nat.add_assoc]
        exact hlen
      · rw [length_append]
        exact hcommit.trans (by omega)
      · rw [length_append]
        rcases h.ldb_eq with heq | ⟨hlt, heq⟩
        · exact Or.inl heq
        · exact Or.inr ⟨hlt.trans_le (by omega), heq⟩

theorem restart
    (hr : NewReplication cfg l.r.Close.1 l.r.Close.2 = .ok r) : Follows sn hs ⟨l.ldb, r⟩ k ls := by
  obtain ⟨s', hopen, hs'⟩ := h.holds.reopen h.carries.small cfg
  unfold NewReplication at hr
  rw [show l.r.Close.1 = l.r.s.Close from rfl, hopen] at hr
  cases hr
  exact ⟨hs', h.carries, h.le_length, h.first_le, h.commit_le, h.ldb_eq⟩

theorem LoadDump {id : UInt64} (hid : id.toNat ≤ hs'.length)
    (hfits : ∀ e ∈ (replayed hs' id.toNat).entries, Dumpable sn e) :
    Follows sn hs' (l.LoadDump sn (dumpStore sn id (replayed hs' id.toNat))).2 id.toNat [] := by
  rw [l.LoadDump_dumpStore id hfits]
  obtain ⟨-, hs, hc, -⟩ := l.r.Clear.UpdateCommitID_none id
  have hholds : (l.r.Clear.UpdateCommitID none id).2.s.Holds [] := by
    rw [hs]
    exact h.holds.clear
  have hnil : Follows sn hs' ⟨replayed hs' id.toNat, (l.r.Clear.UpdateCommitID none id).2⟩
      (l.r.Clear.UpdateCommitID none id).2.commitID.toNat [] :=
    nil hholds (by rw [hc]; exact hid) (by rw [hc])
  rwa [hc] at hnil

theorem syncCommand (id : UInt64) :
    ∃ s', s'.Holds ls ∧ (l.syncCommand id).2 = ⟨l.ldb, { l.r with s := s' }⟩ ∧
      ∀ buf, (l.syncCommand id).1 = .ok buf → id - 1 ≤ lastID ls ∧ ∃ xs,
        buf.drop 8 = records xs ∧ Carries sn hs (id.toNat - 1) xs ∧ (xs ≠ [] → id ≠ 0) := by
  obtain ⟨s₁, h₁, hstat⟩ := h.holds.Stat_eq
  unfold Ledis.syncCommand
  rw [hstat]
  dsimp only
  split_ifs with hout
  · exact ⟨s₁, h₁, rfl, fun _ hbuf => nomatch hbuf⟩
  · have hread := @Ledis.ReadLogsTo_spec _ _ _ _ ⟨l.ldb, { l.r with s := s₁ }⟩ h₁ h.carries id
    obtain ⟨s₂, h₂, hnode, hok⟩ := hread
    rcases hres : (⟨l.ldb, { l.r with s := s₁ }⟩ : Ledis).ReadLogsTo id with ⟨e | out, l'⟩
    · rw [hres] at hnode
      exact ⟨s₂, h₂, hnode, fun _ hbuf => nomatch hbuf⟩
    · rw [hres] at hnode hok
      obtain rfl : l' = ⟨l.ldb, { l.r with s := s₂ }⟩ := hnode
      obtain ⟨xs, hw, hxs, hne⟩ := hok out rfl
      obtain ⟨s₃, h₃, hstat'⟩ := @LogStore.Holds.Stat_eq _ { l.r with s := s₂ } h₂
      dsimp only
      rw [hstat']
      refine ⟨s₃, h₃, rfl, fun buf hbuf => ⟨UInt64.not_lt.mp hout, xs, ?_, hxs, fun hx => ?_⟩⟩
      · cases hbuf
        rw [drop_left' (by simp), hw]
      · rintro rfl
        exact absurd (hne hx).1 (by simp)

end

theorem handleCommit (h : Follows sn hs l k ls) (hall : l.r.commitID.toNat = hs.length)
    {now : UInt32} {seq : ℕ} (hid : l.r.commitID.toNat + 1 < 2 ^ 64)
    (hsmall : (l.r.compressed sn (BatchData.encode seq b)).length < 2 ^ 32)
    (hlen : b.length < 2 ^ 32) (hb : ∀ op ∈ b, BatchData.Sized op) :
    ∃ ls' l', (∃ e, l.handleCommit sn .none now seq b = (.error e, l') ∧
        Follows sn hs l' k ls' ∧ l'.r.commitID.toNat = hs.length) ∨
      l.handleCommit sn .none now seq b = (.ok (), l') ∧
        Follows sn (hs ++ [b]) l' k ls' ∧ l'.r.commitID.toNat = (hs ++ [b]).length := by
  obtain ⟨r', hc, hcfg, -, ⟨hs', e, heq⟩ | ⟨-, hs', ⟨e, hfail, -⟩ | ⟨-, heq⟩⟩⟩ :=
    Ledis.handleCommit_cases h.holds h.bounded hid sn .none now seq b
  · refine ⟨ls, _, Or.inl ⟨e, heq, ?_, hc.symm ▸ hall⟩⟩
    exact ⟨hs', h.carries, h.le_length, hc.symm ▸ h.first_le, hc.symm ▸ h.commit_le,
      hc.symm ▸ h.ldb_eq⟩
  · cases hfail
  · obtain ⟨hok, hstore, hcommit, -⟩ := r'.UpdateCommitID_none (l.r.commitID + 1)
    have hnat := Replication.next_toNat hid
    have hend : k + ls.length = hs.length := Nat.le_antisymm h.le_length (hall ▸ h.commit_le)
    have hget : (hs ++ [b])[hs.length]? = some b := by simp
    have hcarried : Carried sn (hs ++ [b]) (k + ls.length)
        (l.r.nextLog sn now (BatchData.encode seq b)) := by
      refine ⟨?_, hsmall, b, hend ▸ hget, ?_⟩
      · rw [hend, ← hall]
        exact hnat
      · have henc := @encodes_nextLog sn b l.r hlen hb now seq hsmall
        rwa [Log.wire_eq hsmall] at henc
    refine ⟨ls ++ [l.r.nextLog sn now (BatchData.encode seq b)], _,
      Or.inr ⟨heq.trans (Prod.ext hok rfl), ⟨hstore.symm ▸ hs', ?_, ?_, ?_, ?_, Or.inl ?_⟩, ?_⟩⟩
    · exact carries_append.mpr ⟨h.carries.mono (prefix_append _ _), hcarried, trivial⟩
    · simp only [length_append, length_singleton]
      omega
    · change k ≤ (r'.UpdateCommitID none (l.r.commitID + 1)).2.commitID.toNat
      rw [hcommit]
      omega
    · change (r'.UpdateCommitID none (l.r.commitID + 1)).2.commitID.toNat ≤ _
      rw [hcommit, length_append, length_singleton]
      omega
    · change l.ldb.applyBatch b =
        replayed (hs ++ [b]) (r'.UpdateCommitID none (l.r.commitID + 1)).2.commitID.toNat
      rw [hcommit, hnat, hall, replayed_succ hget, replayed_append le_rfl, h.ldb_of_all hall]
    · change (r'.UpdateCommitID none (l.r.commitID + 1)).2.commitID.toNat = _
      rw [hcommit, hnat, hall, length_append, length_singleton]

theorem purge (h : Follows sn hs l k ls) (hall : l.r.commitID.toNat = hs.length)
    {ls' : List Log} (hsuffix : ls' <:+ ls) (hs' : s.Holds ls') :
    ∃ k', Follows sn hs ⟨l.ldb, { l.r with s }⟩ k' ls' := by
  obtain ⟨xs, rfl⟩ := hsuffix
  have hlen := h.le_length
  have hcommit := h.commit_le
  rw [length_append] at hlen hcommit
  refine ⟨k + xs.length, hs', (carries_append.mp h.carries).2, by omega, ?_, ?_, ?_⟩
  · change k + xs.length ≤ l.r.commitID.toNat
    omega
  · change l.r.commitID.toNat ≤ _
    omega
  · refine Or.inl ?_
    rw [hall, h.ldb_of_all hall]

end Follows

end

namespace Cluster

variable {sn : Snappy} {σ σ' : Cluster} {k : ℕ} {ls : List Log} {hs : List Batch} {v rb : Bytes}

structure Slave (sn : Snappy) (σ : Cluster) (hs : List Batch) (k : ℕ) (ls : List Log) : Prop where
  follows : Follows sn hs σ.slave k ls
  asked : ∀ id, σ.syncID = some id → id = σ.slave.nextID ls ∧ σ.reply = none
  reply : ∀ buf, σ.reply = some buf →
    ∃ xs, buf.drop 8 = records xs ∧ Carries sn hs (k + ls.length) xs

theorem Slave.mono (h : σ.Slave sn hs k ls) (hs' : List Batch) : σ.Slave sn (hs ++ hs') k ls := by
  refine ⟨h.follows.mono hs', h.asked, fun buf hbuf => ?_⟩
  obtain ⟨xs, hw, hxs⟩ := h.reply buf hbuf
  exact ⟨xs, hw, hxs.mono (prefix_append _ _)⟩

theorem Slave.first (h : σ.Slave sn hs k ls) (hid : σ.slave.nextID ls = 1) (hs' : List Batch) :
    ls = [] ∧ Follows sn hs' σ.slave 0 [] := by
  have hnext := h.follows.nextID_toNat (by rw [hid]; decide)
  rw [hid, UInt64.toNat_one] at hnext
  obtain rfl : k = 0 := by omega
  obtain rfl : ls = [] := eq_nil_of_length_eq_zero (by omega)
  have hcommit : σ.slave.r.commitID.toNat = 0 := Nat.le_zero.mp h.follows.commit_le
  refine ⟨rfl, .new h.follows.holds hcommit ?_⟩
  rcases h.follows.ldb_eq with heq | ⟨hlt, -⟩
  · rwa [hcommit] at heq
  · cases hlt

def DumpOf (sn : Snappy) (hs : List Batch) (rb : Bytes) : Prop :=
  ∃ id : UInt64, id.toNat ≤ hs.length ∧ (∀ e ∈ (replayed hs id.toNat).entries, Dumpable sn e) ∧
    rb = dumpStore sn id (replayed hs id.toNat)

theorem DumpOf.mono (h : DumpOf sn hs rb) (hs' : List Batch) : DumpOf sn (hs ++ hs') rb := by
  obtain ⟨id, hid, hfits, hrb⟩ := h
  refine ⟨id, ?_, ?_⟩
  · rw [length_append]
    exact Nat.le_add_right_of_le hid
  · rw [replayed_append hid]
    exact ⟨hfits, hrb⟩

/-- Both nodes follow a history, the slave and the dump that of the master when they are of its
epoch. The master has given up the logs of the first `k` batches. -/
structure Inv (sn : Snappy) (σ : Cluster) (k : ℕ) : Prop where
  master : ∃ ls, Follows sn σ.history σ.master k ls
  commit : σ.master.r.commitID.toNat = σ.history.length
  slave : ∃ hs k' ls, σ.Slave sn hs k' ls ∧ (σ.origin = σ.epoch → hs = σ.history)
  snapshot : ∀ e rb, σ.snapshot = some (e, rb) →
    e ≤ σ.epoch ∧ ∃ hs, DumpOf sn hs rb ∧ (e = σ.epoch → hs = σ.history)
  origin_le : σ.origin ≤ σ.epoch
  answered : σ.answered = true → σ.origin = σ.epoch

namespace Inv

theorem start {master slave : Ledis} (hm : Follows sn [] master 0 [])
    (hs : Follows sn [] slave 0 []) : (start master slave).Inv sn 0 where
  master := ⟨[], hm⟩
  commit := Nat.le_zero.mp hm.commit_le
  slave := ⟨[], 0, [], ⟨hs, nofun, nofun⟩, fun _ => rfl⟩
  snapshot := nofun
  origin_le := le_rfl
  answered := nofun

section
variable (h : σ.Inv sn k)
include h

theorem of_master {k' : ℕ} {l : Ledis} (hl : Follows sn σ.history l k' ls)
    (hcommit : l.r.commitID.toNat = σ.history.length) : Inv sn { σ with master := l } k' := by
  obtain ⟨hs, k₁, ls₁, hslave, horigin⟩ := h.slave
  exact ⟨⟨ls, hl⟩, hcommit, ⟨hs, k₁, ls₁, ⟨hslave.follows, hslave.asked, hslave.reply⟩, horigin⟩,
    h.snapshot, h.origin_le, h.answered⟩

theorem of_slave (hslave : ∀ hs k ls, σ.Slave sn hs k ls → ∃ k' ls', σ'.Slave sn hs k' ls')
    (hσ : σ' = { σ with slave := σ'.slave, syncID := σ'.syncID, reply := σ'.reply }) :
    σ'.Inv sn k := by
  obtain ⟨hs, k₁, ls₁, hs₁, horigin⟩ := h.slave
  obtain ⟨k₂, ls₂, hs₂⟩ := hslave hs k₁ ls₁ hs₁
  rw [hσ] at hs₂ ⊢
  exact ⟨h.master, h.commit, ⟨hs, k₂, ls₂, hs₂, horigin⟩, h.snapshot, h.origin_le, h.answered⟩

theorem write {now : UInt32} {seq : ℕ} {b : Batch}
    (hfits : σ.Fits sn (.write now seq b)) : (σ.write sn now seq b).Inv sn k := by
  obtain ⟨hid, hsmall, hlen, hb⟩ := hfits
  obtain ⟨ls, hm⟩ := h.master
  unfold Cluster.write
  obtain ⟨ls', l', ⟨e, heq, hl', hc'⟩ | ⟨heq, hl', hc'⟩⟩ :=
    @Follows.handleCommit sn σ.history σ.master k ls b hm h.commit now seq hid hsmall hlen hb
  · rw [heq]
    exact h.of_master hl' hc'
  · rw [heq]
    obtain ⟨hs, k₁, ls₁, hslave, horigin⟩ := h.slave
    refine ⟨⟨ls', hl'⟩, hc', ?_, fun e rb hrb => ?_, h.origin_le, h.answered⟩
    · by_cases he : σ.origin = σ.epoch
      · obtain rfl := horigin he
        have hslave' := hslave.mono [b]
        exact ⟨_, k₁, ls₁, ⟨hslave'.follows, hslave'.asked, hslave'.reply⟩, fun _ => rfl⟩
      · exact ⟨hs, k₁, ls₁, ⟨hslave.follows, hslave.asked, hslave.reply⟩, fun he' => absurd he' he⟩
    · obtain ⟨hle, hs', hdump, hepoch⟩ := h.snapshot e rb hrb
      refine ⟨hle, ?_⟩
      by_cases he : e = σ.epoch
      · obtain rfl := hepoch he
        exact ⟨_, hdump.mono [b], fun _ => rfl⟩
      · exact ⟨hs', hdump, fun he' => absurd he' he⟩

theorem FlushAll : σ.FlushAll.Inv sn 0 := by
  obtain ⟨ls, hm⟩ := h.master
  obtain ⟨hs, k₁, ls₁, hslave, -⟩ := h.slave
  refine ⟨⟨[], ?_⟩, rfl, ?_, fun e rb hrb => ?_, ?_, nofun⟩
  · exact .new hm.holds.clear rfl (flushStore_eq _)
  · have hne : σ.origin ≠ σ.epoch + 1 := Nat.ne_of_lt (Nat.lt_succ_of_le h.origin_le)
    exact ⟨hs, k₁, ls₁, ⟨hslave.follows, hslave.asked, hslave.reply⟩, fun he => absurd he hne⟩
  · obtain ⟨hle, hs', hdump, -⟩ := h.snapshot e rb hrb
    have hne : e ≠ σ.epoch + 1 := Nat.ne_of_lt (Nat.lt_succ_of_le hle)
    exact ⟨Nat.le_succ_of_le hle, hs', hdump, fun he => absurd he hne⟩
  · exact Nat.le_succ_of_le h.origin_le

theorem purged (hs : ∀ ls, σ.master.r.s.Holds ls → ∃ ls', ls' <:+ ls ∧ s.Holds ls') :
    ∃ k', (σ.purged s).Inv sn k' := by
  obtain ⟨ls, hm⟩ := h.master
  obtain ⟨ls', hsuffix, hs'⟩ := hs ls hm.holds
  obtain ⟨k', hk'⟩ := hm.purge h.commit hsuffix hs'
  exact ⟨k', h.of_master hk' h.commit⟩

theorem master_ldb : σ.master.ldb = replayed σ.history σ.history.length := by
  obtain ⟨ls, hm⟩ := h.master
  exact hm.ldb_of_all h.commit

theorem Dump (hfits : σ.Fits sn .Dump) : (σ.Dump sn).Inv sn k := by
  obtain ⟨ls, hm⟩ := h.master
  obtain ⟨hs, k₁, ls₁, hslave, horigin⟩ := h.slave
  refine ⟨⟨ls, hm⟩, h.commit, ⟨hs, k₁, ls₁, ⟨hslave.follows, hslave.asked, hslave.reply⟩, horigin⟩,
    fun e rb hrb => ?_, h.origin_le, h.answered⟩
  cases hrb
  have hldb : σ.master.ldb = replayed σ.history σ.master.r.commitID.toNat := by
    rw [h.commit, h.master_ldb]
  refine ⟨le_rfl, σ.history, ⟨σ.master.r.commitID, h.commit.le, ?_, ?_⟩, fun _ => rfl⟩
  · rw [← hldb]
    exact hfits
  · rw [← hldb]
    rfl

theorem nextSyncLogID : σ.nextSyncLogID.Inv sn k := by
  refine h.of_slave (fun hs k ls hslave => ?_) rfl
  obtain ⟨s', hs', heq⟩ := Ledis.nextSyncLogID_eq hslave.follows.holds hslave.follows.bounded
  unfold Cluster.nextSyncLogID
  rw [heq]
  refine ⟨k, ls, hslave.follows.of_holds hs', fun id hid => ?_, nofun⟩
  cases hid
  exact ⟨rfl, rfl⟩

theorem lose : Inv sn { σ with reply := none } k := h.of_slave (fun _ k ls hslave =>
    ⟨k, ls, hslave.follows, fun id hid => ⟨(hslave.asked id hid).1, rfl⟩, nofun⟩) rfl

theorem receive {buf : Bytes} (hbuf : σ.reply = some buf) : (σ.receive buf).Inv sn k := by
  refine h.of_slave (fun hs k ls hslave => ?_) rfl
  obtain ⟨xs, hw, hxs⟩ := hslave.reply buf hbuf
  obtain ⟨ys, hf⟩ := hslave.follows.receive hw hxs
  refine ⟨k, ls ++ ys, hf, fun id hid => ?_, nofun⟩
  have hnone := (hslave.asked id hid).2
  rw [hbuf] at hnone
  cases hnone

theorem apply (f : Faults) : (σ.apply sn f).Inv sn k := by
  refine h.of_slave (fun hs k ls hslave => ?_) rfl
  refine ⟨k, ls, hslave.follows.pass f, fun id hid => ?_, hslave.reply⟩
  obtain ⟨heq, hnone⟩ := hslave.asked id hid
  exact ⟨heq.trans (Ledis.pass_nextID hslave.follows.holds sn f).symm, hnone⟩

theorem restart (hr : NewReplication cfg σ.slave.r.Close.1 σ.slave.r.Close.2 = .ok r) :
    (σ.restart r).Inv sn k :=
  h.of_slave (fun _ k ls hslave => ⟨k, ls, hslave.follows.restart hr, nofun, nofun⟩) rfl

theorem LoadDump {e : ℕ} {rb : Bytes} (hrb : σ.snapshot = some (e, rb)) :
    (σ.LoadDump sn e rb).Inv sn k := by
  obtain ⟨hs, k₁, ls₁, hslave, -⟩ := h.slave
  obtain ⟨hle, hs', ⟨id, hid, hfits, rfl⟩, hepoch⟩ := h.snapshot e rb hrb
  exact ⟨h.master, h.commit,
    ⟨hs', _, [], ⟨hslave.follows.LoadDump hid hfits, nofun, nofun⟩, hepoch⟩, h.snapshot, hle, nofun⟩

theorem syncCommand {id : UInt64} (hid : σ.syncID = some id)
    (hfresh : σ.Fresh .syncCommand) : (σ.syncCommand id).Inv sn k := by
  obtain ⟨ls, hm⟩ := h.master
  obtain ⟨s', hs', hnode, hok⟩ := hm.syncCommand id
  obtain ⟨hs, k₁, ls₁, hslave, horigin⟩ := h.slave
  have hm' : Follows sn σ.history ⟨σ.master.ldb, { σ.master.r with s := s' }⟩ k ls :=
    hm.of_holds hs'
  unfold Cluster.syncCommand
  rcases hres : σ.master.syncCommand id with ⟨e | buf, l⟩
  · rw [hres] at hnode
    obtain rfl : l = _ := hnode
    exact ⟨⟨ls, hm'⟩, h.commit, ⟨hs, k₁, ls₁, ⟨hslave.follows, nofun, nofun⟩, horigin⟩, h.snapshot,
      h.origin_le, nofun⟩
  · rw [hres] at hnode hok
    obtain rfl : l = _ := hnode
    obtain ⟨hle, xs, hw, hxs, hne⟩ := hok buf rfl
    have hasked := (hslave.asked id hid).1
    -- the reply continues what the slave has
    have hreply : ∀ k₁ ls₁, Follows sn σ.history σ.slave k₁ ls₁ → id = σ.slave.nextID ls₁ →
        Carries sn σ.history (k₁ + ls₁.length) xs := by
      intro k₁ ls₁ hf hnext
      by_cases hx : xs = []
      · rw [hx]
        trivial
      · have hnat := hf.nextID_toNat (hnext ▸ hne hx)
        rw [← hnext] at hnat
        rwa [hnat] at hxs
    have hdone : ∀ k₁ ls₁, Follows sn σ.history σ.slave k₁ ls₁ → id = σ.slave.nextID ls₁ →
        (if id = 1 then σ.epoch else σ.origin) = σ.epoch →
        Inv sn { σ with
          master := ⟨σ.master.ldb, { σ.master.r with s := s' }⟩, syncID := none, reply := some buf
          origin := if id = 1 then σ.epoch else σ.origin, answered := true } k := by
      intro k₁ ls₁ hf hnext hepoch
      refine ⟨⟨ls, hm'⟩, h.commit, ⟨_, k₁, ls₁, ⟨hf, nofun, fun buf' hbuf => ?_⟩, fun _ => rfl⟩,
        h.snapshot, hepoch.le, fun _ => hepoch⟩
      cases hbuf
      exact ⟨xs, hw, hreply k₁ ls₁ hf hnext⟩
    rcases hfresh id hid with he | rfl | hlt
    · obtain rfl := horigin he
      exact hdone k₁ ls₁ hslave.follows hasked (by split_ifs <;> [rfl; exact he])
    · obtain ⟨rfl, hf⟩ := hslave.first hasked.symm σ.history
      exact hdone 0 [] hf hasked (if_pos rfl)
    · change σ.master.r.s.LastID.1 < id - 1 at hlt
      rw [hm.holds.LastID_eq.1] at hlt
      exact absurd hle (UInt64.not_le.mpr hlt)

theorem step {a : Action} (hfits : σ.Fits sn a) (hfresh : σ.Fresh a)
    (hstep : Step sn σ a σ') : ∃ k', σ'.Inv sn k' ∧ (k' = k ∨ k' = 0 ∨ a.Purges) := by
  cases a with
  | write now seq b => exact ⟨k, hstep ▸ h.write hfits, Or.inl rfl⟩
  | FlushAll => exact ⟨0, hstep ▸ h.FlushAll, Or.inr (Or.inl rfl)⟩
  | PurgeExpired n now =>
    obtain ⟨k', h'⟩ := h.purged fun _ hls => hls.PurgeExpired n now
    exact ⟨k', hstep ▸ h', Or.inr (Or.inr trivial)⟩
  | purgeExcess maxNum =>
    obtain ⟨k', h'⟩ := h.purged fun _ hls => hls.purgeExcess maxNum
    exact ⟨k', hstep ▸ h', Or.inr (Or.inr trivial)⟩
  | Dump => exact ⟨k, hstep ▸ h.Dump hfits, Or.inl rfl⟩
  | nextSyncLogID => exact ⟨k, hstep ▸ h.nextSyncLogID, Or.inl rfl⟩
  | syncCommand =>
    obtain ⟨id, hid, rfl⟩ := hstep
    exact ⟨k, h.syncCommand hid hfresh, Or.inl rfl⟩
  | lose => exact ⟨k, hstep ▸ h.lose, Or.inl rfl⟩
  | receive =>
    obtain ⟨buf, hbuf, rfl⟩ := hstep
    exact ⟨k, h.receive hbuf, Or.inl rfl⟩
  | apply f => exact ⟨k, hstep ▸ h.apply f, Or.inl rfl⟩
  | LoadDump =>
    obtain ⟨e, rb, hrb, rfl⟩ := hstep
    exact ⟨k, h.LoadDump hrb, Or.inl rfl⟩
  | restart cfg =>
    obtain ⟨r, hr, rfl⟩ := hstep
    exact ⟨k, h.restart hr, Or.inl rfl⟩

end

end Inv

theorem epoch_eq {a : Action} (hstep : Step sn σ a σ') (ha : ¬ a.Flushes) : σ'.epoch = σ.epoch := by
  cases a with
  | FlushAll => exact absurd trivial ha
  | write now seq b =>
    obtain rfl := hstep
    unfold write
    split <;> rfl
  | syncCommand =>
    obtain ⟨id, -, rfl⟩ := hstep
    unfold syncCommand
    split <;> rfl
  | receive =>
    obtain ⟨buf, -, rfl⟩ := hstep
    rfl
  | LoadDump =>
    obtain ⟨e, rb, -, rfl⟩ := hstep
    rfl
  | restart cfg =>
    obtain ⟨r, -, rfl⟩ := hstep
    rfl
  | PurgeExpired n now | purgeExcess maxNum | Dump | nextSyncLogID | lose | apply f =>
    exact hstep ▸ rfl

theorem follows_new {files : LogFiles} (hfiles : files = .file .empty ∨ files = .level .empty)
    (hr : NewReplication cfg files none = .ok r) : Follows sn hs ⟨.empty, r⟩ 0 [] := by
  obtain ⟨t, hopen, ht⟩ := LogStore.open_empty cfg hfiles
  unfold NewReplication at hr
  rw [hopen] at hr
  cases hr
  exact .new ht rfl rfl

/-- In every run without a flush of the master, the slave has applied the batches of the master
up to its commit ID whenever it has no log to apply. -/
theorem slave_agrees {mcfg scfg : Config} {mfiles sfiles : LogFiles} {mr sr : Replication}
    (hmfiles : mfiles = .file .empty ∨ mfiles = .level .empty)
    (hsfiles : sfiles = .file .empty ∨ sfiles = .level .empty)
    (hmr : NewReplication mcfg mfiles none = .ok mr)
    (hsr : NewReplication scfg sfiles none = .ok sr)
    (hrun : Reaches (Step sn) (fun σ a => σ.Fits sn a ∧ ¬ a.Flushes)
      (start ⟨.empty, mr⟩ ⟨.empty, sr⟩) σ)
    (hdone : σ.slave.r.NextNeedCommitLog.1 = .error .ErrNoBehindLog) :
    σ.slave.r.commitID.toNat ≤ σ.history.length ∧
      σ.slave.ldb = replayed σ.history σ.slave.r.commitID.toNat := by
  have hinv : (∃ k, σ.Inv sn k) ∧ σ.epoch = 0 := by
    refine hrun.invariant (I := fun σ => (∃ k, σ.Inv sn k) ∧ σ.epoch = 0)
      ⟨⟨0, .start (follows_new hmfiles hmr) (follows_new hsfiles hsr)⟩, rfl⟩ ?_
    rintro σ a σ' ⟨⟨k, h⟩, hepoch⟩ ⟨hfits, ha⟩ hstep
    have horigin : σ.origin = σ.epoch := Nat.le_antisymm h.origin_le (hepoch ▸ Nat.zero_le _)
    have hfresh : σ.Fresh a := by
      cases a <;> first | exact fun _ _ => Or.inl horigin | trivial
    obtain ⟨k', h', -⟩ := h.step hfits hfresh hstep
    exact ⟨⟨k', h'⟩, (epoch_eq hstep ha).trans hepoch⟩
  obtain ⟨⟨k, h⟩, hepoch⟩ := hinv
  obtain ⟨hs, k', ls, hslave, horigin⟩ := h.slave
  obtain rfl := horigin (Nat.le_antisymm h.origin_le (hepoch ▸ Nat.zero_le _))
  exact ⟨hslave.follows.commit_le.trans hslave.follows.le_length, hslave.follows.ldb_of_done hdone⟩

open RoleSwitch (fresh plain)

theorem slave_agrees_synced : ∃ σ, Reaches (Step plain)
      (fun σ a => σ.Fits plain a ∧ ¬ a.Flushes) (start fresh fresh) σ ∧
    σ.slave.r.commitID = 2 ∧ σ.slave.ldb.get [1] = none ∧ σ.slave.ldb.get [3] = some [4] ∧
    σ.slave.ldb = replayed σ.history 2 := by
  have h1 : Reaches (Step plain) (fun σ a => σ.Fits plain a ∧ ¬ a.Flushes) (start fresh fresh)
      ((start fresh fresh).write plain 0 0 [.put [1] [2]]) :=
    Reaches.next (Action.write 0 0 [.put [1] [2]]) .refl
      ⟨⟨by decide, by decide, by decide, by simp [BatchData.Sized]⟩, id⟩ rfl
  have hdump : ∀ e ∈ [([1], [2])], Dumpable plain e := by
    simp [Dumpable, plain]
  have h2 := h1.next Action.Dump ⟨hdump, id⟩ rfl
  have h3 := h2.next Action.LoadDump ⟨trivial, id⟩ ⟨_, _, rfl, rfl⟩
  have h4 := h3.next (Action.write 0 0 [.delete [1], .put [3] [4]])
    ⟨⟨by decide, by decide, by decide, by simp [BatchData.Sized]⟩, id⟩ rfl
  have h5 := h4.next (Action.restart ⟨false, 0, 0, false⟩) ⟨trivial, id⟩ ⟨_, rfl, rfl⟩
  have h6 := h5.next Action.nextSyncLogID ⟨trivial, id⟩ rfl
  have h7 := h6.next Action.syncCommand ⟨trivial, id⟩ ⟨_, rfl, rfl⟩
  have h8 := h7.next Action.receive ⟨trivial, id⟩ ⟨_, rfl, rfl⟩
  have h9 := h8.next (Action.apply .none) ⟨trivial, id⟩ rfl
  have hnew : NewReplication ⟨false, 0, 0, false⟩ (.file .empty) none = .ok fresh.r := rfl
  exact ⟨_, h9, by decide, by decide, by decide,
    (slave_agrees (Or.inl rfl) (Or.inl rfl) hnew hnew h9 (by decide)).2⟩

def large (v : Bytes) : Batch := [.put [1] v, .put [2] v, .put [3] v, .put [4] v]

def largeHead : Bytes := [0, 0, 0, 0, 0, 0, 0, 0, 4, 0, 0, 0, 1, 1, 1, 128, 128, 128, 128, 4]

theorem encode_large (hv : v.length = 2 ^ 30) : ∃ rest,
    BatchData.encode 0 (large v) = largeHead ++ (v ++ rest) ∧ rest.length = 3 * (2 ^ 30 + 8) := by
  have hlen : putUvarint (2 ^ 30) = [128, 128, 128, 128, 4] := by decide
  have hone : putUvarint 1 = [1] := by decide
  refine ⟨[WriteOp.put [2] v, .put [3] v, .put [4] v].flatMap BatchData.appendRec, ?_, ?_⟩
  · unfold BatchData.encode large
    rw [flatMap_cons, BatchData.appendRec, hv]
    simp only [length_cons]
    rfl
  · simp only [flatMap_cons, BatchData.appendRec, hv, hlen, hone,
      length_cons, length_append, length_nil]
    norm_num

theorem wire_large (hv : v.length = 2 ^ 30) :
    (fresh.r.nextLog plain 0 (BatchData.encode 0 (large v))).wire =
      ⟨1, 0, 0, largeHead ++ v.take 24⟩ := by
  obtain ⟨rest, heq, hlen⟩ := encode_large hv
  have hdata : (BatchData.encode 0 (large v)).length % 2 ^ 32 = 44 := by
    rw [heq, length_append, length_append, hv, hlen]
    decide
  have htake : (BatchData.encode 0 (large v)).take 44 = largeHead ++ v.take 24 := by
    rw [heq, take_append, take_append_of_le_length (by rw [hv]; decide)]
    rfl
  change (⟨1, 0, 0, (BatchData.encode 0 (large v)).take
    ((BatchData.encode 0 (large v)).length % 2 ^ 32)⟩ : Log) = _
  rw [hdata, htake]

theorem handleCommit_fresh (b : Batch) : ∃ s',
    s'.Holds [fresh.r.nextLog plain 0 (BatchData.encode 0 b)] ∧
    fresh.handleCommit plain .none 0 0 b =
      (.ok (), ⟨OrderedMap.empty.applyBatch b, { fresh.r with s := s', commitID := 1 }⟩) := by
  have hnew : NewReplication ⟨false, 0, 0, false⟩ (.file .empty) none = .ok fresh.r := rfl
  have hholds := (@follows_new _ _ plain [] _ (Or.inl rfl) hnew).holds
  have hnext := hholds.StoreLog_next (c := 0) nofun rfl
    (l := fresh.r.nextLog plain 0 (BatchData.encode 0 b)) (show (1 : UInt64) ≠ 0 by decide)
  rcases hst : fresh.r.s.StoreLog (fresh.r.nextLog plain 0 (BatchData.encode 0 b)) with ⟨res, s'⟩
  rcases hnext with ⟨-, hok, h'⟩ | ⟨hnot, -⟩
  · rw [hst] at hok h'
    obtain rfl : res = .ok () := hok
    refine ⟨s', h', ?_⟩
    have hlog : fresh.r.Log plain 0 (BatchData.encode 0 b) =
        (.ok (fresh.r.nextLog plain 0 (BatchData.encode 0 b)), { fresh.r with s := s' }) := by
      rw [Replication.Log_eq_of_le (by decide), show fresh.r.s.LastID.2 = fresh.r.s from rfl, hst]
    unfold Ledis.handleCommit
    rw [hlog]
    rfl
  · exact absurd (by decide : LogStore.Accepts 0 fresh.r.s) hnot

theorem syncCommand_one {l : Ledis} {rl : Log} (h : l.r.s.Holds [rl]) (hid : rl.ID = 1) : ∃ r,
    l.syncCommand 1 = (.ok (beBytes 8 1 ++ rl.wire.Encode), ⟨l.ldb, r⟩) := by
  have hfirst : firstID [rl] = 1 := hid
  have hlast : lastID [rl] = 1 := hid
  obtain ⟨s₁, h₁, hstat⟩ := h.Stat_eq
  obtain ⟨s₂, h₂, hf⟩ := @LogStore.Holds.FirstLogID_eq _ { l.r with s := s₁ } h₁
  obtain ⟨s₃, h₃, hl⟩ := @LogStore.Holds.LastLogID_eq _ { l.r with s := s₂ } h₂
  obtain ⟨s₄, h₄, hstat'⟩ := @LogStore.Holds.Stat_eq _ { l.r with s := s₃ } h₃
  have hget : ({ l.r with s := s₃ } : Replication).GetLog 1 = .ok rl.wire := by
    rw [← hid]
    exact h₃.GetLog_of_mem (.head _)
  have hread : ({ l.r with s := s₃ } : Replication).readLogs 1 (maxReplLogSize + 1) 1 ⟨[], 0, 1⟩ =
      .ok ⟨rl.wire.Encode, rl.wire.Size, 2⟩ := by
    obtain ⟨n, hn⟩ : ∃ n, maxReplLogSize = n + 1 := ⟨_, rfl⟩
    rw [Replication.readLogs, hget]
    dsimp only
    rw [hn, Replication.readLogs]
    simp
  refine ⟨{ l.r with s := s₄ }, ?_⟩
  unfold Ledis.syncCommand
  rw [hstat, hlast]
  dsimp only
  rw [if_neg (by decide)]
  unfold Ledis.ReadLogsTo
  rw [hf, hfirst]
  dsimp only
  rw [if_neg (by decide), hl, hlast]
  rw [hread]
  dsimp only
  rw [hstat', hlast]
  rfl

def cutReply : Bytes :=
  beBytes 8 1 ++ (⟨1, 0, 0, largeHead ++ List.replicate 24 0⟩ : Log).Encode

theorem pass_cutReply : ∃ r, ((fresh.receive true cutReply).2.pass plain .none).2 = ⟨.empty, r⟩ ∧
    r.NextNeedCommitLog.1 = .error .ErrNoBehindLog ∧ r.commitID = 1 :=
  ⟨_, rfl, by decide, by decide⟩

theorem large_batch_skipped : ∃ (v : Bytes) (σ : Cluster), v.length = 2 ^ 30 ∧
    Reaches (Step plain) (fun _ a => ¬ a.Flushes) (start fresh fresh) σ ∧
    σ.history = [large v] ∧ σ.slave.r.NextNeedCommitLog.1 = .error .ErrNoBehindLog ∧
    σ.slave.r.commitID = 1 ∧ σ.slave.ldb.get [1] = none ∧ σ.master.ldb.get [1] = some v ∧
    σ.slave.ldb ≠ replayed σ.history 1 := by
  obtain ⟨v, hv, htake⟩ : ∃ v : Bytes, v.length = 2 ^ 30 ∧ v.take 24 = List.replicate 24 0 :=
    ⟨List.replicate (2 ^ 30) 0, List.length_replicate, by rw [List.take_replicate]; rfl⟩
  have hget : (OrderedMap.empty.applyBatch (large v)).get [1] = some v := by
    rfl
  obtain ⟨s', hs', hcommit⟩ := handleCommit_fresh (large v)
  have hwire := wire_large hv
  rw [htake] at hwire
  obtain ⟨r', hsync⟩ := @syncCommand_one ⟨OrderedMap.empty.applyBatch (large v),
    { fresh.r with s := s', commitID := 1 }⟩ _ hs' rfl
  rw [hwire] at hsync
  have hwrite : (start fresh fresh).write plain 0 0 (large v) =
      ⟨⟨OrderedMap.empty.applyBatch (large v), { fresh.r with s := s', commitID := 1 }⟩, fresh,
        none, none, none, [large v], 0, 0, false⟩ := by
    unfold write
    rw [show (start fresh fresh).master = fresh from rfl, hcommit]
    rfl
  have hanswer : syncCommand ⟨⟨OrderedMap.empty.applyBatch (large v),
        { fresh.r with s := s', commitID := 1 }⟩, fresh, some 1, none, none, [large v], 0, 0,
        false⟩ 1 =
      ⟨⟨OrderedMap.empty.applyBatch (large v), r'⟩, fresh, none,
        some cutReply, none, [large v], 0, 0, true⟩ := by
    unfold syncCommand
    rw [hsync]
    rfl
  have h1 : Reaches (Step plain) (fun _ a => ¬ a.Flushes) (start fresh fresh) _ :=
    Reaches.next (Action.write 0 0 (large v)) .refl id hwrite
  have h2 := h1.next Action.nextSyncLogID id rfl
  have h3 := h2.next Action.syncCommand id ⟨1, rfl, hanswer⟩
  have h4 := h3.next Action.receive id ⟨cutReply, rfl, rfl⟩
  obtain ⟨r, hpass, hdone, hid⟩ := pass_cutReply
  have h5 : Reaches (Step plain) (fun _ a => ¬ a.Flushes) (start fresh fresh)
      ⟨⟨OrderedMap.empty.applyBatch (large v), r'⟩, ⟨.empty, r⟩, none, none, none, [large v], 0, 0,
        true⟩ :=
    h4.next (Action.apply .none) id (by rw [← hpass]; rfl)
  refine ⟨v, _, hv, h5, rfl, hdone, hid, rfl, hget, fun heq => ?_⟩
  have hnone : (replayed [large v] 1).get [1] = none := heq ▸ rfl
  cases hnone.symm.trans hget

end Cluster

end LedisDB.Rpl
