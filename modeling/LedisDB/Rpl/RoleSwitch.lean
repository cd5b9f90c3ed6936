import LedisDB.Rpl.Node

/-!
# Becoming a slave

A client's write looks at the read-only flag (`batch.Commit`) and then commits
(`handleCommit`); `startReplication` sets the flag, and after that the node fetches
the logs of its master and stores them. There is no lock that a writer holds over both
of its steps, so a write that has passed its check is still logged after the flag is
set, under an ID that the master gives to a log of its own. When no write is in
between at the switch, all logs after it are those of the master.
-/

namespace LedisDB.Rpl

open List

structure PendingWrite where
  now : UInt32
  seq : ℕ
  batch : Batch

/-- A node with its clients, and the logs of the server that becomes its master. `syncID` is the
ID that was asked for, `received` what is left of the answer. Since the switch: the last log ID
at that time and the logs that clients' writes have stored. -/
structure RoleSwitch (ι : Type*) where
  node : Ledis
  readonly : Bool
  writers : ι → Option PendingWrite
  master : List Log
  syncID : Option UInt64
  received : List Log
  switched : Option UInt64
  own : List Log

def replyTo (master : List Log) (logId : UInt64) (n : ℕ) : Option (List Log) :=
  if logId - 1 > lastID master ∨ logId < firstID master then none
  else some (((master.filter fun l => logId ≤ l.ID).take n).map Log.wire)

namespace RoleSwitch

inductive Action (ι : Type*)
  | check (i : ι) (w : PendingWrite)
  | commit (i : ι) (f : Faults)
  | SetReadonly
  | masterLog (l : Log)
  | nextSyncLogID
  | reply (n : ℕ)
  | StoreLog
  | apply (f : Faults)
  | fullSync (rb : Bytes)

variable {ι : Type*} [DecidableEq ι]

def check (σ : RoleSwitch ι) (i : ι) (w : PendingWrite) : RoleSwitch ι :=
  if σ.readonly then σ else { σ with writers := Function.update σ.writers i (some w) }

def commit (sn : Snappy) (σ : RoleSwitch ι) (i : ι) (f : Faults) (w : PendingWrite) :
    RoleSwitch ι :=
  let own := match σ.switched, (σ.node.r.Log sn w.now (BatchData.encode w.seq w.batch)).1 with
    | some _, .ok rl => σ.own ++ [rl]
    | _, _ => σ.own
  { σ with
    node := (σ.node.handleCommit sn f w.now w.seq w.batch).2
    writers := Function.update σ.writers i none
    own }

def SetReadonly (σ : RoleSwitch ι) : RoleSwitch ι :=
  { σ with readonly := true, switched := some (σ.switched.getD σ.node.r.LastLogID.1) }

def reply (σ : RoleSwitch ι) (id : UInt64) (n : ℕ) : RoleSwitch ι :=
  { σ with syncID := none, received := (replyTo σ.master id n).getD [] }

def StoreLog (σ : RoleSwitch ι) (l : Log) (rest : List Log) : RoleSwitch ι :=
  match σ.node.r.StoreLog l with
  | (.ok _, r) => { σ with node := { σ.node with r }, received := rest }
  | (.error _, r) => { σ with node := { σ.node with r }, received := [] }

def Step (sn : Snappy) (σ : RoleSwitch ι) : Action ι → RoleSwitch ι → Prop
  | .check i w, σ' => σ.writers i = none ∧ σ.check i w = σ'
  | .commit i f, σ' => ∃ w, σ.writers i = some w ∧ σ.commit sn i f w = σ'
  | .SetReadonly, σ' => σ.SetReadonly = σ'
  | .masterLog l, σ' => Takes σ.master l ∧ { σ with master := σ.master ++ [l] } = σ'
  | .nextSyncLogID, σ' => σ.switched ≠ none ∧ σ.received = [] ∧
      { σ with node := σ.node.nextSyncLogID.2, syncID := some σ.node.nextSyncLogID.1 } = σ'
  | .reply n, σ' => ∃ id, σ.syncID = some id ∧ σ.reply id n = σ'
  | .StoreLog, σ' => ∃ l rest, σ.received = l :: rest ∧ σ.StoreLog l rest = σ'
  | .apply f, σ' => { σ with node := (σ.node.pass sn f).2 } = σ'
  | .fullSync rb, σ' => σ.switched ≠ none ∧ σ.received = [] ∧
      { σ with node := (σ.node.LoadDump sn rb).2, syncID := none } = σ'

/-- No write is between its check and its commit when the flag is set; and there is a next log
ID when a write commits. -/
def Quiet (σ : RoleSwitch ι) : Action ι → Prop
  | .SetReadonly => ∀ i, σ.writers i = none
  | .commit _ _ => σ.node.r.commitID.toNat + 1 < 2 ^ 64
  | _ => True

/-- After the switch no client's write has stored a log, and every log after the switch point is
that of the master. -/
def FollowsMaster (σ : RoleSwitch ι) : Prop :=
  ∀ p, σ.switched = some p → σ.own = [] ∧
    ∀ id l, p < id → σ.node.r.GetLog id = .ok l → ∃ m ∈ σ.master, m.ID = id ∧ l = m.wire

def start (node : Ledis) (master : List Log) : RoleSwitch ι :=
  ⟨node, false, fun _ => none, master, none, [], none, []⟩

end RoleSwitch

section
variable {n : ℕ} {ls master xs : List Log} {id : UInt64} {l : Log}

theorem Numbered.le_lastID (h : Numbered n ls) (hl : l ∈ ls) : l.ID ≤ lastID ls := by
  have hne := ne_nil_of_mem hl
  have hnot := mt (h.out_of_range_iff hne l.ID).mp fun hall => hall l hl rfl
  rw [not_or] at hnot
  exact UInt64.not_lt.mp hnot.2

theorem Numbered.filter_le (h : Numbered n ls) (hn : n ≤ id.toNat) :
    Numbered id.toNat (ls.filter fun l => id ≤ l.ID) := by
  induction ls generalizing n with
  | nil => exact .nil
  | cons l ls ih =>
    obtain ⟨hid, hls⟩ := numbered_cons.mp h
    rcases Nat.lt_or_eq_of_le hn with hlt | rfl
    · have hnot : ¬ id ≤ l.ID := by
        rw [UInt64.le_iff_toNat_le]
        omega
      rw [filter_cons_of_neg (by simpa using hnot)]
      exact ih hls hlt
    · have hall : ∀ x ∈ l :: ls, decide (id ≤ x.ID) = true := by
        intro x hx
        rw [decide_eq_true_eq]
        exact ((h.mem_ids_iff x.ID).mp ⟨x, hx, rfl⟩).1
      rwa [filter_eq_self.mpr hall]

theorem Numbered.take (h : Numbered n ls) (k : ℕ) : Numbered n (ls.take k) :=
  (numbered_append.mp ((take_append_drop k ls).symm ▸ h)).1

theorem Numbered.map_wire (h : Numbered n ls) : Numbered n (ls.map Log.wire) := by
  unfold Numbered at h ⊢
  rwa [map_map, length_map]

theorem replyTo_spec (h : Contiguous master) {k : ℕ} (hreply : replyTo master id k = some xs) :
    (∀ x ∈ xs, ∃ m ∈ master, x = m.wire) ∧ (xs ≠ [] → id ≠ 0 ∧ Numbered id.toNat xs) := by
  unfold replyTo at hreply
  split_ifs at hreply with hout
  obtain rfl := Option.some.inj hreply
  rw [not_or] at hout
  refine ⟨fun x hx => ?_, fun hne => ?_⟩
  · obtain ⟨m, hm, rfl⟩ := mem_map.mp hx
    exact ⟨m, mem_of_mem_filter (mem_of_mem_take hm), rfl⟩
  · have hmaster : master ≠ [] := by
      rintro rfl
      simp at hne
    have hfirst := UInt64.not_lt.mp hout.2
    have hpos := h.positive hmaster
    rw [UInt64.le_iff_toNat_le] at hfirst
    refine ⟨?_, ((h.numbered.filter_le hfirst).take k).map_wire⟩
    rintro rfl
    rw [← UInt64.toNat_inj.ne, UInt64.toNat_zero] at hpos
    rw [UInt64.toNat_zero] at hfirst
    omega

end

namespace RoleSwitch

variable {ι : Type*} {sn : Snappy} {σ σ' : RoleSwitch ι} {ls master rest master' : List Log}
  {l : Log}

def Split (p : UInt64) (master ls : List Log) : Prop :=
  ∃ as bs, ls = as ++ bs ∧ (∀ l ∈ as, l.ID ≤ p) ∧ ∀ l ∈ bs, ∃ m ∈ master, l = m.wire

/-- The node holds the logs `ls`. Before the switch nothing is fetched; after it nothing is
written, and what is fetched continues the logs. -/
structure Inv (σ : RoleSwitch ι) (ls : List Log) : Prop where
  holds : σ.node.r.s.Holds ls
  bounded : σ.node.Bounded ls
  contiguous : Contiguous σ.master
  before : σ.switched = none → σ.readonly = false ∧ σ.syncID = none ∧ σ.received = []
  after : ∀ p, σ.switched = some p →
    σ.readonly = true ∧ (∀ i, σ.writers i = none) ∧ Split p σ.master ls
  own : σ.own = []
  asked : ∀ id, σ.syncID = some id → id = σ.node.nextID ls
  answer : σ.received ≠ [] →
    σ.syncID = none ∧ σ.node.nextID ls ≠ 0 ∧ Numbered (σ.node.nextID ls).toNat σ.received
  sent : ∀ l ∈ σ.received, ∃ m ∈ σ.master, l = m.wire

theorem Inv.start {node : Ledis} (h : node.r.s.Holds ls) (hb : node.Bounded ls)
    (hmaster : Contiguous master) :
    (start node master : RoleSwitch ι).Inv ls where
  holds := h
  bounded := hb
  contiguous := hmaster
  before := fun _ => ⟨rfl, rfl, rfl⟩
  after := nofun
  own := rfl
  asked := nofun
  answer := fun hne => absurd rfl hne
  sent := nofun

theorem Inv.followsMaster (h : σ.Inv ls) : σ.FollowsMaster := by
  intro p hp
  obtain ⟨-, -, as, bs, rfl, has, hbs⟩ := h.after p hp
  refine ⟨h.own, fun id l hlt hget => ?_⟩
  obtain ⟨x, hx, rfl, rfl⟩ := h.holds.GetLog_ok hget
  rcases mem_append.mp hx with hx | hx
  · exact absurd (has x hx) (UInt64.not_le.mpr hlt)
  · obtain ⟨m, hm, rfl⟩ := hbs x hx
    refine ⟨m, hm, rfl, ?_⟩
    rw [Log.wire_eq (Log.wire_length_lt m)]

theorem Inv.check [DecidableEq ι] (h : σ.Inv ls) (i : ι) (w : PendingWrite) :
    (σ.check i w).Inv ls := by
  unfold RoleSwitch.check
  split_ifs with hro
  · exact h
  · refine { h with after := fun p hp => ?_ }
    exact absurd (h.after p hp).1 hro

theorem Inv.commit [DecidableEq ι] (h : σ.Inv ls) {i : ι} {w : PendingWrite} (f : Faults)
    (hw : σ.writers i = some w) (hid : σ.node.r.commitID.toNat + 1 < 2 ^ 64) :
    ∃ ls', (σ.commit sn i f w).Inv ls' := by
  have hnone : σ.switched = none := by
    cases hp : σ.switched with
    | none => rfl
    | some p =>
      have := (h.after p hp).2.1 i
      rw [hw] at this
      cases this
  obtain ⟨hro, hsync, hrec⟩ := h.before hnone
  obtain ⟨ls', hs', hb', -⟩ :=
    Ledis.handleCommit_logs h.holds h.bounded hid sn f w.now w.seq w.batch
  refine ⟨ls', hs', hb', h.contiguous, fun _ => ⟨hro, hsync, hrec⟩, fun p hp => ?_, ?_,
    fun id hid' => ?_, fun hne => absurd hrec hne, h.sent⟩
  · rw [show (σ.commit sn i f w).switched = σ.switched from rfl, hnone] at hp
    cases hp
  · rw [RoleSwitch.commit, hnone]
    exact h.own
  · rw [show (σ.commit sn i f w).syncID = σ.syncID from rfl, hsync] at hid'
    cases hid'

theorem Inv.SetReadonly (h : σ.Inv ls) (hquiet : ∀ i, σ.writers i = none) :
    σ.SetReadonly.Inv ls := by
  refine { h with before := nofun, after := fun p hp => ⟨rfl, hquiet, ?_⟩ }
  cases hsw : σ.switched with
  | none =>
    rw [RoleSwitch.SetReadonly, hsw] at hp
    obtain rfl := Option.some.inj hp
    refine ⟨ls, [], (append_nil ls).symm, fun l hl => ?_, nofun⟩
    change l.ID ≤ σ.node.r.s.LastID.1
    rw [h.holds.LastID_eq.1]
    exact h.holds.contiguous.numbered.le_lastID hl
  | some q =>
    rw [RoleSwitch.SetReadonly, hsw] at hp
    obtain rfl := Option.some.inj hp
    exact (h.after q hsw).2.2

theorem Split.mono {p : UInt64} (h : Split p master ls) (hsub : master ⊆ master') :
    Split p master' ls := by
  obtain ⟨as, bs, hls, has, hbs⟩ := h
  refine ⟨as, bs, hls, has, fun l hl => ?_⟩
  obtain ⟨m, hm, heq⟩ := hbs l hl
  exact ⟨m, hsub hm, heq⟩

section
variable (h : σ.Inv ls)
include h

theorem Inv.masterLog (hl : Takes σ.master l) : Inv { σ with master := σ.master ++ [l] } ls := by
  have hsub : σ.master ⊆ σ.master ++ [l] := fun m hm => mem_append_left _ hm
  refine { h with contiguous := h.contiguous.append_singleton hl, after := fun p hp => ?_,
                  sent := fun x hx => ?_ }
  · obtain ⟨hro, hw, hsplit⟩ := h.after p hp
    exact ⟨hro, hw, hsplit.mono hsub⟩
  · obtain ⟨m, hm, heq⟩ := h.sent x hx
    exact ⟨m, hsub hm, heq⟩

theorem Inv.nextSyncLogID (hsw : σ.switched ≠ none) (hrec : σ.received = []) :
    Inv { σ with node := σ.node.nextSyncLogID.2, syncID := some σ.node.nextSyncLogID.1 } ls := by
  obtain ⟨s', hs', heq⟩ := Ledis.nextSyncLogID_eq h.holds h.bounded
  rw [heq]
  exact { h with
    holds := hs'
    before := fun hnone => absurd hnone hsw
    asked := fun id hid => (Option.some.inj hid).symm
    answer := fun hne => absurd hrec hne }

theorem Inv.reply {id : UInt64} (hid : σ.syncID = some id) (k : ℕ) : (σ.reply id k).Inv ls := by
  have hsw : σ.switched ≠ none := by
    intro hnone
    rw [(h.before hnone).2.1] at hid
    cases hid
  cases hreply : replyTo σ.master id k with
  | none =>
    rw [RoleSwitch.reply, hreply]
    exact { h with
      before := fun hnone => absurd hnone hsw
      asked := nofun
      answer := fun hne => absurd rfl hne
      sent := nofun }
  | some xs =>
    obtain ⟨hsent, hnum⟩ := replyTo_spec h.contiguous hreply
    rw [RoleSwitch.reply, hreply]
    refine { h with
      before := fun hnone => absurd hnone hsw
      asked := nofun
      answer := fun hne => ?_
      sent := hsent }
    have := hnum hne
    rw [h.asked id hid] at this
    exact ⟨rfl, this⟩

theorem Inv.StoreLog (hrec : σ.received = l :: rest) : ∃ ls', (σ.StoreLog l rest).Inv ls' := by
  have hne : σ.received ≠ [] := by rw [hrec]; simp
  have hsw := fun hnone => hne (h.before hnone).2.2
  obtain ⟨hsync, h0, hnum⟩ := h.answer hne
  rw [hrec] at hnum
  obtain ⟨hlid, hrest⟩ := numbered_cons.mp hnum
  have hid := UInt64.toNat_inj.mp hlid
  have hl0 := hid ▸ h0
  obtain ⟨m, hm, hlm⟩ := h.sent l (by rw [hrec]; exact (.head _))
  obtain ⟨s', res, hstore, ⟨rfl, hs', hle⟩ | ⟨herr, hs'⟩⟩ :=
    Ledis.StoreLog_cases h.holds h.bounded hid hl0
  · rw [RoleSwitch.StoreLog, hstore]
    refine ⟨ls ++ [l], hs', fun _ => ?_, h.contiguous, fun hnone => absurd hnone hsw,
      fun p hp => ?_, h.own, fun id hid' => ?_, fun hne' => ?_, fun x hx => ?_⟩
    · rwa [lastID_append_singleton]
    · obtain ⟨hro, hw, as, bs, rfl, has, hbs⟩ := h.after p hp
      refine ⟨hro, hw, as, bs ++ [l], append_assoc _ _ _, has, fun x hx => ?_⟩
      rcases mem_append.mp hx with hx | hx
      · exact hbs x hx
      · rw [mem_singleton.mp hx]
        exact ⟨m, hm, hlm⟩
    · rw [show σ.syncID = none from hsync] at hid'
      cases hid'
    · have hnext : Ledis.nextID ⟨σ.node.ldb, { σ.node.r with s := s' }⟩ (ls ++ [l]) = l.ID + 1 := by
        rw [Ledis.nextID, if_neg (by simp), lastID_append_singleton]
      have hnat : (l.ID + 1).toNat = l.ID.toNat + 1 := by
        obtain ⟨x, xs, rfl⟩ := exists_cons_of_ne_nil hne'
        have hx := (numbered_cons.mp hrest).1
        have hlt := x.ID.toNat_lt
        rw [hx, ← hlid] at hlt
        exact Replication.next_toNat hlt
      refine ⟨hsync, ?_, ?_⟩
      · rw [hnext, ← UInt64.toNat_inj.ne, hnat]
        exact Nat.succ_ne_zero _
      · rwa [hnext, hnat, hlid]
    · exact h.sent x (by rw [hrec]; exact .tail _ hx)
  · have heq : σ.StoreLog l rest =
        { σ with node := ⟨σ.node.ldb, { σ.node.r with s := s' }⟩, received := [] } := by
      rw [RoleSwitch.StoreLog, hstore]
      cases res with
      | ok _ => exact absurd rfl herr
      | error e => rfl
    rw [heq]
    exact ⟨ls, { h with
      holds := hs'
      before := fun hnone => absurd hnone hsw
      answer := fun hne' => absurd rfl hne'
      sent := fun _ hx => absurd hx not_mem_nil }⟩

theorem Inv.apply (f : Faults) : Inv { σ with node := (σ.node.pass sn f).2 } ls := by
  obtain ⟨hs', hb'⟩ := Ledis.pass_logs h.holds h.bounded sn f
  have hnext := Ledis.pass_nextID h.holds sn f
  exact { h with
    holds := hs'
    bounded := hb'
    asked := fun id hid => (h.asked id hid).trans hnext.symm
    answer := fun hne => by rw [hnext]; exact h.answer hne }

theorem Inv.fullSync (hsw : σ.switched ≠ none) (hrec : σ.received = [])
    (rb : Bytes) : Inv { σ with node := (σ.node.LoadDump sn rb).2, syncID := none } [] := by
  refine { h with
    holds := ?_
    bounded := fun hne => absurd rfl hne
    before := fun hnone => absurd hnone hsw
    after := fun p hp => ?_
    asked := nofun
    answer := fun hne => absurd hrec hne }
  · rw [Ledis.LoadDump_store]
    exact h.holds.clear
  · obtain ⟨hro, hw, -⟩ := h.after p hp
    exact ⟨hro, hw, [], [], rfl, nofun, nofun⟩

end

theorem Inv.step [DecidableEq ι] {c : Action ι} (h : ∃ ls, σ.Inv ls) (hquiet : σ.Quiet c)
    (hstep : σ.Step sn c σ') : ∃ ls, σ'.Inv ls := by
  obtain ⟨ls, h⟩ := h
  cases c with
  | check i w =>
    obtain ⟨-, rfl⟩ := hstep
    exact ⟨ls, h.check i w⟩
  | commit i f =>
    obtain ⟨w, hw, rfl⟩ := hstep
    exact h.commit f hw hquiet
  | SetReadonly =>
    obtain rfl := hstep
    exact ⟨ls, h.SetReadonly hquiet⟩
  | masterLog l =>
    obtain ⟨hl, rfl⟩ := hstep
    exact ⟨ls, h.masterLog hl⟩
  | nextSyncLogID =>
    obtain ⟨hsw, hrec, rfl⟩ := hstep
    exact ⟨ls, h.nextSyncLogID hsw hrec⟩
  | reply n =>
    obtain ⟨id, hid, rfl⟩ := hstep
    exact ⟨ls, h.reply hid n⟩
  | StoreLog =>
    obtain ⟨l, rest, hrec, rfl⟩ := hstep
    exact h.StoreLog hrec
  | apply f =>
    obtain rfl := hstep
    exact ⟨ls, h.apply f⟩
  | fullSync rb =>
    obtain ⟨hsw, hrec, rfl⟩ := hstep
    exact ⟨[], h.fullSync hsw hrec rb⟩

/-- When no write is between its check and its commit at the switch, every log after the switch
point is that of the master. -/
theorem slave_log_from_master [DecidableEq ι] {cfg : Config} {files : LogFiles} {r₀ r : Replication}
    {ldb : Store} {master : List Log} (hfiles : files = .file .empty ∨ files = .level .empty)
    (hnew : NewReplication cfg files none = .ok r₀)
    (hr : Reaches (Replication.MasterStep sn) (Replication.Fits sn) r₀ r)
    (hmaster : Contiguous master)
    (hrun : Reaches (Step sn) Quiet (start ⟨ldb, r⟩ master : RoleSwitch ι) σ) :
    σ.FollowsMaster := by
  have hinv := hr.invariant (Replication.new_masterInv hfiles hnew) fun _ _ _ h hc hstep =>
    h.step hc hstep
  obtain ⟨ls, hs, hlast, -⟩ := hinv
  have hb := fun hne => UInt64.le_of_eq (hlast hne).symm
  obtain ⟨ls', h'⟩ := hrun.invariant ⟨ls, Inv.start hs hb hmaster⟩ fun _ _ _ h hc hstep =>
    Inv.step h hc hstep
  exact h'.followsMaster

def fresh : Ledis :=
  ⟨.empty, ⟨⟨false, 0, 0, false⟩,
    .file ⟨.empty, [], newTableWriter 1 (logFileSize 0) false, logFileSize 0, false⟩, 0, none⟩⟩

def plain : Snappy := ⟨id, .ok, fun _ => rfl⟩

theorem slave_log_from_master_fetched :
    ∃ σ : RoleSwitch Unit, Reaches (Step plain) Quiet
        (start fresh [⟨1, 0, 0, [8]⟩, ⟨2, 0, 0, [9]⟩]) σ ∧
      σ.switched = some 1 ∧ σ.node.r.GetLog 2 = .ok ⟨2, 0, 0, [9]⟩ ∧ σ.FollowsMaster := by
  have hrun : Reaches (Step plain) Quiet (start fresh [⟨1, 0, 0, [8]⟩, ⟨2, 0, 0, [9]⟩]) _ :=
    .step (c := .StoreLog)
      (.step (c := .reply 5)
        (.step (c := .nextSyncLogID)
          (.step (c := .SetReadonly)
            (.step (c := .commit () .none)
              (.step (c := .check () ⟨7, 0, [.put [1] [2]]⟩) .refl trivial ⟨rfl, rfl⟩)
              (show 0 + 1 < 2 ^ 64 by norm_num) ⟨_, rfl, rfl⟩)
            (fun _ => rfl) rfl)
          trivial ⟨nofun, rfl, rfl⟩)
        trivial ⟨2, rfl, rfl⟩)
      trivial ⟨_, _, rfl, rfl⟩
  have hnew : NewReplication ⟨false, 0, 0, false⟩ (.file .empty) none = .ok fresh.r := rfl
  exact ⟨_, hrun, rfl, rfl, slave_log_from_master (.inl rfl) hnew .refl ⟨by decide, by decide⟩ hrun⟩

theorem late_write_logged :
    ∃ σ : RoleSwitch Unit, Reaches (Step plain) (fun _ _ => True) (start fresh [⟨1, 0, 0, [8]⟩]) σ ∧
      σ.switched = some 0 ∧ σ.own ≠ [] ∧
      (∃ l, σ.node.r.GetLog 1 = .ok l ∧ l ≠ ⟨1, 0, 0, [8]⟩) ∧ ¬ σ.FollowsMaster := by
  have hrun : Reaches (Step plain) (fun _ _ => True) (start fresh [⟨1, 0, 0, [8]⟩]) _ :=
    .step (c := .commit () .none)
      (.step (c := .SetReadonly)
        (.step (c := .check () ⟨7, 0, [.put [1] [2]]⟩) .refl trivial ⟨rfl, rfl⟩)
        trivial rfl)
      trivial ⟨_, rfl, rfl⟩
  refine ⟨_, hrun, rfl, by decide, ⟨_, rfl, by decide⟩, fun h => ?_⟩
  exact absurd (h 0 rfl).1 (by decide)

end RoleSwitch

end LedisDB.Rpl
