import Mathlib.Data.Finset.Card
import LedisDB.OrderedMap
import LedisDB.Simulation

/-!
# Waiting for the acknowledgements of slaves

`publishNewLog`, `slaveAck` and `removeSlave` of `server/replication.go`. A slave that
asks for the log after the last one, or that disconnects, sends the last ID it has on
a channel that all slaves share; the message is dropped when nobody receives. After a
log is stored, `publishNewLog` waits until enough messages have an ID from that of the
log on, or until it has received as many messages as there were slaves. It counts
messages, so two of them may come from one slave. Where each one received is the first
from a slave that was there at the start, enough slaves have the log or all of them
have answered.
-/

namespace LedisDB.Rpl

structure Conn (α : Type*) where
  slaveListeningAddr : α
  lastLogID : UInt64

/-- A call of `publishNewLog`. Besides its variables: the slaves at the start, the senders of
the messages it received, the slaves that have told an ID from `logId` on, and those that
have disconnected. -/
structure Wait (α : Type*) where
  logId : UInt64
  total : ℕ
  slaveNum : ℕ
  i : ℕ
  n : ℕ
  start : Finset α
  received : Finset α
  reported : Finset α
  left : Finset α

/-- The server: `wait` is the call in progress, `returned` the last one, if it returned before
its timeout. -/
structure App (κ α : Type*) [LinearOrder α] where
  waitMaxSlaveAcks : ℤ
  conns : κ → Conn α
  slaves : OrderedMap α κ
  lastID : UInt64
  wait : Option (Wait α)
  returned : Option (Wait α)

namespace Wait

variable {α : Type*} [LinearOrder α]

def report (w : Wait α) (a : α) (id : UInt64) : Wait α :=
  { w with reported := if w.logId ≤ id then insert a w.reported else w.reported }

def leave (w : Wait α) (a : α) : Wait α := { w with left := insert a w.left }

def receive (w : Wait α) (a : α) (id : UInt64) : Wait α :=
  { w with
    i := w.i + 1
    n := if id < w.logId then w.n else w.n + 1
    received := insert a w.received }

def Done (w : Wait α) : Prop := w.total ≤ w.n ∨ w.slaveNum ≤ w.i

instance (w : Wait α) : Decidable w.Done := inferInstanceAs (Decidable (_ ∨ _))

/-- Enough slaves have the log, or each slave of the start has told so or has left. -/
def Enough (w : Wait α) : Prop :=
  w.total ≤ w.reported.card ∨ w.start ⊆ w.reported ∪ w.left

end Wait

def totalAcks (slaveNum : ℕ) (waitMaxSlaveAcks : ℤ) : ℕ :=
  let total := (slaveNum + 1) / 2
  if waitMaxSlaveAcks > 0 then min total waitMaxSlaveAcks.toNat else total

namespace App

variable {κ α : Type*} [LinearOrder α]

inductive Action (κ α : Type*)
  | addSlave (c : κ) (addr : α)
  | removeSlave (c : κ) (delivered : Bool)
  | sync (c : κ) (logId last : UInt64) (delivered : Bool)
  | publishNewLog (logId : UInt64)
  | timeout

/-- `asyncNotifyUint64`: the message may find nobody who receives. -/
def notify (σ : App κ α) (a : α) (id : UInt64) (delivered : Bool) : App κ α :=
  match σ.wait with
  | none => σ
  | some w =>
    if delivered then
      if (w.receive a id).Done then { σ with wait := none, returned := some (w.receive a id) }
      else { σ with wait := some (w.receive a id) }
    else σ

def addSlave [DecidableEq κ] (σ : App κ α) (c : κ) (addr : α) : App κ α :=
  { σ with
    conns := Function.update σ.conns c { σ.conns c with slaveListeningAddr := addr }
    slaves := σ.slaves.insert addr c }

def Attached (σ : App κ α) (c : κ) : Prop :=
  (σ.slaves.get (σ.conns c).slaveListeningAddr).isSome

instance (σ : App κ α) (c : κ) : Decidable (σ.Attached c) := inferInstanceAs (Decidable (_ = _))

def removeSlave (σ : App κ α) (c : κ) (delivered : Bool) : App κ α :=
  let a := (σ.conns c).slaveListeningAddr
  let id := (σ.conns c).lastLogID
  if σ.Attached c then
    notify { σ with
      slaves := σ.slaves.erase a
      wait := σ.wait.map fun w => (w.report a id).leave a } a id delivered
  else σ

/-- `syncCommand` up to the acknowledgement, where `last` is the last log ID it has read. -/
def sync [DecidableEq κ] (σ : App κ α) (c : κ) (logId last : UInt64) (delivered : Bool) : App κ α :=
  let a := (σ.conns c).slaveListeningAddr
  let lastLogID := logId - 1
  if lastLogID > last then σ
  else
    let conns := Function.update σ.conns c { σ.conns c with lastLogID }
    if σ.Attached c then
      let σ := { σ with conns, wait := σ.wait.map fun w => w.report a lastLogID }
      if lastLogID = last then σ.notify a lastLogID delivered else σ
    else { σ with conns }

def slavesWith (σ : App κ α) (p : UInt64 → Bool) : List α :=
  (σ.slaves.entries.filter fun e => p (σ.conns e.2).lastLogID).map Prod.fst

def startWait (σ : App κ α) (logId : UInt64) : Wait α where
  logId
  total := totalAcks σ.slaves.keys.length σ.waitMaxSlaveAcks
  slaveNum := σ.slaves.keys.length
  i := 0
  n := 0
  start := σ.slaves.keys.toFinset
  received := ∅
  reported := (σ.slavesWith fun id => logId ≤ id).toFinset
  left := ∅

/-- The log was stored before; slaves that have exactly this ID are counted first. -/
def publishNewLog (σ : App κ α) (logId : UInt64) : App κ α :=
  let w := σ.startWait logId
  if w.total ≤ (σ.slavesWith fun id => id = logId).length then
    { σ with lastID := logId, returned := some w }
  else { σ with lastID := logId, wait := some w, returned := none }

def Step [DecidableEq κ] (σ : App κ α) : Action κ α → App κ α → Prop
  | .addSlave c addr, σ' => σ.addSlave c addr = σ'
  | .removeSlave c delivered, σ' => σ.removeSlave c delivered = σ'
  | .sync c logId last delivered, σ' => last ≤ σ.lastID ∧ σ.sync c logId last delivered = σ'
  | .publishNewLog logId, σ' => σ.wait = none ∧ σ.publishNewLog logId = σ'
  | .timeout, σ' => { σ with wait := none } = σ'

/-- A message that is received is the first from a slave that was there at the start, and has
an ID before that of the log only if the slave disconnects. -/
def FirstAnswer (σ : App κ α) : Action κ α → Prop
  | .removeSlave c true => ∀ w, σ.wait = some w → σ.Attached c →
      (σ.conns c).slaveListeningAddr ∈ w.start ∧ (σ.conns c).slaveListeningAddr ∉ w.received
  | .sync c logId last true => ∀ w, σ.wait = some w → σ.Attached c → logId - 1 = last →
      (σ.conns c).slaveListeningAddr ∈ w.start ∧ (σ.conns c).slaveListeningAddr ∉ w.received ∧
        w.logId ≤ last
  | _ => True

end App

namespace Wait

variable {α : Type*} [LinearOrder α] {w : Wait α} {a : α} {id : UInt64}

structure Inv (w : Wait α) : Prop where
  card_start : w.start.card = w.slaveNum
  received_subset : w.received ⊆ w.start
  card_received : w.received.card = w.i
  counted : w.n ≤ (w.received ∩ w.reported).card
  answered : w.received ⊆ w.reported ∪ w.left

theorem mem_report (w : Wait α) (a : α) (h : w.logId ≤ id) : a ∈ (w.report a id).reported := by
  rw [report, if_pos h]
  exact Finset.mem_insert_self a _

theorem Inv.report (h : w.Inv) (a : α) (id : UInt64) : (w.report a id).Inv := by
  have hsub : w.reported ⊆ (w.report a id).reported := by
    unfold Wait.report
    split_ifs
    · exact Finset.subset_insert a _
    · exact Finset.Subset.refl _
  refine ⟨h.card_start, h.received_subset, h.card_received, ?_, ?_⟩
  · exact h.counted.trans (Finset.card_le_card (Finset.inter_subset_inter_left hsub))
  · exact h.answered.trans (Finset.union_subset_union_left hsub)

theorem Inv.leave (h : w.Inv) (a : α) : (w.leave a).Inv :=
  ⟨h.card_start, h.received_subset, h.card_received, h.counted,
    h.answered.trans (Finset.union_subset_union_right (Finset.subset_insert a _))⟩

theorem Inv.receive (h : w.Inv) (hstart : a ∈ w.start) (hnew : a ∉ w.received)
    (hreported : ¬ id < w.logId → a ∈ w.reported) (hanswer : a ∈ w.reported ∪ w.left) :
    (w.receive a id).Inv where
  card_start := h.card_start
  received_subset := Finset.insert_subset hstart h.received_subset
  card_received := by
    change (insert a w.received).card = w.i + 1
    rw [Finset.card_insert_of_notMem hnew, h.card_received]
  counted := by
    change (if id < w.logId then w.n else w.n + 1) ≤ (insert a w.received ∩ w.reported).card
    split_ifs with hid
    · exact h.counted.trans (Finset.card_le_card
        (Finset.inter_subset_inter_right (Finset.subset_insert a _)))
    · rw [Finset.insert_inter_of_mem (hreported hid), Finset.card_insert_of_notMem]
      · exact Nat.succ_le_succ h.counted
      · exact fun hmem => hnew (Finset.mem_of_mem_inter_left hmem)
  answered := Finset.insert_subset hanswer h.answered

theorem Inv.enough (h : w.Inv) (hdone : w.Done) : w.Enough := by
  rcases hdone with htotal | hall
  · exact .inl (htotal.trans (h.counted.trans (Finset.card_le_card Finset.inter_subset_right)))
  · have heq := Finset.eq_of_subset_of_card_le h.received_subset
        (by rw [h.card_start, h.card_received]; exact hall)
    exact .inr (heq ▸ h.answered)

end Wait

namespace App

variable {κ α : Type*} [LinearOrder α] {σ σ' : App κ α} {a : α} {id logId last : UInt64} {c : κ}
  {delivered : Bool}

structure Inv (σ : App κ α) : Prop where
  wait : ∀ w, σ.wait = some w → w.Inv
  returned : ∀ w, σ.returned = some w → w.Enough

theorem Inv.notify (h : σ.Inv)
    (hanswer : delivered = true → ∀ w, σ.wait = some w → (w.receive a id).Inv) :
    (σ.notify a id delivered).Inv := by
  unfold App.notify
  cases hw : σ.wait with
  | none => exact h
  | some w =>
    cases delivered with
    | false => exact h
    | true =>
      have hinv := hanswer rfl w hw
      dsimp only
      rw [if_pos rfl]
      split_ifs with hdone
      · refine ⟨nofun, fun w' hw' => ?_⟩
        cases hw'
        exact hinv.enough hdone
      · refine ⟨fun w' hw' => ?_, h.returned⟩
        cases hw'
        exact hinv

theorem Inv.map (h : σ.Inv) {f : Wait α → Wait α} (hf : ∀ w, w.Inv → (f w).Inv)
    (conns : κ → Conn α) (slaves : OrderedMap α κ) :
    Inv { σ with conns, slaves, wait := σ.wait.map f } := by
  refine ⟨fun w hw => ?_, h.returned⟩
  obtain ⟨v, hv, rfl⟩ := Option.map_eq_some_iff.mp hw
  exact hf v (h.wait v hv)

theorem Inv.removeSlave (h : σ.Inv) (hfirst : σ.FirstAnswer (.removeSlave c delivered)) :
    (σ.removeSlave c delivered).Inv := by
  unfold App.removeSlave
  split_ifs with hatt
  · refine (h.map (fun w hw => (hw.report _ _).leave _) σ.conns _).notify fun hd w hw => ?_
    obtain ⟨v, hv, rfl⟩ := Option.map_eq_some_iff.mp hw
    cases hd
    obtain ⟨hstart, hnew⟩ := hfirst v hv hatt
    refine (((h.wait v hv).report _ _).leave _).receive hstart hnew (fun hid => ?_) ?_
    · exact v.mem_report _ (UInt64.not_lt.mp hid)
    · exact Finset.mem_union_right _ (Finset.mem_insert_self _ _)
  · exact h

theorem Inv.sync [DecidableEq κ] (h : σ.Inv)
    (hfirst : σ.FirstAnswer (.sync c logId last delivered)) :
    (σ.sync c logId last delivered).Inv := by
  unfold App.sync
  dsimp only
  split_ifs with hlast hatt hack
  · exact h
  · refine (h.map (fun w hw => hw.report _ _) _ σ.slaves).notify fun hd w hw => ?_
    obtain ⟨v, hv, rfl⟩ := Option.map_eq_some_iff.mp hw
    cases hd
    obtain ⟨hstart, hnew, hid⟩ := hfirst v hv hatt hack
    have hmem : (σ.conns c).slaveListeningAddr ∈
        (v.report (σ.conns c).slaveListeningAddr (logId - 1)).reported :=
      v.mem_report _ (hack ▸ hid)
    exact ((h.wait v hv).report _ _).receive hstart hnew (fun _ => hmem)
      (Finset.mem_union_left _ hmem)
  · exact h.map (fun w hw => hw.report _ _) _ σ.slaves
  · exact ⟨h.wait, h.returned⟩

theorem slavesWith_nodup (σ : App κ α) (p : UInt64 → Bool) : (σ.slavesWith p).Nodup :=
  (List.filter_sublist.map Prod.fst).nodup σ.slaves.keys_nodup

theorem startWait_inv (σ : App κ α) (logId : UInt64) : (σ.startWait logId).Inv where
  card_start := List.toFinset_card_of_nodup σ.slaves.keys_nodup
  received_subset := Finset.empty_subset _
  card_received := rfl
  counted := Nat.zero_le _
  answered := Finset.empty_subset _

theorem startWait_enough
    (h : (σ.startWait logId).total ≤ (σ.slavesWith fun id => id = logId).length) :
    (σ.startWait logId).Enough := by
  refine .inl (h.trans ?_)
  change _ ≤ (σ.slavesWith fun id => logId ≤ id).toFinset.card
  rw [List.toFinset_card_of_nodup (σ.slavesWith_nodup _)]
  unfold slavesWith
  rw [List.length_map, List.length_map]
  refine (List.monotone_filter_right _ fun e he => ?_).length_le
  rw [decide_eq_true_eq] at he ⊢
  exact UInt64.le_of_eq he.symm

theorem Inv.publishNewLog (h : σ.Inv) (logId : UInt64) : (σ.publishNewLog logId).Inv := by
  unfold App.publishNewLog
  dsimp only
  split_ifs with htotal
  · refine ⟨fun w hw => h.wait w hw, fun w hw => ?_⟩
    cases hw
    exact startWait_enough htotal
  · refine ⟨fun w hw => ?_, nofun⟩
    cases hw
    exact startWait_inv σ logId

theorem Inv.step [DecidableEq κ] {x : Action κ α} (h : σ.Inv) (hfirst : σ.FirstAnswer x)
    (hstep : σ.Step x σ') : σ'.Inv := by
  cases x with
  | addSlave c addr =>
    obtain rfl := hstep
    exact ⟨h.wait, h.returned⟩
  | removeSlave c delivered =>
    obtain rfl := hstep
    exact h.removeSlave hfirst
  | sync c logId last delivered =>
    obtain ⟨-, rfl⟩ := hstep
    exact h.sync hfirst
  | publishNewLog logId =>
    obtain ⟨-, rfl⟩ := hstep
    exact h.publishNewLog logId
  | timeout =>
    obtain rfl := hstep
    exact ⟨nofun, h.returned⟩

/-- Where every message that is received is the first answer of a slave, a call of
`publishNewLog` that returns before its timeout has waited for enough slaves. -/
theorem publish_waits_for_slaves [DecidableEq κ] {σ₀ : App κ α} {w : Wait α}
    (hwait : σ₀.wait = none) (hreturned : σ₀.returned = none)
    (hrun : Reaches Step FirstAnswer σ₀ σ) (hret : σ.returned = some w) : w.Enough := by
  have h₀ : σ₀.Inv := ⟨by simp [hwait], by simp [hreturned]⟩
  have hinv := hrun.invariant h₀ fun _ _ _ h hfirst hstep => h.step hfirst hstep
  exact hinv.returned w hret

def three : App ℕ ℕ where
  waitMaxSlaveAcks := 2
  conns c := ⟨c, 0⟩
  slaves := ((OrderedMap.empty.insert 0 0).insert 1 1).insert 2 2
  lastID := 0
  wait := none
  returned := none

theorem publish_waits_for_two :
    ∃ w, (((three.publishNewLog 1).sync 0 2 1 true).sync 1 2 1 true).returned = some w ∧ w.Enough :=
  ⟨_, rfl, @publish_waits_for_slaves ℕ ℕ _
    (((three.publishNewLog 1).sync 0 2 1 true).sync 1 2 1 true) _ three _ rfl rfl
    (.step (c := .sync 1 2 1 true)
      (.step (c := .sync 0 2 1 true)
        (.step (c := .publishNewLog 1) .refl trivial ⟨rfl, rfl⟩)
        (by rintro w ⟨⟩ - -; decide) ⟨by decide, rfl⟩)
      (by rintro w ⟨⟩ - -; decide) ⟨by decide, rfl⟩) rfl⟩

theorem one_slave_counted_twice :
    ∃ σ : App ℕ ℕ, Reaches Step (fun _ _ => True) three σ ∧
      ∃ w, σ.returned = some w ∧ w.total = 2 ∧ w.start = {0, 1, 2} ∧ w.reported = {0} ∧
        w.left = {0} ∧ ¬ w.Enough :=
  ⟨((three.publishNewLog 1).sync 0 2 1 true).removeSlave 0 true,
    .step (c := .removeSlave 0 true)
      (.step (c := .sync 0 2 1 true)
        (.step (c := .publishNewLog 1) .refl trivial ⟨rfl, rfl⟩) trivial ⟨by decide, rfl⟩)
      trivial rfl,
    _, rfl, rfl, by decide, by decide, by decide, by rintro (h | h) <;> revert h <;> decide⟩

end App

end LedisDB.Rpl
