import LedisDB.Simulation
import LedisDB.Rpl.TableContents

/-!
# Syncing the data files

The sync mode of `rpl/file_table.go` is a field of the table writer: `NewFileStore`
sets it from the configuration, and with mode 2 `storeLog` syncs the data file
before it returns. The writer that `Clear` creates keeps the zero value, so its logs
are acknowledged without a sync until the store is opened again.
-/

namespace LedisDB.Rpl

theorem WriteFile.Write_written (f : WriteFile) (b : Bytes) :
    ∃ a, (f.Write b).Written (a ++ b) := by
  refine ⟨truncate (if f.mmap then grow f.content f.offset b else f.content)
    f.offset, ?_, List.prefix_append _ _⟩
  simp only [Write, truncate, List.length_append, List.length_take, List.length_replicate]
  omega

theorem WriteFile.readAt_written (f : WriteFile) (l : Log) {g : WriteFile}
    (hg : (f.Write l.head).Write l.Data = g) :
    readAt g.content (g.offset - l.Size) l.Size = l.Encode := by
  obtain ⟨a, ha⟩ := f.Write_written l.head
  obtain ⟨hoffset, rest, hcontent⟩ := ha.Write l.Data
  rw [hg] at hoffset hcontent
  have hpos : g.offset - l.Size = a.length := by
    rw [hoffset]
    simp only [List.length_append, Log.head_length, Log.Size]
    omega
  rw [hpos, ← hcontent, List.append_assoc a, List.append_assoc a, readAt, List.drop_left]
  change ((l.Encode ++ rest).take l.Size) = _
  rw [← Log.Encode_length, List.take_left]

theorem TableWriter.storeLog_data {files : TableFiles} {t t' : TableWriter} {l : Log}
    (h : t.storeLog files l = .ok t') :
    ∃ f : WriteFile, t'.data = some ((f.Write l.head).Write l.Data) := by
  unfold storeLog at h
  split_ifs at h
  all_goals
    obtain ⟨⟨data, metaFile⟩, -, h⟩ := Err.bind_ok_iff.mp h
    cases h
    exact ⟨data, rfl⟩

theorem FileStore.storeLog_data {s s' : FileStore} {l : Log} (h : s.storeLog l = (.ok (), s')) :
    ∃ f : WriteFile, s'.w.data = some ((f.Write l.head).Write l.Data) := by
  unfold storeLog at h
  split at h
  · rename_i w hw
    cases h
    exact TableWriter.storeLog_data hw
  · split at h
    · cases h
    · dsimp only at h
      split at h
      · rename_i w hw
        cases h
        exact TableWriter.storeLog_data hw
      · cases h
  · cases h

/-- A file store with the sync mode of its configuration and of its writer; `synced` is
the content of the writer's data file at the last sync of it, if there was one. -/
structure SyncedStore where
  s : FileStore
  syncLog : ℕ
  syncType : ℕ
  synced : Option Bytes

namespace SyncedStore

def NewFileStore (syncLog : ℕ) (cfg : ℤ) (useMmap : Bool) (dir : Dir) : Except Err SyncedStore := do
  let s ← FileStore.new cfg useMmap dir
  .ok ⟨s, syncLog, syncLog, none⟩

def StoreLog (σ : SyncedStore) (l : Log) : Except Err Unit × SyncedStore :=
  match σ.s.storeLog l with
  | (.ok _, s) =>
    let synced :=
      if σ.syncType = 2 then s.w.data.map WriteFile.content
      -- after a flush the writer has a new data file
      else if s.w.index = σ.s.w.index then σ.synced else none
    (.ok (), { σ with s, synced })
  | (.error e, s) =>
    (.error e, { σ with s, synced := if s.w.index = σ.s.w.index then σ.synced else none })

def Clear (σ : SyncedStore) : SyncedStore :=
  { σ with s := σ.s.Clear, syncType := 0, synced := none }

def Covers (σ : SyncedStore) (l : Log) : Prop :=
  ∃ data content, σ.s.w.data = some data ∧ σ.synced = some content ∧
    readAt content (data.offset - l.Size) l.Size = l.Encode

variable {σ σ' : SyncedStore} {l : Log} {cfg : ℤ} {useMmap : Bool} {dir : Dir}

theorem covers_iff (hnone : σ.syncType ≠ 2 → σ.synced = none) (h : σ.StoreLog l = (.ok (), σ')) :
    σ'.Covers l ↔ σ.syncType = 2 := by
  unfold StoreLog at h
  rcases hstore : σ.s.storeLog l with ⟨_ | _, s⟩
  · rw [hstore] at h
    cases h
  · rw [hstore] at h
    cases h
    by_cases htype : σ.syncType = 2
    · obtain ⟨f, hf⟩ := FileStore.storeLog_data hstore
      simp only [Covers, htype, iff_true, hf]
      exact ⟨_, _, rfl, rfl, f.readAt_written l rfl⟩
    · simp only [htype, iff_false, hnone htype, ite_self]
      rintro ⟨_, _, _, hsome, _⟩
      cases hsome

inductive Call
  | StoreLog (l : Log)
  | Clear
  | PurgeExpired (t : UInt32)
  | purgeExcess (maxNum : ℕ)
  | Reopen (cfg : ℤ) (useMmap : Bool)

structure Session where
  store : SyncedStore
  cleared : Bool

def Session.Step (σ : Session) : Call → Session → Prop
  | .StoreLog l, σ' => ⟨(σ.store.StoreLog l).2, σ.cleared⟩ = σ'
  | .Clear, σ' => ⟨σ.store.Clear, true⟩ = σ'
  | .PurgeExpired t, σ' => ⟨{ σ.store with s := σ.store.s.PurgeExpired t }, σ.cleared⟩ = σ'
  | .purgeExcess maxNum, σ' => ⟨{ σ.store with s := σ.store.s.purgeExcess maxNum }, σ.cleared⟩ = σ'
  | .Reopen cfg useMmap, σ' =>
    ∃ s, NewFileStore σ.store.syncLog cfg useMmap σ.store.s.Close = .ok s ∧ ⟨s, false⟩ = σ'

structure Session.Inv (σ : Session) : Prop where
  syncLog_eq : σ.store.syncLog = 2
  syncType_eq : σ.store.syncType = if σ.cleared then 0 else 2
  synced_eq : σ.cleared = true → σ.store.synced = none

theorem NewFileStore_ok {syncLog : ℕ} (h : NewFileStore syncLog cfg useMmap dir = .ok σ) :
    σ.syncLog = syncLog ∧ σ.syncType = syncLog ∧ σ.synced = none := by
  obtain ⟨s, -, h⟩ := Err.bind_ok_iff.mp h
  cases h
  exact ⟨rfl, rfl, rfl⟩

theorem Session.Inv.new (h : NewFileStore 2 cfg useMmap dir = .ok σ) : Session.Inv ⟨σ, false⟩ := by
  obtain ⟨hlog, htype, -⟩ := NewFileStore_ok h
  exact ⟨hlog, htype, nofun⟩

theorem StoreLog_keeps (σ : SyncedStore) (l : Log) :
    (σ.StoreLog l).2.syncLog = σ.syncLog ∧ (σ.StoreLog l).2.syncType = σ.syncType ∧
      (σ.syncType ≠ 2 → σ.synced = none → (σ.StoreLog l).2.synced = none) := by
  unfold StoreLog
  split
  · exact ⟨rfl, rfl, fun htype hnone => by simp [htype, hnone]⟩
  · exact ⟨rfl, rfl, fun _ hnone => by simp [hnone]⟩

theorem Session.Inv.step {σ σ' : Session} {c : Call} (h : σ.Inv) (hstep : σ.Step c σ') :
    σ'.Inv := by
  cases c with
  | StoreLog l =>
    obtain rfl := hstep
    obtain ⟨hlog, htype, hsynced⟩ := StoreLog_keeps σ.store l
    refine ⟨hlog.trans h.syncLog_eq, htype.trans h.syncType_eq, fun hcleared => ?_⟩
    refine hsynced ?_ (h.synced_eq hcleared)
    rw [h.syncType_eq, if_pos hcleared]
    decide
  | Clear =>
    obtain rfl := hstep
    exact ⟨h.syncLog_eq, rfl, fun _ => rfl⟩
  | PurgeExpired t | purgeExcess maxNum =>
    obtain rfl := hstep
    exact ⟨h.syncLog_eq, h.syncType_eq, h.synced_eq⟩
  | Reopen cfg useMmap =>
    obtain ⟨s, hnew, rfl⟩ := hstep
    rw [h.syncLog_eq] at hnew
    exact .new hnew

/-- In a store that was created with mode 2, an acknowledged log is covered by a sync of its
data file exactly when the store was not cleared since it was opened. -/
theorem acknowledged_synced_iff {cfg : ℤ} {useMmap : Bool} {dir : Dir} {s₀ s' : SyncedStore}
    {σ : Session} (h₀ : NewFileStore 2 cfg useMmap dir = .ok s₀)
    (hrun : Reaches Session.Step (fun _ _ => True) ⟨s₀, false⟩ σ)
    (hok : σ.store.StoreLog l = (.ok (), s')) : s'.Covers l ↔ σ.cleared = false := by
  have hinv := hrun.invariant (Session.Inv.new h₀) fun _ _ _ h _ hstep => h.step hstep
  have htype := hinv.syncType_eq
  cases hcleared : σ.cleared with
  | false =>
    rw [hcleared] at htype
    rw [covers_iff (fun hne => absurd htype hne) hok]
    exact ⟨fun _ => rfl, fun _ => htype⟩
  | true =>
    rw [hcleared] at htype
    rw [covers_iff (fun _ => hinv.synced_eq hcleared) hok, htype]
    decide

theorem acknowledged_synced_rotated :
    ∃ s₀ s₁ s₂, NewFileStore 2 (-1) false .empty = .ok s₀ ∧
      s₀.StoreLog ⟨1, 0, 0, [5]⟩ = (.ok (), s₁) ∧ s₁.StoreLog ⟨2, 0, 0, [6]⟩ = (.ok (), s₂) ∧
      s₂.Covers ⟨2, 0, 0, [6]⟩ :=
  ⟨_, _, _, rfl, rfl, rfl, (@acknowledged_synced_iff _ (-1) false .empty _ _ ⟨_, false⟩ rfl
    (.step (c := .StoreLog ⟨1, 0, 0, [5]⟩) .refl trivial rfl) rfl).mpr rfl⟩

theorem cleared_store_not_synced :
    ∃ s₀ s₁, NewFileStore 2 0 false .empty = .ok s₀ ∧
      s₀.Clear.StoreLog ⟨1, 0, 0, [5]⟩ = (.ok (), s₁) ∧ s₁.synced = none ∧
      ¬ s₁.Covers ⟨1, 0, 0, [5]⟩ := by
  refine ⟨_, _, rfl, rfl, rfl, ?_⟩
  rintro ⟨_, _, _, hsome, _⟩
  cases hsome

end SyncedStore

end LedisDB.Rpl
