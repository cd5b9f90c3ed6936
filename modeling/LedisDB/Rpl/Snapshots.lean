import LedisDB.Rpl.FullSync

/-!
# Snapshots

`Create` of `server/snapshot.go` makes room for a snapshot before it knows that there is one: the
oldest is gone when the dump fails. Of the time of the last snapshot it compares only the
nanoseconds within the second, and refuses a dump that a later second begins with.
-/

namespace LedisDB.Rpl.Snapshots

open List

inductive CreateErr
  | behind (now last : ℕ)
  | dump (e : Err)

/-- A call of `Create`: its time, in nanoseconds, and what `Dump` does. -/
structure Attempt where
  now : ℕ
  dump : Except Err Bytes

def write (a : Attempt) (names : List Snapshot) : Except CreateErr Snapshot × List Snapshot :=
  match a.dump with
  | .error e => (.error (.dump e), names)
  | .ok d => (.ok ⟨a.now, d⟩, names ++ [⟨a.now, d⟩])

variable (cfg : SnapshotConfig)

def Create (a : Attempt) (names : List Snapshot) : Except CreateErr Snapshot × List Snapshot :=
  let names := Master.purge cfg true names
  match names.getLast? with
  | none => write a names
  | some last =>
    if a.now % 1000000000 ≤ last.time % 1000000000 then (.error (.behind a.now last.time), names)
    else write a names

def OpenLatest (names : List Snapshot) : Option Snapshot := names.getLast?

def run (as : List Attempt) (names : List Snapshot) : List Snapshot :=
  as.foldl (fun names a => (Create cfg a names).2) names

def dumped (as : List Attempt) : List Snapshot :=
  as.filterMap fun a => match a.dump with
    | .error _ => none
    | .ok d => some ⟨a.now, d⟩

def latest (all : List Snapshot) : List Snapshot :=
  all.drop (all.length - cfg.MaxNum)

/-- The call keeps `names` unless it succeeds, and leaves the latest of `all`. -/
structure Reliable (names all : List Snapshot) (a : Attempt) : Prop where
  succeeds : (∃ s, (Create cfg a names).1 = .ok s) ↔ ∃ d, a.dump = .ok d
  unchanged : ∀ e, (Create cfg a names).1 = .error e → (Create cfg a names).2 = names
  bounded : (Create cfg a names).2.length ≤ cfg.MaxNum
  retained : (Create cfg a names).2 = latest cfg all
  opened : OpenLatest (Create cfg a names).2 = all.getLast?

/-- A dump that succeeds comes later within its second than the last snapshot that room is made
behind, and no room has to be made for one that fails. -/
def Fit (names : List Snapshot) (a : Attempt) : Prop :=
  match a.dump with
  | .ok _ => cfg.MaxNum ≠ 1 →
      ∀ last, names.getLast? = some last → last.time % 1000000000 < a.now % 1000000000
  | .error _ => names.length < cfg.MaxNum

section
variable {cfg : SnapshotConfig} {a : Attempt} {names all : List Snapshot} {d : Bytes}

theorem Master_Create_eq (sn : Snappy) (σ : Master) :
    ((σ.Create sn cfg).1, (σ.Create sn cfg).2.names) =
      ((Create cfg ⟨σ.now, .ok (σ.node.Dump sn)⟩ σ.names).1.toOption,
        (Create cfg ⟨σ.now, .ok (σ.node.Dump sn)⟩ σ.names).2) := by
  unfold Master.Create Create write
  dsimp only
  cases (Master.purge cfg true σ.names).getLast? with
  | none => rfl
  | some last =>
    dsimp only
    split_ifs <;> rfl

theorem latest_length_le : (latest cfg all).length ≤ cfg.MaxNum := by
  rw [latest, length_drop]
  omega

theorem latest_getLast? (hmax : 0 < cfg.MaxNum) : (latest cfg all).getLast? = all.getLast? := by
  rw [latest, getLast?_drop]
  split_ifs with h
  · rw [eq_nil_of_length_eq_zero (by omega : all.length = 0)]
    rfl
  · rfl

theorem latest_append (xs : List Snapshot) :
    latest cfg (latest cfg all ++ xs) = latest cfg (all ++ xs) := by
  unfold latest
  rw [← drop_append_of_le_length (Nat.sub_le ..), drop_drop, length_drop]
  congr 1
  simp only [length_append]
  omega

section
variable (hmax : 0 < cfg.MaxNum)
include hmax

theorem purge_getLast? : (Master.purge cfg true names).getLast? =
    if cfg.MaxNum = 1 then none else names.getLast? := by
  rw [Master.purge, getLast?_drop, if_pos rfl]
  by_cases hone : cfg.MaxNum = 1
  · rw [if_pos hone, if_pos (by omega)]
  · split_ifs with h
    · rw [eq_nil_of_length_eq_zero (by omega : names.length = 0)]
      rfl
    · rfl

theorem Create_ok (hd : a.dump = .ok d) (h : Fit cfg names a) :
    Create cfg a names = (.ok ⟨a.now, d⟩, latest cfg (names ++ [⟨a.now, d⟩])) := by
  have hw : write a (Master.purge cfg true names) =
      (.ok ⟨a.now, d⟩, latest cfg (names ++ [⟨a.now, d⟩])) := by
    rw [write, hd, latest, length_append, drop_append_of_le_length (by simp; omega)]
    rfl
  unfold Create
  simp only [Fit, hd] at h
  dsimp only
  rw [purge_getLast? hmax]
  by_cases hone : cfg.MaxNum = 1
  · rwa [if_pos hone]
  · rw [if_neg hone]
    cases hl : names.getLast? with
    | none => exact hw
    | some last =>
      dsimp only
      rwa [if_neg (h hone last hl).not_ge]

theorem Create_not_ok (h : (∃ d, a.dump = .ok d) → ¬ Fit cfg names a) :
    ∃ e, Create cfg a names = (.error e, Master.purge cfg true names) := by
  unfold Create
  cases hd : a.dump with
  | error e =>
    dsimp only
    split
    · exact ⟨.dump e, by rw [write, hd]⟩
    · split_ifs
      · exact ⟨_, rfl⟩
      · exact ⟨.dump e, by rw [write, hd]⟩
  | ok d =>
    have hnot := h ⟨d, hd⟩
    simp only [Fit, hd] at hnot
    push Not at hnot
    obtain ⟨hone, last, hlast, hle⟩ := hnot
    dsimp only
    rw [purge_getLast? hmax, if_neg hone, hlast]
    exact ⟨_, by dsimp only; rw [if_pos hle]⟩

theorem purge_eq_iff (hlen : names.length ≤ cfg.MaxNum) :
    Master.purge cfg true names = names ↔ names.length < cfg.MaxNum := by
  constructor
  · intro h
    have := congrArg length h
    simp only [Master.purge, length_drop, if_true] at this
    omega
  · intro h
    rw [Master.purge, if_pos rfl, Nat.sub_eq_zero_of_le h]
    rfl

theorem fit_of_reliable (hlen : names.length ≤ cfg.MaxNum)
    (h : Reliable cfg names all a) : Fit cfg names a := by
  cases hd : a.dump with
  | ok d =>
    by_contra hnot
    obtain ⟨s, hs⟩ := h.succeeds.mpr ⟨d, hd⟩
    obtain ⟨e, he⟩ := Create_not_ok hmax fun _ => hnot
    rw [he] at hs
    cases hs
  | error e =>
    obtain ⟨e', he⟩ := Create_not_ok hmax (a := a) (by simp [hd])
    have hkept := h.unchanged e' (by rw [he])
    rw [he, purge_eq_iff hmax hlen] at hkept
    simpa only [Fit, hd] using hkept

theorem Create_fit (h : Fit cfg names a) (hnames : names = latest cfg all) :
    (Create cfg a names).2 = latest cfg (all ++ dumped [a]) ∧
      ((∃ s, (Create cfg a names).1 = .ok s) ↔ ∃ d, a.dump = .ok d) ∧
      ∀ e, (Create cfg a names).1 = .error e → (Create cfg a names).2 = names := by
  cases hd : a.dump with
  | ok d =>
    rw [Create_ok hmax hd h, hnames]
    simpa [dumped, hd] using latest_append _
  | error e =>
    have hlt : names.length < cfg.MaxNum := by simpa only [Fit, hd] using h
    obtain ⟨e', he⟩ := Create_not_ok hmax (a := a) (by simp [hd])
    rw [he, (purge_eq_iff hmax hlt.le).mpr hlt]
    exact ⟨by simpa [dumped, hd] using hnames, by simp, fun _ _ => rfl⟩

end

theorem run_concat (as : List Attempt) (names : List Snapshot) :
    run cfg (as ++ [a]) names = (Create cfg a (run cfg as names)).2 := by
  rw [run, foldl_append]
  rfl

theorem dumped_concat (as : List Attempt) : dumped (as ++ [a]) = dumped as ++ dumped [a] :=
  filterMap_append

theorem run_eq (hmax : 0 < cfg.MaxNum) (hns : names.length ≤ cfg.MaxNum) (as : List Attempt)
    (h : ∀ pre a post, as = pre ++ a :: post → Fit cfg (run cfg pre names) a) :
    run cfg as names = latest cfg (names ++ dumped as) := by
  induction as using reverseRecOn with
  | nil => simp [run, dumped, latest, Nat.sub_eq_zero_of_le hns]
  | append_singleton as a ih =>
    have hnames := ih fun pre b post heq => h pre b (post ++ [a]) (by simp [heq])
    rw [run_concat, (Create_fit hmax (h as a [] rfl) hnames).1, dumped_concat, append_assoc]

theorem run_length_le (hns : names.length ≤ cfg.MaxNum) (as : List Attempt)
    (h : ∀ pre a post, as = pre ++ a :: post → (run cfg (pre ++ [a]) names).length ≤ cfg.MaxNum) :
    (run cfg as names).length ≤ cfg.MaxNum := by
  rcases eq_nil_or_concat as with rfl | ⟨pre, a, rfl⟩
  · exact hns
  · rw [concat_eq_append]
    exact h pre a [] (by simp)

end

theorem snapshots_reliable_iff (cfg : SnapshotConfig) (hmax : 0 < cfg.MaxNum)
    (names : List Snapshot) (hns : names.length ≤ cfg.MaxNum) (as : List Attempt) :
    (∀ pre a post, as = pre ++ a :: post →
      Reliable cfg (run cfg pre names) (names ++ dumped (pre ++ [a])) a) ↔
    ∀ pre a post, as = pre ++ a :: post → Fit cfg (run cfg pre names) a := by
  constructor
  · intro h pre a post heq
    refine fit_of_reliable hmax (run_length_le hns pre fun pre' b post' heq' => ?_)
      (h pre a post heq)
    rw [run_concat]
    exact (h pre' b (post' ++ a :: post) (by simp [heq, heq'])).bounded
  · intro h pre a post heq
    have hnames := run_eq hmax hns pre fun pre' b post' heq' =>
      h pre' b (post' ++ a :: post) (by simp [heq, heq'])
    obtain ⟨hret, hok, hkept⟩ := Create_fit hmax (h pre a post heq) hnames
    rw [List.append_assoc, ← dumped_concat] at hret
    exact ⟨hok, hkept, hret ▸ latest_length_le, hret,
      by rw [hret, OpenLatest, latest_getLast? hmax]⟩

theorem snapshots_reliable_two :
    Reliable ⟨1, 2, 0⟩ (run ⟨1, 2, 0⟩ [⟨5, .ok [1]⟩, ⟨7, .error .ErrLogNotFound⟩] [])
      [⟨5, [1]⟩, ⟨9, [2]⟩] ⟨9, .ok [2]⟩ := by
  refine (snapshots_reliable_iff ⟨1, 2, 0⟩ (by decide) [] (by decide)
    [⟨5, .ok [1]⟩, ⟨7, .error .ErrLogNotFound⟩, ⟨9, .ok [2]⟩]).mpr ?_ [_, _] _ [] rfl
  intro pre a post heq
  rcases pre with _ | ⟨b, _ | ⟨c, _ | ⟨d, pre⟩⟩⟩ <;> simp at heq
  · obtain ⟨rfl, -⟩ := heq
    intro _ last h
    cases h
  · obtain ⟨rfl, rfl, -⟩ := heq
    exact Nat.lt_of_sub_eq_succ rfl
  · obtain ⟨rfl, rfl, rfl, -⟩ := heq
    intro _ last h
    cases h
    decide

theorem snapshots_unreliable :
    (Create ⟨1, 2, 0⟩ ⟨1100000000, .ok [2]⟩ (run ⟨1, 2, 0⟩ [⟨900000000, .ok [1]⟩] [])).1 =
      .error (.behind 1100000000 900000000) ∧
    run ⟨1, 1, 0⟩ [⟨1, .ok [1]⟩] [] = [⟨1, [1]⟩] ∧
    OpenLatest (run ⟨1, 1, 0⟩ [⟨1, .ok [1]⟩, ⟨2, .error .ErrLogNotFound⟩] []) = none :=
  ⟨rfl, rfl, rfl⟩

end LedisDB.Rpl.Snapshots
