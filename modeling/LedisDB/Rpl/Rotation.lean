import LedisDB.Rpl.StoreRuns

/-!
# Reading logs while tables are rotated

`GetLog` and `StoreLog` of `rpl/file_store.go` run at the same time. A log that is
stored moves from the writer to a reader in two steps, the flush of the writer and
the append to the list of readers, and `GetLog` looks at the writer and at the
readers in two steps of its own. Between the flush and the append the logs of the
table are in neither place, and a search that falls in between does not find them.
-/

namespace LedisDB.Rpl

open List

inductive Storer
  | idle
  | needFlush (l : Log)
  | flushed (l : Log) (r : TableReader)
  | appended (l : Log)

/-- Where a call of `GetLog` stands; `stored` tells whether the log had been stored when the
call started. -/
inductive Getter
  | idle
  | missed (id : UInt64) (stored : Bool)
  | returned (id : UInt64) (stored : Bool) (res : Except Err Log)

/-- A store with one caller of `StoreLog` and any number of callers of `GetLog`; `acked` are
the IDs of the logs that were stored. -/
structure Rotation (ι : Type*) where
  s : FileStore
  storer : Storer
  acked : List UInt64
  getters : ι → Getter

def FileStore.searchReaders (s : FileStore) (id : UInt64) : Except Err Log :=
  match TableReaders.Search s.rs id with
  | none => .error .ErrLogNotFound
  | some t => t.GetLog (s.dir.files t.index) id

variable {s : FileStore} {T : ℕ × List Log}

namespace Rotation

variable {ι : Type*}

inductive Action (ι : Type*)
  | StoreLog (l : Log)
  | Flush
  | append
  | StoreLogAgain
  | tryWriter (i : ι) (id : UInt64)
  | search (i : ι)

def accepted (σ : Rotation ι) (l : Log) (w : TableWriter) : Rotation ι :=
  { σ with s := { σ.s with w }, storer := .idle, acked := l.ID :: σ.acked }

def StoreLog (σ : Rotation ι) (l : Log) : Rotation ι :=
  match σ.s.w.storeLog (σ.s.dir.files σ.s.w.index) l with
  | .ok w => σ.accepted l w
  | .error .errTableNeedFlush => { σ with storer := .needFlush l }
  | .error _ => σ

def Flush (σ : Rotation ι) (l : Log) : Rotation ι :=
  match σ.s.w.Flush with
  | .error _ => { σ with s := { σ.s with w := { σ.s.w with closed := true } }, storer := .idle }
  | .ok (r, files, w) =>
    { σ with s := { σ.s with dir := σ.s.dir.insert r.index files, w }, storer := .flushed l r }

def append (σ : Rotation ι) (l : Log) (r : TableReader) : Rotation ι :=
  { σ with s := { σ.s with rs := σ.s.rs ++ [r] }, storer := .appended l }

def StoreLogAgain (σ : Rotation ι) (l : Log) : Rotation ι :=
  match σ.s.w.storeLog (σ.s.dir.files σ.s.w.index) l with
  | .ok w => σ.accepted l w
  | .error _ => { σ with storer := .idle }

def tryWriter [DecidableEq ι] (σ : Rotation ι) (i : ι) (id : UInt64) : Rotation ι :=
  let g : Getter := match σ.s.w.GetLog id with
    | .error .ErrLogNotFound => .missed id (id ∈ σ.acked)
    | res => .returned id (id ∈ σ.acked) res
  { σ with getters := Function.update σ.getters i g }

def search [DecidableEq ι] (σ : Rotation ι) (i : ι) (id : UInt64) (stored : Bool) : Rotation ι :=
  { σ with getters := Function.update σ.getters i (.returned id stored (σ.s.searchReaders id)) }

def Step [DecidableEq ι] (σ : Rotation ι) : Action ι → Rotation ι → Prop
  | .StoreLog l, σ' => σ.storer = .idle ∧ σ.StoreLog l = σ'
  | .Flush, σ' => ∃ l, σ.storer = .needFlush l ∧ σ.Flush l = σ'
  | .append, σ' => ∃ l r, σ.storer = .flushed l r ∧ σ.append l r = σ'
  | .StoreLogAgain, σ' => ∃ l, σ.storer = .appended l ∧ σ.StoreLogAgain l = σ'
  | .tryWriter i id, σ' => (∀ x b, σ.getters i ≠ .missed x b) ∧ σ.tryWriter i id = σ'
  | .search i, σ' => ∃ id b, σ.getters i = .missed id b ∧ σ.search i id b = σ'

/-- A log that is stored while the writer is empty continues where the store ends. -/
def Continues (σ : Rotation ι) : Action ι → Prop
  | .StoreLog l => σ.s.w.last = 0 → σ.s.LastID ≠ 0 → l.ID ≠ 0 → l.ID = σ.s.LastID + 1
  | _ => True

def start (s : FileStore) (acked : List UInt64) : Rotation ι := ⟨s, .idle, acked, fun _ => .idle⟩

def finish (σ : Rotation ι) : Rotation ι :=
  match σ.storer with
  | .needFlush l =>
    match (σ.Flush l).storer with
    | .flushed l r => ((σ.Flush l).append l r).StoreLogAgain l
    | _ => σ.Flush l
  | _ => σ

theorem StoreLog_finish (s : FileStore) (acked : List UInt64) (l : Log) :
    ((start s acked : Rotation ι).StoreLog l).finish.s = (s.storeLog l).2 := by
  unfold StoreLog FileStore.storeLog
  change (match s.w.storeLog (s.dir.files s.w.index) l with
    | .ok w => (start s acked).accepted l w
    | .error .errTableNeedFlush => { start s acked with storer := .needFlush l }
    | .error _ => start s acked).finish.s = _
  cases hstore : s.w.storeLog (s.dir.files s.w.index) l with
  | ok w => rfl
  | error e =>
    cases e
    case errTableNeedFlush =>
      simp only [finish, Flush, start]
      cases hflush : s.w.Flush with
      | error e => rfl
      | ok p =>
        obtain ⟨r, files, w⟩ := p
        simp only [append, StoreLogAgain]
        cases w.storeLog (Dir.files (s.dir.insert r.index files) w.index) l <;> rfl
    all_goals rfl

theorem GetLog_eq_searchReaders {id : UInt64}
    (h : s.w.GetLog id = .error .ErrLogNotFound) : s.GetLog id = s.searchReaders id := by
  rw [FileStore.GetLog, h]
  rfl

def settled (σ : Rotation ι) : FileStore :=
  match σ.storer with
  | .flushed _ r => { σ.s with rs := σ.s.rs ++ [r] }
  | _ => σ.s

def Stage (ts : List (ℕ × List Log)) (cur : List Log) : Storer → Prop
  | .idle => True
  | .needFlush l => Takes (logsOf ts cur) l ∧ cur ≠ []
  | .flushed l r => Takes (logsOf ts cur) l ∧ cur = [] ∧ ∃ us T, ts = us ++ [T] ∧ r = readerOf T
  | .appended l => Takes (logsOf ts cur) l

/-- The store holds all logs that were stored, and those that a caller has missed in the
writer are in closed tables. -/
structure Inv (σ : Rotation ι) (ts : List (ℕ × List Log)) (cur : List Log) : Prop where
  holds : σ.settled.Holds ts cur
  stage : Stage ts cur σ.storer
  acked : ∀ id ∈ σ.acked, ∃ l ∈ logsOf ts cur, l.ID = id
  missed : ∀ i id, σ.getters i = .missed id true → ∃ l ∈ ts.flatMap Prod.snd, l.ID = id

variable {σ σ' : Rotation ι} {ts us : List (ℕ × List Log)} {cur : List Log} {l : Log}
  {id : UInt64} {i : ι}

theorem settled_of_ne (h : ∀ l r, σ.storer ≠ .flushed l r) : σ.settled = σ.s := by
  unfold settled
  split
  · rename_i hr
    exact absurd hr (h _ _)
  · rfl

theorem Inv.start {acked : List UInt64} (h : s.Holds ts cur)
    (hacked : ∀ id ∈ acked, ∃ l, s.GetLog id = .ok l) :
    (start s acked : Rotation ι).Inv ts cur where
  holds := h
  stage := trivial
  acked := by
    intro id hid
    obtain ⟨l, hl⟩ := hacked id hid
    by_contra hnone
    rw [h.GetLog_of_not_mem fun x hx he => hnone ⟨x, hx, he⟩] at hl
    split_ifs at hl
  missed := nofun

section
variable (h : σ.Inv ts cur)
include h

theorem Inv.accepted (hs : σ.s.Holds ts cur) (hl : Takes (logsOf ts cur) l)
    {files : TableFiles} {w : TableWriter} (hw : σ.s.w.storeLog files l = .ok w) :
    (σ.accepted l w).Inv ts (cur ++ [l]) := by
  obtain ⟨-, -, hhold, hindex, hmax, hmmap⟩ := hs.writer.storeLog_ok hw
  have hlogs : logsOf ts (cur ++ [l]) = logsOf ts cur ++ [l] := by simp [logsOf]
  refine ⟨hs.storeLog_open hl hhold hindex hmax hmmap, trivial, fun id hid => ?_, h.missed⟩
  rw [hlogs]
  rcases mem_cons.mp hid with rfl | hid
  · exact ⟨l, by simp, rfl⟩
  · obtain ⟨x, hx, he⟩ := h.acked id hid
    exact ⟨x, mem_append_left _ hx, he⟩

theorem Inv.StoreLog (hidle : σ.storer = .idle)
    (hc : σ.Continues (.StoreLog l)) : ∃ cur', (σ.StoreLog l).Inv ts cur' := by
  have hs : σ.s.Holds ts cur := by
    have := h.holds
    rwa [settled_of_ne (by simp [hidle])] at this
  unfold Rotation.StoreLog
  cases hstore : σ.s.w.storeLog (σ.s.dir.files σ.s.w.index) l with
  | ok w =>
    have htakes := (hs.writer.storeLog_ok hstore).1
    exact ⟨_, h.accepted hs (hs.takes_of_last hc htakes) hstore⟩
  | error e =>
    refine ⟨cur, ?_⟩
    rw [hs.writer.storeLog_eq] at hstore
    split_ifs at hstore with htakes hflush
    · cases hstore
      have hne := (hs.writer.needFlush_iff.mp hflush).1
      exact ⟨hs, ⟨hs.takes_of_last hc htakes, hne⟩, h.acked, h.missed⟩
    · rcases Err.bind_error_iff.mp hstore with hopen | ⟨p, -, hnone⟩
      · obtain rfl := TableWriter.openFile_error hopen
        exact h
      · cases hnone
    · cases hstore
      exact h

theorem Inv.Flush (hstorer : σ.storer = .needFlush l) :
    (σ.Flush l).Inv (ts ++ [(σ.s.w.index, cur)]) [] := by
  have hs : σ.s.Holds ts cur := by
    have := h.holds
    rwa [settled_of_ne (by simp [hstorer])] at this
  have hstage := h.stage
  rw [hstorer] at hstage
  obtain ⟨htakes, hne⟩ := hstage
  have hlogs := FileStore.logsOf_flushed ts cur σ.s.w.index
  rw [Rotation.Flush, hs.writer.Flush_eq hne]
  refine ⟨hs.flushed hne, ⟨by rwa [hlogs], rfl, ts, _, rfl, rfl⟩, fun id hid => ?_,
    fun i id hid => ?_⟩
  · rw [hlogs]
    exact h.acked id hid
  · obtain ⟨x, hx, he⟩ := h.missed i id hid
    exact ⟨x, by rw [flatMap_append]; exact mem_append_left _ hx, he⟩

theorem Inv.append {r : TableReader} (hstorer : σ.storer = .flushed l r) :
    (σ.append l r).Inv ts cur := by
  have hs := h.holds
  have hstage := h.stage
  rw [hstorer] at hstage
  rw [settled, hstorer] at hs
  exact ⟨hs, hstage.1, h.acked, h.missed⟩

theorem Inv.StoreLogAgain (hstorer : σ.storer = .appended l) :
    ∃ cur', (σ.StoreLogAgain l).Inv ts cur' := by
  have hs : σ.s.Holds ts cur := by
    have := h.holds
    rwa [settled_of_ne (by simp [hstorer])] at this
  have htakes := h.stage
  rw [hstorer] at htakes
  unfold Rotation.StoreLogAgain
  cases hstore : σ.s.w.storeLog (σ.s.dir.files σ.s.w.index) l with
  | ok w => exact ⟨_, h.accepted hs htakes hstore⟩
  | error e => exact ⟨cur, hs, trivial, h.acked, h.missed⟩

end

theorem writer_eq (σ : Rotation ι) : σ.settled.w = σ.s.w := by
  unfold settled
  split <;> rfl

theorem Inv.closed_of_missed (h : σ.Inv ts cur) (hid : id ∈ σ.acked)
    (hmiss : σ.s.w.GetLog id = .error .ErrLogNotFound) : ∃ l ∈ ts.flatMap Prod.snd, l.ID = id := by
  obtain ⟨x, hx, rfl⟩ := h.acked id hid
  rcases mem_append.mp hx with hts | hcur
  · exact ⟨x, hts, rfl⟩
  · have hget := h.holds.writer.GetLog_of_mem hcur
    rw [writer_eq, hmiss] at hget
    cases hget

theorem Inv.tryWriter [DecidableEq ι] (h : σ.Inv ts cur) (i : ι) (id : UInt64) :
    (σ.tryWriter i id).Inv ts cur := by
  refine ⟨h.holds, h.stage, h.acked, fun j x hj => ?_⟩
  unfold Rotation.tryWriter at hj
  dsimp only at hj
  by_cases hij : j = i
  · subst hij
    rw [Function.update_self] at hj
    split at hj
    · rename_i hmiss
      simp only [Getter.missed.injEq, decide_eq_true_eq] at hj
      obtain ⟨rfl, hacked⟩ := hj
      exact h.closed_of_missed hacked hmiss
    · cases hj
  · rw [Function.update_of_ne hij] at hj
    exact h.missed j x hj

theorem Inv.search [DecidableEq ι] (h : σ.Inv ts cur) (i : ι) (id : UInt64) (b : Bool) :
    (σ.search i id b).Inv ts cur := by
  refine ⟨h.holds, h.stage, h.acked, fun j x hj => ?_⟩
  unfold Rotation.search at hj
  dsimp only at hj
  by_cases hij : j = i
  · rw [hij, Function.update_self] at hj
    cases hj
  · rw [Function.update_of_ne hij] at hj
    exact h.missed j x hj

theorem Inv.step [DecidableEq ι] {c : Action ι} (h : ∃ ts cur, σ.Inv ts cur) (hc : σ.Continues c)
    (hstep : σ.Step c σ') : ∃ ts cur, σ'.Inv ts cur := by
  obtain ⟨ts, cur, h⟩ := h
  cases c with
  | StoreLog l =>
    obtain ⟨hidle, rfl⟩ := hstep
    exact ⟨ts, h.StoreLog hidle hc⟩
  | Flush =>
    obtain ⟨l, hstorer, rfl⟩ := hstep
    exact ⟨_, _, h.Flush hstorer⟩
  | append =>
    obtain ⟨l, r, hstorer, rfl⟩ := hstep
    exact ⟨ts, cur, h.append hstorer⟩
  | StoreLogAgain =>
    obtain ⟨l, hstorer, rfl⟩ := hstep
    exact ⟨ts, h.StoreLogAgain hstorer⟩
  | tryWriter i id =>
    obtain ⟨-, rfl⟩ := hstep
    exact ⟨ts, cur, h.tryWriter i id⟩
  | search i =>
    obtain ⟨id, b, -, rfl⟩ := hstep
    exact ⟨ts, cur, h.search i id b⟩

def InFlight (σ : Rotation ι) (id : UInt64) : Prop :=
  ∃ l r, σ.storer = .flushed l r ∧ r.first ≤ id ∧ id ≤ r.last

theorem range_iff (h : s.Holds ts cur) (hT : T ∈ ts) :
    (readerOf T).first ≤ id ∧ id ≤ (readerOf T).last ↔ ∃ l ∈ T.2, l.ID = id := by
  have hout := (h.serves hT).out_of_range_iff id
  rw [← not_iff_not, not_and_or]
  simpa using hout

theorem searchReaders_of_mem {s' : FileStore} (h : s.Holds ts cur) (hdir : s'.dir = s.dir)
    (hrs : s'.rs = us.map readerOf) (hus : us <+: ts) (hT : T ∈ us)
    (hl : l ∈ T.2) : s'.searchReaders l.ID = .ok l.wire := by
  obtain ⟨vs, rfl⟩ := hus
  have hasc : TableReaders.Ascending (us.map readerOf) := by
    obtain ⟨hpair, hle⟩ := h.ascending
    rw [map_append] at hpair hle
    exact ⟨(pairwise_append.mp hpair).1, fun t ht => hle t (mem_append_left _ ht)⟩
  have hTs : T ∈ us ++ vs := mem_append_left _ hT
  have hrange := (range_iff h hTs).mpr ⟨l, hl, rfl⟩
  rw [FileStore.searchReaders, hrs, hasc.Search_eq_some (mem_map_of_mem hT) hrange, hdir]
  exact (h.serves hTs).GetLog_of_mem hl

theorem searchReaders_of_last {s' : FileStore}
    (h : s.Holds (us ++ [T]) cur) (hrs : s'.rs = us.map readerOf) (hl : l ∈ T.2) :
    s'.searchReaders l.ID = .error .ErrLogNotFound := by
  have hnone : TableReaders.Search s'.rs l.ID = none := by
    apply TableReaders.Search_eq_none
    rw [hrs]
    intro t ht hrange
    obtain ⟨U, hU, rfl⟩ := mem_map.mp ht
    obtain ⟨x, hx, he⟩ := (range_iff h (mem_append_left _ hU)).mp hrange
    have hnum := h.contiguous.numbered
    rw [logsOf, flatMap_append, append_assoc] at hnum
    exact hnum.id_ne_of_append (mem_flatMap.mpr ⟨U, hU, hx⟩) (by simp [hl]) he
  rw [FileStore.searchReaders, hnone]

theorem Inv.searchReaders_iff (h : σ.Inv ts cur) (hid : ∃ l ∈ ts.flatMap Prod.snd, l.ID = id) :
    σ.s.searchReaders id = .error .ErrLogNotFound ↔ σ.InFlight id := by
  obtain ⟨l, hl, rfl⟩ := hid
  obtain ⟨T, hT, hlT⟩ := mem_flatMap.mp hl
  by_cases hstorer : ∃ k r, σ.storer = .flushed k r
  · obtain ⟨k, r, hstorer⟩ := hstorer
    have hs := h.holds
    have hstage := h.stage
    unfold settled at hs
    rw [hstorer] at hs hstage
    obtain ⟨-, rfl, us, U, rfl, rfl⟩ := hstage
    have hrs : σ.s.rs = us.map readerOf := by
      have := hs.rs_eq
      rw [map_append] at this
      exact append_cancel_right this
    have hU : σ.InFlight l.ID ↔ ∃ x ∈ U.2, x.ID = l.ID := by
      rw [← range_iff hs (mem_append_right _ (.head _))]
      constructor
      · rintro ⟨k', r', heq, hrange⟩
        rw [hstorer] at heq
        cases heq
        exact hrange
      · exact fun hrange => ⟨k, _, hstorer, hrange⟩
    rw [hU]
    rcases mem_append.mp hT with hTus | hTU
    · have hfound : σ.s.searchReaders l.ID = .ok l.wire :=
        searchReaders_of_mem hs rfl hrs (prefix_append _ _) hTus hlT
      rw [hfound]
      refine iff_of_false (by simp) fun h => ?_
      obtain ⟨x, hx, he⟩ := h
      have hnum := hs.contiguous.numbered
      rw [logsOf, flatMap_append, append_assoc] at hnum
      exact absurd he.symm (hnum.id_ne_of_append (mem_flatMap.mpr ⟨T, hTus, hlT⟩) (by simp [hx]))
    · obtain rfl := mem_singleton.mp hTU
      have hlost := searchReaders_of_last hs hrs hlT
      rw [hlost]
      exact ⟨fun _ => ⟨l, hlT, rfl⟩, fun _ => rfl⟩
  · have hs := h.holds
    rw [settled_of_ne fun k r hkr => hstorer ⟨k, r, hkr⟩] at hs
    rw [searchReaders_of_mem hs rfl hs.rs_eq prefix_rfl hT hlT]
    refine iff_of_false (by simp) fun h => ?_
    obtain ⟨k, r, hkr, -⟩ := h
    exact hstorer ⟨k, r, hkr⟩

theorem stored_log_lost_iff [DecidableEq ι] {cfg : ℤ} {useMmap : Bool} {s₀ s : FileStore}
    {acked : List UInt64} (h₀ : FileStore.new cfg useMmap .empty = .ok s₀)
    (hs : Reaches FileStore.Step FileStore.Continues s₀ s)
    (hacked : ∀ id ∈ acked, ∃ l, s.GetLog id = .ok l)
    (hrun : Reaches Step Continues (start s acked) σ) (hget : σ.getters i = .missed id true)
    (hstep : σ.Step (.search i) σ') :
    σ'.getters i = .returned id true (.error .ErrLogNotFound) ↔ σ.InFlight id := by
  obtain ⟨ts₀, cur₀, hhold, -⟩ := hs.invariant (FileStore.new_empty_sound h₀)
    fun _ _ _ h hc hstep => h.step hc hstep
  obtain ⟨ts, cur, hinv⟩ := hrun.invariant ⟨ts₀, cur₀, Inv.start hhold hacked⟩
    fun _ _ _ h hc hstep => Inv.step h hc hstep
  obtain ⟨id', b, hget', rfl⟩ := hstep
  rw [hget] at hget'
  cases hget'
  rw [← hinv.searchReaders_iff (hinv.missed i id hget)]
  unfold search
  simp

def small : FileStore := ⟨.empty, [], newTableWriter 1 (-1) false, -1, false⟩

def midway : Rotation Unit :=
  ((((start small []).StoreLog ⟨1, 0, 0, []⟩).StoreLog ⟨2, 0, 0, []⟩).Flush ⟨2, 0, 0, []⟩).tryWriter
    () 1

theorem midway_reached : Reaches Step Continues (start small []) midway :=
  .step (c := .tryWriter () 1)
    (.step (c := .Flush)
      (.step (c := .StoreLog ⟨2, 0, 0, []⟩)
        (.step (c := .StoreLog ⟨1, 0, 0, []⟩) .refl (fun _ _ _ => rfl) ⟨rfl, rfl⟩)
        (fun _ _ _ => rfl) ⟨rfl, rfl⟩)
      trivial ⟨_, rfl, rfl⟩)
    trivial ⟨fun _ _ h => (by cases h), rfl⟩

theorem stored_log_found_appended :
    FileStore.new (-1) false .empty = .ok small ∧
      ((midway.append ⟨2, 0, 0, []⟩ ⟨1, 1, 1, 0⟩).search () 1 true).getters () ≠
        .returned 1 true (.error .ErrLogNotFound) := by
  have hrun : Reaches Step Continues (start small []) (midway.append ⟨2, 0, 0, []⟩ ⟨1, 1, 1, 0⟩) :=
    .step (c := .append) midway_reached trivial ⟨_, _, rfl, rfl⟩
  have hnew : FileStore.new (-1) false .empty = .ok small := rfl
  have hget : (midway.append ⟨2, 0, 0, []⟩ ⟨1, 1, 1, 0⟩).getters () = .missed 1 true := rfl
  refine ⟨hnew, fun hlost => ?_⟩
  obtain ⟨l, r, hr, -⟩ := (stored_log_lost_iff hnew .refl (by simp) hrun hget
    ⟨1, true, rfl, rfl⟩).mp hlost
  cases hr

theorem stored_log_lost :
    FileStore.new (-1) false .empty = .ok small ∧
      Reaches Step Continues (start small []) (midway.search () 1 true) ∧
      (midway.search () 1 true).getters () = .returned 1 true (.error .ErrLogNotFound) :=
  ⟨rfl, .step (c := .search ()) midway_reached trivial ⟨1, true, rfl, rfl⟩, rfl⟩

end Rotation

end LedisDB.Rpl
