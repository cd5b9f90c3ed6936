import LedisDB.Flush
import LedisDB.ListTrims

/-!
# What a shorter list leaves behind

A pop or a trim that leaves values leaves the TTL with them, and one that leaves none
leaves nothing of the key. `LTrim` fails to do so when both indexes lie before the head: it
tests for an empty slice before it clamps `start`, and `lSetMeta` neither removes the TTL nor
accepts a negative size. `LTrimFront` fails when its last sequence number leaves `int32`.
-/

namespace LedisDB

structure Shortened (db : DB) (s s' : Store) (key : Bytes) (xs : List Bytes) : Prop where
  list : ∃ h, ListRep db s' key ⟨h, xs⟩
  kept : xs ≠ [] → ∀ ek, ExpireEntry db .LIST key ek → s'.get ek = s.get ek
  gone : xs = [] → Clean db s' .LIST key

section
variable {db : DB} {env : Env} {s s' : Store} {key : Bytes} {q q' : Sequence} {st : State} {z : ℤ}
  {b : Batch}

theorem ListRep.clean (h : ListRep db s key ⟨z, []⟩)
    (httl : s.get (db.expEncodeMetaKey ListType key) = none) : Clean db s .LIST key := by
  intro ek hek
  rcases hek with hek | rfl
  · cases hek with
    | lmeta => exact h.items_nil_iff.mp rfl
    | litem _ n => rw [h.items n, window_nil]
  · exact httl

theorem Clean.listRep (h : Clean db s .LIST key) (z : ℤ) : ListRep db s key ⟨z, []⟩ :=
  ListRep.of_empty (h _ (Or.inl (.lmeta key))) fun n => h _ (Or.inl (.litem key n))

theorem ListOnly.get_expire (hb : ListOnly db key b) {T : DataType} {k ek : Bytes}
    (hek : ExpireEntry db T k ek) : (s.applyBatch b).get ek = s.get ek :=
  get_applyBatch_data hb hek s

theorem deletes_listOnly (ns : List Int32) :
    ListOnly db key (ns.map fun n => .delete (db.lEncodeListKey key n)) := by
  intro o ho
  obtain ⟨n, -, rfl⟩ := List.mem_map.mp ho
  exact .litem key n

theorem Shrinks.shortened (h : Shrinks db s key b q) (hs : StoreWf s) :
    Shortened db s (s.applyBatch b) key q.items := by
  obtain ⟨ns, hb⟩ := h.queue
  have hsize : q.tail - q.head + 1 = q.items.length := by
    unfold Sequence.tail
    omega
  refine ⟨⟨q.head, h.rep⟩, fun hq ek hek => ?_, fun hq => ?_⟩
  · rw [shrinkBatch, hsize, if_neg (by simpa using hq), List.append_nil] at hb
    rw [hb]
    exact ((deletes_listOnly ns).append (metaBatch_listOnly _ _)).get_expire hek
  · have hrep := h.rep
    rw [show q = ⟨q.head, []⟩ by rw [← hq]] at hrep
    refine hrep.clean ?_
    rw [shrinkBatch, metaBatch, hsize, hq] at hb
    have hdeletes : Deletes b := by
      rw [hb]
      refine Deletes.append ?_ (Deletes.append (by simp [Deletes]) ?_)
      · intro o ho
        obtain ⟨n, -, rfl⟩ := List.mem_map.mp ho
        exact ⟨_, rfl⟩
      · exact rmBatch_deletes ListType key
    apply hdeletes.get_none
    by_cases httl : s.get (db.expEncodeMetaKey ListType key) = none
    · exact .inl httl
    · have hmem := rmBatch_expMeta (T := .LIST) hs httl
      rw [hb]
      exact .inr (List.mem_append_right _ (List.mem_append_right _ hmem))

def Sequence.Missed (q : Sequence) (start stop : ℤ) : Prop :=
  position q.items.length start < q.items.length ∧
    position q.items.length start ≤ position q.items.length stop ∧ q.slice start stop = []

theorem LClears.wipes (h : LClears db s key b) : Wipes db s .LIST key b := by
  refine ⟨h.deletes, fun ek hek hget => ?_⟩
  cases hek with
  | lmeta => exact h.metaEntry
  | litem _ n => exact h.items n (Option.isSome_iff_ne_none.mpr hget)

theorem Sequence.Missed.of_slice {a b : ℤ} (hc : ¬ (position q.items.length a ≥ q.items.length ∨
    position q.items.length a > position q.items.length b)) (h : q.slice a b = []) :
    q.Missed a b := by
  rw [not_or, not_le, not_lt] at hc
  exact ⟨hc.1, hc.2, h⟩

theorem Clean.shortened_iff (h : Clean db s' .LIST key) {xs : List Bytes} :
    Shortened db s s' key xs ↔ xs = [] := by
  constructor
  · intro hx
    obtain ⟨z, hz⟩ := hx.list
    exact hz.items_unique (h.listRep 0)
  · rintro rfl
    exact ⟨⟨0, h.listRep 0⟩, fun hne => absurd rfl hne, fun _ => h⟩

theorem ListOnly.shortened_iff (hb : ListOnly db key b) {xs ys : List Bytes}
    (h : ListRep db (s.applyBatch b) key ⟨z, ys⟩) :
    Shortened db s (s.applyBatch b) key xs ↔
      xs = ys ∧ (ys = [] → s.get (db.expEncodeMetaKey ListType key) = none) := by
  have hmeta : (s.applyBatch b).get (db.expEncodeMetaKey ListType key) =
      s.get (db.expEncodeMetaKey ListType key) := hb.get_expire (T := .LIST) .expMeta
  constructor
  · intro hx
    obtain ⟨z', hz'⟩ := hx.list
    have hxs := hz'.items_unique h
    refine ⟨hxs, fun hys => ?_⟩
    rw [← hmeta]
    exact hx.gone (hxs.trans hys) _ (.inr rfl)
  · rintro ⟨rfl, httl⟩
    refine ⟨⟨z, h⟩, fun _ ek hek => hb.get_expire hek, fun hnil => ?_⟩
    subst hnil
    exact h.clean (hmeta.trans (httl rfl))

theorem not_shortened (hmeta : s'.get (db.lEncodeMetaKey key) ≠ none)
    (hitems : ∀ n, s'.get (db.lEncodeListKey key n) = none) (xs : List Bytes) :
    ¬ Shortened db s s' key xs := by
  intro hx
  obtain ⟨z, hz⟩ := hx.list
  have hxs := fun hxs => hmeta (hz.items_nil_iff.mp hxs)
  obtain ⟨h1, h2⟩ := push_base hz hxs
  dsimp only at h1 h2
  have hfirst := hz.items (Int32.ofInt z)
  rw [hitems, toInt_ofInt32 ⟨by omega, by omega⟩, window, if_pos le_rfl, Int.sub_self] at hfirst
  exact hxs (List.length_eq_zero_iff.mp (Nat.le_zero.mp (List.getElem?_eq_none_iff.mp hfirst.symm)))

theorem LTrim_shortened (henv : env.Commits) (hs : StoreWf st.store) (hk : ValidKey key)
    (h : ListRep db st.store key q) (start stop : Int64) {a b : ℤ}
    (ha : start.toInt32.toInt = a) (hb : stop.toInt32.toInt = b) :
    ∃ st', exec env (db.LTrim key start stop) st = (.ok (), st') ∧
      ∀ xs, Shortened db st.store st'.store key xs ↔ xs = q.slice a b ∧
        (q.Missed a b → st.store.get (db.expEncodeMetaKey ListType key) = none ∧
          (q.items ≠ [] → -1 ≤ position q.items.length b)) := by
  by_cases hc : position q.items.length a ≥ q.items.length ∨
      position q.items.length a > position q.items.length b
  · have hnil := slice_of_cleared hc
    have hmissed : ¬ q.Missed a b := by
      intro hm
      have := hm.1
      have := hm.2.1
      omega
    rw [← ha, ← hb] at hc
    obtain ⟨bt, hrun, hclear⟩ := @ltrim2_clear db env st.store key q ⟨[], st.nc⟩ hs hk h _ _ hc
    refine ⟨_, henv.exec hrun, fun xs => ?_⟩
    rw [hnil, and_iff_left fun hm => absurd hm hmissed]
    exact (hclear.wipes.clean hs).shortened_iff
  · subst ha hb
    obtain ⟨bt, hrun, honly, hkept⟩ := ltrim2_kept hk h rfl rfl hc
    refine ⟨_, henv.exec hrun, fun xs => ?_⟩
    by_cases hlow : q.items ≠ [] ∧ position q.items.length stop.toInt32.toInt < -1
    · rw [if_pos hlow] at hkept
      have hnil : q.slice start.toInt32.toInt stop.toInt32.toInt = [] := by
        rw [Sequence.slice,
          show (position q.items.length stop.toInt32.toInt + 1).toNat = 0 by omega, List.take_zero,
          List.drop_nil]
      refine iff_of_false (not_shortened hkept.1 hkept.2 xs) fun hx => ?_
      have := (hx.2 (.of_slice hc hnil)).2 hlow.1
      omega
    · rw [if_neg hlow] at hkept
      obtain ⟨z, hz⟩ := hkept
      have hlow' : q.items ≠ [] → -1 ≤ position q.items.length stop.toInt32.toInt := by
        intro hq
        by_contra hlt
        exact hlow ⟨hq, not_le.mp hlt⟩
      rw [and_iff_left hlow', show q.Missed start.toInt32.toInt stop.toInt32.toInt ↔
        q.slice start.toInt32.toInt stop.toInt32.toInt = [] from ⟨fun hm => hm.2.2, .of_slice hc⟩]
      exact honly.shortened_iff hz

/-- `LTrim` keeps the slice and the TTL of what it keeps, and nothing when there is nothing to
keep; unless it does not see that there is nothing. -/
theorem ltrim_keeps_slice_iff (henv : env.Commits) (hs : StoreWf st.store) (hk : ValidKey key)
    (h : ListRep db st.store key q) (start stop : Int32) :
    ∃ st', exec env (db.LTrim key start.toInt64 stop.toInt64) st = (.ok (), st') ∧
      (Shortened db st.store st'.store key (q.slice start.toInt stop.toInt) ↔
        (q.Missed start.toInt stop.toInt →
          st.store.get (db.expEncodeMetaKey ListType key) = none ∧
          (q.items ≠ [] → -1 ≤ position q.items.length stop.toInt))) := by
  obtain ⟨st', hrun, hiff⟩ := LTrim_shortened henv hs hk h start.toInt64 stop.toInt64
    (congrArg Int32.toInt start.toInt32_toInt64) (congrArg Int32.toInt stop.toInt32_toInt64)
  refine ⟨st', hrun, ?_⟩
  rw [hiff, and_iff_right rfl]

theorem listRep_local : KeyLocal db .LIST fun s k => ListRep db s k q :=
  fun _ _ k hsame h => h.congr (hsame _ (.lmeta k)) fun n => hsame _ (.litem k n)

theorem RPush_exec (henv : env.Commits) (hk : ValidKey key) (h : ListRep db st.store key q)
    {args : List Bytes} (hne : args ≠ []) (hlen : args.length ≤ 2 ^ 31)
    (hfits : (q.pushTail args).Fits) :
    ListRep db (exec env (db.RPush key args) st).2.store key (q.pushTail args) := by
  obtain ⟨b, hrun, hrep⟩ := RPush_run env ⟨[], st.nc⟩ hk h hne hlen
  rw [if_pos hfits] at hrun
  rw [henv.exec hrun]
  exact hrep hfits

def twoValues : State := (exec (Env.quiet 0) (DB.zero.RPush [107] [[97], [98]]) State.empty).2

theorem twoValues_rep : ListRep DB.zero twoValues.store [107] ⟨1073741824, [[97], [98]]⟩ :=
  RPush_exec ⟨rfl, fun _ _ => rfl⟩ (by decide) (ListRep.of_empty (h := 0) rfl fun _ => rfl)
    (by decide) (by decide) (by decide)

theorem twoValues_reached : Reached twoValues.store :=
  @Reached.call State.empty DB.zero (Env.quiet 0) (.write (.RPush [107] [[97], [98]])) .empty

theorem ltrim_keeps_last : ∃ st', exec (Env.quiet 0)
      (DB.zero.LTrim [107] (1 : Int32).toInt64 (-1 : Int32).toInt64) twoValues = (.ok (), st') ∧
    Shortened DB.zero twoValues.store st'.store [107] [[98]] := by
  have henv : (Env.quiet 0).Commits := ⟨rfl, fun _ _ => rfl⟩
  obtain ⟨st', hrun, hiff⟩ := ltrim_keeps_slice_iff henv twoValues_reached.wf (by decide)
    twoValues_rep 1 (-1)
  refine ⟨st', hrun, hiff.mpr fun hm => ?_⟩
  exact absurd hm.2.2 (by decide)

theorem ltrim_before_head :
    (∃ s, Reached s ∧ ListRep DB.zero s [107] ⟨1073741824, [[97], [98]]⟩ ∧
      ¬ Shortened DB.zero s (exec (Env.quiet 0)
        (DB.zero.LTrim [107] (-4 : Int32).toInt64 (-4 : Int32).toInt64) ⟨s, 0⟩).2.store [107]
        (Sequence.slice ⟨1073741824, [[97], [98]]⟩ (-4) (-4))) ∧
    ∃ s, Reached s ∧ ListRep DB.zero s [107] ⟨1073741824, [[97], [98]]⟩ ∧
      ¬ Shortened DB.zero s (exec (Env.quiet 0)
        (DB.zero.LTrim [107] (-3 : Int32).toInt64 (-3 : Int32).toInt64) ⟨s, 0⟩).2.store [107]
        (Sequence.slice ⟨1073741824, [[97], [98]]⟩ (-3) (-3)) := by
  constructor
  · refine ⟨twoValues.store, twoValues_reached, twoValues_rep, fun h => ?_⟩
    have hmeta := h.gone (by decide) _ (.inl (.lmeta [107]))
    revert hmeta
    decide
  · refine ⟨_, @Reached.call twoValues DB.zero (Env.quiet 0) (.write (.LExpire [107] 10))
      twoValues_reached, listRep_local.expireOnly
        (.expireDuration (expireSized_expireOnly LLen_reads _)) twoValues_rep, fun h => ?_⟩
    have hmeta := h.gone (by decide) _ (.inr rfl)
    revert hmeta
    decide

/-- A list of `xs` is left with `ys`; it goes with its TTL when it becomes empty. -/
def CutDown (db : DB) (s' : Store) (key : Bytes) (xs ys : List Bytes) : Prop :=
  (∃ h, ListRep db s' key ⟨h, ys⟩) ∧ (xs ≠ [] → ys = [] → Clean db s' .LIST key)

theorem Shortened.cutDown {xs ys : List Bytes} (h : Shortened db s s' key ys) :
    CutDown db s' key xs ys :=
  ⟨h.list, fun _ => h.gone⟩

theorem CutDown.refl (h : ListRep db s key q) : CutDown db s key q.items q.items :=
  ⟨⟨q.head, h⟩, fun hne hnil => absurd hnil hne⟩

theorem ltrim_nothing (hk : ValidKey key) (h : ListRep db st.store key q)
    {trimSize : Int32} (hc : trimSize = 0 ∨ q.items = []) (whereSeq : Int32) :
    exec env (db.ltrim key trimSize whereSeq) st = (.ok 0, st) := by
  simp [exec, ltrim_done hk h hc]

/-- Both trims remove what they are asked to and say how much, but a trim at the head whose
size added to the first sequence number leaves `int32` removes nothing. -/
theorem trims_remove_exactly_iff (henv : env.Commits) (hs : StoreWf st.store) (hk : ValidKey key)
    (h : ListRep db st.store key q) {trimSize : Int32} (h0 : 0 ≤ trimSize.toInt) {k : ℕ}
    (hmin : k = min trimSize.toInt.toNat q.items.length) :
    ((∃ st', exec env (db.LTrimFront key trimSize) st = (.ok (Int32.ofNat k), st') ∧
        CutDown db st'.store key q.items (q.items.drop k)) ↔
      (q.items ≠ [] → q.head + trimSize.toInt ≤ 2 ^ 31)) ∧
    ∃ st', exec env (db.LTrimBack key trimSize) st = (.ok (Int32.ofNat k), st') ∧
      CutDown db st'.store key q.items (q.items.take (q.items.length - k)) := by
  by_cases hc : trimSize = 0 ∨ q.items = []
  · have hk0 : k = 0 := by
      rcases hc with rfl | hq
      · exact hmin
      · rw [hmin, hq, List.length_nil, Nat.min_zero]
    rw [hk0, Nat.sub_zero, List.take_length]
    refine ⟨iff_of_true ⟨st, ltrim_nothing hk h hc _, .refl h⟩ fun hq => ?_, st,
      ltrim_nothing hk h hc _, .refl h⟩
    obtain ⟨h1, h2⟩ := push_base h hq
    rw [hc.resolve_right hq]
    exact (show q.head + 0 ≤ 2 ^ 31 by omega)
  · rw [not_or] at hc
    have hpos : 0 < trimSize.toInt := by
      have hne : trimSize.toInt ≠ 0 := fun h' => hc.1 (Int32.toInt_inj.mp h')
      omega
    obtain ⟨h1, h2⟩ := push_base h hc.2
    constructor
    · by_cases hin : q.head + trimSize.toInt ≤ 2 ^ 31
      · obtain ⟨bt, hrun, hshrinks⟩ := LTrimFront_run hk h hc.2 ⟨hpos, by omega⟩ hmin
        exact iff_of_true ⟨_, henv.exec hrun, (hshrinks.shortened hs).cutDown⟩ fun _ => hin
      · have hrun := LTrimFront_wraps env ⟨[], st.nc⟩ hk h hc.2 hc.1 (by omega) (by omega)
        refine iff_of_false ?_ fun hle => hin (hle hc.2)
        rintro ⟨st', hst, -⟩
        rw [henv.exec hrun, Prod.mk.injEq, Except.ok.injEq] at hst
        have hsize := congrArg Int32.toInt hst.1
        rw [int32_ofNat, toInt_ofInt32 ⟨by omega, by omega⟩] at hsize
        omega
    · obtain ⟨k', -, hk', bt, hrun, hshrinks⟩ := LTrimBack_run hk h hc.2 hc.1 (by omega)
      rw [hmin, ← hk' hpos]
      exact ⟨_, henv.exec hrun, (hshrinks.shortened hs).cutDown⟩

theorem trims_remove_one :
    ((∃ st', exec (Env.quiet 0) (DB.zero.LTrimFront [107] 1) twoValues =
        (.ok (Int32.ofNat 1), st') ∧
        CutDown DB.zero st'.store [107] [[97], [98]] [[98]]) ↔
      ([[97], [98]] ≠ ([] : List Bytes) → (1073741824 : ℤ) + 1 ≤ 2 ^ 31)) ∧
    ∃ st', exec (Env.quiet 0) (DB.zero.LTrimBack [107] 1) twoValues = (.ok (Int32.ofNat 1), st') ∧
      CutDown DB.zero st'.store [107] [[97], [98]] [[97]] := by
  have henv : (Env.quiet 0).Commits := ⟨rfl, fun _ _ => rfl⟩
  exact trims_remove_exactly_iff henv twoValues_reached.wf (by decide) twoValues_rep
    (by decide) (by decide)

theorem trimFront_removes_nothing :
    Reached twoValues.store ∧
    ListRep DB.zero twoValues.store [107] ⟨1073741824, [[97], [98]]⟩ ∧
    exec (Env.quiet 0) (DB.zero.LTrimFront [107] 2147483647) twoValues =
      (.ok 2147483647, twoValues) :=
  ⟨twoValues_reached, twoValues_rep, rfl⟩

end

end LedisDB
