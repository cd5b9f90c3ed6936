import Mathlib.Data.Set.Basic
import LedisDB.Simulation
import LedisDB.Rpl.StoreContents

/-!
# Runs of the file log store

Logs with consecutive IDs that are stored one after the other are all kept,
whatever the size of the data files, and a mapped store writes the same files as
a raw one. Over any run the IDs stay consecutive as long as the first log after
the store is opened continues where the store ends.
-/

namespace LedisDB.Rpl

open List

namespace FileStore

def storeAll (s : FileStore) (ls : List Log) : Except Err FileStore :=
  ls.foldlM (fun s l => match s.storeLog l with
    | (.ok _, s) => .ok s
    | (.error e, _) => .error e) s

variable {s s' t t' : FileStore} {ts : List (ℕ × List Log)} {cur ls : List Log} {l : Log}

theorem storeAll_cons (h : s.storeAll (l :: ls) = .ok s') :
    ∃ u, s.storeLog l = (.ok (), u) ∧ u.storeAll ls = .ok s' := by
  rw [storeAll, foldlM_cons] at h
  obtain ⟨u, hu, h⟩ := Err.bind_ok_iff.mp h
  refine ⟨u, ?_, h⟩
  rcases hs : s.storeLog l with ⟨r, v⟩
  rw [hs] at hu
  cases r with
  | error e => cases hu
  | ok _ =>
    cases hu
    rfl

theorem Holds.storeAll_both (hs : s.Holds ts cur) (ht : t.Holds ts cur)
    (hindex : s.w.index = t.w.index) (hmax : s.maxLogSize = t.maxLogSize)
    (hc : Contiguous (logsOf ts cur ++ ls)) (hs' : s.storeAll ls = .ok s')
    (ht' : t.storeAll ls = .ok t') :
    ∃ ts' cur', s'.Holds ts' cur' ∧ t'.Holds ts' cur' ∧ s'.w.index = t'.w.index ∧
      logsOf ts' cur' = logsOf ts cur ++ ls := by
  induction ls generalizing s t ts cur with
  | nil =>
    cases hs'
    cases ht'
    exact ⟨ts, cur, hs, ht, hindex, by rw [append_nil]⟩
  | cons l ls ih =>
    obtain ⟨u, hu, hs'⟩ := storeAll_cons hs'
    obtain ⟨v, hv, ht'⟩ := storeAll_cons ht'
    have htakes := hc.takes
    obtain ⟨⟨humax, -⟩, hustate⟩ := hs.storeLog_tables htakes hu
    obtain ⟨⟨hvmax, -⟩, hvstate⟩ := ht.storeLog_tables htakes hv
    rw [← singleton_append, ← append_assoc] at hc ⊢
    rw [← hmax, ← hindex] at hvstate
    split_ifs at hustate hvstate with hfull
    · have hlogs : logsOf (ts ++ [(s.w.index, cur)]) [l] = logsOf ts cur ++ [l] := by
        simp [logsOf]
      rw [← hlogs] at hc ⊢
      exact ih hustate.1 hvstate.1 (hustate.2.trans hvstate.2.symm)
        (humax.trans (hmax.trans hvmax.symm)) hc hs' ht'
    · have hlogs : logsOf ts (cur ++ [l]) = logsOf ts cur ++ [l] := by
        simp [logsOf]
      rw [← hlogs] at hc ⊢
      exact ih hustate.1 hvstate.1 (hustate.2.trans (hindex ▸ hvstate.2.symm))
        (humax.trans (hmax.trans hvmax.symm)) hc hs' ht'

theorem new_empty_holds (cfg : ℤ) (useMmap : Bool) :
    ∃ s, new cfg useMmap .empty = .ok s ∧ s.Holds [] [] ∧ s.w.index = 1 ∧
      s.maxLogSize = logFileSize cfg ∧ s.useMmap = useMmap := by
  obtain ⟨s, hs, hholds, hmax, hmmap⟩ := @new_closed [] .empty rfl (by simp) .nil
    (by simp) cfg useMmap
  refine ⟨s, hs, hholds, ?_, hmax, hmmap⟩
  cases hs
  rfl

/-- What the store answers when it holds exactly the logs `ls`, to queries for these and
for the IDs in `ids`. -/
structure Answers (s : FileStore) (k : UInt64) (ls : List Log) (ids : Set UInt64) : Prop where
  FirstID_eq : s.FirstID = k
  LastID_eq : s.LastID = lastID ls
  found : ∀ l ∈ ls, s.GetLog l.ID = .ok l
  not_found : ∀ id ∈ ids, (∀ l ∈ ls, l.ID ≠ id) → s.GetLog id = .error .ErrLogNotFound

theorem Holds.answers (h : s.Holds ts cur) (hlogs : logsOf ts cur = ls)
    (hsmall : ∀ l ∈ ls, l.Data.length < 2 ^ 32) {k : UInt64} (hk : firstID ls = k)
    {ids : Set UInt64} (hids : 0 ∉ ids) : s.Answers k ls ids where
  FirstID_eq := by rw [h.FirstID_eq, hlogs, hk]
  LastID_eq := by rw [h.LastID_eq, hlogs]
  found := by
    intro l hl
    rw [h.GetLog_of_mem (hlogs ▸ hl), Log.wire_eq (hsmall l hl)]
  not_found := by
    intro id hid hnone
    rw [h.GetLog_of_not_mem (hlogs ▸ hnone), if_neg]
    rintro ⟨-, rfl⟩
    exact hids hid

/-- The logs stored in a new store are what it answers with, before and after it is closed
and opened again, and the files do not depend on how they were written. -/
theorem store_keeps_logs {cfg : ℤ} {useMmap : Bool} {k : UInt64} {ls : List Log} {s : FileStore}
    (hk : 1 ≤ k) (hne : ls ≠ []) (hls : Numbered k.toNat ls)
    (hs : new cfg useMmap .empty >>= (fun s => s.storeAll ls) = .ok s) (ids : Set UInt64) :
    (s.Answers k ls ids ∧
      (∀ cfg' m, ∃ s', new cfg' m s.Close = .ok s' ∧ s'.Answers k ls ids) ∧
      ∀ m t, new cfg m .empty >>= (fun t => t.storeAll ls) = .ok t → t.Close = s.Close) ↔
    (∀ l ∈ ls, l.Data.length < 2 ^ 32) ∧ 0 ∉ ids := by
  have hfirst := UInt64.toNat_inj.mp (hls.firstID_eq hne)
  have hc : Contiguous (logsOf [] [] ++ ls) := by
    rw [logsOf_nil, List.nil_append]
    refine ⟨by rwa [hfirst], fun _ => ?_⟩
    rw [hfirst]
    rintro rfl
    exact absurd hk (by decide)
  obtain ⟨s₀, hnew, h₀, hindex, hmax, -⟩ := new_empty_holds cfg useMmap
  have hs' : s₀.storeAll ls = .ok s := by rwa [hnew] at hs
  have hsame : ∀ m t, new cfg m .empty >>= (fun t => t.storeAll ls) = .ok t →
      t.Close = s.Close := by
    intro m t ht
    obtain ⟨t₀, hnew', h₀', hindex', hmax', -⟩ := new_empty_holds cfg m
    rw [hnew'] at ht
    obtain ⟨ts, cur, hhs, hht, hi, -⟩ := h₀.storeAll_both h₀' (hindex.trans hindex'.symm)
      (hmax.trans hmax'.symm) hc hs' ht
    apply OrderedMap.ext_entries
    rw [hhs.closed.1, hht.closed.1, hi]
  obtain ⟨ts, cur, hhold, -, -, hlogs⟩ := h₀.storeAll_both h₀ rfl rfl hc hs' hs'
  constructor
  · rintro ⟨hans, hreopen, -⟩
    have hsmall : ∀ l ∈ ls, l.Data.length < 2 ^ 32 := by
      intro l hl
      have hget := hans.found l hl
      rw [hhold.GetLog_of_mem (hlogs ▸ hl)] at hget
      exact Log.wire_eq_iff.mp (Except.ok.inj hget)
    refine ⟨hsmall, fun h0 => ?_⟩
    obtain ⟨s', hs', hans'⟩ := hreopen cfg useMmap
    obtain ⟨s'', hs'', hhold', -⟩ := hhold.reopen (hlogs ▸ hsmall) cfg useMmap
    rw [hs'] at hs''
    cases hs''
    have hnone : ∀ l ∈ ls, l.ID ≠ 0 := fun l hl => hhold.contiguous.id_ne_zero (hlogs ▸ hl)
    have hget := hans'.not_found 0 h0 hnone
    rw [hhold'.GetLog_of_not_mem (by rwa [logsOf_closedTables, hlogs])] at hget
    cases hget
  · rintro ⟨hsmall, hids⟩
    refine ⟨hhold.answers hlogs hsmall hfirst hids, fun cfg' m => ?_, hsame⟩
    obtain ⟨s', hs', hhold', -⟩ := hhold.reopen (hlogs ▸ hsmall) cfg' m
    exact ⟨s', hs', hhold'.answers ((logsOf_closedTables _ ts cur).trans hlogs) hsmall hfirst hids⟩

theorem store_keeps_logs_two :
    ∃ s, new (-1) false .empty >>= (fun s => s.storeAll [⟨7, 0, 0, [1]⟩, ⟨8, 0, 0, []⟩]) = .ok s ∧
      s.Answers 7 [⟨7, 0, 0, [1]⟩, ⟨8, 0, 0, []⟩] {id | id ≠ 0} :=
  ⟨_, rfl, ((@store_keeps_logs (-1) false 7 _ _ (by decide) (by simp) (by decide) rfl
    {id | id ≠ 0}).mpr ⟨by decide, by simp⟩).1⟩

theorem reopened_store_panics :
    ∃ s s', new 0 false .empty >>= (fun s => s.storeAll [⟨1, 0, 0, []⟩]) = .ok s ∧
      new 0 false s.Close = .ok s' ∧ s.GetLog 0 = .error .ErrLogNotFound ∧
      s'.GetLog 0 = .error .panic :=
  ⟨_, _, rfl, rfl, rfl, rfl⟩

inductive StoreCall
  | StoreLog (l : Log)
  | PurgeExpired (t : UInt32)
  | purgeExcess (maxNum : ℕ)
  | Reopen (cfg : ℤ) (useMmap : Bool)

def Step (s : FileStore) : StoreCall → FileStore → Prop
  | .StoreLog l, s' => (s.storeLog l).2 = s'
  | .PurgeExpired t, s' => s.PurgeExpired t = s'
  | .purgeExcess maxNum, s' => s.purgeExcess maxNum = s'
  | .Reopen cfg useMmap, s' => new cfg useMmap s.Close = .ok s'

/-- A log that is stored while the writer is empty continues where the store ends, and
the length of every log fits in its head. -/
def Continues (s : FileStore) : StoreCall → Prop
  | .StoreLog l => (s.w.last = 0 → s.LastID ≠ 0 → l.ID ≠ 0 → l.ID = s.LastID + 1) ∧
      l.Data.length < 2 ^ 32
  | _ => True

/-- A mapping that fails would leave an empty data file behind. -/
def OpensFiles (s : FileStore) : StoreCall → Prop
  | .StoreLog _ => s.Mappable
  | _ => True

theorem Holds.last_eq_zero_iff (h : s.Holds ts cur) : s.LastID = 0 ↔ logsOf ts cur = [] := by
  rw [h.LastID_eq]
  constructor
  · intro hlast
    by_contra hne
    have hpos := h.contiguous.positive hne
    have hfirst := h.contiguous.numbered.lastID_eq hne
    have hlen := length_pos_iff.mpr hne
    rw [hlast, UInt64.toNat_zero] at hfirst
    rw [← UInt64.toNat_inj.ne, UInt64.toNat_zero] at hpos
    omega
  · intro hnil
    rw [hnil]
    rfl

theorem Holds.takes_of_last (h : s.Holds ts cur)
    (hc : s.w.last = 0 → s.LastID ≠ 0 → l.ID ≠ 0 → l.ID = s.LastID + 1) :
    Takes cur l → Takes (logsOf ts cur) l := by
  intro htakes
  refine ⟨htakes.1, fun hne => ?_⟩
  by_cases hcur : cur = []
  · have hw : s.w.last = 0 := by
      rw [h.writer.last_eq, hcur]
      rfl
    rw [← h.LastID_eq]
    exact hc hw (fun h0 => hne (h.last_eq_zero_iff.mp h0)) htakes.1
  · rw [htakes.2 hcur, logsOf, lastID_append _ hcur]

def Sound (s : FileStore) : Prop :=
  ∃ ts cur, s.Holds ts cur ∧ ∀ l ∈ logsOf ts cur, l.Data.length < 2 ^ 32

theorem Sound.purge (h : s.Sound) (n : ℕ) : (s.purge n).Sound := by
  obtain ⟨ts, cur, hs, hsmall⟩ := h
  refine ⟨ts.drop n, cur, hs.purge n, fun l hl => hsmall l ?_⟩
  rcases mem_append.mp hl with hl | hl
  · obtain ⟨T, hT, hlT⟩ := mem_flatMap.mp hl
    exact mem_append_left _ (mem_flatMap.mpr ⟨T, mem_of_mem_drop hT, hlT⟩)
  · exact mem_append_right _ hl

theorem Sound.step {c : StoreCall} (h : s.Sound) (hc : s.Continues c) (hs : s.Step c s') :
    s'.Sound := by
  cases c with
  | StoreLog l =>
    obtain ⟨ts, cur, hhold, hsmall⟩ := h
    obtain ⟨ts', cur', hhold', hcase⟩ := hhold.storeLog_cases (hhold.takes_of_last hc.1)
    rw [show (s.storeLog l).2 = s' from hs] at hhold'
    refine ⟨ts', cur', hhold', ?_⟩
    rcases hcase with ⟨-, -, hlogs⟩ | ⟨-, hlogs⟩
    · rw [hlogs]
      intro x hx
      rcases mem_append.mp hx with hx | hx
      · exact hsmall x hx
      · rw [mem_singleton.mp hx]
        exact hc.2
    · rwa [hlogs]
  | PurgeExpired t =>
    obtain rfl := hs
    unfold PurgeExpired
    split
    · exact h
    · exact h.purge _
  | purgeExcess n =>
    obtain rfl := hs
    exact h.purge _
  | Reopen cfg m =>
    obtain ⟨ts, cur, hhold, hsmall⟩ := h
    obtain ⟨s'', hs'', hhold', -⟩ := hhold.reopen hsmall cfg m
    obtain rfl := Except.ok.inj (hs''.symm.trans hs)
    exact ⟨_, [], hhold', by rwa [logsOf_closedTables]⟩

theorem Sound.accepts_next (h : s.Sound) (hc : s.Continues (.StoreLog l)) (hne : s.LastID ≠ 0)
    (hok : s.storeLog l = (.ok (), s')) : l.ID = s.LastID + 1 := by
  obtain ⟨ts, cur, hhold, -⟩ := h
  obtain ⟨ts', cur', -, hcase⟩ := hhold.storeLog_cases (hhold.takes_of_last hc.1)
  rw [hok] at hcase
  rcases hcase with ⟨-, htakes, -⟩ | ⟨herr, -⟩
  · rw [hhold.LastID_eq]
    exact htakes.2 fun hnil => hne (hhold.last_eq_zero_iff.mpr hnil)
  · exact absurd rfl herr

theorem Sound.GetLog_of_range (h : s.Sound) (hne : s.LastID ≠ 0) {id : UInt64}
    (hfirst : s.FirstID ≤ id) (hlast : id ≤ s.LastID) : ∃ l, s.GetLog id = .ok l ∧ l.ID = id := by
  obtain ⟨ts, cur, hhold, -⟩ := h
  have hlogs := fun hnil => hne (hhold.last_eq_zero_iff.mpr hnil)
  rw [hhold.FirstID_eq] at hfirst
  rw [hhold.LastID_eq] at hlast
  have hin : ∃ l ∈ logsOf ts cur, l.ID = id := by
    by_contra hnone
    rcases (hhold.contiguous.numbered.out_of_range_iff hlogs id).mpr
      (fun l hl he => hnone ⟨l, hl, he⟩) with hlt | hgt
    · exact UInt64.not_lt.mpr hfirst hlt
    · exact UInt64.not_lt.mpr hlast hgt
  obtain ⟨l, hl, rfl⟩ := hin
  exact ⟨l.wire, hhold.GetLog_of_mem hl, rfl⟩

theorem Sound.reopens (h : s.Sound) (cfg : ℤ) (useMmap : Bool) :
    ∃ s', new cfg useMmap s.Close = .ok s' := by
  obtain ⟨ts, cur, hhold, hsmall⟩ := h
  obtain ⟨s', hs', -⟩ := hhold.reopen hsmall cfg useMmap
  exact ⟨s', hs'⟩

theorem new_empty_sound {cfg : ℤ} {useMmap : Bool} (h : new cfg useMmap .empty = .ok s) :
    s.Sound := by
  obtain ⟨s₀, hs₀, hhold, -⟩ := new_empty_holds cfg useMmap
  rw [hs₀] at h
  cases h
  exact ⟨[], [], hhold, by simp⟩

/-- The IDs of a store stay contiguous over every run in which logs that come right after
an opening continue where the store ends. -/
theorem store_ids_contiguous {cfg : ℤ} {useMmap : Bool} {s₀ s : FileStore}
    (h₀ : new cfg useMmap .empty = .ok s₀)
    (hs : Reaches Step (fun s c => s.Continues c ∧ s.OpensFiles c) s₀ s) :
    (∀ l s', s.Continues (.StoreLog l) → s.LastID ≠ 0 → s.storeLog l = (.ok (), s') →
      l.ID = s.LastID + 1) ∧
    (∀ id, s.LastID ≠ 0 → s.FirstID ≤ id → id ≤ s.LastID → ∃ l, s.GetLog id = .ok l ∧ l.ID = id) ∧
    ∀ cfg' m, ∃ s', new cfg' m s.Close = .ok s' := by
  have hsound := hs.invariant (new_empty_sound h₀) fun _ _ _ h hc hstep => h.step hc.1 hstep
  exact ⟨fun l s' hc hne hok => hsound.accepts_next hc hne hok,
    fun id hne hfirst hlast => hsound.GetLog_of_range hne hfirst hlast, hsound.reopens⟩

theorem store_ids_contiguous_reopened :
    ∃ s₀ s₁ s₂ s₃, new 0 false .empty = .ok s₀ ∧ s₀.storeLog ⟨5, 0, 0, []⟩ = (.ok (), s₁) ∧
      new 0 false s₁.Close = .ok s₂ ∧ s₂.storeLog ⟨6, 0, 0, []⟩ = (.ok (), s₃) ∧
      ∃ l, s₃.GetLog 5 = .ok l ∧ l.ID = 5 :=
  ⟨_, _, _, _, rfl, rfl, rfl, rfl,
    (@store_ids_contiguous 0 false _ _ rfl
      (.step (c := .StoreLog ⟨6, 0, 0, []⟩)
        (.step (c := .Reopen 0 false)
          (.step (c := .StoreLog ⟨5, 0, 0, []⟩) .refl
            ⟨⟨by decide, by decide⟩, nofun⟩ rfl) ⟨trivial, trivial⟩ rfl)
        ⟨⟨by decide, by decide⟩, nofun⟩ rfl)).2.1 5 (by decide) (by decide) (by decide)⟩

theorem reopened_store_takes_earlier_log :
    ∃ s₀ s₁ s₂ s₃, new 0 false .empty = .ok s₀ ∧ s₀.storeLog ⟨5, 0, 0, []⟩ = (.ok (), s₁) ∧
      new 0 false s₁.Close = .ok s₂ ∧ s₂.LastID = 5 ∧
      s₂.storeLog ⟨3, 0, 0, []⟩ = (.ok (), s₃) ∧ new 0 false s₃.Close = .error .invalidTable :=
  ⟨_, _, _, _, rfl, rfl, rfl, rfl, rfl, rfl⟩

end FileStore

end LedisDB.Rpl
