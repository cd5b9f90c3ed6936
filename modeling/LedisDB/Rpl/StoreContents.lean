import LedisDB.Rpl.TableContents

/-!
# What a file log store holds

A store holds the logs of its closed tables and of its writer. While the IDs of
all these logs are consecutive, every log is found under its ID, storing the next
one rotates the tables as needed, a purge gives up the oldest tables, and a store
that is closed and opened again holds the same logs.
-/

namespace LedisDB.Rpl

open List

variable {ls : List Log} {t : TableWriter}

namespace TableReaders

variable {ts : List TableReader} {t u : TableReader} {id : UInt64}

def Ascending (ts : List TableReader) : Prop :=
  ts.Pairwise (fun a b => a.last < b.first) ∧ ∀ t ∈ ts, t.first ≤ t.last

theorem searchLoop_some {fuel : ℕ} {i j : ℤ} (h : searchLoop ts id fuel i j = some t) :
    t ∈ ts ∧ t.first ≤ id ∧ id ≤ t.last := by
  induction fuel generalizing i j with
  | zero => simp [searchLoop] at h
  | succ fuel ih =>
    unfold searchLoop at h
    split_ifs at h with hij
    cases hget : ts[(i + (j - i) / 2).toNat]? with
    | none => simp [hget] at h
    | some u =>
      simp only [hget] at h
      split_ifs at h with hin hlt
      · cases h
        exact ⟨mem_of_getElem? hget, hin⟩
      · exact ih h
      · exact ih h

theorem Ascending.index_le (h : Ascending ts) {k m : ℕ} (hk : ts[k]? = some t)
    (hm : ts[m]? = some u) (hle : t.first ≤ u.last) : k ≤ m := by
  by_contra hlt
  have hu := List.pairwise_iff_getElem.mp h.1 m k (List.getElem?_eq_some_iff.mp hm).1
    (List.getElem?_eq_some_iff.mp hk).1 (not_le.mp hlt)
  rw [(List.getElem?_eq_some_iff.mp hm).2, (List.getElem?_eq_some_iff.mp hk).2] at hu
  exact UInt64.not_lt.mpr hle hu

theorem Ascending.searchLoop_isSome (h : Ascending ts) {k fuel : ℕ} {i j : ℤ}
    (hk : ts[k]? = some t) (hid : t.first ≤ id ∧ id ≤ t.last) (hi : 0 ≤ i) (hik : i ≤ k)
    (hkj : (k : ℤ) ≤ j) (hj : j < ts.length) (hfuel : j - i < fuel) :
    (searchLoop ts id fuel i j).isSome := by
  induction fuel generalizing i j with
  | zero => omega
  | succ fuel ih =>
    have hmid : (i + (j - i) / 2).toNat < ts.length := by omega
    obtain ⟨u, hget⟩ : ∃ u, ts[(i + (j - i) / 2).toNat]? = some u := ⟨_, getElem?_eq_getElem hmid⟩
    rw [searchLoop, if_pos (hik.trans hkj)]
    dsimp only
    rw [hget]
    dsimp only
    split_ifs with hin hlt
    · rfl
    · have hle := h.index_le hget hk (UInt64.le_trans (h.2 _ (mem_of_getElem? hget))
        (UInt64.le_trans (UInt64.le_of_lt hlt) hid.2))
      have hne : (i + (j - i) / 2).toNat ≠ k := by
        intro he
        rw [he, hk] at hget
        cases hget
        exact UInt64.not_lt.mpr hid.2 hlt
      exact ih (by omega) (by omega) hkj hj (by omega)
    · have hle := h.index_le hk hget (UInt64.le_trans hid.1 (UInt64.not_lt.mp hlt))
      have hne : (i + (j - i) / 2).toNat ≠ k := by
        intro he
        rw [he, hk] at hget
        cases hget
        exact hin hid
      exact ih hi hik (by omega) (by omega) (by omega)

theorem Ascending.Search_eq_some (h : Ascending ts) (ht : t ∈ ts)
    (hid : t.first ≤ id ∧ id ≤ t.last) : Search ts id = some t := by
  obtain ⟨k, hk⟩ := List.mem_iff_getElem?.mp ht
  have hlt := (List.getElem?_eq_some_iff.mp hk).1
  have hsome : (Search ts id).isSome :=
    h.searchLoop_isSome hk hid le_rfl (by omega) (by omega) (by omega) (by omega)
  obtain ⟨u, hu⟩ := Option.isSome_iff_exists.mp hsome
  obtain ⟨humem, huid⟩ := searchLoop_some hu
  obtain ⟨m, hm⟩ := mem_iff_getElem?.mp humem
  have hkm := le_antisymm (h.index_le hk hm (UInt64.le_trans hid.1 huid.2))
    (h.index_le hm hk (UInt64.le_trans huid.1 hid.2))
  rw [hkm, hm] at hk
  cases hk
  exact hu

theorem Search_eq_none (h : ∀ t ∈ ts, ¬(t.first ≤ id ∧ id ≤ t.last)) : Search ts id = none := by
  cases hs : Search ts id with
  | none => rfl
  | some t => exact absurd (searchLoop_some hs).2 (h t (searchLoop_some hs).1)

end TableReaders

def readerOf (T : ℕ × List Log) : TableReader := ⟨T.1, firstID T.2, lastID T.2, lastLogTime T.2⟩

def filesOf (ls : List Log) : TableFiles := ⟨some (records ls ++ magic), some (positions ls)⟩

def logsOf (ts : List (ℕ × List Log)) (cur : List Log) : List Log := ts.flatMap Prod.snd ++ cur

@[simp] theorem logsOf_nil (cur : List Log) : logsOf [] cur = cur := rfl

theorem firstID_mem (hne : ls ≠ []) : ∃ l ∈ ls, l.ID = firstID ls := by
  cases ls with
  | nil => exact absurd rfl hne
  | cons l ls => exact ⟨l, (.head _), rfl⟩

theorem readers_ascending {n : ℕ} {ts : List (ℕ × List Log)} (hn : Numbered n (ts.flatMap Prod.snd))
    (hne : ∀ T ∈ ts, T.2 ≠ []) : TableReaders.Ascending (ts.map readerOf) := by
  induction ts generalizing n with
  | nil => exact ⟨List.Pairwise.nil, by simp⟩
  | cons T ts ih =>
    rw [flatMap_cons, numbered_append] at hn
    obtain ⟨hT, hts⟩ := hn
    have hTne := hne T (.head _)
    have hfirst := hT.firstID_eq hTne
    have hlast := hT.lastID_eq hTne
    have hlen := length_pos_iff.mpr hTne
    obtain ⟨hpair, hle⟩ := ih hts fun U hU => hne U (.tail _ hU)
    refine ⟨pairwise_cons.mpr ⟨?_, hpair⟩, ?_⟩
    · intro u hu
      obtain ⟨U, hU, rfl⟩ := mem_map.mp hu
      obtain ⟨l, hl, hid⟩ := firstID_mem (hne U (.tail _ hU))
      have hmem := (hts.mem_ids_iff l.ID).mp ⟨l, mem_flatMap.mpr ⟨U, hU, hl⟩, rfl⟩
      change lastID T.2 < firstID U.2
      rw [← hid, UInt64.lt_iff_toNat_lt]
      omega
    · intro u hu
      rcases mem_cons.mp hu with rfl | hu
      · change firstID T.2 ≤ lastID T.2
        rw [UInt64.le_iff_toNat_le]
        omega
      · exact hle u hu

namespace FileStore

structure Holds (s : FileStore) (ts : List (ℕ × List Log)) (cur : List Log) : Prop where
  rs_eq : s.rs = ts.map readerOf
  dir_eq : s.dir.entries = ts.map fun T => (T.1, filesOf T.2)
  index_pos : ∀ T ∈ ts, 0 < T.1
  nonempty : ∀ T ∈ ts, T.2 ≠ []
  addressed : ∀ T ∈ ts, Addressed T.2
  index_lt : ∀ T ∈ ts, T.1 < s.w.index
  writer : s.w.Holds cur
  writer_pos : 0 < s.w.index
  contiguous : Contiguous (logsOf ts cur)
  maxLogSize_eq : s.w.maxLogSize = s.maxLogSize
  useMmap_eq : s.w.useMmap = s.useMmap

variable {s : FileStore} {ts : List (ℕ × List Log)} {cur : List Log} {l : Log} {T : ℕ × List Log}

section
variable (h : s.Holds ts cur)
include h

theorem Holds.files_eq (hT : T ∈ ts) : s.dir.files T.1 = filesOf T.2 := by
  have hmem : (T.1, filesOf T.2) ∈ s.dir.entries := by
    rw [h.dir_eq]
    exact mem_map_of_mem hT
  rw [Dir.files, OrderedMap.get_eq_some_iff.mpr hmem, Option.getD_some]

theorem Holds.table_contiguous (hT : T ∈ ts) : Contiguous T.2 := by
  obtain ⟨as, bs, rfl⟩ := append_of_mem hT
  have hc := h.contiguous
  rw [logsOf, flatMap_append, flatMap_cons, append_assoc, append_assoc] at hc
  exact hc.of_infix

theorem Holds.serves (hT : T ∈ ts) : (readerOf T).Serves (s.dir.files T.1) T.2 where
  nonempty := h.nonempty T hT
  first_eq := rfl
  last_eq := rfl
  data_eq := ⟨magic, by rw [h.files_eq hT]; rfl⟩
  metaFile_eq := by rw [h.files_eq hT]; rfl
  contiguous := h.table_contiguous hT
  addressed := h.addressed T hT

theorem Holds.ascending : TableReaders.Ascending (ts.map readerOf) :=
  readers_ascending (numbered_append.mp h.contiguous.numbered).1 h.nonempty

theorem Holds.FirstID_eq : s.FirstID = firstID (logsOf ts cur) := by
  rw [FirstID, h.rs_eq, h.writer.first_eq]
  cases ts with
  | nil => simp
  | cons T ts =>
    have hne := h.nonempty T (.head _)
    have hpos := (h.table_contiguous (.head _)).positive hne
    simp only [map_cons, readerOf, UInt64.pos_iff_ne_zero.mpr hpos, ↓reduceIte,
      logsOf, flatMap_cons, append_assoc]
    rw [firstID_append hne]

theorem Holds.LastID_eq : s.LastID = lastID (logsOf ts cur) := by
  unfold LastID logsOf
  by_cases hcur : cur = []
  · rw [if_neg fun hpos => h.writer.last_pos_iff.mp hpos hcur, h.rs_eq, hcur, append_nil]
    induction ts using reverseRecOn with
    | nil => rfl
    | append_singleton ts T _ =>
      have hne := h.nonempty T (by simp)
      rw [flatMap_append, lastID_append _ (by simpa using hne)]
      simp [readerOf]
  · rw [if_pos (h.writer.last_pos_iff.mpr hcur), h.writer.last_eq, lastID_append _ hcur]

theorem Holds.GetLog_of_mem (hl : l ∈ logsOf ts cur) : s.GetLog l.ID = .ok l.wire := by
  unfold GetLog
  rcases mem_append.mp hl with hts | hcur
  · obtain ⟨T, hT, hlT⟩ := mem_flatMap.mp hts
    have hne : ∀ x ∈ cur, x.ID ≠ l.ID := fun x hx =>
      (h.contiguous.numbered.id_ne_of_append hts hx).symm
    have h0 := h.contiguous.id_ne_zero hl
    have hrange : (readerOf T).first ≤ l.ID ∧ l.ID ≤ (readerOf T).last := by
      have := mt ((h.serves hT).out_of_range_iff l.ID).mp fun hall => hall l hlT rfl
      rw [not_or] at this
      exact ⟨UInt64.not_lt.mp this.1, UInt64.not_lt.mp this.2⟩
    rw [h.writer.GetLog_of_not_mem hne, if_neg fun hc => h0 hc.2, h.rs_eq,
      h.ascending.Search_eq_some (mem_map_of_mem hT) hrange]
    exact (h.serves hT).GetLog_of_mem hlT
  · rw [h.writer.GetLog_of_mem hcur]

theorem Holds.GetLog_of_not_mem {id : UInt64} (hid : ∀ l ∈ logsOf ts cur, l.ID ≠ id) :
    s.GetLog id = if cur = [] ∧ id = 0 then .error .panic else .error .ErrLogNotFound := by
  have hcur := fun l hl => hid l (mem_append_right _ hl)
  have hnone : TableReaders.Search s.rs id = none := by
    apply TableReaders.Search_eq_none
    rw [h.rs_eq]
    intro t ht hrange
    obtain ⟨T, hT, rfl⟩ := mem_map.mp ht
    rcases ((h.serves hT).out_of_range_iff id).mpr (fun l hl =>
      hid l (mem_append_left _ (mem_flatMap.mpr ⟨T, hT, hl⟩))) with hlt | hgt
    · exact UInt64.not_lt.mpr hrange.1 hlt
    · exact UInt64.not_lt.mpr hrange.2 hgt
  rw [GetLog, h.writer.GetLog_of_not_mem hcur]
  split_ifs
  · rfl
  · rw [hnone]

end

end FileStore

def TableWriter.flushed (t : TableWriter) : TableWriter :=
  { t with first := 0, last := 0, index := t.index + 1, data := none, metaFile := none }

theorem TableWriter.Holds.Flush_eq (h : t.Holds ls) (hne : ls ≠ []) :
    t.Flush = .ok (readerOf (t.index, ls), filesOf ls, t.flushed) := by
  obtain ⟨f, hf, _⟩ := h.data_eq hne
  obtain ⟨g, hg, _⟩ := h.metaFile_eq hne
  have hreader : ⟨t.index, t.first, t.last, t.lastTime⟩ = readerOf (t.index, ls) := by
    rw [h.first_eq, h.last_eq, h.lastTime_eq hne]
    rfl
  rw [Flush, if_neg (by simp [hf, hg]), h.close_eq hne, hreader]
  rfl

theorem TableWriter.Holds.flushed (h : t.Holds ls) : t.flushed.Holds [] where
  first_eq := rfl
  last_eq := rfl
  lastTime_eq := fun hne => absurd rfl hne
  files_eq := fun _ => ⟨rfl, rfl⟩
  data_eq := fun hne => absurd rfl hne
  metaFile_eq := fun hne => absurd rfl hne
  notClosed := h.notClosed
  contiguous := .nil
  addressed := by simp [Addressed, Records.offsets]
  maxLogSize_le := h.maxLogSize_le

namespace FileStore

variable {s s' : FileStore} {ts : List (ℕ × List Log)} {cur : List Log} {l : Log}

theorem takes_cur (hl : Takes (logsOf ts cur) l) : Takes cur l := by
  refine ⟨hl.1, fun hne => ?_⟩
  rw [hl.2 (by simp [logsOf, hne]), logsOf, lastID_append _ hne]

theorem Holds.storeLog_refused (h : s.Holds ts cur) (hl : ¬ Takes cur l) :
    s.storeLog l = (.error .ErrStoreLogID, s) := by
  rw [storeLog, h.writer.storeLog_eq, if_pos hl]

theorem Holds.storeLog_open (h : s.Holds ts cur) (hl : Takes (logsOf ts cur) l)
    {w : TableWriter} (hw : w.Holds (cur ++ [l])) (hindex : w.index = s.w.index)
    (hmax : w.maxLogSize = s.w.maxLogSize) (hmmap : w.useMmap = s.w.useMmap) :
    FileStore.Holds { s with w } ts (cur ++ [l]) where
  rs_eq := h.rs_eq
  dir_eq := h.dir_eq
  index_pos := h.index_pos
  nonempty := h.nonempty
  addressed := h.addressed
  index_lt := fun T hT => by rw [hindex]; exact h.index_lt T hT
  writer := hw
  writer_pos := by rw [hindex]; exact h.writer_pos
  contiguous := by
    have := h.contiguous.append_singleton hl
    unfold logsOf at this ⊢
    rwa [append_assoc] at this
  maxLogSize_eq := by rw [hmax]; exact h.maxLogSize_eq
  useMmap_eq := by rw [hmmap]; exact h.useMmap_eq

def flushed (s : FileStore) (cur : List Log) : FileStore :=
  { s with
    dir := s.dir.insert s.w.index (filesOf cur)
    rs := s.rs ++ [readerOf (s.w.index, cur)]
    w := s.w.flushed }

theorem Holds.flushed (h : s.Holds ts cur) (hne : cur ≠ []) :
    (s.flushed cur).Holds (ts ++ [(s.w.index, cur)]) [] where
  rs_eq := by simp [FileStore.flushed, h.rs_eq]
  dir_eq := by
    have hlt : ∀ e ∈ s.dir.entries, e.1 < s.w.index := by
      rw [h.dir_eq]
      intro e he
      obtain ⟨T, hT, rfl⟩ := mem_map.mp he
      exact h.index_lt T hT
    change (s.dir.insert s.w.index (filesOf cur)).entries = _
    rw [OrderedMap.insert_entries_of_lt _ hlt, h.dir_eq, map_append]
    rfl
  index_pos := by
    simp only [mem_append, mem_singleton]
    rintro T (hT | rfl)
    · exact h.index_pos T hT
    · exact h.writer_pos
  nonempty := by
    simp only [mem_append, mem_singleton]
    rintro T (hT | rfl)
    · exact h.nonempty T hT
    · exact hne
  addressed := by
    simp only [mem_append, mem_singleton]
    rintro T (hT | rfl)
    · exact h.addressed T hT
    · exact h.writer.addressed
  index_lt := by
    simp only [mem_append, mem_singleton]
    rintro T (hT | rfl)
    · exact (h.index_lt T hT).trans (Nat.lt_succ_self _)
    · exact Nat.lt_succ_self _
  writer := h.writer.flushed
  writer_pos := Nat.succ_pos _
  contiguous := by
    have := h.contiguous
    unfold logsOf at this ⊢
    rwa [flatMap_append, flatMap_singleton, append_nil]
  maxLogSize_eq := h.maxLogSize_eq
  useMmap_eq := h.useMmap_eq

theorem logsOf_flushed (ts : List (ℕ × List Log)) (cur : List Log) (index : ℕ) :
    logsOf (ts ++ [(index, cur)]) [] = logsOf ts cur := by
  simp [logsOf]

theorem Holds.storeLog_eq_flushed (h : s.Holds ts cur) (hl : Takes cur l)
    (hflush : s.w.needFlush = true) :
    cur ≠ [] ∧ s.storeLog l =
      match s.w.flushed.storeLog ((s.flushed cur).dir.files s.w.flushed.index) l with
      | .ok w => (.ok (), { s.flushed cur with w })
      | .error e => (.error e, s.flushed cur) := by
  have hne := (h.writer.needFlush_iff.mp hflush).1
  refine ⟨hne, ?_⟩
  have hstore : s.w.storeLog (s.dir.files s.w.index) l = .error .errTableNeedFlush := by
    rw [h.writer.storeLog_eq, if_neg (not_not.mpr hl), if_pos hflush]
  rw [storeLog, hstore, h.writer.Flush_eq hne]
  rfl

section
variable (h : s.Holds ts cur) (hl : Takes (logsOf ts cur) l) (hok : s.storeLog l = (.ok (), s'))
include h hl hok

theorem Holds.storeLog_tables :
    (s'.maxLogSize = s.maxLogSize ∧ s'.useMmap = s.useMmap) ∧
    if cur ≠ [] ∧ s.maxLogSize < (records cur).length then
      s'.Holds (ts ++ [(s.w.index, cur)]) [l] ∧ s'.w.index = s.w.index + 1
    else s'.Holds ts (cur ++ [l]) ∧ s'.w.index = s.w.index := by
  have htakes := takes_cur hl
  have hfull := h.writer.needFlush_iff
  rw [h.maxLogSize_eq] at hfull
  cases hflush : s.w.needFlush with
  | false =>
    rw [if_neg (by rw [← hfull, hflush]; simp)]
    cases hstore : s.w.storeLog (s.dir.files s.w.index) l with
    | error e =>
      obtain rfl := h.writer.storeLog_error htakes hflush hstore
      simp [storeLog, hstore] at hok
    | ok w =>
      rw [storeLog, hstore] at hok
      cases hok
      obtain ⟨-, -, hw, hindex, hmax, hmmap⟩ := h.writer.storeLog_ok hstore
      exact ⟨⟨rfl, rfl⟩, h.storeLog_open hl hw hindex hmax hmmap, hindex⟩
  | true =>
    rw [if_pos (hfull.mp hflush)]
    obtain ⟨hne, heq⟩ := h.storeLog_eq_flushed htakes hflush
    rw [heq] at hok
    cases hstore : s.w.flushed.storeLog ((s.flushed cur).dir.files s.w.flushed.index) l with
    | error e => simp [hstore] at hok
    | ok w =>
      rw [hstore] at hok
      cases hok
      have hf := h.flushed hne
      rw [← logsOf_flushed ts cur s.w.index] at hl
      obtain ⟨-, -, hw, hindex, hmax, hmmap⟩ := hf.writer.storeLog_ok hstore
      exact ⟨⟨rfl, rfl⟩, hf.storeLog_open hl hw hindex hmax hmmap, hindex⟩

theorem Holds.storeLog_ok :
    ∃ ts' cur', s'.Holds ts' cur' ∧ logsOf ts' cur' = logsOf ts cur ++ [l] ∧ cur' ≠ [] := by
  have htables := (h.storeLog_tables hl hok).2
  split_ifs at htables with hfull
  · refine ⟨_, _, htables.1, ?_, by simp⟩
    simp [logsOf]
  · exact ⟨_, _, htables.1, by simp [logsOf], by simp⟩

end

/-- Data files of the configured size can be mapped, if they are to be. -/
def Mappable (s : FileStore) : Prop :=
  s.useMmap = true → 0 < TableWriter.mmapSize s.maxLogSize

instance (s : FileStore) : Decidable s.Mappable := inferInstanceAs (Decidable (_ → _))

theorem Holds.storeLog_eq_ok (h : s.Holds ts cur) (hl : Takes (logsOf ts cur) l)
    (hmap : s.Mappable) : ∃ s', s.storeLog l = (.ok (), s') := by
  have htakes := takes_cur hl
  have hsize : s.w.useMmap = true → 0 < TableWriter.mmapSize s.w.maxLogSize := by
    rwa [h.useMmap_eq, h.maxLogSize_eq]
  cases hflush : s.w.needFlush with
  | false =>
    obtain ⟨w, hw⟩ := h.writer.storeLog_eq_ok htakes hflush (fun _ => hsize) (s.dir.files s.w.index)
    rw [storeLog, hw]
    exact ⟨_, rfl⟩
  | true =>
    obtain ⟨hne, heq⟩ := h.storeLog_eq_flushed htakes hflush
    have hf := h.flushed hne
    rw [← logsOf_flushed ts cur s.w.index] at hl
    obtain ⟨w, hw⟩ := hf.writer.storeLog_eq_ok (takes_cur hl) rfl (fun _ => hsize)
      ((s.flushed cur).dir.files s.w.flushed.index)
    rw [heq]
    change s.w.flushed.storeLog _ l = .ok w at hw
    rw [hw]
    exact ⟨_, rfl⟩

theorem Holds.storeLog_cases (h : s.Holds ts cur) (hl : Takes cur l → Takes (logsOf ts cur) l) :
    ∃ ts' cur', (s.storeLog l).2.Holds ts' cur' ∧
      (((s.storeLog l).1 = .ok () ∧ Takes (logsOf ts cur) l ∧
          logsOf ts' cur' = logsOf ts cur ++ [l]) ∨
        (s.storeLog l).1 ≠ .ok () ∧ logsOf ts' cur' = logsOf ts cur) := by
  by_cases htakes : Takes cur l
  · rcases hstore : s.storeLog l with ⟨r, s'⟩
    cases r with
    | ok _ =>
      obtain ⟨ts', cur', h', hlogs, -⟩ := h.storeLog_ok (hl htakes) hstore
      exact ⟨ts', cur', h', .inl ⟨rfl, hl htakes, hlogs⟩⟩
    | error e =>
      cases hflush : s.w.needFlush with
      | false =>
        cases hw : s.w.storeLog (s.dir.files s.w.index) l with
        | ok w => simp [storeLog, hw] at hstore
        | error e' =>
          obtain rfl := h.writer.storeLog_error htakes hflush hw
          simp only [storeLog, hw, Prod.mk.injEq] at hstore
          rw [← hstore.2]
          exact ⟨ts, cur, h, .inr ⟨by simp, rfl⟩⟩
      | true =>
        obtain ⟨hne, heq⟩ := h.storeLog_eq_flushed htakes hflush
        rw [heq] at hstore
        split at hstore
        · simp at hstore
        · cases hstore
          exact ⟨_, [], h.flushed hne, .inr ⟨by simp, logsOf_flushed ts cur _⟩⟩
  · rw [h.storeLog_refused htakes]
    exact ⟨ts, cur, h, .inr ⟨by simp, rfl⟩⟩

theorem foldl_erase_entries {as bs : List (ℕ × List Log)} {dir : Dir}
    (h : dir.entries = (as ++ bs).map fun T => (T.1, filesOf T.2)) :
    ((as.map readerOf).foldl (fun dir r => dir.erase r.index) dir).entries =
      bs.map fun T => (T.1, filesOf T.2) := by
  induction as generalizing dir with
  | nil => exact h
  | cons T as ih => exact ih (OrderedMap.erase_entries_head h)

theorem Holds.purge (h : s.Holds ts cur) (n : ℕ) : (s.purge n).Holds (ts.drop n) cur where
  rs_eq := by simp [FileStore.purge, h.rs_eq]
  dir_eq := by
    rw [FileStore.purge, h.rs_eq, ← map_take]
    apply foldl_erase_entries
    rw [take_append_drop]
    exact h.dir_eq
  index_pos := fun T hT => h.index_pos T (mem_of_mem_drop hT)
  nonempty := fun T hT => h.nonempty T (mem_of_mem_drop hT)
  addressed := fun T hT => h.addressed T (mem_of_mem_drop hT)
  index_lt := fun T hT => h.index_lt T (mem_of_mem_drop hT)
  writer := h.writer
  writer_pos := h.writer_pos
  contiguous := by
    have := h.contiguous
    unfold logsOf at this ⊢
    rw [← take_append_drop n ts, flatMap_append, append_assoc, ← append_nil (_ ++ cur)] at this
    exact this.of_infix
  maxLogSize_eq := h.maxLogSize_eq
  useMmap_eq := h.useMmap_eq

theorem Holds.clear (h : s.Holds ts cur) : s.Clear.Holds [] [] where
  rs_eq := rfl
  dir_eq := rfl
  index_pos := by simp
  nonempty := by simp
  addressed := by simp
  index_lt := by simp
  writer := TableWriter.newTableWriter_holds 1 (by
    rw [← h.maxLogSize_eq]; exact h.writer.maxLogSize_le) s.useMmap
  writer_pos := Nat.one_pos
  contiguous := .nil
  maxLogSize_eq := rfl
  useMmap_eq := rfl

def closedTables (index : ℕ) (ts : List (ℕ × List Log)) (cur : List Log) : List (ℕ × List Log) :=
  if cur = [] then ts else ts ++ [(index, cur)]

theorem logsOf_closedTables (index : ℕ) (ts : List (ℕ × List Log)) (cur : List Log) :
    logsOf (closedTables index ts cur) [] = logsOf ts cur := by
  unfold closedTables
  split_ifs with h
  · rw [h]
  · exact logsOf_flushed ts cur index

theorem Holds.closed (h : s.Holds ts cur) :
    s.Close.entries = (closedTables s.w.index ts cur).map (fun T => (T.1, filesOf T.2)) ∧
    (∀ T ∈ closedTables s.w.index ts cur, 0 < T.1 ∧ T.2 ≠ [] ∧ Addressed T.2) := by
  unfold Close closedTables
  by_cases hcur : cur = []
  · rw [if_pos hcur, TableWriter.Flush, if_pos (.inl (h.writer.files_eq hcur).1)]
    exact ⟨h.dir_eq, fun T hT => ⟨h.index_pos T hT, h.nonempty T hT, h.addressed T hT⟩⟩
  · have hf := h.flushed hcur
    rw [if_neg hcur, h.writer.Flush_eq hcur]
    exact ⟨hf.dir_eq, fun T hT => ⟨hf.index_pos T hT, hf.nonempty T hT, hf.addressed T hT⟩⟩

end FileStore

namespace TableReaders

variable {ts rs : List TableReader}

def Follows (t u : TableReader) : Prop := t.last < u.first ∧ t.index < u.index

theorem checkNext_ok_iff {t : TableReader} :
    checkNext t.last t.index ts = .ok () ↔ (t :: ts).IsChain Follows := by
  induction ts generalizing t with
  | nil => simp [checkNext]
  | cons u ts ih =>
    rw [isChain_cons_cons, Follows]
    unfold checkNext
    split_ifs with h1 h2
    · simp [UInt64.not_lt.mpr h1]
    · simp [Nat.not_lt.mpr h2]
    · simp [UInt64.not_le.mp h1, Nat.lt_of_not_le h2, ih]

theorem check_ok_iff :
    check ts = .ok rs ↔ ts.insertionSort (fun a b => !Less b a) = rs ∧
      (∀ t ∈ rs.head?, t.first ≠ 0 ∧ t.first ≤ t.last) ∧ rs.IsChain Follows := by
  unfold check
  generalize ts.insertionSort (fun a b => !Less b a) = us
  cases us with
  | nil =>
    constructor
    · intro h
      cases h
      exact ⟨rfl, by simp, List.IsChain.nil⟩
    · rintro ⟨rfl, -⟩
      rfl
  | cons t us =>
    dsimp only
    split_ifs with hfirst
    · constructor
      · intro h
        cases h
      · rintro ⟨rfl, hhead, -⟩
        obtain ⟨h0, hle⟩ := hhead t rfl
        rcases hfirst with h | h
        · exact absurd h h0
        · exact absurd h (UInt64.not_lt.mpr hle)
    · rw [not_or, UInt64.not_lt] at hfirst
      constructor
      · intro h
        obtain ⟨_, hnext, h⟩ := Err.bind_ok_iff.mp h
        cases h
        refine ⟨rfl, ?_, checkNext_ok_iff.mp hnext⟩
        intro u hu
        cases hu
        exact hfirst
      · rintro ⟨rfl, -, hchain⟩
        rw [checkNext_ok_iff.mpr hchain]
        rfl

theorem Ascending.insertionSort_eq (h : Ascending ts) :
    ts.insertionSort (fun a b => !Less b a) = ts := by
  apply List.Pairwise.insertionSort_eq
  refine h.1.imp_of_mem fun {a b} ha _ hlt => ?_
  have hle := UInt64.le_of_lt (UInt64.lt_of_le_of_lt (h.2 a ha) hlt)
  simpa [Less] using hle

end TableReaders

namespace FileStore

variable {s : FileStore} {ts : List (ℕ × List Log)} {cur : List Log} {dir : Dir}

theorem newTableReader_filesOf {T : ℕ × List Log} (hindex : 0 < T.1) (hne : T.2 ≠ [])
    (hc : Contiguous T.2) (ha : Addressed T.2) (hsmall : ∀ l ∈ T.2, l.Data.length < 2 ^ 32) :
    newTableReader T.1 (filesOf T.2) = .ok (readerOf T, filesOf T.2) := by
  rw [newTableReader, if_neg hindex.ne', filesOf, check_table hc.numbered ha hne hsmall]
  rfl

theorem loadTables_filesOf
    (hnew : ∀ T ∈ ts, newTableReader T.1 (filesOf T.2) = .ok (readerOf T, filesOf T.2)) :
    loadTables (ts.map fun T => (T.1, filesOf T.2)) =
      .ok (ts.map readerOf, ts.map fun T => (T.1, filesOf T.2)) := by
  induction ts with
  | nil => rfl
  | cons T ts ih =>
    rw [map_cons, loadTables, hnew T (.head _), ih fun U hU => hnew U (.tail _ hU)]
    rfl

section
variable (hdir : dir.entries = ts.map fun T => (T.1, filesOf T.2))
include hdir

theorem load_closed (htables : ∀ T ∈ ts, 0 < T.1 ∧ T.2 ≠ [] ∧ Addressed T.2)
    (hc : Contiguous (logsOf ts [])) (hsmall : ∀ l ∈ logsOf ts [], l.Data.length < 2 ^ 32) :
    load dir = .ok (ts.map readerOf, dir) := by
  have hlogs : ∀ T ∈ ts, Contiguous T.2 := by
    intro T hT
    obtain ⟨as, bs, rfl⟩ := append_of_mem hT
    rw [logsOf, append_nil, flatMap_append] at hc
    exact hc.of_infix
  have hloaded := @loadTables_filesOf ts fun T hT =>
    newTableReader_filesOf (htables T hT).1 (htables T hT).2.1 (hlogs T hT) (htables T hT).2.2
      fun l hl => hsmall l (by simpa [logsOf] using ⟨T.1, T.2, hT, hl⟩)
  have hasc := readers_ascending (numbered_append.mp hc.numbered).1 fun T hT => (htables T hT).2.1
  have hchain : (ts.map readerOf).IsChain TableReaders.Follows := by
    apply List.Pairwise.isChain
    have hindex : (ts.map readerOf).Pairwise (fun t u => t.index < u.index) := by
      have := dir.sorted
      rw [hdir, pairwise_map] at this
      rwa [pairwise_map]
    exact hasc.1.and hindex
  have hhead : ∀ t ∈ (ts.map readerOf).head?, t.first ≠ 0 ∧ t.first ≤ t.last := by
    intro t ht
    have hmem := mem_of_mem_head? ht
    obtain ⟨T, hT, rfl⟩ := mem_map.mp hmem
    exact ⟨(hlogs T hT).positive (htables T hT).2.1, hasc.2 _ hmem⟩
  rw [load, hdir, hloaded]
  simp only [bind, Except.bind,
    TableReaders.check_ok_iff.mpr ⟨hasc.insertionSort_eq, hhead, hchain⟩]
  rw [OrderedMap.foldl_insert_eq_self]
  rw [hdir]
  exact fun e he => he

theorem index_lt_next {T : ℕ × List Log} (hT : T ∈ ts) :
    T.1 < match (ts.map readerOf).getLast? with
      | some r => r.index + 1
      | none => 1 := by
  induction ts using reverseRecOn with
  | nil => simp at hT
  | append_singleton ts U _ =>
    have hsorted := dir.sorted
    rw [hdir, pairwise_map, pairwise_append] at hsorted
    rw [map_append, map_singleton, getLast?_concat]
    rcases mem_append.mp hT with hT | hT
    · exact Nat.lt_succ_of_lt (hsorted.2.2 T hT U (mem_singleton_self U))
    · rw [mem_singleton.mp hT]
      exact Nat.lt_succ_self _

theorem new_closed
    (htables : ∀ T ∈ ts, 0 < T.1 ∧ T.2 ≠ [] ∧ Addressed T.2) (hc : Contiguous (logsOf ts []))
    (hsmall : ∀ l ∈ logsOf ts [], l.Data.length < 2 ^ 32) (cfg : ℤ) (useMmap : Bool) :
    ∃ s', new cfg useMmap dir = .ok s' ∧ s'.Holds ts [] ∧
      s'.maxLogSize = logFileSize cfg ∧ s'.useMmap = useMmap := by
  rw [new, load_closed hdir htables hc hsmall]
  refine ⟨_, rfl, ?_, rfl, rfl⟩
  exact
    { rs_eq := rfl
      dir_eq := hdir
      index_pos := fun T hT => (htables T hT).1
      nonempty := fun T hT => (htables T hT).2.1
      addressed := fun T hT => (htables T hT).2.2
      index_lt := fun T hT => index_lt_next hdir hT
      writer := TableWriter.newTableWriter_holds _ (logFileSize_le cfg) useMmap
      writer_pos := by
        cases (ts.map readerOf).getLast? with
        | none => exact Nat.one_pos
        | some r => exact Nat.succ_pos _
      contiguous := hc
      maxLogSize_eq := rfl
      useMmap_eq := rfl }

end

theorem Holds.reopen (h : s.Holds ts cur)
    (hsmall : ∀ l ∈ logsOf ts cur, l.Data.length < 2 ^ 32) (cfg : ℤ) (useMmap : Bool) :
    ∃ s', new cfg useMmap s.Close = .ok s' ∧ s'.Holds (closedTables s.w.index ts cur) [] ∧
      s'.maxLogSize = logFileSize cfg ∧ s'.useMmap = useMmap := by
  obtain ⟨hdir, htables⟩ := h.closed
  have hc := h.contiguous
  rw [← logsOf_closedTables s.w.index] at hc hsmall
  exact new_closed hdir htables hc hsmall cfg useMmap

end FileStore

end LedisDB.Rpl
