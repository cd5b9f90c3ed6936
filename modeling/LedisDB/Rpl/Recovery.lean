import Mathlib.Data.List.Chain
import LedisDB.Rpl.Repair

/-!
# Opening a table after a crash

A crash leaves a prefix of the data file, and a prefix of the meta file or none.
Opening the table gives back exactly the logs whose records are complete when
there is one, when their lengths fit in their heads, and when what is left behind
them is too short for a head, or is `magic` with a meta file that ends with the
last of them. In every other case it does not.
-/

namespace LedisDB.Rpl

open List

variable {files files' : TableFiles} {t t' : TableReader} {m : Bytes}

structure Checked (files : TableFiles) (t : TableReader) (m d : Bytes) : Prop where
  metaFile_eq : files.metaFile = some m
  data_eq : files.data = some d
  entries : m.length % 4 = 0
  nonempty : m ≠ []
  magic_le : magic.length ≤ d.length
  magic_eq : d.drop (d.length - magic.length) = magic
  head_last : ∃ l n, decodeLogHead d ((getLogPos m (m.length / 4 - 1)).toOption.getD 0) =
    .ok (l, n) ∧ n + magic.length = d.length
  first_le : t.first ≤ t.last
  count : t.last - t.first + 1 = UInt64.ofNat (m.length / 4)

theorem checkMeta_ok (h : checkMeta files = .ok m) :
    files.metaFile = some m ∧ m.length % 4 = 0 ∧ m ≠ [] := by
  unfold checkMeta at h
  cases hm : files.metaFile with
  | none => simp [hm] at h
  | some m' =>
    rw [hm] at h
    dsimp only at h
    split_ifs at h with hlen
    cases h
    rw [not_or, not_not] at hlen
    exact ⟨rfl, hlen.1, fun hnil => hlen.2 (by rw [hnil]; rfl)⟩

theorem checkData_ok {d : Bytes} (h : checkData files = .ok d) :
    files.data = some d ∧ magic.length ≤ d.length ∧ d.drop (d.length - magic.length) = magic := by
  unfold checkData at h
  cases hd : files.data with
  | none => simp [hd] at h
  | some d' =>
    rw [hd] at h
    dsimp only at h
    split_ifs at h with hlen hmagic
    cases h
    rw [not_lt] at hlen
    refine ⟨rfl, hlen, ?_⟩
    rwa [not_not, readAt, take_of_length_le (by rw [length_drop]; omega)] at hmagic

theorem check_ok (h : t.check files = (.ok (), t')) :
    t'.index = t.index ∧ ∃ m d, Checked files t' m d := by
  unfold TableReader.check at h
  cases hm : checkMeta files with
  | error e => simp [hm] at h
  | ok m =>
    cases hd : checkData files with
    | error e => simp [hm, hd] at h
    | ok d =>
      obtain ⟨hm1, hm2, hm3⟩ := checkMeta_ok hm
      obtain ⟨hd1, hd2, hd3⟩ := checkData_ok hd
      simp only [hm, hd] at h
      split_ifs at h with hpos
      · simp at h
      · cases hfirst : decodeLogHead d ((getLogPos m 0).toOption.getD 0) with
        | error e => simp [hfirst] at h
        | ok p =>
          cases hlast : decodeLogHead d ((getLogPos m (m.length / 4 - 1)).toOption.getD 0) with
          | error e => simp [hfirst, hlast] at h
          | ok q =>
            simp only [hfirst, hlast] at h
            split_ifs at h with hend hle hcount <;> simp only [Prod.mk.injEq, reduceCtorEq,
              false_and, true_and] at h
            subst h
            exact ⟨rfl, m, d, hm1, hd1, hm2, hm3, hd2, hd3, ⟨q.1, q.2, hlast, not_not.mp hend⟩,
              UInt64.not_lt.mp hle, not_not.mp hcount⟩

theorem check_index (files : TableFiles) (t : TableReader) : (t.check files).2.index = t.index := by
  unfold TableReader.check
  dsimp only
  repeat' split
  all_goals rfl

theorem repair_ok (h : t.repair files = .ok (t', files')) :
    t'.index = t.index ∧ t'.first ≤ t'.last := by
  obtain ⟨⟨u, pos, m⟩, hloop, h⟩ := Err.bind_ok_iff.mp h
  cases h
  obtain ⟨-, hle, hindex⟩ := TableReader.repairLoop_bounds hloop (UInt64.le_refl _)
  exact ⟨hindex, hle⟩

theorem newTableReader_ok {index : ℕ} (h : newTableReader index files = .ok (t, files')) :
    (t.index = index ∧ t.first ≤ t.last) ∧
      ((files' = files ∧ ∃ m d, Checked files t m d) ∨
        ∃ u : TableReader, u.repair files = .ok (t, files')) := by
  unfold newTableReader at h
  split_ifs at h
  have hkeeps := check_index files ⟨index, 0, 0, 0⟩
  rcases hcheck : TableReader.check files ⟨index, 0, 0, 0⟩ with ⟨r, u⟩
  rw [hcheck] at h hkeeps
  cases r with
  | ok v =>
    cases h
    obtain ⟨hi, m, d, hc⟩ := check_ok hcheck
    exact ⟨⟨hi, hc.first_le⟩, .inl ⟨rfl, m, d, hc⟩⟩
  | error e =>
    obtain ⟨hi, hle⟩ := repair_ok h
    exact ⟨⟨hi.trans hkeeps, hle⟩, .inr ⟨u, h⟩⟩

theorem prefix_positions {ls : List Log} (h : m <+: positions ls) (hentries : m.length % 4 = 0)
    (hne : m ≠ []) : ∃ xs y ys, ls = xs ++ y :: ys ∧ m = positions (xs ++ [y]) := by
  have hlen := h.length_le
  have hpos := length_pos_iff.mpr hne
  rw [positions_length] at hlen
  have hc : m.length / 4 - 1 < ls.length := by omega
  refine ⟨ls.take (m.length / 4 - 1), ls[m.length / 4 - 1], ls.drop (m.length / 4 - 1 + 1), ?_, ?_⟩
  · rw [getElem_cons_drop, take_append_drop]
  · rw [take_append_getElem hc, Nat.sub_add_cancel (by omega)]
    have hq : positions (ls.take (m.length / 4)) <+: positions ls := by
      have := positions_prefix (ls.take (m.length / 4)) (ls.drop (m.length / 4))
      rwa [take_append_drop] at this
    have heq : (positions (ls.take (m.length / 4))).length = m.length := by
      rw [positions_length, length_take]
      omega
    exact (prefix_of_prefix_length_le h hq heq.ge).eq_of_length heq.symm

theorem magic_ne_record (l : Log) (b : Bytes) (hl : l.Data.length < 2 ^ 32) :
    l.Encode ++ b ≠ magic := by
  intro h
  have hlen := congrArg length h
  have hhead : l.head = magic.take LogHeadSize := by
    rw [← h, Log.Encode, append_assoc, take_left' l.head_length]
  have hfield := congrArg Prod.snd (Log.decodeHeadBuf_head l)
  rw [hhead] at hfield
  have hmagic : 4 ≤ (Log.decodeHeadBuf (magic.take LogHeadSize)).2 := by decide
  rw [length_append, Log.Encode_length, Log.Size] at hlen
  have hsize : magic.length = LogHeadSize + 3 := rfl
  omega

section Cut

variable {ls whole : List Log} {rest m d : Bytes} {t : TableReader}

theorem Checked.last_head (h : Checked ⟨some (records whole ++ rest), some m⟩ t m d)
    (ha : Addressed ls) (hm : m <+: positions ls) :
    d = records whole ++ rest ∧ ∃ xs y ys, ls = xs ++ y :: ys ∧ m = positions (xs ++ [y]) ∧
      ∃ l n, decodeLogHead (records whole ++ rest) (records xs).length = .ok (l, n) ∧
        n + magic.length = (records whole ++ rest).length := by
  obtain ⟨xs, y, ys, hls, hpos⟩ := prefix_positions hm h.entries h.nonempty
  obtain ⟨l, n, hhead, hn⟩ := h.head_last
  obtain rfl := Option.some.inj h.data_eq
  have ha' : Addressed (xs ++ [y]) := by
    rw [hls, ← singleton_append, ← append_assoc] at ha
    exact ha.of_append
  have hlog := getLogPos_positions ha' []
  rw [hpos, positions_length, length_append, length_singleton,
    Nat.mul_div_cancel _ (by decide), Nat.add_sub_cancel] at hhead
  rw [append_nil] at hlog
  rw [hlog] at hhead
  exact ⟨rfl, xs, y, ys, hls, hpos, l, n, hhead, hn⟩

theorem not_checked_of_short (ha : Addressed ls) (hwhole : whole <+: ls)
    (hsmall : ∀ l ∈ whole, l.Data.length < 2 ^ 32) (hrest : rest.length < LogHeadSize)
    (hm : m <+: positions ls) : ¬ ∃ d, Checked ⟨some (records whole ++ rest), some m⟩ t m d := by
  rintro ⟨d, h⟩
  obtain ⟨rfl, xs, y, ys, hls, -, l, n, hhead, hn⟩ := h.last_head ha hm
  have hxs : xs ++ [y] <+: ls := by simp [hls]
  have hcut : whole <+: xs ∨ xs ++ [y] <+: whole := by
    rcases prefix_or_prefix_of_prefix hwhole hxs with hle | hle
    · rcases prefix_concat_iff.mp hle with rfl | hle
      · exact .inr prefix_rfl
      · exact .inl hle
    · exact .inr hle
  rcases hcut with ⟨zs, rfl⟩ | ⟨zs, rfl⟩
  · have heof := @Log.DecodeHeadAt_eof (records whole ++ rest) (records (whole ++ zs)).length (by
      rw [records_append, length_append, length_append]
      omega)
    rw [decodeLogHead, heof] at hhead
    cases hhead
  · rw [append_assoc, singleton_append, decodeLogHead_records rest (hsmall y (by simp))] at hhead
    cases hhead
    have hmagic := h.magic_eq
    rw [← hn, Nat.add_sub_cancel, records_append (xs ++ [y]), append_assoc, drop_left] at hmagic
    cases zs with
    | nil =>
      have hsize : magic.length = LogHeadSize + 3 := rfl
      rw [records_nil, nil_append] at hmagic
      rw [hmagic] at hrest
      omega
    | cons z zs =>
      rw [records_cons, append_assoc] at hmagic
      exact magic_ne_record z _ (hsmall z (by simp)) hmagic

theorem Checked.eq_closed (h : Checked ⟨some (records whole ++ rest), some m⟩ t m d)
    (hc : Contiguous ls) (ha : Addressed ls) (hwhole : whole <+: ls) (hne : whole ≠ [])
    (hsmall : ∀ l ∈ whole, l.Data.length < 2 ^ 32) (hm : m <+: positions ls)
    (hfirst : t.first = firstID whole) (hlast : t.last = lastID whole) :
    rest = magic ∧ m = positions whole := by
  obtain ⟨rfl, xs, y, ys, hls, hpos, l, n, hhead, hn⟩ := h.last_head ha hm
  have hcw := hc.of_initial hwhole
  have hxs : xs ++ [y] <+: ls := by simp [hls]
  have hlen : (xs ++ [y]).length = whole.length := by
    have hcount := h.count
    have hlt1 := hc.length_lt
    have hlt2 := hcw.length_lt
    rw [hfirst, hlast, hcw.numbered.count_eq hne, hpos, positions_length,
      Nat.mul_div_cancel _ (by decide)] at hcount
    have hle := hxs.length_le
    rw [← UInt64.toNat_inj, UInt64.toNat_ofNat_of_lt' hlt2,
      UInt64.toNat_ofNat_of_lt' (lt_of_le_of_lt hle hlt1)] at hcount
    exact hcount.symm
  obtain rfl := (prefix_of_prefix_length_le hwhole hxs hlen.ge).eq_of_length hlen.symm
  rw [decodeLogHead_records rest (hsmall y (by simp))] at hhead
  cases hhead
  have hmagic := h.magic_eq
  rw [← hn, Nat.add_sub_cancel, drop_left] at hmagic
  exact ⟨hmagic, hpos⟩

end Cut

namespace TableReaders

theorem insertionSort_append_singleton {rs : List TableReader} (h : ∀ r ∈ rs, r.first ≤ t.first) :
    (rs ++ [t]).insertionSort (fun a b => !Less b a) =
      rs.insertionSort (fun a b => !Less b a) ++ [t] := by
  have hinsert : ∀ {r : TableReader} us, r.first ≤ t.first →
      (us ++ [t]).orderedInsert (fun a b => !Less b a) r =
        us.orderedInsert (fun a b => !Less b a) r ++ [t] := by
    intro r us hr
    induction us with
    | nil =>
      have hless : Less t r = false := by simpa [Less] using hr
      simp [hless]
    | cons u us ih =>
      simp only [cons_append, orderedInsert_cons, ih]
      split_ifs <;> rfl
  induction rs with
  | nil => rfl
  | cons r rs ih =>
    rw [cons_append, insertionSort_cons, ih fun x hx => h x (.tail _ hx),
      hinsert _ (h r (.head _)), insertionSort_cons]

end TableReaders

namespace FileStore

variable {es tables : List (ℕ × TableFiles)} {rs : List TableReader} {index : ℕ}
  {files files' : TableFiles} {t : TableReader}

theorem loadTables_append_singleton (h : loadTables es = .ok (rs, tables))
    (hdata : files.data ≠ none) (ht : newTableReader index files = .ok (t, files')) :
    loadTables (es ++ [(index, files)]) = .ok (rs ++ [t], tables ++ [(index, files')]) := by
  induction es generalizing rs tables with
  | nil =>
    cases h
    rw [nil_append, loadTables, if_neg hdata, ht]
    rfl
  | cons e es ih =>
    rw [loadTables] at h
    rw [cons_append, loadTables]
    split_ifs at h ⊢ with hnone
    · exact ih h
    · split at h
      · cases h
      · exact ih h
      · obtain ⟨⟨rs', tables'⟩, hload, h⟩ := Err.bind_ok_iff.mp h
        cases h
        rw [ih hload]
        rfl

theorem loadTables_readers (h : loadTables es = .ok (rs, tables)) :
    ∀ r ∈ rs, r.first ≤ r.last ∧ ∃ e ∈ es, e.1 = r.index := by
  induction es generalizing rs tables with
  | nil =>
    cases h
    simp
  | cons e es ih =>
    have hmem : ∀ {rs' : List TableReader} {tables' : List (ℕ × TableFiles)},
        loadTables es = .ok (rs', tables') →
        ∀ r ∈ rs', r.first ≤ r.last ∧ ∃ e' ∈ e :: es, e'.1 = r.index := by
      intro rs' tables' hload r hr
      obtain ⟨hle, e', he', heq⟩ := ih hload r hr
      exact ⟨hle, e', .tail _ he', heq⟩
    rw [loadTables] at h
    split_ifs at h with hnone
    · exact hmem h
    · split at h
      · cases h
      · exact hmem h
      · rename_i t files' hnew
        obtain ⟨⟨rs', tables'⟩, hload, h⟩ := Err.bind_ok_iff.mp h
        cases h
        intro r hr
        rcases mem_cons.mp hr with rfl | hr
        · obtain ⟨⟨hindex, hle⟩, -⟩ := newTableReader_ok hnew
          exact ⟨hle, e, (.head _), hindex.symm⟩
        · exact hmem hload r hr

theorem load_insert {dir dir' : Dir} (h : load dir = .ok (rs, dir'))
    (hlast : ∀ e ∈ dir.entries, e.1 < index) (hbefore : ∀ r ∈ rs, r.last < t.first)
    (hdata : files.data ≠ none) (ht : newTableReader index files = .ok (t, files'))
    (h0 : t.first ≠ 0) : ∃ dir'', load (dir.insert index files) = .ok (rs ++ [t], dir'') := by
  obtain ⟨⟨us, tables⟩, hload, h⟩ := Err.bind_ok_iff.mp h
  obtain ⟨vs, hcheck, h⟩ := Err.bind_ok_iff.mp h
  cases h
  obtain ⟨hsort, hhead, hchain⟩ := TableReaders.check_ok_iff.mp hcheck
  have hreaders := loadTables_readers hload
  have hmem : ∀ {r : TableReader}, r ∈ rs ↔ r ∈ us := by
    intro r
    rw [← hsort, mem_insertionSort]
  obtain ⟨⟨hindex, hle⟩, -⟩ := newTableReader_ok ht
  have hcheck' : TableReaders.check (us ++ [t]) = .ok (rs ++ [t]) := by
    refine TableReaders.check_ok_iff.mpr ⟨?_, ?_, ?_⟩
    · rw [TableReaders.insertionSort_append_singleton, hsort]
      intro r hr
      exact UInt64.le_of_lt (UInt64.lt_of_le_of_lt (hreaders r hr).1 (hbefore r (hmem.mpr hr)))
    · intro u hu
      cases rs with
      | nil =>
        cases hu
        exact ⟨h0, hle⟩
      | cons r rs => exact hhead u hu
    · refine isChain_append.mpr ⟨hchain, isChain_singleton t, ?_⟩
      intro r hr u hu
      cases hu
      have hr := mem_of_mem_getLast? hr
      obtain ⟨-, e, he, heq⟩ := hreaders r (hmem.mp hr)
      exact ⟨hbefore r hr, by rw [hindex, ← heq]; exact hlast e he⟩
  rw [load, OrderedMap.insert_entries_of_lt files hlast, loadTables_append_singleton hload hdata ht]
  simp only [bind, Except.bind, hcheck']
  exact ⟨_, rfl⟩

end FileStore

/-- Opening the files gives exactly the logs `whole`, and a directory of tables with smaller
IDs is still loaded when it ends with these files or with what opening made of them. -/
def Recovers (index : ℕ) (files : TableFiles) (first : UInt64) (whole : List Log) : Prop :=
  ∃ t files', newTableReader index files = .ok (t, files') ∧
    t.first = firstID whole ∧ t.last = lastID whole ∧
    (∀ l ∈ whole, t.GetLog files' l.ID = .ok l) ∧
    (∀ id, (∀ l ∈ whole, l.ID ≠ id) → ∀ l, t.GetLog files' id ≠ .ok l) ∧
    ∀ dir rs dir', FileStore.load dir = .ok (rs, dir') → (∀ e ∈ dir.entries, e.1 < index) →
      (∀ r ∈ rs, r.last < first) →
      (∃ dir'', FileStore.load (dir.insert index files) = .ok (rs ++ [t], dir'')) ∧
        ∃ dir'', FileStore.load (dir.insert index files') = .ok (rs ++ [t], dir'')

/-- What must be left of the data file and of the meta file. -/
def Recoverable (data : Bytes) (metaFile : Option Bytes) (whole : List Log) : Prop :=
  whole ≠ [] ∧ (∀ l ∈ whole, l.Data.length < 2 ^ 32) ∧
    ((data.drop (records whole).length).length < LogHeadSize ∨
      data.drop (records whole).length = magic ∧ metaFile = some (positions whole))

theorem GetLog_length {id : UInt64} {l : Log} (h : t.GetLog files id = .ok l) :
    l.Data.length < 2 ^ 32 := by
  unfold TableReader.GetLog at h
  split_ifs at h
  split at h
  · obtain ⟨pos, -, h⟩ := Err.bind_ok_iff.mp h
    obtain ⟨l', hdecode, h⟩ := Err.bind_ok_iff.mp h
    split_ifs at h
    cases h
    exact Log.DecodeAt_length hdecode
  · cases h

section Recovery

variable {ls whole : List Log} {rest : Bytes} {index : ℕ} {metaFile : Option Bytes}
  {files : TableFiles} {first : UInt64}

theorem next_head (hc : Contiguous ls) (hlen : LogHeadSize ≤ rest.length)
    (hrest : (whole = ls ∧ rest <+: magic) ∨
      ∃ y ys, ls = whole ++ y :: ys ∧ rest <+: y.Encode ∧ rest.length < y.Encode.length) :
    ∃ l n, decodeLogHead (records whole ++ rest) (records whole).length = .ok (l, n) ∧
      l.ID ≠ 0 := by
  have hhead : ∀ {b c : Bytes}, rest <+: b ++ c → b.length = LogHeadSize →
      decodeLogHead (records whole ++ rest) (records whole).length =
        .ok ((Log.decodeHeadBuf b).1,
          (records whole).length + LogHeadSize + (Log.decodeHeadBuf b).2) := by
    intro b c hprefix hb
    have hbuf : readAt (records whole ++ rest) (records whole).length LogHeadSize = b := by
      obtain ⟨d, hd⟩ := hprefix
      rw [readAt, drop_left, ← take_append_of_le_length hlen, hd, take_left' hb]
    rw [decodeLogHead, Log.DecodeHeadAt, hbuf, if_neg (not_not.mpr hb)]
    rfl
  rcases hrest with ⟨-, hmagic⟩ | ⟨y, ys, hls, hy, -⟩
  · rw [← take_append_drop LogHeadSize magic] at hmagic
    exact ⟨_, _, hhead hmagic rfl, by decide⟩
  · refine ⟨_, _, hhead hy y.head_length, ?_⟩
    rw [Log.decodeHeadBuf_head]
    exact hc.id_ne_zero (l := y) (by simp [hls])

theorem newTableReader_short (hindex : 0 < index) (hc : Contiguous ls) (ha : Addressed ls)
    (hwhole : whole <+: ls) (hne : whole ≠ []) (hsmall : ∀ l ∈ whole, l.Data.length < 2 ^ 32)
    (hrest : rest.length < LogHeadSize) (hm : ∀ m ∈ metaFile, m <+: positions ls) :
    newTableReader index ⟨some (records whole ++ rest), metaFile⟩ =
      .ok (readerOf (index, whole), filesOf whole) := by
  have hkeeps := check_index ⟨some (records whole ++ rest), metaFile⟩ ⟨index, 0, 0, 0⟩
  rw [newTableReader, if_neg hindex.ne']
  rcases hcheck : TableReader.check ⟨some (records whole ++ rest), metaFile⟩ ⟨index, 0, 0, 0⟩
    with ⟨r, u⟩
  rw [hcheck] at hkeeps
  cases r with
  | ok v =>
    obtain ⟨-, m, d, hchecked⟩ := check_ok hcheck
    have hmeta : metaFile = some m := hchecked.metaFile_eq
    rw [hmeta] at hchecked
    exact absurd ⟨d, hchecked⟩ (not_checked_of_short ha hwhole hsmall hrest (hm m hmeta))
  | error e =>
    dsimp only at hkeeps ⊢
    rw [TableReader.repair_short (hc.of_initial hwhole) hsmall hrest,
      TableReader.readerOf_eq_walked hne, hkeeps]

theorem recovers_of_eq (hc : Contiguous whole) (ha : Addressed whole) (hne : whole ≠ [])
    (hsmall : ∀ l ∈ whole, l.Data.length < 2 ^ 32) (hindex : 0 < index) (hdata : files.data ≠ none)
    (h : newTableReader index files = .ok (readerOf (index, whole), filesOf whole)) :
    Recovers index files (firstID whole) whole := by
  have hserves : (readerOf (index, whole)).Serves (filesOf whole) whole :=
    ⟨hne, rfl, rfl, ⟨magic, rfl⟩, rfl, hc, ha⟩
  refine ⟨_, _, h, rfl, rfl, ?_, ?_, ?_⟩
  · intro l hl
    rw [hserves.GetLog_of_mem hl, Log.wire_eq (hsmall l hl)]
  · intro id hid l
    rw [hserves.GetLog_of_not_mem hid]
    simp
  · intro dir rs dir' hload hlast hbefore
    have hagain := @FileStore.newTableReader_filesOf (index, whole) hindex hne hc ha hsmall
    exact ⟨FileStore.load_insert hload hlast hbefore hdata h (hc.positive hne),
      FileStore.load_insert hload hlast hbefore (by simp [filesOf]) hagain (hc.positive hne)⟩

theorem Recovers.nonempty (hdata : files.data ≠ none) (h : Recovers index files first whole) :
    whole ≠ [] := by
  rintro rfl
  obtain ⟨t, files', hnew, hfirst, -, -, -, hdir⟩ := h
  obtain ⟨⟨dir'', hload⟩, -⟩ := hdir .empty [] .empty rfl (by simp [OrderedMap.empty]) (by simp)
  have hentries : (OrderedMap.empty.insert index files).entries = [(index, files)] := rfl
  have htables :=
    @FileStore.loadTables_append_singleton [] [] [] index files files' t rfl hdata hnew
  rw [FileStore.load, hentries, ← nil_append [(index, files)], htables] at hload
  obtain ⟨_, heq, hload⟩ := Err.bind_ok_iff.mp hload
  cases heq
  obtain ⟨rs, hcheck, -⟩ := Err.bind_ok_iff.mp hload
  obtain ⟨hsort, hhead, -⟩ := TableReaders.check_ok_iff.mp hcheck
  rw [← hsort] at hhead
  exact (hhead t rfl).1 hfirst

theorem Recovers.recoverable (hc : Contiguous ls) (ha : Addressed ls) (hwhole : whole <+: ls)
    (hm : ∀ m ∈ metaFile, m <+: positions ls) (hrest : (whole = ls ∧ rest <+: magic) ∨
      ∃ y ys, ls = whole ++ y :: ys ∧ rest <+: y.Encode ∧ rest.length < y.Encode.length)
    (h : Recovers index ⟨some (records whole ++ rest), metaFile⟩ first whole) :
    Recoverable (records whole ++ rest) metaFile whole := by
  have hne := h.nonempty (by simp)
  obtain ⟨t, files', hnew, hfirst, hlast, hget, -, -⟩ := h
  have hsmall := fun l hl => GetLog_length (hget l hl)
  refine ⟨hne, hsmall, ?_⟩
  rw [drop_left]
  by_cases hlen : rest.length < LogHeadSize
  · exact .inl hlen
  · obtain ⟨-, ⟨-, m, d, hchecked⟩ | ⟨u, hrepair⟩⟩ := newTableReader_ok hnew
    · have hmeta : metaFile = some m := hchecked.metaFile_eq
      rw [hmeta] at hchecked ⊢
      obtain ⟨hr, hm'⟩ := hchecked.eq_closed hc ha hwhole hne hsmall (hm m hmeta) hfirst hlast
      exact .inr ⟨hr, by rw [hm']⟩
    · obtain ⟨l, n, hhead, h0⟩ := next_head hc (not_lt.mp hlen) hrest
      have hlt := TableReader.repair_long (hc.of_initial hwhole) hsmall hhead h0 hrepair
      rw [hlast] at hlt
      exact absurd hlt (UInt64.lt_irrefl _)

end Recovery

/-- A table that a crash has cut is recovered exactly when something whole is left and what
follows it cannot be taken for a record. -/
theorem table_recovers_iff {index n : ℕ} {cfg : ℤ} {files : TableFiles} {ls : List Log}
    {w : TableWriter} {metaFile : Option Bytes} (hindex : 0 < index)
    (hstore : ls.foldlM (TableWriter.storeLog files)
      (newTableWriter index (logFileSize cfg) false) = .ok w)
    (hmeta : ∀ m ∈ metaFile, m <+: w.close.metaFile.getD []) :
    Recovers index ⟨some ((w.close.data.getD []).take n), metaFile⟩ (firstID ls)
        (Records.whole Log.Encode ls n) ↔
      Recoverable ((w.close.data.getD []).take n) metaFile (Records.whole Log.Encode ls n) := by
  have hw := (TableWriter.newTableWriter_holds index (logFileSize_le cfg) false).storeLogs hstore
  rw [List.nil_append] at hw
  have hwhole := Records.whole_prefix Log.Encode ls n
  by_cases hls : ls = []
  · have hnil : Records.whole Log.Encode ls n = [] := by
      rw [hls]
      rfl
    rw [hnil]
    exact ⟨fun h => absurd rfl (h.nonempty (by simp)), fun h => absurd rfl h.1⟩
  · rw [hw.close_eq hls] at hmeta ⊢
    obtain ⟨rest, hcut, hrest⟩ := Records.take_eq Log.Encode ls magic n
    change (records ls ++ magic).take n = records _ ++ rest at hcut
    rw [Option.getD_some, hcut]
    generalize Records.whole Log.Encode ls n = whole at hwhole hrest ⊢
    constructor
    · exact Recovers.recoverable hw.contiguous hw.addressed hwhole hmeta hrest
    · rintro ⟨hne, hsmall, hleft⟩
      rw [List.drop_left] at hleft
      have hc := hw.contiguous.of_initial hwhole
      have ha : Addressed whole := by
        obtain ⟨ys, rfl⟩ := hwhole
        exact hw.addressed.of_append
      have hfirst : firstID ls = firstID whole := by
        obtain ⟨ys, rfl⟩ := hwhole
        exact firstID_append hne ys
      rw [hfirst]
      apply recovers_of_eq hc ha hne hsmall hindex (by simp)
      rcases hleft with hshort | ⟨rfl, rfl⟩
      · exact newTableReader_short hindex hw.contiguous hw.addressed hwhole hne hsmall hshort hmeta
      · exact @FileStore.newTableReader_filesOf (index, whole) hindex hne hc ha hsmall

theorem table_recovers_torn_head :
    ∃ w, [(⟨1, 7, 0, [5, 6]⟩ : Log), ⟨2, 8, 0, [7, 8]⟩].foldlM (TableWriter.storeLog .missing)
        (newTableWriter 1 (logFileSize 0) false) = .ok w ∧
      Recovers 1 ⟨some ((w.close.data.getD []).take 35), none⟩ 1 [⟨1, 7, 0, [5, 6]⟩] :=
  ⟨_, rfl, (@table_recovers_iff 1 35 0 .missing [⟨1, 7, 0, [5, 6]⟩, ⟨2, 8, 0, [7, 8]⟩] _ none
    (by decide) rfl (by simp)).mpr ⟨by decide, by decide, Or.inl (by decide)⟩⟩

theorem torn_record_not_recovered :
    ∃ w, [(⟨1, 7, 0, [5, 6]⟩ : Log), ⟨2, 8, 0, [7, 8]⟩].foldlM (TableWriter.storeLog .missing)
        (newTableWriter 1 (logFileSize 0) false) = .ok w ∧
      Records.whole Log.Encode [⟨1, 7, 0, [5, 6]⟩, ⟨2, 8, 0, [7, 8]⟩] 37 = [⟨1, 7, 0, [5, 6]⟩] ∧
      ¬ Recovers 1 ⟨some ((w.close.data.getD []).take 37), w.close.metaFile⟩ 1
        [⟨1, 7, 0, [5, 6]⟩] := by
  refine ⟨_, rfl, by decide, ?_⟩
  rintro ⟨t, files', hnew, -, hlast, -⟩
  cases hnew
  exact absurd hlast (by decide)

end LedisDB.Rpl
