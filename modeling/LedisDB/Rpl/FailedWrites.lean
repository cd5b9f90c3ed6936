import LedisDB.Rpl.Recovery

/-!
# Log writes that fail

`tableWriter.StoreLog` on raw files, where the write of the head, of the data or of
the position may fail after some bytes. The offset of a file counts the writes that
succeeded, so a head that was written in part is written over by the next log; after
a failed write of the data or of the position the head, or all of the record, stays in
the data file and is found by a repair.
-/

namespace LedisDB.Rpl

open List

/-- The write that fails, and the bytes it has written. -/
inductive Fault
  | head (n : ℕ)
  | data (n : ℕ)
  | position (n : ℕ)

/-- The offset does not count the bytes of a failed write. -/
def WriteFile.failWrite (f : WriteFile) (b : Bytes) : WriteFile :=
  { f.Write b with offset := f.offset }

namespace TableWriter

/-- `StoreLog` of a table that has no files yet when it is created. -/
def StoreLog (t : TableWriter) (l : Log) : Option (Fault × Err) → Except Err Unit × TableWriter
  | none =>
    match t.storeLog .missing l with
    | .error e => (.error e, t)
    | .ok t => (.ok (), t)
  | some (f, e) =>
    -- the writes are only reached where nothing before them fails
    match t.storeLog .missing l, t.openFile .missing with
    | .error e, _ | _, .error e => (.error e, t)
    | .ok _, .ok (data, metaFile) =>
      (.error e, match f with
        | .head n =>
          { t with data := some (data.failWrite (l.head.take n)), metaFile := some metaFile }
        | .data n =>
          { t with
            data := some ((data.Write l.head).failWrite (l.Data.take n))
            metaFile := some metaFile }
        | .position n =>
          { t with
            data := some ((data.Write l.head).Write l.Data)
            metaFile := some (metaFile.failWrite ((position data.offset).take n)) })

def crashed (t : TableWriter) : TableFiles :=
  ⟨t.data.map WriteFile.content, t.metaFile.map WriteFile.content⟩

def stores (s : TableWriter × List Log) : List (Log × Option (Fault × Err)) → TableWriter × List Log
  | [] => s
  | (l, f) :: cs =>
    match s.1.StoreLog l f with
    | (.error _, t) => stores (t, s.2) cs
    | (.ok _, t) => stores (t, s.2 ++ [l]) cs

end TableWriter

/-- The reader of the files returns exactly these logs. -/
def Yields (index : ℕ) (files : TableFiles) (ls : List Log) : Prop :=
  ∃ t files', newTableReader index files = .ok (t, files') ∧
    ∀ id l, t.GetLog files' id = .ok l ↔ l ∈ ls ∧ l.ID = id

/-- A `Flush` is asked for when there is a log to flush. -/
structure Uncorrupted (t : TableWriter) (ls : List Log) : Prop where
  writer : ∀ id l, t.GetLog id = .ok l ↔ l ∈ ls ∧ l.ID = id
  flush : ls ≠ [] → ∃ r files t', t.Flush = .ok (r, files, t') ∧ Yields t.index files ls
  crash : Yields t.index t.crashed ls

namespace TableWriter

structure Clean (t : TableWriter) (ls : List Log) : Prop where
  holds : ls ≠ [] → t.Holds ls
  fresh : ls = [] → ({ t with data := none, metaFile := none } : TableWriter).Holds []
  data_eq : ∀ f, t.data = some f → ∃ junk, junk.length < LogHeadSize ∧
    f = ⟨false, records ls ++ junk, (records ls).length⟩
  metaFile_eq : ∀ f, t.metaFile = some f → f = ⟨false, positions ls, (positions ls).length⟩
  small : ∀ l ∈ ls, l.Data.length < 2 ^ 32
  raw : t.useMmap = false
  index_pos : 0 < t.index

variable {t t' : TableWriter} {ls : List Log} {l : Log}

theorem raw_write (b junk c : Bytes) : (⟨false, b ++ junk, b.length⟩ : WriteFile).Write c =
    ⟨false, b ++ c ++ junk.drop c.length, (b ++ c).length⟩ := by
  simp only [WriteFile.Write, Bool.false_eq_true, if_false]
  rw [WriteFile.truncate_eq_left (prefix_append _ _), ← drop_drop, drop_left, length_append]

theorem Clean.openFile_eq (h : t.Clean ls) : ∃ junk, junk.length < LogHeadSize ∧
    t.openFile .missing = .ok (⟨false, records ls ++ junk, (records ls).length⟩,
      ⟨false, positions ls, (positions ls).length⟩) := by
  have hnil : t.data = none ∨ t.metaFile = none → ls = [] := by
    intro hnone
    by_contra hne
    obtain ⟨f, hf, -⟩ := (h.holds hne).data_eq hne
    obtain ⟨g, hg, -⟩ := (h.holds hne).metaFile_eq hne
    simp [hf, hg] at hnone
  have hdata : ∃ junk, junk.length < LogHeadSize ∧ ∀ size,
      openIfNil t.data (WriteFile.new false none size) =
        .ok ⟨false, records ls ++ junk, (records ls).length⟩ := by
    cases hd : t.data with
    | none =>
      rw [hnil (.inl hd)]
      exact ⟨[], by decide, fun _ => rfl⟩
    | some f =>
      obtain ⟨junk, hjunk, rfl⟩ := h.data_eq f hd
      exact ⟨junk, hjunk, fun _ => rfl⟩
  have hmeta : ∀ size, openIfNil t.metaFile (WriteFile.new false none size) =
      .ok ⟨false, positions ls, (positions ls).length⟩ := by
    cases hm : t.metaFile with
    | none =>
      rw [hnil (.inr hm)]
      exact fun _ => rfl
    | some f =>
      rw [h.metaFile_eq f hm]
      exact fun _ => rfl
  obtain ⟨junk, hjunk, hdata⟩ := hdata
  refine ⟨junk, hjunk, ?_⟩
  simp [openFile, TableFiles.missing, h.raw, hdata, hmeta, bind, Except.bind]

theorem Clean.takes (h : t.Clean ls) (hok : t.storeLog .missing l = .ok t') :
    Takes ls l ∧ t.needFlush = false ∧ ∀ p, t.openFile .missing = .ok p →
      t' = t.stored p.1 p.2 l := by
  unfold storeLog at hok
  split_ifs at hok with h0 hclosed hlast hflush hfirst
  all_goals
    obtain ⟨p, hp, hok⟩ := Err.bind_ok_iff.mp hok
    refine ⟨⟨h0, fun hne => ?_⟩, by simpa using hflush, fun p' hp' => ?_⟩
    · have hh := h.holds hne
      rw [hh.last_pos_iff, hh.last_eq] at hlast
      by_contra hid
      exact hlast ⟨hne, hid⟩
    · cases hp.symm.trans hp'
      cases hok
      simp [stored, position, hfirst]

theorem Clean.stored (h : t.Clean ls) (hl : l.Data.length < 2 ^ 32)
    (hok : t.storeLog .missing l = .ok t') : t'.Clean (ls ++ [l]) := by
  obtain ⟨htakes, hflush, hstored⟩ := h.takes hok
  obtain ⟨junk, hjunk, hopen⟩ := h.openFile_eq
  obtain rfl := hstored _ hopen
  have hd : (⟨false, records ls ++ junk, (records ls).length⟩ : WriteFile).Written (records ls) :=
    ⟨rfl, prefix_append _ _⟩
  have hm : (⟨false, positions ls, (positions ls).length⟩ : WriteFile).Written (positions ls) :=
    ⟨rfl, prefix_rfl⟩
  have hholds : (t.stored ⟨false, records ls ++ junk, (records ls).length⟩
      ⟨false, positions ls, (positions ls).length⟩ l).Holds (ls ++ [l]) := by
    by_cases hls : ls = []
    · subst hls
      exact (h.fresh rfl).stored htakes rfl hd hm
    · exact (h.holds hls).stored htakes hflush hd hm
  refine ⟨fun _ => hholds, fun hnil => by simp at hnil, ?_, ?_, ?_, h.raw, h.index_pos⟩
  · intro f hf
    refine ⟨[], by decide, ?_⟩
    obtain rfl := Option.some.inj hf
    have hdrop : junk.drop l.head.length = [] := drop_eq_nil_of_le (by rw [Log.head_length]; omega)
    rw [raw_write, hdrop, raw_write]
    simp [Log.Encode]
  · intro f hf
    obtain rfl := Option.some.inj hf
    have hw := raw_write (positions ls) [] (position (records ls).length)
    simp only [append_nil, drop_nil] at hw
    rw [hw, positions_append_singleton]
  · intro x hx
    rcases mem_append.mp hx with hx | hx
    · exact h.small x hx
    · rwa [mem_singleton.mp hx]

theorem Clean.failed (h : t.Clean ls) {n : ℕ} (hn : n < LogHeadSize) (l : Log) (e : Err) :
    ∃ e' t', t.StoreLog l (some (.head n, e)) = (.error e', t') ∧ t'.Clean ls := by
  unfold StoreLog
  cases hok : t.storeLog .missing l with
  | error e' => exact ⟨e', t, rfl, h⟩
  | ok t' =>
    obtain ⟨junk, hjunk, hopen⟩ := h.openFile_eq
    rw [hopen]
    refine ⟨e, _, rfl, fun hne => ?_, h.fresh, ?_, ?_, h.small, h.raw, h.index_pos⟩
    · obtain ⟨h1, h2, h3, -, -, -, h7, h8, h9, h10⟩ := h.holds hne
      refine ⟨h1, h2, h3, fun hnil => absurd hnil hne, fun _ => ⟨_, rfl, ?_⟩, fun _ => ⟨_, rfl, ?_⟩,
        h7, h8, h9, h10⟩
      · rw [WriteFile.failWrite, raw_write]
        exact ⟨rfl, append_assoc _ _ _ ▸ prefix_append _ _⟩
      · exact ⟨rfl, prefix_rfl⟩
    · intro f hf
      obtain rfl := Option.some.inj hf
      refine ⟨l.head.take n ++ junk.drop (l.head.take n).length, ?_, ?_⟩
      · rw [length_append, length_drop, length_take]
        omega
      · rw [WriteFile.failWrite, raw_write, append_assoc]
    · exact fun f hf => (Option.some.inj hf).symm

theorem Clean.stores {cs : List (Log × Option (Fault × Err))} (h : t.Clean ls)
    (hsmall : ∀ c ∈ cs, c.1.Data.length < 2 ^ 32)
    (hfault : ∀ c ∈ cs, ∀ f ∈ c.2, ∃ n < LogHeadSize, f.1 = .head n) :
    (TableWriter.stores (t, ls) cs).1.Clean (TableWriter.stores (t, ls) cs).2 := by
  induction cs generalizing t ls with
  | nil => exact h
  | cons c cs ih =>
    obtain ⟨l, f⟩ := c
    rw [forall_mem_cons] at hsmall hfault
    rw [stores]
    cases f with
    | none =>
      rw [StoreLog]
      cases hok : t.storeLog .missing l with
      | error e => exact ih h hsmall.2 hfault.2
      | ok t' => exact ih (h.stored hsmall.1 hok) hsmall.2 hfault.2
    | some f =>
      obtain ⟨n, hn, hhead⟩ := hfault.1 f rfl
      obtain ⟨f, e⟩ := f
      obtain rfl := hhead
      obtain ⟨e', t', heq, h'⟩ := h.failed hn l e
      rw [heq]
      exact ih h' hsmall.2 hfault.2

end TableWriter

theorem Recovers.yields {index : ℕ} {files : TableFiles} {first : UInt64} {ls : List Log}
    (h : Recovers index files first ls) : Yields index files ls := by
  obtain ⟨t, files', hnew, -, -, hmem, hnot, -⟩ := h
  refine ⟨t, files', hnew, fun id l => ⟨fun hget => ?_, ?_⟩⟩
  · by_contra hout
    by_cases hid : ∃ x ∈ ls, x.ID = id
    · obtain ⟨x, hx, rfl⟩ := hid
      cases (hmem x hx).symm.trans hget
      exact hout ⟨hx, rfl⟩
    · exact hnot id (by simpa using hid) l hget
  · rintro ⟨hl, rfl⟩
    exact hmem l hl

namespace TableWriter

variable {t : TableWriter} {ls : List Log}

theorem readLog_no_positions (d : Bytes) (first id : UInt64) (l : Log) :
    readLog d [] first id ≠ .ok l := by
  simp [readLog, getLogPos, readAt, bind, Except.bind]

theorem Clean.crash_empty (h : t.Clean []) : Yields t.index t.crashed [] := by
  obtain ⟨junk, hjunk, hdata⟩ : ∃ junk : Bytes, junk.length < LogHeadSize ∧
      t.crashed.data.getD [] = junk := by
    cases hd : t.data with
    | none => exact ⟨[], by decide, by simp [crashed, hd]⟩
    | some f =>
      obtain ⟨junk, hjunk, rfl⟩ := h.data_eq f hd
      exact ⟨junk, hjunk, by simp [crashed, hd]⟩
  have hmeta : ∃ e, checkMeta t.crashed = .error e := by
    cases hm : t.metaFile with
    | none => exact ⟨.noFile, by simp [checkMeta, crashed, hm]⟩
    | some f =>
      obtain rfl := h.metaFile_eq f hm
      exact ⟨.invalidTable, by simp [checkMeta, crashed, hm]⟩
  obtain ⟨e, hmeta⟩ := hmeta
  have hrepair := @TableReader.repair_short [] junk .nil (by simp) hjunk ⟨t.index, 0, 0, 0⟩
  have hnew : newTableReader t.index t.crashed =
      .ok (TableReader.walked ⟨t.index, 0, 0, 0⟩ [], filesOf []) := by
    rw [newTableReader, if_neg h.index_pos.ne', TableReader.check, hmeta, ← hrepair]
    simp only [TableReader.repair, WriteFile.newRaw, hdata]
    rfl
  refine ⟨_, _, hnew, fun id l => iff_of_false (fun hget => ?_) (by simp)⟩
  unfold TableReader.GetLog at hget
  split_ifs at hget
  exact readLog_no_positions _ _ _ _ hget

theorem Clean.uncorrupted (h : t.Clean ls) : Uncorrupted t ls := by
  by_cases hls : ls = []
  · subst hls
    refine ⟨fun id l => iff_of_false (fun hget => ?_) (by simp), fun hne => absurd rfl hne,
      h.crash_empty⟩
    unfold GetLog at hget
    split_ifs at hget
    cases hd : t.data with
    | none =>
      rw [hd] at hget
      cases hget
    | some f =>
      cases hm : t.metaFile with
      | none =>
        rw [hd, hm] at hget
        cases hget
      | some g =>
        obtain rfl := h.metaFile_eq g hm
        rw [hd, hm] at hget
        exact readLog_no_positions _ _ _ _ hget
  · have hh := h.holds hls
    obtain ⟨f, hf, -⟩ := hh.data_eq hls
    obtain ⟨g, hg, -⟩ := hh.metaFile_eq hls
    obtain ⟨junk, hjunk, rfl⟩ := h.data_eq f hf
    obtain rfl := h.metaFile_eq g hg
    have hcrashed : t.crashed = ⟨some (records ls ++ junk), some (positions ls)⟩ := by
      rw [crashed, hf, hg]
      rfl
    refine ⟨fun id l => ⟨fun hget => ?_, ?_⟩, fun _ => ⟨_, _, _, hh.Flush_eq hls, ?_⟩, ?_⟩
    · by_cases hid : ∃ x ∈ ls, x.ID = id
      · obtain ⟨x, hx, rfl⟩ := hid
        rw [hh.GetLog_of_mem hx, Log.wire_eq (h.small x hx)] at hget
        cases hget
        exact ⟨hx, rfl⟩
      · rw [hh.GetLog_of_not_mem (by simpa using hid), if_neg fun hnil => hls hnil.1] at hget
        cases hget
    · rintro ⟨hl, rfl⟩
      rw [hh.GetLog_of_mem hl, Log.wire_eq (h.small l hl)]
    · have hnew := @FileStore.newTableReader_filesOf (t.index, ls) h.index_pos hls hh.contiguous
        hh.addressed h.small
      exact (recovers_of_eq hh.contiguous hh.addressed hls h.small h.index_pos (by simp [filesOf])
        hnew).yields
    · have hnew := @newTableReader_short ls ls junk t.index (some (positions ls)) h.index_pos
        hh.contiguous hh.addressed prefix_rfl hls h.small hjunk (by simp)
      rw [hcrashed]
      exact (recovers_of_eq hh.contiguous hh.addressed hls h.small h.index_pos (by simp)
        hnew).yields

/-- After any calls of which only writes of a part of a head fail, the writer, the flushed table and
the files of a crash have exactly the logs that were accepted. -/
theorem failed_heads_harmless {index : ℕ} (hindex : 0 < index) {maxLogSize : ℤ}
    (hmax : maxLogSize ≤ maxLogFileSize) {cs : List (Log × Option (Fault × Err))}
    (hsmall : ∀ c ∈ cs, c.1.Data.length < 2 ^ 32)
    (hfault : ∀ c ∈ cs, ∀ f ∈ c.2, ∃ n < LogHeadSize, f.1 = .head n) :
    let s := stores (newTableWriter index maxLogSize false, []) cs
    Uncorrupted s.1 s.2 := by
  have h : (newTableWriter index maxLogSize false).Clean [] :=
    ⟨fun hne => absurd rfl hne, fun _ => newTableWriter_holds index hmax false,
      fun f hf => (by cases hf), fun f hf => (by cases hf), by simp, rfl, hindex⟩
  exact (h.stores hsmall hfault).uncorrupted

theorem failed_heads_harmless_retried :
    let s := stores (newTableWriter 1 1024 false, [])
      [(⟨1, 0, 0, [7]⟩, some (.head 3, .closed)), (⟨1, 0, 0, [7]⟩, none)]
    Uncorrupted s.1 s.2 :=
  failed_heads_harmless (by decide) (by decide) (by decide) (by simp [LogHeadSize])

theorem failed_data_corrupts :
    let s := stores (newTableWriter 1 1024 false, [])
      [(⟨1, 0, 0, [7]⟩, some (.data 0, .closed)), (⟨1, 0, 0, [7]⟩, none)]
    s.2 = [⟨1, 0, 0, [7]⟩] ∧ ¬ Uncorrupted s.1 s.2 := by
  refine ⟨rfl, fun h => ?_⟩
  obtain ⟨t, files', hnew, hall⟩ := h.crash
  cases hnew
  cases (hall 1 ⟨1, 0, 0, [7]⟩).mpr ⟨List.mem_singleton_self _, rfl⟩

end TableWriter

end LedisDB.Rpl
