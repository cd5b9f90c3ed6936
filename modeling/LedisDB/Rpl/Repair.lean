import LedisDB.Rpl.StoreContents

/-!
# Repairing a table

The loop of `repair` walks over record heads. Over whole records it goes from
one to the next and writes their positions; where no head can be read any more
it stops, and the files are then those of a closed table of the records met. A
head that can be read is taken for a record, whatever follows it.
-/

namespace LedisDB.Rpl

open List

namespace TableReader

variable {ls : List Log}

def walked (t : TableReader) (ls : List Log) : TableReader :=
  ⟨t.index, firstID ls, lastID ls, (ls.getLast?.map Log.CreateTime).getD t.lastTime⟩

theorem walked_append_singleton (t : TableReader) (ls : List Log) (l : Log) :
    t.walked (ls ++ [l]) = ⟨t.index, firstID (ls ++ [l]), l.ID, l.CreateTime⟩ := by
  simp [walked]

theorem walked_next (h0 : ∀ l ∈ ls, l.ID ≠ 0) (t : TableReader) (l : Log) :
    (⟨(t.walked ls).index, if (t.walked ls).first = 0 then l.ID else (t.walked ls).first, l.ID,
      l.CreateTime⟩ : TableReader) = t.walked (ls ++ [l]) := by
  rw [walked_append_singleton]
  cases ls with
  | nil => rfl
  | cons x ls =>
    exact congrArg (fun first => (⟨t.index, first, l.ID, l.CreateTime⟩ : TableReader))
      (if_neg (h0 x (.head _)))

theorem readerOf_eq_walked {t : TableReader} (hne : ls ≠ []) :
    t.walked ls = readerOf (t.index, ls) := by
  obtain ⟨xs, l, rfl⟩ : ∃ xs l, ls = xs ++ [l] :=
    ⟨ls.dropLast, ls.getLast hne, (dropLast_append_getLast hne).symm⟩
  simp [walked, readerOf, lastLogTime]

section Loop

variable {data : Bytes} {t t' : TableReader} {pos pos' nextPos fuel : ℕ} {m m' : WriteFile}
  {l : Log}

theorem repairLoop_stop {e : Err} (h : decodeLogHead data pos = .error e) (fuel : ℕ)
    (t : TableReader) (m : WriteFile) : repairLoop data fuel t pos m = .ok (t, pos, m) := by
  cases fuel with
  | zero => rfl
  | succ fuel =>
    rw [repairLoop, h]

theorem repairLoop_step (h : decodeLogHead data pos = .ok (l, nextPos)) (h0 : l.ID ≠ 0)
    (hlast : t.last ≠ 0 → t.last < l.ID) (fuel : ℕ) (m : WriteFile) :
    repairLoop data (fuel + 1) t pos m =
      repairLoop data fuel
        ⟨t.index, if t.first = 0 then l.ID else t.first, l.ID, l.CreateTime⟩ nextPos
        (m.Write (position pos)) := by
  rw [repairLoop, h]
  dsimp only
  rw [if_neg h0, if_neg fun hle => UInt64.not_lt.mpr hle.2 (hlast hle.1)]
  rfl

theorem repairLoop_panic (h : decodeLogHead data pos = .ok (l, nextPos)) (h0 : l.ID ≠ 0)
    (hlast : t.last ≠ 0 ∧ l.ID ≤ t.last) (fuel : ℕ) (m : WriteFile) :
    repairLoop data (fuel + 1) t pos m = .error .panic := by
  rw [repairLoop, h]
  dsimp only
  rw [if_neg h0, if_pos hlast]

theorem repairLoop_cases (h : repairLoop data (fuel + 1) t pos m = .ok (t', pos', m')) :
    (t' = t ∧ pos' = pos ∧ m' = m) ∨
    ∃ l nextPos, decodeLogHead data pos = .ok (l, nextPos) ∧ l.ID ≠ 0 ∧
      (t.last ≠ 0 → t.last < l.ID) ∧
      repairLoop data fuel
        ⟨t.index, if t.first = 0 then l.ID else t.first, l.ID, l.CreateTime⟩ nextPos
        (m.Write (position pos)) = .ok (t', pos', m') := by
  cases hd : decodeLogHead data pos with
  | error e =>
    rw [repairLoop_stop hd] at h
    cases h
    exact .inl ⟨rfl, rfl, rfl⟩
  | ok p =>
    obtain ⟨l, nextPos⟩ := p
    by_cases h0 : l.ID = 0
    · rw [repairLoop, hd] at h
      dsimp only at h
      rw [if_pos h0] at h
      cases h
      exact .inl ⟨rfl, rfl, rfl⟩
    · by_cases hlast : t.last ≠ 0 ∧ l.ID ≤ t.last
      · rw [repairLoop_panic hd h0 hlast] at h
        cases h
      · have hlt := fun hne => UInt64.not_le.mp fun hle => hlast ⟨hne, hle⟩
        rw [repairLoop_step hd h0 hlt] at h
        exact .inr ⟨l, nextPos, rfl, h0, hlt, h⟩

theorem repairLoop_bounds (h : repairLoop data fuel t pos m = .ok (t', pos', m'))
    (hle : t.first ≤ t.last) : t.last ≤ t'.last ∧ t'.first ≤ t'.last ∧ t'.index = t.index := by
  induction fuel generalizing t pos m with
  | zero =>
    cases h
    exact ⟨UInt64.le_refl _, hle, rfl⟩
  | succ fuel ih =>
    rcases repairLoop_cases h with ⟨rfl, -, -⟩ | ⟨l, nextPos, -, h0, hlt, hrec⟩
    · exact ⟨UInt64.le_refl _, hle, rfl⟩
    · have hlast : t.last ≤ l.ID := by
        by_cases hz : t.last = 0
        · rw [hz]
          exact UInt64.zero_le
        · exact UInt64.le_of_lt (hlt hz)
      obtain ⟨h1, h2, h3⟩ := ih hrec (by
        split_ifs
        · exact UInt64.le_refl _
        · exact UInt64.le_trans hle hlast)
      exact ⟨UInt64.le_trans hlast h1, h2, h3⟩

theorem repairLoop_records {ls xs : List Log} {rest : Bytes} (hc : Contiguous (ls ++ xs))
    (hsmall : ∀ l ∈ xs, l.Data.length < 2 ^ 32) (hm : m.Written (positions ls)) (fuel : ℕ) :
    ∃ m', m'.Written (positions (ls ++ xs)) ∧
      repairLoop (records (ls ++ xs) ++ rest) (xs.length + fuel) (t.walked ls)
        (records ls).length m =
      repairLoop (records (ls ++ xs) ++ rest) fuel (t.walked (ls ++ xs))
        (records (ls ++ xs)).length m' := by
  induction xs generalizing ls m with
  | nil => exact ⟨m, by rwa [append_nil], by simp⟩
  | cons l xs ih =>
    have hl := hc.takes
    have hprefix : Contiguous (ls ++ [l]) := by
      rw [← nil_append (ls ++ l :: xs), ← singleton_append, ← append_assoc ls] at hc
      exact hc.of_infix
    have hdecode := @decodeLogHead_records ls xs l rest (hsmall l (.head _))
    have hlast : (t.walked ls).last ≠ 0 → (t.walked ls).last < l.ID := by
      intro hne
      have hls : ls ≠ [] := by
        rintro rfl
        exact hne rfl
      have h1 := hprefix.numbered.id_eq
      have h2 := (numbered_append.mp hprefix.numbered).1.lastID_eq hls
      change lastID ls < l.ID
      rw [UInt64.lt_iff_toNat_lt]
      omega
    have hstep := repairLoop_step hdecode hl.1 hlast (xs.length + fuel) m
    rw [walked_next (fun x hx => hprefix.id_ne_zero (mem_append_left _ hx)) t l] at hstep
    rw [length_cons, Nat.add_right_comm, hstep]
    have hsplit : ls ++ l :: xs = (ls ++ [l]) ++ xs := by simp
    rw [hsplit] at hc ⊢
    apply ih hc fun x hx => hsmall x (.tail _ hx)
    rw [positions_append_singleton]
    exact hm.Write _

end Loop

variable {rest : Bytes}

theorem walked_nil (t : TableReader) : t.walked [] = { t with first := 0, last := 0 } := rfl

section
variable (hc : Contiguous ls) (hsmall : ∀ l ∈ ls, l.Data.length < 2 ^ 32)
include hc hsmall

theorem repair_records (t : TableReader) (metaFile : Option Bytes) :
    ∃ fuel m, m.Written (positions ls) ∧
      t.repair ⟨some (records ls ++ rest), metaFile⟩ =
        repairLoop (records ls ++ rest) (fuel + 1) (t.walked ls) (records ls).length m >>=
          fun r => .ok (r.1,
            ⟨some ((⟨false, records ls ++ rest, r.2.1⟩ : WriteFile).Write magic).Close,
              some r.2.2.Close⟩) := by
  have hlen := records_length_ge ls
  obtain ⟨m, hm, hloop⟩ := @repairLoop_records t (WriteFile.newRaw metaFile) [] ls rest hc hsmall
    (WriteFile.newRaw_written metaFile) ((records ls ++ rest).length - ls.length + 1)
  have hfuel : ls.length + ((records ls ++ rest).length - ls.length + 1) =
      (records ls ++ rest).length + 1 := by
    unfold LogHeadSize at hlen
    rw [length_append]
    omega
  rw [hfuel, nil_append] at hloop
  refine ⟨(records ls ++ rest).length - ls.length, m, hm, ?_⟩
  rw [← hloop]
  rfl

theorem repair_short
    (hrest : rest.length < LogHeadSize) (t : TableReader) (metaFile : Option Bytes) :
    t.repair ⟨some (records ls ++ rest), metaFile⟩ = .ok (t.walked ls, filesOf ls) := by
  obtain ⟨fuel, m, hm, hrepair⟩ := @repair_records ls rest hc hsmall t metaFile
  have hstop : decodeLogHead (records ls ++ rest) (records ls).length = .error .eof := by
    rw [decodeLogHead, Log.DecodeHeadAt_eof (by rw [length_append]; omega)]
    rfl
  have hdata :
      (⟨false, records ls ++ rest, (records ls).length⟩ : WriteFile).Written (records ls) :=
    ⟨rfl, prefix_append _ _⟩
  rw [hrepair, repairLoop_stop hstop]
  change Except.ok (t.walked ls, (⟨some _, some _⟩ : TableFiles)) = _
  rw [(hdata.Write magic).Close_eq, hm.Close_eq]
  rfl

theorem repair_long {l : Log} {nextPos : ℕ}
    (hhead : decodeLogHead (records ls ++ rest) (records ls).length = .ok (l, nextPos))
    (h0 : l.ID ≠ 0) {t t' : TableReader} {metaFile : Option Bytes} {files' : TableFiles}
    (hok : t.repair ⟨some (records ls ++ rest), metaFile⟩ = .ok (t', files')) :
    lastID ls < t'.last := by
  obtain ⟨fuel, m, -, hrepair⟩ := @repair_records ls rest hc hsmall t metaFile
  rw [hrepair] at hok
  obtain ⟨⟨u, pos, m'⟩, hloop, hok⟩ := Err.bind_ok_iff.mp hok
  cases hok
  by_cases hpanic : (t.walked ls).last ≠ 0 ∧ l.ID ≤ (t.walked ls).last
  · rw [repairLoop_panic hhead h0 hpanic] at hloop
    cases hloop
  · have hlt := fun hne => UInt64.not_le.mp fun hle => hpanic ⟨hne, hle⟩
    rw [repairLoop_step hhead h0 hlt] at hloop
    have hlast : lastID ls < l.ID := by
      by_cases hz : lastID ls = 0
      · rw [hz]
        exact UInt64.pos_iff_ne_zero.mpr h0
      · exact hlt hz
    have hle : (if (t.walked ls).first = 0 then l.ID else (t.walked ls).first) ≤ l.ID := by
      split_ifs
      · exact UInt64.le_refl _
      · exact UInt64.le_trans hc.firstID_le_lastID (UInt64.le_of_lt hlast)
    exact UInt64.lt_of_lt_of_le hlast (repairLoop_bounds hloop hle).1

end

end TableReader

end LedisDB.Rpl
