import LedisDB.Rpl.Repair

/-!
# Opening table files of any content

`newTableReader` on arbitrary bytes. `check` looks at the first and the last record
only, and `repair` follows the heads from the start of the data file: it reads the
name of a closed file when an ID does not grow, takes IDs with gaps, and writes
positions of 32 bits. A list of readers that `tableReaders.check` accepts is searched
correctly.
-/

namespace LedisDB.Rpl

open List

/-- The number in `n` bytes of a file, the highest first. -/
def numberAt (f : Bytes) (pos n : ℕ) : ℕ := beNat (readAt f pos n)

/-- A record with the ID `id` stands at `pos`, with its data inside the file. -/
def RecordAt (d : Bytes) (pos id : ℕ) : Prop :=
  pos + LogHeadSize + numberAt d (pos + 13) 4 ≤ d.length ∧ numberAt d pos 8 = id

section
variable {d m : Bytes} {pos next n : ℕ} {l x : Log} {ls : List Log}

theorem readAt_length_eq_iff : (readAt d pos n).length = n ↔ n = 0 ∨ pos + n ≤ d.length := by
  rw [readAt, length_take, length_drop]
  omega

theorem numberAt_lt (f : Bytes) (pos n : ℕ) : numberAt f pos n < 256 ^ n :=
  (beNat_lt _).trans_le (Nat.pow_le_pow_right (by decide) (length_take_le _ _))

theorem decodeHeadBuf_readAt (d : Bytes) (pos : ℕ) :
    (Log.decodeHeadBuf (readAt d pos LogHeadSize)).1.ID.toNat = numberAt d pos 8 ∧
      (Log.decodeHeadBuf (readAt d pos LogHeadSize)).2 = numberAt d (pos + 13) 4 := by
  have hlt := numberAt_lt d pos 8
  have hid : take 8 (readAt d pos LogHeadSize) = readAt d pos 8 := take_take
  have hdata : take 4 (drop 13 (readAt d pos LogHeadSize)) = readAt d (pos + 13) 4 := by
    rw [readAt, drop_take, take_take, drop_drop]
    rfl
  rw [Log.decodeHeadBuf, hid, hdata]
  exact ⟨UInt64.toNat_ofNat_of_lt' hlt, rfl⟩

theorem decodeLogHead_ok (h : decodeLogHead d pos = .ok (l, next)) :
    pos + LogHeadSize ≤ d.length ∧ next = pos + LogHeadSize + numberAt d (pos + 13) 4 ∧
      l.ID.toNat = numberAt d pos 8 := by
  unfold decodeLogHead Log.DecodeHeadAt at h
  obtain ⟨hid, hlen⟩ := decodeHeadBuf_readAt d pos
  by_cases hpos : (readAt d pos LogHeadSize).length = LogHeadSize
  · simp only [hpos, ne_eq, not_true_eq_false, if_false, bind, Except.bind, Except.ok.injEq,
      Prod.mk.injEq] at h
    obtain ⟨rfl, rfl⟩ := h
    exact ⟨(readAt_length_eq_iff.mp hpos).resolve_left (by decide), by rw [hlen], hid⟩
  · simp [hpos, bind, Except.bind] at h

theorem decodeLogHead_error {e : Err} (h : decodeLogHead d pos = .error e) :
    d.length < pos + LogHeadSize := by
  by_contra hpos
  have hlen := readAt_length_eq_iff.mpr (.inr (not_lt.mp hpos))
  simp [decodeLogHead, Log.DecodeHeadAt, hlen, bind, Except.bind] at h

theorem getLogPos_eq (m : Bytes) (i : ℕ) : getLogPos m i =
    if i * 4 + 4 ≤ m.length then .ok (numberAt m (i * 4) 4) else .error .eof := by
  have hlen := @readAt_length_eq_iff m (i * 4) 4
  unfold getLogPos
  by_cases h : i * 4 + 4 ≤ m.length
  · simp [h, hlen.mpr (.inr h), numberAt]
  · simp [h, hlen]

theorem readLog_ok_iff {first id : UInt64} : (∃ l, readLog d m first id = .ok l) ↔
    ∃ pos, getLogPos m (id - first).toNat = .ok pos ∧ RecordAt d pos id.toNat := by
  unfold readLog RecordAt Log.DecodeAt
  cases getLogPos m (id - first).toNat with
  | error e => simp [bind, Except.bind]
  | ok pos =>
    cases hh : decodeLogHead d pos with
    | error e =>
      have hpos := decodeLogHead_error hh
      have hno : ¬ pos + LogHeadSize + numberAt d (pos + 13) 4 ≤ d.length := by omega
      simp [bind, Except.bind, Log.DecodeHeadAt_eof hpos, hno]
    | ok q =>
      obtain ⟨hpos, -, -⟩ := decodeLogHead_ok hh
      obtain ⟨hid, hlen⟩ := decodeHeadBuf_readAt d pos
      have hhead := readAt_length_eq_iff.mpr (.inr hpos)
      have hdata := @readAt_length_eq_iff d (pos + LogHeadSize) (numberAt d (pos + 13) 4)
      by_cases hle : pos + LogHeadSize + numberAt d (pos + 13) 4 ≤ d.length
      · by_cases heq : (Log.decodeHeadBuf (readAt d pos LogHeadSize)).1.ID = id <;>
          simp [bind, Except.bind, Log.DecodeHeadAt, hhead, hlen, hdata.mpr (.inr hle), hle, ← hid,
            UInt64.toNat_inj, heq]
      · have hno : (readAt d (pos + LogHeadSize) (numberAt d (pos + 13) 4)).length ≠
            numberAt d (pos + 13) 4 := by
          rw [Ne, hdata]
          omega
        simp [bind, Except.bind, Log.DecodeHeadAt, hhead, hlen, hno, hle]

theorem getLogPos_flatMap (ps : List ℕ) (i : ℕ) :
    getLogPos (ps.flatMap position) i =
      (ps[i]?.map fun p => .ok (p % 2 ^ 32)).getD (.error .eof) := by
  have hlen : ∀ qs : List ℕ, (qs.flatMap position).length = qs.length * 4 := by
    intro qs
    induction qs with
    | nil => rfl
    | cons q qs ih => simp [Nat.succ_mul, Nat.add_comm]
  cases hp : ps[i]? with
  | none =>
    have hi := getElem?_eq_none_iff.mp hp
    rw [getLogPos, readAt, drop_eq_nil_of_le (by rw [hlen]; omega)]
    rfl
  | some p =>
    obtain ⟨hi, hget⟩ := List.getElem?_eq_some_iff.mp hp
    have hsplit : ps = ps.take i ++ p :: ps.drop (i + 1) := by
      rw [← hget, ← List.drop_eq_getElem_cons hi, List.take_append_drop]
    rw [hsplit, flatMap_append]
    exact getLogPos_position _ _ p (by rw [hlen, length_take_of_le hi.le])

structure Head where
  pos : ℕ
  log : Log
  next : ℕ

variable {hs : List Head}

/-- The heads from `pos` on up to the first that cannot be read or has ID 0, and where they end. -/
def walk (d : Bytes) : ℕ → ℕ → List Head × ℕ
  | 0, pos => ([], pos)
  | fuel + 1, pos =>
    match decodeLogHead d pos with
    | .error _ => ([], pos)
    | .ok (l, next) =>
      if l.ID = 0 then ([], pos)
      else (⟨pos, l, next⟩ :: (walk d fuel next).1, (walk d fuel next).2)

def Grows : UInt64 → List Log → Prop
  | _, [] => True
  | last, l :: ls => (last ≠ 0 → last < l.ID) ∧ Grows l.ID ls

theorem walk_head {fuel : ℕ} : pos ≤ (walk d fuel pos).2 ∧ ∀ h ∈ (walk d fuel pos).1,
    decodeLogHead d h.pos = .ok (h.log, h.next) ∧ h.log.ID ≠ 0 ∧ h.next ≤ (walk d fuel pos).2 := by
  induction fuel generalizing pos with
  | zero => exact ⟨le_refl _, by simp [walk]⟩
  | succ fuel ih =>
    cases hd : decodeLogHead d pos with
    | error e =>
      simp [walk, hd]
    | ok q =>
      obtain ⟨l, next⟩ := q
      by_cases h0 : l.ID = 0
      · simp [walk, hd, h0]
      · obtain ⟨-, hle, -⟩ := decodeLogHead_ok hd
        obtain ⟨hend, hheads⟩ := ih
        simp only [walk, hd, if_neg h0, forall_mem_cons]
        exact ⟨by omega, ⟨trivial, h0, hend⟩, hheads⟩

theorem WriteFile.truncate_length (d : Bytes) (e : ℕ) : (truncate d e).length = e := by
  rw [truncate, length_append, length_take, length_replicate]
  omega

theorem WriteFile.Write_Close (d b : Bytes) (e : ℕ) :
    ((⟨false, d, e⟩ : WriteFile).Write b).Close = truncate d e ++ b := by
  have hlen : e + b.length = (truncate d e ++ b).length := by
    rw [length_append, truncate_length]
  simp only [Write]
  rw [hlen]
  exact truncate_eq_left (prefix_append _ _)

namespace TableReader

theorem repairLoop_walk {fuel : ℕ} {ls : List Log} (h0 : ∀ l ∈ ls, l.ID ≠ 0) {b : Bytes}
    {f : WriteFile} (hf : f.Written b) (t : TableReader) :
    (Grows (lastID ls) ((walk d fuel pos).1.map Head.log) →
      ∃ f', f'.Written (b ++ ((walk d fuel pos).1.map Head.pos).flatMap position) ∧
        repairLoop d fuel (t.walked ls) pos f =
          .ok (t.walked (ls ++ (walk d fuel pos).1.map Head.log), (walk d fuel pos).2, f')) ∧
    (¬ Grows (lastID ls) ((walk d fuel pos).1.map Head.log) →
      repairLoop d fuel (t.walked ls) pos f = .error .panic) := by
  induction fuel generalizing ls pos b f with
  | zero => exact ⟨fun _ => ⟨f, by simpa [walk] using hf, by simp [walk, repairLoop]⟩,
      fun h => absurd trivial h⟩
  | succ fuel ih =>
    cases hd : decodeLogHead d pos with
    | error e =>
      simp only [walk, hd, repairLoop_stop hd]
      exact ⟨fun _ => ⟨f, by simpa using hf, by simp⟩, fun h => absurd trivial h⟩
    | ok q =>
      obtain ⟨l, next⟩ := q
      by_cases hl : l.ID = 0
      · simp only [walk, repairLoop, hd, hl]
        exact ⟨fun _ => ⟨f, by simpa using hf, by simp⟩, fun h => absurd trivial h⟩
      · simp only [walk, hd, if_neg hl]
        by_cases hgrow : lastID ls ≠ 0 → lastID ls < l.ID
        · have hstep := repairLoop_step hd hl (t := t.walked ls) hgrow fuel f
          rw [walked_next h0] at hstep
          obtain ⟨hok, hpanic⟩ := @ih next (ls ++ [l]) (by simpa [or_imp, forall_and, hl] using h0)
            (b ++ position pos) (f.Write (position pos)) (hf.Write _)
          rw [lastID_append_singleton] at hok hpanic
          rw [hstep]
          refine ⟨fun hg => ?_, fun hg => hpanic fun h => hg ⟨hgrow, h⟩⟩
          obtain ⟨f', hf', hrun⟩ := hok hg.2
          exact ⟨f', by simpa using hf', by simpa using hrun⟩
        · have hle := (Classical.not_imp.mp hgrow).imp_right UInt64.not_lt.mp
          rw [repairLoop_panic hd hl hle]
          exact ⟨fun hg => absurd hg.1 hgrow, fun _ => rfl⟩

theorem repairLoop_fuel {fuel : ℕ} (hfuel : d.length < fuel + pos) (t : TableReader)
    (f : WriteFile) : repairLoop d (fuel + 1) t pos f = repairLoop d fuel t pos f := by
  induction fuel generalizing pos t f with
  | zero =>
    have hd : decodeLogHead d pos = .error .eof := by
      rw [decodeLogHead, Log.DecodeHeadAt_eof (by omega)]
      rfl
    rw [repairLoop_stop hd, repairLoop_stop hd]
  | succ fuel ih =>
    rw [repairLoop, repairLoop]
    cases hd : decodeLogHead d pos with
    | error e => rfl
    | ok q =>
      obtain ⟨-, hle, -⟩ := decodeLogHead_ok hd
      unfold LogHeadSize at hle
      dsimp only
      rw [ih (by omega)]

def heads (d : Bytes) : List Head := (walk d (d.length + 1) 0).1

def repaired (d : Bytes) : Bytes :=
  WriteFile.truncate d (walk d (d.length + 1) 0).2 ++ magic

theorem repair_eq (t : TableReader) (d : Bytes) (m : Option Bytes) :
    (Grows 0 ((heads d).map Head.log) →
      t.repair ⟨some d, m⟩ = .ok (t.walked ((heads d).map Head.log),
        ⟨some (repaired d), some (((heads d).map Head.pos).flatMap position)⟩)) ∧
    (¬ Grows 0 ((heads d).map Head.log) → t.repair ⟨some d, m⟩ = .error .panic) := by
  obtain ⟨hok, hpanic⟩ := @repairLoop_walk d 0 (d.length + 1) [] (by simp) []
    (.newRaw m) (WriteFile.newRaw_written m) t
  constructor
  · intro hg
    obtain ⟨f, hf, hrun⟩ := hok hg
    rw [walked_nil] at hrun
    simp only [repair, WriteFile.newRaw, Option.getD_some, bind, Except.bind] at hrun ⊢
    rw [hrun]
    dsimp only
    rw [WriteFile.Write_Close, hf.Close_eq]
    rfl
  · intro hg
    have hrun := hpanic hg
    rw [walked_nil] at hrun
    simp only [repair, WriteFile.newRaw, Option.getD_some, bind, Except.bind] at hrun ⊢
    rw [hrun]

theorem record_of_head {h : Head} (hh : h ∈ heads d) :
    RecordAt (repaired d) h.pos h.log.ID.toNat := by
  obtain ⟨hd, -, hend⟩ := (@walk_head d 0 _).2 h hh
  obtain ⟨hpos, hnext, hid⟩ := decodeLogHead_ok hd
  have hread : ∀ i n, i + n ≤ LogHeadSize →
      numberAt (repaired d) (h.pos + i) n = numberAt d (h.pos + i) n := by
    intro i n hin
    unfold numberAt readAt repaired WriteFile.truncate
    rw [append_assoc, drop_append_of_le_length (by rw [length_take]; omega),
      take_append_of_le_length (by rw [length_drop, length_take]; omega),
      drop_take, take_take, Nat.min_eq_left (by omega)]
  constructor
  · rw [hread 13 4 (by decide), repaired, length_append, WriteFile.truncate_length, ← hnext]
    exact Nat.le_add_right_of_le hend
  · rw [hid]
    exact hread 0 8 (by decide)

end TableReader

theorem numbered_grows {n : ℕ} {last : UInt64} (hn : Numbered n ls)
    (hlast : last = 0 ∨ last.toNat < n) : Grows last ls := by
  induction ls generalizing n last with
  | nil => trivial
  | cons l ls ih =>
    obtain ⟨hid, hn⟩ := numbered_cons.mp hn
    refine ⟨fun h0 => ?_, ih hn (.inr (by omega))⟩
    rw [UInt64.lt_iff_toNat_lt, hid]
    exact hlast.resolve_left h0

theorem lastID_cons_cons (x y : Log) (ls : List Log) : lastID (x :: y :: ls) = lastID (y :: ls) :=
  lastID_append [x] (by simp)

theorem Grows.le (hx : x.ID ≠ 0) (h : Grows x.ID ls) :
    x.ID.toNat + ls.length ≤ (lastID (x :: ls)).toNat := by
  induction ls generalizing x with
  | nil => exact le_refl _
  | cons y ls ih =>
    have hlt := UInt64.lt_iff_toNat_lt.mp (h.1 hx)
    have := ih (fun h0 => by rw [h0] at hlt; exact Nat.not_lt_zero _ hlt) h.2
    rw [lastID_cons_cons, length_cons]
    omega

theorem Grows.numbered (hx : x.ID ≠ 0) (h : Grows x.ID ls)
    (hle : (lastID (x :: ls)).toNat ≤ x.ID.toNat + ls.length) : Numbered x.ID.toNat (x :: ls) := by
  induction ls generalizing x with
  | nil => exact numbered_cons.mpr ⟨rfl, .nil⟩
  | cons y ls ih =>
    have hlt := UInt64.lt_iff_toNat_lt.mp (h.1 hx)
    have hy : y.ID ≠ 0 := fun h0 => by rw [h0] at hlt; exact Nat.not_lt_zero _ hlt
    have hbound := h.2.le hy
    rw [lastID_cons_cons, length_cons] at hle
    have hnext : y.ID.toNat = x.ID.toNat + 1 := by omega
    refine numbered_cons.mpr ⟨rfl, ?_⟩
    rw [← hnext]
    exact ih hy h.2 (by omega)

open TableReader

theorem getLogPos_head {h : Head} (hh : h ∈ hs) (hc : Contiguous (hs.map Head.log)) :
    getLogPos ((hs.map Head.pos).flatMap position) (h.log.ID - firstID (hs.map Head.log)).toNat =
      .ok (h.pos % 2 ^ 32) := by
  obtain ⟨as, bs, rfl⟩ := append_of_mem hh
  simp only [map_append] at hc ⊢
  have hid := hc.numbered.id_eq
  rw [length_map] at hid
  rw [UInt64.toNat_sub_of_le _ _ (by rw [UInt64.le_iff_toNat_le]; omega), hid,
    Nat.add_sub_cancel_left, getLogPos_flatMap,
    getElem?_append_right (by rw [length_map]), length_map, Nat.sub_self]
  rfl

/-- Opening the files returns a reader, and every ID of its range is found. -/
def SafelyOpened (index : ℕ) (files : TableFiles) : Prop :=
  ∃ t files', newTableReader index files = .ok (t, files') ∧ (t.first > 0 →
    ∀ id, t.first ≤ id → id ≤ t.last → ∃ l, t.GetLog files' id = .ok l)

/-- The last entry of a meta file. -/
def lastPos (m : Bytes) : ℕ := numberAt m (m.length - 4) 4

/-- The files that `check` accepts: entries of four bytes, the first of them 0; the magic bytes
right after the record of the last entry; and as many entries as there are IDs from that of the
first record to that of the last. -/
structure Accepted (d m : Bytes) : Prop where
  entries : m.length % 4 = 0 ∧ m.length ≠ 0
  magic_eq : readAt d (d.length - magic.length) magic.length = magic
  first_eq : numberAt m 0 4 = 0
  last_end : lastPos m + LogHeadSize + numberAt d (lastPos m + 13) 4 + magic.length = d.length
  first_le : numberAt d 0 8 ≤ numberAt d (lastPos m) 8
  count : (numberAt d (lastPos m) 8 - numberAt d 0 8 + 1) % 2 ^ 64 = m.length / 4 % 2 ^ 64

theorem getLogPos_ends (hm : m.length % 4 = 0 ∧ m.length ≠ 0) :
    getLogPos m 0 = .ok (numberAt m 0 4) ∧ getLogPos m (m.length / 4 - 1) = .ok (lastPos m) := by
  have hindex : (m.length / 4 - 1) * 4 = m.length - 4 := by omega
  rw [getLogPos_eq, getLogPos_eq, hindex, if_pos (by omega), if_pos (by omega), Nat.zero_mul]
  exact ⟨rfl, rfl⟩

theorem count_eq_iff {a b : UInt64} (h : a ≤ b) (n : ℕ) :
    b - a + 1 = UInt64.ofNat n ↔ (b.toNat - a.toNat + 1) % 2 ^ 64 = n % 2 ^ 64 := by
  rw [← UInt64.toNat_inj, UInt64.toNat_add, UInt64.toNat_sub_of_le _ _ h, UInt64.toNat_ofNat']
  rfl

theorem check_accepted (d m : Bytes) (index : ℕ) :
    match check ⟨some d, some m⟩ ⟨index, 0, 0, 0⟩ with
    | (.ok _, t) => Accepted d m ∧ t.first.toNat = numberAt d 0 8 ∧
        t.last.toNat = numberAt d (lastPos m) 8
    | (.error _, _) => ¬ Accepted d m := by
  -- the tests of `check` in their order, each against its part of `Accepted`
  unfold check checkMeta checkData
  dsimp only
  by_cases hm : m.length % 4 ≠ 0 ∨ m.length = 0
  · rw [if_pos hm]
    exact fun h => hm.elim (absurd h.entries.1) h.entries.2
  rw [if_neg hm]
  rw [not_or, not_not] at hm
  by_cases hd : d.length < magic.length
  · rw [if_pos hd]
    intro h
    have hend := h.last_end
    omega
  rw [if_neg hd]
  by_cases hmagic : readAt d (d.length - magic.length) magic.length ≠ magic
  · rw [if_pos hmagic]
    exact fun h => hmagic h.magic_eq
  rw [if_neg hmagic]
  obtain ⟨hfirst, hlast⟩ := getLogPos_ends hm
  simp only [hfirst, hlast, Except.toOption, Option.getD_some]
  by_cases hzero : numberAt m 0 4 ≠ 0
  · rw [if_pos hzero]
    exact fun h => hzero h.first_eq
  rw [if_neg hzero]
  rw [not_not] at hzero hmagic
  rw [hzero]
  cases hf : decodeLogHead d 0 with
  | error e =>
    have hlt := decodeLogHead_error hf
    intro h
    have hend := h.last_end
    omega
  | ok p =>
    cases hl : decodeLogHead d (lastPos m) with
    | error e =>
      have hlt := decodeLogHead_error hl
      intro h
      have hend := h.last_end
      omega
    | ok q =>
      obtain ⟨-, -, hid⟩ := decodeLogHead_ok hf
      obtain ⟨-, hnext, hid'⟩ := decodeLogHead_ok hl
      have hle := @UInt64.le_iff_toNat_le p.1.ID q.1.ID
      have hcount := fun h => @count_eq_iff p.1.ID q.1.ID h (m.length / 4)
      rw [hid, hid'] at hle
      simp only [hid, hid'] at hcount
      dsimp only
      split_ifs with hend hgt hne
      · exact fun h => hend (hnext ▸ h.last_end)
      · exact fun h => UInt64.not_lt.mpr (hle.mpr h.first_le) hgt
      · exact fun h => hne ((hcount (UInt64.not_lt.mp hgt)).mpr h.count)
      · rw [not_not] at hend hne
        have hle' := UInt64.not_lt.mp hgt
        exact ⟨⟨hm, hmagic, hzero, hnext ▸ hend, hle.mp hle', (hcount hle').mp hne⟩, hid, hid'⟩

/-- In files that `check` accepts, every entry of the meta file leads to a record with its ID. In
others the heads of the data file have consecutive IDs, and where a position does not fit in 32
bits, its lower bits lead to a record with the same ID. -/
def Sound (d m : Bytes) : Prop :=
  (Accepted d m → numberAt d 0 8 ≠ 0 →
    ∀ i, numberAt d 0 8 + i ≤ numberAt d (lastPos m) 8 →
      RecordAt d (numberAt m (i * 4) 4) (numberAt d 0 8 + i)) ∧
  (¬ Accepted d m → Contiguous ((heads d).map Head.log) ∧
    ∀ h ∈ heads d, 2 ^ 32 ≤ h.pos → RecordAt (repaired d) (h.pos % 2 ^ 32) h.log.ID.toNat)

theorem safe_reader_iff {t : TableReader} : (∀ id, t.first ≤ id → id ≤ t.last →
      ∃ l, t.GetLog ⟨some d, some m⟩ id = .ok l) ↔ ∀ id, t.first ≤ id → id ≤ t.last →
      ∃ pos, getLogPos m (id - t.first).toNat = .ok pos ∧ RecordAt d pos id.toNat := by
  refine forall_congr' fun id => forall_congr' fun h1 => forall_congr' fun h2 => ?_
  rw [← readLog_ok_iff, TableReader.GetLog, if_neg]
  rintro (h | h)
  · exact UInt64.not_lt.mpr h1 h
  · exact UInt64.not_lt.mpr h2 h

/-- Entry `i` of an accepted meta file is that of the `i`-th ID of the range. -/
theorem Accepted.safe_iff {t : TableReader} (h : Accepted d m)
    (hfirst : t.first.toNat = numberAt d 0 8) (hlast : t.last.toNat = numberAt d (lastPos m) 8)
    (hpos : numberAt d 0 8 ≠ 0) :
    (∀ id, t.first ≤ id → id ≤ t.last → ∃ l, t.GetLog ⟨some d, some m⟩ id = .ok l) ↔
      ∀ i, numberAt d 0 8 + i ≤ numberAt d (lastPos m) 8 →
        RecordAt d (numberAt m (i * 4) 4) (numberAt d 0 8 + i) := by
  have hlt := t.last.toNat_lt
  have hcount := h.count
  have hentries := h.entries.1
  -- the first ID is not 0, so the number of IDs is below 2^64
  rw [Nat.mod_eq_of_lt (by omega)] at hcount
  have hentry : ∀ i, numberAt d 0 8 + i ≤ numberAt d (lastPos m) 8 → i * 4 + 4 ≤ m.length := by
    intro i hi
    have hle := Nat.mod_le (m.length / 4) (2 ^ 64)
    omega
  rw [safe_reader_iff]
  constructor
  · intro hall i hi
    have hid : (UInt64.ofNat (numberAt d 0 8 + i)).toNat = numberAt d 0 8 + i :=
      UInt64.toNat_ofNat_of_lt' (lt_of_le_of_lt hi (hlast ▸ hlt))
    have h1 : t.first ≤ UInt64.ofNat (numberAt d 0 8 + i) := by
      rw [UInt64.le_iff_toNat_le, hid]
      omega
    have h2 : UInt64.ofNat (numberAt d 0 8 + i) ≤ t.last := by
      rw [UInt64.le_iff_toNat_le, hid]
      omega
    obtain ⟨pos, hget, hrec⟩ := hall _ h1 h2
    rw [UInt64.toNat_sub_of_le _ _ h1, hid, hfirst, Nat.add_sub_cancel_left, getLogPos_eq,
      if_pos (hentry i hi)] at hget
    cases hget
    rwa [hid] at hrec
  · intro hall id h1 h2
    have hid := UInt64.le_iff_toNat_le.mp h1
    have hid' := UInt64.le_iff_toNat_le.mp h2
    have hi : numberAt d 0 8 + (id.toNat - numberAt d 0 8) = id.toNat := by omega
    refine ⟨_, ?_, hi ▸ hall (id.toNat - numberAt d 0 8) (by omega)⟩
    rw [UInt64.toNat_sub_of_le _ _ h1, hfirst, getLogPos_eq, if_pos (hentry _ (by omega))]

theorem contiguous_of_found (h0 : ∀ h ∈ hs, h.log.ID ≠ 0) (hg : Grows 0 (hs.map Head.log))
    (hlast : firstID (hs.map Head.log) ≤ lastID (hs.map Head.log) → ∃ pos,
      getLogPos ((hs.map Head.pos).flatMap position)
        (lastID (hs.map Head.log) - firstID (hs.map Head.log)).toNat = .ok pos) :
    Contiguous (hs.map Head.log) := by
  cases hs with
  | nil => exact .nil
  | cons h hs =>
    have hx := h0 h (.head _)
    have hle := hg.2.le hx
    have hfirst := UInt64.le_iff_toNat_le.mpr (le_trans (Nat.le_add_right _ _) hle)
    obtain ⟨pos, hpos⟩ := hlast hfirst
    change getLogPos _ (lastID (h.log :: hs.map Head.log) - h.log.ID).toNat = _ at hpos
    rw [getLogPos_flatMap, UInt64.toNat_sub_of_le _ _ hfirst] at hpos
    refine ⟨hg.2.numbered hx ?_, fun _ => hx⟩
    by_contra hlt
    rw [length_map] at hlt
    rw [getElem?_eq_none (by rw [length_map, length_cons]; omega)] at hpos
    cases hpos

theorem mem_heads_ids {id : UInt64} (hc : Contiguous (hs.map Head.log)) (hne : hs ≠ []) :
    firstID (hs.map Head.log) ≤ id ∧ id ≤ lastID (hs.map Head.log) ↔ ∃ h ∈ hs, h.log.ID = id := by
  have hout := hc.numbered.out_of_range_iff (by simpa using hne) id
  rw [← UInt64.not_lt, ← UInt64.not_lt, ← not_or, hout]
  simp

theorem heads_id_ne_zero {h : Head} (hh : h ∈ heads d) : h.log.ID ≠ 0 :=
  ((@walk_head d 0 _).2 h hh).2.1

/-- The meta file that `repair` writes leads to all records exactly if the IDs are consecutive
and no position is cut to the wrong one. -/
theorem repaired_found_iff (hg : Grows 0 ((heads d).map Head.log)) (hne : heads d ≠ []) :
    (∀ id, firstID ((heads d).map Head.log) ≤ id → id ≤ lastID ((heads d).map Head.log) → ∃ pos,
      getLogPos (((heads d).map Head.pos).flatMap position)
        (id - firstID ((heads d).map Head.log)).toNat = .ok pos ∧
      RecordAt (repaired d) pos id.toNat) ↔
    Contiguous ((heads d).map Head.log) ∧
      ∀ h ∈ heads d, 2 ^ 32 ≤ h.pos → RecordAt (repaired d) (h.pos % 2 ^ 32) h.log.ID.toNat := by
  constructor
  · intro hall
    have hc := contiguous_of_found (fun h hh => heads_id_ne_zero hh) hg fun hle =>
      (hall _ hle (UInt64.le_refl _)).imp fun _ h => h.1
    refine ⟨hc, fun h hh _ => ?_⟩
    obtain ⟨h1, h2⟩ := (mem_heads_ids hc hne).mpr ⟨h, hh, rfl⟩
    obtain ⟨pos, hpos, hrec⟩ := hall h.log.ID h1 h2
    cases (getLogPos_head hh hc).symm.trans hpos
    exact hrec
  · rintro ⟨hc, hwrap⟩ id h1 h2
    obtain ⟨h, hh, rfl⟩ := (mem_heads_ids hc hne).mp ⟨h1, h2⟩
    refine ⟨_, getLogPos_head hh hc, ?_⟩
    by_cases hlt : h.pos < 2 ^ 32
    · rw [Nat.mod_eq_of_lt hlt]
      exact record_of_head hh
    · exact hwrap h hh (not_lt.mp hlt)

theorem repairLoop_fuel_eq {fuel : ℕ} (hfuel : d.length < fuel) (t : TableReader) (f : WriteFile) :
    repairLoop d fuel t 0 f = repairLoop d (d.length + 1) t 0 f := by
  induction fuel, hfuel using Nat.le_induction with
  | base => rfl
  | succ fuel hle ih => rw [repairLoop_fuel hle, ih]

/-- Opening returns a reader that finds every ID of its range exactly for sound files. -/
theorem open_any_files_iff {index : ℕ} (hindex : 0 < index) (d m : Bytes) :
    (∀ fuel t f, d.length < fuel → repairLoop d fuel t 0 f = repairLoop d (d.length + 1) t 0 f) ∧
    (SafelyOpened index ⟨some d, some m⟩ ↔ Sound d m) := by
  refine ⟨fun fuel t f hfuel => repairLoop_fuel_eq hfuel t f, ?_⟩
  have hacc := check_accepted d m index
  unfold SafelyOpened Sound newTableReader
  rw [if_neg hindex.ne']
  generalize check ⟨some d, some m⟩ ⟨index, 0, 0, 0⟩ = c at hacc
  obtain ⟨res, t⟩ := c
  cases res with
  | ok u =>
    obtain ⟨hacc, hfirst, hlast⟩ := hacc
    have hpos : t.first > 0 ↔ numberAt d 0 8 ≠ 0 := by
      rw [← hfirst, gt_iff_lt, UInt64.lt_iff_toNat_lt]
      exact Nat.pos_iff_ne_zero
    rw [and_iff_left (absurd hacc), imp_iff_right hacc, ← hpos]
    have hiff : (t.first > 0 → ∀ id, t.first ≤ id → id ≤ t.last →
        ∃ l, t.GetLog ⟨some d, some m⟩ id = .ok l) ↔ _ :=
      imp_congr_right fun h0 => hacc.safe_iff hfirst hlast (hpos.mp h0)
    rw [← hiff]
    simp only [Except.ok.injEq, Prod.mk.injEq]
    constructor
    · rintro ⟨_, _, ⟨rfl, rfl⟩, h⟩
      exact h
    · exact fun h => ⟨_, _, ⟨rfl, rfl⟩, h⟩
  | error e =>
    rw [and_iff_right fun h => absurd h hacc, imp_iff_right hacc]
    dsimp only
    obtain ⟨hok, hpanic⟩ := t.repair_eq d (some m)
    by_cases hg : Grows 0 ((heads d).map Head.log)
    · rw [hok hg]
      by_cases hnil : heads d = []
      · -- the reader of no record has the first ID 0
        refine iff_of_true ⟨_, _, rfl, fun hpos => ?_⟩ ?_
        · simp [walked, hnil, firstID] at hpos
        · simp only [hnil]
          exact ⟨.nil, by simp⟩
      · have hfirst : firstID ((heads d).map Head.log) ≠ 0 := by
          obtain ⟨l, hl, hfirst⟩ := firstID_mem (mt map_eq_nil_iff.mp hnil)
          obtain ⟨h, hh, rfl⟩ := List.mem_map.mp hl
          exact hfirst ▸ heads_id_ne_zero hh
        rw [← repaired_found_iff hg hnil]
        constructor
        · rintro ⟨_, _, heq, hall⟩
          cases heq
          exact safe_reader_iff.mp (hall (UInt64.pos_iff_ne_zero.mpr hfirst))
        · exact fun hall => ⟨_, _, rfl, fun _ => safe_reader_iff.mpr hall⟩
    · rw [hpanic hg]
      refine iff_of_false ?_ fun hs => hg (numbered_grows hs.1.numbered (.inl rfl))
      rintro ⟨_, _, heq, -⟩
      cases heq

theorem open_any_files_one : SafelyOpened 1 ⟨some (Log.Encode ⟨1, 0, 0, []⟩), some []⟩ := by
  refine (open_any_files_iff (by decide) _ []).2.mpr
    ⟨fun h => absurd rfl h.entries.2, fun _ => ?_⟩
  show Contiguous [⟨1, 0, 0, []⟩] ∧ ∀ h ∈ [(⟨0, ⟨1, 0, 0, []⟩, 17⟩ : Head)], 2 ^ 32 ≤ h.pos → _
  exact ⟨⟨by decide, by decide⟩, by simp⟩

theorem unsound_files_opened :
    newTableReader 1 ⟨some (records [⟨1, 0, 0, []⟩, ⟨1, 0, 0, []⟩]), some []⟩ = .error .panic ∧
    ¬ SafelyOpened 1 ⟨some (records [⟨1, 0, 0, []⟩, ⟨3, 0, 0, []⟩]), some []⟩ := by
  refine ⟨rfl, ?_⟩
  rintro ⟨t, files', hopen, hall⟩
  cases hopen
  obtain ⟨l, hl⟩ := hall (by decide) 2 (by decide) (by decide)
  cases hl

end

namespace TableReaders

section
variable {ts rs : List TableReader} {id : UInt64} {fuel : ℕ}

theorem ascending_of_follows (hle : ∀ t ∈ rs, t.first ≤ t.last) (h : rs.IsChain Follows) :
    Ascending rs := by
  refine ⟨?_, hle⟩
  induction rs with
  | nil => exact .nil
  | cons t rs ih =>
    cases rs with
    | nil => exact pairwise_singleton _ _
    | cons v rs =>
      obtain ⟨hv, hrest⟩ := isChain_cons_cons.mp h
      have hrs := ih (fun u hu => hle u (.tail _ hu)) hrest
      refine pairwise_cons.mpr ⟨fun u hu => ?_, hrs⟩
      rcases mem_cons.mp hu with rfl | hu
      · exact hv.1
      · have hlev := hle v (.tail _ (.head _))
        have hlt := (pairwise_cons.mp hrs).1 u hu
        exact UInt64.lt_trans hv.1 (UInt64.lt_of_le_of_lt hlev hlt)

theorem searchLoop_succ {i j : ℤ} (hfuel : j - i < fuel) :
    searchLoop ts id (fuel + 1) i j = searchLoop ts id fuel i j := by
  induction fuel generalizing i j with
  | zero =>
    have hij : ¬ i ≤ j := by omega
    simp [searchLoop, hij]
  | succ fuel ih =>
    rw [searchLoop, searchLoop]
    split_ifs with hij
    · dsimp only
      rw [ih (by omega), ih (by omega)]
    · rfl

theorem searchLoop_fuel (h : ts.length ≤ fuel) :
    searchLoop ts id fuel 0 (ts.length - 1) = Search ts id := by
  induction fuel, h using Nat.le_induction with
  | base => rfl
  | succ n hn ih =>
    rwa [searchLoop_succ (by omega)]

/-- A list of readers that `check` accepts has disjoint ranges, and `Search` on the sorted list
returns exactly the reader whose range has the ID. -/
theorem accepted_search (hle : ∀ t ∈ ts, t.first ≤ t.last) (hcheck : check ts = .ok rs)
    (id : UInt64) :
    (∀ fuel, rs.length ≤ fuel → searchLoop rs id fuel 0 (rs.length - 1) = Search rs id) ∧
    (∀ t, Search rs id = some t ↔ t ∈ ts ∧ t.first ≤ id ∧ id ≤ t.last) ∧
    (Search rs id = none ↔ ∀ t ∈ ts, ¬ (t.first ≤ id ∧ id ≤ t.last)) ∧
    ts.Pairwise fun t u => t.last < u.first ∨ u.last < t.first := by
  obtain ⟨hsort, -, hchain⟩ := check_ok_iff.mp hcheck
  have hperm := hsort ▸ List.perm_insertionSort _ ts
  have hasc := ascending_of_follows (fun t ht => hle t (hperm.mem_iff.mp ht)) hchain
  have hfound : ∀ t, Search rs id = some t ↔ t ∈ ts ∧ t.first ≤ id ∧ id ≤ t.last := by
    intro t
    rw [← hperm.mem_iff]
    exact ⟨searchLoop_some, fun h => hasc.Search_eq_some h.1 h.2⟩
  refine ⟨fun fuel => searchLoop_fuel, hfound, ?_, ?_⟩
  · rw [Option.eq_none_iff_forall_ne_some]
    exact ⟨fun h t ht hid => h t ((hfound t).mpr ⟨ht, hid⟩),
      fun h t ht => h t ((hfound t).mp ht).1 ((hfound t).mp ht).2⟩
  · refine (hperm.pairwise_iff fun {t u} h => h.symm).mp ?_
    exact hasc.1.imp .inl

theorem accepted_search_two :
    check [⟨2, 5, 9, 0⟩, ⟨1, 1, 3, 0⟩] = .ok [⟨1, 1, 3, 0⟩, ⟨2, 5, 9, 0⟩] ∧
    Search [⟨1, 1, 3, 0⟩, ⟨2, 5, 9, 0⟩] 6 = some ⟨2, 5, 9, 0⟩ :=
  ⟨by decide, ((accepted_search (by decide)
    (show check [⟨2, 5, 9, 0⟩, ⟨1, 1, 3, 0⟩] = .ok [⟨1, 1, 3, 0⟩, ⟨2, 5, 9, 0⟩] by decide) 6).2.1
      _).mpr (by decide)⟩

end

end TableReaders

end LedisDB.Rpl
