import Mathlib.Data.List.Induction
import LedisDB.Rpl.FileStore

/-!
# What a table holds

A table of the logs `ls` is the data file `records ls` and the meta file
`positions ls`. A writer is kept in this form by `storeLog`, which also sees to
it that the IDs are consecutive and that every record starts at a position the
meta file can hold. Reading the table gives back every log up to what the length
field of its head can tell.
-/

namespace LedisDB.Rpl

open List

/-- The IDs of the logs are consecutive and start with `n`. -/
def Numbered (n : ℕ) (ls : List Log) : Prop :=
  ls.map (fun l => l.ID.toNat) = List.range' n ls.length

instance (n : ℕ) (ls : List Log) : Decidable (Numbered n ls) :=
  inferInstanceAs (Decidable (_ = _))

variable (ls : List Log)

def firstID : UInt64 := (ls.head?.map Log.ID).getD 0

def lastID : UInt64 := (ls.getLast?.map Log.ID).getD 0

def lastLogTime : UInt32 := (ls.getLast?.map Log.CreateTime).getD 0

def records : Bytes := ls.flatMap Log.Encode

def position (p : ℕ) : Bytes := beBytes 4 (UInt32.ofNat p).toNat

def positions : Bytes := (Records.offsets Log.Encode 0 ls).flatMap position

/-- Every record starts at a position that fits in the meta file. -/
def Addressed : Prop := ∀ p ∈ Records.offsets Log.Encode 0 ls, p < 2 ^ 32

section Logs

variable {n : ℕ} {xs ys ls : List Log} {l : Log}

@[simp] theorem records_nil : records [] = [] := rfl

@[simp] theorem records_append (xs ys : List Log) : records (xs ++ ys) = records xs ++ records ys :=
  flatMap_append

@[simp] theorem records_cons (l : Log) (ls : List Log) :
    records (l :: ls) = l.Encode ++ records ls := rfl

theorem records_length_ge (ls : List Log) : LogHeadSize * ls.length ≤ (records ls).length := by
  induction ls with
  | nil => simp
  | cons l ls ih =>
    rw [records_cons, length_append, Log.Encode_length, length_cons, Nat.mul_succ]
    unfold Log.Size
    omega

@[simp] theorem position_length (p : ℕ) : (position p).length = 4 := beBytes_length 4 _

theorem positions_append_singleton (xs : List Log) (l : Log) :
    positions (xs ++ [l]) = positions xs ++ position (records xs).length := by
  unfold positions
  rw [Records.offsets_append]
  simp [Records.offsets, records]

theorem positions_prefix (xs ys : List Log) : positions xs <+: positions (xs ++ ys) := by
  unfold positions
  rw [Records.offsets_append, flatMap_append]
  exact prefix_append _ _

@[simp] theorem positions_length (ls : List Log) : (positions ls).length = ls.length * 4 := by
  induction ls using reverseRecOn with
  | nil => rfl
  | append_singleton xs l ih =>
    rw [positions_append_singleton, length_append, ih, position_length, length_append,
      length_singleton, Nat.succ_mul]

@[simp] theorem firstID_append_cons (l : Log) (ls xs : List Log) :
    firstID (l :: ls ++ xs) = firstID (l :: ls) := rfl

@[simp] theorem lastID_append_singleton (xs : List Log) (l : Log) : lastID (xs ++ [l]) = l.ID := by
  simp [lastID]

theorem firstID_append (hne : xs ≠ []) (ys : List Log) : firstID (xs ++ ys) = firstID xs := by
  cases xs with
  | nil => exact absurd rfl hne
  | cons x xs => rfl

theorem lastID_append (xs : List Log) (hne : ys ≠ []) : lastID (xs ++ ys) = lastID ys := by
  unfold lastID
  rw [getLast?_append_of_ne_nil xs hne]

theorem Numbered.nil : Numbered n [] := rfl

theorem numbered_cons : Numbered n (l :: ls) ↔ l.ID.toNat = n ∧ Numbered (n + 1) ls := by
  unfold Numbered
  rw [map_cons, length_cons, range'_succ, cons.injEq]

theorem numbered_append : Numbered n (xs ++ ys) ↔ Numbered n xs ∧ Numbered (n + xs.length) ys := by
  induction xs generalizing n with
  | nil => simp [Numbered.nil]
  | cons x xs ih =>
    rw [cons_append, numbered_cons, ih, numbered_cons, length_cons, and_assoc,
      Nat.add_right_comm, Nat.add_assoc]

theorem Numbered.id_eq (h : Numbered n (xs ++ l :: ys)) : l.ID.toNat = n + xs.length :=
  (numbered_cons.mp (numbered_append.mp h).2).1

theorem Numbered.firstID_eq (h : Numbered n ls) (hne : ls ≠ []) : (firstID ls).toNat = n := by
  cases ls with
  | nil => exact absurd rfl hne
  | cons l ls => exact (numbered_cons.mp h).1

theorem Numbered.lastID_eq (h : Numbered n ls) (hne : ls ≠ []) :
    (lastID ls).toNat + 1 = n + ls.length := by
  induction ls using reverseRecOn with
  | nil => exact absurd rfl hne
  | append_singleton xs l _ =>
    rw [lastID_append_singleton, h.id_eq, length_append, length_singleton, Nat.add_assoc]

theorem Numbered.mem_ids_iff (h : Numbered n ls) (id : UInt64) :
    (∃ l ∈ ls, l.ID = id) ↔ n ≤ id.toNat ∧ id.toNat < n + ls.length := by
  have hmem :
      id.toNat ∈ ls.map (fun l => l.ID.toNat) ↔ n ≤ id.toNat ∧ id.toNat < n + ls.length := by
    rw [h, mem_range'_1]
  rw [← hmem]
  simp [UInt64.toNat_inj]

theorem Numbered.id_ne_of_append (h : Numbered n (xs ++ ys)) {x y : Log} (hx : x ∈ xs)
    (hy : y ∈ ys) : x.ID ≠ y.ID := by
  obtain ⟨hxs, hys⟩ := numbered_append.mp h
  have h1 := (hxs.mem_ids_iff x.ID).mp ⟨x, hx, rfl⟩
  have h2 := (hys.mem_ids_iff y.ID).mp ⟨y, hy, rfl⟩
  intro he
  rw [he] at h1
  omega

theorem Numbered.out_of_range_iff (h : Numbered n ls) (hne : ls ≠ []) (id : UInt64) :
    (id < firstID ls ∨ id > lastID ls) ↔ ∀ l ∈ ls, l.ID ≠ id := by
  have hfirst := h.firstID_eq hne
  have hlast := h.lastID_eq hne
  have hnone : (∀ l ∈ ls, l.ID ≠ id) ↔ ¬ ∃ l ∈ ls, l.ID = id := by simp
  rw [hnone, h.mem_ids_iff id, UInt64.lt_iff_toNat_lt, gt_iff_lt, UInt64.lt_iff_toNat_lt]
  omega

theorem Numbered.count_eq (h : Numbered n ls) (hne : ls ≠ []) :
    lastID ls - firstID ls + 1 = UInt64.ofNat ls.length := by
  have h1 := h.firstID_eq hne
  have h2 := h.lastID_eq hne
  have h3 := length_pos_iff.mpr hne
  have hle : firstID ls ≤ lastID ls := by
    rw [UInt64.le_iff_toNat_le]
    omega
  rw [← UInt64.toNat_inj, UInt64.toNat_add, UInt64.toNat_sub_of_le _ _ hle, UInt64.toNat_ofNat',
    UInt64.toNat_one]
  omega

theorem addressed_append_singleton :
    Addressed (xs ++ [l]) ↔ Addressed xs ∧ (records xs).length < 2 ^ 32 := by
  unfold Addressed
  rw [Records.offsets_append]
  simp [Records.offsets, or_imp, forall_and, records]

theorem Addressed.start_lt (h : Addressed (xs ++ l :: ys)) : (records xs).length < 2 ^ 32 := by
  have hp := Records.offsets_getElem? Log.Encode 0 xs l ys
  rw [Nat.zero_add] at hp
  exact h _ (mem_of_getElem? hp)

theorem Addressed.of_append (h : Addressed (xs ++ ys)) : Addressed xs := by
  intro p hp
  apply h
  rw [Records.offsets_append]
  exact mem_append_left _ hp

end Logs

def Takes (l : Log) : Prop := l.ID ≠ 0 ∧ (ls ≠ [] → l.ID = lastID ls + 1)

instance (ls : List Log) (l : Log) : Decidable (Takes ls l) :=
  inferInstanceAs (Decidable (_ ∧ _))

structure Contiguous : Prop where
  numbered : Numbered (firstID ls).toNat ls
  positive : ls ≠ [] → firstID ls ≠ 0

namespace Contiguous

variable {xs ys zs ls : List Log} {l : Log}

theorem nil : Contiguous [] := ⟨.nil, fun hne => absurd rfl hne⟩

theorem of_infix (h : Contiguous (xs ++ (ys ++ zs))) : Contiguous ys := by
  by_cases hys : ys = []
  · rw [hys]
    exact nil
  have hne : xs ++ (ys ++ zs) ≠ [] := by simp [hys]
  have hn := (numbered_append.mp (numbered_append.mp h.numbered).2).1
  have hfirst := hn.firstID_eq hys
  have hpos := h.positive hne
  rw [← UInt64.toNat_inj.ne, UInt64.toNat_zero] at hpos
  refine ⟨by rwa [hfirst], fun _ => ?_⟩
  rw [← UInt64.toNat_inj.ne, UInt64.toNat_zero]
  omega

theorem of_initial (h : Contiguous ls) (hxs : xs <+: ls) : Contiguous xs := by
  obtain ⟨ys, rfl⟩ := hxs
  rw [← nil_append (xs ++ ys)] at h
  exact h.of_infix

theorem append_singleton (h : Contiguous ls) (hl : Takes ls l) : Contiguous (ls ++ [l]) := by
  by_cases hls : ls = []
  · rw [hls]
    exact ⟨numbered_cons.mpr ⟨rfl, .nil⟩, fun _ => hl.1⟩
  have hlast := h.numbered.lastID_eq hls
  have h0 := hl.1
  have hnext := hl.2 hls
  refine ⟨?_, fun _ => ?_⟩
  · rw [firstID_append hls, numbered_append]
    refine ⟨h.numbered, numbered_cons.mpr ⟨?_, .nil⟩⟩
    rw [hnext] at h0 ⊢
    rw [← UInt64.toNat_inj.ne] at h0
    simp only [UInt64.toNat_add, UInt64.toNat_one, UInt64.toNat_zero] at h0 ⊢
    have := (lastID ls).toNat_lt
    omega
  · rw [firstID_append hls]
    exact h.positive hls

theorem id_ne_zero (h : Contiguous ls) (hl : l ∈ ls) : l.ID ≠ 0 := by
  have hpos := h.positive (ne_nil_of_mem hl)
  have hmem := (h.numbered.mem_ids_iff l.ID).mp ⟨l, hl, rfl⟩
  rw [← UInt64.toNat_inj.ne, UInt64.toNat_zero] at hpos ⊢
  omega

theorem takes (h : Contiguous (xs ++ l :: ls)) : Takes xs l := by
  refine ⟨h.id_ne_zero (by simp), fun hne => ?_⟩
  have hid := h.numbered.id_eq
  have hlast := (numbered_append.mp h.numbered).1.lastID_eq hne
  rw [← UInt64.toNat_inj, UInt64.toNat_add, UInt64.toNat_one, hlast, hid]
  exact (Nat.mod_eq_of_lt (hid ▸ l.ID.toNat_lt)).symm

theorem length_lt (h : Contiguous ls) : ls.length < 2 ^ 64 := by
  by_cases hls : ls = []
  · rw [hls]
    exact Nat.two_pow_pos 64
  · have hpos := h.positive hls
    have hlast := h.numbered.lastID_eq hls
    have hlt := (lastID ls).toNat_lt
    rw [← UInt64.toNat_inj.ne, UInt64.toNat_zero] at hpos
    omega

theorem firstID_le_lastID (h : Contiguous ls) : firstID ls ≤ lastID ls := by
  by_cases hls : ls = []
  · rw [hls]
    exact UInt64.le_refl _
  · have hlast := h.numbered.lastID_eq hls
    have hlen := length_pos_iff.mpr hls
    rw [UInt64.le_iff_toNat_le]
    omega

end Contiguous

section Reading

variable {n : ℕ} {xs ys ls : List Log} {l : Log}

theorem getLogPos_position (a b : Bytes) (p : ℕ) {i : ℕ} (ha : a.length = i * 4) :
    getLogPos (a ++ (position p ++ b)) i = .ok (p % 2 ^ 32) := by
  have hread : readAt (a ++ (position p ++ b)) (i * 4) 4 = position p := by
    rw [readAt, ← ha, drop_left, take_left' (position_length p)]
  have hlt := (UInt32.ofNat p).toNat_lt
  rw [getLogPos, hread, if_neg (by simp), position, beNat_beBytes_of_lt hlt, UInt32.toNat_ofNat']

theorem getLogPos_positions (h : Addressed (xs ++ l :: ys)) (b : Bytes) :
    getLogPos (positions (xs ++ l :: ys) ++ b) xs.length = .ok (records xs).length := by
  obtain ⟨c, hc⟩ := positions_prefix (xs ++ [l]) ys
  rw [append_assoc, singleton_append] at hc
  rw [← hc, positions_append_singleton, append_assoc, append_assoc,
    getLogPos_position _ _ _ (positions_length xs), Nat.mod_eq_of_lt h.start_lt]

theorem DecodeAt_records (b : Bytes) :
    Log.DecodeAt (records (xs ++ l :: ys) ++ b) (records xs).length = .ok l.wire := by
  rw [records_append, records_cons, append_assoc, append_assoc]
  exact Log.DecodeAt_Encode l _ _

theorem decodeLogHead_records (b : Bytes) (hl : l.Data.length < 2 ^ 32) :
    decodeLogHead (records (xs ++ l :: ys) ++ b) (records xs).length =
      .ok ({ l with Data := [] }, (records (xs ++ [l])).length) := by
  have hhead := Log.DecodeHeadAt_head l (records xs) (l.Data ++ (records ys ++ b))
  rw [Nat.mod_eq_of_lt hl] at hhead
  rw [records_append, records_cons, append_assoc, append_assoc, Log.Encode,
    append_assoc, decodeLogHead, hhead]
  simp [bind, Except.bind, Log.Size, Nat.add_assoc]

theorem readLog_of_mem (hn : Numbered n ls) (ha : Addressed ls) (hl : l ∈ ls) (b c : Bytes) :
    readLog (records ls ++ b) (positions ls ++ c) (firstID ls) l.ID = .ok l.wire := by
  obtain ⟨xs, ys, rfl⟩ := append_of_mem hl
  have hfirst := hn.firstID_eq (by simp)
  have hindex : (l.ID - firstID (xs ++ l :: ys)).toNat = xs.length := by
    rw [UInt64.toNat_sub_of_le _ _ (by rw [UInt64.le_iff_toNat_le, hn.id_eq]; omega), hn.id_eq]
    omega
  rw [readLog, hindex, getLogPos_positions ha]
  simp only [bind, Except.bind, DecodeAt_records]
  rw [if_neg (by simp [Log.wire])]

end Reading

namespace WriteFile

def Written (f : WriteFile) (b : Bytes) : Prop := f.offset = b.length ∧ b <+: f.content

variable {f : WriteFile} {b c : Bytes} {useMmap : Bool} {file : Option Bytes} {size : ℤ}

theorem truncate_eq_left (h : b <+: c) : truncate c b.length = b := by
  rw [truncate, ← prefix_iff_eq_take.mp h, Nat.sub_eq_zero_of_le h.length_le,
    replicate_zero, append_nil]

theorem prefix_truncate (h : b <+: c) {n : ℕ} (hn : c.length ≤ n) : b <+: truncate c n := by
  rw [truncate, take_of_length_le hn]
  exact h.trans (prefix_append _ _)

theorem Written.Write (h : f.Written b) (c : Bytes) : (f.Write c).Written (b ++ c) := by
  have hprefix : b <+: if f.mmap then grow f.content f.offset c else f.content := by
    split_ifs
    · unfold grow
      dsimp only
      split_ifs
      · exact prefix_truncate h.2 (by omega)
      · exact h.2
    · exact h.2
  refine ⟨?_, ?_⟩
  · simp [WriteFile.Write, h.1]
  · simp only [WriteFile.Write]
    rw [h.1] at hprefix ⊢
    rw [truncate_eq_left hprefix]
    exact prefix_append _ _

theorem Written.Close_eq (h : f.Written b) : f.Close = b := by
  rw [Close, h.1, truncate_eq_left h.2]

theorem Written.prefix_readable (h : f.Written b) : b <+: f.readable := by
  unfold readable
  split_ifs
  · exact ⟨[], by rw [append_nil, h.1, ← prefix_iff_eq_take.mp h.2]⟩
  · exact h.2

theorem newRaw_written (file : Option Bytes) : (newRaw file).Written [] := ⟨rfl, nil_prefix⟩

theorem new_written (h : new useMmap file size = .ok f) : f.Written [] := by
  unfold new newMmap at h
  dsimp only at h
  split_ifs at h <;> cases h <;> exact ⟨rfl, nil_prefix⟩

theorem new_eq_ok {useMmap : Bool} {size : ℤ} (h : useMmap = true → 0 < size)
    (file : Option Bytes) : ∃ f, new useMmap file size = .ok f := by
  unfold new newMmap
  cases useMmap with
  | false => exact ⟨_, rfl⟩
  | true =>
    have := h rfl
    rw [if_pos rfl, if_neg (by omega)]
    exact ⟨_, rfl⟩

theorem new_error {e : Err} (h : new useMmap file size = .error e) : e = .openFile := by
  unfold new newMmap at h
  dsimp only at h
  split_ifs at h <;> cases h <;> rfl

end WriteFile

namespace TableWriter

structure Holds (t : TableWriter) (ls : List Log) : Prop where
  first_eq : t.first = firstID ls
  last_eq : t.last = lastID ls
  lastTime_eq : ls ≠ [] → t.lastTime = lastLogTime ls
  files_eq : ls = [] → t.data = none ∧ t.metaFile = none
  data_eq : ls ≠ [] → ∃ f, t.data = some f ∧ f.Written (records ls)
  metaFile_eq : ls ≠ [] → ∃ f, t.metaFile = some f ∧ f.Written (positions ls)
  notClosed : t.closed = false
  contiguous : Contiguous ls
  addressed : Addressed ls
  maxLogSize_le : t.maxLogSize ≤ maxLogFileSize

variable {t t' : TableWriter} {ls ls' : List Log} {l : Log} {files : TableFiles} {e : Err}

theorem newTableWriter_holds (index : ℕ) {m : ℤ} (hm : m ≤ maxLogFileSize) (useMmap : Bool) :
    (newTableWriter index m useMmap).Holds [] where
  first_eq := rfl
  last_eq := rfl
  lastTime_eq := fun h => absurd rfl h
  files_eq := fun _ => ⟨rfl, rfl⟩
  data_eq := fun h => absurd rfl h
  metaFile_eq := fun h => absurd rfl h
  notClosed := rfl
  contiguous := .nil
  addressed := by simp [Addressed, Records.offsets]
  maxLogSize_le := hm

theorem Holds.needFlush_iff (h : t.Holds ls) :
    t.needFlush = true ↔ ls ≠ [] ∧ t.maxLogSize < (records ls).length := by
  unfold needFlush
  by_cases hls : ls = []
  · simp [(h.files_eq hls).1, hls]
  · obtain ⟨f, hf, hw⟩ := h.data_eq hls
    simp only [hf, hw.1, hls, ne_eq, not_false_eq_true, true_and]
    exact decide_eq_true_iff

theorem Holds.last_pos_iff (h : t.Holds ls) : t.last > 0 ↔ ls ≠ [] := by
  rw [h.last_eq]
  constructor
  · rintro hpos rfl
    exact absurd hpos (by decide)
  · intro hne
    have hfirst : 0 < (firstID ls).toNat := by
      have := h.contiguous.positive hne
      rw [← UInt64.toNat_inj.ne] at this
      exact Nat.pos_of_ne_zero this
    have hlen := length_pos_iff.mpr hne
    have := h.contiguous.numbered.lastID_eq hne
    rw [gt_iff_lt, UInt64.lt_iff_toNat_lt, UInt64.toNat_zero]
    omega

def mmapSize (maxLogSize : ℤ) : ℤ := maxLogSize + maxLogSize.tdiv 10 + magic.length

theorem Holds.openFile_written (h : t.Holds ls) {data metaFile : WriteFile}
    (hok : t.openFile files = .ok (data, metaFile)) :
    data.Written (records ls) ∧ metaFile.Written (positions ls) := by
  unfold openFile at hok
  by_cases hls : ls = []
  · rw [(h.files_eq hls).1, (h.files_eq hls).2] at hok
    obtain ⟨d, hd, hok⟩ := Err.bind_ok_iff.mp hok
    obtain ⟨m, hm, hok⟩ := Err.bind_ok_iff.mp hok
    cases hok
    rw [hls]
    exact ⟨WriteFile.new_written hd, WriteFile.new_written hm⟩
  · obtain ⟨f, hf, hw⟩ := h.data_eq hls
    obtain ⟨g, hg, hv⟩ := h.metaFile_eq hls
    rw [hf, hg] at hok
    cases hok
    exact ⟨hw, hv⟩

theorem Holds.openFile_eq_ok (h : t.Holds ls)
    (hsize : ls = [] → t.useMmap = true → 0 < mmapSize t.maxLogSize) (files : TableFiles) :
    ∃ data metaFile, t.openFile files = .ok (data, metaFile) := by
  unfold openFile
  by_cases hls : ls = []
  · obtain ⟨d, hd⟩ := WriteFile.new_eq_ok (hsize hls) files.data
    obtain ⟨m, hm⟩ := @WriteFile.new_eq_ok t.useMmap (defaultLogNumInFile * 4)
      (fun _ => by decide) files.metaFile
    unfold mmapSize at hd
    rw [(h.files_eq hls).1, (h.files_eq hls).2, hd, hm]
    exact ⟨d, m, rfl⟩
  · obtain ⟨f, hf, _⟩ := h.data_eq hls
    obtain ⟨g, hg, _⟩ := h.metaFile_eq hls
    rw [hf, hg]
    exact ⟨f, g, rfl⟩

theorem openFile_error (h : t.openFile files = .error e) : e = .openFile := by
  have hnil : ∀ {f : Option WriteFile} {file : Option Bytes} {size : ℤ},
      openIfNil f (WriteFile.new t.useMmap file size) = .error e → e = .openFile := by
    intro f file size h
    cases f with
    | none => exact WriteFile.new_error h
    | some f => cases h
  rcases Err.bind_error_iff.mp h with h | ⟨d, -, h⟩
  · exact hnil h
  · rcases Err.bind_error_iff.mp h with h | ⟨m, -, h⟩
    · exact hnil h
    · cases h

theorem Holds.start_lt (h : t.Holds ls) (hflush : t.needFlush = false) :
    (records ls).length < 2 ^ 32 := by
  have hmax := h.maxLogSize_le
  have hnot := mt h.needFlush_iff.mpr (by simp [hflush])
  by_cases hls : ls = []
  · simp [hls]
  · have : ¬ t.maxLogSize < (records ls).length := fun hlt => hnot ⟨hls, hlt⟩
    unfold maxLogFileSize at hmax
    omega

def stored (t : TableWriter) (data metaFile : WriteFile) (l : Log) : TableWriter :=
  { t with
    first := if t.first = 0 then l.ID else t.first
    last := l.ID
    lastTime := l.CreateTime
    data := some ((data.Write l.head).Write l.Data)
    metaFile := some (metaFile.Write (position data.offset)) }

section
variable (h : t.Holds ls)
include h

theorem Holds.stored (hl : Takes ls l) (hflush : t.needFlush = false)
    {data metaFile : WriteFile} (hd : data.Written (records ls))
    (hm : metaFile.Written (positions ls)) : (t.stored data metaFile l).Holds (ls ++ [l]) where
  first_eq := by
    unfold TableWriter.stored
    cases ls with
    | nil => simp [h.first_eq, firstID]
    | cons x xs =>
      have := h.contiguous.positive (by simp)
      simp only [h.first_eq, this, ↓reduceIte, firstID_append_cons]
  last_eq := by simp [TableWriter.stored]
  lastTime_eq := fun _ => by simp [TableWriter.stored, lastLogTime]
  files_eq := fun hnil => by simp at hnil
  data_eq := fun _ => by
    refine ⟨_, rfl, ?_⟩
    rw [records_append, records_cons, records_nil, append_nil, Log.Encode, ← append_assoc]
    exact (hd.Write _).Write _
  metaFile_eq := fun _ => by
    refine ⟨_, rfl, ?_⟩
    rw [positions_append_singleton, hd.1]
    exact hm.Write _
  notClosed := h.notClosed
  contiguous := h.contiguous.append_singleton hl
  addressed := addressed_append_singleton.mpr ⟨h.addressed, h.start_lt hflush⟩
  maxLogSize_le := h.maxLogSize_le

theorem Holds.storeLog_eq (files : TableFiles) (l : Log) :
    storeLog files t l =
      if ¬ Takes ls l then .error .ErrStoreLogID
      else if t.needFlush then .error .errTableNeedFlush
      else t.openFile files >>= fun p => .ok (t.stored p.1 p.2 l) := by
  have hlast : (t.last > 0 ∧ l.ID ≠ t.last + 1) ↔ ¬(ls ≠ [] → l.ID = lastID ls + 1) := by
    rw [h.last_pos_iff, h.last_eq, Classical.not_imp]
  have hopen : ¬ t.closed = true := by simp [h.notClosed]
  simp only [storeLog, Takes, hlast]
  rw [if_neg hopen]
  by_cases h0 : l.ID = 0
  · simp [h0]
  · simp [h0, TableWriter.stored, position]

theorem Holds.storeLog_ok (hok : storeLog files t l = .ok t') :
    Takes ls l ∧ t.needFlush = false ∧ t'.Holds (ls ++ [l]) ∧ t'.index = t.index ∧
      t'.maxLogSize = t.maxLogSize ∧ t'.useMmap = t.useMmap := by
  rw [h.storeLog_eq] at hok
  split_ifs at hok with htakes hflush
  obtain ⟨⟨data, metaFile⟩, hopen, hok⟩ := Err.bind_ok_iff.mp hok
  cases hok
  obtain ⟨hd, hm⟩ := h.openFile_written hopen
  have hflush : t.needFlush = false := by simpa using hflush
  exact ⟨htakes, hflush, h.stored htakes hflush hd hm, rfl, rfl, rfl⟩

theorem Holds.storeLog_error (hl : Takes ls l) (hflush : t.needFlush = false)
    (herr : storeLog files t l = .error e) : e = .openFile := by
  rw [h.storeLog_eq, if_neg (not_not.mpr hl), hflush] at herr
  rcases Err.bind_error_iff.mp herr with herr | ⟨p, -, herr⟩
  · exact openFile_error herr
  · cases herr

theorem Holds.storeLog_eq_ok (hl : Takes ls l) (hflush : t.needFlush = false)
    (hsize : ls = [] → t.useMmap = true → 0 < mmapSize t.maxLogSize) (files : TableFiles) :
    ∃ t', storeLog files t l = .ok t' := by
  obtain ⟨d, m, hopen⟩ := h.openFile_eq_ok hsize files
  rw [h.storeLog_eq, if_neg (not_not.mpr hl), hflush, hopen]
  exact ⟨_, rfl⟩

theorem Holds.storeLogs (hok : ls'.foldlM (storeLog files) t = .ok t') : t'.Holds (ls ++ ls') := by
  induction ls' generalizing t ls with
  | nil =>
    obtain rfl := Except.ok.inj hok
    rwa [append_nil]
  | cons l ls' ih =>
    obtain ⟨u, hstore, hok⟩ := Err.bind_ok_iff.mp hok
    have := ih (h.storeLog_ok hstore).2.2.1 hok
    rwa [append_assoc] at this

theorem Holds.close_eq (hne : ls ≠ []) :
    t.close = ⟨some (records ls ++ magic), some (positions ls)⟩ := by
  obtain ⟨f, hf, hw⟩ := h.data_eq hne
  obtain ⟨g, hg, hv⟩ := h.metaFile_eq hne
  rw [close, hf, hg, Option.map_some, Option.map_some, (hw.Write magic).Close_eq, hv.Close_eq]

theorem Holds.out_of_range_iff (hne : ls ≠ []) (id : UInt64) :
    (id < t.first ∨ id > t.last) ↔ ∀ l ∈ ls, l.ID ≠ id := by
  rw [h.first_eq, h.last_eq]
  exact h.contiguous.numbered.out_of_range_iff hne id

theorem Holds.GetLog_of_mem (hl : l ∈ ls) : t.GetLog l.ID = .ok l.wire := by
  have hne := ne_nil_of_mem hl
  obtain ⟨f, hf, hw⟩ := h.data_eq hne
  obtain ⟨g, hg, hv⟩ := h.metaFile_eq hne
  obtain ⟨b, hb⟩ := hw.prefix_readable
  obtain ⟨c, hc⟩ := hv.prefix_readable
  rw [GetLog, if_neg fun hout => (h.out_of_range_iff hne l.ID).mp hout l hl rfl, hf, hg]
  dsimp only
  rw [← hb, ← hc, h.first_eq]
  exact readLog_of_mem h.contiguous.numbered h.addressed hl b c

theorem Holds.GetLog_of_not_mem {id : UInt64} (hid : ∀ l ∈ ls, l.ID ≠ id) :
    t.GetLog id = if ls = [] ∧ id = 0 then .error .panic else .error .ErrLogNotFound := by
  unfold GetLog
  by_cases hls : ls = []
  · have hfirst : t.first = 0 := by rw [h.first_eq, hls]; rfl
    have hlast : t.last = 0 := by rw [h.last_eq, hls]; rfl
    rw [hfirst, hlast, (h.files_eq hls).1]
    by_cases h0 : id = 0
    · simp [hls, h0]
    · rw [if_pos (.inr (UInt64.pos_iff_ne_zero.mpr h0)), if_neg fun h => h0 h.2]
  · rw [if_pos ((h.out_of_range_iff hls id).mpr hid), if_neg fun h => hls h.1]

end

end TableWriter

namespace TableReader

structure Serves (t : TableReader) (files : TableFiles) (ls : List Log) : Prop where
  nonempty : ls ≠ []
  first_eq : t.first = firstID ls
  last_eq : t.last = lastID ls
  data_eq : ∃ b, files.data = some (records ls ++ b)
  metaFile_eq : files.metaFile = some (positions ls)
  contiguous : Contiguous ls
  addressed : Addressed ls

variable {t : TableReader} {files : TableFiles} {ls : List Log} {l : Log}

theorem Serves.out_of_range_iff (h : t.Serves files ls) (id : UInt64) :
    (id < t.first ∨ id > t.last) ↔ ∀ l ∈ ls, l.ID ≠ id := by
  rw [h.first_eq, h.last_eq]
  exact h.contiguous.numbered.out_of_range_iff h.nonempty id

theorem Serves.GetLog_of_mem (h : t.Serves files ls) (hl : l ∈ ls) :
    t.GetLog files l.ID = .ok l.wire := by
  obtain ⟨b, hb⟩ := h.data_eq
  have hread := readLog_of_mem h.contiguous.numbered h.addressed hl b []
  rw [append_nil] at hread
  rwa [GetLog, if_neg fun hout => (h.out_of_range_iff l.ID).mp hout l hl rfl, hb, h.metaFile_eq,
    h.first_eq]

theorem Serves.GetLog_of_not_mem (h : t.Serves files ls) {id : UInt64}
    (hid : ∀ l ∈ ls, l.ID ≠ id) : t.GetLog files id = .error .ErrLogNotFound := by
  rw [GetLog, if_pos ((h.out_of_range_iff id).mpr hid)]

end TableReader

section Closed

variable {n : ℕ} {ls : List Log}

theorem checkMeta_positions (d : Option Bytes) (hne : ls ≠ []) :
    checkMeta ⟨d, some (positions ls)⟩ = .ok (positions ls) := by
  have := length_pos_iff.mpr hne
  simp only [checkMeta, positions_length]
  rw [if_neg]
  omega

theorem checkData_magic (b : Bytes) (m : Option Bytes) :
    checkData ⟨some (b ++ magic), m⟩ = .ok (b ++ magic) := by
  have hread : readAt (b ++ magic) ((b ++ magic).length - magic.length) magic.length = magic := by
    rw [readAt, length_append, Nat.add_sub_cancel, drop_left, take_length]
  simp only [checkData, hread]
  rw [if_neg (by simp), if_neg (by simp)]

theorem check_table (hn : Numbered n ls) (ha : Addressed ls) (hne : ls ≠ [])
    (hsmall : ∀ l ∈ ls, l.Data.length < 2 ^ 32) (t : TableReader) :
    t.check ⟨some (records ls ++ magic), some (positions ls)⟩ =
      (.ok (), ⟨t.index, firstID ls, lastID ls, lastLogTime ls⟩) := by
  obtain ⟨x, xs, hx⟩ := exists_cons_of_ne_nil hne
  obtain ⟨ys, y, hy⟩ : ∃ ys y, ls = ys ++ [y] :=
    ⟨ls.dropLast, ls.getLast hne, (dropLast_append_getLast hne).symm⟩
  have hfirst : firstID ls = x.ID := by rw [hx]; rfl
  have hlast : lastID ls = y.ID := by rw [hy, lastID_append_singleton]
  have hfirstPos : getLogPos (positions ls) 0 = .ok 0 := by
    have := @getLogPos_positions [] xs x (by rwa [hx] at ha) []
    rwa [← hx, append_nil] at this
  have hlastPos : getLogPos (positions ls) ((positions ls).length / 4 - 1) =
      .ok (records ys).length := by
    have := @getLogPos_positions ys [] y (by rwa [hy] at ha) []
    rw [← hy, append_nil] at this
    rwa [positions_length, Nat.mul_div_cancel _ (by decide), hy, length_append, ← hy]
  have hfirstHead := @decodeLogHead_records [] xs x magic (hsmall x (by simp [hx]))
  rw [nil_append, ← hx] at hfirstHead
  have hlastHead := @decodeLogHead_records ys [] y magic (hsmall y (by simp [hy]))
  rw [← hy] at hlastHead
  have hle : ¬ x.ID > y.ID := by
    have h1 := hn.firstID_eq hne
    have h2 := hn.lastID_eq hne
    have := length_pos_iff.mpr hne
    rw [← hfirst, ← hlast, gt_iff_lt, UInt64.lt_iff_toNat_lt]
    omega
  have hcount : y.ID - x.ID + 1 = UInt64.ofNat ((positions ls).length / 4) := by
    rw [← hfirst, ← hlast, hn.count_eq hne, positions_length, Nat.mul_div_cancel _ (by decide)]
  simp only [TableReader.check, checkMeta_positions _ hne, checkData_magic, hfirstPos, hlastPos,
    Except.toOption, Option.getD_some, hlastHead]
  rw [records_nil, length_nil] at hfirstHead
  simp only [hfirstHead, length_append, hle, hcount]
  rw [hfirst, lastLogTime, hy]
  simp

end Closed

end LedisDB.Rpl
