import LedisDB.Rpl.Sync

/-!
# Streams of logs

Logs decoded one after the other into one `Log`, whose data array is kept while it
is large enough, from a reader that hands out its bytes in pieces. A stream that is
cut is noticed by `StoreLogsFromReader` unless the cut is right behind a head; the
pages of `ReadLogsTo` together are the logs from the first one asked for.
-/

namespace LedisDB.Rpl

open List

/-- `io.ReadFull` from a reader that returns the pieces in `rb` one by one; `acc` is what was read
so far. -/
def readPieces : List Bytes → ℕ → Bytes → Except Err (Bytes × List Bytes)
  | [], n, acc =>
    if n = 0 then .ok (acc, []) else .error (if acc = [] then .eof else .unexpectedEOF)
  | c :: rb, n, acc =>
    if n = 0 then .ok (acc, c :: rb)
    else if c.length ≤ n then readPieces rb (n - c.length) (acc ++ c)
    else .ok (acc ++ c.take n, c.drop n :: rb)

/-- A `Log` whose `Data` are the first `len` bytes of an array. -/
structure LogBuf where
  ID : UInt64
  CreateTime : UInt32
  Compression : UInt8
  array : Bytes
  len : ℕ

variable (b : LogBuf) (rb : List Bytes) (l : Ledis)

namespace LogBuf

def new : LogBuf := ⟨0, 0, 0, [], 0⟩

def log : Log := ⟨b.ID, b.CreateTime, b.Compression, b.array.take b.len⟩

def growData (length : ℕ) : LogBuf :=
  { b with
    array := if b.array.length ≥ length then b.array else List.replicate length 0
    len := length }

def setHead (h : Log) : LogBuf := ⟨h.ID, h.CreateTime, h.Compression, b.array, b.len⟩

def Decode : Except Err (LogBuf × List Bytes) := do
  let (buf, rb) ← readPieces rb LogHeadSize []
  let (h, length) := Log.decodeHeadBuf buf
  let b := (b.setHead h).growData length
  let (data, rb) ← readPieces rb b.len []
  .ok ({ b with array := data ++ b.array.drop data.length }, rb)

end LogBuf

theorem readPieces_eq (n : ℕ) (acc : Bytes) :
    (readPieces rb n acc).map (fun p => (p.1, p.2.flatten)) =
      if rb.flatten.length < n then .error (if acc ++ rb.flatten = [] then .eof else .unexpectedEOF)
      else .ok (acc ++ rb.flatten.take n, rb.flatten.drop n) := by
  induction rb generalizing n acc with
  | nil =>
    rw [readPieces]
    by_cases hn : n = 0
    · simp [hn, Except.map]
    · simp [hn, Except.map]
  | cons c rb ih =>
    rw [readPieces, flatten_cons]
    by_cases hn : n = 0
    · simp [hn, Except.map]
    by_cases hc : c.length ≤ n
    · rw [if_neg hn, if_pos hc, ih, take_append,
        drop_append, take_of_length_le hc, drop_eq_nil_of_le hc]
      simp [Nat.lt_sub_iff_add_lt']
    · rw [if_neg hn, if_neg hc, if_neg (by rw [length_append]; omega),
        take_append_of_le_length (by omega), drop_append_of_le_length (by omega)]
      rfl

theorem readPieces_readFull (n : ℕ) :
    (readPieces rb n []).map (fun p => (p.1, p.2.flatten)) = Log.readFull rb.flatten n := by
  rw [readPieces_eq, Log.readFull, nil_append, nil_append]
  by_cases hn : n = 0
  · simp [hn]
  by_cases hnil : rb.flatten = []
  · rw [if_neg hn, hnil]
    exact if_pos (Nat.pos_of_ne_zero hn)
  · rw [if_neg hn, if_neg hnil, if_neg hnil]

theorem Log.readFull_length {r data r' : Bytes} {n : ℕ} (h : readFull r n = .ok (data, r')) :
    data.length = n := by
  unfold readFull at h
  split_ifs at h with h1 h2 h3
  · cases h
    exact h1.symm
  · cases h
    exact length_take_of_le (not_lt.mp h3)

theorem LogBuf.Decode_eq :
    (b.Decode rb).map (fun p => (p.1.log, p.2.flatten)) = Log.Decode rb.flatten := by
  have hhead := readPieces_readFull rb LogHeadSize
  unfold Decode Log.Decode
  cases hr : readPieces rb LogHeadSize [] with
  | error e =>
    rw [hr] at hhead
    rw [← hhead]
    rfl
  | ok p =>
    rw [hr] at hhead
    rw [← hhead]
    simp only [Except.map, bind, Except.bind, Log.decodeData]
    generalize Log.decodeHeadBuf p.1 = q
    have hdata := readPieces_readFull p.2 q.2
    rw [show ((b.setHead q.1).growData q.2).len = q.2 from rfl]
    cases hd : readPieces p.2 q.2 [] with
    | error e =>
      rw [hd] at hdata
      rw [← hdata]
      rfl
    | ok d =>
      rw [hd] at hdata
      rw [← hdata, ← Log.readFull_length hdata.symm]
      simp [Except.map, log, growData, setHead]

/-- The loop of `StoreLogsFromReader`, and the logs it stores. -/
def Replication.storeLogsFrom : ℕ → LogBuf → List Bytes → Replication →
    Except Err Unit × List Rpl.Log × Replication
  | 0, _, _, r => (.ok (), [], r)
  | fuel + 1, b, rb, r =>
    match b.Decode rb with
    | .error .eof => (.ok (), [], r)
    | .error e => (.error e, [], r)
    | .ok (b, rb) =>
      match r.StoreLog b.log with
      | (.error e, r) => (.error e, [], r)
      | (.ok _, r) =>
        let (res, ls, r) := r.storeLogsFrom fuel b rb
        (res, b.log :: ls, r)

/-- The next log it takes is the first of `new`: a data file can be mapped, and an empty database
starts with log 1. -/
def LogStore.Expects (s : LogStore) (ls new : List Log) : Prop :=
  Contiguous (ls ++ new) ∧ match s with
    | .file s => s.Mappable
    | .level _ => ls = [] → new ≠ [] → firstID new = 1

section
variable {r : Replication} {ls xs ys : List Rpl.Log} {x y : Rpl.Log} {fuel : ℕ} {b : LogBuf}
  {rb : List Bytes} {rest : Bytes}

theorem Replication.storeLogsFrom_eq (fuel : ℕ) (b : LogBuf) (rb : List Bytes) (r : Replication) :
    ((r.storeLogsFrom fuel b rb).1, (r.storeLogsFrom fuel b rb).2.2) =
      r.storeLogs fuel rb.flatten := by
  induction fuel generalizing b rb r with
  | zero => rfl
  | succ fuel ih =>
    rw [storeLogsFrom, storeLogs, ← b.Decode_eq]
    cases b.Decode rb with
    | error e => cases e <;> rfl
    | ok p =>
      dsimp only [Except.map]
      rcases r.StoreLog p.1.log with ⟨res, r'⟩
      cases res with
      | error e => rfl
      | ok u => exact ih p.1 p.2 r'

theorem LogStore.Holds.StoreLog_expected {s : LogStore} (h : s.Holds ls)
    (he : s.Expects ls (x :: xs)) (hid : y.ID = x.ID) :
    (s.StoreLog y).1 = .ok () ∧ (s.StoreLog y).2.Holds (ls ++ [y]) ∧
      (s.StoreLog y).2.Expects (ls ++ [x]) xs := by
  obtain ⟨hc, hs⟩ := he
  have hx := hc.takes
  have hy : Takes ls y := by
    rwa [Takes, hid]
  have hc' : Contiguous (ls ++ [x] ++ xs) := by
    rwa [append_assoc]
  cases s with
  | file s =>
    obtain ⟨ts, cur, h, rfl⟩ := h
    obtain ⟨s', hok⟩ := h.storeLog_eq_ok hy hs
    obtain ⟨ts', cur', h', hlogs, -⟩ := h.storeLog_ok hy hok
    obtain ⟨⟨hmax, hmmap⟩, -⟩ := h.storeLog_tables hy hok
    simp only [StoreLog, hok, true_and]
    refine ⟨⟨ts', cur', h', hlogs⟩, hc', ?_⟩
    show s'.Mappable
    rwa [FileStore.Mappable, hmax, hmmap]
  | level s =>
    have hnext : y.ID = lastID ls + 1 := by
      by_cases hls : ls = []
      · rw [hid, hls, show x.ID = 1 from hs hls (by simp)]
        rfl
      · rw [hid, hx.2 hls]
    obtain ⟨hok, h'⟩ := LevelStore.Holds.StoreLog_next h hy hnext
    exact ⟨hok, h', hc', fun hnil => absurd hnil (by simp)⟩

theorem LogBuf.Decode_error {e : Err} (h : Log.Decode rb.flatten = .error e) :
    b.Decode rb = .error e := by
  rw [← b.Decode_eq] at h
  cases hd : b.Decode rb with
  | error e' =>
    rw [hd] at h
    exact congrArg _ (Except.error.inj h)
  | ok p =>
    rw [hd] at h
    cases h

theorem LogBuf.Decode_ok (h : Log.Decode rb.flatten = .ok (x, rest)) :
    ∃ b' rb', b.Decode rb = .ok (b', rb') ∧ b'.log = x ∧ rb'.flatten = rest := by
  rw [← b.Decode_eq] at h
  cases hd : b.Decode rb with
  | error e =>
    rw [hd] at h
    cases h
  | ok p =>
    rw [hd] at h
    cases h
    exact ⟨p.1, p.2, rfl, rfl, rfl⟩

namespace Replication

theorem storeLogsFrom_stored (hdec : Log.Decode rb.flatten = .ok (x, rest))
    (hok : (r.s.StoreLog x).1 = .ok ()) : ∃ (b' : LogBuf) (rb' : List Bytes), rb'.flatten = rest ∧
      ∀ fuel, let out := storeLogsFrom fuel b' rb' { r with s := (r.s.StoreLog x).2 }
        r.storeLogsFrom (fuel + 1) b rb = (out.1, x :: out.2.1, out.2.2) := by
  obtain ⟨b', rb', hd, rfl, hrb'⟩ := LogBuf.Decode_ok (b := b) hdec
  refine ⟨b', rb', hrb', fun fuel => ?_⟩
  rw [storeLogsFrom, hd]
  dsimp only [StoreLog]
  rw [hok]

theorem storeLogsFrom_error {e : Err} (hdec : Log.Decode rb.flatten = .error e) :
    r.storeLogsFrom (fuel + 1) b rb = (if e = .eof then .ok () else .error e, [], r) := by
  rw [storeLogsFrom, LogBuf.Decode_error hdec]
  cases e <;> rfl

theorem small_of_stored (hrb : rb.flatten = records xs ++ rest)
    (h : xs <+: (r.storeLogsFrom fuel b rb).2.1) : ∀ x ∈ xs, x.Data.length < 2 ^ 32 := by
  induction xs generalizing r fuel b rb with
  | nil => simp
  | cons x xs ih =>
    have hdec := Log.Decode_Encode x (records xs ++ rest)
    rw [← append_assoc, ← records_cons, ← hrb] at hdec
    obtain ⟨b', rb', hd, hlog, hrb'⟩ := LogBuf.Decode_ok hdec
    cases fuel with
    | zero => simp [storeLogsFrom] at h
    | succ fuel =>
      rw [storeLogsFrom, hd] at h
      dsimp only at h
      generalize r.StoreLog b'.log = out at h
      obtain ⟨res, r'⟩ := out
      cases res with
      | error e => simp at h
      | ok u =>
        obtain ⟨hx, h⟩ := cons_prefix_cons.mp h
        rw [hlog] at hx
        have hsmall := Log.wire_eq_iff.mp hx.symm
        rw [Nat.mod_eq_of_lt hsmall, drop_length] at hrb'
        exact forall_mem_cons.mpr ⟨hsmall, ih hrb' h⟩

theorem storeLogsFrom_small (h : r.s.Holds ls) (he : r.s.Expects ls (xs ++ ys))
    (hsmall : ∀ x ∈ xs, x.Data.length < 2 ^ 32) (hrb : rb.flatten = records xs ++ rest) :
    ∃ (b' : LogBuf) (rb' : List Bytes) (r' : Replication), rb'.flatten = rest ∧
      r'.s.Holds (ls ++ xs) ∧ r'.s.Expects (ls ++ xs) ys ∧
      ∀ fuel, let out := r'.storeLogsFrom fuel b' rb'
        r.storeLogsFrom (fuel + xs.length) b rb = (out.1, xs ++ out.2.1, out.2.2) := by
  induction xs generalizing ls r b rb with
  | nil =>
    rw [append_nil]
    exact ⟨b, rb, r, hrb, h, he, fun fuel => rfl⟩
  | cons x xs ih =>
    have hx := hsmall x (.head _)
    obtain ⟨hok, hh, hexp⟩ := h.StoreLog_expected he rfl
    have hdec := Log.Decode_Encode x (records xs ++ rest)
    rw [Nat.mod_eq_of_lt hx, drop_length, Log.wire_eq hx,
      ← append_assoc, ← records_cons, ← hrb] at hdec
    obtain ⟨b₁, rb₁, hrb₁, hstep⟩ := storeLogsFrom_stored hdec hok
    obtain ⟨b', rb', r', hrest, hh', hexp', hrun⟩ := @ih
      { r with s := (r.s.StoreLog x).2 } (ls ++ [x]) b₁ rb₁ hh hexp
      (fun y hy => hsmall y (.tail x hy)) hrb₁
    rw [append_assoc] at hh' hexp'
    refine ⟨b', rb', r', hrest, hh', hexp', fun fuel => ?_⟩
    rw [length_cons, ← Nat.add_assoc, hstep, hrun]
    rfl

end Replication

theorem Log.Decode_head (y : Log) (d : Bytes) :
    Decode (y.head ++ d) = decodeData { y with Data := [] } (y.Data.length % 2 ^ 32) d := by
  have hhead := readFull_append d y.head_length.ge
  rw [take_of_length_le y.head_length.le, drop_eq_nil_of_le y.head_length.le, nil_append] at hhead
  rw [Decode_of_head hhead, decodeHeadBuf_head]

theorem Log.Decode_cut {y : Log} (hrest : rest <+: y.Encode) :
    if rest.length < LogHeadSize then
      Decode rest = .error (if rest = [] then .eof else .unexpectedEOF)
    else if rest.length < LogHeadSize + y.Data.length % 2 ^ 32 then
      Decode rest = .error (if rest.length = LogHeadSize then .eof else .unexpectedEOF)
    else ∃ d, Decode rest = .ok (y.wire, d) := by
  by_cases hhead : rest.length < LogHeadSize
  · rw [if_pos hhead]
    unfold Decode readFull
    by_cases hnil : rest = []
    · rw [if_pos hnil, if_pos hnil]
      rfl
    · rw [if_neg hnil, if_neg hnil, if_pos hhead]
      rfl
  obtain ⟨d, rfl⟩ := (prefix_of_prefix_length_le (prefix_append _ _) hrest
      (by rw [head_length]; omega)).imp fun _ h => h.symm
  have hd := (prefix_append_right_inj _).mp hrest
  rw [if_neg hhead, Decode_head, decodeData, length_append, head_length]
  by_cases hdata : d.length < y.Data.length % 2 ^ 32
  · rw [if_pos (by omega), readFull, if_neg (by omega), if_pos hdata]
    by_cases hnil : d = []
    · rw [if_pos hnil, if_pos (by rw [hnil]; rfl)]
      rfl
    · have := length_pos_of_ne_nil hnil
      rw [if_neg hnil, if_neg (by omega)]
      rfl
  · have hread := readFull_append [] (not_lt.mp hdata)
    rw [append_nil, prefix_iff_eq_take.mp hd, take_take,
      Nat.min_eq_left (not_lt.mp hdata), ← prefix_iff_eq_take.mp hd] at hread
    rw [if_neg (by omega), hread]
    exact ⟨_, rfl⟩

/-- `StoreLogsFromReader` for a reader that returns its bytes in pieces. -/
def Ledis.StoreLogsFrom (readonly : Bool) (rb : List Bytes) : Except Err Unit × List Log × Ledis :=
  if !readonly then (.error .ErrRplInRDWR, [], l)
  else
    let (res, ls, r) := l.r.storeLogsFrom (rb.flatten.length + 1) .new rb
    (res, ls, { l with r })

theorem Ledis.StoreLogsFrom_eq (readonly : Bool) (rb : List Bytes) :
    ((l.StoreLogsFrom readonly rb).1, (l.StoreLogsFrom readonly rb).2.2) =
      l.StoreLogsFromReader readonly rb.flatten := by
  cases readonly with
  | false => rfl
  | true =>
    have h := Replication.storeLogsFrom_eq (rb.flatten.length + 1) .new rb l.r
    simp only [StoreLogsFromReader, StoreLogsFrom, Bool.not_true, Bool.false_eq_true, if_false]
    rw [← h]

structure Detects (ls new : List Log) (cut : ℕ) (rb : List Bytes) : Prop where
  stored : (l.StoreLogsFrom true rb).2.1 = Records.whole Log.Encode new cut
  holds : (l.StoreLogsFrom true rb).2.2.r.s.Holds (ls ++ Records.whole Log.Encode new cut)
  nil_iff : (l.StoreLogsFrom true rb).1 = .ok () ↔
    rb.flatten = records (Records.whole Log.Encode new cut)

/-- The complete logs are shorter than 2³² bytes, and of the next one less than a head is there, or
more than a head and less than what its length field says. -/
def CutNoticed (new : List Log) (cut : ℕ) : Prop :=
  let whole := Records.whole Log.Encode new cut
  let k := cut - (records whole).length
  (∀ l ∈ whole, l.Data.length < 2 ^ 32) ∧ ∀ y ∈ (new.drop whole.length).head?,
    k < LogHeadSize ∨ LogHeadSize < k ∧ k < LogHeadSize + y.Data.length % 2 ^ 32

/-- Nothing is stored of the bytes `rest`, and they are reported unless there are none. -/
def CutReported (out : Except Err Unit × List Log × Replication) (ls : List Log)
    (rest : Bytes) : Prop :=
  out.2.1 = [] ∧ out.2.2.s.Holds ls ∧ (out.1 = .ok () ↔ rest = [])

section
variable {r : Replication} {ls : List Log} {rb : List Bytes} {b : LogBuf} {fuel : ℕ}
  (hh : r.s.Holds ls)
include hh

-- the end of the stream is met where the decoder fails with EOF
theorem cutReported_error_iff {e : Err} (hdec : Log.Decode rb.flatten = .error e) :
    CutReported (r.storeLogsFrom (fuel + 1) b rb) ls rb.flatten ↔ (e = .eof ↔ rb.flatten = []) := by
  rw [Replication.storeLogsFrom_error hdec]
  by_cases he : e = .eof <;> simp [CutReported, hh]

theorem cutReported_iff {y : Log} {ys : List Log} (hexp : r.s.Expects ls (y :: ys))
    (hpre : rb.flatten <+: y.Encode) :
    CutReported (r.storeLogsFrom (fuel + 1) b rb) ls rb.flatten ↔
      rb.flatten.length < LogHeadSize ∨ LogHeadSize < rb.flatten.length ∧
        rb.flatten.length < LogHeadSize + y.Data.length % 2 ^ 32 := by
  have hcut := Log.Decode_cut hpre
  have hne : ¬ rb.flatten.length < LogHeadSize → rb.flatten ≠ [] := by
    intro h hnil
    exact h (by rw [hnil]; decide)
  split_ifs at hcut with h1 h2 h3 h4
  · rw [cutReported_error_iff hh hcut]
    exact iff_of_true (by simp [h2]) (.inl h1)
  · rw [cutReported_error_iff hh hcut]
    exact iff_of_true (by simp [h2]) (.inl h1)
  · rw [cutReported_error_iff hh hcut]
    exact iff_of_false (by simp [hne h1]) fun hc => by omega
  · rw [cutReported_error_iff hh hcut]
    exact iff_of_true (by simp [hne h1]) (by omega)
  · obtain ⟨d, hdec⟩ := hcut
    obtain ⟨hok, -⟩ := hh.StoreLog_expected hexp (show y.wire.ID = y.ID from rfl)
    obtain ⟨b₁, rb₁, -, hstep⟩ := Replication.storeLogsFrom_stored (b := b) hdec hok
    rw [hstep]
    refine iff_of_false ?_ fun hc => by omega
    rintro ⟨hst, -⟩
    simp at hst

end

theorem fuel_records {rb : List Bytes} {w : List Log} {rest : Bytes}
    (hrb : rb.flatten = records w ++ rest) :
    ∃ fuel, rb.flatten.length + 1 = fuel + 1 + w.length := by
  have hlen := records_length_ge w
  refine ⟨rb.flatten.length - w.length, ?_⟩
  rw [hrb, List.length_append]
  unfold LogHeadSize at hlen
  omega

/-- A stream that is cut is stored up to its last complete log, and the call fails unless nothing
follows this log, exactly where the cut is noticed. -/
theorem truncated_stream_iff {l : Ledis} {ls new : List Log} (h : l.r.s.Holds ls)
    (he : l.r.s.Expects ls new) {cut : ℕ} {rb : List Bytes}
    (hrb : rb.flatten = (records new).take cut) : Detects l ls new cut rb ↔ CutNoticed new cut := by
  obtain ⟨rest, htake, hcase⟩ := Records.take_eq Log.Encode new [] cut
  obtain ⟨tail, hnew⟩ := Records.whole_prefix Log.Encode new cut
  unfold CutNoticed
  generalize hw : Records.whole Log.Encode new cut = w at *
  rw [List.append_nil] at htake
  have hflat : rb.flatten = records w ++ rest := hrb.trans htake
  have hD : Detects l ls new cut rb ↔
      let out := l.r.storeLogsFrom (rb.flatten.length + 1) .new rb
      out.2.1 = w ∧ out.2.2.s.Holds (ls ++ w) ∧ (out.1 = .ok () ↔ rest = []) := by
    have hrest : rb.flatten = records w ↔ rest = [] := by
      rw [hflat]
      simp
    constructor
    · rintro ⟨h1, h2, h3⟩
      rw [hw] at h1 h2 h3
      exact ⟨h1, h2, h3.trans hrest⟩
    · rintro ⟨h1, h2, h3⟩
      rw [← hw] at h1 h2 hrest
      exact ⟨h1, h2, h3.trans hrest.symm⟩
  rw [hD]
  by_cases hsmall : ∀ x ∈ w, x.Data.length < 2 ^ 32
  swap
  · refine iff_of_false ?_ fun hc => hsmall hc.1
    rintro ⟨hst, -⟩
    exact hsmall (Replication.small_of_stored hflat ⟨[], (List.append_nil w).trans hst.symm⟩)
  obtain ⟨b', rb', r', rfl, hh, hexp, hrun⟩ :=
    Replication.storeLogsFrom_small h (hnew.symm ▸ he) hsmall hflat
  obtain ⟨fuel, hfuel⟩ := fuel_records hflat
  rw [hfuel, hrun (fuel + 1), and_iff_right hsmall]
  dsimp only
  rw [List.append_right_eq_self]
  change CutReported _ _ _ ↔ _
  rcases hcase with ⟨rfl, hnil⟩ | ⟨y, ys, hys, hpre, hlt⟩
  · have heof : rb'.flatten = [] := List.prefix_nil.mp hnil
    rw [cutReported_error_iff hh (by rw [heof]; rfl)]
    exact iff_of_true (by simp [heof]) (by simp)
  · have hk : cut - (records w).length = rb'.flatten.length := by
      have hl := congrArg List.length htake
      rw [hys, List.length_take] at hl
      change min cut (records (w ++ y :: ys)).length = (records w ++ rb'.flatten).length at hl
      simp only [records_append, records_cons, List.length_append] at hl
      omega
    have hhead : (new.drop w.length).head? = some y := by
      rw [hys, List.drop_left]
      rfl
    rw [List.append_cancel_left (hnew.trans hys)] at hexp
    rw [hk, hhead]
    simpa using cutReported_iff hh hexp hpre

def overLevel (db : OrderedMap Bytes Bytes) : Ledis :=
  ⟨.empty, ⟨⟨false, 0, 0, false⟩, .level (.open db), 0, none⟩⟩

theorem truncated_stream_torn_data : Detects (overLevel .empty) [] [⟨1, 0, 0, [7, 8]⟩] 18
    [[0, 0, 0, 0, 0, 0, 0, 1, 0], [0, 0, 0, 0, 0, 0, 0, 2, 7]] := by
  have hc : Contiguous ([] ++ [⟨1, 0, 0, [7, 8]⟩]) := ⟨by decide, by decide⟩
  have hs : (overLevel .empty).r.s.Holds [] := @LevelStore.open_holds [] .empty rfl .nil
  refine (truncated_stream_iff hs ⟨hc, fun _ _ => rfl⟩ (by decide)).mpr ⟨by decide, fun y hy => ?_⟩
  cases hy
  decide

theorem stream_cut_at_head : ¬ Detects (overLevel .empty) [] [⟨1, 0, 0, [7, 8]⟩] 17
    [[0, 0, 0, 0, 0, 0, 0, 1, 0, 0, 0, 0, 0, 0, 0, 0, 2]] := by
  intro h
  exact absurd (h.nil_iff.mp rfl) (by decide)

/-- `ReadLogsTo` again and again from the `nextLogID` on until nothing is read, at most so often. -/
def Ledis.readPages : ℕ → Ledis → UInt64 → Option (Except Err Bytes)
  | 0, _, _ => none
  | pages + 1, l, i =>
    match l.ReadLogsTo i with
    | (.error e, _) => some (.error e)
    | (.ok out, l) =>
      if out.n = 0 then some (.ok out.w)
      else (l.readPages pages out.nextLogID).map (Except.map (out.w ++ ·))

def LogBuf.decodeAll : ℕ → LogBuf → List Bytes → Except Err (List Log)
  | 0, _, _ => .ok []
  | fuel + 1, b, rb =>
    match b.Decode rb with
    | .error .eof => .ok []
    | .error e => .error e
    | .ok (b, rb) => (decodeAll fuel b rb).map (b.log :: ·)

theorem LogBuf.decodeAll_records (hsmall : ∀ x ∈ xs, x.Data.length < 2 ^ 32)
    (hrb : rb.flatten = records xs) (hfuel : xs.length < fuel) : b.decodeAll fuel rb = .ok xs := by
  induction xs generalizing fuel b rb with
  | nil =>
    obtain ⟨fuel, rfl⟩ : ∃ f, fuel = f + 1 := ⟨fuel - 1, by omega⟩
    have hdec : Log.Decode rb.flatten = .error .eof := by
      rw [hrb]
      rfl
    rw [decodeAll, Decode_error hdec]
  | cons x xs ih =>
    rw [length_cons] at hfuel
    obtain ⟨fuel, rfl⟩ : ∃ f, fuel = f + 1 := ⟨fuel - 1, by omega⟩
    obtain ⟨hx, hxs⟩ := forall_mem_cons.mp hsmall
    have hdec := Log.Decode_Encode x (records xs)
    rw [Nat.mod_eq_of_lt hx, drop_length, Log.wire_eq hx, ← records_cons, ← hrb] at hdec
    obtain ⟨b', rb', hd, hlog, hrb'⟩ := Decode_ok hdec
    rw [decodeAll, hd]
    dsimp only
    rw [ih hxs hrb' (by omega), hlog]
    rfl

variable {pre : List Rpl.Log}

theorem LogStore.Holds.readLogs_page (h : r.s.Holds (pre ++ xs))
    (hsmall : ∀ x ∈ xs, x.Data.length < 2 ^ 32) {i last : UInt64} {n : ℕ}
    (hn : Numbered n (pre ++ xs)) (hi : i.toNat = n + pre.length)
    (hlast : last.toNat + 1 = n + (pre ++ xs).length) (hmax : last.toNat < 2 ^ 64 - 1)
    {out : Reading} (hnext : out.nextLogID = i) (hsize : out.n ≤ maxReplLogSize)
    (hfuel : maxReplLogSize < fuel + out.n) :
    ∃ ys zs j, xs = ys ++ zs ∧ (xs ≠ [] → ys ≠ []) ∧ j.toNat = i.toNat + ys.length ∧
      r.readLogs last fuel i out = .ok ⟨out.w ++ records ys, out.n + (records ys).length, j⟩ := by
  induction xs generalizing pre i out fuel with
  | nil =>
    obtain ⟨fuel, rfl⟩ : ∃ f, fuel = f + 1 := ⟨fuel - 1, by omega⟩
    rw [append_nil] at hlast
    refine ⟨[], [], i, rfl, fun hne => absurd rfl hne, rfl, ?_⟩
    rw [Replication.readLogs, if_neg (by rw [UInt64.le_iff_toNat_le]; omega), ← hnext]
    simp
  | cons x xs ih =>
    obtain ⟨fuel, rfl⟩ : ∃ f, fuel = f + 1 := ⟨fuel - 1, by omega⟩
    obtain ⟨hx, hxs⟩ := forall_mem_cons.mp hsmall
    rw [append_cons] at h hn hlast
    have hlen : (pre ++ [x]).length = pre.length + 1 := by simp
    rw [length_append, hlen] at hlast
    have hid : x.ID = i := by
      rw [append_assoc] at hn
      rw [← UInt64.toNat_inj, hn.id_eq, hi]
    have hget : r.GetLog i = .ok x := by
      have hmem : x ∈ pre ++ [x] ++ xs := by simp
      rw [← hid]
      exact (h.GetLog_of_mem hmem).trans (by rw [Log.wire_eq hx])
    have hi' : (i + 1).toNat = i.toNat + 1 := by
      rw [UInt64.toNat_add, UInt64.toNat_one]
      omega
    have hpos : 0 < x.Size := Nat.add_pos_left (by decide) _
    rw [Replication.readLogs, if_pos (by rw [UInt64.le_iff_toNat_le]; omega), hget]
    dsimp only
    split_ifs with hcut
    · exact ⟨[x], xs, i + 1, rfl, by simp, hi', by simp⟩
    · obtain ⟨ys, zs, j, rfl, -, hj, hrun⟩ := @ih fuel (pre ++ [x]) h hxs (i + 1) hn (by omega)
        (by rw [length_append, hlen]; exact hlast)
        ⟨out.w ++ x.Encode, out.n + x.Size, i + 1⟩ rfl (not_lt.mp hcut) (by dsimp only; omega)
      refine ⟨x :: ys, zs, j, rfl, by simp, by rw [length_cons]; omega, ?_⟩
      rw [hrun]
      simp [Nat.add_assoc]

theorem Ledis.readPages_eq {l : Ledis} (h : l.r.s.Holds (pre ++ xs)) (hne : pre ++ xs ≠ [])
    (hsmall : ∀ x ∈ xs, x.Data.length < 2 ^ 32) (hmax : (lastID (pre ++ xs)).toNat < 2 ^ 64 - 1)
    {i : UInt64} (hi : i.toNat = (firstID (pre ++ xs)).toNat + pre.length) {pages : ℕ}
    (hpages : xs.length < pages) : l.readPages pages i = some (.ok (records xs)) := by
  induction pages generalizing l pre xs i with
  | zero => omega
  | succ pages ih =>
    obtain ⟨s₁, h₁, hfirst⟩ := h.FirstLogID_eq
    obtain ⟨s₂, h₂, hlast⟩ := @LogStore.Holds.LastLogID_eq _ { l.r with s := s₁ } h₁
    have hn := h.contiguous.numbered
    obtain ⟨ys, zs, j, rfl, hys, hj, hrun⟩ := @LogStore.Holds.readLogs_page
      { l.r with s := s₂ } xs (maxReplLogSize + 1) pre h₂ hsmall i _ _ hn hi (hn.lastID_eq hne) hmax
      ⟨[], 0, i⟩ rfl (Nat.zero_le _) (Nat.lt_succ_self _)
    have hread : l.ReadLogsTo i = (.ok ⟨records ys, (records ys).length, j⟩,
        { l with r := { l.r with s := s₂ } }) := by
      rw [ReadLogsTo, hfirst]
      dsimp only
      rw [if_neg (by rw [UInt64.not_lt, UInt64.le_iff_toNat_le]; omega), hlast, hrun]
      simp
    rw [readPages, hread]
    dsimp only
    by_cases hnil : ys = []
    · have hzs : zs = [] := by
        by_contra hzs
        exact hys (by simp [hzs]) hnil
      rw [hnil, hzs]
      rfl
    · have hlen := records_length_ge ys
      have hpos := length_pos_of_ne_nil hnil
      unfold LogHeadSize at hlen
      rw [length_append] at hpages
      rw [← append_assoc] at h₂ hne hmax hi
      rw [if_neg (by omega), @ih _ (pre ++ ys) { l with r := { l.r with s := s₂ } } h₂ hne
        (fun x hx => hsmall x (mem_append_right _ hx)) hmax j
        (by rw [length_append]; omega) (by omega)]
      simp [Except.map]

/-- The pages from a log on that the store holds, or the next one, are the records of the logs from
there on, and the records are decoded to these logs. -/
theorem paged_transfer_lossless {l : Ledis} {ls : List Log} (h : l.r.s.Holds ls) (hne : ls ≠ [])
    (hsmall : ∀ x ∈ ls, x.Data.length < 2 ^ 32) (hmax : (lastID ls).toNat < 2 ^ 64 - 1)
    {start : UInt64} (hfirst : firstID ls ≤ start) (hlast : start ≤ lastID ls + 1) :
    let logs := ls.drop (start - firstID ls).toNat
    (∀ pages, logs.length < pages → l.readPages pages start = some (.ok (records logs))) ∧
    ∀ (b : LogBuf) (rb : List Bytes), rb.flatten = records logs →
      b.decodeAll (rb.flatten.length + 1) rb = .ok logs := by
  intro logs
  have hn := h.contiguous.numbered.lastID_eq hne
  rw [UInt64.le_iff_toNat_le] at hfirst hlast
  rw [UInt64.toNat_add, UInt64.toNat_one] at hlast
  have hk := UInt64.toNat_sub_of_le _ _ (UInt64.le_iff_toNat_le.mpr hfirst)
  have hsmall' : ∀ x ∈ logs, x.Data.length < 2 ^ 32 :=
    fun x hx => hsmall x (List.mem_of_mem_drop hx)
  have hsplit : ls.take (start - firstID ls).toNat ++ logs = ls := List.take_append_drop _ ls
  refine ⟨fun pages hpages => ?_, fun b rb hrb => LogBuf.decodeAll_records hsmall' hrb ?_⟩
  · refine @Ledis.readPages_eq logs (ls.take _) l (by rwa [hsplit]) (by rwa [hsplit]) hsmall'
      (by rwa [hsplit]) start ?_ pages hpages
    rw [hsplit, List.length_take_of_le (by omega)]
    omega
  · have hlen := records_length_ge logs
    unfold LogHeadSize at hlen
    rw [hrb]
    omega

def twoLogs : List Log := [⟨1, 0, 0, [7]⟩, ⟨2, 0, 0, [8, 9]⟩]

def twoLogsStore : Ledis :=
  overLevel ((OrderedMap.empty.insert (logKey 1) (Log.Encode ⟨1, 0, 0, [7]⟩)).insert (logKey 2)
    (Log.Encode ⟨2, 0, 0, [8, 9]⟩))

theorem paged_transfer_lossless_two :
    twoLogsStore.readPages 3 1 = some (.ok (records twoLogs)) ∧
    LogBuf.new.decodeAll 38 [(records twoLogs).take 20, (records twoLogs).drop 20] =
      .ok twoLogs := by
  have hc : Contiguous twoLogs := ⟨by decide, by decide⟩
  have hs : twoLogsStore.r.s.Holds twoLogs := @LevelStore.open_holds twoLogs _ rfl hc
  obtain ⟨hpages, hdecode⟩ := paged_transfer_lossless hs (by decide) (by decide) (by decide)
    (show firstID twoLogs ≤ 1 by decide) (by decide)
  exact ⟨hpages 3 (by decide), hdecode .new [(records twoLogs).take 20, (records twoLogs).drop 20]
    (by decide)⟩

/-- A slave whose logs the master's go on from holds the master's logs after it asked for the
pages from its next ID on and stored what came, in whatever pieces. -/
theorem slave_catches_up {l m : Ledis} (h : l.r.s.Holds (pre ++ xs)) (hne : pre ++ xs ≠ [])
    (hm : m.r.s.Holds pre) (he : m.r.s.Expects pre xs)
    (hsmall : ∀ x ∈ xs, x.Data.length < 2 ^ 32) (hmax : (lastID (pre ++ xs)).toNat < 2 ^ 64 - 1)
    {i : UInt64} (hi : i.toNat = (firstID (pre ++ xs)).toNat + pre.length) {pages : ℕ}
    (hpages : xs.length < pages) :
    ∃ data, l.readPages pages i = some (.ok data) ∧ ∀ rb : List Bytes, rb.flatten = data →
      (m.StoreLogsFrom true rb).1 = .ok () ∧ (m.StoreLogsFrom true rb).2.1 = xs ∧
      (m.StoreLogsFrom true rb).2.2.r.s.Holds (pre ++ xs) := by
  refine ⟨records xs, Ledis.readPages_eq h hne hsmall hmax hi hpages, fun rb hrb => ?_⟩
  have he' : m.r.s.Expects pre (xs ++ []) := by rwa [append_nil]
  have hrb' : rb.flatten = records xs ++ [] := by rwa [append_nil]
  obtain ⟨b', rb', r', hrest, hh, -, hrun⟩ := Replication.storeLogsFrom_small hm he' hsmall hrb'
  obtain ⟨fuel, hfuel⟩ := fuel_records hrb'
  have hend : r'.storeLogsFrom (fuel + 1) b' rb' = (.ok (), [], r') :=
    Replication.storeLogsFrom_error (by rw [hrest]; rfl)
  have hall : m.StoreLogsFrom true rb = (.ok (), xs, { m with r := r' }) := by
    rw [Ledis.StoreLogsFrom, hfuel, hrun (fuel + 1), hend]
    simp
  rw [hall]
  exact ⟨rfl, rfl, hh⟩

theorem slave_catches_up_two :
    let db := OrderedMap.empty.insert (logKey 1) (Log.Encode ⟨1, 0, 0, [7]⟩)
    ∃ data, (overLevel (db.insert (logKey 2) (Log.Encode ⟨2, 0, 0, [8]⟩))).readPages 2 2 =
        some (.ok data) ∧
      ((overLevel db).StoreLogsFrom true [data]).2.1 = [⟨2, 0, 0, [8]⟩] := by
  intro db
  have hc : Contiguous ([⟨1, 0, 0, [7]⟩] ++ [⟨2, 0, 0, [8]⟩]) := ⟨by decide, by decide⟩
  obtain ⟨data, hread, hstore⟩ := @slave_catches_up [⟨2, 0, 0, [8]⟩] [⟨1, 0, 0, [7]⟩]
    (overLevel (db.insert (logKey 2) (Log.Encode ⟨2, 0, 0, [8]⟩))) (overLevel db)
    (LevelStore.open_holds rfl hc) (by decide) (LevelStore.open_holds rfl ⟨by decide, by decide⟩)
    ⟨hc, fun h => absurd h (by decide)⟩ (by decide) (by decide) 2 (by decide) 2 (by decide)
  exact ⟨data, hread, (hstore [data] (append_nil data)).2.1⟩

end

end LedisDB.Rpl
