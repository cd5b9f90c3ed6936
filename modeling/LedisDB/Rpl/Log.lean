import LedisDB.Bytes
import LedisDB.Records

/-!
# Log records

`rpl/log.go`. A record is a head of 17 bytes and the data. The head holds the
length of the data in 32 bits, so of data of `2^32` bytes or more a reader only
sees an initial part. A read that comes up short is an end-of-file error, for
the head as for the data.
-/

namespace LedisDB.Rpl

open List

inductive Err
  | eof
  | unexpectedEOF
  | ErrLogNotFound
  | ErrStoreLogID
  | ErrNoBehindLog
  | ErrCommitIDBehind
  | ErrLogMissed
  | ErrRplInRDWR
  | invalidSyncID
  | invalidSyncSize
  | errTableNeedFlush
  | errNilHandler
  | closed
  | noFile
  | openFile
  | invalidTable
  | invalidExpire
  | invalidLogID
  | corrupt
  | commitLog
  | panic
  deriving DecidableEq

theorem Err.bind_ok_iff {α β : Type} {x : Except Err α} {f : α → Except Err β} {b : β} :
    x >>= f = .ok b ↔ ∃ a, x = .ok a ∧ f a = .ok b := by
  cases x with
  | error e | ok a => simp [bind, Except.bind]

theorem Err.bind_error_iff {α β : Type} {x : Except Err α} {f : α → Except Err β} {e : Err} :
    x >>= f = .error e ↔ x = .error e ∨ ∃ a, x = .ok a ∧ f a = .error e := by
  cases x with
  | error e | ok a => simp [bind, Except.bind]

def LogHeadSize : ℕ := 17

structure Log where
  ID : UInt64
  CreateTime : UInt32
  Compression : UInt8
  Data : Bytes
  deriving DecidableEq

def readAt (f : Bytes) (pos n : ℕ) : Bytes := (f.drop pos).take n

variable (l : Log)

namespace Log

def head : Bytes :=
  beBytes 8 l.ID.toNat ++ (beBytes 4 l.CreateTime.toNat ++ (l.Compression ::
    beBytes 4 (UInt32.ofNat l.Data.length).toNat))

def Encode : Bytes := l.head ++ l.Data

def Size : ℕ := LogHeadSize + l.Data.length

def decodeHeadBuf (buf : Bytes) : Log × ℕ :=
  (⟨UInt64.ofNat (beNat (buf.take 8)), UInt32.ofNat (beNat ((buf.drop 8).take 4)),
    (buf.drop 12).headD 0, []⟩, beNat ((buf.drop 13).take 4))

def DecodeHeadAt (f : Bytes) (pos : ℕ) : Except Err (Log × ℕ) :=
  let buf := readAt f pos LogHeadSize
  if buf.length ≠ LogHeadSize then .error .eof else .ok (decodeHeadBuf buf)

def DecodeAt (f : Bytes) (pos : ℕ) : Except Err Log := do
  let (l, length) ← DecodeHeadAt f pos
  let data := readAt f (pos + LogHeadSize) length
  if data.length ≠ length then .error .eof else .ok { l with Data := data }

/-- `io.ReadFull`: an end of the file before the first byte is told from a later one. -/
def readFull (r : Bytes) (n : ℕ) : Except Err (Bytes × Bytes) :=
  if n = 0 then .ok ([], r)
  else if r = [] then .error .eof
  else if r.length < n then .error .unexpectedEOF
  else .ok (r.take n, r.drop n)

def decodeData (length : ℕ) (r : Bytes) : Except Err (Log × Bytes) := do
  let (data, r) ← readFull r length
  .ok ({ l with Data := data }, r)

def Decode (r : Bytes) : Except Err (Log × Bytes) := do
  let (buf, r) ← readFull r LogHeadSize
  decodeData (decodeHeadBuf buf).1 (decodeHeadBuf buf).2 r

def wire : Log := { l with Data := l.Data.take (l.Data.length % 2 ^ 32) }

theorem wire_eq {l : Log} (h : l.Data.length < 2 ^ 32) : l.wire = l := by
  rw [wire, Nat.mod_eq_of_lt h, take_length]

theorem wire_eq_iff {l : Log} : l.wire = l ↔ l.Data.length < 2 ^ 32 := by
  constructor
  · intro h
    have hlen := congrArg (fun l => l.Data.length) h
    simp only [wire, length_take] at hlen
    omega
  · exact wire_eq

theorem wire_length_lt : l.wire.Data.length < 2 ^ 32 := by
  simp only [wire, length_take]
  omega

@[simp] theorem head_length : l.head.length = LogHeadSize := by
  simp [head, LogHeadSize]

@[simp] theorem Encode_length : l.Encode.length = l.Size := by
  simp [Encode, Size]

theorem decodeHeadBuf_head :
    decodeHeadBuf l.head = ({ l with Data := [] }, l.Data.length % 2 ^ 32) := by
  have hid := l.ID.toNat_lt
  have htime := l.CreateTime.toNat_lt
  have hlen := (UInt32.ofNat l.Data.length).toNat_lt
  have h12 : l.head.drop 12 = l.Compression :: beBytes 4 (UInt32.ofNat l.Data.length).toNat := by
    rw [head, ← append_assoc, drop_left' (by simp)]
  have h13 : l.head.drop 13 = beBytes 4 (UInt32.ofNat l.Data.length).toNat := by
    rw [show 13 = 12 + 1 from rfl, ← drop_drop, h12, drop_one, tail_cons]
  have h8 : l.head.take 8 = beBytes 8 l.ID.toNat := take_left' (by simp)
  have h84 : (l.head.drop 8).take 4 = beBytes 4 l.CreateTime.toNat := by
    rw [head, drop_left' (by simp), take_left' (by simp)]
  rw [decodeHeadBuf, h8, h84, h12, h13, take_of_length_le (by simp), beNat_beBytes_of_lt hid,
    beNat_beBytes_of_lt htime, beNat_beBytes_of_lt hlen, headD_cons, UInt64.ofNat_toNat,
    UInt32.ofNat_toNat, UInt32.toNat_ofNat']

theorem DecodeHeadAt_eof {f : Bytes} {pos : ℕ} (h : f.length < pos + LogHeadSize) :
    DecodeHeadAt f pos = .error .eof := by
  rw [DecodeHeadAt, readAt, if_pos]
  rw [length_take, length_drop]
  unfold LogHeadSize at *
  omega

theorem DecodeHeadAt_head (a b : Bytes) :
    DecodeHeadAt (a ++ (l.head ++ b)) a.length =
      .ok ({ l with Data := [] }, l.Data.length % 2 ^ 32) := by
  have hread : readAt (a ++ (l.head ++ b)) a.length LogHeadSize = l.head := by
    rw [readAt, drop_left, take_left' l.head_length]
  rw [DecodeHeadAt, hread, if_neg (by simp), decodeHeadBuf_head]

theorem DecodeAt_Encode (a b : Bytes) : DecodeAt (a ++ (l.Encode ++ b)) a.length = .ok l.wire := by
  have hdata : readAt (a ++ (l.Encode ++ b)) (a.length + LogHeadSize) (l.Data.length % 2 ^ 32) =
      l.Data.take (l.Data.length % 2 ^ 32) := by
    rw [readAt, Encode, ← drop_drop, drop_left, append_assoc,
      drop_left' l.head_length, take_append_of_le_length (Nat.mod_le _ _)]
  have hhead := DecodeHeadAt_head l a (l.Data ++ b)
  rw [← append_assoc l.head] at hhead
  unfold DecodeAt
  simp only [Encode] at hdata ⊢
  simp only [hhead, hdata, bind, Except.bind]
  rw [if_neg]
  · rfl
  · rw [length_take, not_not]
    exact Nat.min_eq_left (Nat.mod_le _ _)

theorem DecodeAt_length {f : Bytes} {pos : ℕ} {l : Log} (h : DecodeAt f pos = .ok l) :
    l.Data.length < 2 ^ 32 := by
  unfold DecodeAt DecodeHeadAt at h
  dsimp only at h
  split_ifs at h with hhead
  · cases h
  · simp only [bind, Except.bind] at h
    split_ifs at h with hdata
    cases h
    have hlt := beNat_lt (((readAt f pos LogHeadSize).drop 13).take 4)
    have hle : 256 ^ (((readAt f pos LogHeadSize).drop 13).take 4).length ≤ 2 ^ 32 := by
      calc 256 ^ (((readAt f pos LogHeadSize).drop 13).take 4).length
          ≤ 256 ^ 4 := Nat.pow_le_pow_right (by decide) (by rw [length_take]; omega)
        _ = 2 ^ 32 := rfl
    rw [not_not.mp hdata]
    exact lt_of_lt_of_le hlt hle

theorem readFull_append {a : Bytes} (b : Bytes) {n : ℕ} (hn : n ≤ a.length) :
    readFull (a ++ b) n = .ok (a.take n, a.drop n ++ b) := by
  unfold readFull
  by_cases h0 : n = 0
  · simp [h0]
  · have ha : a ≠ [] := ne_nil_of_length_pos (by omega)
    rw [if_neg h0, if_neg (by simp [ha]), if_neg (by rw [length_append]; omega),
      take_append_of_le_length hn, drop_append_of_le_length hn]

theorem decodeData_append {a : Bytes} (b : Bytes) {n : ℕ} (hn : n ≤ a.length) :
    decodeData l n (a ++ b) = .ok ({ l with Data := a.take n }, a.drop n ++ b) := by
  rw [decodeData, readFull_append b hn]
  rfl

theorem Decode_of_head {r buf r' : Bytes} (h : readFull r LogHeadSize = .ok (buf, r')) :
    Decode r = decodeData (decodeHeadBuf buf).1 (decodeHeadBuf buf).2 r' := by
  rw [Decode, h]
  rfl

theorem Decode_Encode (b : Bytes) :
    Decode (l.Encode ++ b) = .ok (l.wire, l.Data.drop (l.Data.length % 2 ^ 32) ++ b) := by
  have hhead := readFull_append (l.Data ++ b) l.head_length.ge
  rw [take_of_length_le l.head_length.le] at hhead
  rw [Encode, append_assoc, Decode_of_head hhead, decodeHeadBuf_head]
  exact decodeData_append _ b (Nat.mod_le _ _)

theorem Decode_Encode_self : ∃ r, Decode l.Encode = .ok (l.wire, r) := by
  have h := Decode_Encode l []
  rw [append_nil] at h
  exact ⟨_, h⟩

theorem wire_CreateTime : l.wire.CreateTime = l.CreateTime := rfl

end Log

end LedisDB.Rpl
