import LedisDB.Operation
import LedisDB.Rpl.Log

/-!
# Batches as bytes

The data of a log is a batch in the format of goleveldb (`store/writebatch.go`
over `leveldb/batch.go`): a header with the number of records, and for each
record a type, the key and for a put the value, both behind their lengths. A
replay hands out the records one by one as it meets them, so those before a
malformed one have been handed out when it fails.
-/

namespace LedisDB.Rpl

open List

/-- The varint at the start of the bytes, of at most `f + 1` groups, and what follows it. The
tenth group of a 64-bit value is 0 or 1. -/
def uvarint : ℕ → Bytes → Option (ℕ × Bytes)
  | _, [] => none
  | 0, b :: bs => if b.toNat ≤ 1 then some (b.toNat, bs) else none
  | f + 1, b :: bs =>
    if b.toNat < 128 then some (b.toNat, bs)
    else match uvarint f bs with
      | some (x, r) => some (b.toNat % 128 + 128 * x, r)
      | none => none

namespace BatchData

def batchHdrLen : ℕ := 12

/-- The bytes behind a length, where `rest` is what is left of `total` bytes. A length for
which the end of the bytes is beyond the range of `int` passes the test for it. -/
def readChunk (total : ℕ) (rest : Bytes) : Except Err (Bytes × Bytes) :=
  match uvarint 9 rest with
  | none => .error .corrupt
  | some (x, rest) =>
    if x ≤ rest.length then .ok (rest.take x, rest.drop x)
    else if total - rest.length + x < 2 ^ 63 then .error .corrupt
    else .error .panic

def readRec (total : ℕ) : Bytes → Except Err (WriteOp Bytes Bytes × Bytes)
  | [] => .error .corrupt
  | kt :: rest =>
    if kt > 1 then .error .panic
    else do
      let (key, rest) ← readChunk total rest
      if kt = 1 then do
        let (value, rest) ← readChunk total rest
        .ok (.put key value, rest)
      else .ok (.delete key, rest)

def decodeRec (total : ℕ) : ℕ → Bytes → Batch × Except Err Unit
  | 0, _ => ([], .ok ())
  | n + 1, rest =>
    match readRec total rest with
    | .error e => ([], .error e)
    | .ok (op, rest) => (op :: (decodeRec total n rest).1, (decodeRec total n rest).2)

/-- `NewBatchData`: only the length of the header is checked. -/
def load (data : Bytes) : Except Err Unit :=
  if data.length < batchHdrLen then .error .corrupt else .ok ()

def Replay (data : Bytes) : Batch × Except Err Unit :=
  decodeRec data.length (leNat ((data.drop 8).take 4)) (data.drop batchHdrLen)

def appendRec : WriteOp Bytes Bytes → Bytes
  | .put key value =>
    1 :: (putUvarint key.length ++ (key ++ (putUvarint value.length ++ value)))
  | .delete key => 0 :: (putUvarint key.length ++ key)

def encode (seq : ℕ) (b : Batch) : Bytes :=
  leBytes 8 seq ++ (leBytes 4 b.length ++ b.flatMap appendRec)

def Sized : WriteOp Bytes Bytes → Prop
  | .put key value => key.length < 2 ^ 63 ∧ value.length < 2 ^ 63
  | .delete key => key.length < 2 ^ 63

theorem uvarint_groups {f n : ℕ} (hn : n < 2 * 128 ^ f) (r : Bytes) :
    uvarint f (uvarintGroups f n ++ r) = some (n, r) := by
  induction f generalizing n with
  | zero =>
    have hbyte : (UInt8.ofNat n).toNat = n := by
      rw [UInt8.toNat_ofNat']
      omega
    rw [uvarintGroups, singleton_append, uvarint, hbyte, if_pos (by omega)]
  | succ f ih =>
    unfold uvarintGroups
    split_ifs with hlt
    · have hbyte : (UInt8.ofNat n).toNat = n := by
        rw [UInt8.toNat_ofNat']
        omega
      rw [singleton_append, uvarint, hbyte, if_pos hlt]
    · have hbyte : (UInt8.ofNat (n % 128 + 128)).toNat = n % 128 + 128 := by
        rw [UInt8.toNat_ofNat']
        omega
      have hq : n / 128 < 2 * 128 ^ f := by
        apply Nat.div_lt_of_lt_mul
        calc n < 2 * 128 ^ (f + 1) := hn
          _ = 128 * (2 * 128 ^ f) := by ring
      rw [cons_append, uvarint, if_neg (by omega), ih hq]
      simp only [Option.some.injEq, Prod.mk.injEq, and_true]
      omega

theorem readChunk_putUvarint {b : Bytes} (hb : b.length < 2 ^ 63) (total : ℕ) (r : Bytes) :
    readChunk total (putUvarint b.length ++ (b ++ r)) = .ok (b, r) := by
  have hlt : b.length < 2 * 128 ^ 9 := lt_trans hb (by norm_num)
  rw [readChunk, putUvarint, uvarint_groups hlt]
  dsimp only
  rw [if_pos (by rw [length_append]; omega), take_left, drop_left]

theorem readRec_appendRec {op : WriteOp Bytes Bytes} (hop : Sized op) (total : ℕ) (r : Bytes) :
    readRec total (appendRec op ++ r) = .ok (op, r) := by
  cases op with
  | put key value =>
    simp only [appendRec, readRec, cons_append, append_assoc]
    rw [if_neg (by decide), readChunk_putUvarint hop.1]
    simp only [bind, Except.bind, ↓reduceIte]
    rw [readChunk_putUvarint hop.2]
  | delete key =>
    simp only [appendRec, readRec, cons_append, append_assoc]
    rw [readChunk_putUvarint hop]
    rfl

theorem decodeRec_appendRec {b : Batch} (hb : ∀ op ∈ b, Sized op) (total : ℕ) :
    decodeRec total b.length (b.flatMap appendRec) = (b, .ok ()) := by
  induction b with
  | nil => rfl
  | cons op b ih =>
    rw [flatMap_cons, length_cons, decodeRec, readRec_appendRec (hb op (.head _))]
    dsimp only
    rw [ih fun x hx => hb x (.tail _ hx)]

theorem Replay_encode {b : Batch} (hlen : b.length < 2 ^ 32) (hb : ∀ op ∈ b, Sized op) (seq : ℕ) :
    load (encode seq b) = .ok () ∧ Replay (encode seq b) = (b, .ok ()) := by
  have hhead : (encode seq b).drop 8 = leBytes 4 b.length ++ b.flatMap appendRec :=
    drop_left' (by simp)
  have hcount : leNat (((encode seq b).drop 8).take 4) = b.length := by
    rw [hhead, take_left' (by simp), leNat_leBytes_of_lt (lt_of_lt_of_eq hlen (by norm_num))]
  constructor
  · rw [load, encode, batchHdrLen, if_neg (by simp only [length_append, leBytes_length]; omega)]
  · rw [Replay, hcount]
    exact decodeRec_appendRec hb _

end BatchData

end LedisDB.Rpl
