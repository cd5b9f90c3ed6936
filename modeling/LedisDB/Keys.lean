import LedisDB.Values
import LedisDB.PrefixScan

/-!
# The byte layout of the store

All databases, data types and user keys share one ordered byte space
(`ledis/const.go`, `ledis/ledis_db.go` and the encoders of the `t_*.go` files).
A stored key starts with the varint database index and a type byte. Then it
has either the bare user key (`plainKey`: KV entries, sizes, list metas) or the
user key behind its 16-bit length and a rest (`itemKey`: hash fields, list
items, set members, zset members and scores). Expire entries carry the type
byte of the data they are about.
-/

namespace LedisDB

variable {key value member : Bytes} {e : Err}

def NoneType : UInt8 := 0
def KVType : UInt8 := 1
def HashType : UInt8 := 2
def HSizeType : UInt8 := 3
def ListType : UInt8 := 4
def LMetaType : UInt8 := 5
def ZSetType : UInt8 := 6
def ZSizeType : UInt8 := 7
def ZScoreType : UInt8 := 8
def SetType : UInt8 := 11
def SSizeType : UInt8 := 12
def maxDataType : UInt8 := 100
def ExpMetaType : UInt8 := 102
def ExpTimeType : UInt8 := 103

def MaxDatabases : ℕ := 10240
def MaxKeySize : ℕ := 1024
def MaxHashFieldSize : ℕ := 1024
def MaxZSetMemberSize : ℕ := 1024
def MaxSetMemberSize : ℕ := 1024
def MaxValueSize : ℕ := 1024 * 1024 * 1024

def hashStartSep : UInt8 := 58
def hashStopSep : UInt8 := hashStartSep + 1
def setStartSep : UInt8 := 58
def setStopSep : UInt8 := setStartSep + 1
def zsetNScoreSep : UInt8 := 60
def zsetPScoreSep : UInt8 := zsetNScoreSep + 1
def zsetStartMemSep : UInt8 := 58
def zsetStopMemSep : UInt8 := zsetStartMemSep + 1

def checkKeySize (key : Bytes) : Except Err Unit :=
  if key.length > MaxKeySize ∨ key.length = 0 then .error .errKeySize else .ok ()

def checkValueSize (value : Bytes) : Except Err Unit :=
  if value.length > MaxValueSize then .error .errValueSize else .ok ()

/-- The common form of the key and member checks of the collection types. -/
def checkKMSize (maxMember : ℕ) (e : Err) (key member : Bytes) : Except Err Unit :=
  if key.length > MaxKeySize ∨ key.length = 0 then .error .errKeySize
  else if member.length > maxMember ∨ member.length = 0 then .error e
  else .ok ()

def checkHashKFSize (key field : Bytes) : Except Err Unit :=
  checkKMSize MaxHashFieldSize .errHashFieldSize key field

def checkSetKMSize (key member : Bytes) : Except Err Unit :=
  checkKMSize MaxSetMemberSize .errSetMemberSize key member

def checkZSetKMSize (key member : Bytes) : Except Err Unit :=
  checkKMSize MaxZSetMemberSize .errZSetMemberSize key member

def ValidKey (key : Bytes) : Prop := 0 < key.length ∧ key.length ≤ MaxKeySize

instance (key : Bytes) : Decidable (ValidKey key) := inferInstanceAs (Decidable (_ ∧ _))

theorem checkKeySize_ok : checkKeySize key = .ok () ↔ ValidKey key := by
  unfold checkKeySize ValidKey
  split_ifs with h
  · simp only [false_iff]
    omega
  · simp only [true_iff]
    omega

theorem checkKeySize_error (h : ¬ ValidKey key) : checkKeySize key = .error .errKeySize := by
  unfold checkKeySize
  split_ifs with hsize
  · rfl
  · exact absurd (by unfold ValidKey; omega) h

theorem checkValueSize_ok : checkValueSize value = .ok () ↔ value.length ≤ MaxValueSize := by
  unfold checkValueSize
  split_ifs with h
  · simpa using h
  · simpa using h

theorem checkKMSize_error {n : ℕ} (h : ¬ ValidKey key) (member : Bytes) :
    checkKMSize n e key member = .error .errKeySize := by
  rw [checkKMSize, if_pos]
  rw [ValidKey] at h
  omega

theorem checkKMSize_ok :
    checkKMSize MaxKeySize e key member = .ok () ↔ ValidKey key ∧ ValidKey member := by
  unfold checkKMSize ValidKey
  split_ifs with h h'
  · simp only [false_iff]
    omega
  · simp only [false_iff]
    omega
  · simp only [true_iff]
    omega

structure DB where
  index : ℕ
  index_lt : index < MaxDatabases

variable (db : DB)

namespace DB

def indexVarBuf : Bytes := putUvarint db.index

def checkKeyIndex (buf : Bytes) : Except Err ℕ :=
  if buf.length < db.indexVarBuf.length then .error .errKeyTooSmall
  else if db.indexVarBuf ≠ buf.take db.indexVarBuf.length then .error .errDBIndex
  else .ok db.indexVarBuf.length

def plainKey (type : UInt8) (rest : Bytes) : Bytes := db.indexVarBuf ++ type :: rest

def itemKey (type : UInt8) (key rest : Bytes) : Bytes :=
  db.plainKey type (beBytes 2 key.length ++ (key ++ rest))

/-- `k[len(k)-1] = c`. -/
def setLast (k : Bytes) (c : UInt8) : Bytes := k.set (k.length - 1) c

def encodeKVKey (key : Bytes) : Bytes := db.plainKey KVType key

def hEncodeSizeKey (key : Bytes) : Bytes := db.plainKey HSizeType key

def hEncodeHashKey (key field : Bytes) : Bytes :=
  db.itemKey HashType key (hashStartSep :: field)

def hEncodeStartKey (key : Bytes) : Bytes := db.hEncodeHashKey key []

def hEncodeStopKey (key : Bytes) : Bytes :=
  setLast (db.hEncodeHashKey key []) hashStopSep

def lEncodeMetaKey (key : Bytes) : Bytes := db.plainKey LMetaType key

def lEncodeListKey (key : Bytes) (seq : Int32) : Bytes :=
  db.itemKey ListType key (beBytes 4 seq.toUInt32.toNat)

def sEncodeSizeKey (key : Bytes) : Bytes := db.plainKey SSizeType key

def sEncodeSetKey (key member : Bytes) : Bytes :=
  db.itemKey SetType key (setStartSep :: member)

def sEncodeStartKey (key : Bytes) : Bytes := db.sEncodeSetKey key []

def sEncodeStopKey (key : Bytes) : Bytes :=
  setLast (db.sEncodeSetKey key []) setStopSep

def zEncodeSizeKey (key : Bytes) : Bytes := db.plainKey ZSizeType key

def zEncodeSetKey (key member : Bytes) : Bytes :=
  db.itemKey ZSetType key (zsetStartMemSep :: member)

def zEncodeStartSetKey (key : Bytes) : Bytes := db.zEncodeSetKey key []

def zEncodeStopSetKey (key : Bytes) : Bytes :=
  setLast (db.zEncodeSetKey key []) (zsetStartMemSep + 1)

def scoreSep (score : Int64) : UInt8 := if score < 0 then zsetNScoreSep else zsetPScoreSep

def zEncodeScoreKey (key member : Bytes) (score : Int64) : Bytes :=
  db.itemKey ZScoreType key
    (scoreSep score :: (beBytes 8 score.toUInt64.toNat ++ zsetStartMemSep :: member))

def zEncodeStartScoreKey (key : Bytes) (score : Int64) : Bytes :=
  db.zEncodeScoreKey key [] score

def zEncodeStopScoreKey (key : Bytes) (score : Int64) : Bytes :=
  setLast (db.zEncodeScoreKey key [] score) zsetStopMemSep

def expEncodeMetaKey (dataType : UInt8) (key : Bytes) : Bytes :=
  db.plainKey ExpMetaType (dataType :: key)

def expEncodeTimeKey (dataType : UInt8) (key : Bytes) (w : Int64) : Bytes :=
  db.plainKey ExpTimeType (beBytes 8 w.toUInt64.toNat ++ dataType :: key)

/-- The common body of `hDecodeHashKey` and `sDecodeSetKey`. The separator is read
without a bound check. -/
def decodeMemberKey (type : UInt8) (e : Err) (ek : Bytes) : Except Err (Bytes × Bytes) :=
  match db.checkKeyIndex ek with
  | .error err => .error err
  | .ok pos =>
    if pos + 1 > ek.length ∨ ek[pos]? ≠ some type then .error e
    else if pos + 1 + 2 > ek.length then .error e
    else
      let keyLen := beNat ((ek.drop (pos + 1)).take 2)
      let pos := pos + 3
      if keyLen + pos > ek.length then .error e
      else match ek[pos + keyLen]? with
        | none => .error .panic
        | some c =>
          if c ≠ hashStartSep then .error e
          else .ok ((ek.drop pos).take keyLen, ek.drop (pos + keyLen + 1))

def hDecodeHashKey (ek : Bytes) : Except Err (Bytes × Bytes) :=
  db.decodeMemberKey HashType .errHashKey ek

def sDecodeSetKey (ek : Bytes) : Except Err (Bytes × Bytes) :=
  db.decodeMemberKey SetType .errSetKey ek

/-- Here the length is compared before the position passes the length field. -/
def zDecodeSetKey (ek : Bytes) : Except Err (Bytes × Bytes) :=
  match db.checkKeyIndex ek with
  | .error err => .error err
  | .ok pos =>
    if pos + 1 > ek.length ∨ ek[pos]? ≠ some ZSetType then .error .errZSetKey
    else if pos + 1 + 2 > ek.length then .error .errZSetKey
    else
      let keyLen := beNat ((ek.drop (pos + 1)).take 2)
      if keyLen + (pos + 1) > ek.length then .error .errZSetKey
      else
        let pos := pos + 3
        match ek[pos + keyLen]? with
        | none => .error .panic
        | some c =>
          if c ≠ zsetStartMemSep then .error .errZSetKey
          else .ok ((ek.drop pos).take keyLen, ek.drop (pos + keyLen + 1))

def zDecodeScoreKey (ek : Bytes) : Except Err (Bytes × Bytes × Int64) :=
  match db.checkKeyIndex ek with
  | .error err => .error err
  | .ok pos =>
    if pos + 1 > ek.length ∨ ek[pos]? ≠ some ZScoreType then .error .errZScoreKey
    else if pos + 1 + 2 > ek.length then .error .errZScoreKey
    else
      let keyLen := beNat ((ek.drop (pos + 1)).take 2)
      let pos := pos + 3
      if keyLen + pos > ek.length then .error .errZScoreKey
      else
        let key := (ek.drop pos).take keyLen
        let pos := pos + keyLen
        if pos + 10 > ek.length then .error .errZScoreKey
        else if ek[pos]? ≠ some zsetNScoreSep ∧ ek[pos]? ≠ some zsetPScoreSep then
          .error .errZScoreKey
        else
          let score := (UInt64.ofNat (beNat ((ek.drop (pos + 1)).take 8))).toInt64
          if ek[pos + 9]? ≠ some zsetStartMemSep then .error .errZScoreKey
          else .ok (key, ek.drop (pos + 10), score)

def expDecodeTimeKey (tk : Bytes) : Except Err (UInt8 × Bytes × Int64) :=
  match db.checkKeyIndex tk with
  | .error err => .error err
  | .ok pos =>
    if pos + 10 > tk.length ∨ tk[pos]? ≠ some ExpTimeType then .error .errExpTimeKey
    else match tk[pos + 9]? with
      | none => .error .panic
      | some dataType =>
        .ok (dataType, tk.drop (pos + 10),
          (UInt64.ofNat (beNat ((tk.drop (pos + 1)).take 8))).toInt64)

end DB

end LedisDB
