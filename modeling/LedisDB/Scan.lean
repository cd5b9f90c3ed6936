import LedisDB.Reads
import LedisDB.Entries

/-!
# Scans over the keys of a database and over the members of a key

`ledis/scan.go`: a scan runs over the entries that hold the bare user keys of one
data type, the strings themselves or the meta and size entries, and takes the keys
out of them; or over the member entries of one hash, set or zset. The compiled
regular expression is a predicate. A page is allocated before it is filled, and
the allocation panics when the memory cannot hold it.
-/

namespace LedisDB

def defaultScanCount : ℤ := 10

variable (db : DB) (storeDataType : UInt8) (memory : ℕ)

namespace DB

/-- The common body of the decoders of entries that hold a bare user key. -/
def decodePlainKey (type : UInt8) (e : Err) (ek : Bytes) : Except Err Bytes :=
  match db.checkKeyIndex ek with
  | .error err => .error err
  | .ok pos =>
    if pos + 1 > ek.length ∨ ek[pos]? ≠ some type then .error e
    else .ok (ek.drop (pos + 1))

def decodeKVKey (ek : Bytes) : Except Err Bytes := db.decodePlainKey KVType .errKVKey ek

def lDecodeMetaKey (ek : Bytes) : Except Err Bytes :=
  db.decodePlainKey LMetaType .errLMetaKey ek

def hDecodeSizeKey (ek : Bytes) : Except Err Bytes :=
  db.decodePlainKey HSizeType .errHSizeKey ek

def sDecodeSizeKey (ek : Bytes) : Except Err Bytes :=
  db.decodePlainKey SSizeType .errSSizeKey ek

def zDecodeSizeKey (ek : Bytes) : Except Err Bytes :=
  db.decodePlainKey ZSizeType .errZSizeKey ek

def encodeScanKey (key : Bytes) : Except Err Bytes :=
  if storeDataType = KVType then .ok (db.encodeKVKey key)
  else if storeDataType = LMetaType then .ok (db.lEncodeMetaKey key)
  else if storeDataType = HSizeType then .ok (db.hEncodeSizeKey key)
  else if storeDataType = ZSizeType then .ok (db.zEncodeSizeKey key)
  else if storeDataType = SSizeType then .ok (db.sEncodeSizeKey key)
  else .error .errDataType

def decodeScanKey (ek : Bytes) : Except Err Bytes :=
  if storeDataType = KVType then db.decodeKVKey ek
  else if storeDataType = LMetaType then db.lDecodeMetaKey ek
  else if storeDataType = HSizeType then db.hDecodeSizeKey ek
  else if storeDataType = ZSizeType then db.zDecodeSizeKey ek
  else if storeDataType = SSizeType then db.sDecodeSizeKey ek
  else .error .errDataType

def encodeScanMinKey (key : Bytes) : Except Err Bytes :=
  db.encodeScanKey storeDataType key

def encodeScanMaxKey (key : Bytes) : Except Err Bytes :=
  if key.length > 0 then db.encodeScanKey storeDataType key
  else (db.encodeScanKey storeDataType []).map fun k => setLast k (storeDataType + 1)

def buildScanKeyRange (key : Bytes) (reverse : Bool) :
    Except Err (Bytes × Bytes) := do
  let minKey ← db.encodeScanMinKey storeDataType (if reverse then [] else key)
  let maxKey ← db.encodeScanMaxKey storeDataType (if reverse then key else [])
  pure (minKey, maxKey)

def buildScanIterator (minKey maxKey : Bytes) (inclusive reverse : Bool) :
    Op (List (Bytes × Bytes)) :=
  let tp := if inclusive then (if reverse then RangeLOpen else RangeROpen) else RangeOpen
  Op.range ⟨some minKey, some maxKey, tp⟩ ⟨0, -1⟩ (if reverse then .backward else .forward)

def checkScanCount (count : ℤ) : ℤ := if count ≤ 0 then defaultScanCount else count

/-- Entries that do not decode or do not match are passed over and not counted. -/
def scanGeneric (key : Bytes) (count : ℤ) (inclusive : Bool)
    (r : Option (Bytes → Bool)) (reverse : Bool) : Op (List Bytes) := do
  let (minKey, maxKey) ← Op.lift (db.buildScanKeyRange storeDataType key reverse)
  let es ← buildScanIterator minKey maxKey inclusive reverse
  let v := es.filterMap fun e => (db.decodeScanKey storeDataType e.1).toOption
  pure ((v.filter fun k => (r.map (· k)).getD true).take (checkScanCount count).toNat)

/-- `make([]T, 0, count)` with elements of this size. -/
def makePage (memory elemSize : ℕ) (count : ℤ) : Except Err Unit :=
  if elemSize * count.toNat > memory then .error .panic else .ok ()

def sliceSize : ℕ := 24
def fvPairSize : ℕ := 48
def scorePairSize : ℕ := 32

def getDataStoreType : DataType → UInt8
  | .KV => KVType
  | .LIST => LMetaType
  | .HASH => HSizeType
  | .SET => SSizeType
  | .ZSET => ZSizeType

def Scan (dataType : DataType) (cursor : Bytes) (count : ℤ)
    (inclusive : Bool) (r : Option (Bytes → Bool)) : Op (List Bytes) := do
  Op.lift (makePage memory sliceSize (checkScanCount count))
  db.scanGeneric (getDataStoreType dataType) cursor count inclusive r false

def RevScan (dataType : DataType) (cursor : Bytes) (count : ℤ)
    (inclusive : Bool) (r : Option (Bytes → Bool)) : Op (List Bytes) := do
  Op.lift (makePage memory sliceSize (checkScanCount count))
  db.scanGeneric (getDataStoreType dataType) cursor count inclusive r true

def encodeDataScanKey (key cursor : Bytes) : Except Err Bytes :=
  if storeDataType = HashType then .ok (db.hEncodeHashKey key cursor)
  else if storeDataType = ZSetType then .ok (db.zEncodeSetKey key cursor)
  else if storeDataType = SetType then .ok (db.sEncodeSetKey key cursor)
  else .error .errDataType

def encodeDataScanMinKey (key cursor : Bytes) :
    Except Err Bytes := db.encodeDataScanKey storeDataType key cursor

def encodeDataScanMaxKey (key cursor : Bytes) : Except Err Bytes :=
  if cursor.length > 0 then db.encodeDataScanKey storeDataType key cursor
  else (db.encodeDataScanKey storeDataType key []).map fun k => setLast k (k.getLastD 0 + 1)

def buildDataScanKeyRange (key cursor : Bytes) (reverse : Bool) : Except Err (Bytes × Bytes) := do
  let minKey ← db.encodeDataScanMinKey storeDataType key (if reverse then [] else cursor)
  let maxKey ← db.encodeDataScanMaxKey storeDataType key (if reverse then cursor else [])
  pure (minKey, maxKey)

def buildDataScanIterator (key cursor : Bytes)
    (inclusive reverse : Bool) : Op (List (Bytes × Bytes)) := do
  Op.lift (checkKeySize key)
  let (minKey, maxKey) ← Op.lift (db.buildDataScanKeyRange storeDataType key cursor reverse)
  buildScanIterator minKey maxKey inclusive reverse

/-- The loop of the member scans, for at most so many elements. An entry that does
not decode ends the scan with its error; the value is read after the match. -/
def dataScanLoop {α : Type} (decodeKey : Bytes → Except Err (Bytes × Bytes))
    (item : Bytes → Bytes → Except Err α) (r : Option (Bytes → Bool)) :
    List (Bytes × Bytes) → ℕ → Except Err (List α)
  | [], _ => .ok []
  | _ :: _, 0 => .ok []
  | e :: es, n + 1 =>
    match decodeKey e.1 with
    | .error err => .error err
    | .ok (_, m) =>
      if (r.map (· m)).getD true = false then dataScanLoop decodeKey item r es (n + 1)
      else match item m e.2 with
        | .error err => .error err
        | .ok a => (dataScanLoop decodeKey item r es n).map (a :: ·)

/-- The common body of `hScanGeneric`, `sScanGeneric` and `zScanGeneric`. -/
def dataScanGeneric {α : Type} (memory elemSize : ℕ) (storeDataType : UInt8)
    (decodeKey : Bytes → Except Err (Bytes × Bytes)) (item : Bytes → Bytes → Except Err α)
    (key cursor : Bytes) (count : ℤ) (inclusive : Bool) (r : Option (Bytes → Bool))
    (reverse : Bool) : Op (List α) := do
  Op.lift (makePage memory elemSize (checkScanCount count))
  let es ← db.buildDataScanIterator storeDataType key cursor inclusive reverse
  Op.lift (dataScanLoop decodeKey item r es (checkScanCount count).toNat)

def hScanGeneric (key cursor : Bytes) (count : ℤ) (inclusive : Bool)
    (r : Option (Bytes → Bool)) (reverse : Bool) : Op (List FVPair) :=
  db.dataScanGeneric memory fvPairSize HashType db.hDecodeHashKey (fun f v => .ok ⟨f, v⟩)
    key cursor count inclusive r reverse

def HScan (key cursor : Bytes) (count : ℤ) (inclusive : Bool)
    (r : Option (Bytes → Bool)) : Op (List FVPair) :=
  db.hScanGeneric memory key cursor count inclusive r false

def HRevScan (key cursor : Bytes) (count : ℤ) (inclusive : Bool)
    (r : Option (Bytes → Bool)) : Op (List FVPair) :=
  db.hScanGeneric memory key cursor count inclusive r true

def sScanGeneric (key cursor : Bytes) (count : ℤ) (inclusive : Bool)
    (r : Option (Bytes → Bool)) (reverse : Bool) : Op (List Bytes) :=
  db.dataScanGeneric memory sliceSize SetType db.sDecodeSetKey (fun m _ => .ok m)
    key cursor count inclusive r reverse

def SScan (key cursor : Bytes) (count : ℤ) (inclusive : Bool)
    (r : Option (Bytes → Bool)) : Op (List Bytes) :=
  db.sScanGeneric memory key cursor count inclusive r false

def SRevScan (key cursor : Bytes) (count : ℤ) (inclusive : Bool)
    (r : Option (Bytes → Bool)) : Op (List Bytes) :=
  db.sScanGeneric memory key cursor count inclusive r true

def zScanGeneric (key cursor : Bytes) (count : ℤ) (inclusive : Bool)
    (r : Option (Bytes → Bool)) (reverse : Bool) : Op (List ScorePair) :=
  db.dataScanGeneric memory scorePairSize ZSetType db.zDecodeSetKey
    (fun m v => (decodeInt64 (some v)).map (⟨·, m⟩)) key cursor count inclusive r reverse

def ZScan (key cursor : Bytes) (count : ℤ) (inclusive : Bool)
    (r : Option (Bytes → Bool)) : Op (List ScorePair) :=
  db.zScanGeneric memory key cursor count inclusive r false

def ZRevScan (key cursor : Bytes) (count : ℤ) (inclusive : Bool)
    (r : Option (Bytes → Bool)) : Op (List ScorePair) :=
  db.zScanGeneric memory key cursor count inclusive r true

section
variable {db : DB} {env : Env} {s : Store}

theorem decodePlainKey_plainKey (type : UInt8) (e : Err) (key : Bytes) :
    db.decodePlainKey type e (db.plainKey type key) = .ok key := by
  simp [decodePlainKey, checkKeyIndex, plainKey]

theorem decodeScanKey_plainKey (T : DataType) (key : Bytes) :
    db.decodeScanKey T.plain (db.plainKey T.plain key) = .ok key := by
  cases T <;> exact decodePlainKey_plainKey _ _ key

theorem encodeScanKey_plain (T : DataType) (key : Bytes) :
    db.encodeScanKey T.plain key = .ok (db.plainKey T.plain key) := by
  cases T <;> rfl

/-- The keys of a data type, in order: those of the entries that hold bare user keys. -/
def keysOf (db : DB) (s : Store) (T : DataType) : List Bytes :=
  (s.under (db.plainKey T.plain [])).map Prod.fst

theorem mem_keysOf {T : DataType} {key : Bytes} :
    key ∈ db.keysOf s T ↔ s.get (db.plainKey T.plain key) ≠ none := by
  rw [keysOf, ← List.mem_toFinset, ← OrderedMap.suffixes, OrderedMap.mem_suffixes,
    ← plainKey_append, List.nil_append, Option.isSome_iff_ne_none]

theorem keysOf_nodup (T : DataType) : (db.keysOf s T).Nodup := s.under_nodup _

theorem rangeLimit_keys (T : DataType) :
    s.rangeLimit ⟨some (db.plainKey T.plain []), some (setLast (db.plainKey T.plain [])
      (T.plain + 1)), RangeOpen⟩ ⟨0, -1⟩ .forward =
      ((s.under (db.plainKey T.plain [])).filter (fun e => e.1 ≠ [])).map
        (fun e => (db.plainKey T.plain e.1, e.2)) := by
  have hnext : T.plain < T.plain + 1 := by
    cases T <;> decide
  have hgap : ∀ c, c < T.plain + 1 → c ≤ T.plain := by
    intro c hc
    rw [UInt8.le_iff_toNat_le]
    rw [UInt8.lt_iff_toNat_lt] at hc hnext
    have hsucc : (T.plain + 1).toNat = T.plain.toNat + 1 := by
      cases T <;> rfl
    omega
  rw [plainKey, setLast_append, OrderedMap.rangeLimit_under_open s hnext hgap]
  simp [plainKey]

theorem decode_plainKeys (T : DataType) (es : List (Bytes × Bytes)) :
    (es.map fun e => (db.plainKey T.plain e.1, e.2)).filterMap
      (fun e => (db.decodeScanKey T.plain e.1).toOption) = es.map Prod.fst := by
  rw [List.filterMap_map, ← List.filterMap_eq_map]
  congr 1
  funext e
  simp [decodeScanKey_plainKey, Except.toOption]

theorem scanGeneric_start (T : DataType) {count : ℤ} (hcount : 0 < count) (t : Txn) :
    db.scanGeneric T.plain [] count false none false env s t =
      (.ok (((db.keysOf s T).filter (· ≠ [])).take count.toNat), t) := by
  have hrange : db.buildScanKeyRange T.plain [] false =
      .ok (db.plainKey T.plain [], setLast (db.plainKey T.plain []) (T.plain + 1)) := by
    simp [buildScanKeyRange, encodeScanMinKey, encodeScanMaxKey, encodeScanKey_plain]
    rfl
  simp only [scanGeneric, buildScanIterator, Op.bind_run, Op.lift_run, hrange, Op.range_run,
    Bool.false_eq_true, if_false, rangeLimit_keys, decode_plainKeys, checkScanCount,
    not_le.mpr hcount]
  simp [keysOf, List.filter_map, Function.comp_def]

end

end DB

end LedisDB
