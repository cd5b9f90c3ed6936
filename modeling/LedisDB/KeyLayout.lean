import LedisDB.Keys

/-!
# Prefix-freeness and order of the stored keys

The varint index, the type byte and the length-prefixed user key make the
encodings of different databases, types and keys disjoint, also when one user
key is a front of another or holds separator bytes. Each decoder inverts its
encoder, each half-open start/stop scan meets exactly the entries of its key,
and score keys sort by score.
-/

namespace LedisDB

open List

variable {a b : DB} {T T' : UInt8} {r r' k k' : Bytes}

namespace DB

variable {key : Bytes}

theorem ext (h : a.index = b.index) : a = b := by
  cases a
  cases b
  simpa using h

theorem index_lt_word (db : DB) : db.index < 2 ^ 64 := lt_trans db.index_lt (by decide)

theorem plainKey_inj : a.plainKey T r = b.plainKey T' r' ↔ a = b ∧ T = T' ∧ r = r' := by
  constructor
  · intro h
    obtain ⟨hi, ht⟩ := putUvarint_append_inj a.index_lt_word b.index_lt_word h
    obtain ⟨hT, hr⟩ := cons.inj ht
    exact ⟨ext hi, hT, hr⟩
  · rintro ⟨rfl, rfl, rfl⟩
    rfl

theorem plainKey_append (db : DB) (T : UInt8) (r x : Bytes) :
    db.plainKey T (r ++ x) = db.plainKey T r ++ x := by
  simp [plainKey]

theorem itemKey_append (db : DB) (T : UInt8) (key r x : Bytes) :
    db.itemKey T key (r ++ x) = db.itemKey T key r ++ x := by
  simp [itemKey, plainKey]

theorem itemKey_le_iff (db : DB) (T : UInt8) (key r r' : Bytes) :
    db.itemKey T key r ≤ db.itemKey T key r' ↔ r ≤ r' := by
  rw [← nil_append r, ← nil_append r', itemKey_append, itemKey_append,
    Lexicographic.append_le_append_iff]
  simp

def MaxUint16 : ℕ := 65535

theorem keyField_inj (hk : k.length ≤ MaxUint16) (hk' : k'.length ≤ MaxUint16)
    (h : beBytes 2 k.length ++ (k ++ r) = beBytes 2 k'.length ++ (k' ++ r')) : k = k' ∧ r = r' := by
  unfold MaxUint16 at hk hk'
  obtain ⟨hlen, hrest⟩ := append_inj h (by simp)
  have hl := beBytes_inj (by omega) (by omega) hlen
  exact append_inj hrest hl

theorem itemKey_inj (hk : k.length ≤ MaxUint16) (hk' : k'.length ≤ MaxUint16) :
    a.itemKey T k r = b.itemKey T' k' r' ↔ a = b ∧ T = T' ∧ k = k' ∧ r = r' := by
  constructor
  · intro h
    obtain ⟨hab, hT, hr⟩ := plainKey_inj.mp h
    exact ⟨hab, hT, keyField_inj hk hk' hr⟩
  · rintro ⟨rfl, rfl, rfl, rfl⟩
    rfl

theorem plainKey_prefix (h : a.plainKey T r <+: b.plainKey T' r') : a = b ∧ T = T' ∧ r <+: r' := by
  obtain ⟨x, hx⟩ := h
  rw [← plainKey_append] at hx
  obtain ⟨hab, hT, hr⟩ := plainKey_inj.mp hx
  exact ⟨hab, hT, x, hr⟩

theorem itemKey_prefix (hk : k.length ≤ MaxUint16)
    (hk' : k'.length ≤ MaxUint16) (h : a.itemKey T k r <+: b.itemKey T' k' r') :
    a = b ∧ T = T' ∧ k = k' ∧ r <+: r' := by
  obtain ⟨x, hx⟩ := h
  rw [← itemKey_append] at hx
  obtain ⟨hab, hT, hkk, hr⟩ := (itemKey_inj hk hk').mp hx
  exact ⟨hab, hT, hkk, x, hr⟩

theorem itemKey_prefix_short {t t' : UInt8} {K x : Bytes}
    (hlen : k.length + r.length ≤ MaxUint16) (h : a.itemKey t K x <+: b.itemKey t' k r) :
    a = b ∧ t = t' ∧ K = k ∧ x <+: r := by
  obtain ⟨-, -, hr⟩ := plainKey_prefix h
  have hl := hr.length_le
  simp only [length_append, beBytes_length] at hl
  exact itemKey_prefix (by omega) (by omega) h

theorem ValidKey.le_uint16 (h : ValidKey k) : k.length ≤ MaxUint16 :=
  h.2.trans (by decide)

theorem setLast_append (p : Bytes) (c d : UInt8) : setLast (p ++ [c]) d = p ++ [d] := by
  simp [setLast]

theorem itemKey_cons (db : DB) (T : UInt8) (k : Bytes) (c : UInt8) (x : Bytes) :
    db.itemKey T k (c :: x) = db.itemKey T k [c] ++ x := db.itemKey_append T k [c] x

theorem itemKey_single (db : DB) (T : UInt8) (k : Bytes) (c : UInt8) :
    db.itemKey T k [c] = db.itemKey T k [] ++ [c] := db.itemKey_append T k [] [c]

theorem scan_members (s : Store) (db : DB) (T : UInt8) (k : Bytes) :
    s.rangeLimit ⟨some (db.itemKey T k [58]), some (setLast (db.itemKey T k [58]) 59),
        RangeROpen⟩ ⟨0, -1⟩ .forward =
      (s.under (db.itemKey T k [58])).map (fun e => (db.itemKey T k (58 :: e.1), e.2)) := by
  have hstop : setLast (db.itemKey T k [58]) 59 = db.itemKey T k [] ++ [59] := by
    rw [itemKey_single, setLast_append]
  have hscan := OrderedMap.rangeLimit_under s (p := db.itemKey T k []) (a := 58) (b := 59)
    (by decide) (fun c hc => UInt8.le_of_lt_succ c hc)
  rw [hstop, itemKey_single, hscan]
  apply map_congr_left
  intro e _
  rw [itemKey_cons, itemKey_single]

section
variable (db : DB) (T : UInt8) (r : Bytes)

theorem checkKeyIndex_plainKey :
    db.checkKeyIndex (db.plainKey T r) = .ok db.indexVarBuf.length := by
  simp [checkKeyIndex, plainKey]

theorem plainKey_get (i : ℕ) : (db.plainKey T r)[db.indexVarBuf.length + i]? = (T :: r)[i]? := by
  rw [plainKey, getElem?_append_right (by omega)]
  congr 1
  omega

theorem plainKey_drop (i : ℕ) :
    (db.plainKey T r).drop (db.indexVarBuf.length + i) = (T :: r).drop i := by
  rw [plainKey, drop_append, drop_eq_nil_of_le (by omega), nil_append]
  congr 1
  omega

theorem plainKey_length : (db.plainKey T r).length = db.indexVarBuf.length + (r.length + 1) := by
  simp [plainKey]

theorem itemKey_parts (hk : key.length ≤ MaxUint16) :
    db.checkKeyIndex (db.itemKey T key r) = .ok db.indexVarBuf.length ∧
    (db.itemKey T key r).length = db.indexVarBuf.length + (3 + key.length + r.length) ∧
    (db.itemKey T key r)[db.indexVarBuf.length]? = some T ∧
    beNat (((db.itemKey T key r).drop (db.indexVarBuf.length + 1)).take 2) = key.length ∧
    ((db.itemKey T key r).drop (db.indexVarBuf.length + 3)).take key.length = key ∧
    (∀ i, (db.itemKey T key r)[db.indexVarBuf.length + 3 + key.length + i]? = r[i]?) ∧
    (∀ i, (db.itemKey T key r).drop (db.indexVarBuf.length + 3 + key.length + i) = r.drop i) := by
  have hlen : (beBytes 2 key.length).length = 2 := beBytes_length _ _
  have hdrop3 : (db.itemKey T key r).drop (db.indexVarBuf.length + 3) = key ++ r := by
    rw [itemKey, plainKey_drop]
    simp
  refine ⟨checkKeyIndex_plainKey _ _ _, ?_, ?_, ?_, ?_, ?_, ?_⟩
  · rw [itemKey, plainKey_length]
    simp only [length_append]
    omega
  · exact plainKey_get db T _ 0
  · rw [itemKey, plainKey_drop, drop_succ_cons, drop_zero, take_append_of_le_length
      (by simp), take_of_length_le (by simp)]
    exact beNat_beBytes_of_lt (lt_of_le_of_lt hk (by decide))
  · rw [hdrop3]
    simp
  · intro i
    have h : ((db.itemKey T key r).drop (db.indexVarBuf.length + 3))[key.length + i]? =
        (db.itemKey T key r)[db.indexVarBuf.length + 3 + (key.length + i)]? := getElem?_drop
    rw [hdrop3, getElem?_append_right (by omega)] at h
    rw [show db.indexVarBuf.length + 3 + key.length + i =
      db.indexVarBuf.length + 3 + (key.length + i) by omega, ← h]
    congr 1
    omega
  · intro i
    have h := drop_drop (l := db.itemKey T key r) (i := key.length + i)
      (j := db.indexVarBuf.length + 3)
    rw [hdrop3] at h
    rw [show db.indexVarBuf.length + 3 + key.length + i =
      db.indexVarBuf.length + 3 + (key.length + i) by omega, ← h, drop_append,
      drop_eq_nil_of_le (by omega), nil_append]
    congr 1
    omega

end

theorem decodeMemberKey_itemKey (db : DB) (T : UInt8) (e : Err) (member : Bytes)
    (hk : key.length ≤ MaxUint16) :
    db.decodeMemberKey T e (db.itemKey T key (hashStartSep :: member)) = .ok (key, member) := by
  obtain ⟨hidx, hlen, hT, hkl, hkey, hget, hdrop⟩ := db.itemKey_parts T (hashStartSep :: member) hk
  have hsep := hget 0
  have hmem := hdrop 1
  simp only [Nat.add_zero, getElem?_cons_zero, drop_succ_cons, drop_zero] at hlen hsep hmem
  simp only [decodeMemberKey, hidx, hT, hkl, hkey, hsep, hmem, hlen]
  rw [if_neg (by simp), if_neg (by omega), if_neg (by omega), if_neg (by simp)]

theorem zDecodeSetKey_zEncodeSetKey (db : DB) (member : Bytes) (hk : key.length ≤ MaxUint16) :
    db.zDecodeSetKey (db.zEncodeSetKey key member) = .ok (key, member) := by
  obtain ⟨hidx, hlen, hT, hkl, hkey, hget, hdrop⟩ :=
    db.itemKey_parts ZSetType (zsetStartMemSep :: member) hk
  have hsep := hget 0
  have hmem := hdrop 1
  simp only [Nat.add_zero, getElem?_cons_zero, drop_succ_cons, drop_zero] at hlen hsep hmem
  simp only [zDecodeSetKey, zEncodeSetKey, hidx, hT, hkl, hkey, hsep, hmem, hlen]
  rw [if_neg (by simp), if_neg (by omega), if_neg (by omega), if_neg (by simp)]

theorem toUInt64_toNat_lt (a : Int64) : a.toUInt64.toNat < 256 ^ 8 := by
  simpa using a.toUInt64.toNat_lt

theorem toInt64_beNat_beBytes (w : Int64) :
    (UInt64.ofNat (beNat (beBytes 8 w.toUInt64.toNat))).toInt64 = w := by
  rw [beNat_beBytes_of_lt (toUInt64_toNat_lt w)]
  simp

theorem scoreSep_cases (score : Int64) :
    scoreSep score = zsetNScoreSep ∨ scoreSep score = zsetPScoreSep := by
  unfold scoreSep
  split_ifs
  · exact .inl rfl
  · exact .inr rfl

theorem zDecodeScoreKey_itemKey (db : DB) (sep c : UInt8) (member : Bytes) (score : Int64)
    (hk : key.length ≤ MaxUint16) :
    db.zDecodeScoreKey (db.itemKey ZScoreType key
      (sep :: (beBytes 8 score.toUInt64.toNat ++ c :: member))) =
      if sep ≠ zsetNScoreSep ∧ sep ≠ zsetPScoreSep then .error .errZScoreKey
      else if c ≠ zsetStartMemSep then .error .errZScoreKey
      else .ok (key, member, score) := by
  obtain ⟨hidx, hlen, hT, hkl, hkey, hget, hdrop⟩ := db.itemKey_parts ZScoreType
    (sep :: (beBytes 8 score.toUInt64.toNat ++ c :: member)) hk
  have h8 : (beBytes 8 score.toUInt64.toNat).length = 8 := beBytes_length _ _
  have hsep := hget 0
  have hcolon := hget 9
  have hscore := hdrop 1
  have hmem := hdrop 10
  simp only [Nat.add_zero] at hsep
  rw [drop_succ_cons, drop_append,
    show (beBytes 8 score.toUInt64.toNat).drop 9 = [] from drop_eq_nil_of_le (by omega)] at hmem
  rw [drop_succ_cons, drop_zero] at hscore
  simp only [length_cons, length_append] at hlen
  have hsc : (UInt64.ofNat (beNat ((beBytes 8 score.toUInt64.toNat ++
      c :: member).take 8))).toInt64 = score := by
    rw [take_append_of_le_length (by omega), take_of_length_le (by omega), toInt64_beNat_beBytes]
  simp only [zDecodeScoreKey, hidx, hT, hkl, hkey, hsep, hmem, hscore, hsc, hcolon, hlen]
  rw [if_neg (by simp), if_neg (by omega), if_neg (by omega), if_neg (by omega)]
  simp

theorem zDecodeScoreKey_zEncodeScoreKey (db : DB) (member : Bytes) (score : Int64)
    (hk : key.length ≤ MaxUint16) :
    db.zDecodeScoreKey (db.zEncodeScoreKey key member score) = .ok (key, member, score) := by
  rw [zEncodeScoreKey, zDecodeScoreKey_itemKey db _ _ member score hk, if_neg, if_neg (by simp)]
  rcases scoreSep_cases score with h | h <;> simp [h]

theorem expDecodeTimeKey_expEncodeTimeKey (db : DB) (dataType : UInt8) (key : Bytes) (w : Int64) :
    db.expDecodeTimeKey (db.expEncodeTimeKey dataType key w) = .ok (dataType, key, w) := by
  have h8 : (beBytes 8 w.toUInt64.toNat).length = 8 := beBytes_length _ _
  have hT := plainKey_get db ExpTimeType (beBytes 8 w.toUInt64.toNat ++ dataType :: key) 0
  have hdt := plainKey_get db ExpTimeType (beBytes 8 w.toUInt64.toNat ++ dataType :: key) 9
  have hwhen := plainKey_drop db ExpTimeType (beBytes 8 w.toUInt64.toNat ++ dataType :: key) 1
  have hkey := plainKey_drop db ExpTimeType (beBytes 8 w.toUInt64.toNat ++ dataType :: key) 10
  rw [getElem?_cons_succ, getElem?_append_right (by omega), h8] at hdt
  simp only [Nat.sub_self, getElem?_cons_zero, Nat.add_zero] at hdt hT
  rw [drop_succ_cons, drop_zero] at hwhen
  rw [drop_succ_cons, drop_append, h8,
    show (beBytes 8 w.toUInt64.toNat).drop 9 = [] from drop_eq_nil_of_le (by omega)] at hkey
  simp only [nil_append, drop_succ_cons, drop_zero] at hkey
  have hw : (UInt64.ofNat (beNat ((beBytes 8 w.toUInt64.toNat ++ dataType :: key).take 8))).toInt64
      = w := by
    rw [take_append_of_le_length (by omega), take_of_length_le (by omega), toInt64_beNat_beBytes]
  simp only [expDecodeTimeKey, expEncodeTimeKey, checkKeyIndex_plainKey, hT, hdt, hwhen, hkey, hw,
    plainKey_length]
  rw [if_neg (by simp; omega)]

theorem toInt_eq_toNat (a : Int64) :
    a.toInt = if 2 * a.toUInt64.toNat < 2 ^ 64 then (a.toUInt64.toNat : ℤ)
      else (a.toUInt64.toNat : ℤ) - 2 ^ 64 := by
  have h := BitVec.toInt_eq_toNat_cond a.toBitVec
  exact_mod_cast h

theorem score_lt_iff {a b : Int64} (x y : Bytes) :
    (scoreSep a :: (beBytes 8 a.toUInt64.toNat ++ x) : Bytes) <
      scoreSep b :: (beBytes 8 b.toUInt64.toNat ++ y) ↔ a < b ∨ a = b ∧ x < y := by
  rw [cons_lt_cons_iff, beBytes_append_lt_iff (toUInt64_toNat_lt a) (toUInt64_toNat_lt b),
    Int64.lt_iff_toInt_lt, ← Int64.toInt_inj]
  have ha := toInt_eq_toNat a
  have hb := toInt_eq_toNat b
  have ha' := toUInt64_toNat_lt a
  have hb' := toUInt64_toNat_lt b
  have hnp : zsetNScoreSep < zsetPScoreSep := by decide
  have hpn : ¬ zsetPScoreSep < zsetNScoreSep := by decide
  have hne : zsetPScoreSep ≠ zsetNScoreSep := by decide
  have hsa : scoreSep a = if a.toInt < 0 then zsetNScoreSep else zsetPScoreSep := by
    simp [scoreSep, Int64.lt_iff_toInt_lt]
  have hsb : scoreSep b = if b.toInt < 0 then zsetNScoreSep else zsetPScoreSep := by
    simp [scoreSep, Int64.lt_iff_toInt_lt]
  -- within one sign, the two's complement numerals are ordered as the scores
  have hsame : (a.toInt < 0 ↔ b.toInt < 0) →
      (a.toUInt64.toNat < b.toUInt64.toNat ↔ a.toInt < b.toInt) ∧
      (a.toUInt64.toNat = b.toUInt64.toNat ↔ a.toInt = b.toInt) := by
    split_ifs at ha hb <;> omega
  rw [hsa, hsb]
  by_cases h1 : a.toInt < 0 <;> by_cases h2 : b.toInt < 0
  · simp [h1, h2, hsame (by simp [h1, h2])]
  · simp only [h1, h2, if_true, if_false, hnp, true_or, true_iff]
    omega
  · simp only [h1, h2, if_true, if_false, hpn, hne, false_and, or_false, false_iff]
    omega
  · simp only [h1, h2, lt_irrefl, false_or, true_and, hsame (by simp [h1, h2])]

end DB

end LedisDB
