import LedisDB.Scan

/-!
# The key codecs on arbitrary bytes

Score keys and time keys sort by what they encode. The decoders invert the
encoders; on other byte strings `hDecodeHashKey` and `sDecodeSetKey` read a
separator that may lie behind the end, `zDecodeSetKey` compares the length two
bytes too early, and `zDecodeScoreKey` takes either sign separator for any score.
-/

namespace LedisDB

open List

namespace DB

def lDecodeListKey (db : DB) (ek : Bytes) : Except Err (Bytes × Int32) :=
  match db.checkKeyIndex ek with
  | .error err => .error err
  | .ok pos =>
    if pos + 1 > ek.length ∨ ek[pos]? ≠ some ListType then .error .errListKey
    else if pos + 1 + 2 > ek.length then .error .errListKey
    else
      let keyLen := beNat ((ek.drop (pos + 1)).take 2)
      let pos := pos + 3
      if keyLen + pos + 4 ≠ ek.length then .error .errListKey
      else .ok ((ek.drop pos).take keyLen,
        (UInt32.ofNat (beNat ((ek.drop (pos + keyLen)).take 4))).toInt32)

def expDecodeMetaKey (db : DB) (mk : Bytes) : Except Err (UInt8 × Bytes) :=
  match db.checkKeyIndex mk with
  | .error err => .error err
  | .ok pos =>
    if pos + 2 > mk.length ∨ mk[pos]? ≠ some ExpMetaType then .error .errExpMetaKey
    else match mk[pos + 1]? with
      | none => .error .panic
      | some dataType => .ok (dataType, mk.drop (pos + 2))

theorem plainKey_lt_iff (db : DB) (T : UInt8) (r r' : Bytes) :
    db.plainKey T r < db.plainKey T r' ↔ r < r' := by
  rw [plainKey, plainKey, Lexicographic.append_lt_append_iff]
  simp

theorem itemKey_lt_iff (db : DB) (T : UInt8) (key r r' : Bytes) :
    db.itemKey T key r < db.itemKey T key r' ↔ r < r' := by
  rw [itemKey, itemKey, plainKey_lt_iff, Lexicographic.append_lt_append_iff,
    Lexicographic.append_lt_append_iff]

theorem zEncodeStopScoreKey_eq (db : DB) (key : Bytes) (b : Int64) :
    db.zEncodeStopScoreKey key b = db.itemKey ZScoreType key
      (scoreSep b :: (beBytes 8 b.toUInt64.toNat ++ [zsetStopMemSep])) := by
  rw [zEncodeStopScoreKey, zEncodeScoreKey, ← cons_append, itemKey_append, setLast_append,
    ← itemKey_append]
  rfl

theorem toUInt64_lt_of_nonneg {t t' : Int64} (h0 : 0 ≤ t) (h : t < t') :
    t.toUInt64.toNat < t'.toUInt64.toNat := by
  have h0' := Int64.le_iff_toInt_le.mp h0
  have hlt := Int64.lt_iff_toInt_lt.mp h
  have ht := toInt_eq_toNat t
  have ht' := toInt_eq_toNat t'
  have := toUInt64_toNat_lt t
  rw [show (0 : Int64).toInt = 0 from rfl] at h0'
  split_ifs at ht ht' <;> omega

theorem keys_preserve_order (db : DB) (key : Bytes) :
    (∀ (s s' : Int64) (m m' : Bytes),
      db.zEncodeScoreKey key m s < db.zEncodeScoreKey key m' s' ↔ s < s' ∨ s = s' ∧ m < m') ∧
    (∀ (b s : Int64) (m : Bytes), m ≠ [] →
      (db.zEncodeStartScoreKey key b < db.zEncodeScoreKey key m s ↔ b ≤ s) ∧
      (db.zEncodeScoreKey key m s < db.zEncodeStopScoreKey key b ↔ s ≤ b)) ∧
    ∀ (t t' : Int64) (T T' : UInt8) (k k' : Bytes), 0 ≤ t → t < t' →
      db.expEncodeTimeKey T k t < db.expEncodeTimeKey T' k' t' := by
  have hle : ∀ a b : Int64, a < b ∨ a = b ↔ a ≤ b := fun a b => by
    rw [Int64.le_iff_lt_or_eq]
  refine ⟨fun s s' m m' => ?_, fun b s m hm => ⟨?_, ?_⟩, fun t t' T T' k k' h0 h => ?_⟩
  · rw [zEncodeScoreKey, zEncodeScoreKey, itemKey_lt_iff, score_lt_iff]
    simp
  · rw [zEncodeStartScoreKey, zEncodeScoreKey, zEncodeScoreKey, itemKey_lt_iff, score_lt_iff, ← hle]
    have hpos : [] < m := by
      cases m with
      | nil => exact absurd rfl hm
      | cons c m => exact List.nil_lt_cons c m
    simp [hpos]
  · rw [zEncodeStopScoreKey_eq, zEncodeScoreKey, itemKey_lt_iff, score_lt_iff,
      List.cons_lt_cons_iff, ← hle]
    have hsep : zsetStartMemSep < zsetStopMemSep := by decide
    simp [hsep]
  · rw [expEncodeTimeKey, expEncodeTimeKey, plainKey_lt_iff,
      beBytes_append_lt_iff (toUInt64_toNat_lt t) (toUInt64_toNat_lt t')]
    exact .inl (toUInt64_lt_of_nonneg h0 h)

theorem keys_preserve_order_signs :
    let db : DB := ⟨0, by decide⟩
    db.zEncodeScoreKey [107] [109] (-1) < db.zEncodeScoreKey [107] [97] 0 ∧
    db.zEncodeScoreKey [107] [97] 0 < db.zEncodeStopScoreKey [107] 0 ∧
    db.expEncodeTimeKey HashType [107] 1 < db.expEncodeTimeKey KVType [107] 2 :=
  ⟨((keys_preserve_order _ [107]).1 _ _ _ _).mpr (Or.inl (by decide)),
    ((keys_preserve_order _ [107]).2.1 0 0 [97] (by decide)).2.mpr (by decide),
    (keys_preserve_order _ [107]).2.2 1 2 _ _ _ _ (by decide) (by decide)⟩

inductive Decoder
  | hash
  | set
  | zset
  | score
  | list
  | time
  | expMeta
  | lmeta
  | hsize
  | ssize
  | zsize

@[reducible] def Decoder.Parts : Decoder → Type
  | .hash | .set | .zset => Bytes × Bytes
  | .score => Bytes × Bytes × Int64
  | .list => Bytes × Int32
  | .time => UInt8 × Bytes × Int64
  | .expMeta => UInt8 × Bytes
  | .lmeta | .hsize | .ssize | .zsize => Bytes

def Decoder.key : (d : Decoder) → d.Parts → Bytes
  | .hash, p | .set, p | .zset, p | .score, p | .list, p => p.1
  | .time, p => p.2.1
  | .expMeta, p => p.2
  | .lmeta, p | .hsize, p | .ssize, p | .zsize, p => p

def encode (db : DB) : (d : Decoder) → d.Parts → Bytes
  | .hash, p => db.hEncodeHashKey p.1 p.2
  | .set, p => db.sEncodeSetKey p.1 p.2
  | .zset, p => db.zEncodeSetKey p.1 p.2
  | .score, p => db.zEncodeScoreKey p.1 p.2.1 p.2.2
  | .list, p => db.lEncodeListKey p.1 p.2
  | .time, p => db.expEncodeTimeKey p.1 p.2.1 p.2.2
  | .expMeta, p => db.expEncodeMetaKey p.1 p.2
  | .lmeta, p => db.lEncodeMetaKey p
  | .hsize, p => db.hEncodeSizeKey p
  | .ssize, p => db.sEncodeSizeKey p
  | .zsize, p => db.zEncodeSizeKey p

def decode (db : DB) : (d : Decoder) → Bytes → Except Err d.Parts
  | .hash => db.hDecodeHashKey
  | .set => db.sDecodeSetKey
  | .zset => db.zDecodeSetKey
  | .score => db.zDecodeScoreKey
  | .list => db.lDecodeListKey
  | .time => db.expDecodeTimeKey
  | .expMeta => db.expDecodeMetaKey
  | .lmeta => db.lDecodeMetaKey
  | .hsize => db.hDecodeSizeKey
  | .ssize => db.sDecodeSizeKey
  | .zsize => db.zDecodeSizeKey

def Inverts (db : DB) (d : Decoder) (ek : Bytes) : Prop :=
  match db.decode d ek with
  | .error e => e ≠ .panic
  | .ok p => db.encode d p = ek

/-- A key whose length field says as many bytes as follow it, or up to `gap` more. -/
def ShortKey (db : DB) (T : UInt8) (gap : ℕ) (ek : Bytes) : Prop :=
  ∃ n rest, n ≤ MaxUint16 ∧ rest.length ≤ n ∧ n ≤ rest.length + gap ∧
    ek = db.plainKey T (beBytes 2 n ++ rest)

/-- A hash or set key that ends behind the user key; a zset key that ends behind it or up to two
bytes before; a score key whose separator is that of the other sign. -/
def Misread (db : DB) : Decoder → Bytes → Prop
  | .hash, ek => db.ShortKey HashType 0 ek
  | .set, ek => db.ShortKey SetType 0 ek
  | .zset, ek => db.ShortKey ZSetType 2 ek
  | .score, ek => ∃ (key member : Bytes) (score : Int64) (sep : UInt8), key.length ≤ MaxUint16 ∧
      (sep = zsetNScoreSep ∨ sep = zsetPScoreSep) ∧ sep ≠ scoreSep score ∧
      ek = db.itemKey ZScoreType key
        (sep :: (beBytes 8 score.toUInt64.toNat ++ zsetStartMemSep :: member))
  | _, _ => False

theorem beBytes_beNat (b : Bytes) : beBytes b.length (beNat b) = b := by
  induction b with
  | nil => rfl
  | cons c b ih =>
    have hlt := beNat_lt b
    have hpos : 0 < 256 ^ b.length := Nat.pow_pos (by decide)
    rw [length_cons, beBytes, beNat, Nat.mul_comm, Nat.mul_add_div hpos,
      Nat.div_eq_of_lt hlt, Nat.add_zero, UInt8.ofNat_toNat, ← beBytes_mod, Nat.mul_add_mod,
      Nat.mod_eq_of_lt hlt, ih]

theorem exists_beBytes {w : ℕ} {r : Bytes} (h : w ≤ r.length) :
    ∃ n rest, n < 256 ^ w ∧ r = beBytes w n ++ rest := by
  have hlen := length_take_of_le h
  refine ⟨beNat (r.take w), r.drop w, ?_, ?_⟩
  · have := beNat_lt (r.take w)
    rwa [hlen] at this
  · have := beBytes_beNat (r.take w)
    rw [hlen] at this
    rw [this, take_append_drop]

theorem plainKey_cases (db : DB) (T : UInt8) (ek : Bytes) :
    (∃ e, e ≠ .panic ∧ db.checkKeyIndex ek = .error e) ∨
    (db.checkKeyIndex ek = .ok db.indexVarBuf.length ∧
      (ek.length < db.indexVarBuf.length + 1 ∨ ek[db.indexVarBuf.length]? ≠ some T)) ∨
    ∃ r, ek = db.plainKey T r := by
  unfold checkKeyIndex
  split_ifs with hlen hbuf
  · exact .inl ⟨_, by decide, rfl⟩
  · exact .inl ⟨_, by decide, rfl⟩
  · refine .inr ?_
    by_cases hT : ek[db.indexVarBuf.length]? = some T
    · refine .inr ⟨ek.drop (db.indexVarBuf.length + 1), ?_⟩
      obtain ⟨hlt, hget⟩ := List.getElem?_eq_some_iff.mp hT
      rw [not_not] at hbuf
      calc ek = ek.take db.indexVarBuf.length ++ ek.drop db.indexVarBuf.length :=
            (take_append_drop _ _).symm
        _ = _ := by rw [← hbuf, drop_eq_getElem_cons hlt, hget, plainKey]
    · exact .inl ⟨rfl, .inr hT⟩

section
variable {db : DB} {e : Err} {ek rest r key : Bytes}

def decodeItem {α : Type} (db : DB) (T : UInt8) (e : Err) (ek : Bytes)
    (body : ℕ → ℕ → Except Err α) : Except Err α :=
  match db.checkKeyIndex ek with
  | .error err => .error err
  | .ok pos =>
    if pos + 1 > ek.length ∨ ek[pos]? ≠ some T then .error e
    else if pos + 1 + 2 > ek.length then .error e
    else body (beNat ((ek.drop (pos + 1)).take 2)) pos

theorem plainKey_head (T : UInt8) (r : Bytes) :
    ¬ (db.indexVarBuf.length + 1 > (db.plainKey T r).length ∨
      (db.plainKey T r)[db.indexVarBuf.length]? ≠ some T) := by
  rw [plainKey_length, show (db.plainKey T r)[db.indexVarBuf.length]? = some T from
    plainKey_get db T r 0]
  simp

theorem decodeItem_keyField {α : Type} (T : UInt8) (e : Err) {n : ℕ} (hn : n ≤ MaxUint16)
    (rest : Bytes) (body : ℕ → ℕ → Except Err α) :
    (db.plainKey T (beBytes 2 n ++ rest)).length = db.indexVarBuf.length + 3 + rest.length ∧
    db.decodeItem T e (db.plainKey T (beBytes 2 n ++ rest)) body =
      body n db.indexVarBuf.length := by
  have hlen : (db.plainKey T (beBytes 2 n ++ rest)).length =
      db.indexVarBuf.length + 3 + rest.length := by
    rw [plainKey_length, length_append, beBytes_length]
    omega
  have hfield : beNat (((db.plainKey T (beBytes 2 n ++ rest)).drop
      (db.indexVarBuf.length + 1)).take 2) = n := by
    rw [plainKey_drop, drop_succ_cons, drop_zero, take_left' (by simp)]
    exact beNat_beBytes_of_lt (lt_of_le_of_lt hn (by decide))
  refine ⟨hlen, ?_⟩
  rw [decodeItem, checkKeyIndex_plainKey]
  dsimp only
  rw [if_neg (plainKey_head T _), if_neg (by rw [hlen]; omega), hfield]

theorem decodeItem_cases {α : Type} (T : UInt8) (he : e ≠ .panic) (ek : Bytes)
    (body : ℕ → ℕ → Except Err α) :
    (∃ e', e' ≠ .panic ∧ db.decodeItem T e ek body = .error e') ∨
    ∃ n rest, n ≤ MaxUint16 ∧ ek = db.plainKey T (beBytes 2 n ++ rest) ∧
      ek.length = db.indexVarBuf.length + 3 + rest.length ∧
      db.decodeItem T e ek body = body n db.indexVarBuf.length := by
  rcases plainKey_cases db T ek with ⟨e', he', h⟩ | ⟨h, hT⟩ | ⟨r, rfl⟩
  · exact .inl ⟨e', he', by rw [decodeItem, h]⟩
  · refine .inl ⟨e, he, ?_⟩
    rw [decodeItem, h]
    exact if_pos hT
  by_cases hr : r.length < 2
  · refine .inl ⟨e, he, ?_⟩
    rw [decodeItem, checkKeyIndex_plainKey]
    dsimp only
    rw [if_neg (plainKey_head T r), if_pos (by rw [plainKey_length]; omega)]
  · obtain ⟨n, rest, hn, rfl⟩ := exists_beBytes (not_lt.mp hr)
    have hn' := Nat.le_of_lt_succ hn
    exact .inr ⟨n, rest, hn', rfl, decodeItem_keyField T e hn' rest body⟩

theorem exists_key {n : ℕ} (h : n ≤ rest.length) : ∃ key r, key.length = n ∧ rest = key ++ r :=
  ⟨rest.take n, rest.drop n, length_take_of_le h, (take_append_drop n rest).symm⟩

/-- `decodeMemberKey`, and `zDecodeSetKey` with a `gap` of two bytes. -/
def memberItem (db : DB) (T sep : UInt8) (e : Err) (gap : ℕ) (ek : Bytes) :
    Except Err (Bytes × Bytes) :=
  db.decodeItem T e ek fun keyLen pos =>
    if keyLen + (pos + (3 - gap)) > ek.length then .error e
    else match ek[pos + 3 + keyLen]? with
      | none => .error .panic
      | some c =>
        if c ≠ sep then .error e
        else .ok ((ek.drop (pos + 3)).take keyLen, ek.drop (pos + 3 + keyLen + 1))

theorem memberItem_cases {gap : ℕ} (hgap : gap ≤ 2) (T sep : UInt8) (he : e ≠ .panic) (ek : Bytes) :
    (∃ e', e' ≠ .panic ∧ db.memberItem T sep e gap ek = .error e') ∨ db.ShortKey T gap ek ∨
    ∃ key m, key.length ≤ MaxUint16 ∧ ek = db.itemKey T key (sep :: m) := by
  unfold memberItem
  rcases @decodeItem_cases db e _ T he ek _ with h | ⟨n, rest, hn, hek, hlen, hrun⟩
  · exact .inl h
  by_cases hlong : rest.length + gap < n
  · exact .inl ⟨e, he, hrun.trans (if_pos (by omega))⟩
  by_cases hrest : rest.length ≤ n
  · exact .inr (.inl ⟨n, rest, hn, hrest, not_lt.mp hlong, hek⟩)
  · obtain ⟨key, r, rfl, rfl⟩ := exists_key (not_le.mp hrest).le
    rw [← itemKey] at hek
    cases r with
    | nil => simp at hrest
    | cons c m =>
      by_cases hc : c = sep
      · exact .inr (.inr ⟨key, m, hn, by rw [hek, hc]⟩)
      · have hget : ek[db.indexVarBuf.length + 3 + key.length]? = some c := by
          rw [hek]
          exact (itemKey_parts db T (c :: m) hn).2.2.2.2.2.1 0
        refine .inl ⟨e, he, ?_⟩
        rw [hrun, if_neg (by omega), hget]
        exact if_pos hc

theorem ShortKey.panics {T : UInt8} {gap : ℕ} (h : db.ShortKey T gap ek) (hgap : gap ≤ 2)
    (sep : UInt8) (e : Err) : db.memberItem T sep e gap ek = .error .panic := by
  obtain ⟨n, rest, hn, hle, hlt, rfl⟩ := h
  obtain ⟨hlen, hrun⟩ := @decodeItem_keyField db _ T e n hn rest _
  rw [memberItem, hrun, if_neg (by omega), getElem?_eq_none (by omega)]

theorem exists_score (h : 10 ≤ r.length) : ∃ (sep c : UInt8) (w : Int64) (m : Bytes),
    r = sep :: (beBytes 8 w.toUInt64.toNat ++ c :: m) := by
  cases r with
  | nil => simp at h
  | cons sep r =>
    obtain ⟨n, r, hn, rfl⟩ := @exists_beBytes 8 r (by rw [length_cons] at h; omega)
    cases r with
    | nil => simp at h
    | cons c m =>
      refine ⟨sep, c, (UInt64.ofNat n).toInt64, m, ?_⟩
      rw [UInt64.toUInt64_toInt64, UInt64.toNat_ofNat_of_lt' hn]

theorem zDecodeScoreKey_cases (ek : Bytes) :
    (∃ e', e' ≠ .panic ∧ db.zDecodeScoreKey ek = .error e') ∨
    ∃ (key m : Bytes) (w : Int64) (sep : UInt8), key.length ≤ MaxUint16 ∧
      (sep = zsetNScoreSep ∨ sep = zsetPScoreSep) ∧ ek = db.itemKey ZScoreType key
        (sep :: (beBytes 8 w.toUInt64.toNat ++ zsetStartMemSep :: m)) := by
  rcases @decodeItem_cases db .errZScoreKey _ ZScoreType (by decide) ek fun keyLen pos =>
    if keyLen + (pos + 3) > ek.length then .error .errZScoreKey
    else if pos + 3 + keyLen + 10 > ek.length then .error .errZScoreKey
    else if ek[pos + 3 + keyLen]? ≠ some zsetNScoreSep ∧
        ek[pos + 3 + keyLen]? ≠ some zsetPScoreSep then .error .errZScoreKey
    else if ek[pos + 3 + keyLen + 9]? ≠ some zsetStartMemSep then .error .errZScoreKey
    else .ok ((ek.drop (pos + 3)).take keyLen, ek.drop (pos + 3 + keyLen + 10),
      (UInt64.ofNat (beNat ((ek.drop (pos + 3 + keyLen + 1)).take 8))).toInt64) with
    h | ⟨n, rest, hn, hek, hlen, hrun⟩
  · exact .inl h
  by_cases hrest : rest.length < n
  · exact .inl ⟨.errZScoreKey, by decide, hrun.trans (if_pos (by omega))⟩
  obtain ⟨key, r, rfl, rfl⟩ := exists_key (not_lt.mp hrest)
  rw [length_append] at hlen
  rw [if_neg (by omega)] at hrun
  by_cases hr : r.length < 10
  · exact .inl ⟨.errZScoreKey, by decide, hrun.trans (if_pos (by omega))⟩
  obtain ⟨sep, c, w, m, rfl⟩ := exists_score (not_lt.mp hr)
  rw [← itemKey] at hek
  by_cases hs : sep = zsetNScoreSep ∨ sep = zsetPScoreSep
  · by_cases hc : c = zsetStartMemSep
    · exact .inr ⟨key, m, w, sep, hn, hs, by rw [hek, hc]⟩
    · refine .inl ⟨.errZScoreKey, by decide, ?_⟩
      rw [hek, zDecodeScoreKey_itemKey db sep c m w hn, if_neg (by tauto), if_pos hc]
  · refine .inl ⟨.errZScoreKey, by decide, ?_⟩
    rw [hek, zDecodeScoreKey_itemKey db sep c m w hn, if_pos (not_or.mp hs)]

theorem lDecodeListKey_cases (ek : Bytes) :
    (∃ e', e' ≠ .panic ∧ db.lDecodeListKey ek = .error e') ∨
    ∃ key seq, key.length ≤ MaxUint16 ∧ ek = db.lEncodeListKey key seq := by
  rcases @decodeItem_cases db .errListKey _ ListType (by decide) ek fun keyLen pos =>
    if keyLen + (pos + 3) + 4 ≠ ek.length then .error .errListKey
    else .ok ((ek.drop (pos + 3)).take keyLen,
      (UInt32.ofNat (beNat ((ek.drop (pos + 3 + keyLen)).take 4))).toInt32) with
    h | ⟨n, rest, hn, hek, hlen, hrun⟩
  · exact .inl h
  change db.lDecodeListKey ek = _ at hrun
  rw [hrun]
  by_cases hrest : rest.length = n + 4
  · obtain ⟨key, r, rfl, rfl⟩ := exists_key (show n ≤ rest.length by omega)
    rw [length_append] at hrest
    obtain ⟨k, tail, hk, rfl⟩ := @exists_beBytes 4 r (by omega)
    rw [length_append, beBytes_length] at hrest
    have htail : tail = [] := length_eq_zero_iff.mp (by omega)
    refine .inr ⟨key, (UInt32.ofNat k).toInt32, hn, ?_⟩
    rw [hek, htail, append_nil, lEncodeListKey, itemKey, UInt32.toUInt32_toInt32,
      UInt32.toNat_ofNat_of_lt' hk]
  · exact .inl ⟨.errListKey, by decide, if_pos (by omega)⟩

theorem lDecodeListKey_lEncodeListKey (seq : Int32) (hk : key.length ≤ MaxUint16) :
    db.lDecodeListKey (db.lEncodeListKey key seq) = .ok (key, seq) := by
  obtain ⟨h1, h2, h3, h4, h5, -, h7⟩ := itemKey_parts db ListType (beBytes 4 seq.toUInt32.toNat) hk
  have hdrop := h7 0
  rw [Nat.add_zero, drop_zero] at hdrop
  rw [beBytes_length] at h2
  simp only [lDecodeListKey, lEncodeListKey, h1, h2, h3, h4, h5, hdrop]
  rw [if_neg (by simp), if_neg (by omega), if_neg (by omega),
    take_of_length_le (by simp), beNat_beBytes_of_lt seq.toUInt32.toNat_lt,
    UInt32.ofNat_toNat, Int32.toInt32_toUInt32]

theorem expDecodeTimeKey_cases (ek : Bytes) :
    (∃ e', e' ≠ .panic ∧ db.expDecodeTimeKey ek = .error e') ∨
    ∃ dataType key w, ek = db.expEncodeTimeKey dataType key w := by
  rcases plainKey_cases db ExpTimeType ek with ⟨e', he', h⟩ | ⟨h, hT⟩ | ⟨r, rfl⟩
  · exact .inl ⟨e', he', by simp [expDecodeTimeKey, h]⟩
  · refine .inl ⟨.errExpTimeKey, by decide, ?_⟩
    simp only [expDecodeTimeKey, h]
    exact if_pos (hT.imp_left fun hlt => by omega)
  by_cases hr : r.length < 9
  · refine .inl ⟨.errExpTimeKey, by decide, ?_⟩
    simp only [expDecodeTimeKey, checkKeyIndex_plainKey]
    exact if_pos (.inl (by rw [plainKey_length]; omega))
  · obtain ⟨n, rest, hn, rfl⟩ := @exists_beBytes 8 r (by omega)
    cases rest with
    | nil => simp at hr
    | cons dataType key =>
      refine .inr ⟨dataType, key, (UInt64.ofNat n).toInt64, ?_⟩
      rw [expEncodeTimeKey, UInt64.toUInt64_toInt64, UInt64.toNat_ofNat_of_lt' hn]

theorem expDecodeMetaKey_expEncodeMetaKey (dataType : UInt8) (key : Bytes) :
    db.expDecodeMetaKey (db.expEncodeMetaKey dataType key) = .ok (dataType, key) := by
  rw [expDecodeMetaKey, expEncodeMetaKey, checkKeyIndex_plainKey]
  dsimp only
  rw [if_neg, plainKey_get, plainKey_drop]
  · rfl
  · rw [plainKey_length, show (db.plainKey ExpMetaType (dataType :: key))[db.indexVarBuf.length]? =
      some ExpMetaType from plainKey_get db _ _ 0]
    simp

theorem expDecodeMetaKey_cases (ek : Bytes) :
    (∃ e', e' ≠ .panic ∧ db.expDecodeMetaKey ek = .error e') ∨
    ∃ dataType key, ek = db.expEncodeMetaKey dataType key := by
  rcases plainKey_cases db ExpMetaType ek with ⟨e', he', h⟩ | ⟨h, hT⟩ | ⟨r, rfl⟩
  · exact .inl ⟨e', he', by simp [expDecodeMetaKey, h]⟩
  · refine .inl ⟨.errExpMetaKey, by decide, ?_⟩
    simp only [expDecodeMetaKey, h]
    exact if_pos (hT.imp_left fun hlt => by omega)
  cases r with
  | nil =>
    refine .inl ⟨.errExpMetaKey, by decide, ?_⟩
    simp only [expDecodeMetaKey, checkKeyIndex_plainKey]
    exact if_pos (.inl (by rw [plainKey_length]; simp))
  | cons dataType key => exact .inr ⟨dataType, key, rfl⟩

theorem decodePlainKey_cases (T : UInt8) (he : e ≠ .panic) (ek : Bytes) :
    (∃ e', e' ≠ .panic ∧ db.decodePlainKey T e ek = .error e') ∨ ∃ key, ek = db.plainKey T key := by
  rcases plainKey_cases db T ek with ⟨e', he', h⟩ | ⟨h, hT⟩ | h
  · exact .inl ⟨e', he', by simp [decodePlainKey, h]⟩
  · refine .inl ⟨e, he, ?_⟩
    simp only [decodePlainKey, h]
    exact if_pos hT
  · exact .inr h

theorem decode_encode (d : Decoder) (p : d.Parts) (hk : (d.key p).length ≤ MaxUint16) :
    db.decode d (db.encode d p) = .ok p := by
  cases d with
  | hash => exact decodeMemberKey_itemKey db HashType .errHashKey p.2 hk
  | set => exact decodeMemberKey_itemKey db SetType .errSetKey p.2 hk
  | zset => exact zDecodeSetKey_zEncodeSetKey db p.2 hk
  | score => exact zDecodeScoreKey_zEncodeScoreKey db p.2.1 p.2.2 hk
  | list => exact lDecodeListKey_lEncodeListKey p.2 hk
  | time => exact expDecodeTimeKey_expEncodeTimeKey db p.1 p.2.1 p.2.2
  | expMeta => exact expDecodeMetaKey_expEncodeMetaKey p.1 p.2
  | _ => exact decodePlainKey_plainKey _ _ p

theorem Misread.not_inverts {d : Decoder} (h : db.Misread d ek) : ¬ db.Inverts d ek := by
  unfold Inverts
  cases d with
  | hash =>
    rw [show db.decode .hash ek = .error .panic from h.panics (by decide) hashStartSep _]
    exact fun h => h rfl
  | set =>
    rw [show db.decode .set ek = .error .panic from h.panics (by decide) hashStartSep _]
    exact fun h => h rfl
  | zset =>
    rw [show db.decode .zset ek = .error .panic from h.panics (by decide) zsetStartMemSep _]
    exact fun h => h rfl
  | score =>
    obtain ⟨key, m, w, sep, hk, hs, hne, rfl⟩ := h
    have hdec := zDecodeScoreKey_itemKey db sep zsetStartMemSep m w hk
    rw [if_neg (by tauto)] at hdec
    rw [show db.decode .score _ = .ok (key, m, w) from hdec]
    intro heq
    have hcons := ((itemKey_inj hk hk).mp heq).2.2.2
    exact hne (cons.inj hcons).1.symm
  | _ => exact h.elim

theorem decode_cases (d : Decoder) (ek : Bytes) :
    (∃ e, e ≠ .panic ∧ db.decode d ek = .error e) ∨ db.Misread d ek ∨
      ∃ p, ek = db.encode d p ∧ db.decode d ek = .ok p := by
  cases d with
  | hash =>
    refine (@memberItem_cases db .errHashKey 0 (by decide) HashType hashStartSep (by decide)
      ek).imp_right (Or.imp_right ?_)
    rintro ⟨key, m, hk, rfl⟩
    exact ⟨(key, m), rfl, decode_encode .hash (key, m) hk⟩
  | set =>
    refine (@memberItem_cases db .errSetKey 0 (by decide) SetType hashStartSep (by decide)
      ek).imp_right (Or.imp_right ?_)
    rintro ⟨key, m, hk, rfl⟩
    exact ⟨(key, m), rfl, decode_encode .set (key, m) hk⟩
  | zset =>
    refine (@memberItem_cases db .errZSetKey 2 (by decide) ZSetType zsetStartMemSep (by decide)
      ek).imp_right (Or.imp_right ?_)
    rintro ⟨key, m, hk, rfl⟩
    exact ⟨(key, m), rfl, decode_encode .zset (key, m) hk⟩
  | score =>
    refine (zDecodeScoreKey_cases ek).imp_right ?_
    rintro ⟨key, m, w, sep, hk, hs, rfl⟩
    by_cases hsep : sep = scoreSep w
    · subst hsep
      exact .inr ⟨(key, m, w), rfl, decode_encode .score (key, m, w) hk⟩
    · exact .inl ⟨key, m, w, sep, hk, hs, hsep, rfl⟩
  | list =>
    refine (lDecodeListKey_cases ek).imp_right fun h => .inr ?_
    obtain ⟨key, seq, hk, rfl⟩ := h
    exact ⟨(key, seq), rfl, decode_encode .list (key, seq) hk⟩
  | time =>
    refine (expDecodeTimeKey_cases ek).imp_right fun h => .inr ?_
    obtain ⟨dataType, key, w, rfl⟩ := h
    exact ⟨(dataType, key, w), rfl, expDecodeTimeKey_expEncodeTimeKey ..⟩
  | expMeta =>
    refine (expDecodeMetaKey_cases ek).imp_right fun h => .inr ?_
    obtain ⟨dataType, key, rfl⟩ := h
    exact ⟨(dataType, key), rfl, expDecodeMetaKey_expEncodeMetaKey ..⟩
  | _ =>
    refine (decodePlainKey_cases _ (by decide) ek).imp_right fun h => .inr ?_
    obtain ⟨key, rfl⟩ := h
    exact ⟨key, rfl, decodePlainKey_plainKey ..⟩

/-- Every decoder inverts its encoder, and returns an error or the parts of exactly the given
bytes for all bytes that it does not misread. -/
theorem codecs_inverse_iff (db : DB) :
    (∀ (d : Decoder) (p : d.Parts), (d.key p).length ≤ MaxKeySize →
      db.decode d (db.encode d p) = .ok p) ∧
    ∀ (d : Decoder) (ek : Bytes), db.Inverts d ek ↔ ¬ db.Misread d ek := by
  refine ⟨fun d p hk => decode_encode d p (hk.trans (by decide)), fun d ek =>
    ⟨fun h hm => hm.not_inverts h, fun h => ?_⟩⟩
  rcases decode_cases d ek with ⟨e, he, hdec⟩ | hm | ⟨p, hp, hdec⟩
  · rw [Inverts, hdec]
    exact he
  · exact absurd hm h
  · rw [Inverts, hdec]
    exact hp.symm

theorem codecs_inverse_field :
    (⟨0, by decide⟩ : DB).decode .hash (DB.encode ⟨0, by decide⟩ .hash ([107], [102])) =
      .ok ([107], [102]) :=
  (codecs_inverse_iff _).1 .hash ([107], [102]) (by decide)

theorem codecs_misread :
    ¬ (⟨0, by decide⟩ : DB).Inverts .hash [0, 2, 0, 1, 107] ∧
    ¬ (⟨0, by decide⟩ : DB).Inverts .zset [0, 6, 0, 1] ∧
    ¬ (⟨0, by decide⟩ : DB).Inverts .score [0, 8, 0, 1, 107, 60, 0, 0, 0, 0, 0, 0, 0, 1, 58, 109] :=
  ⟨fun h => h rfl, fun h => h rfl, show zEncodeScoreKey _ [107] [109] 1 ≠ _ by decide⟩

end

end DB

end LedisDB
