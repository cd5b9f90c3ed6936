import LedisDB.KeyLayout

/-!
# Whose entry is a stored key

`DataEntry db T k` are the data, size and meta entries of key `k` of type `T`;
with its expire-meta and expire-time entries they are `Entry db T k`. Entries of
different databases, types or keys are different byte strings, for keys short
enough for the 16-bit length field.

`StoreWf` says that a store holds only entries ledis writes: an entry with a
length field has a key and a member of admitted size, and a time entry names
its own meta entry.
-/

namespace LedisDB

open DB List

inductive DataType
  | KV
  | LIST
  | HASH
  | SET
  | ZSET
  deriving DecidableEq

variable {T T' : DataType}

namespace DataType

def code : DataType → UInt8
  | .KV => KVType
  | .LIST => ListType
  | .HASH => HashType
  | .SET => SetType
  | .ZSET => ZSetType

def plain : DataType → UInt8
  | .KV => KVType
  | .LIST => LMetaType
  | .HASH => HSizeType
  | .SET => SSizeType
  | .ZSET => ZSizeType

def items : DataType → List UInt8
  | .KV => []
  | .LIST => [ListType]
  | .HASH => [HashType]
  | .SET => [SetType]
  | .ZSET => [ZSetType, ZScoreType]

theorem code_inj (h : T.code = T'.code) : T = T' := by
  revert h
  cases T <;> cases T' <;> decide

theorem plain_inj (h : T.plain = T'.plain) : T = T' := by
  revert h
  cases T <;> cases T' <;> decide

theorem plain_not_item : T.plain ∉ T'.items := by
  cases T <;> cases T' <;> decide

theorem items_disjoint (h : T ≠ T') : ∀ t ∈ T.items, t ∉ T'.items := by
  have hall : T.items.all (fun t => !T'.items.contains t) = true := by
    revert h
    cases T <;> cases T' <;> decide
  intro t ht ht'
  simpa [ht'] using all_eq_true.mp hall t ht

theorem not_expire :
    T.plain ≠ ExpMetaType ∧ T.plain ≠ ExpTimeType ∧ ExpMetaType ∉ T.items ∧
      ExpTimeType ∉ T.items := by
  cases T <;> decide

end DataType

inductive DataEntry (db : DB) : DataType → Bytes → Bytes → Prop
  | kv (k : Bytes) : DataEntry db .KV k (db.encodeKVKey k)
  | lmeta (k : Bytes) : DataEntry db .LIST k (db.lEncodeMetaKey k)
  | litem (k : Bytes) (seq : Int32) : DataEntry db .LIST k (db.lEncodeListKey k seq)
  | hsize (k : Bytes) : DataEntry db .HASH k (db.hEncodeSizeKey k)
  | hfield (k f : Bytes) : DataEntry db .HASH k (db.hEncodeHashKey k f)
  | ssize (k : Bytes) : DataEntry db .SET k (db.sEncodeSizeKey k)
  | smember (k m : Bytes) : DataEntry db .SET k (db.sEncodeSetKey k m)
  | zsize (k : Bytes) : DataEntry db .ZSET k (db.zEncodeSizeKey k)
  | zmember (k m : Bytes) : DataEntry db .ZSET k (db.zEncodeSetKey k m)
  | zscore (k m : Bytes) (score : Int64) : DataEntry db .ZSET k (db.zEncodeScoreKey k m score)

inductive ExpireEntry (db : DB) (T : DataType) (k : Bytes) : Bytes → Prop
  | expMeta : ExpireEntry db T k (db.expEncodeMetaKey T.code k)
  | time (w : Int64) : ExpireEntry db T k (db.expEncodeTimeKey T.code k w)

def Entry (db : DB) (T : DataType) (k ek : Bytes) : Prop :=
  DataEntry db T k ek ∨ ExpireEntry db T k ek

inductive Stored (db : DB) : DataType → Bytes → Bytes → Prop
  | kv (k : Bytes) : Stored db .KV k (db.encodeKVKey k)
  | lmeta (k : Bytes) : Stored db .LIST k (db.lEncodeMetaKey k)
  | litem {k : Bytes} (hk : ValidKey k) (seq : Int32) :
      Stored db .LIST k (db.lEncodeListKey k seq)
  | hsize (k : Bytes) : Stored db .HASH k (db.hEncodeSizeKey k)
  | hfield {k f : Bytes} (hk : ValidKey k) (hf : ValidKey f) :
      Stored db .HASH k (db.hEncodeHashKey k f)
  | ssize (k : Bytes) : Stored db .SET k (db.sEncodeSizeKey k)
  | smember {k m : Bytes} (hk : ValidKey k) (hm : ValidKey m) :
      Stored db .SET k (db.sEncodeSetKey k m)
  | zsize (k : Bytes) : Stored db .ZSET k (db.zEncodeSizeKey k)
  | zmember {k m : Bytes} (hk : ValidKey k) (hm : ValidKey m) :
      Stored db .ZSET k (db.zEncodeSetKey k m)
  | zscore {k m : Bytes} (hk : ValidKey k) (hm : ValidKey m) (score : Int64) :
      Stored db .ZSET k (db.zEncodeScoreKey k m score)

inductive WfEntry (ek v : Bytes) : Prop
  | data {db : DB} {T : DataType} {k : Bytes} (h : Stored db T k ek)
  | expMeta {db : DB} {T : DataType} {k : Bytes} (hk : ek = db.expEncodeMetaKey T.code k)
      {w : Int64} (hv : v = PutInt64 w)
  | time {db : DB} {T : DataType} {k : Bytes} {w : Int64}
      (hk : ek = db.expEncodeTimeKey T.code k w) (hv : v = db.expEncodeMetaKey T.code k)

def StoreWf (s : Store) : Prop := ∀ ek v, s.get ek = some v → WfEntry ek v

theorem StoreWf.empty : StoreWf OrderedMap.empty := by
  intro ek v h
  simp at h

section
variable {db db' : DB} {T T' : DataType} {k k' ek v x : Bytes} {s : Store}

theorem Stored.entry (h : Stored db T k ek) : DataEntry db T k ek := by
  cases h <;> constructor

theorem DataEntry.form (h : DataEntry db T k ek) :
    ek = db.plainKey T.plain k ∨ ∃ t ∈ T.items, ∃ r, ek = db.itemKey t k r := by
  cases h
  case kv => exact .inl rfl
  case lmeta => exact .inl rfl
  case hsize => exact .inl rfl
  case ssize => exact .inl rfl
  case zsize => exact .inl rfl
  case litem seq => exact .inr ⟨ListType, by simp [DataType.items], _, rfl⟩
  case hfield f => exact .inr ⟨HashType, by simp [DataType.items], _, rfl⟩
  case smember m => exact .inr ⟨SetType, by simp [DataType.items], _, rfl⟩
  case zmember m => exact .inr ⟨ZSetType, by simp [DataType.items], _, rfl⟩
  case zscore m score => exact .inr ⟨ZScoreType, by simp [DataType.items], _, rfl⟩

theorem DataEntry.unique (hk : k.length ≤ DB.MaxUint16) (hk' : k'.length ≤ DB.MaxUint16)
    (h : DataEntry db T k ek) (h' : DataEntry db' T' k' ek) : db = db' ∧ T = T' ∧ k = k' := by
  rcases h.form with h | ⟨t, ht, r, h⟩ <;> rcases h'.form with h' | ⟨t', ht', r', h'⟩ <;>
    rw [h] at h'
  · obtain ⟨hdb, hT, hr⟩ := plainKey_inj.mp h'
    exact ⟨hdb, DataType.plain_inj hT, hr⟩
  · obtain ⟨-, hT, -⟩ := plainKey_inj.mp h'
    rw [← hT] at ht'
    exact absurd ht' DataType.plain_not_item
  · obtain ⟨-, hT, -⟩ := plainKey_inj.mp h'
    rw [hT] at ht
    exact absurd ht DataType.plain_not_item
  · obtain ⟨hdb, hT, hkk, -⟩ := (itemKey_inj hk hk').mp h'
    rw [← hT] at ht'
    exact ⟨hdb, by_contra fun hne => DataType.items_disjoint hne t ht ht', hkk⟩

theorem ExpireEntry.unique (h : ExpireEntry db T k ek) (h' : ExpireEntry db' T' k' ek) :
    db = db' ∧ T = T' ∧ k = k' := by
  cases h with
  | expMeta =>
    generalize hek : db.expEncodeMetaKey T.code k = ek at h'
    cases h' with
    | expMeta =>
      obtain ⟨hdb, -, hr⟩ := plainKey_inj.mp hek
      obtain ⟨hT, hk⟩ := cons.inj hr
      exact ⟨hdb, DataType.code_inj hT, hk⟩
    | time w' => exact absurd (plainKey_inj.mp hek).2.1 (by decide)
  | time w =>
    generalize hek : db.expEncodeTimeKey T.code k w = ek at h'
    cases h' with
    | expMeta => exact absurd (plainKey_inj.mp hek).2.1 (by decide)
    | time w' =>
      obtain ⟨hdb, -, hr⟩ := plainKey_inj.mp hek
      obtain ⟨-, hr⟩ := append_inj hr (by simp)
      obtain ⟨hT, hk⟩ := cons.inj hr
      exact ⟨hdb, DataType.code_inj hT, hk⟩

theorem DataEntry.not_expire (h : DataEntry db T k ek) : ¬ ExpireEntry db' T' k' ek := by
  obtain ⟨hm, ht, him, hit⟩ := DataType.not_expire (T := T)
  intro h'
  rcases h.form with h | ⟨t, hi, r, h⟩ <;> cases h' <;> have hT := (plainKey_inj.mp h).2.1
  · exact hm hT.symm
  · exact ht hT.symm
  · exact him (hT ▸ hi)
  · exact hit (hT ▸ hi)

theorem get_applyBatch_data {b : Batch} (hb : ∀ o ∈ b, DataEntry db T k o.key)
    (h : ExpireEntry db' T' k' ek) (m : Store) : (m.applyBatch b).get ek = m.get ek := by
  refine get_applyBatch_of_not_mem _ fun o ho heq => ?_
  exact (hb o ho).not_expire (heq ▸ h)

theorem StoreWf.deadline (hs : StoreWf s) (h : s.get (db.expEncodeMetaKey T.code k) = some v) :
    ∃ w, v = PutInt64 w := by
  cases hs _ v h with
  | data hst => exact absurd .expMeta hst.entry.not_expire
  | expMeta _ hv => exact ⟨_, hv⟩
  | time hk => exact absurd (plainKey_inj.mp hk).2.1 (by decide)

theorem Entry.unique (hk : k.length ≤ DB.MaxUint16) (hk' : k'.length ≤ DB.MaxUint16)
    (h : Entry db T k ek) (h' : Entry db' T' k' ek) : db = db' ∧ T = T' ∧ k = k' := by
  rcases h with h | h <;> rcases h' with h' | h'
  · exact h.unique hk hk' h'
  · exact absurd h' h.not_expire
  · exact absurd h h'.not_expire
  · exact h.unique h'

theorem Stored.form (h : Stored db T k ek) :
    ek = db.plainKey T.plain k ∨ ∃ t ∈ T.items, ∃ r, ek = db.itemKey t k r ∧ ValidKey k ∧
      k.length + r.length ≤ DB.MaxUint16 := by
  have hmax : MaxKeySize + (MaxKeySize + 10) ≤ DB.MaxUint16 := by decide
  cases h
  case kv => exact .inl rfl
  case lmeta => exact .inl rfl
  case hsize => exact .inl rfl
  case ssize => exact .inl rfl
  case zsize => exact .inl rfl
  case litem seq hk =>
    refine .inr ⟨ListType, by simp [DataType.items], _, rfl, hk, ?_⟩
    have := hk.2
    simp only [beBytes_length]
    omega
  case hfield f hf hk =>
    refine .inr ⟨HashType, by simp [DataType.items], _, rfl, hk, ?_⟩
    have := hk.2
    have := hf.2
    simp only [length_cons]
    omega
  case smember m hm hk =>
    refine .inr ⟨SetType, by simp [DataType.items], _, rfl, hk, ?_⟩
    have := hk.2
    have := hm.2
    simp only [length_cons]
    omega
  case zmember m hm hk =>
    refine .inr ⟨ZSetType, by simp [DataType.items], _, rfl, hk, ?_⟩
    have := hk.2
    have := hm.2
    simp only [length_cons]
    omega
  case zscore m hm score hk =>
    refine .inr ⟨ZScoreType, by simp [DataType.items], _, rfl, hk, ?_⟩
    have := hk.2
    have := hm.2
    simp only [length_cons, length_append, beBytes_length]
    omega

theorem StoreWf.of_itemKey_prefix (hs : StoreWf s) {t : UInt8} (ht : t ∈ T.items)
    (hget : s.get ek = some v) (hp : db.itemKey t k x <+: ek) :
    Stored db T k ek ∧ ∃ r, ek = db.itemKey t k r := by
  cases hs ek v hget with
  | @data db' T' k' h =>
    rcases h.form with hek | ⟨t', ht', r, hek, -, hlen⟩ <;> rw [hek] at hp
    · obtain ⟨-, hT, -⟩ := plainKey_prefix hp
      exact absurd (hT ▸ ht) DataType.plain_not_item
    · obtain ⟨rfl, rfl, rfl, -⟩ := itemKey_prefix_short hlen hp
      have hT := by_contra fun hne => DataType.items_disjoint hne t ht ht'
      subst hT
      exact ⟨h, r, hek⟩
  | expMeta hk hv =>
    rw [hk] at hp
    obtain ⟨-, hT, -⟩ := plainKey_prefix hp
    exact absurd (hT ▸ ht) DataType.not_expire.2.2.1
  | time hk hv =>
    rw [hk] at hp
    obtain ⟨-, hT, -⟩ := plainKey_prefix hp
    exact absurd (hT ▸ ht) DataType.not_expire.2.2.2

theorem Stored.owner (h : Stored db T k ek) (h' : DataEntry db' T' k' ek) :
    db' = db ∧ T' = T ∧ k' = k := by
  rcases h.form with hek | ⟨t, ht, r, hek, -, hlen⟩ <;>
    rcases h'.form with h' | ⟨t', ht', r', h'⟩ <;> rw [hek] at h'
  · obtain ⟨hdb, hT, hk⟩ := plainKey_inj.mp h'
    exact ⟨hdb.symm, (DataType.plain_inj hT).symm, hk.symm⟩
  · obtain ⟨-, hT, -⟩ := plainKey_inj.mp h'
    exact absurd (hT ▸ ht') DataType.plain_not_item
  · obtain ⟨-, hT, -⟩ := plainKey_inj.mp h'
    exact absurd (hT ▸ ht) DataType.plain_not_item
  · have hp : db'.itemKey t' k' r' <+: db.itemKey t k r := by rw [h']
    obtain ⟨hdb, rfl, hk, -⟩ := itemKey_prefix_short hlen hp
    exact ⟨hdb, by_contra fun hne => DataType.items_disjoint hne t' ht' ht, hk⟩

theorem StoreWf.owner_unique (hs : StoreWf s) (hget : s.get ek = some v) (h : Entry db T k ek)
    (h' : Entry db' T' k' ek) : db = db' ∧ T = T' ∧ k = k' := by
  rcases h with h | h <;> rcases h' with h' | h'
  · cases hs ek v hget with
    | data h0 =>
      obtain ⟨rfl, rfl, rfl⟩ := h0.owner h
      obtain ⟨rfl, rfl, rfl⟩ := h0.owner h'
      exact ⟨rfl, rfl, rfl⟩
    | expMeta hk hv =>
      subst hk
      exact absurd .expMeta h.not_expire
    | time hk hv =>
      subst hk
      exact absurd (.time _) h.not_expire
  · exact absurd h' h.not_expire
  · exact absurd h h'.not_expire
  · exact h.unique h'

theorem StoreWf.of_range (hs : StoreWf s) {a b : Bytes} {t type : UInt8} {l : Limit}
    (ht : t ∈ T.items) {e : Bytes × Bytes}
    (he : e ∈ s.rangeLimit ⟨some (db.itemKey t k a), some (db.itemKey t k b), type⟩ l .forward) :
    Stored db T k e.1 ∧ ∃ r, e.1 = db.itemKey t k r := by
  obtain ⟨hget, hmin, hmax⟩ := OrderedMap.mem_rangeLimit he
  have hl := Range.le_of_aboveMin rfl hmin
  have hu := Range.le_of_belowMax rfl hmax
  rw [← nil_append a, itemKey_append] at hl
  rw [← nil_append b, itemKey_append] at hu
  exact hs.of_itemKey_prefix ht hget (Lexicographic.prefix_of_between hl hu)

end

end LedisDB
