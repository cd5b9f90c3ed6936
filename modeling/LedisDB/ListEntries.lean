import LedisDB.Window
import LedisDB.Clearing

/-!
# The entries of a list

A list is a sequence of values at consecutive sequence numbers. `ListRep` says
that the item entries of a key hold such a sequence and that the meta entry
holds its two ends, or is absent when there is nothing. Sequence numbers are
integers here; the source keeps them as `int32`, in range by `Sequence.Fits`.
-/

namespace LedisDB

/-- A list with the sequence number of its first value. -/
structure Sequence where
  head : ℤ
  items : List Bytes

namespace Sequence

def tail (q : Sequence) : ℤ := q.head + q.items.length - 1

def Fits (q : Sequence) : Prop := 1000 < q.head ∧ q.tail < 2147482648

instance (q : Sequence) : Decidable q.Fits := inferInstanceAs (Decidable (_ ∧ _))

end Sequence

def Items (db : DB) (s : Store) (key : Bytes) (h : ℤ) (xs : List Bytes) : Prop :=
  ∀ n : Int32, s.get (db.lEncodeListKey key n) = window h xs n.toInt

structure ListRep (db : DB) (s : Store) (key : Bytes) (q : Sequence) : Prop where
  fits : q.items ≠ [] → q.Fits
  metaEntry : s.get (db.lEncodeMetaKey key) = if q.items = [] then none
    else some (putMeta (Int32.ofInt q.head) (Int32.ofInt q.tail))
  items : Items db s key q.head q.items

variable {n n' : Int32}

section
variable {db : DB} {env : Env} {s m s' : Store} {key : Bytes} {q : Sequence} {u t : Txn} {z h : ℤ}
  {xs : List Bytes}

theorem int32_ofNat (n : ℕ) : Int32.ofNat n = Int32.ofInt n := Int32.ofInt_eq_ofNat.symm

theorem toInt_ofInt32 (h : -2 ^ 31 ≤ z ∧ z < 2 ^ 31) : (Int32.ofInt z).toInt = z :=
  Int32.toInt_ofInt_of_le h.1 h.2

theorem ofInt_eq_iff (h : -2 ^ 31 ≤ z ∧ z < 2 ^ 31) : Int32.ofInt z = n ↔ n.toInt = z := by
  rw [← Int32.toInt_inj, toInt_ofInt32 h, eq_comm]

theorem ofInt_lt_iff {a b : ℤ} (ha : -2 ^ 31 ≤ a ∧ a < 2 ^ 31) (hb : -2 ^ 31 ≤ b ∧ b < 2 ^ 31) :
    Int32.ofInt a < Int32.ofInt b ↔ a < b := by
  rw [Int32.lt_iff_toInt_lt, toInt_ofInt32 ha, toInt_ofInt32 hb]

theorem ofInt_le_iff {a b : ℤ} (ha : -2 ^ 31 ≤ a ∧ a < 2 ^ 31) (hb : -2 ^ 31 ≤ b ∧ b < 2 ^ 31) :
    Int32.ofInt a ≤ Int32.ofInt b ↔ a ≤ b := by
  rw [Int32.le_iff_toInt_le, toInt_ofInt32 ha, toInt_ofInt32 hb]

theorem zero_eq_ofInt : (0 : Int32) = Int32.ofInt 0 := rfl

theorem one_eq_ofInt : (1 : Int32) = Int32.ofInt 1 := rfl

def position (n i : ℤ) : ℤ := if i < 0 then n + i else i

theorem position_bounds {n i : ℤ} (hn : 0 ≤ n ∧ n < 2 ^ 31) (hi : -2 ^ 31 ≤ i ∧ i < 2 ^ 31) :
    -2 ^ 31 ≤ position n i ∧ position n i < 2 ^ 31 := by
  unfold position
  split_ifs <;> omega

theorem normalize_eq (n : ℤ) (i : Int32) :
    (if i < 0 then Int32.ofInt n + i else i) = Int32.ofInt (position n i.toInt) := by
  have hlt : i < 0 ↔ i.toInt < 0 := Int32.lt_iff_toInt_lt
  simp only [position, hlt]
  split_ifs
  · rw [Int32.ofInt_add, Int32.ofInt_toInt]
  · rw [Int32.ofInt_toInt]

theorem toUInt32_toNat_lt (n : Int32) : n.toUInt32.toNat < 2 ^ 32 := n.toUInt32.toNat_lt

theorem toUInt32_toNat_inj (h : n.toUInt32.toNat = n'.toUInt32.toNat) : n = n' := by
  have h' := UInt32.toNat_inj.mp h
  simpa using congrArg UInt32.toInt32 h'

theorem toInt_eq_toNat32 (n : Int32) : n.toInt =
    if 2 * n.toUInt32.toNat < 2 ^ 32 then (n.toUInt32.toNat : ℤ)
    else (n.toUInt32.toNat : ℤ) - (2 ^ 32 : ℕ) := by
  have h := BitVec.toInt_eq_toNat_cond n.toBitVec
  exact_mod_cast h

theorem lEncodeListKey_inj : db.lEncodeListKey key n = db.lEncodeListKey key n' ↔ n = n' := by
  constructor
  · intro h
    have hb : beBytes 4 n.toUInt32.toNat = beBytes 4 n'.toUInt32.toNat := by
      have h' : db.itemKey ListType key [] ++ beBytes 4 n.toUInt32.toNat =
          db.itemKey ListType key [] ++ beBytes 4 n'.toUInt32.toNat := by
        rwa [← DB.itemKey_append, ← DB.itemKey_append]
      exact List.append_cancel_left h'
    exact toUInt32_toNat_inj (beBytes_inj (toUInt32_toNat_lt n) (toUInt32_toNat_lt n') hb)
  · rintro rfl
    rfl

theorem lEncodeListKey_ne_meta (n : Int32) : db.lEncodeListKey key n ≠ db.lEncodeMetaKey key := by
  intro h
  exact absurd (DB.plainKey_inj.mp h).2.1 (by decide)

theorem lEncodeListKey_le (hn : 0 ≤ n.toInt) (h : n.toInt ≤ n'.toInt) :
    db.lEncodeListKey key n ≤ db.lEncodeListKey key n' := by
  have h1 := toInt_eq_toNat32 n
  have h2 := toInt_eq_toNat32 n'
  have hlt := toUInt32_toNat_lt n
  have hlt' := toUInt32_toNat_lt n'
  have hle : n.toUInt32.toNat ≤ n'.toUInt32.toNat := by
    split_ifs at h1 h2 <;> omega
  rw [DB.lEncodeListKey, DB.lEncodeListKey, DB.itemKey_le_iff]
  rcases hle.lt_or_eq with hlt'' | heq
  · exact ((beBytes_lt_iff hlt hlt').mpr hlt'').le
  · rw [heq]

theorem getMeta_putMeta (a b : Int32) : getMeta (putMeta a b) = .ok (a, b) := by
  have hlen : (putMeta a b).length = 8 := by simp [putMeta]
  have h1 : (putMeta a b).take 4 = leBytes 4 a.toUInt32.toNat := by
    simp [putMeta]
  have h2 : ((putMeta a b).drop 4).take 4 = leBytes 4 b.toUInt32.toNat := by
    simp [putMeta]
  rw [getMeta, if_neg (by omega), h1, h2, leNat_leBytes_of_lt (toUInt32_toNat_lt a),
    leNat_leBytes_of_lt (toUInt32_toNat_lt b)]
  simp

def metaOf (q : Sequence) : Int32 × Int32 × Int32 :=
  if q.items = [] then (listInitialSeq, listInitialSeq, 0)
  else (Int32.ofInt q.head, Int32.ofInt q.tail, Int32.ofInt q.items.length)

theorem ListRep.lGetMeta (h : ListRep db s key q) :
    db.lGetMeta (db.lEncodeMetaKey key) env s u = (.ok (metaOf q), u) := by
  simp only [DB.lGetMeta, metaOf, Op.bind_run, Op.get_run, h.metaEntry]
  by_cases hq : q.items = []
  · simp [hq]
  · have hsize : Int32.ofInt q.tail - Int32.ofInt q.head + 1 = Int32.ofInt q.items.length := by
      rw [← Int32.ofInt_sub, show 1 = Int32.ofInt 1 from rfl, ← Int32.ofInt_add]
      congr 1
      unfold Sequence.tail
      omega
    simp [hq, getMeta_putMeta, hsize]

theorem Sequence.Fits.length_lt (h : q.Fits) : (q.items.length : ℤ) < 2147481648 := by
  have h1 := h.1
  have h2 := h.2
  unfold tail at h2
  omega

theorem ListRep.length_lt (h : ListRep db s key q) : (q.items.length : ℤ) < 2147481648 := by
  by_cases hq : q.items = []
  · simp [hq]
  · exact (h.fits hq).length_lt

theorem ListRep.congr (h : ListRep db s key q)
    (hmeta : s'.get (db.lEncodeMetaKey key) = s.get (db.lEncodeMetaKey key))
    (hitems : ∀ n, s'.get (db.lEncodeListKey key n) = s.get (db.lEncodeListKey key n)) :
    ListRep db s' key q :=
  ⟨h.fits, by rw [hmeta, h.metaEntry], fun n => by rw [hitems, h.items]⟩

theorem ListRep.of_empty (hmeta : s.get (db.lEncodeMetaKey key) = none)
    (hitems : ∀ n, s.get (db.lEncodeListKey key n) = none) : ListRep db s key ⟨h, []⟩ :=
  ⟨fun hne => absurd rfl hne, hmeta, fun n => by rw [hitems, window_nil]⟩

theorem ListRep.items_any (h : ListRep db s key q) (hq : q.items = []) (z : ℤ) :
    Items db s key z [] := by
  intro n
  rw [h.items n, hq, window_nil, window_nil]

theorem Items.put_tail (hi : Items db m key h xs) (hb : -2 ^ 31 ≤ h ∧ h + xs.length < 2 ^ 31)
    (a : Bytes) :
    Items db (m.applyOp (.put (db.lEncodeListKey key (Int32.ofInt (h + xs.length))) a)) key h
      (xs ++ [a]) := by
  intro n
  rw [get_applyOp, window_concat, ← hi n]
  simp only [WriteOp.key_put, WriteOp.value_put, lEncodeListKey_inj]
  have hiff := ofInt_eq_iff (n := n) ⟨by omega, hb.2⟩
  by_cases hn : n.toInt = h + xs.length
  · rw [if_pos hn, if_pos (hiff.mpr hn)]
  · rw [if_neg hn, if_neg (hiff.not.mpr hn)]

theorem Items.put_head (hi : Items db m key h xs) (hb : -2 ^ 31 < h ∧ h ≤ 2 ^ 31) (a : Bytes) :
    Items db (m.applyOp (.put (db.lEncodeListKey key (Int32.ofInt (h - 1))) a)) key (h - 1)
      (a :: xs) := by
  intro n
  rw [get_applyOp, window_cons, ← hi n]
  simp only [WriteOp.key_put, WriteOp.value_put, lEncodeListKey_inj]
  have hiff := ofInt_eq_iff (n := n) (z := h - 1) ⟨by omega, by omega⟩
  by_cases hn : n.toInt = h - 1
  · rw [if_pos hn, if_pos (hiff.mpr hn)]
  · rw [if_neg hn, if_neg (hiff.not.mpr hn)]

theorem Items.set (hi : Items db m key h xs) {i : ℕ} (hlt : i < xs.length)
    (hb : -2 ^ 31 ≤ h ∧ h + xs.length ≤ 2 ^ 31) (a : Bytes) :
    Items db (m.applyOp (.put (db.lEncodeListKey key (Int32.ofInt (h + i))) a)) key h
      (xs.set i a) := by
  intro n
  rw [get_applyOp, window_set h _ xs hlt, ← hi n]
  simp only [WriteOp.key_put, WriteOp.value_put, lEncodeListKey_inj]
  have hiff := ofInt_eq_iff (n := n) (z := h + i) ⟨by omega, by omega⟩
  by_cases hn : n.toInt = h + i
  · rw [if_pos hn, if_pos (hiff.mpr hn)]
  · rw [if_neg hn, if_neg (hiff.not.mpr hn)]

theorem get_deleteItems (ns : List Int32) (n : Int32) :
    (m.applyBatch (ns.map fun i => .delete (db.lEncodeListKey key i))).get
      (db.lEncodeListKey key n) = if n ∈ ns then none else m.get (db.lEncodeListKey key n) := by
  induction ns generalizing m with
  | nil => rfl
  | cons i ns ih =>
    change ((m.applyOp _).applyBatch _).get _ = _
    rw [ih, get_applyOp]
    simp only [WriteOp.key_delete, lEncodeListKey_inj]
    by_cases h1 : n ∈ ns
    · simp [h1]
    · by_cases h2 : i = n
      · simp [h2]
      · simp [h2, Ne.symm h2]

theorem Items.drop (hi : Items db m key h xs) (ns : List Int32) (k : ℕ)
    (hns : ∀ n : Int32, h ≤ n.toInt → (n ∈ ns ↔ n.toInt < h + k)) :
    Items db (m.applyBatch (ns.map fun i => .delete (db.lEncodeListKey key i))) key (h + k)
      (xs.drop k) := by
  intro n
  rw [get_deleteItems, window_drop, hi n]
  by_cases hn : h ≤ n.toInt
  · simp [hns n hn]
  · rw [window_eq_none (.inl (not_le.mp hn))]
    simp

theorem Items.take (hi : Items db m key h xs) (ns : List Int32) (k : ℕ)
    (hns : ∀ n : Int32, n.toInt < h + xs.length → h ≤ n.toInt → (n ∈ ns ↔ h + k ≤ n.toInt)) :
    Items db (m.applyBatch (ns.map fun i => .delete (db.lEncodeListKey key i))) key h
      (xs.take k) := by
  intro n
  rw [get_deleteItems, window_take, hi n]
  by_cases hn : n.toInt < h + xs.length ∧ h ≤ n.toInt
  · simp [hns n hn.1 hn.2]
  · rw [window_eq_none (by omega)]
    simp

end

end LedisDB
