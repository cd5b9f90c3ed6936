import LedisDB.Flush
import LedisDB.Paging

/-!
# Scanning page by page

The eight scan functions run over the elements below a front: the keys of a data
type, or the fields or members of one key. Going up, the lower bound is the front
followed by the cursor and the upper bound the front with its last byte raised;
going down, the front is an open lower bound. So the element with no bytes is met
only by an inclusive scan that goes up from the start, and a scan that is continued
with the last element returned is complete exactly when that element does not match.
Only a zset key can be empty, through a store operation with an empty destination.
-/

namespace LedisDB

open DB List OrderedMap

def pastCursor (cursor : Bytes) (inclusive reverse : Bool) (x : Bytes) : Bool :=
  if reverse then
    decide (x ≠ []) && (decide (cursor = []) || if inclusive then x ≤ cursor else x < cursor)
  else if inclusive then cursor ≤ x else cursor < x

def selects (r : Option (Bytes → Bool)) (x : Bytes) : Bool := (r.map (· x)).getD true

def scanDirection (reverse : Bool) : Direction := if reverse then .backward else .forward

variable {a b : UInt8} {x : Bytes}

section
variable {db : DB} {env : Env} {s : Store} {T : DataType} {cursor key p k f : Bytes} {count : ℤ}
  {inclusive reverse : Bool} {r : Option (Bytes → Bool)} {memory : ℕ}
  {decodeKey : Bytes → Except Err (Bytes × Bytes)}

theorem scan_up (hab : a < b) (hc : ∀ c, c < b → c ≤ a) (cursor : Bytes)
    (inclusive : Bool) (k : Bytes) :
    let range : Range Bytes := ⟨some (p ++ [a] ++ cursor), some (p ++ [b]),
      if inclusive then RangeROpen else RangeOpen⟩
    (range.aboveMin k && range.belowMax k) = true ↔
      ∃ x, k = p ++ [a] ++ x ∧ pastCursor cursor inclusive false x = true := by
  have hbetween := mem_between_iff (p := p) (k := k) hab hc
  cases inclusive with
  | false =>
    simp only [pastCursor, Bool.false_eq_true, if_false, Range.aboveMin_open,
      Range.belowMax_open, Bool.and_eq_true_iff, decide_eq_true_iff]
    constructor
    · rintro ⟨hmin, hmax⟩
      obtain ⟨x, rfl⟩ := hbetween.mp ⟨(Lexicographic.le_append _ _).trans hmin.le, hmax⟩
      exact ⟨x, rfl, (Lexicographic.append_lt_append_iff _ _ _).mp hmin⟩
    · rintro ⟨x, rfl, hx⟩
      exact ⟨(Lexicographic.append_lt_append_iff _ _ _).mpr hx, (hbetween.mpr ⟨x, rfl⟩).2⟩
  | true =>
    simp only [pastCursor, Bool.false_eq_true, if_false, if_true, Range.aboveMin_rOpen,
      Range.belowMax_rOpen, Bool.and_eq_true_iff, decide_eq_true_iff]
    constructor
    · rintro ⟨hmin, hmax⟩
      obtain ⟨x, rfl⟩ := hbetween.mp ⟨(Lexicographic.le_append _ _).trans hmin, hmax⟩
      exact ⟨x, rfl, (Lexicographic.append_le_append_iff _ _ _).mp hmin⟩
    · rintro ⟨x, rfl, hx⟩
      exact ⟨(Lexicographic.append_le_append_iff _ _ _).mpr hx, (hbetween.mpr ⟨x, rfl⟩).2⟩

theorem front_lt_append : f < f ++ x ↔ x ≠ [] := by
  conv_lhs => rw [← append_nil f, append_assoc]
  rw [Lexicographic.append_lt_append_iff]
  cases x <;> simp

section
variable (hab : a < b) (hc : ∀ c, c < b → c ≤ a)
include hab hc

theorem down_iff {B : Prop} {C : Bytes → Prop}
    (hB : B → k < p ++ [b]) (hC : ∀ x, k = p ++ [a] ++ x → (B ↔ C x)) :
    (p ++ [a] < k ∧ B) ↔ ∃ x, k = p ++ [a] ++ x ∧ x ≠ [] ∧ C x := by
  constructor
  · rintro ⟨hmin, hmax⟩
    obtain ⟨x, rfl⟩ := (mem_between_iff hab hc).mp ⟨hmin.le, hB hmax⟩
    exact ⟨x, rfl, front_lt_append.mp hmin, (hC x rfl).mp hmax⟩
  · rintro ⟨x, rfl, hx, hCx⟩
    exact ⟨front_lt_append.mpr hx, (hC x rfl).mpr hCx⟩

theorem scan_down (cursor : Bytes) (inclusive : Bool) (hk : k ≠ p ++ [b]) :
    let range : Range Bytes := ⟨some (p ++ [a]),
      some (if cursor.length > 0 then p ++ [a] ++ cursor else p ++ [b]),
      if inclusive then RangeLOpen else RangeOpen⟩
    (range.aboveMin k && range.belowMax k) = true ↔
      ∃ x, k = p ++ [a] ++ x ∧ pastCursor cursor inclusive true x = true := by
  have hunder := fun y =>
    ((mem_between_iff (p := p) hab hc).mpr ⟨y, rfl⟩).2
  have hstop : ∀ x, k = p ++ [a] ++ x → k < p ++ [b] := fun x h => h ▸ hunder x
  by_cases hcur : cursor = []
  · cases inclusive with
    | false =>
      simpa [pastCursor, hcur] using down_iff hab hc id fun x hx => iff_true_intro (hstop x hx)
    | true =>
      simpa [pastCursor, hcur] using down_iff hab hc
        (fun h => lt_of_le_of_ne h hk) fun x hx => iff_true_intro (hstop x hx).le
  · have hlen := length_pos_iff.mpr hcur
    cases inclusive with
    | false =>
      have hiff := down_iff (B := k < p ++ [a] ++ cursor) hab hc
        (fun h => h.trans (hunder _)) fun x hx => by
          rw [hx, Lexicographic.append_lt_append_iff]
      simpa [pastCursor, hcur, hlen] using hiff
    | true =>
      have hiff := down_iff (B := k ≤ p ++ [a] ++ cursor) hab hc
        (fun h => h.trans_lt (hunder _)) fun x hx => by
          rw [hx, Lexicographic.append_le_append_iff]
      simpa [pastCursor, hcur, hlen] using hiff

theorem buildScanIterator_run (hstop : s.get (p ++ [b]) = none) (cursor : Bytes)
    (inclusive reverse : Bool) (env : Env) (t : Txn) :
    DB.buildScanIterator (p ++ [a] ++ if reverse then [] else cursor)
      (if reverse = true ∧ cursor.length > 0 then p ++ [a] ++ cursor else p ++ [b])
      inclusive reverse env s t =
    (.ok (((scanDirection reverse).arrange ((s.under (p ++ [a])).filter fun e =>
      pastCursor cursor inclusive reverse e.1)).map fun e => (p ++ [a] ++ e.1, e.2)), t) := by
  have hne : ∀ e ∈ s.entries, e.1 ≠ p ++ [b] := by
    intro e he hk
    rw [← hk, get_eq_some_iff.mpr he] at hstop
    cases hstop
  cases reverse with
  | false =>
    refine congrArg (fun es => (Except.ok es, t)) (rangeLimit_under_of s (fun e _ => ?_) .forward)
    simpa using scan_up hab hc cursor inclusive e.1
  | true =>
    refine congrArg (fun es => (Except.ok es, t)) (rangeLimit_under_of s (fun e he => ?_) .backward)
    simpa using scan_down hab hc cursor inclusive (hne e he)

end

theorem plain_succ : T.plain < T.plain + 1 ∧ ∀ c, c < T.plain + 1 → c ≤ T.plain := by
  refine ⟨by cases T <;> decide, fun c hc => ?_⟩
  simpa using UInt8.le_of_lt_succ c hc

theorem StoreWf.no_plain_stop (hs : StoreWf s) (db : DB) (T : DataType) :
    s.get (db.plainKey (T.plain + 1) []) = none := by
  cases hget : s.get (db.plainKey (T.plain + 1) []) with
  | none => rfl
  | some v =>
    cases hs _ _ hget with
    | @data db' T' k h =>
      rcases h.form with hek | ⟨t, -, r, hek, -⟩
      · have htype := (plainKey_inj.mp hek).2.1
        exact absurd htype (by cases T <;> cases T' <;> decide)
      · exact absurd (plainKey_inj.mp hek).2.2 (by simp [beBytes])
    | expMeta hk _ | time hk _ => exact absurd (plainKey_inj.mp hk).2.2 (by simp)

theorem buildScanKeyRange_plain (cursor : Bytes) (reverse : Bool) :
    db.buildScanKeyRange T.plain cursor reverse =
      .ok (db.indexVarBuf ++ [T.plain] ++ (if reverse then [] else cursor),
        if reverse = true ∧ cursor.length > 0 then db.indexVarBuf ++ [T.plain] ++ cursor
        else db.indexVarBuf ++ [T.plain + 1]) := by
  have hplain : ∀ x, db.plainKey T.plain x = db.indexVarBuf ++ [T.plain] ++ x := by
    simp [plainKey]
  have hstop : setLast (db.indexVarBuf ++ [T.plain] ++ []) (T.plain + 1) =
      db.indexVarBuf ++ [T.plain + 1] := by
    rw [append_nil, setLast_append]
  unfold buildScanKeyRange encodeScanMinKey encodeScanMaxKey
  cases reverse <;> by_cases hcur : cursor.length > 0 <;>
    simp only [encodeScanKey_plain, hplain, hcur, hstop, Except.map, bind, Except.bind, pure,
      Except.pure, Bool.false_eq_true, false_and, true_and, if_false, if_true, length_nil,
      lt_irrefl]

theorem scanGeneric_run (hs : StoreWf s) (cursor : Bytes) (count : ℤ)
    (inclusive : Bool) (r : Option (Bytes → Bool)) (reverse : Bool) (t : Txn) :
    db.scanGeneric T.plain cursor count inclusive r reverse env s t =
      (.ok ((((scanDirection reverse).arrange (db.keysOf s T)).filter fun k =>
        pastCursor cursor inclusive reverse k && selects r k).take
          (DB.checkScanCount count).toNat), t) := by
  have hstop := hs.no_plain_stop db T
  obtain ⟨hab, hc⟩ := plain_succ
  have hplain : ∀ x, db.indexVarBuf ++ [T.plain] ++ x = db.plainKey T.plain x := by
    simp [plainKey]
  have hiter := buildScanIterator_run hab hc hstop cursor inclusive reverse env t
  simp only [hplain] at hiter
  simp only [scanGeneric, Op.bind_run, Op.lift_run, buildScanKeyRange_plain, hplain, hiter,
    decode_plainKeys]
  refine congrArg (fun ks => (Except.ok (take _ ks), t)) ?_
  rw [Direction.arrange_filter, keysOf, Direction.arrange_map, filter_map,
    filter_map, filter_filter]
  congr 2
  funext e
  exact Bool.and_comm _ _

theorem encodeDataScanKey_front (hT : T.HasMembers) (cursor : Bytes) :
    db.encodeDataScanKey T.code key cursor = .ok (front db T key ++ cursor) := by
  rw [front_append]
  rcases hT with rfl | rfl | rfl <;> rfl

theorem front_eq (db : DB) (T : DataType) (key : Bytes) :
    front db T key = db.itemKey T.code key [] ++ [58] := itemKey_single _ _ _ _

theorem buildDataScanKeyRange_front (hT : T.HasMembers) (db : DB) (key cursor : Bytes)
    (reverse : Bool) : db.buildDataScanKeyRange T.code key cursor reverse =
      .ok (db.itemKey T.code key [] ++ [58] ++ (if reverse then [] else cursor),
        if reverse = true ∧ cursor.length > 0 then db.itemKey T.code key [] ++ [58] ++ cursor
        else db.itemKey T.code key [] ++ [59]) := by
  unfold buildDataScanKeyRange encodeDataScanMinKey encodeDataScanMaxKey
  cases reverse <;> by_cases hcur : cursor.length > 0 <;>
    simp [encodeDataScanKey_front hT, front_eq, hcur, setLast_append, Except.map, bind,
      Except.bind, pure, Except.pure]

def metMembers (db : DB) (s : Store) (T : DataType) (key cursor : Bytes)
    (inclusive reverse : Bool) : List (Bytes × Bytes) :=
  (scanDirection reverse).arrange ((s.under (front db T key)).filter fun e =>
    pastCursor cursor inclusive reverse e.1)

theorem buildDataScanIterator_run (hs : StoreWf s) (hT : T.HasMembers) (db : DB)
    (hk : ValidKey key) (cursor : Bytes) (inclusive reverse : Bool) (env : Env) (t : Txn) :
    db.buildDataScanIterator T.code key cursor inclusive reverse env s t =
      (.ok ((metMembers db s T key cursor inclusive reverse).map fun e =>
        (front db T key ++ e.1, e.2)), t) := by
  have hstop : s.get (db.itemKey T.code key [] ++ [59]) = none := by
    rw [← itemKey_single]
    cases hget : s.get (db.itemKey T.code key [59]) with
    | none => rfl
    | some v => exact absurd (hs.member_entry hT hget).1 (by decide)
  have hiter := buildScanIterator_run (a := 58) (b := 59) (by decide)
    (fun c hc => UInt8.le_of_lt_succ c hc) hstop cursor inclusive reverse env t
  simp only [buildDataScanIterator, Op.bind_run, Op.lift_run, checkKeySize_ok.mpr hk,
    buildDataScanKeyRange_front hT, hiter, metMembers, front_eq]

theorem dataScanLoop_ok {α : Type} {item : Bytes → Bytes → Except Err α} {g : Bytes → Bytes → α}
    {L : List (Bytes × Bytes)} (hdecode : ∀ m, decodeKey (f ++ m) = .ok (key, m))
    (hitem : ∀ e ∈ L, item e.1 e.2 = .ok (g e.1 e.2)) (r : Option (Bytes → Bool)) (n : ℕ) :
    DB.dataScanLoop decodeKey item r (L.map fun e => (f ++ e.1, e.2)) n =
      .ok (((L.filter fun e => selects r e.1).take n).map fun e => g e.1 e.2) := by
  induction L generalizing n with
  | nil => simp [dataScanLoop]
  | cons e L ih =>
    have hL := fun e' h => hitem e' (.tail _ h)
    cases n with
    | zero => simp [dataScanLoop]
    | succ n =>
      rw [map_cons, dataScanLoop]
      simp only [hdecode, hitem e (.head _), ih hL]
      by_cases hsel : selects r e.1 = true
      · have hsel' : (r.map (· e.1)).getD true = true := hsel
        simp [hsel', hsel, Except.map]
      · have hsel' : (r.map (· e.1)).getD true = false := Bool.eq_false_iff.mpr hsel
        simp [hsel', hsel]

theorem dataScanGeneric_run {α : Type} {elemSize : ℕ} {item : Bytes → Bytes → Except Err α}
    {g : Bytes → Bytes → α} (hs : StoreWf s) (hT : T.HasMembers) (hk : ValidKey key)
    (hdecode : ∀ m, decodeKey (front db T key ++ m) = .ok (key, m))
    (hitem : ∀ e ∈ s.under (front db T key), item e.1 e.2 = .ok (g e.1 e.2))
    (hmem : elemSize * (DB.checkScanCount count).toNat ≤ memory) (cursor : Bytes) (inclusive : Bool)
    (r : Option (Bytes → Bool)) (reverse : Bool) (env : Env) (t : Txn) :
    db.dataScanGeneric memory elemSize T.code decodeKey item key cursor count inclusive r reverse
      env s t =
    (.ok ((((metMembers db s T key cursor inclusive reverse).filter fun e =>
      selects r e.1).take (DB.checkScanCount count).toNat).map fun e => g e.1 e.2), t) := by
  have hmet : ∀ e ∈ metMembers db s T key cursor inclusive reverse,
      item e.1 e.2 = .ok (g e.1 e.2) := by
    intro e he
    rw [metMembers, Direction.arrange_filter, mem_filter, Direction.mem_arrange] at he
    exact hitem e he.1
  simp [dataScanGeneric, makePage, not_lt.mpr hmem, buildDataScanIterator_run hs hT db hk,
    dataScanLoop_ok hdecode hmet]

end

/-- What is scanned: the keys of a type, or the fields or members of one key. -/
inductive Scanned
  | keys (T : DataType)
  | fields (key : Bytes)
  | members (key : Bytes)
  | scores (key : Bytes)

namespace Scanned

def front (db : DB) : Scanned → Bytes
  | .keys T => db.plainKey T.plain []
  | .fields key => LedisDB.front db .HASH key
  | .members key => LedisDB.front db .SET key
  | .scores key => LedisDB.front db .ZSET key

def entries (db : DB) (s : Store) (x : Scanned) : List (Bytes × Bytes) := s.under (x.front db)

def elemSize : Scanned → ℕ
  | .keys _ => DB.sliceSize
  | .fields _ => DB.fvPairSize
  | .members _ => DB.sliceSize
  | .scores _ => DB.scorePairSize

def Valid : Scanned → Prop
  | .keys _ => True
  | .fields key => ValidKey key
  | .members key => ValidKey key
  | .scores key => ValidKey key

def found (db : DB) (s : Store) (x : Scanned) (cursor : Bytes) (count : ℤ) (inclusive : Bool)
    (r : Option (Bytes → Bool)) (reverse : Bool) : List (Bytes × Bytes) :=
  (((scanDirection reverse).arrange (x.entries db s)).filter fun e =>
    pastCursor cursor inclusive reverse e.1 && selects r e.1).take (DB.checkScanCount count).toNat

def page (db : DB) (memory : ℕ) (x : Scanned) (cursor : Bytes) (count : ℤ) (inclusive : Bool)
    (r : Option (Bytes → Bool)) (reverse : Bool) : Op (List Bytes) :=
  match x, reverse with
  | .keys T, false => db.Scan memory T cursor count inclusive r
  | .keys T, true => db.RevScan memory T cursor count inclusive r
  | .fields key, false => do
    let v ← db.HScan memory key cursor count inclusive r
    pure (v.map FVPair.Field)
  | .fields key, true => do
    let v ← db.HRevScan memory key cursor count inclusive r
    pure (v.map FVPair.Field)
  | .members key, false => db.SScan memory key cursor count inclusive r
  | .members key, true => db.SRevScan memory key cursor count inclusive r
  | .scores key, false => do
    let v ← db.ZScan memory key cursor count inclusive r
    pure (v.map ScorePair.Member)
  | .scores key, true => do
    let v ← db.ZRevScan memory key cursor count inclusive r
    pure (v.map ScorePair.Member)

end Scanned

section
variable {db : DB} {env : Env} {s : Store} {key : Bytes} {count : ℤ} {memory : ℕ} {t : Txn}
  {reverse : Bool}

section
variable (cursor : Bytes) (inclusive : Bool) (r : Option (Bytes → Bool)) (reverse : Bool)

theorem metMembers_found (x : Scanned) (T : DataType) (hx : x.front db = front db T key) :
    (((metMembers db s T key cursor inclusive reverse).filter fun e =>
      selects r e.1).take (DB.checkScanCount count).toNat) =
        x.found db s cursor count inclusive r reverse := by
  rw [metMembers, Direction.arrange_filter, Scanned.found, Scanned.entries, hx]
  simp [Bool.and_comm]

theorem keys_run (hs : StoreWf s) (T : DataType)
    (hmem : (Scanned.keys T).elemSize * (DB.checkScanCount count).toNat ≤ memory) :
    (Scanned.keys T).page db memory cursor count inclusive r reverse env s t =
      (.ok (((Scanned.keys T).found db s cursor count inclusive r reverse).map Prod.fst), t) := by
  have hfound : (((Scanned.keys T).found db s cursor count inclusive r reverse).map Prod.fst) =
      (((scanDirection reverse).arrange (db.keysOf s T)).filter fun k =>
        pastCursor cursor inclusive reverse k && selects r k).take
          (checkScanCount count).toNat := by
    rw [Scanned.found, map_take, keysOf, Direction.arrange_map, filter_map]
    rfl
  have htype : getDataStoreType T = T.plain := by
    cases T <;> rfl
  rw [hfound]
  cases reverse <;>
    simp [Scanned.page, DB.Scan, DB.RevScan, makePage,
      show ¬ sliceSize * (checkScanCount count).toNat > memory from not_lt.mpr hmem, htype,
      scanGeneric_run hs]

theorem hScanGeneric_run (hs : StoreWf s) (hk : ValidKey key)
    (hmem : DB.fvPairSize * (DB.checkScanCount count).toNat ≤ memory) :
    db.hScanGeneric memory key cursor count inclusive r reverse env s t =
      (.ok (((Scanned.fields key).found db s cursor count inclusive r reverse).map
        fun e => ⟨e.1, e.2⟩), t) := by
  rw [← metMembers_found _ _ _ _ (Scanned.fields key) .HASH rfl]
  refine dataScanGeneric_run hs (.inl rfl) hk (fun m => ?_) (fun _ _ => rfl) hmem
    cursor inclusive r reverse env t
  rw [front_append]
  exact db.decodeMemberKey_itemKey HashType _ m (DB.ValidKey.le_uint16 hk)

theorem sScanGeneric_run (hs : StoreWf s) (hk : ValidKey key)
    (hmem : DB.sliceSize * (DB.checkScanCount count).toNat ≤ memory) :
    db.sScanGeneric memory key cursor count inclusive r reverse env s t =
      (.ok (((Scanned.members key).found db s cursor count inclusive r reverse).map Prod.fst),
        t) := by
  rw [← metMembers_found _ _ _ _ (Scanned.members key) .SET rfl]
  refine dataScanGeneric_run (g := fun m _ => m) hs (.inr (.inl rfl)) hk
    (fun m => ?_) (fun _ _ => rfl) hmem cursor inclusive r reverse env t
  rw [front_append]
  exact db.decodeMemberKey_itemKey SetType _ m (DB.ValidKey.le_uint16 hk)

def scoreIn (v : Bytes) : Int64 := ((decodeInt64 (some v)).toOption).getD 0

theorem zScanGeneric_run (hs : Reached s) (hk : ValidKey key)
    (hmem : DB.scorePairSize * (DB.checkScanCount count).toNat ≤ memory) :
    db.zScanGeneric memory key cursor count inclusive r reverse env s t =
      (.ok (((Scanned.scores key).found db s cursor count inclusive r reverse).map
        fun e => ⟨scoreIn e.2, e.1⟩), t) := by
  rw [← metMembers_found _ _ _ _ (Scanned.scores key) .ZSET rfl]
  refine dataScanGeneric_run (g := fun m v => (⟨scoreIn v, m⟩ : ScorePair)) hs.wf
    (.inr (.inr rfl)) hk (fun m => ?_) (fun e he => ?_) hmem cursor inclusive r reverse env t
  · rw [front_append]
    exact db.zDecodeSetKey_zEncodeSetKey m (DB.ValidKey.le_uint16 hk)
  · have hget := mem_under.mp he
    rw [← zEncodeSetKey_front] at hget
    obtain ⟨c, hc⟩ := hs.proper.score db key e.1 e.2 hget
    simp [hc, scoreIn, Except.map, Except.toOption]

theorem page_run (hs : Reached s) (x : Scanned) (hx : x.Valid)
    (hmem : x.elemSize * (DB.checkScanCount count).toNat ≤ memory) :
    (x.page db memory cursor count inclusive r reverse).eval env s =
      .ok ((x.found db s cursor count inclusive r reverse).map Prod.fst) := by
  cases x with
  | keys T => exact congrArg Prod.fst (keys_run cursor inclusive r reverse hs.wf T hmem)
  | fields key =>
    cases reverse <;>
      simp [Op.eval, Scanned.page, DB.HScan, DB.HRevScan, hScanGeneric_run _ _ _ _ hs.wf hx hmem]
  | members key =>
    cases reverse <;>
      simp [Op.eval, Scanned.page, DB.SScan, DB.SRevScan, sScanGeneric_run _ _ _ _ hs.wf hx hmem]
  | scores key =>
    cases reverse <;>
      simp [Op.eval, Scanned.page, DB.ZScan, DB.ZRevScan, zScanGeneric_run _ _ _ _ hs hx hmem]

end

def Scanned.matching (db : DB) (s : Store) (x : Scanned) (r : Option (Bytes → Bool))
    (reverse : Bool) : List Bytes :=
  ((scanDirection reverse).arrange ((x.entries db s).map Prod.fst)).filter (selects r)

def Scanned.matchingEntries (db : DB) (s : Store) (x : Scanned) (r : Option (Bytes → Bool))
    (reverse : Bool) : List (Bytes × Bytes) :=
  ((scanDirection reverse).arrange (x.entries db s)).filter fun e => selects r e.1

theorem matchingEntries_names (x : Scanned) (r : Option (Bytes → Bool)) (reverse : Bool) :
    (x.matchingEntries db s r reverse).map Prod.fst = x.matching db s r reverse := by
  rw [Scanned.matching, Direction.arrange_map, filter_map]
  rfl

def scanBefore (reverse : Bool) (a b : Bytes) : Prop := if reverse then b < a else a < b

instance (reverse : Bool) : DecidableRel (scanBefore reverse) := fun _ _ => by
  unfold scanBefore
  infer_instance

theorem scanBefore_asymm (reverse : Bool) (a b : Bytes) (h : scanBefore reverse a b) :
    ¬ scanBefore reverse b a := by
  cases reverse <;> exact lt_asymm h

theorem matching_sorted (db : DB) (s : Store) (x : Scanned) (r : Option (Bytes → Bool))
    (reverse : Bool) : (x.matching db s r reverse).Pairwise (scanBefore reverse) := by
  have hs : ((x.entries db s).map Prod.fst).Pairwise (· < ·) := pairwise_map.mpr (s.under_sorted _)
  refine List.Pairwise.filter _ ?_
  cases reverse with
  | false => exact hs
  | true => exact pairwise_reverse.mpr hs

def fromCursor (cursor : Bytes) (reverse : Bool) (x : Bytes) : Bool :=
  if reverse then decide (cursor = []) || decide (x ≤ cursor) else cursor ≤ x

/-- A scan is complete: the pages that follow one another hold every matching element once
and in order, and an inclusive page starts at its cursor. -/
structure ScansAll (db : DB) (env : Env) (memory : ℕ) (s : Store) (x : Scanned) (count : ℤ)
    (r : Option (Bytes → Bool)) (reverse : Bool) : Prop where
  sorted : (x.matching db s r reverse).Pairwise (scanBefore reverse)
  pages : ∀ fuel, (x.matching db s r reverse).length < fuel →
    collectPages (fun cursor => (x.page db memory cursor count false r reverse).eval env s) id
      fuel [] = some (x.matching db s r reverse)
  inclusive : ∀ cursor, (x.page db memory cursor count true r reverse).eval env s =
    .ok (((x.matching db s r reverse).filter (fromCursor cursor reverse)).take
      (DB.checkScanCount count).toNat)

theorem found_eq (x : Scanned) (cursor : Bytes) (inclusive : Bool) (r : Option (Bytes → Bool))
    (reverse : Bool) : x.found db s cursor count inclusive r reverse =
      ((x.matchingEntries db s r reverse).filter fun e =>
        pastCursor cursor inclusive reverse e.1).take (DB.checkScanCount count).toNat := by
  rw [Scanned.found, Scanned.matchingEntries, filter_filter]

theorem found_names (x : Scanned) (cursor : Bytes) (inclusive : Bool) (r : Option (Bytes → Bool))
    (reverse : Bool) : (x.found db s cursor count inclusive r reverse).map Prod.fst =
      ((x.matching db s r reverse).filter (pastCursor cursor inclusive reverse)).take
        (DB.checkScanCount count).toNat := by
  rw [found_eq, map_take, ← matchingEntries_names, filter_map]
  rfl

theorem pastCursor_start (reverse : Bool) (x : Bytes) :
    pastCursor [] false reverse x = decide (x ≠ []) := by
  cases reverse with
  | false => cases x <;> simp [pastCursor]
  | true => simp [pastCursor]

theorem pastCursor_next {cursor : Bytes} (hcur : cursor ≠ []) (reverse : Bool) :
    pastCursor cursor false reverse x =
      (decide (x ≠ []) && decide (scanBefore reverse cursor x)) := by
  cases reverse with
  | false =>
    have hx : cursor < x → x ≠ [] := by
      rintro h rfl
      exact absurd h (by simp)
    by_cases h : cursor < x
    · simp [pastCursor, scanBefore, hx h]
    · simp [pastCursor, scanBefore, h]
  | true => simp [pastCursor, scanBefore, hcur]

theorem checkScanCount_pos (count : ℤ) : 0 < (DB.checkScanCount count).toNat := by
  unfold checkScanCount defaultScanCount
  split_ifs <;> omega

theorem found_pages (ε : Type) (db : DB) (s : Store) (x : Scanned) (count : ℤ)
    (r : Option (Bytes → Bool)) (reverse : Bool) :
    Pages (fun cursor => (.ok (x.found db s cursor count false r reverse) : Except ε _)) Prod.fst []
      (DB.checkScanCount count).toNat
      ((x.matchingEntries db s r reverse).filter fun e => e.1 ≠ []) := by
  have hs : (x.matchingEntries db s r reverse).Pairwise fun a b => scanBefore reverse a.1 b.1 := by
    have hnames := matching_sorted db s x r reverse
    rwa [← matchingEntries_names, pairwise_map] at hnames
  refine Pages.of_sorted (scanBefore_asymm reverse) (hs.filter _) ?_ fun a ha => ?_
  · rw [found_eq, filter_congr fun y _ => pastCursor_start reverse y.1]
  · have hne := of_decide_eq_true (mem_filter.mp ha).2
    rw [found_eq, filter_filter,
      filter_congr fun y _ => (pastCursor_next hne reverse).trans (Bool.and_comm _ _)]

theorem scan_pages (hs : Reached s) (db : DB) (env : Env) (x : Scanned) (hx : x.Valid)
    (hmem : x.elemSize * (DB.checkScanCount count).toNat ≤ memory) (r : Option (Bytes → Bool))
    (reverse : Bool) :
    Pages (fun cursor => (x.page db memory cursor count false r reverse).eval env s) id []
      (DB.checkScanCount count).toNat ((x.matching db s r reverse).filter (· ≠ [])) := by
  have hpages := (found_pages Err db s x count r reverse).map Prod.fst id fun _ => rfl
  have hnames : ((x.matchingEntries db s r reverse).filter fun e => e.1 ≠ []).map Prod.fst =
      (x.matching db s r reverse).filter (· ≠ []) := by
    rw [← matchingEntries_names, filter_map]
    rfl
  rw [hnames] at hpages
  simpa only [page_run _ _ _ _ hs x hx hmem, Except.map] using hpages

theorem fromCursor_eq {cursor : Bytes} (hx : reverse = true → x ≠ []) :
    pastCursor cursor true reverse x = fromCursor cursor reverse x := by
  cases reverse with
  | false => rfl
  | true => simp [pastCursor, fromCursor, hx rfl]

theorem matching_nonempty (hs : StoreWf s) {x : Scanned} (hx : ∀ T, x ≠ .keys T)
    (r : Option (Bytes → Bool)) (reverse : Bool) : [] ∉ x.matching db s r reverse := by
  intro hmem
  have hin := (mem_filter.mp hmem).1
  rw [Direction.mem_arrange] at hin
  obtain ⟨e, he, hnil⟩ := mem_map.mp hin
  have hget := mem_under.mp he
  rw [hnil, append_nil] at hget
  have hempty : ∀ {T key}, T.HasMembers → s.get (front db T key) = some e.2 → False :=
    fun hT h => absurd (hs.member_entry hT h).2.1 (by simp)
  cases x with
  | keys T => exact hx T rfl
  | fields key => exact hempty (.inl rfl) hget
  | members key => exact hempty (.inr (.inl rfl)) hget
  | scores key => exact hempty (.inr (.inr rfl)) hget

theorem ScansAll.of_nonempty (hs : Reached s) {x : Scanned} (hx : x.Valid)
    (hmem : x.elemSize * (DB.checkScanCount count).toNat ≤ memory) {r : Option (Bytes → Bool)}
    (h : [] ∉ x.matching db s r reverse) : ScansAll db env memory s x count r reverse := by
  have hne : ∀ y ∈ x.matching db s r reverse, y ≠ [] := fun y hy hnil => h (hnil ▸ hy)
  have hall := filter_eq_self.mpr fun y hy => decide_eq_true (hne y hy)
  refine ⟨matching_sorted db s x r reverse, fun fuel hf => ?_, fun cursor => ?_⟩
  · have hpages := scan_pages hs db env x hx hmem r reverse
    rw [hall] at hpages
    exact collectPages_eq hpages (checkScanCount_pos count) hf
  · rw [page_run _ _ _ _ hs x hx hmem, found_names,
      filter_congr fun y hy => fromCursor_eq fun _ => hne y hy]

/-- In every state that is reached, a scan is complete exactly when the element with no bytes
does not match; a hash, set or zset has no such element. -/
theorem scan_complete_iff (hs : Reached s) (db : DB) (env : Env) (x : Scanned) (hx : x.Valid)
    (hmem : x.elemSize * (DB.checkScanCount count).toNat ≤ memory) (r : Option (Bytes → Bool))
    (reverse : Bool) :
    (ScansAll db env memory s x count r reverse ↔ [] ∉ x.matching db s r reverse) ∧
      ((∀ T, x ≠ .keys T) → ScansAll db env memory s x count r reverse) := by
  refine ⟨⟨fun h hnil => ?_, ScansAll.of_nonempty hs hx hmem⟩, fun hkeys =>
    ScansAll.of_nonempty hs hx hmem (matching_nonempty hs.wf hkeys r reverse)⟩
  have hpages := scan_pages hs db env x hx hmem r reverse
  have hlen : ((x.matching db s r reverse).filter (· ≠ [])).length <
      (x.matching db s r reverse).length + 1 := Nat.lt_succ_of_le (List.length_filter_le _ _)
  have hread := collectPages_eq hpages (checkScanCount_pos count) hlen
  rw [h.pages _ (Nat.lt_succ_self _)] at hread
  have hmatch := Option.some.inj hread
  rw [hmatch] at hnil
  exact of_decide_eq_true (List.mem_filter.mp hnil).2 rfl

theorem scan_complete_fields : ScansAll DB.zero (Env.quiet 0) 4096
    (exec (Env.quiet 0) (DB.zero.HMset [104] [⟨[97], [1]⟩, ⟨[98], [2]⟩, ⟨[99], [3]⟩])
      State.empty).2.store (.fields [104]) 2 none true := by
  have hreached := @Reached.call State.empty DB.zero (Env.quiet 0)
    (.write (.HMset [104] [⟨[97], [1]⟩, ⟨[98], [2]⟩, ⟨[99], [3]⟩])) .empty
  have hkey : ValidKey [104] := by decide
  refine (scan_complete_iff hreached DB.zero (Env.quiet 0) (.fields [104]) hkey (by decide)
    none true).2 fun T h => ?_
  cases h

theorem scan_misses_empty_key : ∃ s, Reached s ∧
    ((Scanned.keys .ZSET).page DB.zero 4096 [] 10 true none false).eval (Env.quiet 0) s = .ok [[]] ∧
    collectPages (fun cursor => ((Scanned.keys .ZSET).page DB.zero 4096 cursor 10 false none
      false).eval (Env.quiet 0) s) id 2 [] = some [] :=
  ⟨_, @Reached.call State.empty DB.zero (Env.quiet 0)
    (.write (.ZUnionStore [] [[107]] none AggregateSum)) .empty, by decide, by decide⟩

end

end LedisDB
