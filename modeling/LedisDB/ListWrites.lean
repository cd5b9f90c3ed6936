import LedisDB.ListEntries

/-!
# Pushes and pops

What the pushes and pops of a list do to its sequence. A push of at most `2^31`
values is accepted exactly when both ends of the longer sequence stay in range:
the `int32` arithmetic wraps, but never back into the range.
-/

namespace LedisDB

open List

section
variable {db : DB} {env : Env} {s m : Store} {key : Bytes} {q q' : Sequence} {u t : Txn} {h : ℤ}
  {xs args : List Bytes} {seq whereSeq : Int32} {i : ℕ}

def metaBatch (db : DB) (key : Bytes) (h t : ℤ) : Batch :=
  if t - h + 1 < 0 then []
  else if t - h + 1 = 0 then [.delete (db.lEncodeMetaKey key)]
  else [.put (db.lEncodeMetaKey key) (putMeta (Int32.ofInt h) (Int32.ofInt t))]

theorem lSetMeta_run {t : ℤ} (hz : -2 ^ 31 ≤ t - h + 1 ∧ t - h + 1 < 2 ^ 31) :
    db.lSetMeta (db.lEncodeMetaKey key) (Int32.ofInt h) (Int32.ofInt t) env s u =
      (.ok (Int32.ofInt (t - h + 1)), u.queue (metaBatch db key h t)) := by
  have hsize : Int32.ofInt t - Int32.ofInt h + 1 = Int32.ofInt (t - h + 1) := by
    rw [Int32.ofInt_add, Int32.ofInt_sub]
    rfl
  have hlt : Int32.ofInt (t - h + 1) < 0 ↔ t - h + 1 < 0 := by
    rw [Int32.lt_iff_toInt_lt, toInt_ofInt32 hz]
    rfl
  have heq : Int32.ofInt (t - h + 1) = 0 ↔ t - h + 1 = 0 := by
    rw [ofInt_eq_iff hz, eq_comm]
    rfl
  simp only [DB.lSetMeta, metaBatch, hsize, hlt, heq]
  split_ifs <;> simp

theorem metaBatch_get_item (h t : ℤ) (n : Int32) :
    (m.applyBatch (metaBatch db key h t)).get (db.lEncodeListKey key n) =
      m.get (db.lEncodeListKey key n) := by
  apply get_applyBatch_of_not_mem
  unfold metaBatch
  intro o ho
  split_ifs at ho
  · cases ho
  · rw [mem_singleton.mp ho]
    exact (lEncodeListKey_ne_meta n).symm
  · rw [mem_singleton.mp ho]
    exact (lEncodeListKey_ne_meta n).symm

theorem Items.listRep (hi : Items db m key h xs) (hfits : xs ≠ [] → Sequence.Fits ⟨h, xs⟩) :
    ListRep db (m.applyBatch (metaBatch db key h (h + xs.length - 1))) key ⟨h, xs⟩ := by
  refine ⟨hfits, ?_, fun n => (metaBatch_get_item _ _ n).trans (hi n)⟩
  rw [metaBatch, show h + xs.length - 1 - h + 1 = xs.length by omega, if_neg (by omega)]
  by_cases hx : xs = []
  · simp [hx, OrderedMap.applyBatch, get_applyOp]
  · simp [hx, Sequence.tail]

theorem ListRep.expireOnly (h : ListRep db m key q) {b : Batch} (hb : ExpireOnly db b) :
    ListRep db (m.applyBatch b) key q :=
  h.congr (hb.get (.lmeta key)) fun n => hb.get (.litem key n)

theorem rmBatch_expireOnly (dataType : UInt8) (key' : Bytes) :
    ExpireOnly db (db.rmBatch s dataType key') := fun _ ho => rmBatch_key ho

def ListOnly (db : DB) (key : Bytes) (b : Batch) : Prop :=
  ∀ o ∈ b, DataEntry db .LIST key o.key

theorem ListOnly.append {a b : Batch} (ha : ListOnly db key a) (hb : ListOnly db key b) :
    ListOnly db key (a ++ b) := by
  intro o ho
  rcases mem_append.mp ho with ho | ho
  · exact ha o ho
  · exact hb o ho

theorem metaBatch_listOnly (h t : ℤ) : ListOnly db key (metaBatch db key h t) := by
  intro o ho
  unfold metaBatch at ho
  split_ifs at ho
  · cases ho
  · rw [mem_singleton.mp ho]
    exact .lmeta key
  · rw [mem_singleton.mp ho]
    exact .lmeta key

def pushBatch (db : DB) (key : Bytes) (seq delta : Int32) : ℕ → List Bytes → Batch
  | _, [] => []
  | i, arg :: args => .put (db.lEncodeListKey key (seq + Int32.ofNat i * delta)) arg ::
      pushBatch db key seq delta (i + 1) args

theorem lpushLoop_run (seq delta : Int32) (i : ℕ) (args : List Bytes) :
    db.lpushLoop key seq delta i args env s u =
      (.ok (), u.queue (pushBatch db key seq delta i args)) := by
  induction args generalizing i u with
  | nil => simp [DB.lpushLoop, pushBatch]
  | cons a as ih => simp [DB.lpushLoop, pushBatch, ih]

theorem pushBatch_tail (hi : Items db m key h xs)
    (hseq : seq + Int32.ofNat i * 1 = Int32.ofInt (h + xs.length))
    (hb : -2 ^ 31 ≤ h ∧ h + xs.length + args.length ≤ 2 ^ 31) :
    Items db (m.applyBatch (pushBatch db key seq 1 i args)) key h (xs ++ args) := by
  induction args generalizing m xs i with
  | nil => simpa [pushBatch] using hi
  | cons a as ih =>
    rw [length_cons] at hb
    have hput := hi.put_tail ⟨hb.1, by omega⟩ a
    rw [← hseq] at hput
    have hnext : seq + Int32.ofNat (i + 1) * 1 = Int32.ofInt (h + (xs ++ [a]).length) := by
      rw [length_append, Nat.cast_add, ← Int.add_assoc,
        Int32.ofInt_add, ← hseq, Int32.ofNat_add, Int32.mul_one, Int32.mul_one, Int32.add_assoc]
      rfl
    have hrest := ih hput hnext ⟨hb.1, by simp; omega⟩
    rwa [append_assoc] at hrest

theorem pushBatch_head (hi : Items db m key h xs)
    (hseq : seq + Int32.ofNat i * -1 = Int32.ofInt (h - 1))
    (hb : -2 ^ 31 ≤ h - args.length ∧ h ≤ 2 ^ 31) :
    Items db (m.applyBatch (pushBatch db key seq (-1) i args)) key (h - args.length)
      (args.reverse ++ xs) := by
  induction args generalizing m h xs i with
  | nil => simpa [pushBatch] using hi
  | cons a as ih =>
    rw [length_cons] at hb ⊢
    have hput := hi.put_head ⟨by omega, hb.2⟩ a
    rw [← hseq] at hput
    have hnext : seq + Int32.ofNat (i + 1) * -1 = Int32.ofInt (h - 1 - 1) := by
      rw [Int32.ofInt_sub, ← hseq, Int32.ofNat_add, Int32.add_mul, ← Int32.add_assoc,
        Int32.sub_eq_add_neg, show Int32.ofNat 1 * -1 = -Int32.ofInt 1 by decide]
    have hrest := ih hput hnext ⟨by omega, by omega⟩
    rw [show h - 1 - as.length = h - (as.length + 1) by omega] at hrest
    rwa [reverse_cons, append_assoc]

namespace Sequence

def pushHead (q : Sequence) (args : List Bytes) : Sequence :=
  ⟨(if q.items = [] then 1073741825 else q.head) - args.length, args.reverse ++ q.items⟩

def pushTail (q : Sequence) (args : List Bytes) : Sequence :=
  ⟨if q.items = [] then 1073741824 else q.head, q.items ++ args⟩

end Sequence

theorem listInitialSeq_eq : listInitialSeq = Int32.ofInt 1073741824 := by decide

theorem size_toInt64 (h : ListRep db s key q) :
    (metaOf q).2.2.toInt64 = Int64.ofNat q.items.length := by
  have hlen := h.length_lt
  unfold metaOf
  split_ifs with hq
  · simp [hq]
  · rw [← Int64.toInt_inj, Int32.toInt_toInt64, toInt_ofInt32 ⟨by omega, by omega⟩,
      Int64.toInt_ofNat_of_lt (by omega)]

theorem lpush_nil (hk : ValidKey key) (h : ListRep db s key q) (whereSeq : Int32) :
    db.lpush key whereSeq [] env s u = (.ok (.done (Int64.ofNat q.items.length)), u) := by
  have hsize := size_toInt64 h
  simp [DB.lpush, checkKeySize_ok.mpr hk, h.lGetMeta, hsize]

theorem size_pos_iff (h : ListRep db s key q) : (metaOf q).2.2 > 0 ↔ q.items ≠ [] := by
  have hlen := h.length_lt
  unfold metaOf
  split_ifs with hq
  · simp [hq]
  · rw [gt_iff_lt, Int32.lt_iff_toInt_lt, toInt_ofInt32 ⟨by omega, by omega⟩,
      ← List.length_pos_iff]
    exact Int.natCast_pos

theorem tail_start (h : ListRep db s key q) :
    (if (metaOf q).2.2 > 0 then (metaOf q).2.1 + 1 else (metaOf q).2.1) =
      Int32.ofInt ((if q.items = [] then 1073741824 else q.head) + q.items.length) := by
  have hpos := size_pos_iff h
  by_cases hq : q.items = []
  · simp [metaOf, hq, listInitialSeq_eq]
  · rw [if_pos (hpos.mpr hq), metaOf, if_neg hq, if_neg hq, show 1 = Int32.ofInt 1 from rfl,
      ← Int32.ofInt_add]
    congr 1
    unfold Sequence.tail
    omega

theorem head_start (h : ListRep db s key q) :
    (if (metaOf q).2.2 > 0 then (metaOf q).1 + -1 else (metaOf q).1) =
      Int32.ofInt ((if q.items = [] then 1073741825 else q.head) - 1) := by
  have hpos := size_pos_iff h
  by_cases hq : q.items = []
  · simp [metaOf, hq, listInitialSeq_eq]
  · rw [if_pos (hpos.mpr hq), metaOf, if_neg hq, if_neg hq, show -1 = Int32.ofInt (-1) from rfl,
      ← Int32.ofInt_add]
    rfl

theorem push_base (h : ListRep db s key q) (hq : q.items ≠ []) :
    1000 < q.head ∧ q.head + q.items.length ≤ 2147482648 := by
  obtain ⟨h1, h2⟩ := h.fits hq
  unfold Sequence.tail at h2
  omega

theorem ListRep.items_nil_iff (h : ListRep db s key q) :
    q.items = [] ↔ s.get (db.lEncodeMetaKey key) = none := by
  rw [h.metaEntry]
  split_ifs with hq <;> simp [hq]

theorem ListRep.items_unique (h : ListRep db s key q) (h' : ListRep db s key q') :
    q.items = q'.items := by
  by_cases hq : q.items = []
  · rw [hq, h'.items_nil_iff.mpr (h.items_nil_iff.mp hq)]
  · have hq' := fun hnil => hq (h.items_nil_iff.mpr (h'.items_nil_iff.mp hnil))
    obtain ⟨h1, h2⟩ := push_base h hq
    obtain ⟨h1', h2'⟩ := push_base h' hq'
    have htail : q.tail = q.head + q.items.length - 1 := rfl
    have htail' : q'.tail = q'.head + q'.items.length - 1 := rfl
    have hmeta := h.metaEntry.symm.trans h'.metaEntry
    rw [if_neg hq, if_neg hq', Option.some.injEq] at hmeta
    have hends := congrArg getMeta hmeta
    rw [getMeta_putMeta, getMeta_putMeta, Except.ok.injEq, Prod.mk.injEq,
      ofInt_eq_iff ⟨by omega, by omega⟩, ofInt_eq_iff ⟨by omega, by omega⟩,
      toInt_ofInt32 ⟨by omega, by omega⟩, toInt_ofInt32 ⟨by omega, by omega⟩] at hends
    apply ext_getElem?
    intro i
    by_cases hi : i < q.items.length
    · have hitem := (h.items (Int32.ofInt (q.head + i))).symm.trans (h'.items _)
      rwa [toInt_ofInt32 ⟨by omega, by omega⟩, hends.1, window_shift, window_shift] at hitem
    · rw [getElem?_eq_none (by omega), getElem?_eq_none (by omega)]

theorem seq_check {z : ℤ} (hz : 1000 - 2 ^ 31 ≤ z ∧ z < 2147482648 + 2 ^ 31) :
    (Int32.ofInt z ≤ listMinSeq ∨ Int32.ofInt z ≥ listMaxSeq) ↔ ¬ (1000 < z ∧ z < 2147482648) := by
  have hmin : listMinSeq.toInt = 1000 := by decide
  have hmax : listMaxSeq.toInt = 2147482648 := by decide
  rw [ge_iff_le, Int32.le_iff_toInt_le, Int32.le_iff_toInt_le, Int32.toInt_ofInt,
    show Int32.size = 4294967296 from rfl]
  by_cases hlt : z < 2 ^ 31
  · rw [Int.bmod_eq_of_le (by omega) (by omega)]
    omega
  · -- a wrapped sequence number is negative
    have hwrap : z.bmod 4294967296 = z - 4294967296 := by
      rw [Int.bmod_def]
      omega
    omega

theorem lpush_run (hk : ValidKey key) (h : ListRep db s key q) {args : List Bytes}
    (hne : args ≠ []) {whereSeq delta seq : Int32} {z a b : ℤ}
    (hdelta : (if whereSeq = listTailSeq then (1 : Int32) else -1) = delta)
    (hseq : (if (metaOf q).2.2 > 0
      then (if whereSeq = listTailSeq then (metaOf q).2.1 else (metaOf q).1) + delta
      else if whereSeq = listTailSeq then (metaOf q).2.1 else (metaOf q).1) = seq)
    (hz : seq + Int32.ofNat (args.length - 1) * delta = Int32.ofInt z)
    (hrange : 1000 - 2 ^ 31 ≤ z ∧ z < 2147482648 + 2 ^ 31)
    (ha : (if whereSeq = listHeadSeq then Int32.ofInt z else (metaOf q).1) = Int32.ofInt a)
    (hb : (if whereSeq = listHeadSeq then (metaOf q).2.1 else Int32.ofInt z) = Int32.ofInt b)
    (hab : 1000 < z ∧ z < 2147482648 → -2 ^ 31 ≤ b - a + 1 ∧ b - a + 1 < 2 ^ 31) :
    db.lpush key whereSeq args env s u =
      if 1000 < z ∧ z < 2147482648
      then (.ok (.commit (Int64.ofNat (q.items.length + args.length))),
        u.queue (pushBatch db key seq delta 0 args ++ metaBatch db key a b))
      else (.error .errListSeq, u.queue (pushBatch db key seq delta 0 args)) := by
  have hpos : args.length ≠ 0 := by simpa using hne
  have hsize := size_toInt64 h
  have hcheck := seq_check hrange
  simp only [DB.lpush, Op.bind_run, Op.lift_run, checkKeySize_ok.mpr hk, h.lGetMeta, if_neg hpos,
    hdelta, hseq, lpushLoop_run, hz, hcheck, ha, hb]
  by_cases hin : 1000 < z ∧ z < 2147482648
  · rw [if_neg (not_not.mpr hin), if_pos hin]
    simp [lSetMeta_run (hab hin), hsize]
  · rw [if_pos hin, if_neg hin, Op.throw_run]

/-- The push `x` answers `n` and queues the writes that make the list `q`, or is refused because
an end of `q` is out of range. -/
def Pushes (db : DB) (env : Env) (s : Store) (u : Txn) (key : Bytes) (x : Op (Ret Int64))
    (n : Int64) (q : Sequence) : Prop :=
  ∃ b, x env s u = (if q.Fits then .ok (.commit n) else .error .errListSeq,
      u.queue b) ∧ (q.Fits → ListRep db (s.applyBatch b) key q)

theorem Pushes.intro {x : Op (Ret Int64)} {n : Int64} {a b : Batch} {P : Prop} [Decidable P]
    (hfits : q.Fits ↔ P) (hrun : x env s u = if P then (.ok (.commit n), u.queue (a ++ b))
      else (.error .errListSeq, u.queue a))
    (hrep : q.Fits → ListRep db ((s.applyBatch a).applyBatch b) key q) :
    Pushes db env s u key x n q := by
  by_cases hf : q.Fits
  · exact ⟨a ++ b, by rw [hrun, if_pos hf, if_pos (hfits.mp hf)], fun _ => by
      rw [applyBatch_append]
      exact hrep hf⟩
  · exact ⟨a, by rw [hrun, if_neg hf, if_neg (mt hfits.mpr hf)], fun h => absurd h hf⟩

theorem ListRep.items_from (h : ListRep db s key q) (z : ℤ) :
    Items db s key (if q.items = [] then z else q.head) q.items := by
  split_ifs with hq
  · rw [hq]
    exact h.items_any hq _
  · exact h.items

theorem RPush_run (env : Env) (u : Txn) (hk : ValidKey key) (h : ListRep db s key q)
    (hne : args ≠ []) (hn : args.length ≤ 2 ^ 31) : Pushes db env s u key (db.RPush key args)
      (Int64.ofNat (q.items.length + args.length)) (q.pushTail args) := by
  have hpos : args.length ≠ 0 := by simpa using hne
  have hbase : 1000 < (q.pushTail args).head ∧
      (q.pushTail args).head + q.items.length ≤ 2147482648 := by
    unfold Sequence.pushTail
    split_ifs with hq
    · simp [hq]
    · exact push_base h hq
  have hhead : (metaOf q).1 = Int32.ofInt (q.pushTail args).head := by
    unfold metaOf Sequence.pushTail
    split_ifs with hq
    · exact listInitialSeq_eq
    · rfl
  have htail : (q.pushTail args).tail =
      (q.pushTail args).head + q.items.length + (args.length - 1 : ℕ) := by
    simp only [Sequence.tail, Sequence.pushTail, length_append]
    omega
  have hend : Int32.ofInt ((q.pushTail args).head + q.items.length) +
      Int32.ofNat (args.length - 1) * 1 = Int32.ofInt (q.pushTail args).tail := by
    rw [htail, Int32.ofInt_add _ (args.length - 1 : ℕ), int32_ofNat, Int32.mul_one]
  have hfits : (q.pushTail args).Fits ↔
      1000 < (q.pushTail args).tail ∧ (q.pushTail args).tail < 2147482648 := by
    unfold Sequence.Fits
    omega
  have hdelta : (if listTailSeq = listTailSeq then (1 : Int32) else -1) = 1 := rfl
  have hrun := @lpush_run db env s key q u hk h args hne _ _ _ _ _ _ hdelta (tail_start h) hend
    ⟨by omega, by omega⟩ hhead rfl (by omega)
  refine .intro hfits hrun fun hf => ?_
  have hlast := hf.2
  exact Items.listRep (pushBatch_tail (h.items_from _)
    (by rw [show Int32.ofNat 0 * 1 = 0 from rfl, Int32.add_zero]; rfl)
    ⟨by omega, by omega⟩) fun _ => hf

theorem LPush_run (env : Env) (u : Txn) (hk : ValidKey key) (h : ListRep db s key q)
    (hne : args ≠ []) (hn : args.length ≤ 2 ^ 31) : Pushes db env s u key (db.LPush key args)
      (Int64.ofNat (q.items.length + args.length)) (q.pushHead args) := by
  have hpos : args.length ≠ 0 := by simpa using hne
  have hbase : 1000 < (q.pushHead args).head + args.length ∧
      (q.pushHead args).head + args.length + q.items.length ≤ 2147482648 := by
    unfold Sequence.pushHead
    split_ifs with hq
    · simp [hq]
    · simpa using push_base h hq
  have hhead : (if q.items = [] then 1073741825 else q.head) - 1 =
      (q.pushHead args).head + (args.length - 1) := by
    change _ = (if q.items = [] then 1073741825 else q.head) - args.length + _
    omega
  have htail : (metaOf q).2.1 = Int32.ofInt (q.pushHead args).tail := by
    unfold metaOf Sequence.pushHead Sequence.tail
    split_ifs with hq
    · rw [listInitialSeq_eq]
      simp [hq]
    · rw [length_append, length_reverse]
      change Int32.ofInt _ = Int32.ofInt (q.head - args.length + _ - 1)
      congr 1
      omega
  have hlast : (q.pushHead args).tail =
      (q.pushHead args).head + args.length + q.items.length - 1 := by
    simp only [Sequence.tail, Sequence.pushHead, length_append, length_reverse]
    omega
  have hend : Int32.ofInt ((if q.items = [] then 1073741825 else q.head) - 1) +
      Int32.ofNat (args.length - 1) * -1 = Int32.ofInt (q.pushHead args).head := by
    rw [hhead, Int32.ofInt_add, int32_ofNat]
    grind
  have hfits : (q.pushHead args).Fits ↔
      1000 < (q.pushHead args).head ∧ (q.pushHead args).head < 2147482648 := by
    unfold Sequence.Fits
    omega
  have hdelta : (if listHeadSeq = listTailSeq then (1 : Int32) else -1) = -1 := rfl
  have hrun := @lpush_run db env s key q u hk h args hne _ _ _ _ _ _ hdelta (head_start h) hend
    ⟨by omega, by omega⟩ rfl htail (by omega)
  refine .intro hfits hrun fun hf => ?_
  exact Items.listRep (pushBatch_head (h.items_from 1073741825)
    (by rw [show Int32.ofNat 0 * -1 = 0 from by decide, Int32.add_zero])
    ⟨by change _ ≤ (q.pushHead args).head; omega, by omega⟩) fun _ => hf

def shrinkBatch (db : DB) (s : Store) (key : Bytes) (h t : ℤ) : Batch :=
  metaBatch db key h t ++ if t - h + 1 = 0 then db.rmBatch s ListType key else []

theorem shrink_run {t : ℤ} (hz : -2 ^ 31 ≤ t - h + 1 ∧ t - h + 1 < 2 ^ 31) {α : Type} (r : α) :
    (do
      let size ← db.lSetMeta (db.lEncodeMetaKey key) (Int32.ofInt h) (Int32.ofInt t)
      let _ ← (if size = 0 then (db.rmExpire ListType key).ignoreErr 0 else pure 0)
      pure r : Op α) env s u =
      (.ok r, u.queue (shrinkBatch db s key h t)) := by
  have heq : Int32.ofInt (t - h + 1) = 0 ↔ t - h + 1 = 0 := by
    rw [ofInt_eq_iff hz, eq_comm]
    rfl
  simp only [shrinkBatch, Op.bind_run, lSetMeta_run hz, heq]
  split_ifs with h0
  · obtain ⟨n, hn⟩ := rmExpire_run db env s
      (u.queue (metaBatch db key h t)) ListType key
    simp [hn]
  · simp

structure Shrinks (db : DB) (s : Store) (key : Bytes) (b : Batch) (q : Sequence) : Prop where
  queue : ∃ ns : List Int32, b = (ns.map fun n => .delete (db.lEncodeListKey key n)) ++
    shrinkBatch db s key q.head q.tail
  rep : ListRep db (s.applyBatch b) key q

theorem Items.shrinks {ns : List Int32}
    (hi : Items db (s.applyBatch (ns.map fun n => .delete (db.lEncodeListKey key n))) key h xs)
    (hfits : xs ≠ [] → Sequence.Fits ⟨h, xs⟩) :
    Shrinks db s key ((ns.map fun n => .delete (db.lEncodeListKey key n)) ++
      shrinkBatch db s key h (h + xs.length - 1)) ⟨h, xs⟩ := by
  refine ⟨⟨ns, rfl⟩, ?_⟩
  rw [shrinkBatch, applyBatch_append, applyBatch_append]
  refine (hi.listRep hfits).expireOnly ?_
  split_ifs
  · exact rmBatch_expireOnly ListType key
  · exact Op.Closed.nil

namespace Sequence

def popHead (q : Sequence) : Sequence := ⟨q.head + 1, q.items.tail⟩

def popTail (q : Sequence) : Sequence := ⟨q.head, q.items.dropLast⟩

end Sequence

theorem metaOf_cons (hq : q.items ≠ []) :
    metaOf q = (Int32.ofInt q.head, Int32.ofInt q.tail, Int32.ofInt q.items.length) :=
  if_neg hq

theorem size_ne_zero (h : ListRep db s key q) (hq : q.items ≠ []) :
    Int32.ofInt q.items.length ≠ 0 := by
  have hlen := h.length_lt
  have hpos : q.items.length ≠ 0 := by simpa using hq
  rw [Ne, ofInt_eq_iff ⟨by omega, by omega⟩, Int32.toInt_zero]
  omega

theorem lpop_empty (hk : ValidKey key) (h : ListRep db s key q) (hq : q.items = [])
    (whereSeq : Int32) : db.lpop key whereSeq env s u = (.ok (.done none), u) := by
  have hmeta : metaOf q = (listInitialSeq, listInitialSeq, 0) := if_pos hq
  simp [DB.lpop, checkKeySize_ok.mpr hk, h.lGetMeta, hmeta]

theorem lpop_run (hk : ValidKey key) (h : ListRep db s key q) (hq : q.items ≠ []) {a b : ℤ}
    (hseq : (if whereSeq = listTailSeq then Int32.ofInt q.tail else Int32.ofInt q.head) = seq)
    (ha : (if whereSeq = listHeadSeq then Int32.ofInt q.head + 1 else Int32.ofInt q.head) =
      Int32.ofInt a)
    (hb : (if whereSeq = listHeadSeq then Int32.ofInt q.tail else Int32.ofInt q.tail - 1) =
      Int32.ofInt b) (hab : -2 ^ 31 ≤ b - a + 1 ∧ b - a + 1 < 2 ^ 31) :
    db.lpop key whereSeq env s u = (.ok (.commit (s.get (db.lEncodeListKey key seq))),
      u.queue (.delete (db.lEncodeListKey key seq) :: shrinkBatch db s key a b)) := by
  rw [DB.lpop, Op.bind_run, Op.lift_run, checkKeySize_ok.mpr hk]
  dsimp only
  rw [Op.bind_run, h.lGetMeta, metaOf_cons hq]
  dsimp only
  rw [if_neg (size_ne_zero h hq), hseq, ha, hb, Op.bind_run, Op.get_run]
  dsimp only
  rw [Op.bind_run, Op.delete_run]
  dsimp only
  rw [shrink_run hab, Txn.queue_queue, singleton_append]

theorem LPop_run (env : Env) (u : Txn) (hk : ValidKey key) (h : ListRep db s key q)
    (hq : q.items ≠ []) : ∃ b, db.LPop key env s u = (.ok (.commit q.items.head?), u.queue b) ∧
      Shrinks db s key b q.popHead := by
  obtain ⟨h1, h2⟩ := push_base h hq
  have hpos : q.items.length ≠ 0 := by simpa using hq
  have hget : s.get (db.lEncodeListKey key (Int32.ofInt q.head)) = q.items.head? := by
    rw [h.items, toInt_ofInt32 ⟨by omega, by omega⟩, window, if_pos le_rfl, Int.sub_self,
      Int.toNat_zero, head?_eq_getElem?]
  have hnext : Int32.ofInt q.head + 1 = Int32.ofInt (q.head + 1) := by
    rw [Int32.ofInt_add]
    rfl
  refine ⟨.delete (db.lEncodeListKey key (Int32.ofInt q.head)) ::
    shrinkBatch db s key (q.head + 1) q.tail, ?_, ?_⟩
  · have hseq : (if listHeadSeq = listTailSeq then Int32.ofInt q.tail else Int32.ofInt q.head) =
      Int32.ofInt q.head := rfl
    rw [DB.LPop, lpop_run hk h hq hseq hnext rfl, hget]
    unfold Sequence.tail
    omega
  · have hdel := h.items.drop [Int32.ofInt q.head] 1 fun n hn => by
      rw [mem_singleton, eq_comm, ofInt_eq_iff ⟨by omega, by omega⟩]
      omega
    rw [drop_one] at hdel
    have hrep := hdel.shrinks fun hne => by
      refine ⟨by simp; omega, ?_⟩
      simp only [Sequence.tail, length_tail]
      omega
    rwa [show q.head + (1 : ℕ) + q.items.tail.length - 1 = q.tail by
      rw [length_tail, Sequence.tail]
      omega] at hrep

theorem RPop_run (env : Env) (u : Txn) (hk : ValidKey key) (h : ListRep db s key q)
    (hq : q.items ≠ []) : ∃ b, db.RPop key env s u = (.ok (.commit q.items.getLast?), u.queue b) ∧
      Shrinks db s key b q.popTail := by
  obtain ⟨h1, h2⟩ := push_base h hq
  have hpos : q.items.length ≠ 0 := by simpa using hq
  have htail : q.tail = q.head + (q.items.length - 1 : ℕ) := by
    unfold Sequence.tail
    omega
  have hget : s.get (db.lEncodeListKey key (Int32.ofInt q.tail)) = q.items.getLast? := by
    rw [h.items, htail, toInt_ofInt32 ⟨by omega, by omega⟩, window, if_pos (by omega),
      add_sub_cancel_left, Int.toNat_natCast, getLast?_eq_getElem?]
  have hnext : Int32.ofInt q.tail - 1 = Int32.ofInt (q.tail - 1) := by
    rw [Int32.ofInt_sub]
    rfl
  refine ⟨.delete (db.lEncodeListKey key (Int32.ofInt q.tail)) ::
    shrinkBatch db s key q.head (q.tail - 1), ?_, ?_⟩
  · have hseq : (if listTailSeq = listTailSeq then Int32.ofInt q.tail else Int32.ofInt q.head) =
      Int32.ofInt q.tail := rfl
    rw [DB.RPop, lpop_run hk h hq hseq rfl hnext (by omega), hget]
  · have hdel := h.items.take [Int32.ofInt q.tail] (q.items.length - 1) fun n hn hle => by
        rw [mem_singleton, eq_comm, ofInt_eq_iff ⟨by omega, by omega⟩]
        omega
    rw [← dropLast_eq_take] at hdel
    have hrep := hdel.shrinks fun hne => by
      refine ⟨h1, ?_⟩
      simp only [Sequence.tail, length_dropLast]
      omega
    rwa [length_dropLast, ← htail] at hrep

end

end LedisDB
