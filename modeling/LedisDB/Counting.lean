import LedisDB.Clearing

/-!
# Members and their count

`Counted s p sk` says that the size entry `sk` holds the number of member
entries below the front `p`, and is absent when there are none. The loops of
`HMset` and `SAdd` count the listed members that the store lacks, those of
`HDel` and `SRem` the listed members that it has; the count agrees with the
members afterwards when no member is counted twice, or when nothing is left.
-/

namespace LedisDB

open List Op OrderedMap

section
variable {db : DB} {env : Env} {s : Store} {u t : Txn} {enc : Bytes → Bytes}

def DB.sizeBatch (db : DB) (s : Store) (sk : Bytes) (dataType : UInt8) (key : Bytes) (z : Int64) :
    Batch :=
  if z ≤ 0 then .delete sk :: db.rmBatch s dataType key else [.put sk (PutInt64 z)]

theorem incrSize_run (db : DB) (env : Env) (u : Txn) {sk : Bytes} (dataType : UInt8)
    (key : Bytes) (delta : Int64) {size : Int64} (hsize : decodeInt64 (s.get sk) = .ok size) : ∃ n,
    db.incrSize sk dataType key delta env s u =
      (.ok n, u.queue (db.sizeBatch s sk dataType key (size + delta))) := by
  simp only [DB.incrSize, DB.sizeBatch, bind_run, get_run, hsize]
  by_cases hz : size + delta ≤ 0
  · obtain ⟨n, hn⟩ := rmExpire_run db env s (u.queue [.delete sk]) dataType key
    exact ⟨0, by simp [hz, hn]⟩
  · exact ⟨size + delta, by simp [hz]⟩

theorem incrSize_ok {sk key : Bytes} {dataType : UInt8} {delta size r : Int64}
    (hsize : decodeInt64 (s.get sk) = .ok size)
    (h : db.incrSize sk dataType key delta env s u = (.ok r, t)) :
    t = u.queue (db.sizeBatch s sk dataType key (size + delta)) := by
  obtain ⟨n, hn⟩ := incrSize_run db env u dataType key delta hsize
  rw [hn] at h
  exact (Prod.mk.inj h).2.symm

theorem addLoop_ok {check : Bytes → Bytes → Except Err Unit} {args : List (Bytes × Bytes)}
    {num r : Int64} (h : DB.addLoop check enc args num env s u = (.ok r, t)) :
    t = u.queue (args.map fun a => .put (enc a.1) a.2) ∧
      r = num + Int64.ofNat (args.countP fun a => (s.get (enc a.1)).isNone) ∧
      ∀ a ∈ args, check a.1 a.2 = .ok () := by
  induction args generalizing num u with
  | nil =>
    cases h
    simp
  | cons a as ih =>
    obtain ⟨_, _, hc, h1⟩ := bind_ok.mp h
    obtain ⟨hcheck, rfl⟩ := lift_ok.mp hc
    obtain ⟨_, _, hg, h2⟩ := bind_ok.mp h1
    cases hg
    obtain ⟨_, _, hp, h3⟩ := bind_ok.mp h2
    cases hp
    obtain ⟨rfl, rfl, hall⟩ := ih h3
    refine ⟨by simp, ?_, ?_⟩
    · rw [countP_cons]
      split_ifs <;> simp [Int64.add_assoc, Int64.add_comm]
    · simpa using ⟨hcheck, fun x y hxy => hall (x, y) hxy⟩

theorem remLoop_ok {check : Bytes → Except Err Unit} {ms : List Bytes} {num r : Int64}
    (h : DB.remLoop check enc ms num env s u = (.ok r, t)) :
    t = u.queue ((ms.filter fun m => (s.get (enc m)).isSome).map fun m => .delete (enc m)) ∧
      r = num + Int64.ofNat (ms.filter fun m => (s.get (enc m)).isSome).length ∧
      ∀ m ∈ ms, check m = .ok () := by
  induction ms generalizing num u with
  | nil =>
    cases h
    simp
  | cons m ms ih =>
    obtain ⟨_, _, hc, h1⟩ := bind_ok.mp h
    obtain ⟨hcheck, rfl⟩ := lift_ok.mp hc
    obtain ⟨_, _, hf, h2⟩ := bind_ok.mp h1
    rw [find_run] at hf
    cases hf
    by_cases hm : (s.get (enc m)).isSome
    · rw [if_neg (by simpa [Option.isSome_iff_ne_none] using hm)] at h2
      obtain ⟨_, _, hd, h3⟩ := bind_ok.mp h2
      cases hd
      obtain ⟨rfl, rfl, hall⟩ := ih h3
      refine ⟨by simp [hm], by simp [hm, Int64.add_assoc, Int64.add_comm], ?_⟩
      simpa using ⟨hcheck, hall⟩
    · rw [if_pos (by simpa using hm)] at h2
      obtain ⟨rfl, rfl, hall⟩ := ih h2
      exact ⟨by simp [hm], by simp [hm], by simpa using ⟨hcheck, hall⟩⟩

end

def DataType.HasMembers (T : DataType) : Prop := T = .HASH ∨ T = .SET ∨ T = .ZSET

def front (db : DB) (T : DataType) (key : Bytes) : Bytes := db.itemKey T.code key [58]

def sizeKey (db : DB) (T : DataType) (key : Bytes) : Bytes := db.plainKey T.plain key

def members (db : DB) (s : Store) (T : DataType) (key : Bytes) : Finset Bytes :=
  s.suffixes (front db T key)

structure Counted (db : DB) (s : Store) (T : DataType) (key : Bytes) : Prop where
  card_lt : (members db s T key).card < 2 ^ 63
  size : s.get (sizeKey db T key) = if (members db s T key).card = 0 then none
    else some (PutInt64 (Int64.ofNat (members db s T key).card))

section
variable {db : DB} {env : Env} {s m : Store} {T : DataType} {key x v : Bytes} {u t : Txn}
  {z : Int64} {S : Finset Bytes} {xs ms : List Bytes} {args : List (Bytes × Bytes)}
  {enc : Bytes → Bytes} {b a : Batch}

theorem front_append (db : DB) (T : DataType) (key x : Bytes) :
    front db T key ++ x = db.itemKey T.code key (58 :: x) := (db.itemKey_cons T.code key 58 x).symm

theorem StoreWf.member_entry (hs : StoreWf s) (hT : T.HasMembers) {c : UInt8}
    (hget : s.get (db.itemKey T.code key (c :: x)) = some v) : c = 58 ∧ ValidKey x := by
  have hcode : T.code ∈ T.items := by
    rcases hT with rfl | rfl | rfl <;> decide
  obtain ⟨hst, -⟩ := hs.of_itemKey_prefix hcode hget (prefix_refl _)
  generalize hek : db.itemKey T.code key (c :: x) = ek at hst
  have hrest : ∀ {t : UInt8} {m : Bytes}, ValidKey key → ValidKey m →
      db.itemKey T.code key (c :: x) = db.itemKey t key (58 :: m) → c = 58 ∧ ValidKey x := by
    intro t m hk hm h
    have hlen := DB.ValidKey.le_uint16 hk
    obtain ⟨-, -, -, hcx⟩ := (DB.itemKey_inj hlen hlen).mp h
    obtain ⟨rfl, rfl⟩ := cons.inj hcx
    exact ⟨rfl, hm⟩
  cases hst with
  | hfield hk hf => exact hrest hk hf hek
  | smember hk hm | zmember hk hm => exact hrest hk hm hek
  | hsize | ssize | zsize | zscore => exact absurd (DB.plainKey_inj.mp hek).2.1 (by decide)
  | kv | lmeta | litem => rcases hT with h | h | h <;> cases h

theorem StoreWf.member_valid (hs : StoreWf s) (hT : T.HasMembers) {e : Bytes × Bytes}
    (he : e ∈ s.under (front db T key)) : ValidKey e.1 := by
  have hget := mem_under.mp he
  rw [front_append] at hget
  exact (hs.member_entry hT hget).2

theorem front_not_prefix {t : UInt8} (ht : T.code ≠ t) (r : Bytes) :
    ¬ front db T key <+: db.plainKey t r :=
  fun h => ht (DB.plainKey_prefix h).2.1

theorem code_ne_plain (hT : T ≠ .KV) : T.code ≠ T.plain := by
  revert hT
  cases T <;> decide

theorem front_append_ne_sizeKey (hT : T ≠ .KV) (x : Bytes) :
    front db T key ++ x ≠ sizeKey db T key := by
  intro heq
  have hpre := heq ▸ prefix_append _ x
  exact front_not_prefix (code_ne_plain hT) key hpre

theorem code_ne_expire : T.code ≠ ExpMetaType ∧ T.code ≠ ExpTimeType := by
  cases T <;> decide

theorem rmBatch_members (dataType : UInt8) (key' : Bytes) :
    ∀ o ∈ db.rmBatch s dataType key', ¬ front db T key <+: o.key := by
  intro o ho
  obtain ⟨r, hr | hr⟩ := rmBatch_key ho <;> rw [hr]
  · exact front_not_prefix code_ne_expire.1 r
  · exact front_not_prefix code_ne_expire.2 r

theorem rmBatch_plain (dataType : UInt8) (key' r : Bytes) :
    ∀ o ∈ db.rmBatch s dataType key', o.key ≠ db.plainKey T.plain r := by
  intro o ho heq
  obtain ⟨hm, ht, -, -⟩ := DataType.not_expire
  obtain ⟨r', hr | hr⟩ := rmBatch_key ho <;> rw [hr] at heq
  · exact hm (DB.plainKey_inj.mp heq).2.1.symm
  · exact ht (DB.plainKey_inj.mp heq).2.1.symm

theorem sizeBatch_members (hT : T ≠ .KV) (z : Int64) :
    (m.applyBatch (db.sizeBatch s (sizeKey db T key) T.code key z)).suffixes (front db T key) =
      m.suffixes (front db T key) := by
  apply suffixes_applyBatch_other
  have hsk : ¬ front db T key <+: sizeKey db T key := front_not_prefix (code_ne_plain hT) key
  unfold DB.sizeBatch
  split_ifs
  · rintro o (_ | ⟨_, ho⟩)
    · exact hsk
    · exact rmBatch_members T.code key o ho
  · rintro o (_ | ⟨_, ho⟩)
    · exact hsk
    · cases ho

theorem sizeBatch_get (z : Int64) :
    (m.applyBatch (db.sizeBatch s (sizeKey db T key) T.code key z)).get (sizeKey db T key) =
      if z ≤ 0 then none else some (PutInt64 z) := by
  unfold DB.sizeBatch
  split_ifs with hz
  · change ((m.applyOp _).applyBatch _).get (db.plainKey T.plain key) = _
    rw [get_applyBatch_of_not_mem _ (rmBatch_plain T.code key key), get_applyOp]
    simp [sizeKey]
  · simp

theorem Counted.congr (hC : Counted db s T key)
    (hmem : ∀ x, m.get (front db T key ++ x) = s.get (front db T key ++ x))
    (hsk : m.get (sizeKey db T key) = s.get (sizeKey db T key)) : Counted db m T key := by
  have h : members db m T key = members db s T key := suffixes_congr hmem
  constructor
  · rw [h]
    exact hC.card_lt
  · rw [h, hsk]
    exact hC.size

theorem Counted.empty (db : DB) (T : DataType) (key : Bytes) :
    Counted db OrderedMap.empty T key := by
  constructor <;> simp [members, suffixes_empty]

theorem Counted.decode (hC : Counted db s T key) : decodeInt64 (s.get (sizeKey db T key)) =
    .ok (Int64.ofNat (members db s T key).card) := by
  rw [hC.size]
  split_ifs with h
  · rw [h]
    rfl
  · exact decodeInt64_PutInt64 _

theorem Counted.of_size (hsk : m.get (sizeKey db T key) = if z ≤ 0 then none else some (PutInt64 z))
    (hlt : (members db m T key).card < 2 ^ 63)
    (hz : z.toInt = (members db m T key).card ∨ (members db m T key).card = 0 ∧ z.toInt ≤ 0) :
    Counted db m T key := by
  refine ⟨hlt, ?_⟩
  have hzero : (0 : Int64).toInt = 0 := rfl
  rw [hsk]
  simp only [Int64.le_iff_toInt_le]
  rcases hz with hz | ⟨hcard, hz⟩
  · have heq : z = Int64.ofNat (members db m T key).card := by
      rw [← Int64.toInt_inj, hz, Int64.toInt_ofNat_of_lt hlt]
    rw [hz, heq]
    by_cases hc : (members db m T key).card = 0
    · simp
    · rw [if_neg hc, if_neg (by omega)]
  · simp [hcard, hz]

theorem Counted.cleared (hmem : ∀ x, m.get (front db T key ++ x) = none)
    (hsk : m.get (sizeKey db T key) = none) : Counted db m T key := by
  have h : members db m T key = ∅ := by
    ext x
    simp [members, mem_suffixes, hmem x]
  constructor
  · simp [h]
  · simp [h, hsk]

theorem mem_members : x ∈ members db s T key ↔ (s.get (front db T key ++ x)).isSome := mem_suffixes

theorem counted_sizeBatch (hT : T ≠ .KV) (hlt : (members db m T key).card < 2 ^ 63)
    (hz : z.toInt = (members db m T key).card ∨ (members db m T key).card = 0 ∧ z.toInt ≤ 0) :
    Counted db (m.applyBatch (db.sizeBatch s (sizeKey db T key) T.code key z)) T key := by
  have hmem : members db (m.applyBatch (db.sizeBatch s (sizeKey db T key) T.code key z)) T key =
      members db m T key := sizeBatch_members hT z
  rw [← hmem] at hlt hz
  exact Counted.of_size (sizeBatch_get z) hlt hz

/-- No member outside `S` is listed twice, and the counter has room. -/
def AddsOnce (S : Finset Bytes) (xs : List Bytes) : Prop :=
  (xs.filter (· ∉ S)).Nodup ∧ (S ∪ xs.toFinset).card < 2 ^ 63

/-- No member of `S` is listed twice, or all of them are listed. -/
def RemovesOnce (S : Finset Bytes) (xs : List Bytes) : Prop :=
  (xs.filter (· ∈ S)).Nodup ∨ S ⊆ xs.toFinset ∧ xs.length < 2 ^ 63

theorem card_union_filter (S : Finset Bytes) (xs : List Bytes) :
    (S ∪ xs.toFinset).card = S.card + (xs.filter (· ∉ S)).toFinset.card := by
  rw [toFinset_filter, ← Finset.card_union_of_disjoint]
  · congr 1
    ext x
    simp only [Finset.mem_union, Finset.mem_filter, decide_eq_true_eq]
    tauto
  · rw [Finset.disjoint_left]
    intro x hx hx'
    simp only [Finset.mem_filter, decide_eq_true_eq] at hx'
    exact hx'.2 hx

theorem AddsOnce.toInt (h : AddsOnce S xs) :
    (Int64.ofNat S.card + Int64.ofNat (xs.filter (· ∉ S)).length).toInt =
      (S ∪ xs.toFinset).card := by
  have hcard := card_union_filter S xs
  rw [toFinset_card_of_nodup h.1] at hcard
  rw [← Int64.ofNat_add, ← hcard, Int64.toInt_ofNat_of_lt h.2]

theorem card_sdiff_filter (S : Finset Bytes) (xs : List Bytes) :
    (S \ xs.toFinset).card + (xs.filter (· ∈ S)).toFinset.card = S.card := by
  have hsdiff : S \ xs.toFinset = S \ (xs.filter (· ∈ S)).toFinset := by
    ext x
    simp only [Finset.mem_sdiff, mem_toFinset, mem_filter, decide_eq_true_eq]
    tauto
  have hsub : (xs.filter (· ∈ S)).toFinset ⊆ S := by
    intro x hx
    simpa using (mem_filter.mp (mem_toFinset.mp hx)).2
  rw [hsdiff]
  exact Finset.card_sdiff_add_card_eq_card hsub

theorem RemovesOnce.toInt (hS : S.card < 2 ^ 63) (h : RemovesOnce S xs) :
    (Int64.ofNat S.card + -Int64.ofNat (xs.filter (· ∈ S)).length).toInt = (S \ xs.toFinset).card ∨
      (S \ xs.toFinset).card = 0 ∧
        (Int64.ofNat S.card + -Int64.ofNat (xs.filter (· ∈ S)).length).toInt ≤ 0 := by
  have hcard := card_sdiff_filter S xs
  have hlen : (xs.filter (· ∈ S)).length < 2 ^ 63 := by
    rcases h with h | ⟨-, h⟩
    · rw [← toFinset_card_of_nodup h]
      omega
    · exact lt_of_le_of_lt (length_filter_le _ _) h
  have hz : (Int64.ofNat S.card + -Int64.ofNat (xs.filter (· ∈ S)).length).toInt =
      S.card - (xs.filter (· ∈ S)).length := by
    rw [Int64.toInt_add, Int64.toInt_neg, Int64.toInt_ofNat_of_lt hS, Int64.toInt_ofNat_of_lt hlen]
    simp only [Int.bmod_def]
    omega
  rcases h with h | ⟨hall, -⟩
  · rw [toFinset_card_of_nodup h] at hcard
    omega
  · have hfull := Finset.sdiff_eq_empty_iff_subset.mpr hall
    have hle := toFinset_card_le (xs.filter (· ∈ S))
    rw [hfull, Finset.card_empty] at hcard ⊢
    omega

theorem countP_absent (args : List (Bytes × Bytes)) :
    (args.countP fun a => (s.get (front db T key ++ a.1)).isNone) =
      ((args.map Prod.fst).filter (· ∉ members db s T key)).length := by
  rw [filter_map, length_map, countP_eq_length_filter]
  congr 2
  funext a
  simp only [Function.comp, mem_members]
  cases s.get (front db T key ++ a.1) <;> rfl

theorem filter_present (ms : List Bytes) :
    (ms.filter fun m => (s.get (front db T key ++ m)).isSome) =
      ms.filter (· ∈ members db s T key) := by
  simp [mem_members]

theorem counted_add (hT : T ≠ .KV) (h : AddsOnce (members db s T key) (args.map Prod.fst)) :
    Counted db (s.applyBatch ((args.map fun a => .put (front db T key ++ a.1) a.2) ++
      db.sizeBatch s (sizeKey db T key) T.code key
        (Int64.ofNat (members db s T key).card + Int64.ofNat
          (args.countP fun a => (s.get (front db T key ++ a.1)).isNone)))) T key := by
  have hmem : members db (s.applyBatch (args.map fun a => .put (front db T key ++ a.1) a.2)) T
      key = members db s T key ∪ (args.map Prod.fst).toFinset :=
    suffixes_puts s (front db T key) args
  rw [applyBatch_append, countP_absent]
  refine counted_sizeBatch hT ?_ (.inl ?_) <;> rw [hmem]
  · exact h.2
  · exact h.toInt

theorem Counted.remove (hC : Counted db s T key) (hT : T ≠ .KV)
    (h : RemovesOnce (members db s T key) ms) :
    Counted db (s.applyBatch
      (((ms.filter fun m => (s.get (front db T key ++ m)).isSome).map
        fun m => .delete (front db T key ++ m)) ++
      db.sizeBatch s (sizeKey db T key) T.code key
        (Int64.ofNat (members db s T key).card + -Int64.ofNat
          (ms.filter fun m => (s.get (front db T key ++ m)).isSome).length))) T key := by
  have hmem : members db (s.applyBatch ((ms.filter (· ∈ members db s T key)).map
      fun m => .delete (front db T key ++ m))) T key = members db s T key \ ms.toFinset := by
    refine (suffixes_deletes s (front db T key) _).trans ?_
    ext x
    simp only [Finset.mem_sdiff, mem_toFinset, mem_filter, decide_eq_true_eq]
    tauto
  rw [applyBatch_append, filter_present]
  refine counted_sizeBatch hT ?_ ?_ <;> rw [hmem]
  · exact lt_of_le_of_lt (Finset.card_le_card Finset.sdiff_subset) hC.card_lt
  · exact h.toInt hC.card_lt

theorem counted_insert (hT : T ≠ .KV) (hx : x ∉ members db s T key)
    (h : AddsOnce (members db s T key) [x]) (v : Bytes) :
    Counted db (s.applyBatch (db.sizeBatch s (sizeKey db T key) T.code key
      (Int64.ofNat (members db s T key).card + 1) ++ [.put (front db T key ++ x) v])) T key := by
  have hlt : (members db s T key).card + 1 < 2 ^ 63 := by
    have hcard := h.2
    rwa [toFinset_cons, toFinset_nil, insert_empty_eq, Finset.union_comm,
      ← Finset.insert_eq, Finset.card_insert_of_notMem hx] at hcard
  rw [applyBatch_append]
  have hmem : members db ((s.applyBatch (db.sizeBatch s (sizeKey db T key) T.code key
      (Int64.ofNat (members db s T key).card + 1))).applyBatch
        [.put (front db T key ++ x) v]) T key = Insert.insert x (members db s T key) := by
    rw [members, applyBatch, foldl_cons, foldl_nil, suffixes_put, sizeBatch_members hT]
    rfl
  have hone : Int64.ofNat (members db s T key).card + 1 =
      Int64.ofNat ((members db s T key).card + 1) := by
    rw [Int64.ofNat_add]
    rfl
  refine Counted.of_size (z := Int64.ofNat (members db s T key).card + 1) ?_ ?_ (.inl ?_)
  · rw [get_applyBatch_of_not_mem, sizeBatch_get]
    simp only [mem_singleton, forall_eq]
    exact front_append_ne_sizeKey hT x
  · rwa [hmem, Finset.card_insert_of_notMem hx]
  · rw [hmem, Finset.card_insert_of_notMem hx, hone, Int64.toInt_ofNat_of_lt hlt]

section
variable (hC : Counted db s T key)
include hC

theorem Counted.overwrite (hT : T ≠ .KV) (hx : x ∈ members db s T key) (v : Bytes) :
    Counted db (s.applyBatch [.put (front db T key ++ x) v]) T key := by
  have hmem : members db (s.applyBatch [.put (front db T key ++ x) v]) T key =
      members db s T key := by
    rw [members, applyBatch, foldl_cons, foldl_nil, suffixes_put]
    exact Finset.insert_eq_of_mem hx
  constructor
  · rw [hmem]
    exact hC.card_lt
  · rw [hmem, get_applyBatch_of_not_mem, hC.size]
    simp only [mem_singleton, forall_eq]
    exact front_append_ne_sizeKey hT x

theorem Counted.addLoop (hT : T ≠ .KV) {α : Type} {f : Int64 → α}
    {check : Bytes → Bytes → Except Err Unit} (henc : ∀ x, enc x = front db T key ++ x) {r : α}
    (hargs : (∀ a ∈ args, check a.1 a.2 = .ok ()) →
      AddsOnce (members db s T key) (args.map Prod.fst)) (h : (do
      let num ← DB.addLoop check enc args 0 let _ ← db.incrSize (sizeKey db T key) T.code key num
      pure (f num) : Op α) env s u = (.ok r, t)) :
    ∃ b, t.batch = u.batch ++ b ∧ Counted db (s.applyBatch b) T key := by
  obtain ⟨num, _, hadd, h1⟩ := bind_ok.mp h
  obtain ⟨rfl, rfl, hcheck⟩ := addLoop_ok hadd
  obtain ⟨_, _, hn, h2⟩ := bind_ok.mp h1
  obtain rfl := incrSize_ok hC.decode hn
  cases h2
  refine ⟨_, append_assoc _ _ _, ?_⟩
  simp only [henc, Int64.zero_add]
  exact counted_add hT (hargs hcheck)

theorem Counted.remLoop (hT : T ≠ .KV) {α : Type} {f : Int64 → α}
    {check : Bytes → Except Err Unit} (henc : ∀ x, enc x = front db T key ++ x) {r : α}
    (hms : (∀ m ∈ ms, check m = .ok ()) → RemovesOnce (members db s T key) ms) (h : (do
      let num ← DB.remLoop check enc ms 0 let _ ← db.incrSize (sizeKey db T key) T.code key (-num)
      pure (f num) : Op α) env s u = (.ok r, t)) :
    ∃ b, t.batch = u.batch ++ b ∧ Counted db (s.applyBatch b) T key := by
  obtain ⟨num, _, hrem, h1⟩ := bind_ok.mp h
  obtain ⟨rfl, rfl, hcheck⟩ := remLoop_ok hrem
  obtain ⟨_, _, hn, h2⟩ := bind_ok.mp h1
  obtain rfl := incrSize_ok hC.decode hn
  cases h2
  refine ⟨_, append_assoc _ _ _, ?_⟩
  simp only [henc, Int64.zero_add]
  exact hC.remove hT (hms hcheck)

theorem Counted.readSize (hk : ValidKey key) :
    (DB.readSize (sizeKey db T key) key).eval env s =
      .ok (Int64.ofNat (members db s T key).card) := by
  simp [DB.readSize, eval, checkKeySize_ok.mpr hk, hC.decode]

theorem Counted.keyExists (hk : ValidKey key) :
    (DB.keyExists (sizeKey db T key) key).eval env s =
      .ok (if (members db s T key).card = 0 then 0 else 1) := by
  have hsome : (s.get (sizeKey db T key)).isSome = decide ((members db s T key).card ≠ 0) := by
    rw [hC.size]
    split_ifs with h <;> simp [h]
  simp [DB.keyExists, eval, checkKeySize_ok.mpr hk, hsome]

end

theorem keyLocal_counted (hT : T = .HASH ∨ T = .SET ∨ T = .ZSET) :
    KeyLocal db T fun s k => Counted db s T k := by
  intro s s' k hsame hC
  refine hC.congr (fun x => hsame _ ?_) (hsame _ ?_)
  · rw [front_append]
    rcases hT with rfl | rfl | rfl
    · exact .hfield k x
    · exact .smember k x
    · exact .zmember k x
  · rcases hT with rfl | rfl | rfl
    · exact .hsize k
    · exact .ssize k
    · exact .zsize k

theorem counted_of_batch {α : Type} {x : Op (Ret α)} {st : State} (hC : Counted db st.store T key)
    (hx : ∀ r t, x env st.store ⟨[], st.nc⟩ = (.ok r, t) →
      ∃ b, t.batch = [] ++ b ∧ Counted db (st.store.applyBatch b) T key) :
    Counted db (exec env x.discard st).2.store T key := by
  refine exec_keeps (P := fun s k => Counted db s T k) hC fun r t hr => ?_
  obtain ⟨b, hb, hCb⟩ := hx r t hr
  rwa [hb]

structure Clears (db : DB) (s : Store) (T : DataType) (key : Bytes) (b : Batch) : Prop where
  deletes : Deletes b
  member : ∀ x ∈ members db s T key, .delete (front db T key ++ x) ∈ b
  size : .delete (sizeKey db T key) ∈ b

theorem Clears.get_member (h : Clears db s T key b) (x : Bytes) :
    (s.applyBatch b).get (front db T key ++ x) = none := by
  apply h.deletes.get_none
  by_cases hx : x ∈ members db s T key
  · exact .inr (h.member x hx)
  · left
    simpa [mem_members] using hx

theorem Clears.members_eq (h : Clears db s T key b) : members db (s.applyBatch b) T key = ∅ := by
  ext x
  simp [mem_members, h.get_member x]

theorem Clears.counted (h : Clears db s T key b) : Counted db (s.applyBatch b) T key :=
  Counted.cleared h.get_member (h.deletes.get_none (Or.inr h.size))

theorem Clears.of_subset (h : Clears db s T key a) (hb : Deletes b) (hab : ∀ o ∈ a, o ∈ b) :
    Clears db s T key b :=
  ⟨hb, fun x hx => hab _ (h.member x hx), hab _ h.size⟩

theorem scan_front (db : DB) (s : Store) (T : DataType) (key : Bytes) :
    s.rangeLimit ⟨some (front db T key), some (DB.setLast (front db T key) 59), RangeROpen⟩
      ⟨0, -1⟩ .forward = (s.under (front db T key)).map fun e => (front db T key ++ e.1, e.2) := by
  rw [front, DB.scan_members]
  exact map_congr_left fun e _ => by rw [DB.itemKey_cons]

def clearBatch (db : DB) (s : Store) (T : DataType) (key : Bytes) : Batch :=
  ((s.under (front db T key)).map fun e => .delete (front db T key ++ e.1)) ++
    [.delete (sizeKey db T key)]

theorem clearBatch_clears : Clears db s T key (clearBatch db s T key) where
  deletes := by
    refine Deletes.append ?_ (by simp [Deletes])
    intro o ho
    obtain ⟨e, -, rfl⟩ := mem_map.mp ho
    exact ⟨_, rfl⟩
  member := by
    intro x hx
    obtain ⟨v, hv⟩ := Option.isSome_iff_exists.mp (mem_members.mp hx)
    exact mem_append_left _ (mem_map.mpr ⟨(x, v), mem_under.mpr hv, rfl⟩)
  size := mem_append_right _ (mem_singleton_self _)

theorem deleteMembers_run (db : DB) (env : Env) (s : Store) (T : DataType) (key : Bytes)
    (u : Txn) : ∃ n, DB.deleteMembers (sizeKey db T key) (front db T key)
    (DB.setLast (front db T key) 59) env s u = (.ok n, u.queue (clearBatch db s T key)) := by
  refine ⟨Int64.ofNat (s.under (front db T key)).length, ?_⟩
  simp only [DB.deleteMembers, bind_run, range_run, scan_front, deleteAll_run,
    delete_run, map_map, length_map, Txn.queue, append_assoc]
  rfl

theorem clearing_clears : Clearing (Clears db s T) where
  deletes := Clears.deletes
  mono := Clears.of_subset

end

end LedisDB
