import LedisDB.OneByOne
import LedisDB.ZSetReads

/-!
# The multi-argument writes

Each of `ZAdd`, `ZRem`, `SAdd`, `SRem`, `HMset`, `HDel` and `MSet` is compared with one call
for each argument. Repeated arguments are looked up in the store as it was before the call,
so a new member that is listed twice is counted twice, and so is a removed one; `ZAdd` also
leaves a score entry for every score it lists.
-/

namespace LedisDB

open List

section
variable {db : DB} {env : Env} {s : Store} {key : Bytes} {st : State} {args : List KVPair}

def ScorePair.entry (a : ScorePair) : Bytes × Bytes := (a.Member, PutInt64 a.Score)

theorem putUpdate_lastFor (args : List ScorePair) (m : Bytes) :
    putUpdate (args.map ScorePair.entry) m =
      (lastFor args m).map fun l => some (PutInt64 l.Score) := by
  induction args with
  | nil => rfl
  | cons a as ih =>
    rw [map_cons, putUpdate_cons, ih, lastFor_cons]
    cases lastFor as m with
    | some l => rfl
    | none =>
      by_cases ha : a.Member = m <;> simp [ScorePair.entry, ha]

theorem map_entry_member (args : List ScorePair) :
    (args.map ScorePair.entry).map Prod.fst = args.map ScorePair.Member := by
  rw [map_map]
  rfl

theorem zItems_data (hs : Indexed db s key) (args : List ScorePair) :
    ∀ o ∈ zItems db s key args, DataEntry db .ZSET key o.key := by
  intro o ho
  obtain ⟨a, -, ho⟩ := mem_flatMap.mp ho
  rcases zItemBatch_cases hs a with ⟨-, h⟩ | ⟨c, -, h⟩ <;> rw [h] at ho <;>
    simp only [mem_cons, not_mem_nil, or_false] at ho
  · rcases ho with rfl | rfl
    · exact .zmember key a.Member
    · exact .zscore key a.Member a.Score
  · rcases ho with rfl | rfl | rfl
    · exact .zscore key a.Member c
    · exact .zmember key a.Member
    · exact .zscore key a.Member a.Score

theorem zItems_score_iff (hk : key.length ≤ DB.MaxUint16) (hs : Indexed db s key)
    (args : List ScorePair) :
    (∀ m c, (s.applyBatch (zItems db s key args)).get (db.zEncodeScoreKey key m c) =
      ((putUpdate (args.map ScorePair.entry) m).map fun v =>
        if v = some (PutInt64 c) then some [] else none).getD
          (s.get (db.zEncodeScoreKey key m c))) ↔ LastScores db s key args := by
  have hput : ∀ (l : ScorePair) c, some (PutInt64 l.Score) = some (PutInt64 c) ↔ l.Score = c :=
    fun l c => ⟨fun h => PutInt64_inj (Option.some.inj h), fun h => h ▸ rfl⟩
  constructor
  · intro h a ha l hl
    have hscore := h a.Member a.Score
    rw [zItems_get_score hk hs, putUpdate_lastFor, hl] at hscore
    by_contra hno
    rw [not_or] at hno
    simp [Ne.symm hno.1, hno.2, hput, ha] at hscore
  · intro h m c
    rw [zItems_get_score hk hs, putUpdate_lastFor]
    cases hl : lastFor args m with
    | none => rfl
    | some l =>
      simp only [Option.map_some, hput]
      split_ifs with hc hst hin
      · rfl
      · rfl
      · rcases h _ hin l hl with hlast | hstored
        · exact absurd hlast.symm hc
        · exact absurd hstored hst
      · exact Option.not_isSome_iff_eq_none.mp fun h => hst ((hs.index m c).mp h)

theorem ZAdd_call (henv : env.Commits) :
    AddCall db .ZSET key ScorePair.entry id
      (fun a => checkZSetKMSize key a.Member = .ok () ∧ MinScore < a.Score ∧ a.Score < MaxScore)
      (fun s args => ((args.map ScorePair.Member).filter (· ∉ members db s .ZSET key)).Nodup ∧
        LastScores db s key args)
      fun args st => exec env (db.ZAdd key args) st where
  counts := Or.inl fun n => rfl
  scores := fun _ a ha => ⟨a.Score, rfl, ha.2⟩
  nodup := by
    intro s args h
    rw [map_entry_member]
    exact h.1
  single := fun s a => ⟨(nodup_singleton a.Member).filter _, lastScores_singleton a⟩
  runs := by
    intro args st hC hvalid hroom hlen
    have hs := hC.indexed rfl
    rw [map_entry_member] at hroom ⊢
    by_cases hnil : args = []
    · subst hnil
      refine ⟨st, rfl, iff_of_true ⟨nodup_nil, ?_⟩ hC.refl⟩
      intro a ha
      cases ha
    -- the key is checked with the first member
    obtain ⟨a, ha⟩ := exists_mem_of_ne_nil args hnil
    have hk := le_uint16 (checkKMSize_ok.mp (hvalid a ha).1).1.2
    obtain ⟨r, t, hrun⟩ := zAddLoop_run hs.scores env hvalid 0 ⟨[], st.nc⟩
    obtain ⟨rfl, rfl, -⟩ := zAddLoop_ok hrun
    simp only [Int64.zero_add, Txn.queue, nil_append] at hrun
    obtain ⟨n, hsize⟩ := incrSize_run db env ⟨zItems db st.store key args, st.nc⟩ ZSetType key
      (Int64.ofNat ((args.map ScorePair.Member).filter
        (· ∉ members db st.store .ZSET key)).length) hC.counted.decode
    have hexec : exec env (db.ZAdd key args) st = (.ok (Int64.ofNat
        ((args.map ScorePair.Member).filter (· ∉ members db st.store .ZSET key)).length),
        ⟨st.store.applyBatch (zItems db st.store key args ++ db.sizeBatch st.store
          (sizeKey db .ZSET key) ZSetType key (Int64.ofNat (members db st.store .ZSET key).card +
            Int64.ofNat ((args.map ScorePair.Member).filter
              (· ∉ members db st.store .ZSET key)).length)), st.nc⟩) := by
      have hlen0 : ¬ args.length = 0 := fun h => hnil (length_eq_zero_iff.mp h)
      simp only [DB.ZAdd, hlen0, if_false, exec, Op.bind_run, hrun, DB.zIncrSize]
      rw [show db.zEncodeSizeKey key = sizeKey db .ZSET key from rfl, hsize]
      simp [henv.commit]
    refine ⟨_, hexec, ?_⟩
    rw [← zItems_score_iff hk hs, ← counted_add_iff (by decide) (zItems_members hs args) hroom
      (by simpa using hlen)]
    constructor
    · rintro ⟨hcounted, hscore⟩
      refine Updated.of_batch (.inr (.inr rfl)) (zItems_data hs args) (fun x => ?_)
        (fun _ => hscore) hcounted
      rw [← zEncodeSetKey_front, zItems_get_member hs, putUpdate_lastFor]
      cases lastFor args x <;> rfl
    · intro h
      refine ⟨h.counted, fun m c => ?_⟩
      have hscore := h.score rfl m c
      rw [applyBatch_append] at hscore
      exact (sizeBatch_get_item (by decide) _ key _ _).symm.trans hscore

theorem ZRem_exec (henv : env.Commits) (h : ZWf db st.store key) {ms : List Bytes}
    (hvalid : ∀ m ∈ ms, checkZSetKMSize key m = .ok ()) (hne : ms ≠ []) :
    ∃ b, Removes db st.store key ms b ∧ exec env (db.ZRem key ms) st =
      (.ok (Int64.ofNat (ms.filter (· ∈ members db st.store .ZSET key)).length),
        ⟨st.store.applyBatch (b ++ db.sizeBatch st.store (sizeKey db .ZSET key) ZSetType key
          (Int64.ofNat (members db st.store .ZSET key).card +
            -Int64.ofNat (ms.filter (· ∈ members db st.store .ZSET key)).length)), st.nc⟩) := by
  obtain ⟨r, t, hrun⟩ := zRemLoop_run h.indexed env hvalid 0 ⟨[], st.nc⟩
  obtain ⟨b, rfl, hb, rfl, -⟩ := zRemLoop_ok h.indexed hrun
  simp only [Int64.zero_add, Txn.queue, nil_append] at hrun
  obtain ⟨n, hsize⟩ := incrSize_run db env ⟨b, st.nc⟩ ZSetType key
    (-Int64.ofNat (ms.filter (· ∈ members db st.store .ZSET key)).length) h.counted.decode
  have hlen : ¬ ms.length = 0 := fun h => hne (length_eq_zero_iff.mp h)
  refine ⟨b, hb, ?_⟩
  simp only [DB.ZRem, hlen, if_false, exec, Op.bind_run, hrun, DB.zIncrSize]
  rw [show db.zEncodeSizeKey key = sizeKey db .ZSET key from rfl, hsize]
  simp [henv.commit]

theorem ZWf.removed (h : ZWf db s key) (hk : key.length ≤ MaxKeySize) {X : List Bytes} {b : Batch}
    (hb : Removes db s key X b) (hnd : (X.filter (· ∈ members db s .ZSET key)).Nodup) :
    Updated db .ZSET key s (removeUpdate X)
      (s.applyBatch (b ++ db.sizeBatch s (sizeKey db .ZSET key) ZSetType key
        (Int64.ofNat (members db s .ZSET key).card +
          -Int64.ofNat (X.filter (· ∈ members db s .ZSET key)).length))) := by
  refine Updated.of_batch (.inr (.inr rfl)) (fun o ho => ?_) (fun x => ?_) (fun _ m c => ?_)
    (h.remove hk hb (.inl hnd)).counted
  · obtain ⟨m, -, c, -, rfl | rfl⟩ := hb.only o ho
    · exact .zmember key m
    · exact .zscore key m c
  · rw [← zEncodeSetKey_front, hb.get_member h.indexed, removeUpdate_apply]
    split_ifs <;> rfl
  · rw [hb.get_score (le_uint16 hk) h.indexed, removeUpdate_apply]
    split_ifs <;> simp

theorem ZRem_call (henv : env.Commits) :
    RemoveCall db .ZSET key (fun m => checkZSetKMSize key m = .ok ())
      fun ms st => exec env (db.ZRem key ms) st := by
  intro ms st hC hvalid
  by_cases hnil : ms = []
  · subst hnil
    refine ⟨st, rfl, fun _ => ?_⟩
    exact hC.refl
  have hzwf : ZWf db st.store key := ⟨hC.indexed rfl, hC.counted⟩
  obtain ⟨m₀, hm₀⟩ := exists_mem_of_ne_nil ms hnil
  have hk := (checkKMSize_ok.mp (hvalid m₀ hm₀)).1.2
  obtain ⟨b, hb, hexec⟩ := ZRem_exec henv hzwf hvalid hnil
  exact ⟨_, hexec, hzwf.removed hk hb⟩

theorem counting_id (r : Except Err Int64 × State) : counting id r = r := by
  obtain ⟨r | r, st⟩ := r <;> rfl

theorem SAdd_call (henv : env.Commits) :
    AddCall db .SET key (fun a => (a, [])) id (fun a => checkSetKMSize key a = .ok ())
      (fun s args => (((args.map fun a => (a, ([] : Bytes))).map Prod.fst).filter
        (· ∉ members db s .SET key)).Nodup)
      fun args st => exec env (db.SAdd key args) st := by
  have hcall := addLoop_call (fun a => (a, [])) id id (fun m _ => checkSetKMSize key m)
    (.inr (.inl rfl)) (by decide) henv (fun x => (front_append db .SET key x).symm)
    (.inl fun n => rfl)
  simp only [counting_id] at hcall
  exact hcall

theorem HMset_call (henv : env.Commits) :
    AddCall db .HASH key (fun a : FVPair => (a.Field, a.Value)) (fun _ => 0)
      (fun a => (do checkHashKFSize key a.Field; checkValueSize a.Value) = .ok ())
      (fun s args => (((args.map fun a => (a.Field, a.Value)).map Prod.fst).filter
        (· ∉ members db s .HASH key)).Nodup)
      fun args st => counting (fun _ => 0) (exec env (db.HMset key args) st) :=
  addLoop_call (fun a : FVPair => (a.Field, a.Value)) (fun _ => ()) (fun _ => 0)
    (fun field value => do checkHashKFSize key field; checkValueSize value) (Or.inl rfl)
    (by decide) henv (fun x => (front_append db .HASH key x).symm) (Or.inr fun n => rfl)

theorem SRem_call (henv : env.Commits) :
    RemoveCall db .SET key (fun m => checkSetKMSize key m = .ok ())
      fun args st => exec env (db.SRem key args) st :=
  remLoop_call (Or.inr (Or.inl rfl)) (by decide) henv fun x => (front_append db .SET key x).symm

theorem HDel_call (henv : env.Commits) :
    RemoveCall db .HASH key (fun f => checkHashKFSize key f = .ok ())
      fun args st => exec env (db.HDel key args) st :=
  remLoop_call (Or.inl rfl) (by decide) henv fun x => (front_append db .HASH key x).symm

theorem mSetLoop_run (h : ∀ a ∈ args, checkKeySize a.Key = .ok () ∧ checkValueSize a.Value = .ok ())
    (u : Txn) :
    db.mSetLoop args env s u =
      (.ok (), u.queue (args.map fun a => .put (db.encodeKVKey a.Key) a.Value)) := by
  induction args generalizing u with
  | nil =>
    rw [map_nil, Txn.queue_nil]
    rfl
  | cons a as ih =>
    obtain ⟨hkey, hvalue⟩ := h a (.head _)
    simp [DB.mSetLoop, hkey, hvalue, ih (fun b hb => h b (.tail a hb))]

section
variable (henv : env.Commits)
  (h : ∀ a ∈ args, checkKeySize a.Key = .ok () ∧ checkValueSize a.Value = .ok ()) (st : State)
include henv h

theorem MSet_exec :
    exec env (db.MSet args) st = (.ok (), ⟨st.store.applyBatch
      (args.map fun a => .put (db.encodeKVKey a.Key) a.Value), st.nc⟩) := by
  cases args with
  | nil => rfl
  | cons a as =>
    simp [DB.MSet, exec, mSetLoop_run h, henv.commit]

theorem MSet_singles :
    oneByOne (fun args st => counting (fun _ => 0) (exec env (db.MSet args) st)) args st =
      (.ok 0, ⟨st.store.applyBatch
        (args.map fun a => .put (db.encodeKVKey a.Key) a.Value), st.nc⟩) := by
  induction args generalizing st with
  | nil => rfl
  | cons a as ih =>
    have hone : counting (fun _ => 0) (exec env (db.MSet [a]) st) =
        (.ok 0, ⟨st.store.applyBatch [.put (db.encodeKVKey a.Key) a.Value], st.nc⟩) := by
      rw [MSet_exec henv (by simpa using h a (.head _))]
      rfl
    have hrest := ih (fun b hb => h b (.tail a hb))
    simp only [oneByOne, hone, hrest]
    rfl

end

end

inductive MultiWrite
  | ZAdd (key : Bytes) (args : List ScorePair)
  | ZRem (key : Bytes) (members : List Bytes)
  | SAdd (key : Bytes) (args : List Bytes)
  | SRem (key : Bytes) (args : List Bytes)
  | HMset (key : Bytes) (args : List FVPair)
  | HDel (key : Bytes) (args : List Bytes)
  | MSet (args : List KVPair)

namespace MultiWrite
variable (db : DB) (env : Env) (s : Store)

def atOnce : MultiWrite → State → Except Err Int64 × State
  | .ZAdd key args, st => exec env (db.ZAdd key args) st
  | .ZRem key members, st => exec env (db.ZRem key members) st
  | .SAdd key args, st => exec env (db.SAdd key args) st
  | .SRem key args, st => exec env (db.SRem key args) st
  | .HMset key args, st => counting (fun _ => 0) (exec env (db.HMset key args) st)
  | .HDel key args, st => exec env (db.HDel key args) st
  | .MSet args, st => counting (fun _ => 0) (exec env (db.MSet args) st)

def singles : MultiWrite → State → Except Err Int64 × State
  | .ZAdd key args => oneByOne (fun args st => exec env (db.ZAdd key args) st) args
  | .ZRem key members => oneByOne (fun ms st => exec env (db.ZRem key ms) st) members
  | .SAdd key args => oneByOne (fun args st => exec env (db.SAdd key args) st) args
  | .SRem key args => oneByOne (fun args st => exec env (db.SRem key args) st) args
  | .HMset key args =>
    oneByOne (fun args st => counting (fun _ => 0) (exec env (db.HMset key args) st)) args
  | .HDel key args => oneByOne (fun args st => exec env (db.HDel key args) st) args
  | .MSet args =>
    oneByOne (fun args st => counting (fun _ => 0) (exec env (db.MSet args) st)) args

def Valid : MultiWrite → Prop
  | .ZAdd key args => ∀ a ∈ args, checkZSetKMSize key a.Member = .ok () ∧
      MinScore < a.Score ∧ a.Score < MaxScore
  | .ZRem key members => ∀ m ∈ members, checkZSetKMSize key m = .ok ()
  | .SAdd key args | .SRem key args => ∀ m ∈ args, checkSetKMSize key m = .ok ()
  | .HMset key args => ∀ a ∈ args, checkHashKFSize key a.Field = .ok () ∧
      checkValueSize a.Value = .ok ()
  | .HDel key args => ∀ f ∈ args, checkHashKFSize key f = .ok ()
  | .MSet args => ∀ a ∈ args, checkKeySize a.Key = .ok () ∧ checkValueSize a.Value = .ok ()

instance (w : MultiWrite) : Decidable w.Valid :=
  match w with
  | .ZAdd _ args => inferInstanceAs (Decidable (∀ a ∈ args, _))
  | .ZRem _ args | .SAdd _ args | .SRem _ args | .HDel _ args =>
    inferInstanceAs (Decidable (∀ a ∈ args, _))
  | .HMset _ args => inferInstanceAs (Decidable (∀ a ∈ args, _))
  | .MSet args => inferInstanceAs (Decidable (∀ a ∈ args, _))

def ConsistentAt : MultiWrite → Prop
  | .ZAdd key _ | .ZRem key _ => CollectionWf db .ZSET key s
  | .SAdd key _ | .SRem key _ => CollectionWf db .SET key s
  | .HMset key _ | .HDel key _ => CollectionWf db .HASH key s
  | .MSet _ => True

def changed : MultiWrite → List Bytes
  | .ZAdd key args => (args.map ScorePair.Member).filter (· ∉ members db s .ZSET key)
  | .ZRem key ms => ms.filter (· ∈ members db s .ZSET key)
  | .SAdd key args => args.filter (· ∉ members db s .SET key)
  | .SRem key args => args.filter (· ∈ members db s .SET key)
  | .HMset key args => (args.map FVPair.Field).filter (· ∉ members db s .HASH key)
  | .HDel key args => args.filter (· ∈ members db s .HASH key)
  | .MSet _ => []

def Fits : MultiWrite → Prop
  | .ZAdd key args => args.length < 2 ^ 63 ∧
      (members db s .ZSET key ∪ (args.map ScorePair.Member).toFinset).card < 2 ^ 63
  | .SAdd key args => args.length < 2 ^ 63 ∧
      (members db s .SET key ∪ args.toFinset).card < 2 ^ 63
  | .HMset key args => args.length < 2 ^ 63 ∧
      (members db s .HASH key ∪ (args.map FVPair.Field).toFinset).card < 2 ^ 63
  | .ZRem _ args | .SRem _ args | .HDel _ args => args.length < 2 ^ 63
  | .MSet _ => True

def count (w : MultiWrite) : Int64 :=
  match w with
  | .HMset _ _ | .MSet _ => 0
  | _ => Int64.ofNat (w.changed db s).toFinset.card

/-- No member is added or removed twice, and `ZAdd` lists no score that is neither the last one
of its member nor the stored one. -/
def CountsOnce (w : MultiWrite) : Prop :=
  (w.changed db s).Nodup ∧ match w with
    | .ZAdd key args => LastScores db s key args
    | _ => True

end MultiWrite

theorem multiWrite_eq_singles_iff {db : DB} {env : Env} {st : State} (henv : env.Commits)
    (w : MultiWrite) (hC : w.ConsistentAt db st.store) (hvalid : w.Valid)
    (hfits : w.Fits db st.store) :
    SameOutcome (w.atOnce db env st) (w.singles db env st) ∧
      (w.atOnce db env st).1 = .ok (w.count db st.store) ↔ w.CountsOnce db st.store := by
  have hset : DataType.HasMembers .SET := .inr (.inl rfl)
  have hhash : DataType.HasMembers .HASH := .inl rfl
  have hzset : DataType.HasMembers .ZSET := .inr (.inr rfl)
  cases w with
  | ZAdd key args =>
    have hiff := (ZAdd_call henv).iff hzset hC hvalid
    rw [map_entry_member] at hiff
    exact hiff hfits.2 hfits.1
  | ZRem key ms =>
    exact ((ZRem_call henv).iff hzset hC hvalid hfits).trans (and_iff_left trivial).symm
  | SAdd key args =>
    have hiff := (SAdd_call henv).iff hset hC hvalid
    have hnames : (args.map fun a => (a, ([] : Bytes))).map Prod.fst = args := by
      rw [List.map_map]
      exact List.map_id args
    rw [hnames] at hiff
    exact (hiff hfits.2 hfits.1).trans (and_iff_left trivial).symm
  | SRem key args =>
    exact ((SRem_call henv).iff hset hC hvalid hfits).trans (and_iff_left trivial).symm
  | HMset key args =>
    have hcheck : ∀ a ∈ args,
        (do checkHashKFSize key a.Field; checkValueSize a.Value) = .ok () := by
      intro a ha
      rw [(hvalid a ha).1]
      exact (hvalid a ha).2
    have hiff := (HMset_call henv).iff hhash hC hcheck
    rw [List.map_map] at hiff
    exact (hiff hfits.2 hfits.1).trans (and_iff_left trivial).symm
  | HDel key args =>
    exact ((HDel_call henv).iff hhash hC hvalid hfits).trans (and_iff_left trivial).symm
  | MSet args =>
    have hwhole : (MultiWrite.MSet args).atOnce db env st = (.ok 0, ⟨st.store.applyBatch
        (args.map fun a => .put (db.encodeKVKey a.Key) a.Value), st.nc⟩) := by
      rw [MultiWrite.atOnce, MSet_exec henv hvalid]
      rfl
    refine iff_of_true ⟨⟨?_, ?_⟩, ?_⟩ ⟨List.nodup_nil, trivial⟩ <;> rw [hwhole]
    · rw [MultiWrite.singles, MSet_singles henv hvalid]
    · rw [MultiWrite.singles, MSet_singles henv hvalid]
    · rfl

theorem twoMembers_collectionWf : CollectionWf DB.zero .ZSET [122] twoMembers := by
  refine ⟨twoMembers_zwf.counted, fun _ => twoMembers_zwf.indexed, fun v hv => ?_⟩
  cases hv

def rescoring : MultiWrite := .ZAdd [122] [⟨3, [97]⟩, ⟨4, [97]⟩, ⟨7, [99]⟩]

theorem multiWrite_eq_singles_rescoring :
    SameOutcome (rescoring.atOnce DB.zero (Env.quiet 0) ⟨twoMembers, State.empty.nc⟩)
      (rescoring.singles DB.zero (Env.quiet 0) ⟨twoMembers, State.empty.nc⟩) ∧
    (rescoring.atOnce DB.zero (Env.quiet 0) ⟨twoMembers, State.empty.nc⟩).1 = .ok 1 := by
  refine (@multiWrite_eq_singles_iff DB.zero (Env.quiet 0) ⟨twoMembers, State.empty.nc⟩
    ⟨rfl, fun _ _ => rfl⟩ rescoring twoMembers_collectionWf (by decide) ⟨by decide, by decide⟩).mpr
    ⟨by decide, ?_⟩
  intro a ha l hl
  simp only [List.mem_cons, List.not_mem_nil, or_false] at ha
  rcases ha with rfl | rfl | rfl
  · right
    decide
  · left
    cases hl
    rfl
  · left
    cases hl
    rfl

theorem multiWrite_counts_twice :
    (MultiWrite.SAdd [115] [[97], [97]]).Valid ∧
    (MultiWrite.SAdd [115] [[97], [97]]).ConsistentAt DB.zero OrderedMap.empty ∧
    ((MultiWrite.SAdd [115] [[97], [97]]).atOnce DB.zero (Env.quiet 0) State.empty).1 = .ok 2 ∧
    ((MultiWrite.SAdd [115] [[97], [97]]).singles DB.zero (Env.quiet 0) State.empty).1 = .ok 1 ∧
    ((MultiWrite.SAdd [115] [[97], [97]]).atOnce DB.zero (Env.quiet 0) State.empty).2.store ≠
      ((MultiWrite.SAdd [115] [[97], [97]]).singles DB.zero (Env.quiet 0) State.empty).2.store ∧
    ((MultiWrite.ZAdd [122] [⟨1, [97]⟩, ⟨2, [97]⟩]).atOnce DB.zero (Env.quiet 0)
      State.empty).2.store.get (DB.zero.zEncodeScoreKey [122] [97] 1) = some [] ∧
    ((MultiWrite.ZAdd [122] [⟨1, [97]⟩, ⟨2, [97]⟩]).singles DB.zero (Env.quiet 0)
      State.empty).2.store.get (DB.zero.zEncodeScoreKey [122] [97] 1) = none := by
  refine ⟨by decide, ⟨Counted.empty DB.zero .SET [115], ?_, ?_⟩, by decide, by decide, ?_,
    by decide, by decide⟩
  · intro h
    cases h
  · intro v hv
    cases hv
  · intro h
    have hget := congrArg (fun s => s.get (DB.zero.sEncodeSizeKey [115])) h
    revert hget
    decide

end LedisDB
