import LedisDB.HashInvariant
import LedisDB.SetInvariant
import LedisDB.Updates

/-!
# Many arguments at once or one by one

`ZAdd`, `ZRem`, `SAdd`, `SRem`, `HMset`, `HDel` and `MSet` look up every argument in the
store as it was before the call. One call for each argument leaves the collection with
its members counted once; the call with all arguments does so exactly when it counts no
member twice and, for `ZAdd`, lists no score that is neither the last one of its member
nor the stored one.
-/

namespace LedisDB

open List

variable {α γ : Type}

/-- One call for each argument, in order; the counts are added up. -/
def oneByOne (call : List α → State → Except Err Int64 × State) :
    List α → State → Except Err Int64 × State
  | [], st => (.ok 0, st)
  | a :: as, st =>
    match call [a] st with
    | (.error e, st) => (.error e, st)
    | (.ok n, st) =>
      match oneByOne call as st with
      | (.error e, st) => (.error e, st)
      | (.ok m, st) => (.ok (n + m), st)

def SameOutcome (r r' : Except Err Int64 × State) : Prop := r.1 = r'.1 ∧ r.2.store = r'.2.store

/-- Single calls that update a consistent collection by their argument and count the change of
`size`; `Q` is what the remaining arguments have to meet. -/
structure Singles {α : Type} (db : DB) (T : DataType) (key : Bytes)
    (call : List α → State → Except Err Int64 × State) (upd : List α → Update)
    (size : Store → Int64) (Q : List α → Store → Prop) : Prop where
  nil : upd [] = fun _ => none
  cons : ∀ a as, upd (a :: as) = (upd [a]).then (upd as)
  step : ∀ a as st, CollectionWf db T key st.store → Q (a :: as) st.store →
    ∃ st', call [a] st = (.ok (size st'.store - size st.store), st') ∧
      Updated db T key st.store (upd [a]) st'.store ∧ CollectionWf db T key st'.store ∧
      Q as st'.store
  empty : ∀ a as s s' s'', Updated db T key s (upd [a]) s' → Updated db T key s' (upd as) s'' →
    members db s' T key = ∅ → members db s'' T key = ∅

theorem Singles.run {db : DB} {T : DataType} {key : Bytes}
    {call : List α → State → Except Err Int64 × State} {upd : List α → Update}
    {size : Store → Int64} {Q : List α → Store → Prop} (h : Singles db T key call upd size Q)
    {as : List α} {st : State} (hC : CollectionWf db T key st.store) (hQ : Q as st.store) :
    ∃ st', oneByOne call as st = (.ok (size st'.store - size st.store), st') ∧
      Updated db T key st.store (upd as) st'.store := by
  induction as generalizing st with
  | nil =>
    refine ⟨st, ?_, h.nil ▸ hC.refl⟩
    simp [oneByOne]
  | cons a as ih =>
    obtain ⟨st₁, hcall, hupd, hC₁, hQ₁⟩ := h.step a as st hC hQ
    obtain ⟨st₂, hrest, hupd₂⟩ := ih hC₁ hQ₁
    refine ⟨st₂, ?_, h.cons a as ▸ hupd.trans hupd₂ (h.empty a as _ _ _ hupd hupd₂)⟩
    simp only [oneByOne, hcall, hrest]
    rw [Int64.add_comm, Int64.sub_eq_add_neg, Int64.sub_eq_add_neg, Int64.sub_eq_add_neg,
      Int64.add_assoc, ← Int64.add_assoc (-size st₁.store), Int64.add_left_neg, Int64.zero_add]

/-- The update by the listed values, of which the last one counts. -/
def putUpdate : List (Bytes × Bytes) → Update
  | [] => fun _ => none
  | a :: as => fun x => (putUpdate as x).or (if a.1 = x then some (some a.2) else none)

theorem putUpdate_cons (a : Bytes × Bytes) (as : List (Bytes × Bytes)) (x : Bytes) :
    putUpdate (a :: as) x = (putUpdate as x).or (if a.1 = x then some (some a.2) else none) := rfl

section
variable {db : DB} {env : Env} {s s' m : Store} {T : DataType} {key x : Bytes} {st : State}
  {u : Txn} {check : Bytes → Bytes → Except Err Unit} {args : List (Bytes × Bytes)}
  {enc : Bytes → Bytes} {xs ms l : List Bytes}

theorem putUpdate_get (args : List (Bytes × Bytes)) (x : Bytes) :
    (s.applyBatch (args.map fun a => .put (front db T key ++ a.1) a.2)).get
      (front db T key ++ x) = (putUpdate args x).getD (s.get (front db T key ++ x)) := by
  have hlast : OrderedMap.lastWrite (front db T key ++ x)
      (args.map fun a => WriteOp.put (front db T key ++ a.1) a.2) = putUpdate args x := by
    induction args with
    | nil => rfl
    | cons a as ih => simp [OrderedMap.lastWrite_cons, ih, putUpdate]
  rw [OrderedMap.get_applyBatch, hlast]

theorem addLoop_run (h : ∀ a ∈ args, check a.1 a.2 = .ok ()) (enc : Bytes → Bytes) (env : Env)
    (s : Store) (u : Txn) (num : Int64) :
    ∃ r t, DB.addLoop check enc args num env s u = (.ok r, t) := by
  induction args generalizing num u with
  | nil => exact ⟨num, u, rfl⟩
  | cons a as ih =>
    simp only [DB.addLoop, h a (.head _)]
    exact ih (fun b hb => h b (.tail _ hb)) _ _

theorem remLoop_run {check : Bytes → Except Err Unit} (h : ∀ m ∈ ms, check m = .ok ())
    (enc : Bytes → Bytes) (env : Env) (s : Store) (u : Txn) (num : Int64) :
    ∃ r t, DB.remLoop check enc ms num env s u = (.ok r, t) := by
  induction ms generalizing num u with
  | nil => exact ⟨num, u, rfl⟩
  | cons m ms ih =>
    have hms := fun b hb => h b (.tail m hb)
    simp only [DB.remLoop, Op.bind_run, Op.lift_run, h m (.head _), Op.find_run]
    split
    · exact ih hms _ _
    · exact ih hms _ _

theorem exec_add {f : Int64 → γ} (henv : env.Commits) (hC : Counted db st.store T key)
    (henc : ∀ x, enc x = front db T key ++ x) (hcheck : ∀ a ∈ args, check a.1 a.2 = .ok ()) :
    exec env (do
      let num ← DB.addLoop check enc args 0
      let _ ← db.incrSize (sizeKey db T key) T.code key num
      pure (.commit (f num))) st =
    (.ok (f (Int64.ofNat
      ((args.map Prod.fst).filter (· ∉ members db st.store T key)).length)),
      ⟨st.store.applyBatch ((args.map fun a => .put (front db T key ++ a.1) a.2) ++
        db.sizeBatch st.store (sizeKey db T key) T.code key
          (Int64.ofNat (members db st.store T key).card + Int64.ofNat
            ((args.map Prod.fst).filter (· ∉ members db st.store T key)).length)), st.nc⟩) := by
  obtain ⟨r, t, hrun⟩ := addLoop_run hcheck enc env st.store ⟨[], st.nc⟩ 0
  obtain ⟨rfl, rfl, -⟩ := addLoop_ok hrun
  simp only [henc, countP_absent, Int64.zero_add, Txn.queue, nil_append] at hrun
  obtain ⟨n, hsize⟩ := incrSize_run db env ⟨args.map fun a => .put (front db T key ++ a.1) a.2,
    st.nc⟩ T.code key (Int64.ofNat
      ((args.map Prod.fst).filter (· ∉ members db st.store T key)).length) hC.decode
  simp only [exec, Op.bind_run, hrun, hsize, Op.pure_run, henv.commit]

theorem putUpdate_eq_none : putUpdate args x = none ↔ x ∉ args.map Prod.fst := by
  induction args with
  | nil => simp [putUpdate]
  | cons a as ih =>
    by_cases ha : a.1 = x
    · simp [putUpdate, ha]
    · simp only [putUpdate, ha, if_false, Option.or_none, ih]
      simp [Ne.symm ha]

theorem putUpdate_mem {v : Option Bytes} (h : putUpdate args x = some v) :
    ∃ a ∈ args, a.1 = x ∧ v = some a.2 := by
  induction args with
  | nil => cases h
  | cons a as ih =>
    rw [putUpdate_cons] at h
    cases hrest : putUpdate as x with
    | some w =>
      rw [hrest] at h
      obtain ⟨b, hb, hbx⟩ := ih (hrest.trans h)
      exact ⟨b, .tail a hb, hbx⟩
    | none =>
      rw [hrest] at h
      split_ifs at h with ha
      · cases h
        exact ⟨a, (.head _), ha, rfl⟩
      · cases h

theorem Updated.members_put (h : Updated db T key s (putUpdate args) s') :
    members db s' T key = members db s T key ∪ (args.map Prod.fst).toFinset := by
  ext x
  rw [Finset.mem_union, mem_members, mem_members, h.member]
  cases hu : putUpdate args x with
  | none => simp [putUpdate_eq_none.mp hu]
  | some v =>
    have hx : x ∈ args.map Prod.fst := by
      by_contra hx
      rw [putUpdate_eq_none.mpr hx] at hu
      cases hu
    obtain ⟨a, -, -, rfl⟩ := putUpdate_mem hu
    simp [hx]

theorem nodup_iff_card : l.Nodup ↔ l.toFinset.card = l.length := by
  constructor
  · exact toFinset_card_of_nodup
  · intro h
    rw [← (dedup_sublist l).eq_of_length h]
    exact nodup_dedup l

theorem Counted.of_sizeBatch (hT : T ≠ .KV) {z : Int64}
    (h : Counted db (m.applyBatch (db.sizeBatch s (sizeKey db T key) T.code key z)) T key) :
    (if z ≤ 0 then none else some (PutInt64 z)) = if (members db m T key).card = 0 then none
      else some (PutInt64 (Int64.ofNat (members db m T key).card)) := by
  have hmem : members db (m.applyBatch (db.sizeBatch s (sizeKey db T key) T.code key z)) T key =
      members db m T key := sizeBatch_members hT z
  have hsize := h.size
  rwa [hmem, sizeBatch_get] at hsize

theorem counted_add_iff (hT : T ≠ .KV) {b : Batch}
    (hmem : members db (s.applyBatch b) T key = members db s T key ∪ xs.toFinset)
    (hroom : (members db s T key ∪ xs.toFinset).card < 2 ^ 63) (hlen : xs.length < 2 ^ 63) :
    Counted db (s.applyBatch (b ++ db.sizeBatch s (sizeKey db T key) T.code key
      (Int64.ofNat (members db s T key).card +
        Int64.ofNat (xs.filter (· ∉ members db s T key)).length))) T key ↔
      (xs.filter (· ∉ members db s T key)).Nodup := by
  rw [applyBatch_append]
  constructor
  · intro h
    have hsize := h.of_sizeBatch hT
    rw [hmem] at hsize
    have hle := length_filter_le (· ∉ members db s T key) xs
    have hcard := card_union_filter (members db s T key) xs
    rw [nodup_iff_card]
    generalize xs.filter (· ∉ members db s T key) = l at *
    split_ifs at hsize with hz h0 h0
    · have hnil : l = [] := by
        rw [← toFinset_eq_empty_iff, ← Finset.card_eq_zero]
        omega
      rw [hnil]
      rfl
    · have hnum := congrArg Int64.toInt (PutInt64_inj (Option.some.inj hsize))
      rw [← Int64.ofNat_add, Int64.toInt_ofNat', Int64.toInt_ofNat'] at hnum
      simp only [Int.bmod_def, Int64.size] at hnum
      omega
  · intro h
    refine counted_sizeBatch hT ?_ (.inl ?_) <;> rw [hmem]
    · exact hroom
    · exact AddsOnce.toInt ⟨h, hroom⟩

structure AddCall {α : Type} (db : DB) (T : DataType) (key : Bytes) (pair : α → Bytes × Bytes)
    (num : Int64 → Int64) (valid : α → Prop) (cond : Store → List α → Prop)
    (call : List α → State → Except Err Int64 × State) : Prop where
  counts : (∀ n, num n = n) ∨ ∀ n, num n = 0
  scores : T = .ZSET → ∀ a, valid a → ∃ c, (pair a).2 = PutInt64 c ∧ MinScore < c ∧ c < MaxScore
  nodup : ∀ s args, cond s args →
    (((args.map pair).map Prod.fst).filter (· ∉ members db s T key)).Nodup
  single : ∀ s a, cond s [a]
  runs : ∀ args st, CollectionWf db T key st.store → (∀ a ∈ args, valid a) →
    (members db st.store T key ∪ ((args.map pair).map Prod.fst).toFinset).card < 2 ^ 63 →
    args.length < 2 ^ 63 →
    ∃ st', call args st = (.ok (num (Int64.ofNat
      (((args.map pair).map Prod.fst).filter (· ∉ members db st.store T key)).length)), st') ∧
      (cond st.store args ↔ Updated db T key st.store (putUpdate (args.map pair)) st'.store)

theorem add_count {num : Int64 → Int64} (hnum : (∀ n, num n = n) ∨ ∀ n, num n = 0)
    {S S' : Finset Bytes} (hS : S' = S ∪ xs.toFinset) (h : (xs.filter (· ∉ S)).Nodup) :
    num (Int64.ofNat (xs.filter (· ∉ S)).length) =
      num (Int64.ofNat S'.card) - num (Int64.ofNat S.card) := by
  have hcard := card_union_filter S xs
  rw [toFinset_card_of_nodup h] at hcard
  rcases hnum with hnum | hnum
  · rw [hnum, hnum, hnum, hS, hcard, Int64.ofNat_add, Int64.add_comm, Int64.sub_eq_add_neg,
      Int64.add_assoc, Int64.add_right_neg, Int64.add_zero]
  · rw [hnum, hnum, hnum]
    rfl

section
variable {α : Type} {pair : α → Bytes × Bytes} {num : Int64 → Int64} {valid : α → Prop}
  {cond : Store → List α → Prop} {call : List α → State → Except Err Int64 × State}
  {args : List α}

theorem AddCall.singles (h : AddCall db T key pair num valid cond call) :
    Singles db T key call (fun as => putUpdate (as.map pair))
      (fun s => num (Int64.ofNat (members db s T key).card))
      fun as s => (∀ a ∈ as, valid a) ∧
        (members db s T key ∪ ((as.map pair).map Prod.fst).toFinset).card < 2 ^ 63 where
  nil := rfl
  cons := fun a as => rfl
  step := by
    rintro a as st hC ⟨hvalid, hroom⟩
    have hone : ∀ b ∈ [a], valid b := by
      simpa using hvalid a (.head _)
    have hsub : members db st.store T key ∪ (([a].map pair).map Prod.fst).toFinset ⊆
        members db st.store T key ∪ (((a :: as).map pair).map Prod.fst).toFinset := by
      refine Finset.union_subset_union_right ?_
      intro x
      simp only [mem_toFinset, map_cons, map_nil, mem_cons, not_mem_nil, or_false]
      exact .inl
    obtain ⟨st', hcall, hcond⟩ := h.runs [a] st hC hone
      ((Finset.card_le_card hsub).trans_lt hroom) (by simp)
    have hnd := h.nodup st.store [a] (h.single st.store a)
    have hupd := hcond.mp (h.single st.store a)
    refine ⟨st', ?_, hupd, hupd.collectionWf hC fun hT m v hm => ?_, fun b hb =>
      hvalid b (.tail _ hb), ?_⟩
    · rw [hcall, add_count h.counts hupd.members_put hnd]
    · obtain ⟨b, hb, -, hv⟩ := putUpdate_mem hm
      obtain ⟨a', ha', rfl⟩ := mem_map.mp hb
      rw [Option.some.inj hv]
      exact h.scores hT a' (hone a' ha')
    · rw [hupd.members_put]
      simpa using hroom
  empty := by
    intro a as s s' s'' h _ hE
    rw [h.members_put] at hE
    simp at hE

theorem AddCall.iff (h : AddCall db T key pair num valid cond call) (hT : T.HasMembers)
    (hC : CollectionWf db T key st.store) (hvalid : ∀ a ∈ args, valid a)
    (hroom : (members db st.store T key ∪ ((args.map pair).map Prod.fst).toFinset).card < 2 ^ 63)
    (hlen : args.length < 2 ^ 63) :
    SameOutcome (call args st) (oneByOne call args st) ∧
      (call args st).1 = .ok (num (Int64.ofNat (((args.map pair).map Prod.fst).filter
        (· ∉ members db st.store T key)).toFinset.card)) ↔ cond st.store args := by
  obtain ⟨st', hsingles, hupd⟩ := h.singles.run hC ⟨hvalid, hroom⟩
  obtain ⟨st'', hcall, hcond⟩ := h.runs args st hC hvalid hroom hlen
  rw [hcall, hsingles, hcond]
  constructor
  · rintro ⟨⟨-, hstore⟩, -⟩
    exact hstore ▸ hupd
  · intro hwhole
    have hnd := h.nodup st.store args (hcond.mpr hwhole)
    refine ⟨⟨?_, hwhole.unique hT hupd⟩, ?_⟩
    · exact congrArg Except.ok (add_count h.counts hupd.members_put hnd)
    · rw [toFinset_card_of_nodup hnd]

end

def counting (g : γ → Int64) (r : Except Err γ × State) : Except Err Int64 × State :=
  (r.1.map g, r.2)

theorem addLoop_call (pair : α → Bytes × Bytes) (f : Int64 → γ) (g : γ → Int64)
    (check : Bytes → Bytes → Except Err Unit) (hT : T.HasMembers) (hZ : T ≠ .ZSET)
    (henv : env.Commits) (henc : ∀ x, enc x = front db T key ++ x)
    (hg : (∀ n, g (f n) = n) ∨ ∀ n, g (f n) = 0) :
    AddCall db T key pair (fun n => g (f n)) (fun a => check (pair a).1 (pair a).2 = .ok ())
      (fun s args => (((args.map pair).map Prod.fst).filter (· ∉ members db s T key)).Nodup)
      fun args st => counting g (exec env (do
        let num ← DB.addLoop check enc (args.map pair) 0
        let _ ← db.incrSize (sizeKey db T key) T.code key num
        pure (.commit (f num))) st) where
  counts := hg
  scores := fun h => absurd h hZ
  nodup := fun s args h => h
  single := fun s a => (nodup_singleton (pair a).1).filter _
  runs := by
    intro args st hC hvalid hroom hlen
    have hKV : T ≠ .KV := by
      rcases hT with rfl | rfl | rfl <;> decide
    have hcheck : ∀ a ∈ args.map pair, check a.1 a.2 = .ok () := by
      simpa using hvalid
    have hexec := exec_add (f := f) henv hC.counted henc hcheck
    have hiff := counted_add_iff hKV (OrderedMap.suffixes_puts st.store (front db T key)
      (args.map pair)) hroom (by simpa using hlen)
    refine ⟨_, by rw [hexec]; rfl, ?_⟩
    rw [← hiff]
    refine ⟨fun h => ?_, fun h => h.counted⟩
    refine Updated.of_batch hT (fun o ho => ?_) (putUpdate_get _) (fun h => absurd h hZ) h
    obtain ⟨a, -, rfl⟩ := mem_map.mp ho
    rw [front_append]
    rcases hT with rfl | rfl | rfl
    · exact .hfield key a.1
    · exact .smember key a.1
    · exact absurd rfl hZ

def removeUpdate (xs : List Bytes) : Update := fun x => if xs.contains x then some none else none

theorem removeUpdate_apply (xs : List Bytes) (x : Bytes) :
    removeUpdate xs x = if x ∈ xs then some none else none := by
  simp [removeUpdate]

theorem removeUpdate_nil : removeUpdate [] = fun _ => none := rfl

theorem removeUpdate_cons (x : Bytes) (xs : List Bytes) :
    removeUpdate (x :: xs) = (removeUpdate [x]).then (removeUpdate xs) := by
  funext y
  by_cases hy : y ∈ xs <;> simp [removeUpdate_apply, Update.then, hy]

theorem Updated.members_remove (h : Updated db T key s (removeUpdate xs) s') :
    members db s' T key = members db s T key \ xs.toFinset := by
  ext x
  rw [Finset.mem_sdiff, mem_members, mem_members, h.member, removeUpdate_apply]
  by_cases hx : x ∈ xs <;> simp [hx]

theorem neg_sub_neg_ofNat (d n : ℕ) : -Int64.ofNat d - -Int64.ofNat (d + n) = Int64.ofNat n := by
  rw [Int64.ofNat_add, Int64.sub_eq_add_neg, Int64.neg_neg, ← Int64.add_assoc,
    Int64.add_left_neg, Int64.zero_add]

theorem remove_count {S : Finset Bytes} (h : (xs.filter (· ∈ S)).Nodup) :
    Int64.ofNat (xs.filter (· ∈ S)).length =
      -Int64.ofNat (S \ xs.toFinset).card - -Int64.ofNat S.card := by
  have hcard := card_sdiff_filter S xs
  rw [toFinset_card_of_nodup h] at hcard
  rw [← hcard, neg_sub_neg_ofNat]

def RemoveCall (db : DB) (T : DataType) (key : Bytes) (valid : Bytes → Prop)
    (call : List Bytes → State → Except Err Int64 × State) : Prop :=
  ∀ xs st, CollectionWf db T key st.store → (∀ x ∈ xs, valid x) →
    ∃ st', call xs st =
      (.ok (Int64.ofNat (xs.filter (· ∈ members db st.store T key)).length), st') ∧
      ((xs.filter (· ∈ members db st.store T key)).Nodup →
        Updated db T key st.store (removeUpdate xs) st'.store)

section
variable {valid : Bytes → Prop} {call : List Bytes → State → Except Err Int64 × State}
  {xs : List Bytes}

theorem RemoveCall.singles (h : RemoveCall db T key valid call) :
    Singles db T key call removeUpdate (fun s => -Int64.ofNat (members db s T key).card)
      fun xs _ => ∀ x ∈ xs, valid x where
  nil := removeUpdate_nil
  cons := removeUpdate_cons
  step := by
    intro x xs st hC hvalid
    obtain ⟨st', hcall, hupd⟩ := h [x] st hC (by simpa using hvalid x (.head _))
    have hnd : ([x].filter (· ∈ members db st.store T key)).Nodup := (nodup_singleton x).filter _
    have hone := hupd hnd
    refine ⟨st', ?_, hone, hone.collectionWf hC fun _ m v hm => ?_, fun y hy =>
      hvalid y (.tail _ hy)⟩
    · rw [hcall, remove_count hnd, hone.members_remove]
    · rw [removeUpdate_apply] at hm
      split_ifs at hm
      cases hm
  empty := by
    intro x xs s s' s'' _ h hE
    rw [h.members_remove, hE, Finset.empty_sdiff]

theorem RemoveCall.iff (h : RemoveCall db T key valid call) (hT : T.HasMembers)
    (hC : CollectionWf db T key st.store) (hvalid : ∀ x ∈ xs, valid x) (hlen : xs.length < 2 ^ 63) :
    SameOutcome (call xs st) (oneByOne call xs st) ∧
      (call xs st).1 = .ok (Int64.ofNat (xs.filter (· ∈ members db st.store T key)).toFinset.card) ↔
      (xs.filter (· ∈ members db st.store T key)).Nodup := by
  obtain ⟨st', hsingles, hupd⟩ := h.singles.run hC hvalid
  obtain ⟨st'', hcall, hwhole⟩ := h xs st hC hvalid
  rw [hcall, hsingles, hupd.members_remove]
  constructor
  · rintro ⟨-, hcount⟩
    have hnum := Except.ok.inj hcount
    have hle := length_filter_le (· ∈ members db st.store T key) xs
    have hdistinct := toFinset_card_le (xs.filter (· ∈ members db st.store T key))
    rw [← Int64.toInt_inj, Int64.toInt_ofNat_of_lt (by omega),
      Int64.toInt_ofNat_of_lt (by omega)] at hnum
    rw [nodup_iff_card]
    omega
  · intro hnd
    refine ⟨⟨congrArg Except.ok (remove_count hnd), (hwhole hnd).unique hT hupd ▸ rfl⟩, ?_⟩
    rw [toFinset_card_of_nodup hnd]

end

theorem remLoop_call {check : Bytes → Except Err Unit} (hT : T.HasMembers) (hZ : T ≠ .ZSET)
    (henv : env.Commits) (henc : ∀ x, enc x = front db T key ++ x) :
    RemoveCall db T key (fun x => check x = .ok ()) fun xs st => exec env (do
      let num ← DB.remLoop check enc xs 0
      let _ ← db.incrSize (sizeKey db T key) T.code key (-num)
      pure (.commit num)) st := by
  intro xs st hC hvalid
  have hKV : T ≠ .KV := by
    rcases hT with rfl | rfl | rfl <;> decide
  obtain ⟨r, t, hrun⟩ := remLoop_run hvalid enc env st.store ⟨[], st.nc⟩ 0
  obtain ⟨rfl, rfl, -⟩ := remLoop_ok hrun
  simp only [henc, filter_present] at hrun
  obtain ⟨n, hsize⟩ := incrSize_run db env ⟨(xs.filter (· ∈ members db st.store T key)).map
    fun m => .delete (front db T key ++ m), st.nc⟩ T.code key
      (-Int64.ofNat (xs.filter (· ∈ members db st.store T key)).length) hC.counted.decode
  have hexec : exec env (do
      let num ← DB.remLoop check enc xs 0
      let _ ← db.incrSize (sizeKey db T key) T.code key (-num)
      pure (.commit num)) st =
      (.ok (Int64.ofNat (xs.filter (· ∈ members db st.store T key)).length),
        ⟨st.store.applyBatch (((xs.filter (· ∈ members db st.store T key)).map
          fun m => .delete (front db T key ++ m)) ++
          db.sizeBatch st.store (sizeKey db T key) T.code key
            (Int64.ofNat (members db st.store T key).card +
              -Int64.ofNat (xs.filter (· ∈ members db st.store T key)).length)), st.nc⟩) := by
    simp [exec, hrun, hsize, henv.commit]
  refine ⟨_, hexec, fun hnd => ?_⟩
  have hcounted := hC.counted.remove hKV (.inl hnd)
  simp only [filter_present] at hcounted
  refine Updated.of_batch hT (fun o ho => ?_) (fun x => ?_) (fun h => absurd h hZ) hcounted
  · obtain ⟨x, -, rfl⟩ := mem_map.mp ho
    rw [front_append]
    rcases hT with rfl | rfl | rfl
    · exact .hfield key x
    · exact .smember key x
    · exact absurd rfl hZ
  · have hdels : Deletes ((xs.filter (· ∈ members db st.store T key)).map
        fun m => .delete (front db T key ++ m)) := by
      intro o ho
      obtain ⟨m, -, rfl⟩ := mem_map.mp ho
      exact ⟨_, rfl⟩
    rw [removeUpdate_apply]
    by_cases hx : x ∈ xs
    · rw [if_pos hx]
      refine hdels.get_none ?_
      cases hget : st.store.get (front db T key ++ x) with
      | none => exact .inl rfl
      | some v =>
        have hmem : x ∈ members db st.store T key := by
          rw [mem_members, hget]
          rfl
        refine .inr (mem_map.mpr ⟨x, mem_filter.mpr ⟨hx, ?_⟩, rfl⟩)
        exact decide_eq_true hmem
    · rw [if_neg hx, get_applyBatch_of_not_mem]
      · rfl
      · intro o ho heq
        obtain ⟨m, hm, rfl⟩ := mem_map.mp ho
        exact hx (append_cancel_left heq ▸ (mem_filter.mp hm).1)

end

end LedisDB
