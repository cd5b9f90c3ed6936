import LedisDB.Counting

/-!
# Set algebra

The union, the difference and the intersection of `ledis/t_set.go` are three loops over Go
maps that stop early when nothing is left. Each returns what its name says of the member
entries, without repetitions and in the order in which Go ranges over the map.
-/

namespace LedisDB

open List Op

def SetOpt.Selects (S : Bytes → Finset Bytes) : SetOpt → List Bytes → Bytes → Prop
  | .UnionType, keys, m => ∃ k ∈ keys, m ∈ S k
  | .DiffType, [], _ => False
  | .DiffType, k :: ks, m => m ∈ S k ∧ ∀ k' ∈ ks, m ∉ S k'
  | .InterType, keys, m => ∀ k ∈ keys, m ∈ S k

structure Lists {α : Type*} (v : List α) (P : α → Prop) : Prop where
  nodup : v.Nodup
  mem : ∀ x, x ∈ v ↔ P x

section
variable {α : Type*} {d v : List α} {P Q : α → Prop}

theorem Lists.congr (h : Lists v P) (hPQ : ∀ x, P x ↔ Q x) : Lists v Q :=
  ⟨h.nodup, fun x => (h.mem x).trans (hPQ x)⟩

theorem Lists.nil (h : ∀ x : α, ¬ P x) : Lists [] P :=
  ⟨nodup_nil, fun x => iff_of_false not_mem_nil (h x)⟩

theorem Lists.perm (h : Lists d P) (hv : v.Perm d) : Lists v P :=
  ⟨hv.nodup_iff.mpr h.nodup, fun x => hv.mem_iff.trans (h.mem x)⟩

section
variable [BEq α] [LawfulBEq α]

theorem Lists.insert (h : Lists d P) (m : α) : Lists (d.insert m) fun x => P x ∨ x = m := by
  refine ⟨h.nodup.insert, fun x => ?_⟩
  rw [mem_insert_iff, h.mem, or_comm]

theorem Lists.erase (h : Lists d P) (m : α) : Lists (d.erase m) fun x => P x ∧ x ≠ m := by
  refine ⟨h.nodup.erase m, fun x => ?_⟩
  rw [h.nodup.mem_erase_iff, h.mem, and_comm]

theorem Lists.insertAll (h : Lists d P) (ms : List α) :
    Lists (ms.foldl (fun d m => d.insert m) d) fun x => P x ∨ x ∈ ms := by
  induction ms generalizing d P with
  | nil => exact h.congr (by simp)
  | cons m ms ih => exact (ih (h.insert m)).congr fun x => by rw [or_assoc, mem_cons]

theorem Lists.eraseAll (h : Lists d P) (ms : List α) :
    Lists (ms.foldl (fun d m => d.erase m) d) fun x => P x ∧ x ∉ ms := by
  induction ms generalizing d P with
  | nil => exact h.congr (by simp)
  | cons m ms ih =>
    exact (ih (h.erase m)).congr fun x => by rw [and_assoc, mem_cons, not_or]

end

theorem Lists.toFinset_eq [DecidableEq α] (h : Lists v P) (hd : Lists d Q) (hPQ : ∀ x, P x ↔ Q x) :
    v.toFinset = d.toFinset := by
  ext x
  rw [mem_toFinset, mem_toFinset, h.mem, hd.mem, hPQ]

theorem Lists.length_eq [DecidableEq α] (h : Lists v P) {S : Finset α} (hS : ∀ x, P x ↔ x ∈ S) :
    v.length = S.card := by
  rw [← toFinset_card_of_nodup h.nodup]
  congr 1
  ext x
  rw [mem_toFinset, h.mem, hS]

end

section
variable {db : DB} {env : Env} {s : Store} {st : State} {key m : Bytes} {u t : Txn}

theorem sEncodeSetKey_front (member : Bytes) :
    db.sEncodeSetKey key member = front db .SET key ++ member :=
  (front_append db .SET key member).symm

theorem sMembersLoop_run (hk : key.length ≤ DB.MaxUint16) (es : List (Bytes × Bytes)) :
    db.sMembersLoop (es.map fun e => (front db .SET key ++ e.1, e.2)) env s u =
      (.ok (es.map Prod.fst), u) := by
  induction es with
  | nil => rfl
  | cons e es ih =>
    have hd : db.sDecodeSetKey (front db .SET key ++ e.1) = .ok (key, e.1) := by
      rw [front_append]
      exact db.decodeMemberKey_itemKey SetType _ e.1 hk
    simp [DB.sMembersLoop, hd, ih]

theorem SMembers_eval (hk : ValidKey key) : (db.SMembers key).eval env s =
    .ok ((s.under (front db .SET key)).map Prod.fst) := by
  have hscan := scan_front db s .SET key
  simp only [DB.SMembers, checkKeySize_ok.mpr hk]
  change (db.sMembersLoop (s.rangeLimit ⟨some (front db .SET key),
    some (DB.setLast (front db .SET key) 59), RangeROpen⟩ ⟨0, -1⟩ .forward) env s _).1 = _
  rw [hscan, sMembersLoop_run (DB.ValidKey.le_uint16 hk)]

theorem SMembers_run (hk : ValidKey key) (env : Env) (u : Txn) : db.SMembers key env s u =
    (.ok ((s.under (front db .SET key)).map Prod.fst), u) := by
  rw [SMembers_reads key u, SMembers_eval hk]

theorem mem_smembers :
    m ∈ (s.under (front db .SET key)).map Prod.fst ↔ m ∈ members db s .SET key := by
  rw [members, OrderedMap.suffixes, mem_toFinset]

theorem SMembers_ok {ms : List Bytes} (h : db.SMembers key env s u = (.ok ms, t)) :
    ∀ m, m ∈ ms ↔ m ∈ members db s .SET key := by
  obtain ⟨_, _, hc, -⟩ := bind_ok.mp h
  rw [SMembers_run (checkKeySize_ok.mp (lift_ok.mp hc).1)] at h
  cases h
  exact fun m => mem_smembers

section
variable {d v ms l : List Bytes} {P : Bytes → Prop} {keys : List Bytes}

theorem mapOrder_ok (hd : Lists d P) (h : Op.mapOrder d env s u = (.ok v, t)) : Lists v P := by
  cases h
  exact hd.perm (env.mapOrder_perm d)

theorem sUnionLoop_ok (hd : Lists d P) (h : db.sUnionLoop d keys env s u = (.ok v, t)) :
    Lists v fun m => P m ∨ ∃ k ∈ keys, m ∈ members db s .SET k := by
  induction keys generalizing d u P with
  | nil =>
    cases h
    exact hd.congr (by simp)
  | cons k ks ih =>
    obtain ⟨_, _, -, h1⟩ := bind_ok.mp h
    obtain ⟨ms, _, hms, h2⟩ := bind_ok.mp h1
    refine (ih (hd.insertAll ms) h2).congr fun m => ?_
    rw [SMembers_ok hms]
    simp [or_assoc]

theorem sDiffLoop_ok (hd : Lists d P) (h : db.sDiffLoop d keys env s u = (.ok v, t)) :
    Lists v fun m => P m ∧ ∀ k ∈ keys, m ∉ members db s .SET k := by
  induction keys generalizing d u P with
  | nil => exact (mapOrder_ok hd h).congr (by simp)
  | cons k ks ih =>
    obtain ⟨ms, _, hms, h1⟩ := bind_ok.mp h
    have hleft := (hd.eraseAll ms).congr fun m => by rw [SMembers_ok hms]
    split_ifs at h1 with hnil
    · cases h1
      rw [length_eq_zero_iff.mp hnil] at hleft
      refine .nil fun m hm => not_mem_nil ((hleft.mem m).mpr ⟨hm.1, ?_⟩)
      exact hm.2 k (.head _)
    · exact (ih hleft h1).congr fun m => by simp [and_assoc]

theorem sInterSelect_ok (hl : Lists l P) (h : DB.sInterSelect d l ms env s u = (.ok v, t)) :
    Lists v fun m => P m ∨ m ∈ d ∧ m ∈ ms := by
  induction ms generalizing l u P with
  | nil =>
    cases h
    exact hl.congr (by simp)
  | cons m ms ih =>
    obtain ⟨_, _, -, h1⟩ := bind_ok.mp h
    have hstep : Lists (if m ∈ d then l.insert m else l) fun x => P x ∨ x ∈ d ∧ x = m := by
      split_ifs with hm
      · exact (hl.insert m).congr fun x => or_congr_right (by simp +contextual [hm])
      · refine hl.congr fun x => ⟨.inl, fun h => h.elim id ?_⟩
        rintro ⟨hx, rfl⟩
        exact absurd hx hm
    refine (ih hstep h1).congr fun x => ?_
    rw [mem_cons, and_or_left, or_assoc]

theorem sInterLoop_ok (hd : Lists d P) (h : db.sInterLoop d keys env s u = (.ok v, t)) :
    Lists v fun m => P m ∧ ∀ k ∈ keys, m ∈ members db s .SET k := by
  induction keys generalizing d u P with
  | nil => exact (mapOrder_ok hd h).congr (by simp)
  | cons k ks ih =>
    obtain ⟨_, _, -, h1⟩ := bind_ok.mp h
    obtain ⟨ms, _, hms, h2⟩ := bind_ok.mp h1
    split_ifs at h2 with hnil
    · cases h2
      refine .nil fun m hm => ?_
      have hin := (SMembers_ok hms m).mpr (hm.2 k (.head _))
      rw [length_eq_zero_iff.mp hnil] at hin
      exact not_mem_nil hin
    · obtain ⟨d', _, hsel, h3⟩ := bind_ok.mp h2
      have hboth := (sInterSelect_ok (.nil fun _ => not_false) hsel).congr fun m => by
          rw [false_or, hd.mem, SMembers_ok hms]
      split_ifs at h3 with hnil'
      · cases h3
        rw [length_eq_zero_iff.mp hnil'] at hboth
        refine .nil fun m hm => not_mem_nil ((hboth.mem m).mpr ⟨hm.1, ?_⟩)
        exact hm.2 k (.head _)
      · exact (ih hboth h3).congr fun m => by simp [and_assoc]

theorem sGeneric_ok {optType : SetOpt} (h : db.sGeneric optType keys env s u = (.ok v, t)) :
    Lists v (optType.Selects (members db s .SET) keys) := by
  have hfirst : ∀ {ms : List Bytes} {k u t}, db.SMembers k env s u = (.ok ms, t) →
      Lists (ms.foldl (fun d m => d.insert m) []) fun m => m ∈ members db s .SET k :=
    fun hms => ((Lists.nil fun _ => not_false).insertAll _).congr fun m => by
      rw [false_or, SMembers_ok hms]
  cases optType with
  | UnionType =>
    obtain ⟨d, _, hd, h1⟩ := bind_ok.mp h
    refine mapOrder_ok ((sUnionLoop_ok (.nil fun _ => not_false) hd).congr fun m => ?_) h1
    rw [SetOpt.Selects, false_or]
  | DiffType =>
    cases keys with
    | nil => cases h
    | cons k ks =>
      obtain ⟨ms, _, hms, h1⟩ := bind_ok.mp h
      exact sDiffLoop_ok (hfirst hms) h1
  | InterType =>
    cases keys with
    | nil => cases h
    | cons k ks =>
      obtain ⟨ms, _, hms, h1⟩ := bind_ok.mp h
      refine (sInterLoop_ok (hfirst hms) h1).congr fun m => ?_
      rw [SetOpt.Selects, forall_mem_cons]

theorem sUnionLoop_run (db : DB) (s : Store) (hk : ∀ k ∈ keys, ValidKey k) (env : Env) (u : Txn)
    (d : List Bytes) : ∃ v, db.sUnionLoop d keys env s u = (.ok v, u) := by
  induction keys generalizing d with
  | nil => exact ⟨d, rfl⟩
  | cons k ks ih =>
    obtain ⟨hfirst, hrest⟩ := forall_mem_cons.mp hk
    simp only [DB.sUnionLoop, bind_run, checkKeySize_ok.mpr hfirst, SMembers_run hfirst]
    exact ih hrest _

theorem sDiffLoop_run (hk : ∀ k ∈ keys, ValidKey k) (d : List Bytes) :
    ∃ v, db.sDiffLoop d keys env s u = (.ok v, u) := by
  induction keys generalizing d with
  | nil => exact ⟨_, rfl⟩
  | cons k ks ih =>
    obtain ⟨hfirst, hrest⟩ := forall_mem_cons.mp hk
    simp only [DB.sDiffLoop, bind_run, SMembers_run hfirst]
    split_ifs
    · exact ⟨[], rfl⟩
    · exact ih hrest _

theorem sInterSelect_run (hms : ∀ m ∈ ms, ValidKey m) (env : Env) (s : Store) (u : Txn)
    (d l : List Bytes) : ∃ v, DB.sInterSelect d l ms env s u = (.ok v, u) := by
  induction ms generalizing l with
  | nil => exact ⟨l, rfl⟩
  | cons m ms ih =>
    obtain ⟨hfirst, hrest⟩ := forall_mem_cons.mp hms
    simp only [DB.sInterSelect, checkKeySize_ok.mpr hfirst]
    exact ih hrest _

theorem sInterLoop_run (hs : StoreWf s) (hk : ∀ k ∈ keys, ValidKey k) (env : Env) (u : Txn)
    (d : List Bytes) : ∃ v, db.sInterLoop d keys env s u = (.ok v, u) := by
  induction keys generalizing d with
  | nil => exact ⟨_, rfl⟩
  | cons k ks ih =>
    obtain ⟨hfirst, hrest⟩ := forall_mem_cons.mp hk
    have hvalid : ∀ m ∈ (s.under (front db .SET k)).map Prod.fst, ValidKey m := by
      intro m hm
      obtain ⟨e, he, rfl⟩ := mem_map.mp hm
      exact hs.member_valid (.inr (.inl rfl)) he
    obtain ⟨d', hd'⟩ := sInterSelect_run hvalid env s u d []
    simp only [DB.sInterLoop, bind_run, lift_run, checkKeySize_ok.mpr hfirst, SMembers_run hfirst]
    split_ifs
    · exact ⟨[], rfl⟩
    · simp only [bind_run, hd']
      split_ifs
      · exact ⟨[], rfl⟩
      · exact ih hrest _

theorem sGeneric_run (hs : StoreWf s) (optType : SetOpt) (hne : keys ≠ [])
    (hk : ∀ k ∈ keys, ValidKey k) : ∃ v, db.sGeneric optType keys env s u = (.ok v, u) := by
  obtain ⟨k, ks, rfl⟩ := exists_cons_of_ne_nil hne
  obtain ⟨hfirst, hrest⟩ := forall_mem_cons.mp hk
  cases optType with
  | UnionType =>
    obtain ⟨v, hv⟩ := sUnionLoop_run db s hk env u []
    simp [DB.sGeneric, DB.sUnionGeneric, hv]
  | DiffType =>
    simp only [DB.sGeneric, DB.sDiffGeneric, bind_run, SMembers_run hfirst]
    exact sDiffLoop_run hrest _
  | InterType =>
    simp only [DB.sGeneric, DB.sInterGeneric, bind_run, SMembers_run hfirst]
    exact sInterLoop_run hs hrest env u _

theorem sGeneric_lists (db : DB) (hs : StoreWf s) (optType : SetOpt) (hne : keys ≠ [])
    (hk : ∀ k ∈ keys, ValidKey k) (env : Env) :
    ∃ v, (db.sGeneric optType keys).eval env s = .ok v ∧
      Lists v (optType.Selects (members db s .SET) keys) := by
  obtain ⟨v, hv⟩ := sGeneric_run hs optType hne hk
  exact ⟨v, by rw [eval, hv], sGeneric_ok hv⟩

theorem sGeneric_eval_ok (optType : SetOpt) (h : (db.sGeneric optType keys).eval env s = .ok v) :
    Lists v (optType.Selects (members db s .SET) keys) := by
  have hreads : (db.sGeneric optType keys).Reads env s := sGeneric_reads optType keys
  have hrun := hreads ⟨[], 0⟩
  rw [h] at hrun
  exact sGeneric_ok hrun

end

theorem card_union_split (A B : Finset Bytes) :
    (A ∪ B).card = (A ∩ B).card + (A \ B).card + (B \ A).card := by
  have hunion := Finset.card_union_add_card_inter A B
  have hA := Finset.card_sdiff_add_card_inter A B
  have hB := Finset.card_sdiff_add_card_inter B A
  rw [Finset.inter_comm] at hB
  omega

/-- The three operations on any valid keys, and what follows for keys that are listed in
another order or more than once. -/
theorem set_algebra (db : DB) (hs : StoreWf s) :
    (∀ env k ks, ValidKey k → (∀ k' ∈ ks, ValidKey k') →
      (∃ v, (db.SUnion (k :: ks)).eval env s = .ok v ∧
        Lists v fun m => ∃ k' ∈ k :: ks, m ∈ members db s .SET k') ∧
      (∃ v, (db.SInter (k :: ks)).eval env s = .ok v ∧
        Lists v fun m => ∀ k' ∈ k :: ks, m ∈ members db s .SET k') ∧
      ∃ v, (db.SDiff (k :: ks)).eval env s = .ok v ∧
        Lists v fun m => m ∈ members db s .SET k ∧ ∀ k' ∈ ks, m ∉ members db s .SET k') ∧
    (∀ env env' keys keys' v v', (∀ k, k ∈ keys ↔ k ∈ keys') →
      (db.SUnion keys).eval env s = .ok v → (db.SUnion keys').eval env' s = .ok v' →
      v.toFinset = v'.toFinset) ∧
    (∀ env env' keys keys' v v', (∀ k, k ∈ keys ↔ k ∈ keys') →
      (db.SInter keys).eval env s = .ok v → (db.SInter keys').eval env' s = .ok v' →
      v.toFinset = v'.toFinset) ∧
    (∀ env env' k ks ks' v v', ks.Perm ks' →
      (db.SDiff (k :: ks)).eval env s = .ok v → (db.SDiff (k :: ks')).eval env' s = .ok v' →
      v.toFinset = v'.toFinset) ∧
    ∀ env a b, ValidKey a → ValidKey b → ∃ union inter left right,
      (db.SUnion [a, b]).eval env s = .ok union ∧ (db.SInter [a, b]).eval env s = .ok inter ∧
      (db.SDiff [a, b]).eval env s = .ok left ∧ (db.SDiff [b, a]).eval env s = .ok right ∧
      union.length = inter.length + left.length + right.length := by
  refine ⟨fun env k ks hk hks => ?_, fun env env' keys keys' v v' hkeys hv hv' => ?_,
    fun env env' keys keys' v v' hkeys hv hv' => ?_,
    fun env env' k ks ks' v v' hperm hv hv' => ?_, fun env a b ha hb => ?_⟩
  · have hvalid := List.forall_mem_cons.mpr ⟨hk, hks⟩
    have hlists := fun optType => sGeneric_lists db hs optType (List.cons_ne_nil k ks) hvalid env
    exact ⟨hlists .UnionType, hlists .InterType, hlists .DiffType⟩
  · refine (sGeneric_eval_ok .UnionType hv).toFinset_eq
      (sGeneric_eval_ok .UnionType hv') fun m => ?_
    simp [SetOpt.Selects, hkeys]
  · refine (sGeneric_eval_ok .InterType hv).toFinset_eq
      (sGeneric_eval_ok .InterType hv') fun m => ?_
    simp [SetOpt.Selects, hkeys]
  · refine (sGeneric_eval_ok .DiffType hv).toFinset_eq (sGeneric_eval_ok .DiffType hv') fun m => ?_
    simp [SetOpt.Selects, hperm.mem_iff]
  · have hlists := fun optType k k' hk hk' => sGeneric_lists db hs optType
      (List.cons_ne_nil k [k']) (List.forall_mem_cons.mpr ⟨hk, List.forall_mem_singleton.mpr hk'⟩)
      env
    obtain ⟨u, hu, hU⟩ := hlists .UnionType a b ha hb
    obtain ⟨i, hi, hI⟩ := hlists .InterType a b ha hb
    obtain ⟨l, hl, hL⟩ := hlists .DiffType a b ha hb
    obtain ⟨r, hr, hR⟩ := hlists .DiffType b a hb ha
    refine ⟨u, i, l, r, hu, hi, hl, hr, ?_⟩
    rw [hU.length_eq (S := members db s .SET a ∪ members db s .SET b) (by simp [SetOpt.Selects]),
      hI.length_eq (S := members db s .SET a ∩ members db s .SET b) (by simp [SetOpt.Selects]),
      hL.length_eq (S := members db s .SET a \ members db s .SET b) (by simp [SetOpt.Selects]),
      hR.length_eq (S := members db s .SET b \ members db s .SET a) (by simp [SetOpt.Selects])]
    exact card_union_split _ _

def twoSets : Store :=
  (run DB.zero [(Env.quiet 0, .write (.SAdd [97] [[1], [2]])),
    (Env.quiet 0, .write (.SAdd [98] [[2], [3]]))] State.empty).store

theorem twoSets_wf : StoreWf twoSets := run_wf DB.zero _

theorem set_algebra_of_two :
    (∃ v, (DB.zero.SInter [[97], [98], [97]]).eval (Env.quiet 0) twoSets = .ok v ∧
      Lists v fun m => ∀ k ∈ [[97], [98], [97]], m ∈ members DB.zero twoSets .SET k) ∧
    ∃ union inter left right,
      (DB.zero.SUnion [[97], [98]]).eval (Env.quiet 0) twoSets = .ok union ∧
      (DB.zero.SInter [[97], [98]]).eval (Env.quiet 0) twoSets = .ok inter ∧
      (DB.zero.SDiff [[97], [98]]).eval (Env.quiet 0) twoSets = .ok left ∧
      (DB.zero.SDiff [[98], [97]]).eval (Env.quiet 0) twoSets = .ok right ∧
      union.length = inter.length + left.length + right.length := by
  obtain ⟨hlists, -, -, -, hcard⟩ := set_algebra DB.zero twoSets_wf
  refine ⟨(hlists (Env.quiet 0) [97] [[98], [97]] (by decide) (by decide)).2.1, ?_⟩
  exact hcard (Env.quiet 0) [97] [98] (by decide) (by decide)

end

end LedisDB
