import LedisDB.Deadlines
import LedisDB.SetInvariant

/-!
# Storing the result of a set operation

A store operation queues the deletion of the destination before it reads the sources, but
the reads see the store as it was, so the destination may be a source. What it does not do
is to remove the TTL of the destination, and it writes the size entry of an empty result.
-/

namespace LedisDB

def SetOpt.store (db : DB) (dstKey : Bytes) (keys : List Bytes) : SetOpt → Op (Ret Int64)
  | .UnionType => db.SUnionStore dstKey keys
  | .DiffType => db.SDiffStore dstKey keys
  | .InterType => db.SInterStore dstKey keys

structure Replaced (db : DB) (s : Store) (optType : SetOpt) (dstKey : Bytes) (keys : List Bytes)
    (n : Int64) (s' : Store) : Prop where
  mem : ∀ m, m ∈ members db s' .SET dstKey ↔ optType.Selects (members db s .SET) keys m
  card : n = Int64.ofNat (members db s' .SET dstKey).card ∧
    ∀ env, (db.SCard dstKey).eval env s' = .ok n
  ttl : deadlineOf db s' .SET dstKey = none
  absent : members db s' .SET dstKey = ∅ → s'.get (db.sEncodeSizeKey dstKey) = none ∧
    ∀ env, (db.SKeyExists dstKey).eval env s' = .ok 0

section
variable {db : DB} {env : Env} {s : Store} {st st' : State} {optType : SetOpt} {key : Bytes}
  {keys : List Bytes} {n : Int64}

theorem SetOpt.store_eq (optType : SetOpt) :
    optType.store db key keys = db.sStoreGeneric key optType keys := by
  cases optType <;> rfl

theorem storeBatch_data (v : List Bytes) :
    ∀ o ∈ storeBatch db s key v, DataEntry db .SET key o.key := by
  have hmember : ∀ x, DataEntry db .SET key (front db .SET key ++ x) := by
    intro x
    rw [← sEncodeSetKey_front]
    exact .smember key x
  intro o ho
  simp only [storeBatch, clearBatch, List.mem_append, List.mem_map, List.mem_singleton] at ho
  rcases ho with (⟨e, -, rfl⟩ | rfl) | ⟨a, -, rfl⟩ | rfl
  · exact hmember e.1
  · exact .ssize key
  · exact hmember a.1
  · exact .ssize key

theorem storeBatch_deadline (v : List Bytes) :
    deadlineOf db (s.applyBatch (storeBatch db s key v)) .SET key = deadlineOf db s .SET key :=
  get_applyBatch_data (storeBatch_data v) (.expMeta : ExpireEntry db .SET key _) s

theorem store_exec (h : exec env (optType.store db key keys) st = (.ok n, st')) : ∃ v,
    ValidKey key ∧ Lists v (optType.Selects (members db st.store .SET) keys) ∧
      n = Int64.ofNat v.length ∧
      st'.store = st.store.applyBatch (storeBatch db st.store key v) := by
  rw [SetOpt.store_eq] at h
  obtain ⟨t, hrun, rfl⟩ := exec_commit_ok (fun r t hr => by
    obtain ⟨v, -, -, hcommit, -⟩ := sStoreGeneric_ok hr
    exact ⟨_, hcommit⟩) h
  obtain ⟨v, hk, heval, hn, hb⟩ := sStoreGeneric_ok hrun
  cases hn
  exact ⟨v, hk, sGeneric_eval_ok optType heval, rfl, by rw [hb, List.nil_append]⟩

/-- A successful store operation replaces the destination exactly when the destination had
no TTL and the result is not empty. -/
theorem store_replaces_iff (h : exec env (optType.store db key keys) st = (.ok n, st')) :
    Replaced db st.store optType key keys n st'.store ↔ deadlineOf db st.store .SET key = none ∧
      ∃ m, optType.Selects (members db st.store .SET) keys m := by
  obtain ⟨v, hk, hv, rfl, hst⟩ := store_exec h
  have hmem : members db st'.store .SET key = v.toFinset := by rw [hst, storeBatch_members]
  have hsize : st'.store.get (db.sEncodeSizeKey key) = some (PutInt64 (Int64.ofNat v.length)) := by
    rw [hst]
    exact storeBatch_size v
  have httl : deadlineOf db st'.store .SET key = deadlineOf db st.store .SET key := by
    rw [hst, storeBatch_deadline]
  constructor
  · intro hrep
    refine ⟨httl ▸ hrep.ttl, ?_⟩
    by_contra hno
    have hnil := List.eq_nil_iff_forall_not_mem.mpr fun m hm => hno ⟨m, (hv.mem m).mp hm⟩
    have hgone := (hrep.absent (by rw [hmem, hnil]; rfl)).1
    rw [hsize] at hgone
    cases hgone
  · rintro ⟨hno, m, hm⟩
    refine ⟨fun x => ?_, ⟨?_, fun env => ?_⟩, httl.trans hno, fun hnil => ?_⟩
    · rw [hmem, List.mem_toFinset, hv.mem]
    · rw [hmem, List.toFinset_card_of_nodup hv.nodup]
    · simp [DB.SCard, DB.readSize, Op.eval, checkKeySize_ok.mpr hk, hsize]
    · have hin : m ∈ members db st'.store .SET key := by
        rw [hmem, List.mem_toFinset, hv.mem]
        exact hm
      rw [hnil] at hin
      cases hin

theorem store_replaces_source : ∃ n st',
    exec (Env.quiet 0) (DB.zero.SUnionStore [97] [[97], [98]]) ⟨twoSets, 0⟩ = (.ok n, st') ∧
      Replaced DB.zero twoSets .UnionType [97] [[97], [98]] n st'.store := by
  have hexec : exec (Env.quiet 0) (SetOpt.UnionType.store DB.zero [97] [[97], [98]])
      ⟨twoSets, 0⟩ = (.ok 3, (exec (Env.quiet 0) (DB.zero.SUnionStore [97] [[97], [98]])
        ⟨twoSets, 0⟩).2) := by
    rfl
  refine ⟨3, _, hexec, (store_replaces_iff hexec).mpr ⟨by decide, [1], [97], by simp, by decide⟩⟩

theorem store_keeps_ttl_and_size :
    let timed := (run DB.zero [(Env.quiet 0, .write (.SAdd [97] [[1]])),
      (Env.quiet 0, .write (.SAdd [98] [[2]])),
      (Env.quiet 0, .write (.SExpire [98] 10))] State.empty);
    let union := exec (Env.quiet 0) (DB.zero.SUnionStore [98] [[97]]) timed;
    let inter := exec (Env.quiet 0) (DB.zero.SInterStore [99] [[97], [98]]) timed;
    union.1 = .ok 1 ∧ members DB.zero union.2.store .SET [98] = {[1]} ∧
    deadlineOf DB.zero union.2.store .SET [98] = some (PutInt64 10) ∧
    inter.1 = .ok 0 ∧ members DB.zero inter.2.store .SET [99] = ∅ ∧
    (DB.zero.SKeyExists [99]).eval (Env.quiet 0) inter.2.store = .ok 1 ∧
    ¬ Replaced DB.zero timed.store .UnionType [98] [[97]] 1 union.2.store ∧
    ¬ Replaced DB.zero timed.store .InterType [99] [[97], [98]] 0 inter.2.store := by
  intro timed union inter
  have hexists : (DB.zero.SKeyExists [99]).eval (Env.quiet 0) inter.2.store = .ok 1 := by decide
  have hnone : members DB.zero inter.2.store .SET [99] = ∅ := by decide
  have httl : deadlineOf DB.zero union.2.store .SET [98] = some (PutInt64 10) := by decide
  refine ⟨by decide, by decide, httl, by decide, hnone, hexists, fun h => ?_, fun h => ?_⟩
  · have hno := h.ttl
    rw [httl] at hno
    cases hno
  · have hno := (h.absent hnone).2 (Env.quiet 0)
    rw [hexists] at hno
    cases hno

end

end LedisDB
