import LedisDB.Deadlines
import LedisDB.MultiWrite

/-!
# Removing a slice of a zset

`ZRemRangeByScore` and `ZRemRangeByRank` both run `zRemRange`, whose iterator meets the
slice of the sorted list between two scores, with an offset and a number of elements. What
it meets is what it removes.
-/

namespace LedisDB

/-- What is left of a zset once the elements `R` are removed. The TTL goes with the last
member. -/
structure SliceRemoved (db : DB) (s : Store) (key : Bytes) (R : List ScorePair) (s' : Store) :
    Prop where
  rest : ∀ p, p ∈ zsetList db s' key ↔ p ∈ zsetList db s key ∧ p ∉ R
  wf : ZWf db s' key
  kept : zsetList db s' key ≠ [] → ∀ ek, ExpireEntry db .ZSET key ek → s'.get ek = s.get ek
  gone : zsetList db s' key = [] → s'.get (db.zEncodeSizeKey key) = none ∧
    deadlineOf db s' .ZSET key = none ∧ ∀ w, deadlineOf db s .ZSET key = some (PutInt64 w) →
      s'.get (db.expEncodeTimeKey ZSetType key w) = none

section
variable {db : DB} {env : Env} {s s' : Store} {key ek : Bytes} {st : State} {R : List ScorePair}
  {upd : Update}

theorem zsetList_eq_nil_iff : zsetList db s key = [] ↔ members db s .ZSET key = ∅ := by
  rw [← List.length_eq_zero_iff, zsetList_length, Finset.card_eq_zero]

theorem rmBatch_deadline {T : DataType} {w : Int64}
    (h : deadlineOf db s T key = some (PutInt64 w)) :
    (db.rmBatch s T.code key).map WriteOp.key =
      [db.expEncodeMetaKey T.code key, db.expEncodeTimeKey T.code key w] := by
  rw [deadlineOf] at h
  simp [DB.rmBatch, h]

theorem Updated.expire_kept {T : DataType} (h : Updated db T key s upd s')
    (hne : members db s' T key ≠ ∅) (hek : ExpireEntry db T key ek) : s'.get ek = s.get ek := by
  rw [h.other ek fun hd => hd.not_expire hek]
  exact if_neg fun hno => hne hno.1

theorem Updated.expire_gone {T : DataType} (hs : StoreWf s) (h : Updated db T key s upd s')
    (hnil : members db s' T key = ∅) :
    deadlineOf db s' T key = none ∧ ∀ w, deadlineOf db s T key = some (PutInt64 w) →
      s'.get (db.expEncodeTimeKey T.code key w) = none := by
  have hgone : ∀ {w ek}, deadlineOf db s T key = some (PutInt64 w) → ExpireEntry db T key ek →
      ek ∈ [db.expEncodeMetaKey T.code key, db.expEncodeTimeKey T.code key w] →
      s'.get ek = none := by
    intro w ek hw hek hin
    rw [h.other ek fun hd => hd.not_expire hek, rmBatch_deadline hw]
    exact if_pos ⟨hnil, hin⟩
  constructor
  · cases hd : deadlineOf db s T key with
    | none =>
      have hmeta : s.get (db.expEncodeMetaKey T.code key) = none := hd
      rw [deadlineOf, h.other _ fun hd => hd.not_expire .expMeta, hmeta]
      exact ite_self none
    | some v =>
      obtain ⟨w, rfl⟩ := hs.deadline hd
      exact hgone hd .expMeta (.head _)
  · intro w hw
    exact hgone hw (.time w) (.tail _ (.head _))

theorem Updated.sliceRemoved (hs : StoreWf s) (h : ZWf db s key)
    (hR : ∀ p ∈ R, p ∈ zsetList db s key) (h' : ZWf db s' key)
    (hupd : Updated db .ZSET key s (removeUpdate (R.map ScorePair.Member)) s') :
    SliceRemoved db s key R s' := by
  refine ⟨fun p => ?_, h', fun hne ek hek => ?_, fun hnil => ?_⟩
  · rw [h'.mem_pairs, h.mem_pairs, zEncodeSetKey_front, hupd.member, removeUpdate_apply]
    by_cases hin : p.Member ∈ R.map ScorePair.Member
    · obtain ⟨q, hq, hqp⟩ := List.mem_map.mp hin
      rw [if_pos hin, ← zEncodeSetKey_front, ← h.mem_pairs]
      refine iff_of_false nofun fun hp => hp.2 ?_
      exact List.inj_on_of_nodup_map (zsetList_members db s key) (hR q hq) hp.1 hqp ▸ hq
    · have hp : p ∉ R := fun hp => hin (List.mem_map_of_mem hp)
      simp [hin, hp]
  · exact hupd.expire_kept (fun hno => hne (zsetList_eq_nil_iff.mpr hno)) hek
  · rw [zsetList_eq_nil_iff] at hnil
    refine ⟨?_, hupd.expire_gone hs hnil⟩
    have hsize := h'.counted.size
    rwa [hnil] at hsize

theorem zRemRange_slice (hs : StoreWf s) (h : ZWf db s key) (hk : key.length ≤ MaxKeySize)
    (env : Env) (nc : Int64) {min max : Int64} {offset count : ℤ}
    (hR : (⟨offset, count⟩ : Limit).apply
      ((zsetList db s key).filter (ScorePair.within min max)) = R)
    (hsub : R.Sublist (zsetList db s key)) :
    ∃ b, db.zRemRange key min max offset count env s ⟨[], nc⟩ =
      (.ok (Int64.ofNat R.length), ⟨b, nc⟩) ∧ SliceRemoved db s key R (s.applyBatch b) := by
  have hscan := zIterator_keys hs h.scoreList min max ⟨offset, count⟩ .forward
  rw [Direction.arrange, hR] at hscan
  have hst : ∀ p ∈ R.map fun p => (p.Member, p.Score),
      s.get (db.zEncodeSetKey key p.1) = some (PutInt64 p.2) := by
    intro p hp
    obtain ⟨q, hq, rfl⟩ := List.mem_map.mp hp
    exact h.mem_pairs.mp (hsub.subset hq)
  obtain ⟨b, hb, hrun⟩ := zRemRange_scan h hk env ⟨[], nc⟩ (by rw [hscan, List.map_map]; rfl) hst
  have hfst : (R.map fun p => (p.Member, p.Score)).map Prod.fst = R.map ScorePair.Member := by
    rw [List.map_map]
    rfl
  rw [hfst] at hb hrun
  have hnd : ((R.map ScorePair.Member).filter (· ∈ members db s .ZSET key)).Nodup :=
    ((zsetList_members db s key).sublist (hsub.map _)).filter _
  refine ⟨_, by rw [hrun, List.length_map], ?_⟩
  exact (h.removed hk hb hnd).sliceRemoved hs h hsub.subset (h.remove hk hb (.inl hnd))

theorem ZRemRangeByScore_exec (henv : env.Commits) (hs : StoreWf st.store)
    (h : ZWf db st.store key) (hk : key.length ≤ MaxKeySize) (min max : Int64) :
    ∃ st', exec env (db.ZRemRangeByScore key min max) st =
        (.ok (Int64.ofNat ((zsetList db st.store key).filter (ScorePair.within min max)).length),
          st') ∧
      SliceRemoved db st.store key ((zsetList db st.store key).filter (ScorePair.within min max))
        st'.store := by
  obtain ⟨b, hrun, hremoved⟩ := zRemRange_slice hs h hk env st.nc
    (Limit.apply_all ((zsetList db st.store key).filter (ScorePair.within min max)))
    List.filter_sublist
  refine ⟨_, henv.exec (t := ⟨b, st.nc⟩) ?_, hremoved⟩
  simp [DB.ZRemRangeByScore, hrun]

theorem ZRemRangeByRank_exec (henv : env.Commits) (hs : StoreWf st.store)
    (h : ZWf db st.store key) (hk : ValidKey key) (start stop : Int64) :
    ∃ st', exec env (db.ZRemRangeByRank key start stop) st =
        (.ok (Int64.ofNat (rankSlice (zsetList db st.store key) start.toInt stop.toInt).length),
          st') ∧
      SliceRemoved db st.store key
        (rankSlice (zsetList db st.store key) start.toInt stop.toInt) st'.store := by
  obtain ⟨l, hl, hslice⟩ := zParseLimit_eval h.counted hk env start stop
  have hall := List.filter_eq_self.mpr fun p hp => h.within_all hp
  obtain ⟨b, hrun, hremoved⟩ := zRemRange_slice hs h hk.2 env st.nc
    ((congrArg _ hall).trans (hslice _ (zsetList_length db st.store key)))
    (rankSlice_sublist _ _ _)
  refine ⟨_, henv.exec (t := ⟨b, st.nc⟩) ?_, hremoved⟩
  simp [DB.ZRemRangeByRank, hl, hrun]

theorem slice_toInt (h : ZWf db s key) (hsub : R.Sublist (zsetList db s key)) :
    (Int64.ofNat R.length).toInt = R.length := by
  refine Int64.toInt_ofNat_of_lt (lt_of_le_of_lt hsub.length_le ?_)
  rw [zsetList_length]
  exact h.counted.card_lt

/-- Removing by score removes the elements between the two scores, and removing by rank the
elements between the two ranks. -/
theorem removes_exact_slice (henv : env.Commits) (hs : StoreWf st.store) (h : ZWf db st.store key)
    (hk : ValidKey key) :
    (∀ min max : Int64, ∃ n st', exec env (db.ZRemRangeByScore key min max) st = (.ok n, st') ∧
      n.toInt = ((zsetList db st.store key).filter (ScorePair.within min max)).length ∧
      SliceRemoved db st.store key ((zsetList db st.store key).filter (ScorePair.within min max))
        st'.store) ∧
    ∀ start stop : Int64, ∃ n st', exec env (db.ZRemRangeByRank key start stop) st = (.ok n, st') ∧
      n.toInt = (rankSlice (zsetList db st.store key) start.toInt stop.toInt).length ∧
      SliceRemoved db st.store key
        (rankSlice (zsetList db st.store key) start.toInt stop.toInt) st'.store := by
  constructor
  · intro min max
    obtain ⟨st', hexec, hremoved⟩ := ZRemRangeByScore_exec henv hs h hk.2 min max
    exact ⟨_, st', hexec, slice_toInt h List.filter_sublist, hremoved⟩
  · intro start stop
    obtain ⟨st', hexec, hremoved⟩ := ZRemRangeByRank_exec henv hs h hk start stop
    exact ⟨_, st', hexec, slice_toInt h (rankSlice_sublist _ _ _), hremoved⟩

theorem removes_exact_slice_of_two :
    let L := zsetList DB.zero twoMembers [122];
    (∃ n st', exec (Env.quiet 0) (DB.zero.ZRemRangeByScore [122] 0 9) ⟨twoMembers, State.empty.nc⟩ =
      (.ok n, st') ∧ n.toInt = (L.filter (ScorePair.within 0 9)).length ∧
      SliceRemoved DB.zero twoMembers [122] (L.filter (ScorePair.within 0 9)) st'.store) ∧
    ∃ n st', exec (Env.quiet 0) (DB.zero.ZRemRangeByRank [122] 0 (-1))
      ⟨twoMembers, State.empty.nc⟩ = (.ok n, st') ∧ n.toInt = (rankSlice L 0 (-1)).length ∧
      SliceRemoved DB.zero twoMembers [122] (rankSlice L 0 (-1)) st'.store := by
  have henv : (Env.quiet 0).Commits := ⟨rfl, fun _ _ => rfl⟩
  have h := @removes_exact_slice DB.zero (Env.quiet 0) [122] ⟨twoMembers, State.empty.nc⟩ henv
    twoMembers_reached.wf twoMembers_zwf (by decide)
  exact ⟨h.1 0 9, h.2 0 (-1)⟩

end

end LedisDB
