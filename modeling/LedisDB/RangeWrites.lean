import LedisDB.Flush

/-!
# SETRANGE

`SetRange` adds the length of the value to the offset in 64 bits and compares the sum
with `MaxValueSize`. The sum of a negative offset is small and that of an offset near the
end of the range wraps around, so both pass the check, and the slice expression behind it
panics. Every other call overlays the value or is refused.
-/

namespace LedisDB

/-- Commits report errors and do not panic. -/
def Env.Orderly (env : Env) : Prop := ∀ s b, env.commitErr s b ≠ some .panic

def Overlays (db : DB) (key : Bytes) (offset : Int64) (value : Bytes) (st : State) :
    Except Err Int64 × State → Prop
  | (.error e, st') => e ≠ .panic ∧ st'.store = st.store
  | (.ok n, st') =>
    if value = [] then st'.store = st.store
    else
      let new := overlaid ((st.store.get (db.encodeKVKey key)).getD []) offset.toInt.toNat value
      0 ≤ offset.toInt ∧ st'.store.get (db.encodeKVKey key) = some new ∧
        n.toInt = new.length ∧ new.length ≤ MaxValueSize

def ReportsLength (db : DB) (key : Bytes) : Except Err Int64 × State → Prop
  | (.error _, _) => True
  | (.ok n, st') => n.toInt = ((st'.store.get (db.encodeKVKey key)).getD []).length

section
variable {db : DB} {env : Env} {st : State} {s : Store} {key value old : Bytes} {offset : Int64}

theorem Env.Orderly.commit (h : env.Orderly) (s : Store) (b : Batch) :
    commit env s b = .ok (s.applyBatch b) ∨ ∃ e, e ≠ .panic ∧ commit env s b = .error e := by
  unfold LedisDB.commit
  split_ifs
  · exact .inr ⟨_, by decide, rfl⟩
  · cases he : env.commitErr s b with
    | none => exact .inl rfl
    | some e => exact .inr ⟨e, fun hp => h s b (hp ▸ he), rfl⟩

theorem SetRange_badKey (hv : value ≠ []) (hk : ¬ ValidKey key) :
    exec env (db.SetRange key offset value) st = (.error .errKeySize, st) := by
  simp [exec, DB.SetRange, hv, checkKeySize_error hk]

theorem SetRange_tooLong (hv : value ≠ []) (hk : ValidKey key)
    (hend : Int64.ofNat value.length + offset > Int64.ofNat MaxValueSize)
    : exec env (db.SetRange key offset value) st = (.error .errValueSize, st) := by
  simp [exec, DB.SetRange, hv, checkKeySize_ok.mpr hk, hend]

theorem SetRange_exec (hv : value ≠ []) (hk : ValidKey key)
    (hend : ¬ Int64.ofNat value.length + offset > Int64.ofNat MaxValueSize) :
    let old := (st.store.get (db.encodeKVKey key)).getD []
    let ext := DB.extend old (offset + Int64.ofNat value.length - Int64.ofNat old.length)
    let new := DB.overlay ext offset.toInt.toNat value
    exec env (db.SetRange key offset value) st =
      if offset < 0 ∨ offset > Int64.ofNat ext.length then (.error .panic, st)
      else match commit env st.store [.put (db.encodeKVKey key) new] with
        | .error e => (.error e, st)
        | .ok s => (.ok (Int64.ofNat new.length), ⟨s, st.nc⟩) := by
  intro old ext new
  simp only [exec, DB.SetRange, List.length_eq_zero_iff, if_neg hv, Op.bind_run,
    checkKeySize_ok.mpr hk, if_neg hend, Op.get_run]
  by_cases hoff : offset < 0 ∨ offset > Int64.ofNat ext.length
  · rw [if_pos hoff, if_pos hoff]
    rfl
  · rw [if_neg hoff, if_neg hoff]
    rfl

theorem extended_eq_padTo (hL : old.length ≤ MaxValueSize) (h0 : 0 ≤ offset.toInt)
    (hend : value.length + offset.toInt ≤ MaxValueSize) :
    DB.extend old (offset + Int64.ofNat value.length - Int64.ofNat old.length) =
      padTo (offset.toInt.toNat + value.length) old := by
  have hM : MaxValueSize = 2 ^ 30 := rfl
  rw [extend_eq, Int64.toInt_sub, Int64.toInt_add, toInt_ofNat_size hL,
    toInt_ofNat_size (by omega), @Int.bmod_eq_of_le (_ + _) _ (by omega) (by omega),
    Int.bmod_eq_of_le (by omega) (by omega)]
  congr 2
  omega

theorem SetRange_inside (hL : ((st.store.get (db.encodeKVKey key)).getD []).length ≤ MaxValueSize)
    (hv : value ≠ []) (hk : ValidKey key) (h0 : 0 ≤ offset.toInt)
    (hend : value.length + offset.toInt ≤ MaxValueSize) :
    let new := overlaid ((st.store.get (db.encodeKVKey key)).getD []) offset.toInt.toNat value
    exec env (db.SetRange key offset value) st =
      match commit env st.store [.put (db.encodeKVKey key) new] with
      | .error e => (.error e, st)
      | .ok s => (.ok (Int64.ofNat new.length), ⟨s, st.nc⟩) := by
  have hM : MaxValueSize = 2 ^ 30 := rfl
  have hsum : (Int64.ofNat value.length + offset).toInt = value.length + offset.toInt := by
    rw [Int64.toInt_add, toInt_ofNat_size (by omega), Int.bmod_eq_of_le (by omega) (by omega)]
  have hend' : ¬ Int64.ofNat value.length + offset > Int64.ofNat MaxValueSize := by
    rw [gt_iff_lt, Int64.lt_iff_toInt_lt, toInt_ofNat_size le_rfl]
    omega
  rw [SetRange_exec hv hk hend', extended_eq_padTo hL h0 hend, overlay_padTo, if_neg]
  rw [not_or, gt_iff_lt, Int64.lt_iff_toInt_lt, Int64.lt_iff_toInt_lt, padTo_length,
    toInt_ofNat_size (by omega)]
  exact ⟨not_lt.mpr h0, by omega⟩

theorem SetRange_outside
    (h : Overlays db key offset value st (exec (Env.quiet 0) (db.SetRange key offset value) st))
    (hv : value ≠ []) (hk : ValidKey key)
    (hend : ¬ Int64.ofNat value.length + offset > Int64.ofNat MaxValueSize) :
    0 ≤ offset.toInt ∧ value.length + offset.toInt ≤ MaxValueSize := by
  rw [SetRange_exec hv hk hend] at h
  split_ifs at h
  · exact absurd rfl h.1
  · obtain ⟨h0, -, -, hlen⟩ := (if_neg hv).mp h
    rw [overlaid_length] at hlen
    exact ⟨h0, by omega⟩

/-- Where `SetRange` overlays or refuses: its sum is over the bound, or the range lies inside. -/
def RangeFits (key : Bytes) (offset : Int64) (value : Bytes) : Prop :=
  value = [] ∨ ¬ ValidKey key ∨ Int64.ofNat value.length + offset > Int64.ofNat MaxValueSize ∨
    0 ≤ offset.toInt ∧ value.length + offset.toInt ≤ MaxValueSize

theorem SetRange_fits (hL : ((st.store.get (db.encodeKVKey key)).getD []).length ≤ MaxValueSize)
    (h : RangeFits key offset value) (henv : env.Orderly) :
    Overlays db key offset value st (exec env (db.SetRange key offset value) st) ∧
      (value ≠ [] → ReportsLength db key (exec env (db.SetRange key offset value) st)) := by
  by_cases hv : value = []
  · subst hv
    exact ⟨rfl, fun hne => absurd rfl hne⟩
  · rcases h with h | hk | hend | ⟨h0, hend⟩
    · exact absurd h hv
    · rw [SetRange_badKey hv hk]
      exact ⟨⟨by decide, rfl⟩, fun _ => trivial⟩
    · by_cases hk : ValidKey key
      · rw [SetRange_tooLong hv hk hend]
        exact ⟨⟨by decide, rfl⟩, fun _ => trivial⟩
      · rw [SetRange_badKey hv hk]
        exact ⟨⟨by decide, rfl⟩, fun _ => trivial⟩
    · by_cases hk : ValidKey key
      · rw [SetRange_inside hL hv hk h0 hend]
        rcases henv.commit st.store _ with hc | ⟨e, he, hc⟩
        · have hget := OrderedMap.get_applyBatch_put st.store (db.encodeKVKey key)
            (overlaid ((st.store.get (db.encodeKVKey key)).getD []) offset.toInt.toNat value)
          have hlen := overlaid_length ((st.store.get (db.encodeKVKey key)).getD [])
          have hM : max ((st.store.get (db.encodeKVKey key)).getD []).length
              (offset.toInt.toNat + value.length) ≤ MaxValueSize := by omega
          rw [← hlen] at hM
          rw [hc]
          refine ⟨(if_neg hv).mpr ⟨h0, hget, toInt_ofNat_size hM, hM⟩, fun _ => ?_⟩
          show (Int64.ofNat _).toInt = _
          rw [hget, toInt_ofNat_size hM]
          rfl
        · rw [hc]
          exact ⟨⟨he, rfl⟩, fun _ => trivial⟩
      · rw [SetRange_badKey hv hk]
        exact ⟨⟨by decide, rfl⟩, fun _ => trivial⟩

theorem SetRange_overlays_iff (h : Reached st.store) (db : DB) (key : Bytes) (offset : Int64)
    (value : Bytes) :
    ((∀ env : Env, env.Orderly → Overlays db key offset value st
        (exec env (db.SetRange key offset value) st)) ↔ RangeFits key offset value) ∧
    ((∀ env : Env, env.Orderly → Overlays db key offset value st
        (exec env (db.SetRange key offset value) st) ∧
        ReportsLength db key (exec env (db.SetRange key offset value) st)) ↔
      RangeFits key offset value ∧
        (value = [] → (st.store.get (db.encodeKVKey key)).getD [] = [])) := by
  have hL := h.value_length_le db key
  have hquiet : (Env.quiet 0).Orderly := fun _ _ => nofun
  have hfits : (∀ env : Env, env.Orderly → Overlays db key offset value st
      (exec env (db.SetRange key offset value) st)) → RangeFits key offset value := by
    intro hall
    by_contra hno
    unfold RangeFits at hno
    push Not at hno
    obtain ⟨hv, hk, hend, hin⟩ := hno
    obtain ⟨h0, hle⟩ := SetRange_outside (hall _ hquiet) hv hk hend
    exact absurd (hin h0) (not_lt.mpr hle)
  refine ⟨⟨hfits, fun hf env henv => (SetRange_fits hL hf henv).1⟩, fun hall => ?_, ?_⟩
  · refine ⟨hfits fun env henv => (hall env henv).1, ?_⟩
    rintro rfl
    have hlen : (0 : ℤ) = ((st.store.get (db.encodeKVKey key)).getD []).length := (hall _ hquiet).2
    exact List.length_eq_zero_iff.mp (by omega)
  · rintro ⟨hf, hempty⟩ env henv
    refine ⟨(SetRange_fits hL hf henv).1, ?_⟩
    by_cases hv : value = []
    · subst hv
      show 0 = _
      rw [hempty rfl]
      rfl
    · exact (SetRange_fits hL hf henv).2 hv

theorem SetRange_overlays_behind_end :
    Overlays DB.zero [107] 5 [9] (oneString [1, 2, 3])
      (exec (Env.quiet 0) (DB.zero.SetRange [107] 5 [9]) (oneString [1, 2, 3])) := by
  have hfits : RangeFits [107] 5 [9] := .inr (.inr (.inr (by decide)))
  have hall := (SetRange_overlays_iff (oneString_reached [1, 2, 3]) DB.zero [107] 5 [9]).1.mpr hfits
  exact hall (Env.quiet 0) fun _ _ => nofun

theorem SetRange_negative_or_wrapping :
    (exec (Env.quiet 0) (DB.zero.SetRange [107] (-1) [9]) (oneString [1, 2, 3])).1 = .error .panic ∧
    (exec (Env.quiet 0) (DB.zero.SetRange [107] 9223372036854775807 [9]) State.empty).1 =
      .error .panic ∧
    (exec (Env.quiet 0) (DB.zero.SetRange [107] 0 []) (oneString [1, 2, 3])).1 = .ok 0 := by
  decide

end

end LedisDB
