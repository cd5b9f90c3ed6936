import LedisDB.Counting

/-!
# The size of a hash

The size entry of a hash counts its field entries in every run whose `HMset` and
`HDel` calls do not list a field twice that they count. `HMset` counts the
listed fields that the store lacks, `HDel` those that it has, so a repeated
field is counted once for every time it is listed.
-/

namespace LedisDB

section
variable {db : DB} {env : Env} {s : Store} {st : State} {key field : Bytes} {u t : Txn}
  {r : Ret Int64}

theorem hEncodeHashKey_front (field : Bytes) :
    db.hEncodeHashKey key field = front db .HASH key ++ field :=
  (front_append db .HASH key field).symm

theorem hDelete_deleter : Deleter s (Clears db s .HASH) db.hDelete := by
  intro key env u _
  obtain ⟨n, hn⟩ := deleteMembers_run db env s .HASH key u
  exact ⟨n, _, hn, clearBatch_clears⟩

section
variable (hC : Counted db s .HASH key) (hf : AddsOnce (members db s .HASH key) [field])
  {value : Bytes}
include hC hf

theorem hSetItem_counted {n : Int64} (h : db.hSetItem key field value env s u = (.ok n, t)) :
    ∃ b, t.batch = u.batch ++ b ∧ Counted db (s.applyBatch b) .HASH key := by
  have hin : field ∈ members db s .HASH key ↔ _ := mem_members
  simp only [DB.hSetItem, Op.bind_run, Op.get_run, hEncodeHashKey_front] at h
  by_cases hsome : (s.get (front db .HASH key ++ field)).isSome
  · rw [if_pos hsome] at h
    cases h
    exact ⟨_, rfl, hC.overwrite (by decide) (hin.mpr hsome) value⟩
  · rw [if_neg hsome] at h
    obtain ⟨_, _, hn, h1⟩ := Op.bind_ok.mp h
    obtain rfl := incrSize_ok hC.decode hn
    cases h1
    exact ⟨_, List.append_assoc _ _ _, counted_insert (by decide) (hin.not.mpr hsome) hf value⟩

theorem HSet_counted (h : db.HSet key field value env s u = (.ok r, t)) :
    ∃ b, t.batch = u.batch ++ b ∧ Counted db (s.applyBatch b) .HASH key := by
  obtain ⟨_, _, hc, h1⟩ := Op.bind_ok.mp h
  obtain ⟨-, rfl⟩ := Op.lift_ok.mp hc
  obtain ⟨_, _, hv, h2⟩ := Op.bind_ok.mp h1
  obtain ⟨-, rfl⟩ := Op.lift_ok.mp hv
  obtain ⟨n, _, hn, h3⟩ := Op.bind_ok.mp h2
  cases h3
  exact hSetItem_counted hC hf hn

theorem HIncrBy_counted {delta : Int64} (h : db.HIncrBy key field delta env s u = (.ok r, t)) :
    ∃ b, t.batch = u.batch ++ b ∧ Counted db (s.applyBatch b) .HASH key := by
  obtain ⟨_, _, hc, h1⟩ := Op.bind_ok.mp h
  obtain ⟨-, rfl⟩ := Op.lift_ok.mp hc
  obtain ⟨_, _, hg, h2⟩ := Op.bind_ok.mp h1
  cases hg
  obtain ⟨_, _, hi, h3⟩ := Op.bind_ok.mp h2
  obtain ⟨-, rfl⟩ := Op.lift_ok.mp hi
  obtain ⟨n, _, hn, h4⟩ := Op.bind_ok.mp h3
  cases h4
  exact hSetItem_counted hC hf hn

end

theorem HMset_counted (hC : Counted db s .HASH key) {args : List FVPair}
    (hargs : (∀ a ∈ args, checkHashKFSize key a.Field = .ok () ∧
      checkValueSize a.Value = .ok ()) → AddsOnce (members db s .HASH key) (args.map FVPair.Field))
    {r : Ret Unit} (h : db.HMset key args env s u = (.ok r, t)) :
    ∃ b, t.batch = u.batch ++ b ∧ Counted db (s.applyBatch b) .HASH key := by
  refine hC.addLoop (by decide) (hEncodeHashKey_front) (fun hcheck => ?_) h
  rw [List.map_map]
  exact hargs fun a ha => except_bind_ok (hcheck _ (List.mem_map_of_mem ha))

theorem HDel_counted (hC : Counted db s .HASH key) {args : List Bytes}
    (hargs : (∀ f ∈ args, checkHashKFSize key f = .ok ()) →
      RemovesOnce (members db s .HASH key) args) (h : db.HDel key args env s u = (.ok r, t)) :
    ∃ b, t.batch = u.batch ++ b ∧ Counted db (s.applyBatch b) .HASH key :=
  hC.remLoop (by decide) (hEncodeHashKey_front) hargs h

def Write.HashCounts (db : DB) (s : Store) : Write → Prop
  | .HSet key field _ | .HIncrBy key field _ => AddsOnce (members db s .HASH key) [field]
  | .HMset key args => (∀ a ∈ args, checkHashKFSize key a.Field = .ok () ∧
      checkValueSize a.Value = .ok ()) → AddsOnce (members db s .HASH key) (args.map FVPair.Field)
  | .HDel key args => (∀ f ∈ args, checkHashKFSize key f = .ok ()) →
      RemovesOnce (members db s .HASH key) args
  | _ => True

def Call.HashCounts (db : DB) (env : Env) (st : State) : Call → Prop
  | .write w => w.Idle db env st ∨ w.HashCounts db st.store
  | .check => True

theorem hash_write_counted (w : Write) (hT : w.type = .HASH) (hkey : key ∈ w.keys)
    (hC : Counted db st.store .HASH key) (hw : w.HashCounts db st.store) :
    Counted db (exec env (w.body db) st).2.store .HASH key := by
  have hlocal : KeyLocal db .HASH fun s k => Counted db s .HASH k := keyLocal_counted (by simp)
  -- where the call has one key, it is `key`
  cases w <;> (try cases hT) <;> try cases List.mem_singleton.mp hkey
  case HSet => exact counted_of_batch hC fun r t h => HSet_counted hC hw h
  case HMset => exact counted_of_batch hC fun r t h => HMset_counted hC hw h
  case HDel => exact counted_of_batch hC fun r t h => HDel_counted hC hw h
  case HIncrBy => exact counted_of_batch hC fun r t h => HIncrBy_counted hC hw h
  case HClear =>
    refine counted_of_batch hC fun r t h => ?_
    obtain ⟨b, hb, hclear⟩ := clear_ok clearing_clears hDelete_deleter h
    exact ⟨b, hb, hclear.counted⟩
  case HMclear =>
    refine counted_of_batch hC fun r t h => ?_
    obtain ⟨b, hb, hclear⟩ := mclear_ok clearing_clears hDelete_deleter h
    exact ⟨b, hb, (hclear key hkey).counted⟩
  case HExpire =>
    exact hlocal.expireOnly (.expireDuration (expireSized_expireOnly (readSize_reads _ _) _)) hC
  case HExpireAt =>
    exact hlocal.expireOnly (.expireDeadline (expireSized_expireOnly (readSize_reads _ _) _)) hC
  case HPersist => exact hlocal.expireOnly (.persist rmExpire_expireOnly) hC

theorem hash_step_counted (hs : StoreWf st.store)
    (h : EveryKey (fun s k => Counted db s .HASH k) st.store) (c : Call)
    (hc : c.HashCounts db env st) :
    EveryKey (fun s k => Counted db s .HASH k) (c.step db env st).2.1.store := by
  refine step_keyLocal (keyLocal_counted (by simp)) hs h c ?_ ?_
  · rintro w rfl hT k hkey hk
    rcases hc with hidle | hw
    · exact hidle ▸ h k hk
    · exact hash_write_counted w hT hkey (h k hk) hw
  · intro st' k w _ hI hk
    exact expiry_clears (P := fun s => Counted db s .HASH k) clearing_clears hDelete_deleter
      (fun b hb => hb.counted) hk w (hI k hk)

theorem hGetAllLoop_run (hk : key.length ≤ DB.MaxUint16) (es : List (Bytes × Bytes)) :
    db.hGetAllLoop (es.map fun e => (front db .HASH key ++ e.1, e.2)) env s u =
      (.ok (es.map fun e => ⟨e.1, e.2⟩), u) := by
  induction es with
  | nil => rfl
  | cons e es ih =>
    have hd : db.hDecodeHashKey (front db .HASH key ++ e.1) = .ok (key, e.1) := by
      rw [front_append]
      exact db.decodeMemberKey_itemKey HashType _ e.1 hk
    simp [DB.hGetAllLoop, hd, ih]

theorem HGetAll_eval (hk : ValidKey key) : (db.HGetAll key).eval env s =
    .ok ((s.under (front db .HASH key)).map fun e => ⟨e.1, e.2⟩) := by
  have hscan := scan_front db s .HASH key
  simp only [DB.HGetAll, checkKeySize_ok.mpr hk]
  change (db.hGetAllLoop (s.rangeLimit ⟨some (front db .HASH key),
    some (DB.setLast (front db .HASH key) 59), RangeROpen⟩ ⟨0, -1⟩ .forward) env s _).1 = _
  rw [hscan, hGetAllLoop_run (DB.ValidKey.le_uint16 hk)]

/-- In every run whose calls count a field once, the size entry of a hash is the number
of its field entries and absent when there are none, and the readers agree on it. -/
theorem hash_size_counts_fields (db : DB) (cs : List (Env × Call))
    (hcs : AllSteps db (fun env st c => c.HashCounts db env st) cs State.empty) (key : Bytes)
    (hk : ValidKey key) (env : Env) :
    ∃ fields : Finset Bytes,
      (∀ f, f ∈ fields ↔ ((run db cs State.empty).store.get (db.hEncodeHashKey key f)).isSome) ∧
      fields.card < 2 ^ 63 ∧
      (run db cs State.empty).store.get (db.hEncodeSizeKey key) =
        (if fields.card = 0 then none else some (PutInt64 (Int64.ofNat fields.card))) ∧
      ∃ all, (db.HGetAll key).eval env (run db cs State.empty).store = .ok all ∧
        all.length = fields.card ∧
        (db.HLen key).eval env (run db cs State.empty).store = .ok (Int64.ofNat all.length) ∧
        (db.HKeyExists key).eval env (run db cs State.empty).store =
          .ok (if all = [] then 0 else 1) := by
  have hC := run_keyLocal (fun k _ => Counted.empty db .HASH k)
      (fun _ _ c hs h hc => hash_step_counted hs h c hc) hcs key hk.2
  generalize (run db cs State.empty).store = s at hC
  have hlen : (s.under (front db .HASH key)).length = (members db s .HASH key).card :=
    (s.card_suffixes _).symm
  refine ⟨members db s .HASH key, fun f => ?_, hC.card_lt, hC.size, _, HGetAll_eval hk, ?_, ?_, ?_⟩
  · rw [mem_members, hEncodeHashKey_front]
  · rw [List.length_map, hlen]
  · rw [List.length_map, hlen]
    exact hC.readSize hk
  · rw [show db.HKeyExists key = DB.keyExists (sizeKey db .HASH key) key from rfl,
      hC.keyExists hk, ← hlen]
    simp

theorem hash_size_counts_fields_two : ∃ fields : Finset Bytes, fields.card < 2 ^ 63 ∧
    (run DB.zero [(Env.quiet 0, .write (.HMset [107] [⟨[102], [118]⟩, ⟨[103], [118]⟩])),
      (Env.quiet 0, .write (.HDel [107] [[102], [104]]))] State.empty).store.get
        (DB.zero.hEncodeSizeKey [107]) =
      (if fields.card = 0 then none else some (PutInt64 (Int64.ofNat fields.card))) := by
  obtain ⟨fields, -, hlt, hsize, -⟩ := hash_size_counts_fields DB.zero
    [(Env.quiet 0, .write (.HMset [107] [⟨[102], [118]⟩, ⟨[103], [118]⟩])),
      (Env.quiet 0, .write (.HDel [107] [[102], [104]]))]
    ⟨.inr fun _ => ⟨by decide, by decide⟩, .inr fun _ => .inl (by decide), trivial⟩ [107]
    (by decide) (Env.quiet 0)
  exact ⟨fields, hlt, hsize⟩

theorem hash_size_miscounts :
    (let s := (run DB.zero [(Env.quiet 0, .write (.HMset [107] [⟨[102], [118]⟩, ⟨[102], [119]⟩]))]
        State.empty).store;
      (DB.zero.HLen [107]).eval (Env.quiet 0) s = .ok 2 ∧
      (DB.zero.HGetAll [107]).eval (Env.quiet 0) s = .ok [⟨[102], [119]⟩]) ∧
    (let s := (run DB.zero [(Env.quiet 0, .write (.HMset [107] [⟨[102], [118]⟩, ⟨[103], [119]⟩])),
        (Env.quiet 0, .write (.HDel [107] [[102], [102]]))] State.empty).store;
      s.get (DB.zero.hEncodeSizeKey [107]) = none ∧
      (DB.zero.HKeyExists [107]).eval (Env.quiet 0) s = .ok 0 ∧
      (DB.zero.HGetAll [107]).eval (Env.quiet 0) s = .ok [⟨[103], [119]⟩]) := by
  decide

end

end LedisDB
