import LedisDB.SetAlgebra

/-!
# The size of a set

The size entry of a set counts its member entries in every run whose `SAdd` and
`SRem` calls do not list a member twice that they count and whose store
operations have a non-empty result: for an empty result a size entry 0 is
written where there should be none.
-/

namespace LedisDB

section
variable {db : DB} {env : Env} {s : Store} {st : State} {key : Bytes} {u t : Txn} {optType : SetOpt}
  {keys ms v : List Bytes} {r : Ret Int64}

theorem sDelete_run : ∃ n,
    db.sDelete key env s u = (.ok n, u.queue (clearBatch db s .SET key)) :=
  deleteMembers_run db env s .SET key u

theorem sDelete_deleter : Deleter s (Clears db s .SET) db.sDelete := by
  intro key env u _
  obtain ⟨n, hn⟩ := sDelete_run
  exact ⟨n, _, hn, clearBatch_clears⟩

theorem sStoreLoop_ok (h : db.sStoreLoop key ms env s u = (.ok (), t)) :
    t = u.queue ((ms.map fun m => (m, [])).map (fun a => .put (front db .SET key ++ a.1) a.2)) := by
  induction ms generalizing u with
  | nil =>
    cases h
    simp
  | cons m ms ih =>
    obtain ⟨_, u, hc, h1⟩ := Op.bind_ok.mp h
    obtain ⟨-, rfl⟩ := Op.lift_ok.mp hc
    obtain ⟨_, _, hp, h2⟩ := Op.bind_ok.mp h1
    cases hp
    rw [ih h2, sEncodeSetKey_front]
    simp

/-- What a store operation queues: the set is cleared, filled with the listed members and
their number written. -/
def storeBatch (db : DB) (s : Store) (key : Bytes) (v : List Bytes) : Batch :=
  clearBatch db s .SET key ++
    ((v.map fun m => (m, [])).map (fun a => .put (front db .SET key ++ a.1) a.2) ++
      [.put (sizeKey db .SET key) (PutInt64 (Int64.ofNat v.length))])

theorem storeBatch_members (v : List Bytes) :
    members db (s.applyBatch (storeBatch db s key v)) .SET key = v.toFinset := by
  rw [storeBatch, applyBatch_append, applyBatch_append, members,
    OrderedMap.suffixes_applyBatch_other, OrderedMap.suffixes_puts]
  · change members db _ .SET key ∪ _ = _
    rw [clearBatch_clears.members_eq]
    simp [Function.comp_def]
  · simp only [List.mem_singleton, forall_eq]
    exact front_not_prefix (by decide) key

theorem storeBatch_size (v : List Bytes) :
    (s.applyBatch (storeBatch db s key v)).get (sizeKey db .SET key) =
      some (PutInt64 (Int64.ofNat v.length)) := by
  rw [storeBatch]
  simp [OrderedMap.applyBatch, get_applyOp]

theorem counted_store (hnd : v.Nodup) (hne : v ≠ []) (hlt : v.length < 2 ^ 63) :
    Counted db (s.applyBatch (storeBatch db s key v)) .SET key := by
  have hcard : (members db (s.applyBatch (storeBatch db s key v)) .SET key).card = v.length := by
    rw [storeBatch_members, List.toFinset_card_of_nodup hnd]
  have hlen : v.length ≠ 0 := by simpa using hne
  constructor
  · rwa [hcard]
  · rw [hcard, if_neg hlen, storeBatch_size]

theorem sStoreGeneric_ok (h : db.sStoreGeneric key optType keys env s u = (.ok r, t)) : ∃ v,
    ValidKey key ∧ (db.sGeneric optType keys).eval env s = .ok v ∧
      r = .commit (Int64.ofNat v.length) ∧ t.batch = u.batch ++ storeBatch db s key v := by
  obtain ⟨_, u, hc, h1⟩ := Op.bind_ok.mp h
  obtain ⟨hk, rfl⟩ := Op.lift_ok.mp hc
  obtain ⟨n, hn⟩ := sDelete_run
  obtain ⟨_, _, hd, h2⟩ := Op.bind_ok.mp h1
  rw [hn] at hd
  cases hd
  obtain ⟨v, _, hv, h3⟩ := Op.bind_ok.mp h2
  obtain ⟨heval, rfl⟩ := (sGeneric_reads optType keys).ok hv
  obtain ⟨_, _, hl, h4⟩ := Op.bind_ok.mp h3
  obtain rfl := sStoreLoop_ok hl
  cases h4
  refine ⟨v, checkKeySize_ok.mp hk, heval, rfl, ?_⟩
  simp only [List.append_assoc]
  rfl

theorem sStoreGeneric_counted
    (hres : ∀ v, (db.sGeneric optType keys).eval env s = .ok v → v ≠ [] ∧ v.length < 2 ^ 63)
    (h : db.sStoreGeneric key optType keys env s u = (.ok r, t)) :
    ∃ b, t.batch = u.batch ++ b ∧ Counted db (s.applyBatch b) .SET key := by
  obtain ⟨v, -, heval, -, hb⟩ := sStoreGeneric_ok h
  obtain ⟨hne, hlt⟩ := hres v heval
  exact ⟨_, hb, counted_store (sGeneric_eval_ok optType heval).nodup hne hlt⟩

/-- What a call counts, it counts once; what a store operation writes is not empty. -/
def Write.SetCounts (db : DB) (env : Env) (s : Store) : Write → Prop
  | .SAdd key args => (∀ m ∈ args, checkSetKMSize key m = .ok ()) →
      AddsOnce (members db s .SET key) args
  | .SRem key args => (∀ m ∈ args, checkSetKMSize key m = .ok ()) →
      RemovesOnce (members db s .SET key) args
  | .SUnionStore _ keys => ∀ v, (db.sGeneric .UnionType keys).eval env s = .ok v →
      v ≠ [] ∧ v.length < 2 ^ 63
  | .SDiffStore _ keys => ∀ v, (db.sGeneric .DiffType keys).eval env s = .ok v →
      v ≠ [] ∧ v.length < 2 ^ 63
  | .SInterStore _ keys => ∀ v, (db.sGeneric .InterType keys).eval env s = .ok v →
      v ≠ [] ∧ v.length < 2 ^ 63
  | _ => True

def Call.SetCounts (db : DB) (env : Env) (st : State) : Call → Prop
  | .write w => w.Idle db env st ∨ w.SetCounts db env st.store
  | .check => True

theorem set_write_counted (w : Write) (hT : w.type = .SET) (hkey : key ∈ w.keys)
    (hC : Counted db st.store .SET key) (hw : w.SetCounts db env st.store) :
    Counted db (exec env (w.body db) st).2.store .SET key := by
  have hlocal : KeyLocal db .SET fun s k => Counted db s .SET k := keyLocal_counted (by simp)
  cases w <;> (try cases hT) <;> try cases List.mem_singleton.mp hkey
  case SAdd =>
    refine counted_of_batch hC fun r t h =>
      hC.addLoop (by decide) (sEncodeSetKey_front) (fun hcheck => ?_) h
    simpa [Function.comp_def] using hw fun m hm => hcheck _ (List.mem_map_of_mem hm)
  case SRem =>
    exact counted_of_batch hC fun r t h =>
      hC.remLoop (by decide) (sEncodeSetKey_front) hw h
  case SUnionStore => exact counted_of_batch hC fun r t h => sStoreGeneric_counted hw h
  case SDiffStore => exact counted_of_batch hC fun r t h => sStoreGeneric_counted hw h
  case SInterStore => exact counted_of_batch hC fun r t h => sStoreGeneric_counted hw h
  case SClear =>
    refine counted_of_batch hC fun r t h => ?_
    obtain ⟨b, hb, hclear⟩ := clear_ok clearing_clears sDelete_deleter h
    exact ⟨b, hb, hclear.counted⟩
  case SMclear =>
    refine counted_of_batch hC fun r t h => ?_
    obtain ⟨b, hb, hclear⟩ := mclear_ok clearing_clears sDelete_deleter h
    exact ⟨b, hb, (hclear key hkey).counted⟩
  case SExpire =>
    exact hlocal.expireOnly (.expireDuration (expireSized_expireOnly (readSize_reads _ _) _)) hC
  case SExpireAt =>
    exact hlocal.expireOnly (.expireDeadline (expireSized_expireOnly (readSize_reads _ _) _)) hC
  case SPersist => exact hlocal.expireOnly (.persist rmExpire_expireOnly) hC

theorem set_step_counted (hs : StoreWf st.store)
    (h : EveryKey (fun s k => Counted db s .SET k) st.store) (c : Call)
    (hc : c.SetCounts db env st) :
    EveryKey (fun s k => Counted db s .SET k) (c.step db env st).2.1.store := by
  refine step_keyLocal (keyLocal_counted (by simp)) hs h c ?_ ?_
  · rintro w rfl hT k hkey hk
    rcases hc with hidle | hw
    · exact hidle ▸ h k hk
    · exact set_write_counted w hT hkey (h k hk) hw
  · intro st' k w _ hI hk
    exact expiry_clears (P := fun s => Counted db s .SET k) clearing_clears sDelete_deleter
      (fun b hb => hb.counted) hk w (hI k hk)

theorem set_size_counts_members (db : DB) (cs : List (Env × Call))
    (hcs : AllSteps db (fun env st c => c.SetCounts db env st) cs State.empty) (key : Bytes)
    (hk : ValidKey key) (env : Env) :
    ∃ ms : Finset Bytes,
      (∀ m, m ∈ ms ↔ ((run db cs State.empty).store.get (db.sEncodeSetKey key m)).isSome) ∧
      ms.card < 2 ^ 63 ∧
      (run db cs State.empty).store.get (db.sEncodeSizeKey key) =
        (if ms.card = 0 then none else some (PutInt64 (Int64.ofNat ms.card))) ∧
      ∃ all, (db.SMembers key).eval env (run db cs State.empty).store = .ok all ∧
        all.length = ms.card ∧
        (db.SCard key).eval env (run db cs State.empty).store = .ok (Int64.ofNat all.length) ∧
        (db.SKeyExists key).eval env (run db cs State.empty).store =
          .ok (if all = [] then 0 else 1) := by
  have hC := run_keyLocal (fun k _ => Counted.empty db .SET k)
      (fun _ _ c hs h hc => set_step_counted hs h c hc) hcs key hk.2
  generalize (run db cs State.empty).store = s at hC
  have hlen : (s.under (front db .SET key)).length = (members db s .SET key).card :=
    (s.card_suffixes _).symm
  refine ⟨members db s .SET key, fun f => ?_, hC.card_lt, hC.size, _, SMembers_eval hk, ?_, ?_, ?_⟩
  · rw [mem_members, sEncodeSetKey_front]
  · rw [List.length_map, hlen]
  · rw [List.length_map, hlen]
    exact hC.readSize hk
  · rw [show db.SKeyExists key = DB.keyExists (sizeKey db .SET key) key from rfl,
      hC.keyExists hk, ← hlen]
    simp

theorem set_size_counts_members_union : ∃ ms : Finset Bytes, ms.card < 2 ^ 63 ∧
    (run DB.zero [(Env.quiet 0, .write (.SAdd [97] [[109], [110]])),
      (Env.quiet 0, .write (.SAdd [98] [[110], [111]])),
      (Env.quiet 0, .write (.SUnionStore [99] [[97], [98]]))] State.empty).store.get
        (DB.zero.sEncodeSizeKey [99]) =
      (if ms.card = 0 then none else some (PutInt64 (Int64.ofNat ms.card))) := by
  obtain ⟨ms, -, hlt, hsize, -⟩ := set_size_counts_members DB.zero
    [(Env.quiet 0, .write (.SAdd [97] [[109], [110]])),
      (Env.quiet 0, .write (.SAdd [98] [[110], [111]])),
      (Env.quiet 0, .write (.SUnionStore [99] [[97], [98]]))]
    ⟨.inr fun _ => ⟨by decide, by decide⟩, .inr fun _ => ⟨by decide, by decide⟩,
      .inr (by rintro _ ⟨⟩; exact ⟨by decide, by decide⟩), trivial⟩ [99] (by decide) (Env.quiet 0)
  exact ⟨ms, hlt, hsize⟩

theorem set_size_miscounts :
    (let s := (run DB.zero [(Env.quiet 0, .write (.SAdd [97] [[109], [109]]))] State.empty).store;
      (DB.zero.SCard [97]).eval (Env.quiet 0) s = .ok 2 ∧
      (DB.zero.SMembers [97]).eval (Env.quiet 0) s = .ok [[109]]) ∧
    (let s := (run DB.zero [(Env.quiet 0, .write (.SAdd [97] [[109], [110]])),
        (Env.quiet 0, .write (.SRem [97] [[109], [109]]))] State.empty).store;
      s.get (DB.zero.sEncodeSizeKey [97]) = none ∧
      (DB.zero.SMembers [97]).eval (Env.quiet 0) s = .ok [[110]]) ∧
    (let s := (run DB.zero [(Env.quiet 0, .write (.SInterStore [99] [[97], [98]]))]
        State.empty).store;
      s.get (DB.zero.sEncodeSizeKey [99]) = some (PutInt64 0) ∧
      (DB.zero.SKeyExists [99]).eval (Env.quiet 0) s = .ok 1 ∧
      (DB.zero.SMembers [99]).eval (Env.quiet 0) s = .ok []) := by
  decide

end

end LedisDB
