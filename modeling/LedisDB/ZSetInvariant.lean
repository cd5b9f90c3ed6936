import LedisDB.ZSetWrites

/-!
# The three views of a zset

The member entries, the score entries and the size entry of every zset describe
one finite map in every run whose calls avoid the inputs on which the source
loses it: `ZAdd` and `ZRem` with a repeated member, `ZIncrBy` by zero,
`ZRemRangeByLex`, which leaves the score entries and the size alone, and store
operations with an empty result.
-/

namespace LedisDB

section
variable {db : DB} {env : Env} {s : Store} {st : State} {key : Bytes}

/-- The inputs on which a zset operation keeps the three views together. -/
def Write.ZSetAgrees (db : DB) (env : Env) (s : Store) : Write → Prop
  | .ZAdd key args => (∀ a ∈ args, checkZSetKMSize key a.Member = .ok () ∧ MinScore < a.Score ∧
        a.Score < MaxScore) →
      AddsOnce (members db s .ZSET key) (args.map ScorePair.Member) ∧ LastScores db s key args
  | .ZRem key ms => (∀ m ∈ ms, checkZSetKMSize key m = .ok ()) →
      RemovesOnce (members db s .ZSET key) ms
  | .ZIncrBy key delta member => (member ∈ members db s .ZSET key → delta ≠ 0) ∧
      AddsOnce (members db s .ZSET key) [member]
  | .ZRemRangeByLex key min max rangeType =>
      s.rangeLimit (db.zLexRange key min max rangeType) ⟨0, -1⟩ .forward = []
  | .ZUnionStore _ srcKeys weights aggregate => ∀ destMap : DB.ScoreMap,
      (zUnionResult db srcKeys weights aggregate).eval env s = .ok destMap →
        destMap.keys ≠ [] ∧ destMap.keys.length < 2 ^ 63
  | .ZInterStore _ srcKeys weights aggregate => ∀ destMap : DB.ScoreMap,
      (zInterResult db srcKeys weights aggregate).eval env s = .ok destMap →
        destMap.keys ≠ [] ∧ destMap.keys.length < 2 ^ 63
  | _ => True

def Call.ZSetAgrees (db : DB) (env : Env) (st : State) : Call → Prop
  | .write w => w.Idle db env st ∨ w.ZSetAgrees db env st.store
  | .check => True

theorem zset_write_zwf (hs : StoreWf st.store) (hI : EveryKey (ZWf db) st.store) (w : Write)
    (hT : w.type = .ZSET) (hkey : key ∈ w.keys) (hk : key.length ≤ MaxKeySize)
    (hw : w.ZSetAgrees db env st.store) : ZWf db (exec env (w.body db) st).2.store key := by
  have h := hI key hk
  cases w <;> (try cases hT) <;> try cases List.mem_singleton.mp hkey
  case ZAdd => exact exec_keeps h fun r t hr => ZAdd_zwf (u := ⟨[], st.nc⟩) h hk hw hr
  case ZRem => exact exec_keeps h fun r t hr => ZRem_zwf (u := ⟨[], st.nc⟩) h hk hw hr
  case ZIncrBy => exact exec_keeps h fun r t hr => ZIncrBy_zwf (u := ⟨[], st.nc⟩) h hk hw.1 hw.2 hr
  case ZRemRangeByScore =>
    refine exec_keeps h fun r t hr => ?_
    obtain ⟨n, _, hrem, h1⟩ := Op.bind_ok.mp hr
    cases h1
    exact zRemRange_zwf (u := ⟨[], st.nc⟩) hs h hk hrem
  case ZRemRangeByRank =>
    refine exec_keeps h fun r t hr => ?_
    obtain ⟨⟨offset, count⟩, _, hl, h1⟩ := Op.bind_ok.mp hr
    obtain ⟨-, rfl⟩ := (zParseLimit_reads _ _ _).ok hl
    obtain ⟨n, _, hrem, h2⟩ := Op.bind_ok.mp h1
    cases h2
    exact zRemRange_zwf (u := ⟨[], st.nc⟩) hs h hk hrem
  case ZRemRangeByLex =>
    refine exec_keeps h fun r t hr => ?_
    simp only [Write.ZSetAgrees] at hw
    simp only [DB.ZRemRangeByLex, Op.bind_run, Op.range_run, hw] at hr
    cases hr
    exact h
  case ZClear =>
    refine exec_keeps h fun r t hr => ?_
    obtain ⟨n, _, hrem, h1⟩ := Op.bind_ok.mp hr
    cases h1
    exact zRemRange_zwf (u := ⟨[], st.nc⟩) hs h hk hrem
  case ZMclear =>
    refine exec_keeps h fun r t hr => ?_
    obtain ⟨_, _, hl, h1⟩ := Op.bind_ok.mp hr
    cases h1
    obtain ⟨b, rfl, -, hclear⟩ := zMclearLoop_clears hs hI hl
    exact (hclear key hkey).zwf
  case ZUnionStore =>
    refine exec_keeps h fun r t hr => ?_
    obtain ⟨destMap, heval, hst⟩ := ZUnionStore_ok hr
    exact zStore_zwf (u := ⟨[], st.nc⟩) hs h hk (hw destMap heval).1 (hw destMap heval).2 hst
  case ZInterStore =>
    refine exec_keeps h fun r t hr => ?_
    obtain ⟨destMap, heval, hst⟩ := ZInterStore_ok hr
    exact zStore_zwf (u := ⟨[], st.nc⟩) hs h hk (hw destMap heval).1 (hw destMap heval).2 hst
  case ZExpire =>
    exact keyLocal_zwf.expireOnly
      (.expireDuration (expireSized_expireOnly (readSize_reads _ _) _)) h
  case ZExpireAt =>
    exact keyLocal_zwf.expireOnly
      (.expireDeadline (expireSized_expireOnly (readSize_reads _ _) _)) h
  case ZPersist => exact keyLocal_zwf.expireOnly (.persist rmExpire_expireOnly) h

theorem zset_step_zwf (hs : StoreWf st.store) (h : EveryKey (ZWf db) st.store) (c : Call)
    (hc : c.ZSetAgrees db env st) : EveryKey (ZWf db) (c.step db env st).2.1.store := by
  refine step_keyLocal keyLocal_zwf hs h c ?_ ?_
  · rintro w rfl hT k hkey hk
    rcases hc with hidle | hw
    · exact hidle ▸ h k hk
    · exact zset_write_zwf hs h w hT hkey hk hw
  · intro st' k w hs' hI hk
    refine expiry_clears (P := fun s => ZWf db s k) clearing_zclears ?_ (fun b hb => hb.zwf) hk w
      (hI k hk)
    exact fun k' env' u hk' => zDelete_clears hs' (hI k' hk') hk' env' u

/-- The entries of a key are those of one finite map from members to scores. -/
structure ZSetEntries (db : DB) (s : Store) (key : Bytes) (zs : Finset (Bytes × Int64)) :
    Prop where
  functional : ∀ p ∈ zs, ∀ q ∈ zs, p.1 = q.1 → p = q
  member : ∀ m v, s.get (db.zEncodeSetKey key m) = some v ↔ ∃ c, (m, c) ∈ zs ∧ v = PutInt64 c
  score : ∀ m c, (s.get (db.zEncodeScoreKey key m c)).isSome ↔ (m, c) ∈ zs
  card_lt : zs.card < 2 ^ 63
  size : s.get (db.zEncodeSizeKey key) =
    if zs.card = 0 then none else some (PutInt64 (Int64.ofNat zs.card))

def scoreOf (db : DB) (s : Store) (key m : Bytes) : Int64 :=
  match decodeInt64 (s.get (db.zEncodeSetKey key m)) with
  | .ok c => c
  | .error _ => 0

theorem ZWf.mem_image (h : ZWf db s key) (m : Bytes) (c : Int64) :
    (m, c) ∈ (members db s .ZSET key).image (fun m => (m, scoreOf db s key m)) ↔
      s.get (db.zEncodeSetKey key m) = some (PutInt64 c) := by
  simp only [Finset.mem_image, Prod.mk.injEq, mem_members, ← zEncodeSetKey_front]
  constructor
  · rintro ⟨m', hm', rfl, rfl⟩
    obtain ⟨v, hv⟩ := Option.isSome_iff_exists.mp hm'
    obtain ⟨c', rfl, -⟩ := h.indexed.scored m' v hv
    rw [scoreOf, hv, decodeInt64_PutInt64]
  · intro hc
    exact ⟨m, by rw [hc]; rfl, rfl, by rw [scoreOf, hc, decodeInt64_PutInt64]⟩

theorem ZWf.entries (h : ZWf db s key) : ∃ zs, ZSetEntries db s key zs := by
  have hcard : ((members db s .ZSET key).image fun m => (m, scoreOf db s key m)).card =
      (members db s .ZSET key).card :=
    Finset.card_image_of_injective _ fun a b hab => (Prod.mk.inj hab).1
  refine ⟨(members db s .ZSET key).image fun m => (m, scoreOf db s key m), ?_, ?_, ?_, ?_, ?_⟩
  · rintro ⟨m, c⟩ hp ⟨m', c'⟩ hq rfl
    rw [h.mem_image] at hp hq
    rw [PutInt64_inj (Option.some.inj (hp.symm.trans hq))]
  · intro m v
    simp only [h.mem_image]
    constructor
    · intro hv
      obtain ⟨c, rfl, -⟩ := h.indexed.scored m v hv
      exact ⟨c, hv, rfl⟩
    · rintro ⟨c, hc, rfl⟩
      exact hc
  · intro m c
    rw [h.mem_image]
    exact h.indexed.index m c
  · rw [hcard]
    exact h.counted.card_lt
  · rw [hcard]
    exact h.counted.size

/-- In every run whose calls avoid those inputs, the entries of every zset are those of one
finite map. -/
theorem zset_views_agree (db : DB) (cs : List (Env × Call))
    (hcs : AllSteps db (fun env st c => c.ZSetAgrees db env st) cs State.empty) (key : Bytes)
    (hk : key.length ≤ MaxKeySize) : ∃ zs, ZSetEntries db (run db cs State.empty).store key zs :=
  (run_keyLocal (P := ZWf db) (fun k _ => ZWf.empty db k)
    (fun _ _ c hs h hc => zset_step_zwf hs h c hc) hcs key hk).entries

theorem zset_views_agree_rescored : ∃ zs, ZSetEntries DB.zero
    (run DB.zero [(Env.quiet 0, .write (.ZAdd [122] [⟨1, [97]⟩, ⟨2, [98]⟩])),
      (Env.quiet 0, .write (.ZIncrBy [122] 5 [97])),
      (Env.quiet 0, .write (.ZRemRangeByScore [122] 2 3))] State.empty).store [122] zs := by
  refine zset_views_agree DB.zero _ ?_ [122] (by decide)
  refine ⟨.inr fun _ => ⟨⟨by decide, by decide⟩, ?_⟩,
    .inr ⟨fun _ => by decide, by decide, by decide⟩, .inr trivial, trivial⟩
  intro a ha l hl
  left
  simp only [List.mem_cons, List.not_mem_nil, or_false] at ha
  rcases ha with rfl | rfl <;> cases hl <;> rfl

theorem zset_views_disagree :
    (let s := (run DB.zero [(Env.quiet 0, .write (.ZAdd [122] [⟨1, [97]⟩, ⟨2, [97]⟩]))]
        State.empty).store;
      (s.get (DB.zero.zEncodeScoreKey [122] [97] 1)).isSome ∧
      (s.get (DB.zero.zEncodeScoreKey [122] [97] 2)).isSome ∧
      s.get (DB.zero.zEncodeSizeKey [122]) = some (PutInt64 2)) ∧
    (let s := (run DB.zero [(Env.quiet 0, .write (.ZAdd [122] [⟨1, [97]⟩])),
        (Env.quiet 0, .write (.ZIncrBy [122] 0 [97]))] State.empty).store;
      s.get (DB.zero.zEncodeSetKey [122] [97]) = some (PutInt64 1) ∧
      s.get (DB.zero.zEncodeScoreKey [122] [97] 1) = none) ∧
    (let s := (run DB.zero [(Env.quiet 0, .write (.ZAdd [122] [⟨1, [97]⟩])),
        (Env.quiet 0, .write (.ZRemRangeByLex [122] none none RangeClose))] State.empty).store;
      s.get (DB.zero.zEncodeSetKey [122] [97]) = none ∧
      (s.get (DB.zero.zEncodeScoreKey [122] [97] 1)).isSome ∧
      s.get (DB.zero.zEncodeSizeKey [122]) = some (PutInt64 1)) ∧
    (let s := (run DB.zero [(Env.quiet 0, .write (.ZInterStore [122] [[97], [98]] none 0))]
        State.empty).store;
      s.get (DB.zero.zEncodeSizeKey [122]) = some (PutInt64 0)) := by
  decide

end

end LedisDB
