import LedisDB.ListInvariant
import LedisDB.Pairing
import LedisDB.Removal
import LedisDB.StoredValues

/-!
# A check expires everything that is due

The time index is ordered by the bytes of the deadlines, which is their order as
unsigned numbers. Among deadlines that are not negative the early end of the loop
therefore skips none that is due, and by `Paired` every deadline is met there. The
delete callback of a key whose representation is consistent leaves nothing of it.
-/

namespace LedisDB

/-- The representation invariant of a key's type. -/
def Consistent (db : DB) (s : Store) : DataType → Bytes → Prop
  | .LIST, key => ListEntries db s key
  | .ZSET, key => ZWf db s key
  | _, _ => True

section
variable {db : DB} {env : Env} {st : State} {s s' : Store} {T : DataType} {k k' : Bytes}
  {w exp n w' now u : Int64} {es : List (Bytes × Bytes)}

theorem deleteFunc_returns (db : DB) (hs : StoreWf s) (hm : Proper s) (T : DataType) (k : Bytes)
    (env : Env) (u : Txn) : ∃ n b, db.deleteFunc T k env s u = (.ok n, u.queue b) := by
  cases T with
  | KV => exact ⟨_, _, delete_run db env s k u⟩
  | LIST =>
    cases hv : s.get (db.lEncodeMetaKey k) with
    | none =>
      obtain ⟨n, hn⟩ := lDelete_absent hv
      exact ⟨n, _, hn⟩
    | some v =>
      obtain ⟨m, hm⟩ := hm.listMeta hv
      obtain ⟨n, hn⟩ := lDelete_queue hv hm
      exact ⟨n, _, hn⟩
  | HASH =>
    obtain ⟨n, hn⟩ := deleteMembers_run db env s .HASH k u
    exact ⟨n, _, hn⟩
  | SET =>
    obtain ⟨n, hn⟩ := deleteMembers_run db env s .SET k u
    exact ⟨n, _, hn⟩
  | ZSET =>
    by_cases hk : k.length ≤ MaxKeySize
    · obtain ⟨n, hn⟩ := zDelete_queue db hs hk env u
      exact ⟨n, _, hn⟩
    · exact ⟨0, [], by rw [DB.deleteFunc, zDelete_long hk, Txn.queue_nil]⟩

def Erases (db : DB) (s : Store) (T : DataType) (k : Bytes) : Prop :=
  ∀ env u, ∃ n b, db.deleteFunc T k env s u = (.ok n, u.queue b) ∧
    Wipes db s T k b

theorem erases_members (hT : T = .HASH ∨ T = .SET) : Erases db s T k := by
  intro env u
  obtain ⟨n, hn⟩ := deleteMembers_run db env s T k u
  refine ⟨n, _, ?_, clearBatch_wipes hT⟩
  rcases hT with rfl | rfl <;> exact hn

theorem erases_noItems (hv : s.get (db.lEncodeMetaKey k) = none)
    (hitems : ∀ n, s.get (db.lEncodeListKey k n) = none) : Erases db s .LIST k := by
  intro env u
  obtain ⟨n, hn⟩ := lDelete_absent hv
  exact ⟨n, _, hn, lDelete_wipes fun seq hseq => absurd (hitems seq) hseq⟩

theorem ListEntries.erases (h : ListEntries db s k) : Erases db s .LIST k := by
  rcases h with ⟨hv, hitems⟩ | ⟨head, tail, hv, hmin, -, -, hitems⟩
  · exact erases_noItems hv hitems
  · intro env u
    obtain ⟨n, hn⟩ := lDelete_queue hv (getMeta_putMeta head tail)
    refine ⟨n, _, hn, lDelete_wipes fun seq hseq => ?_⟩
    obtain ⟨hl, hu⟩ := (hitems seq).mp (Option.isSome_iff_ne_none.mpr hseq)
    rw [← @lEncodeListKey_le_iff_toUInt32 db k, ← @lEncodeListKey_le_iff_toUInt32 db k]
    have hpos : 0 ≤ head.toInt := by
      have h1000 : listMinSeq.toInt = 1000 := by decide
      rw [Int32.lt_iff_toInt_lt] at hmin
      omega
    rw [Int32.le_iff_toInt_le] at hl hu
    exact ⟨lEncodeListKey_le hpos hl, lEncodeListKey_le (hpos.trans hl) hu⟩

theorem ZWf.erases (h : ZWf db s k) (hs : StoreWf s) (hk : k.length ≤ MaxKeySize) :
    Erases db s .ZSET k := by
  intro env u
  obtain ⟨n, b, hn, hb⟩ := zDelete_clears hs h hk env u
  refine ⟨n, b, hn, hb.clears.deletes, fun ek hek hget => ?_⟩
  cases hek with
  | zsize => exact hb.clears.size
  | zmember _ m =>
    rw [zEncodeSetKey_front] at hget ⊢
    exact hb.clears.member m (mem_members.mpr (Option.isSome_iff_ne_none.mpr hget))
  | zscore _ m c => exact hb.score m c (Option.isSome_iff_ne_none.mpr hget)

theorem Consistent.erases (h : Consistent db s T k) (hs : StoreWf s) (hk : k.length ≤ MaxKeySize) :
    Erases db s T k := by
  cases T with
  | KV => exact fun env u => ⟨_, _, delete_run db env s k u, delete_wipes⟩
  | LIST => exact ListEntries.erases h
  | HASH => exact erases_members (.inl rfl)
  | SET => exact erases_members (.inr rfl)
  | ZSET => exact ZWf.erases h hs hk

theorem Consistent.congr (h : Consistent db s T k)
    (hsame : ∀ ek, Entry db T k ek → s'.get ek = s.get ek) : Consistent db s' T k := by
  cases T with
  | KV | HASH | SET => trivial
  | ZSET => exact keyLocal_zwf s s' k (fun ek hek => hsame ek (.inl hek)) h
  | LIST =>
    have hmeta := hsame _ (.inl (.lmeta k))
    have hitem := fun n => hsame _ (.inl (.litem k n))
    simp only [Consistent, ListEntries, hmeta, hitem]
    exact h

theorem Clean.consistent (h : Clean db s T k) : Consistent db s T k := by
  cases T with
  | KV | HASH | SET => trivial
  | LIST => exact .inl ⟨h _ (.inl (.lmeta k)), fun n => h _ (.inl (.litem k n))⟩
  | ZSET =>
    have hmember := fun m => h _ (.inl (.zmember k m))
    have hempty : members db s .ZSET k = ∅ := by
      refine Finset.eq_empty_of_forall_notMem fun m hm => ?_
      rw [mem_members, ← zEncodeSetKey_front, hmember] at hm
      cases hm
    refine ⟨⟨fun m v hv => ?_, fun m c => ?_⟩, ⟨?_, ?_⟩⟩
    · rw [hmember] at hv
      cases hv
    · rw [h _ (.inl (.zscore k m c)), hmember]
      simp
    · simp [hempty]
    · rw [hempty]
      exact h _ (.inl (.zsize k))

theorem expiry_returns (db : DB) (env : Env) (hs : StoreWf st.store) (hm : Proper st.store)
    (T : DataType) (k : Bytes) (w : Int64) :
    ∃ called s', expiry db env T k w st = (.ok called, ⟨s', st.nc⟩) := by
  obtain ⟨n, b, hrun⟩ := deleteFunc_returns db hs hm T k env ⟨[], st.nc⟩
  simp only [expiry, onExpired_deleteFunc, exec, checkKey, Op.bind_run, Op.get_run, Op.now_run]
  cases decodeInt64 (st.store.get (db.expEncodeMetaKey T.code k)) with
  | error e => exact ⟨false, _, rfl⟩
  | ok exp =>
    by_cases hle : exp ≤ env.now
    · simp only [hle, if_true, Op.bind_run, hrun, Op.delete_run, Op.pure_run]
      split <;> exact ⟨true, _, rfl⟩
    · simp only [hle]
      exact ⟨false, _, rfl⟩

theorem deadlineOf_expired (w : Int64)
    (b : Batch) : deadlineOf db (s.applyBatch (b ++ [.delete (db.expEncodeTimeKey T.code k w),
      .delete (db.expEncodeMetaKey T.code k)])) T k = none := by
  simp [deadlineOf, OrderedMap.applyBatch, get_applyOp]

theorem expiry_due (henv : env.Commits) (hexp : decodeInt64 (deadlineOf db st.store T k) = .ok exp)
    (hle : exp ≤ env.now) {b : Batch}
    (hrun : db.deleteFunc T k env st.store ⟨[], st.nc⟩ = (.ok n, ⟨b, st.nc⟩)) (w : Int64) :
    (expiry db env T k w st).2.store = st.store.applyBatch
      (b ++ [.delete (db.expEncodeTimeKey T.code k w),
        .delete (db.expEncodeMetaKey T.code k)]) := by
  unfold deadlineOf at hexp
  simp [expiry, onExpired_deleteFunc, exec, checkKey, hexp, hle, hrun, commit, henv.1, henv.2]

/-- A key before its expiry in a check: it still has the deadline `w`, or none, and is
consistent if it was (`c`). -/
def Waiting (db : DB) (s : Store) (T : DataType) (k : Bytes) (w : Int64) (c : Prop) : Prop :=
  (deadlineOf db s T k = none ∨ deadlineOf db s T k = some (PutInt64 w)) ∧ (c → Consistent db s T k)

def Expired (db : DB) (s : Store) (T : DataType) (k : Bytes) (c : Prop) : Prop :=
  deadlineOf db s T k = none ∧ (c → Clean db s T k)

variable {c : Prop}

theorem Expired.waiting (h : Expired db s T k c) (w : Int64) : Waiting db s T k w c :=
  ⟨Or.inl h.1, fun hc => (h.2 hc).consistent⟩

theorem Waiting.congr (h : Waiting db s T k w c)
    (hsame : ∀ ek, Entry db T k ek → s'.get ek = s.get ek) : Waiting db s' T k w c := by
  refine ⟨?_, fun hc => (h.2 hc).congr hsame⟩
  rw [deadlineOf, hsame _ (.inr .expMeta)]
  exact h.1

theorem Expired.congr (h : Expired db s T k c)
    (hsame : ∀ ek, Entry db T k ek → s'.get ek = s.get ek) : Expired db s' T k c := by
  refine ⟨?_, fun hc => (h.2 hc).congr hsame⟩
  rw [deadlineOf, hsame _ (.inr .expMeta)]
  exact h.1

theorem Waiting.expire (h : Waiting db st.store T k w c) (henv : env.Commits)
    (hs : StoreWf st.store) (hm : Proper st.store) (hk : k.length ≤ MaxKeySize)
    (h0 : 0 ≤ env.now) (hw : w ≤ env.now) (w' : Int64) :
    Expired db (expiry db env T k w' st).2.store T k c := by
  have hexp : ∃ exp, decodeInt64 (deadlineOf db st.store T k) = .ok exp ∧ exp ≤ env.now := by
    rcases h.1 with hd | hd <;> rw [hd]
    · exact ⟨0, decodeInt64_none, h0⟩
    · exact ⟨w, decodeInt64_PutInt64 w, hw⟩
  obtain ⟨exp, hexp, hle⟩ := hexp
  have hbatch : ∃ n b, db.deleteFunc T k env st.store ⟨[], st.nc⟩ = (.ok n, ⟨b, st.nc⟩) ∧
      (c → Wipes db st.store T k b) := by
    by_cases hc : c
    · obtain ⟨n, b, hrun, hb⟩ := (h.2 hc).erases hs hk env ⟨[], st.nc⟩
      exact ⟨n, b, hrun, fun _ => hb⟩
    · obtain ⟨n, b, hrun⟩ := deleteFunc_returns db hs hm T k env ⟨[], st.nc⟩
      exact ⟨n, b, hrun, fun h => absurd h hc⟩
  obtain ⟨n, b, hrun, hwipes⟩ := hbatch
  rw [expiry_due henv hexp hle hrun]
  constructor
  · exact deadlineOf_expired w' b
  · intro hc ek hek
    have hb := hwipes hc
    apply (hb.deletes.append (by simp [Deletes])).get_none
    rcases hek with hek | rfl
    · by_cases hget : st.store.get ek = none
      · exact .inl hget
      · exact .inr (List.mem_append_left _ (hb.all ek hek hget))
    · exact .inr (by simp)

theorem DB.expEncodeTimeKey_lt_iff {t t' : UInt8} :
    db.expEncodeTimeKey t k w < db.expEncodeTimeKey t' k' w' ↔
      w.toUInt64.toNat < w'.toUInt64.toNat ∨
        w.toUInt64.toNat = w'.toUInt64.toNat ∧ t :: k < t' :: k' := by
  unfold expEncodeTimeKey plainKey
  rw [Lexicographic.append_lt_append_iff, List.cons_lt_cons_iff]
  simp only [lt_irrefl, false_or, true_and]
  exact beBytes_append_lt_iff (toUInt64_toNat_lt w) (toUInt64_toNat_lt w') _ _

theorem le_of_toUInt64_le (h0 : 0 ≤ w') (h : w.toUInt64.toNat ≤ w'.toUInt64.toNat) : w ≤ w' := by
  rw [Int64.le_iff_toInt_le] at h0 ⊢
  have hz : (0 : Int64).toInt = 0 := rfl
  have hw := DB.toInt_eq_toNat w
  have hw' := DB.toInt_eq_toNat w'
  have hlt' := DB.toUInt64_toNat_lt w'
  split_ifs at hw hw' <;> omega

def timeRange (db : DB) (now : Int64) : Range Bytes :=
  ⟨some (db.expEncodeTimeKey NoneType [] 0), some (db.expEncodeTimeKey maxDataType [] (now + 3600)),
    RangeROpen⟩

theorem toUInt64_lt_horizon (h0 : 0 ≤ w) (hw : w ≤ now) :
    w.toUInt64.toNat < (now + 3600).toUInt64.toNat := by
  have hz : (0 : Int64).toInt = 0 := rfl
  have hhour : (3600 : Int64).toInt = 3600 := rfl
  rw [Int64.le_iff_toInt_le] at h0 hw
  -- past the largest number the sum is negative, and its bytes are above those of `w`
  have hsum : (now + 3600).toInt = (now.toInt + 3600).bmod (2 ^ 64) := by
    rw [Int64.toInt_add, hhour]
  have hlt := Int64.toInt_lt now
  have hbmod : (now.toInt + 3600).bmod (2 ^ 64) = now.toInt + 3600 ∨
      (now.toInt + 3600).bmod (2 ^ 64) = now.toInt + 3600 - 2 ^ 64 := by
    by_cases h : now.toInt + 3600 < 2 ^ 63
    · left
      exact Int.bmod_eq_of_le (by omega) (by omega)
    · right
      rw [← Int.sub_bmod_right]
      exact Int.bmod_eq_of_le (by omega) (by omega)
  have h1 := DB.toInt_eq_toNat w
  have h2 := DB.toInt_eq_toNat (now + 3600)
  have h3 := DB.toUInt64_toNat_lt w
  split_ifs at h1 h2 <;> omega

theorem aboveMin_timeRange (now : Int64) (w : Int64) :
    (timeRange db now).aboveMin (db.expEncodeTimeKey T.code k w) = true := by
  rw [timeRange, Range.aboveMin_rOpen, decide_eq_true_eq, ← not_lt, DB.expEncodeTimeKey_lt_iff]
  rintro (h | ⟨-, h⟩)
  · exact absurd h (Nat.not_lt_zero _)
  · cases T <;> exact absurd h (by simp [List.cons_lt_cons_iff]; decide)

theorem belowMax_timeRange :
    (timeRange db now).belowMax (db.expEncodeTimeKey T.code k w) = true ↔
      w.toUInt64.toNat ≤ (now + 3600).toUInt64.toNat := by
  have hT : T.code :: k < maxDataType :: [] := by
    cases T <;> exact List.cons_lt_cons_iff.mpr (.inl (by decide))
  simp only [timeRange, Range.belowMax_rOpen, decide_eq_true_iff]
  rw [DB.expEncodeTimeKey_lt_iff, le_iff_lt_or_eq, and_iff_left hT]

theorem mem_timeRange
    (hget : s.get (db.expEncodeTimeKey T.code k w) = some (db.expEncodeMetaKey T.code k))
    (h0 : 0 ≤ w) (hw : w ≤ now) :
    (db.expEncodeTimeKey T.code k w, db.expEncodeMetaKey T.code k) ∈
      s.rangeLimit (timeRange db now) ⟨0, -1⟩ .forward :=
  OrderedMap.mem_rangeLimit_all.mpr ⟨hget, aboveMin_timeRange now w,
    belowMax_timeRange.mpr (toUInt64_lt_horizon h0 hw).le⟩

theorem checkLoop_returns (env : Env) (hes : Timed db es) (nc : Int64) (hs : StoreWf st.store)
    (hm : Proper st.store) : ∃ n, (checkLoop db env es nc st).1 = .ok n := by
  induction es generalizing st with
  | nil => exact ⟨nc, rfl⟩
  | cons e es ih =>
    obtain ⟨T, k, w, rfl, hrest⟩ := hes.uncons
    have hwf := expiry_wf db env hs T k w
    have hmetas := @expiry_proper db env _ hs hm T k w
    obtain ⟨called, s', hx⟩ := expiry_returns db env hs hm T k w
    rw [hx] at hwf hmetas
    rw [checkLoop_cons, hx]
    split_ifs
    · exact ⟨w, rfl⟩
    · exact ih hrest hwf hmetas

theorem checkLoop_reaches {I G : Store → Prop} (hret : ∀ st T' k' w', I st.store →
      ∃ called s', expiry db env T' k' w' st = (.ok called, ⟨s', st.nc⟩))
    (hI : ∀ st T' k' w', I st.store → I (expiry db env T' k' w' st).2.store)
    (hG : ∀ st T' k' w', G st.store → G (expiry db env T' k' w' st).2.store)
    (hhit : ∀ st, I st.store → G (expiry db env T k w st).2.store) (hw : w ≤ env.now)
    (hbefore : ∀ (T' : DataType) k' w',
      db.expEncodeTimeKey T'.code k' w' < db.expEncodeTimeKey T.code k w → w' ≤ env.now)
    (hes : Timed db es) (hsorted : es.Pairwise fun a b => a.1 < b.1)
    (hin : (db.expEncodeTimeKey T.code k w, db.expEncodeMetaKey T.code k) ∈ es) (nc : Int64)
    (h : I st.store) : G (checkLoop db env es nc st).2.1.store := by
  induction es generalizing st with
  | nil => cases hin
  | cons e es ih =>
    obtain ⟨T', k', w', rfl, hrest⟩ := hes.uncons
    obtain ⟨hlt, hsorted'⟩ := List.pairwise_cons.mp hsorted
    obtain ⟨called, s', hx⟩ := hret st T' k' w' h
    have hI' := hI st T' k' w' h
    rw [hx] at hI'
    rw [checkLoop_cons, hx]
    rcases List.mem_cons.mp hin with heq | hin'
    · obtain ⟨rfl, hT, rfl⟩ := DB.expEncodeTimeKey_inj.mp (Prod.ext_iff.mp heq).1
      obtain rfl := DataType.code_inj hT
      have hG' := hhit st h
      rw [hx] at hG'
      rw [if_neg (Int64.not_lt.mpr hw)]
      exact checkLoop_induction hG hrest nc hG'
    · have hw' := hbefore T' k' w' (hlt _ hin')
      rw [if_neg (Int64.not_lt.mpr hw')]
      exact ih hrest hsorted' hin' hI'

abbrev snapshot (db : DB) (now : Int64) (s : Store) : List (Bytes × Bytes) :=
  s.rangeLimit (timeRange db now) ⟨0, -1⟩ .forward

theorem snapshot_timed (db : DB) (now : Int64) (hs : StoreWf s) : Timed db (snapshot db now s) :=
  hs.timed (a := beBytes 8 (0 : Int64).toUInt64.toNat ++ [NoneType])
    (b := beBytes 8 (now + 3600).toUInt64.toNat ++ [maxDataType])

theorem check_eq_checkLoop (hnc : st.nc ≤ env.now) {n : Int64}
    (h : (checkLoop db env (snapshot db env.now st.store) (env.now + 3600) st).1 = .ok n) :
    (check db env st).1 = .ok () ∧ (check db env st).2.1 =
      ⟨(checkLoop db env (snapshot db env.now st.store) (env.now + 3600) st).2.1.store, n⟩ := by
  rw [check, if_neg (Int64.not_lt.mpr hnc)]
  rcases hl : checkLoop db env (snapshot db env.now st.store) (env.now + 3600) st with ⟨r, st', t⟩
  rw [hl] at h
  obtain rfl := h
  dsimp only
  rw [snapshot, timeRange] at hl
  rw [hl]
  exact ⟨rfl, rfl⟩

theorem checkLoop_meets (henv : env.Commits) (hs : StoreWf st.store) (hm : Proper st.store)
    (hk : k.length ≤ MaxKeySize) (hd : deadlineOf db st.store T k = some (PutInt64 w))
    (h0 : 0 ≤ env.now) (hw : w ≤ env.now) (hu : u ≤ env.now)
    (hin : (db.expEncodeTimeKey T.code k u, db.expEncodeMetaKey T.code k) ∈
      snapshot db env.now st.store) (hbefore : ∀ (T' : DataType) k' u',
      db.expEncodeTimeKey T'.code k' u' < db.expEncodeTimeKey T.code k u → u' ≤ env.now)
    (nc : Int64) :
    Expired db (checkLoop db env (snapshot db env.now st.store) nc st).2.1.store T k
      (Consistent db st.store T k) := by
  let sound s : Prop := StoreWf s ∧ Proper s
  have hsound : ∀ st T' k' w', sound st.store → sound (expiry db env T' k' w' st).2.store :=
    fun st T' k' w' h => ⟨expiry_wf db env h.1 T' k' w', expiry_proper h.1 h.2 T' k' w'⟩
  have hsame : ∀ {st T' k' w'}, sound st.store → ¬ (T' = T ∧ k' = k) → ∀ ek, Entry db T k ek →
      (expiry db env T' k' w' st).2.store.get ek = st.store.get ek := by
    intro st T' k' w' h hne ek hek
    refine expiry_other h.1 w' hek ?_
    by_cases hT : T = T'
    · exact .inr fun hk => hne ⟨hT.symm, hk.symm⟩
    · exact .inl hT
  refine (checkLoop_reaches
    (I := fun s => sound s ∧ Waiting db s T k w (Consistent db st.store T k))
    (G := fun s => sound s ∧ Expired db s T k (Consistent db st.store T k))
    (fun st T' k' w' h => expiry_returns db env h.1.1 h.1.2 T' k' w')
    (fun st' T' k' w' h => ⟨hsound st' T' k' w' h.1, ?_⟩)
    (fun st' T' k' w' h => ⟨hsound st' T' k' w' h.1, ?_⟩)
    (fun st' h => ⟨hsound st' T k u h.1, h.2.expire henv h.1.1 h.1.2 hk h0 hw u⟩) hu hbefore
    (snapshot_timed db env.now hs) (OrderedMap.rangeLimit_sorted _ _) hin nc
    ⟨⟨hs, hm⟩, .inr hd, id⟩).2
  · by_cases hkey : T' = T ∧ k' = k
    · obtain ⟨rfl, rfl⟩ := hkey
      exact (h.2.expire henv h.1.1 h.1.2 hk h0 hw w').waiting w
    · exact h.2.congr (hsame h.1 hkey)
  · by_cases hkey : T' = T ∧ k' = k
    · obtain ⟨rfl, rfl⟩ := hkey
      exact (h.2.waiting w).expire henv h.1.1 h.1.2 hk h0 hw w'
    · exact h.2.congr (hsame h.1 hkey)

theorem checkLoop_expires (henv : env.Commits) (hs : StoreWf st.store)
    (hm : Proper st.store) (hp : Paired db (fun _ k w => ValidKey k ∧ 0 ≤ w) st.store)
    (hd : deadlineOf db st.store T k = some (PutInt64 w)) (hw : w ≤ env.now) (nc : Int64) :
    Expired db (checkLoop db env (snapshot db env.now st.store) nc st).2.1.store T k
      (Consistent db st.store T k) := by
  obtain ⟨⟨hk, h0⟩, htime⟩ := hp T k w hd
  refine checkLoop_meets henv hs hm hk.2 hd (Int64.le_trans h0 hw) hw hw
    (mem_timeRange htime h0 hw) (fun T' k' w' hlt => ?_) nc
  refine Int64.le_trans (le_of_toUInt64_le h0 ?_) hw
  rcases DB.expEncodeTimeKey_lt_iff.mp hlt with h | h
  · exact h.le
  · exact h.1.le

/-- Every deadline has its time entry; a check that is due returns and leaves no deadline
that has passed, and of a key that was due and consistent it leaves nothing. -/
theorem check_expires_due (db : DB) (cs : List (Env × Call)) :
    (∀ T k v, deadlineOf db (run db cs State.empty).store T k = some v → ∃ w, v = PutInt64 w ∧
      (run db cs State.empty).store.get (db.expEncodeTimeKey T.code k w) =
        some (db.expEncodeMetaKey T.code k)) ∧
    (AllSteps db (fun env _ c => c.Accepts (fun _ _ w => 0 ≤ w) env) cs State.empty →
      ∀ env : Env, env.Commits → (run db cs State.empty).nc ≤ env.now →
      (check db env (run db cs State.empty)).1 = .ok () ∧
      (∀ T k v, deadlineOf db (check db env (run db cs State.empty)).2.1.store T k = some v →
        ∃ w, v = PutInt64 w ∧ env.now < w) ∧
      ∀ T k w, deadlineOf db (run db cs State.empty).store T k = some (PutInt64 w) → w ≤ env.now →
        Consistent db (run db cs State.empty).store T k →
        Clean db (check db env (run db cs State.empty)).2.1.store T k) := by
  have hs := run_wf db cs
  have hm := run_proper db cs
  refine ⟨fun T k v hv => ?_, fun hcs env henv hdue => ?_⟩
  · obtain ⟨w, rfl⟩ := hs.deadline hv
    exact ⟨w, rfl, (run_paired_any cs T k w hv).2⟩
  have hp := run_paired hcs
  generalize run db cs State.empty = st at *
  obtain ⟨n, hn⟩ := checkLoop_returns env (snapshot_timed db env.now hs) (env.now + 3600) hs hm
  obtain ⟨hret, hcheck⟩ := check_eq_checkLoop hdue hn
  have hexp := fun T k w hd hw => checkLoop_expires (T := T) (k := k) (w := w) henv hs hm hp hd hw
    (env.now + 3600)
  refine ⟨hret, fun T k v hv => ?_, fun T k w hd hw hc => ?_⟩
  · rw [hcheck] at hv
    have hbefore := (checkLoop_induction (I := fun s => StoreWf s ∧
          (deadlineOf db s T k = some v → deadlineOf db st.store T k = some v))
        (fun st T' k' w' h => ⟨expiry_wf db env h.1 T' k' w',
          fun h' => h.2 (expiry_deadline h.1 h')⟩)
        (snapshot_timed db env.now hs) _ ⟨hs, id⟩).2 hv
    obtain ⟨w, rfl⟩ := hs.deadline hbefore
    refine ⟨w, rfl, Int64.not_le.mp fun hw => ?_⟩
    rw [(hexp T k w hbefore hw).1] at hv
    cases hv
  · rw [hcheck]
    exact (hexp T k w hd hw).2 hc

theorem check_expires_due_moved :
    Clean DB.zero (check DB.zero (Env.quiet 30) (run DB.zero
      [(Env.quiet 1, .write (.HSet [107] [102] [118])), (Env.quiet 1, .write (.HExpireAt [107] 10)),
        (Env.quiet 2, .write (.HExpireAt [107] 20))] State.empty)).2.1.store .HASH [107] := by
  refine ((check_expires_due DB.zero
    [(Env.quiet 1, .write (.HSet [107] [102] [118])), (Env.quiet 1, .write (.HExpireAt [107] 10)),
      (Env.quiet 2, .write (.HExpireAt [107] 20))]).2 ⟨?_, ?_, ?_, trivial⟩ (Env.quiet 30)
    ⟨rfl, fun _ _ => rfl⟩ (by decide)).2.2 .HASH [107] 20 (by decide) (by decide) trivial
  · rintro _ _ ⟨⟩
  · rintro _ _ ⟨⟩
    decide
  · rintro _ _ ⟨⟩
    decide

theorem negative_deadline_remains :
    ∃ cs : List (Env × Call), (∀ x ∈ cs, ∀ c k w, x.2 = .write c →
        c.deadline x.1.now = some (k, w) → x.1.now < w) ∧
      (run DB.zero cs State.empty).nc ≤ -3 ∧
      deadlineOf DB.zero (check DB.zero (Env.quiet (-3)) (run DB.zero cs State.empty)).2.1.store .KV
        [107] = some (PutInt64 (-5)) := by
  refine ⟨[(Env.quiet (-10), .write (.Set [107] [118])),
    (Env.quiet (-10), .write (.ExpireAt [107] (-5)))], ?_, by decide, by decide⟩
  intro x hx c k w hc hD
  rcases List.mem_cons.mp hx with rfl | hx
  · cases hc
    cases hD
  · obtain rfl := List.mem_singleton.mp hx
    cases hc
    cases hD
    decide

end

end LedisDB
