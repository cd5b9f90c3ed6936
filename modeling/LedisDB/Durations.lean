import LedisDB.Migrate
import LedisDB.Schedule
import LedisDB.Flush

/-!
# Accepted durations

A duration is checked before the clock is added to it, and the sum may wrap to a negative
deadline. The difference with the clock wraps back, so the TTL is right all the same; the
checker compares the negative deadline itself and takes it for one that has passed.
-/

namespace LedisDB

/-- `Expire` and its four siblings. -/
def DB.expireOf (db : DB) : DataType → Bytes → Int64 → Op (Ret Int64)
  | .KV => db.Expire
  | .LIST => db.LExpire
  | .HASH => db.HExpire
  | .SET => db.SExpire
  | .ZSET => db.ZExpire

inductive DurationCall
  | expire (T : DataType) (key : Bytes) (duration : Int64)
  | SetEX (key : Bytes) (duration : Int64) (value : Bytes)

namespace DurationCall

def type : DurationCall → DataType
  | expire T _ _ => T
  | SetEX _ _ _ => .KV

def key : DurationCall → Bytes
  | expire _ key _ => key
  | SetEX key _ _ => key

def duration : DurationCall → Int64
  | expire _ _ duration => duration
  | SetEX _ duration _ => duration

def Succeeds (db : DB) (env : Env) (st st' : State) : DurationCall → Prop
  | expire T key duration => exec env (db.expireOf T key duration) st = (.ok 1, st')
  | SetEX key duration value => exec env (db.SetEX key duration value) st = (.ok (), st')

end DurationCall

/-- A duration `d` from `now` on is the TTL of the key, and until it has passed a check neither
makes the delete callback of the key nor changes one of its entries. -/
structure DurationIsTTL (db : DB) (T : DataType) (key : Bytes) (now d : Int64) (st : State) :
    Prop where
  ttl : ∀ env : Env, now ≤ env.now → env.now.toInt < now.toInt + d.toInt →
    ∃ n, (xttl db T key).eval env st.store = .ok n ∧ n.toInt = d.toInt - (env.now.toInt - now.toInt)
  uncalled : ∀ env : Env, 0 ≤ env.now → env.now.toInt < now.toInt + d.toInt →
    ∀ x ∈ (check db env st).2.2, ¬ (x.dataType = T.code ∧ x.key = key)
  entries : ∀ env : Env, 0 ≤ env.now → env.now.toInt < now.toInt + d.toInt →
    ∀ ek, Entry db T key ek → (check db env st).2.1.store.get ek = st.store.get ek

def lastHorizon : ℕ := 2 ^ 63 + 3599

/-- The sum does not wrap, or it wraps behind everything a check reaches and so does every
older time entry of the key. -/
def DurationFits (db : DB) (T : DataType) (key : Bytes) (now d : Int64) (s : Store) : Prop :=
  now.toInt + d.toInt < 2 ^ 63 ∨
    (lastHorizon < now.toInt + d.toInt ∧
      ∀ u : Int64, s.get (db.expEncodeTimeKey T.code key u) ≠ none → lastHorizon < u.toUInt64.toNat)

section
variable {db : DB} {env : Env} {st st' : State} {s m : Store} {T : DataType}
  {key value ek v : Bytes} {now d w t nc u : Int64} {f : Unit → Op Int64}

theorem toNat_add_of_nonneg {a b : Int64} (ha : 0 ≤ a) (hb : 0 ≤ b) :
    ((a + b).toUInt64.toNat : ℤ) = a.toInt + b.toInt := by
  have hz : (0 : Int64).toInt = 0 := rfl
  rw [Int64.le_iff_toInt_le] at ha hb
  have h1 := DB.toInt_eq_toNat a
  have h2 := DB.toInt_eq_toNat b
  have h3 := DB.toUInt64_toNat_lt a
  have h4 := DB.toUInt64_toNat_lt b
  rw [Int64.toUInt64_add, UInt64.toNat_add]
  split_ifs at h1 h2 <;> omega

theorem toInt_remaining (h0 : 0 ≤ now) (hd : 0 < d) (hnow : now ≤ t)
    (ht : t.toInt < now.toInt + d.toInt) :
    (now + d - t).toInt = d.toInt - (t.toInt - now.toInt) := by
  have hsum := toNat_add_of_nonneg h0 (Int64.le_of_lt hd)
  have hw := DB.toInt_eq_toNat (now + d)
  have hmax := Int64.toInt_lt d
  rw [Int64.le_iff_toInt_le] at hnow
  have hgap : (now + d).toInt - t.toInt = d.toInt - (t.toInt - now.toInt) ∨
      (now + d).toInt - t.toInt = d.toInt - (t.toInt - now.toInt) - 2 ^ 64 := by
    split_ifs at hw
    · omega
    · omega
  rw [Int64.toInt_sub]
  rcases hgap with h | h <;> rw [h]
  · exact Int.bmod_eq_of_le (by omega) (by omega)
  · rw [show 2 ^ 64 = ((2 ^ 64 : ℕ) : ℤ) from rfl, Int.sub_bmod_right]
    exact Int.bmod_eq_of_le (by omega) (by omega)

structure AcceptsDeadline (db : DB) (T : DataType) (key : Bytes) (w : Int64) (st st' : State) :
    Prop where
  reached : Reached st'.store
  valid : ValidKey key
  nc : st'.nc ≤ w
  deadline : deadlineOf db st'.store T key = some (PutInt64 w)
  time : ∀ u, st'.store.get (db.expEncodeTimeKey T.code key u) =
    if u = w then some (db.expEncodeMetaKey T.code key)
    else st.store.get (db.expEncodeTimeKey T.code key u)

theorem min_nc_le (nc w : Int64) : (if nc > w then w else nc) ≤ w := by
  split_ifs with h
  · exact Int64.le_refl w
  · exact Int64.not_lt.mp h

theorem AcceptsDeadline.of_store (hk : ValidKey key)
    (hm : ∀ u, m.get (db.expEncodeTimeKey T.code key u) =
      st.store.get (db.expEncodeTimeKey T.code key u))
    (hr : Reached (m.applyBatch (expireBatch db T key w))) :
    AcceptsDeadline db T key w st
      ⟨m.applyBatch (expireBatch db T key w), if nc > w then w else nc⟩ where
  reached := hr
  valid := hk
  nc := min_nc_le nc w
  deadline := by
    have h := deadlineOf_expireAt db m T key w T key
    rwa [if_pos ⟨rfl, rfl⟩] at h
  time u := by
    have h := get_time_expireAt db m T key w T key u
    simp only [true_and, hm u] at h
    exact h

theorem expireDuration_run {r : Ret Int64} {t : Txn}
    (hsize : (Op.lift (checkKeySize key) >>= f).Reads env st.store)
    (hrun : DB.expireDuration d (db.expireSized T.code key (Op.lift (checkKeySize key) >>= f)) env
      st.store ⟨[], st.nc⟩ = (.ok r, t)) :
    0 < d ∧ ValidKey key ∧ (r = .done 0 ∨ r = .commit 1 ∧
      t = ⟨expireBatch db T key (env.now + d),
        if st.nc > env.now + d then env.now + d else st.nc⟩) := by
  obtain ⟨hd, hsized⟩ := expireDuration_ok hrun
  refine ⟨Int64.not_le.mp hd, expireSized_ok hsized, ?_⟩
  obtain ⟨n, u, hn, hrest⟩ := Op.bind_ok.mp hsized
  rw [hsize] at hn
  obtain rfl := congrArg Prod.snd hn
  split_ifs at hrest with h0
  · cases hrest
    exact .inl rfl
  · cases hrest
    exact .inr ⟨rfl, rfl⟩

theorem expireDuration_one (hsize : (Op.lift (checkKeySize key) >>= f).Reads env st.store)
    (h : exec env (DB.expireDuration d
      (db.expireSized T.code key (Op.lift (checkKeySize key) >>= f))) st = (.ok 1, st')) :
    0 < d ∧ ValidKey key ∧
      st' = ⟨st.store.applyBatch (expireBatch db T key (env.now + d)),
        if st.nc > env.now + d then env.now + d else st.nc⟩ := by
  obtain ⟨t, hrun, rfl⟩ := exec_commit_ok (fun r t hrun => by
    obtain ⟨-, -, rfl | ⟨rfl, -⟩⟩ := expireDuration_run hsize hrun
    · rw [exec, hrun] at h
      cases h
    · exact ⟨1, rfl⟩) h
  obtain ⟨hd, hk, hcase | ⟨-, rfl⟩⟩ := expireDuration_run hsize hrun
  · cases hcase
  · exact ⟨hd, hk, rfl⟩

theorem SetEX_run {r : Ret Unit} {t : Txn}
    (hrun : db.SetEX key d value env st.store ⟨[], st.nc⟩ = (.ok r, t)) :
    r = .commit () ∧ t = ⟨.put (db.encodeKVKey key) value :: expireBatch db .KV key (env.now + d),
      if st.nc > env.now + d then env.now + d else st.nc⟩ := by
  obtain ⟨_, _, h1, hrun⟩ := Op.bind_ok.mp hrun
  obtain ⟨-, rfl⟩ := Op.lift_ok.mp h1
  obtain ⟨_, _, h2, hrun⟩ := Op.bind_ok.mp hrun
  obtain ⟨-, rfl⟩ := Op.lift_ok.mp h2
  split_ifs at hrun
  · cases hrun
  · cases hrun
    exact ⟨rfl, rfl⟩

theorem expireOf_reached (hr : Reached st.store) (db : DB) (env : Env) (T : DataType) (key : Bytes)
    (d : Int64) : Reached (exec env (db.expireOf T key d) st).2.store := by
  cases T with
  | KV => exact hr.exec env (c := .Expire key d) rfl
  | LIST => exact hr.exec env (c := .LExpire key d) rfl
  | HASH => exact hr.exec env (c := .HExpire key d) rfl
  | SET => exact hr.exec env (c := .SExpire key d) rfl
  | ZSET => exact hr.exec env (c := .ZExpire key d) rfl

theorem expireOf_one (h : exec env (db.expireOf T key d) st = (.ok 1, st')) :
    0 < d ∧ ValidKey key ∧
      st' = ⟨st.store.applyBatch (expireBatch db T key (env.now + d)),
        if st.nc > env.now + d then env.now + d else st.nc⟩ := by
  cases T with
  | KV => exact expireDuration_one (keyExists_reads _ _) h
  | LIST => exact expireDuration_one LLen_reads h
  | HASH | SET | ZSET => exact expireDuration_one (readSize_reads _ _) h

theorem DurationCall.Succeeds.accepts {x : DurationCall} (hr : Reached st.store)
    (h : x.Succeeds db env st st') :
    0 < x.duration ∧ AcceptsDeadline db x.type x.key (env.now + x.duration) st st' := by
  cases x with
  | expire T key d =>
    have hreach := expireOf_reached hr db env T key d
    rw [h] at hreach
    obtain ⟨hd, hk, rfl⟩ := expireOf_one h
    exact ⟨hd, .of_store hk (fun _ => rfl) hreach⟩
  | SetEX key d value =>
    have hreach : Reached (exec env (db.SetEX key d value) st).2.store :=
      hr.exec env (c := .SetEX key d value) rfl
    rw [h] at hreach
    obtain ⟨t, hrun, rfl⟩ := exec_commit_ok (fun r t hrun => ⟨(), (SetEX_run hrun).1⟩) h
    obtain ⟨hk, hd⟩ := SetEX_ok hrun
    obtain ⟨-, rfl⟩ := SetEX_run hrun
    -- the value of the string is no time entry
    have hvalue : ∀ u, (st.store.applyOp (.put (db.encodeKVKey key) value)).get
        (db.expEncodeTimeKey DataType.KV.code key u) =
        st.store.get (db.expEncodeTimeKey DataType.KV.code key u) := by
      intro u
      rw [get_applyOp, if_neg]
      exact fun he => (DataEntry.kv key).not_expire (he ▸ ExpireEntry.time u)
    exact ⟨Int64.not_le.mp hd, .of_store hk hvalue hreach⟩

theorem AcceptsDeadline.ttl (h : AcceptsDeadline db T key (now + d) st st') (h0 : 0 ≤ now)
    (hd : 0 < d) (hnow : now ≤ env.now) (ht : env.now.toInt < now.toInt + d.toInt) :
    ∃ n, (xttl db T key).eval env st'.store = .ok n ∧
      n.toInt = d.toInt - (env.now.toInt - now.toInt) := by
  have hrem := toInt_remaining h0 hd hnow ht
  have hpos : ¬ now + d - env.now ≤ 0 := by
    rw [Int64.le_iff_toInt_le, show (0 : Int64).toInt = 0 from rfl]
    omega
  have hne : now + d ≠ 0 := by
    intro hz
    have hsum := toNat_add_of_nonneg h0 (Int64.le_of_lt hd)
    rw [hz, show (0 : Int64).toUInt64.toNat = 0 from rfl] at hsum
    rw [Int64.le_iff_toInt_le, show (0 : Int64).toInt = 0 from rfl] at h0
    rw [Int64.lt_iff_toInt_lt, show (0 : Int64).toInt = 0 from rfl] at hd
    omega
  have hmeta : st'.store.get (db.expEncodeMetaKey T.code key) = some (PutInt64 (now + d)) :=
    h.deadline
  refine ⟨now + d - env.now, ?_, hrem⟩
  simp [Op.eval, xttl, checkKeySize_ok.mpr h.valid, DB.ttl, hmeta, hne, hpos]

theorem check_uncalled (hs : StoreWf st.store)
    (h : ∀ x ∈ (check db env st).2.2, ¬ (x.dataType = T.code ∧ x.key = key))
    (hE : Entry db T key ek) : (check db env st).2.1.store.get ek = st.store.get ek := by
  by_contra hdiff
  refine hdiff (check_frame hs fun x hx T' hT' hE' => h x hx ?_)
  have howner : db = db ∧ T = T' ∧ key = x.key := by
    cases hget : st.store.get ek with
    | some v => exact hs.owner_unique hget hE hE'
    | none =>
      cases hget' : (check db env st).2.1.store.get ek with
      | some v => exact (check_wf hs).owner_unique hget' hE hE'
      | none => exact absurd (hget'.trans hget.symm) hdiff
  exact ⟨hT'.symm.trans (congrArg _ howner.2.1.symm), howner.2.2.symm⟩

theorem checkLoop_uncalled {es : List (Bytes × Bytes)} (hes : Timed db es) (nc : Int64)
    (hs : StoreWf st.store) (hd : deadlineOf db st.store T key = some (PutInt64 w))
    (hsafe : env.now < w ∨
      ∀ u, (db.expEncodeTimeKey T.code key u, db.expEncodeMetaKey T.code key) ∉ es) :
    ∀ x ∈ (checkLoop db env es nc st).2.2, ¬ (x.dataType = T.code ∧ x.key = key) := by
  induction es generalizing st with
  | nil => exact fun _ hx => nomatch hx
  | cons e es ih =>
    obtain ⟨T', k', u, rfl, hrest⟩ := hes.uncons
    have hsafe' := hsafe.imp_right fun h u hin => h u (.tail _ hin)
    have hwf := expiry_wf db env hs T' k' u
    rw [checkLoop_cons]
    split_ifs
    · exact fun _ hx => nomatch hx
    by_cases hkey : T' = T ∧ k' = key
    · obtain ⟨rfl, rfl⟩ := hkey
      have hnow := hsafe.resolve_right fun h => h u (.head _)
      have hfalse : expiry db env T' k' u st = (.ok false, st) := by
        rcases expiry_cases db env st T' k' u with h | ⟨-, ⟨exp, hexp, hle⟩, -⟩
        · exact h
        · change decodeInt64 (deadlineOf db st.store T' k') = _ at hexp
          rw [hd, decodeInt64_PutInt64] at hexp
          cases hexp
          exact absurd hnow (Int64.not_lt.mpr hle)
      rw [hfalse]
      simpa using ih hrest hs hd hsafe'
    · have hne : T ≠ T' ∨ key ≠ k' := by
        by_cases hT : T = T'
        · exact .inr fun hk => hkey ⟨hT.symm, hk.symm⟩
        · exact .inl hT
      have hd' : deadlineOf db (expiry db env T' k' u st).2.store T key = some (PutInt64 w) :=
        (expiry_other hs u (.inr .expMeta) hne).trans hd
      have hother : ∀ x ∈ [(⟨T'.code, k', st.store⟩ : Expiry)],
          ¬ (x.dataType = T.code ∧ x.key = key) := by
        intro x hx hx'
        obtain rfl := List.mem_singleton.mp hx
        exact hkey ⟨DataType.code_inj hx'.1, hx'.2⟩
      generalize expiry db env T' k' u st = y at hwf hd'
      obtain ⟨r, st₁⟩ := y
      cases r with
      | error e => exact hother
      | ok called =>
        intro x hx
        rcases List.mem_append.mp hx with hx | hx
        · cases called with
          | false => cases hx
          | true => exact hother x hx
        · exact ih hrest hwf hd' hsafe' x hx

theorem check_trace : (check db env st).2.2 = if env.now < st.nc then []
    else (checkLoop db env (snapshot db env.now st.store) (env.now + 3600) st).2.2 := by
  unfold check
  split_ifs
  · rfl
  · dsimp only
    rw [snapshot, timeRange]
    split <;> simp_all

theorem mem_snapshot :
    (db.expEncodeTimeKey T.code key u, v) ∈ snapshot db t s ↔
      s.get (db.expEncodeTimeKey T.code key u) = some v ∧
        u.toUInt64.toNat ≤ (t + 3600).toUInt64.toNat := by
  rw [OrderedMap.mem_rangeLimit_all, belowMax_timeRange, aboveMin_timeRange]
  simp

theorem StoreWf.time_entry (hs : StoreWf s)
    (h : s.get (db.expEncodeTimeKey T.code key u) = some v) :
    v = db.expEncodeMetaKey T.code key := by
  cases hs _ v h with
  | data hst => exact absurd (.time u) hst.entry.not_expire
  | expMeta hk _ => exact absurd (DB.plainKey_inj.mp hk).2.1 (by decide)
  | time hk hv =>
    obtain rfl := (DB.plainKey_inj.mp hk).1
    obtain ⟨-, hT, rfl⟩ := DB.expEncodeTimeKey_inj.mp hk
    rw [hv, hT]

theorem horizon_toNat (h0 : 0 ≤ t) : ((t + 3600).toUInt64.toNat : ℤ) = t.toInt + 3600 :=
  toNat_add_of_nonneg h0 (by decide)

theorem AcceptsDeadline.uncalled (h : AcceptsDeadline db T key (now + d) st st') (h0 : 0 ≤ now)
    (hd : 0 < d) (hfits : DurationFits db T key now d st.store) (ht0 : 0 ≤ env.now)
    (ht : env.now.toInt < now.toInt + d.toInt) :
    ∀ x ∈ (check db env st').2.2, ¬ (x.dataType = T.code ∧ x.key = key) := by
  have hs := h.reached.wf
  have hsum := toNat_add_of_nonneg h0 (Int64.le_of_lt hd)
  rw [check_trace]
  split_ifs
  · exact fun _ hx => nomatch hx
  refine checkLoop_uncalled (snapshot_timed db env.now hs) _ hs h.deadline ?_
  rcases hfits with hfits | ⟨hlast, hold⟩
  · have hw := DB.toInt_eq_toNat (now + d)
    rw [Int64.lt_iff_toInt_lt]
    split_ifs at hw <;> omega
  · right
    intro u hin
    obtain ⟨hget, hle⟩ := mem_snapshot.mp hin
    have hhor := horizon_toNat ht0
    have hmax := Int64.toInt_lt env.now
    rw [h.time] at hget
    have hu : lastHorizon < u.toUInt64.toNat := by
      split_ifs at hget with huw
      · rw [huw]
        omega
      · exact hold u (by rw [hget]; exact nofun)
    unfold lastHorizon at hu
    omega

theorem AcceptsDeadline.expires (h : AcceptsDeadline db T key (now + d) st st') (h0 : 0 ≤ now)
    (hd : 0 < d) (hfits : ¬ DurationFits db T key now d st.store) :
    deadlineOf db (check db (Env.quiet Int64.maxValue) st').2.1.store T key = none := by
  have hs := h.reached.wf
  have hm := h.reached.proper
  have henv : (Env.quiet Int64.maxValue).Commits := ⟨rfl, fun _ _ => rfl⟩
  have hall := Int64.le_maxValue
  obtain ⟨u, hget, hu⟩ : ∃ u : Int64,
      st'.store.get (db.expEncodeTimeKey T.code key u) = some (db.expEncodeMetaKey T.code key) ∧
        u.toUInt64.toNat ≤ lastHorizon := by
    by_cases hlast : lastHorizon < now.toInt + d.toInt
    · have hold : ¬ ∀ u : Int64, st.store.get (db.expEncodeTimeKey T.code key u) ≠ none →
          lastHorizon < u.toUInt64.toNat := fun hold => hfits (.inr ⟨hlast, hold⟩)
      push Not at hold
      obtain ⟨u, hu, hle⟩ := hold
      have htime : st'.store.get (db.expEncodeTimeKey T.code key u) ≠ none := by
        rw [h.time]
        split_ifs
        · exact nofun
        · exact hu
      obtain ⟨v, hv⟩ := Option.ne_none_iff_exists'.mp htime
      exact ⟨u, hs.time_entry hv ▸ hv, hle⟩
    · have hsum := toNat_add_of_nonneg h0 (Int64.le_of_lt hd)
      exact ⟨now + d, by rw [h.time, if_pos rfl], by omega⟩
  obtain ⟨n, hn⟩ := checkLoop_returns (Env.quiet Int64.maxValue)
    (snapshot_timed db Int64.maxValue hs) (Int64.maxValue + 3600) hs hm
  obtain ⟨-, hcheck⟩ := @check_eq_checkLoop db (Env.quiet Int64.maxValue) st' (hall st'.nc) n hn
  rw [hcheck]
  refine (checkLoop_meets henv hs hm h.valid.2 h.deadline (by decide) (hall _) (hall u) ?_
    (fun _ _ u' _ => hall u') _).1
  exact mem_snapshot.mpr ⟨hget, hu.trans (by decide)⟩

/-- A duration that a call accepts is the TTL from then on, and no check before its end deletes
the key, exactly when the sum with the clock fits or lies where no check comes. -/
theorem accepted_duration_iff {x : DurationCall} (hr : Reached st.store) (h0 : 0 ≤ env.now)
    (h : x.Succeeds db env st st') :
    DurationIsTTL db x.type x.key env.now x.duration st' ↔
      DurationFits db x.type x.key env.now x.duration st.store := by
  obtain ⟨hd, hacc⟩ := h.accepts hr
  constructor
  · intro httl
    by_contra hfits
    have hpast : Int64.maxValue.toInt < env.now.toInt + x.duration.toInt := by
      have hlt : ¬ env.now.toInt + x.duration.toInt < 2 ^ 63 := fun hlt => hfits (.inl hlt)
      rw [show Int64.maxValue.toInt = 2 ^ 63 - 1 from rfl]
      omega
    have hsame := httl.entries (Env.quiet Int64.maxValue) (by decide) hpast _ (.inr .expMeta)
    have hgone := hacc.expires h0 hd hfits
    rw [deadlineOf, hsame] at hgone
    cases hacc.deadline.symm.trans hgone
  · intro hfits
    have huncalled : ∀ env' : Env, 0 ≤ env'.now →
        env'.now.toInt < env.now.toInt + x.duration.toInt → ∀ y ∈ (check db env' st').2.2,
          ¬ (y.dataType = x.type.code ∧ y.key = x.key) :=
      fun env' ht0 ht => hacc.uncalled h0 hd hfits ht0 ht
    exact ⟨fun env' hnow ht => hacc.ttl h0 hd hnow ht, huncalled, fun env' ht0 ht ek hek =>
      check_uncalled hacc.reached.wf (huncalled env' ht0 ht) hek⟩

end

theorem accepted_duration_ten : DurationIsTTL DB.zero .KV [107] 100 10
    (exec (Env.quiet 100) (DB.zero.Expire [107] 10) (oneString [118])).2 :=
  (accepted_duration_iff (x := .expire .KV [107] 10) (oneString_reached [118])
    (show 0 ≤ (Env.quiet 100).now by decide) (Prod.ext (by decide) rfl)).mpr
    (Or.inl (by decide))

theorem accepted_duration_wraps : ∃ st st' : State, Reached st.store ∧
    (DurationCall.expire .KV [107] Int64.maxValue).Succeeds DB.zero (Env.quiet 105) st st' ∧
    (xttl DB.zero .KV [107]).eval (Env.quiet 105) st'.store = .ok Int64.maxValue ∧
    st'.store.get (DB.zero.encodeKVKey [107]) = some [118] ∧
    (check DB.zero (Env.quiet 110) st').2.1.store.get (DB.zero.encodeKVKey [107]) = none := by
  refine ⟨(exec (Env.quiet 100) (DB.zero.Expire [107] 10) (oneString [118])).2,
    (exec (Env.quiet 105) (DB.zero.Expire [107] Int64.maxValue)
      (exec (Env.quiet 100) (DB.zero.Expire [107] 10) (oneString [118])).2).2,
    expireOf_reached (oneString_reached [118]) DB.zero (Env.quiet 100) .KV [107] 10,
    Prod.ext (by decide) rfl, by decide, by decide, by decide⟩

end LedisDB
