import LedisDB.WriteEffects

/-!
# Isolation of databases, types and keys

On a store that holds only entries ledis writes, a write changes no entry
outside those of the keys it is addressed to, and a TTL check changes no entry
outside those of the keys whose callbacks it makes. Both keep the store
well formed.
-/

namespace LedisDB

section
variable {db : DB} {env : Env} {s m : Store} {T : DataType} {A : Bytes → Prop}
  {D : Option (Bytes × Int64)} {b : Batch}

theorem Emits.frame {ek : Bytes} (hb : Emits db s T A D b) (hek : ∀ k, A k → ¬ Entry db T k ek) :
    ∀ o ∈ b, o.key ≠ ek := by
  induction hb with
  | nil => simp
  | put hk he _ ih =>
    rintro o (_ | ⟨_, ho⟩) rfl
    · exact hek _ hk (.inl he.stored.entry)
    · exact ih o ho rfl
  | delete hk he _ ih =>
    rintro o (_ | ⟨_, ho⟩) rfl
    · exact hek _ hk (.inl he)
    · exact ih o ho rfl
  | rmExpire hk hv hw _ ih =>
    rintro o (_ | ⟨_, _ | ⟨_, ho⟩⟩) rfl
    · exact hek _ hk (.inr .expMeta)
    · exact hek _ hk (.inr (.time _))
    · exact ih o ho rfl
  | expireAt hk hD _ ih =>
    rintro o (_ | ⟨_, _ | ⟨_, ho⟩⟩) rfl
    · exact hek _ hk (.inr (.time _))
    · exact hek _ hk (.inr .expMeta)
    · exact ih o ho rfl

theorem StoreWf.put (hm : StoreWf m) {ek v : Bytes} (h : WfEntry ek v) :
    StoreWf (m.applyOp (.put ek v)) := by
  intro x u hx
  rw [get_applyOp] at hx
  split_ifs at hx with heq
  · subst heq
    cases hx
    exact h
  · exact hm x u hx

theorem StoreWf.delete (hm : StoreWf m) (ek : Bytes) : StoreWf (m.applyOp (.delete ek)) := by
  intro x u hx
  rw [get_applyOp] at hx
  split_ifs at hx with heq
  · cases hx
  · exact hm x u hx

theorem Emits.wf (hb : Emits db s T A D b) (hm : StoreWf m) : StoreWf (m.applyBatch b) := by
  induction hb generalizing m with
  | nil => exact hm
  | put hk he _ ih => exact ih (hm.put (.data he.stored))
  | delete hk he _ ih => exact ih (hm.delete _)
  | rmExpire hk hv hw _ ih => exact ih ((hm.delete _).delete _)
  | expireAt hk hD _ ih => exact ih ((hm.put (.time rfl rfl)).put (.expMeta rfl rfl))

end

theorem same_of_frame {db db' : DB} {s s' : Store} {T T' : DataType} {A : Bytes → Prop}
    {K ek : Bytes} (hs : StoreWf s) (hs' : StoreWf s')
    (hframe : (∀ k, A k → ¬ Entry db T k ek) → s'.get ek = s.get ek) (hE : Entry db' T' K ek)
    (hne : db' ≠ db ∨ T' ≠ T ∨ ¬ A K) : s'.get ek = s.get ek := by
  by_contra hdiff
  have howned : ∃ k, A k ∧ Entry db T k ek := by
    by_contra hno
    exact hdiff (hframe fun k hk he => hno ⟨k, hk, he⟩)
  obtain ⟨k, hk, he⟩ := howned
  have huniq : db' = db ∧ T' = T ∧ K = k := by
    cases hget : s.get ek with
    | some v => exact hs.owner_unique hget hE he
    | none =>
      cases hget' : s'.get ek with
      | some v => exact hs'.owner_unique hget' hE he
      | none => exact absurd (hget'.trans hget.symm) hdiff
  obtain ⟨rfl, rfl, rfl⟩ := huniq
  rcases hne with h | h | h
  · exact h rfl
  · exact h rfl
  · exact h hk

section
variable {db : DB} {env : Env} {st : State} {ek k K : Bytes} {I : Store → Prop}
  {es : List (Bytes × Bytes)}

theorem write_frame (hs : StoreWf st.store) (c : Write)
    (hek : ∀ k ∈ c.keys, ¬ Entry db c.type k ek) :
    (exec env (c.body db) st).2.store.get ek = st.store.get ek := by
  rcases exec_store_of_queues (c.emits db env hs) with h | ⟨b, hb, h⟩
  · rw [h]
  · rw [h, get_applyBatch_of_not_mem _ (hb.frame hek)]

theorem write_wf (hs : StoreWf st.store) (c : Write) :
    StoreWf (exec env (c.body db) st).2.store := by
  rcases exec_store_of_queues (c.emits db env hs) with h | ⟨b, hb, h⟩
  · rwa [h]
  · rw [h]
    exact hb.wf hs

theorem write_other (hs : StoreWf st.store) (c : Write) {T : DataType} {K ek : Bytes}
    (hE : Entry db T K ek) (hne : T ≠ c.type ∨ K ∉ c.keys) :
    (exec env (c.body db) st).2.store.get ek = st.store.get ek :=
  same_of_frame hs (write_wf hs c) (A := (· ∈ c.keys)) (write_frame hs c) hE (Or.inr hne)

theorem code_lt_maxDataType (T : DataType) : ¬ T.code ≥ maxDataType := by
  cases T <;> decide

def Timed (db : DB) (es : List (Bytes × Bytes)) : Prop :=
  ∀ e ∈ es, ∃ (T : DataType) (k : Bytes) (w : Int64),
    e.1 = db.expEncodeTimeKey T.code k w ∧ e.2 = db.expEncodeMetaKey T.code k

theorem Timed.uncons {e : Bytes × Bytes} {es : List (Bytes × Bytes)} (h : Timed db (e :: es)) :
    ∃ (T : DataType) (k : Bytes) (w : Int64),
      e = (db.expEncodeTimeKey T.code k w, db.expEncodeMetaKey T.code k) ∧ Timed db es := by
  obtain ⟨T, k, w, h1, h2⟩ := h e (.head _)
  exact ⟨T, k, w, Prod.ext h1 h2, fun e' he => h e' (.tail _ he)⟩

theorem StoreWf.timed {s : Store} (hs : StoreWf s) {a b : Bytes} {t : UInt8} {l : Limit} :
    Timed db (s.rangeLimit
      ⟨some (db.plainKey ExpTimeType a), some (db.plainKey ExpTimeType b), t⟩ l .forward) := by
  intro e he
  obtain ⟨hget, hmin, hmax⟩ := OrderedMap.mem_rangeLimit he
  have hl := Range.le_of_aboveMin rfl hmin
  have hu := Range.le_of_belowMax rfl hmax
  rw [← List.nil_append a, DB.plainKey_append] at hl
  rw [← List.nil_append b, DB.plainKey_append] at hu
  have hp := Lexicographic.prefix_of_between hl hu
  cases hs _ _ hget with
  | @data db' T k h =>
    obtain ⟨-, ht, -, hi⟩ := DataType.not_expire
    rcases h.entry.form with hek | ⟨t, hti, r, hek⟩ <;> rw [hek] at hp <;>
      obtain ⟨-, hT, -⟩ := DB.plainKey_prefix hp
    · exact absurd hT.symm ht
    · exact absurd (hT ▸ hti) hi
  | expMeta hk hv =>
    rw [hk] at hp
    exact absurd (DB.plainKey_prefix hp).2.1 (by decide)
  | @time db' T k w hk hv =>
    rw [hk] at hp
    obtain ⟨rfl, -, -⟩ := DB.plainKey_prefix hp
    exact ⟨T, k, w, hk, hv⟩

def expiry (db : DB) (env : Env) (T : DataType) (k : Bytes) (w : Int64) (st : State) :
    Except Err Bool × State :=
  match onExpired db T.code with
  | none => (.ok false, st)
  | some cb => exec env (checkKey cb (db.expEncodeTimeKey T.code k w)
      (db.expEncodeMetaKey T.code k) k) st

theorem expiry_cases (db : DB) (env : Env) (st : State) (T : DataType) (k : Bytes) (w : Int64) :
    (expiry db env T k w st = (.ok false, st)) ∨
    ((expiry db env T k w st).1 ≠ .ok false ∧
      (∃ exp, decodeInt64 (st.store.get (db.expEncodeMetaKey T.code k)) = .ok exp ∧ exp ≤ env.now) ∧
      ((expiry db env T k w st).2.store = st.store ∨
        ∃ n t, db.deleteFunc T k env st.store ⟨[], st.nc⟩ = (.ok n, t) ∧
          (expiry db env T k w st).2.store =
            st.store.applyBatch (t.batch ++ [.delete (db.expEncodeTimeKey T.code k w),
              .delete (db.expEncodeMetaKey T.code k)]))) := by
  simp only [expiry, onExpired_deleteFunc]
  cases hd : decodeInt64 (st.store.get (db.expEncodeMetaKey T.code k)) with
  | error e =>
    simp [exec, checkKey, hd]
  | ok exp =>
    by_cases hle : exp ≤ env.now
    · right
      rcases hr : db.deleteFunc T k env st.store ⟨[], st.nc⟩ with ⟨r, t⟩
      refine ⟨?_, ⟨exp, rfl, hle⟩, ?_⟩
      · cases r with
        | error e => simp [exec, checkKey, hd, hle, hr]
        | ok n =>
          simp only [exec, checkKey, hd, hle, hr, Op.bind_run, Op.get_run, Op.now_run, if_true,
            Op.delete_run, Op.pure_run]
          split <;> simp
      · cases r with
        | error e =>
          simp [exec, checkKey, hd, hle, hr]
        | ok n =>
          rcases exec_store env (checkKey (db.deleteFunc T) (db.expEncodeTimeKey T.code k w)
            (db.expEncodeMetaKey T.code k) k) st with h | h
          · exact .inl h
          · rw [h]
            simp [checkKey, hd, hle, hr]
    · simp [exec, checkKey, hd, hle]

theorem expiry_store_of_queues {T : DataType} {P : Batch → Prop}
    (h : (db.deleteFunc T k).Queues env st.store P) (w : Int64) :
    (expiry db env T k w st).2.store = st.store ∨
      ∃ b, P b ∧ (expiry db env T k w st).2.store =
        st.store.applyBatch (b ++ [.delete (db.expEncodeTimeKey T.code k w),
          .delete (db.expEncodeMetaKey T.code k)]) := by
  rcases expiry_cases db env st T k w with h' | ⟨-, -, h' | ⟨n, t, hr, h'⟩⟩
  · exact .inl (by rw [h'])
  · exact .inl h'
  · obtain ⟨b, hb, hP⟩ := h ⟨[], st.nc⟩
    rw [hr] at hb
    exact .inr ⟨b, hP, by rw [h', hb, List.nil_append]⟩

theorem expiry_wf (db : DB) (env : Env) (hs : StoreWf st.store) (T : DataType) (k : Bytes)
    (w : Int64) : StoreWf (expiry db env T k w st).2.store := by
  rcases expiry_store_of_queues (deleteFunc_emits hs T k) w with h | ⟨b, hb, h⟩
  · rwa [h]
  · rw [h, applyBatch_append]
    exact ((hb.wf hs).delete _).delete _

theorem expiry_frame (hs : StoreWf st.store) {T : DataType} {k : Bytes} (w : Int64) {ek : Bytes}
    (hek : ¬ Entry db T k ek) : (expiry db env T k w st).2.store.get ek = st.store.get ek := by
  rcases expiry_store_of_queues (deleteFunc_emits hs T k) w with h | ⟨b, hb, h⟩
  · rw [h]
  · rw [h, get_applyBatch_of_not_mem]
    intro o ho
    rcases List.mem_append.mp ho with ho | ho
    · exact hb.frame (fun k' hk' => hk' ▸ hek) o ho
    · rintro rfl
      simp only [List.mem_cons, List.not_mem_nil, or_false] at ho
      rcases ho with rfl | rfl
      · exact hek (.inr (.time w))
      · exact hek (.inr .expMeta)

theorem expiry_other (hs : StoreWf st.store) {T : DataType} (w : Int64) {T' : DataType}
    (hE : Entry db T' K ek) (hne : T' ≠ T ∨ K ≠ k) :
    (expiry db env T k w st).2.store.get ek = st.store.get ek :=
  same_of_frame hs (expiry_wf db env hs T k w) (A := (· = k))
    (fun h => expiry_frame hs w (h k rfl)) hE (Or.inr hne)

theorem checkLoop_cons (T : DataType) (k : Bytes) (w : Int64) (es : List (Bytes × Bytes))
    (nc : Int64) :
    checkLoop db env ((db.expEncodeTimeKey T.code k w, db.expEncodeMetaKey T.code k) :: es) nc st =
      if w > env.now then (.ok w, st, [])
      else match expiry db env T k w st with
        | (.error e, st') => (.error e, st', [⟨T.code, k, st.store⟩])
        | (.ok called, st') =>
          let rest := checkLoop db env es nc st'
          (rest.1, rest.2.1, (if called then [⟨T.code, k, st.store⟩] else []) ++ rest.2.2) := by
  have hcb := onExpired_deleteFunc db T
  rw [checkLoop, DB.expDecodeTimeKey_expEncodeTimeKey]
  generalize hr : expiry db env T k w st = r
  simp only [expiry, hcb] at hr
  rcases r with ⟨_ | _, st'⟩ <;> simp [code_lt_maxDataType, hcb, hr]

theorem checkLoop_induction (hstep : ∀ st T k w, I st.store → I (expiry db env T k w st).2.store)
    (hes : Timed db es) (nc : Int64) (h0 : I st.store) :
    I (checkLoop db env es nc st).2.1.store := by
  induction es generalizing st with
  | nil => exact h0
  | cons e es ih =>
    obtain ⟨T, k, w, rfl, hrest⟩ := hes.uncons
    have hI := hstep st T k w h0
    rw [checkLoop_cons]
    split_ifs
    · exact h0
    · generalize expiry db env T k w st = x at hI ⊢
      obtain ⟨r, st'⟩ := x
      cases r with
      | error e => exact hI
      | ok called => exact ih hrest hI

theorem checkLoop_frame (hes : Timed db es) (nc : Int64) (hs : StoreWf st.store)
    (hek : ∀ x ∈ (checkLoop db env es nc st).2.2, ∀ T : DataType, T.code = x.dataType →
      ¬ Entry db T x.key ek) : (checkLoop db env es nc st).2.1.store.get ek = st.store.get ek := by
  induction es generalizing st with
  | nil => rfl
  | cons e es ih =>
    obtain ⟨T, k, w, rfl, hrest⟩ := hes.uncons
    have hwf := expiry_wf db env hs T k w
    have hcases := expiry_cases db env st T k w
    have hframe := @expiry_frame db env st hs T k w ek
    rw [checkLoop_cons] at hek ⊢
    split_ifs at hek ⊢
    · rfl
    · generalize expiry db env T k w st = x at hwf hcases hframe hek ⊢
      obtain ⟨r, st'⟩ := x
      cases r with
      | error e => exact hframe (hek _ (List.mem_singleton_self _) T rfl)
      | ok called =>
        have hst' : st'.store.get ek = st.store.get ek := by
          cases called with
          | false =>
            rcases hcases with h | ⟨h, -⟩
            · cases h
              rfl
            · exact absurd rfl h
          | true => exact hframe (hek ⟨T.code, k, st.store⟩ (by simp) T rfl)
        rw [← hst']
        exact ih hrest hwf fun x hx => hek x (List.mem_append_right _ hx)

theorem check_store (hs : StoreWf st.store) : ∃ es nc, Timed db es ∧
    ((check db env st).2.1.store = st.store ∧ (check db env st).2.2 = [] ∨
      (check db env st).2.1.store = (checkLoop db env es nc st).2.1.store ∧
        (check db env st).2.2 = (checkLoop db env es nc st).2.2) := by
  refine ⟨_, env.now + 3600, hs.timed
    (a := beBytes 8 (0 : Int64).toUInt64.toNat ++ [NoneType])
    (b := beBytes 8 (env.now + 3600).toUInt64.toNat ++ [maxDataType])
    (t := RangeROpen) (l := ⟨0, -1⟩), ?_⟩
  unfold check
  by_cases hnc : env.now < st.nc
  · simp [hnc]
  · simp only [hnc, if_false]
    split <;> simp_all [DB.expEncodeTimeKey]

theorem check_induction
    (hstep : ∀ st T k w, StoreWf st.store → I st.store → I (expiry db env T k w st).2.store)
    (hs : StoreWf st.store) (h : I st.store) :
    StoreWf (check db env st).2.1.store ∧ I (check db env st).2.1.store := by
  obtain ⟨es, nc, hes, ⟨heq, -⟩ | ⟨heq, -⟩⟩ := check_store hs
  · rw [heq]
    exact ⟨hs, h⟩
  · rw [heq]
    exact checkLoop_induction (I := fun s => StoreWf s ∧ I s)
      (fun st T k w hI => ⟨expiry_wf db env hI.1 T k w, hstep st T k w hI.1 hI.2⟩) hes nc ⟨hs, h⟩

theorem check_wf (hs : StoreWf st.store) : StoreWf (check db env st).2.1.store :=
  (check_induction (I := fun _ => True) (fun _ _ _ _ _ _ => trivial) hs trivial).1

theorem check_frame (hs : StoreWf st.store)
    (hek : ∀ x ∈ (check db env st).2.2, ∀ T : DataType, T.code = x.dataType →
      ¬ Entry db T x.key ek) : (check db env st).2.1.store.get ek = st.store.get ek := by
  obtain ⟨es, nc, hes, ⟨h, -⟩ | ⟨h, ht⟩⟩ := check_store hs
  · rw [h]
  · rw [h]
    exact checkLoop_frame hes nc hs (ht ▸ hek)

theorem step_wf (hs : StoreWf st.store) (c : Call) : StoreWf (c.step db env st).2.1.store := by
  cases c with
  | write w => exact write_wf hs w
  | check => exact check_wf hs

theorem run_wf (db : DB) (cs : List (Env × Call)) : StoreWf (run db cs State.empty).store :=
  run_induction (I := fun st => StoreWf st.store) (C := fun _ _ _ => True)
    (fun _ _ c h _ => step_wf h c) StoreWf.empty (allSteps_true db cs State.empty)

/-- The keys a call works on: those it is addressed to, or those a check expires. -/
def Call.Addresses (db : DB) (env : Env) (st : State) (T : DataType) (k : Bytes) : Call → Prop
  | .write w => T = w.type ∧ k ∈ w.keys
  | .check => ∃ x ∈ (LedisDB.check db env st).2.2, T.code = x.dataType ∧ k = x.key

/-- A call changes only entries of the keys it works on, and no entry belongs to two
databases, types or keys. -/
theorem call_isolated (db : DB) (env : Env) (st : State) (hs : StoreWf st.store) (c : Call) :
    (∀ ek, (∀ T k, c.Addresses db env st T k → ¬ Entry db T k ek) →
      (c.step db env st).2.1.store.get ek = st.store.get ek) ∧
    StoreWf (c.step db env st).2.1.store ∧
    (∀ (db' : DB) (T T' : DataType) (k k' ek : Bytes), k.length ≤ DB.MaxUint16 →
      k'.length ≤ DB.MaxUint16 → Entry db T k ek → Entry db' T' k' ek →
      db = db' ∧ T = T' ∧ k = k') := by
  refine ⟨fun ek hek => ?_, step_wf hs c, fun _ _ _ _ _ _ hk hk' h h' => h.unique hk hk' h'⟩
  cases c with
  | write w => exact write_frame hs w fun k hk => hek w.type k ⟨rfl, hk⟩
  | check =>
    exact check_frame hs fun x hx T hT => hek T x.key ⟨x, hx, hT, rfl⟩

theorem call_isolated_del :
    ((Call.write (.Del [[107]])).step DB.zero (Env.quiet 0)
      (run ⟨1, by decide⟩ [(Env.quiet 0, .write (.Set [107] [118]))] State.empty)).2.1.store.get
        (DB.encodeKVKey ⟨1, by decide⟩ [107]) = some [118] := by
  rw [(call_isolated DB.zero (Env.quiet 0) _ (run_wf _ _) (.write (.Del [[107]]))).1]
  · decide
  · rintro T k ⟨-, hk⟩ h
    obtain rfl : k = [107] := by simpa [Write.keys] using hk
    have hdb := (h.unique (by decide) (by decide) (.inl (DataEntry.kv [107]))).1
    exact absurd (congrArg DB.index hdb) (by decide)

theorem stray_entry_removed :
    ∃ (db : DB) (env : Env) (st : State) (c : Write) (ek : Bytes),
      (∀ k ∈ c.keys, ¬ Entry db c.type k ek) ∧
      (exec env (c.body db) st).2.store.get ek ≠ st.store.get ek := by
  refine ⟨DB.zero, Env.quiet 0, ⟨OrderedMap.empty.insert (DB.zero.zEncodeStopSetKey [107]) [], 0⟩,
    .ZRemRangeByLex [107] none none RangeClose, DB.zero.zEncodeStopSetKey [107], ?_, by decide⟩
  intro k hk h
  obtain rfl : k = [107] := by simpa [Write.keys] using hk
  generalize hek : DB.zero.zEncodeStopSetKey [107] = ek at h
  have hstop : DB.zero.zEncodeStopSetKey [107] = DB.zero.itemKey ZSetType [107] [59] := by decide
  rw [hstop] at hek
  rcases h with h | h
  · cases h with
    | zsize | zscore => exact absurd (DB.plainKey_inj.mp hek).2.1 (by decide)
    | zmember _ m =>
      obtain ⟨-, -, -, hr⟩ := (DB.itemKey_inj (by decide) (by decide)).mp hek
      exact absurd (List.cons.inj hr).1 (by decide)
  · cases h <;> exact absurd (DB.plainKey_inj.mp hek).2.1 (by decide)

end

end LedisDB
