import LedisDB.Call
import LedisDB.Reads

/-!
# What a write reports about its batch

The writes of one type queue into a batch that the type shares. `Commit` leaves
that batch as it is, and the deferred `Unlock` rolls it back on every path. A
write that returns nil should have applied its queue, and one that returns an
error should have left the store. `SetNX` and `Append` do not return the error
of their commit.
-/

namespace LedisDB

namespace Op

variable {α γ : Type} {env : Env} {s : Store} {c : Prop}

def Commits (x : Op (Ret α)) (env : Env) (s : Store) : Prop :=
  ∀ t r t', x env s t = (.ok r, t') → ∃ a, r = .commit a

/-- A body that ends in a commit whose error it returns, or ends without one and
has then queued nothing. -/
def Reports (x : Op (Ret α)) (env : Env) (s : Store) : Prop :=
  ∀ t r t', x env s t = (.ok r, t') → (∃ a, r = .commit a) ∨ (∃ a, r = .done a) ∧ t'.batch = t.batch

theorem Reports.of_commits {x : Op (Ret α)} (h : x.Commits env s) : x.Reports env s :=
  fun t r t' hx => Or.inl (h t r t' hx)

theorem Commits.commit (a : α) : (pure (.commit a) : Op (Ret α)).Commits env s := by
  intro t r t' h
  exact ⟨a, (Except.ok.inj (Prod.mk.inj h).1).symm⟩

theorem Commits.throw (e : Err) : (Op.throw e : Op (Ret α)).Commits env s := by
  intro t r t' h
  cases (Prod.mk.inj h).1

theorem Commits.bind {x : Op γ} {f : γ → Op (Ret α)} (h : ∀ a, (f a).Commits env s) :
    (x >>= f).Commits env s := by
  intro t r t' hx
  obtain ⟨a, u, -, hf⟩ := bind_ok.mp hx
  exact h a u r t' hf

theorem Commits.ite [Decidable c] {x y : Op (Ret α)} (hx : x.Commits env s) (hy : y.Commits env s) :
    (if c then x else y).Commits env s := by
  split_ifs
  · exact hx
  · exact hy

theorem Reports.done (a : α) : (pure (.done a) : Op (Ret α)).Reports env s := by
  intro t r t' h
  obtain ⟨hr, rfl⟩ := Prod.mk.inj h
  exact .inr ⟨⟨a, (Except.ok.inj hr).symm⟩, rfl⟩

theorem Reports.throw (e : Err) : (Op.throw e : Op (Ret α)).Reports env s := .of_commits (.throw e)

theorem Reports.bind {x : Op γ} {f : γ → Op (Ret α)} (hx : x.Reads env s)
    (h : ∀ a, (f a).Reports env s) : (x >>= f).Reports env s := by
  intro t r t' hr
  obtain ⟨a, u, hxt, hf⟩ := bind_ok.mp hr
  obtain ⟨-, rfl⟩ := hx.ok hxt
  exact h a _ r t' hf

theorem Reports.lift_bind {x : Except Err γ} {f : γ → Op (Ret α)}
    (h : ∀ a, x = .ok a → (f a).Reports env s) : (Op.lift x >>= f).Reports env s := by
  intro t r t' hr
  obtain ⟨a, u, hx, hf⟩ := bind_ok.mp hr
  obtain ⟨ha, rfl⟩ := lift_ok.mp hx
  exact h a ha _ r t' hf

theorem Reports.get_bind {k : Bytes} {f : Option Bytes → Op (Ret α)}
    (h : (f (s.get k)).Reports env s) : (Op.get k >>= f).Reports env s := h

theorem Reports.ite [Decidable c] {x y : Op (Ret α)} (hx : x.Reports env s) (hy : y.Reports env s) :
    (if c then x else y).Reports env s := by
  split_ifs
  · exact hx
  · exact hy

theorem Reports.discard {x : Op (Ret α)} (hx : x.Reports env s) : x.discard.Reports env s := by
  intro t r t' h
  obtain ⟨a, u, hxt, hp⟩ := bind_ok.mp h
  obtain ⟨hr, rfl⟩ := Prod.mk.inj hp
  obtain rfl := Except.ok.inj hr
  rcases hx t a _ hxt with ⟨b, rfl⟩ | ⟨⟨b, rfl⟩, hb⟩
  · exact .inl ⟨(), rfl⟩
  · exact .inr ⟨⟨(), rfl⟩, hb⟩

theorem Commits.discard {x : Op (Ret α)} (hx : x.Commits env s) : x.discard.Reports env s :=
  (Reports.of_commits hx).discard

theorem Reports.exec_ok {x : Op (Ret α)} {st : State} {a : α} (hx : x.Reports env st.store)
    (h : (exec env x st).1 = .ok a) :
    (exec env x st).2.store = st.store.applyBatch (x env st.store ⟨[], st.nc⟩).2.batch := by
  rw [exec] at h ⊢
  rcases hrun : x env st.store ⟨[], st.nc⟩ with ⟨r, t⟩
  rw [hrun] at h
  cases r with
  | error e => cases h
  | ok r =>
    rcases hx _ r t hrun with ⟨b, rfl⟩ | ⟨⟨b, rfl⟩, hb⟩
    · cases hc : commit env st.store t.batch with
      | error e => simp [hc] at h
      | ok s' => simp [hc, commit_ok hc]
    · simp [hb]

end Op

variable (db : DB) (env : Env) (dataType : UInt8) (key : Bytes)

def Refused (s : Store) (b : Batch) : Prop :=
  env.readonly = true ∨ (env.commitErr s b).isSome

theorem commit_error_iff {env : Env} {s : Store} {b : Batch} :
    (∃ e, commit env s b = .error e) ↔ Refused env s b := by
  unfold commit Refused
  cases env.readonly with
  | true => simp
  | false => cases env.commitErr s b <;> simp

section
variable {db : DB} {env : Env} {s : Store} {f : Int64 → Op (Ret Int64)}

theorem incr_commits (delta : Int64) : (db.incr key delta).Commits env s :=
  .bind fun _ => .bind fun _ => .bind fun _ => .bind fun _ => .commit _

theorem persist_commits : (db.persist dataType key).Commits env s :=
  .bind fun _ => .bind fun _ => .commit _

theorem clear_commits (del : Bytes → Op Int64) (key : Bytes) :
    (db.clear dataType del key).Commits env s :=
  .bind fun _ => .bind fun _ => .bind fun _ => .commit _

theorem mclear_commits (del : Bytes → Op Int64) (keys : List Bytes) :
    (db.mclear dataType del keys).Commits env s :=
  .bind fun _ => .commit _

theorem ltrim2_commits (start stop : Int64) : (db.ltrim2 key start stop).Commits env s :=
  .bind fun _ => .bind fun _ => .ite (.bind fun _ => .bind fun _ => .commit _)
    (.bind fun _ => .bind fun _ => .bind fun _ => .commit _)

theorem sStoreGeneric_commits (dstKey : Bytes) (optType : SetOpt) (keys : List Bytes) :
    (db.sStoreGeneric dstKey optType keys).Commits env s :=
  .bind fun _ => .bind fun _ => .bind fun _ => .bind fun _ => .bind fun _ => .commit _

theorem zStore_commits (destKey : Bytes) (destMap : DB.ScoreMap) :
    (db.zStore destKey destMap).Commits env s :=
  .bind fun _ => .bind fun _ => .bind fun _ => .bind fun _ => .commit _

theorem ZIncrBy_commits (delta : Int64) (member : Bytes) :
    (db.ZIncrBy key delta member).Commits env s :=
  .bind fun _ => .bind fun _ => .bind fun _ => .ite (.throw _)
    (.bind fun _ => .bind fun _ => .bind fun _ => .commit _)

theorem ZInterStore_commits (destKey : Bytes) (srcKeys : List Bytes)
    (weights : Option (List Int64)) (aggregate : UInt8) :
    (db.ZInterStore destKey srcKeys weights aggregate).Commits env s := by
  refine .bind fun ⟨_, srcs⟩ => ?_
  cases srcs with
  | nil => exact .throw _
  | cons src srcs => exact .bind fun _ => .bind fun _ => zStore_commits _ _

theorem expireSized_reports {size : Op Int64} (hsize : size.Reads env s) (dataType : UInt8)
    (key : Bytes) (w : Int64) : (db.expireSized dataType key size w).Reports env s :=
  .bind hsize fun _ => .ite (.done _) (.of_commits (.bind fun _ => .commit _))

theorem expireDuration_reports (duration : Int64) (hf : ∀ w, (f w).Reports env s) :
    (DB.expireDuration duration f).Reports env s :=
  .ite (.throw _) (.bind (fun _ => rfl) fun _ => hf _)

theorem expireDeadline_reports (w : Int64) (hf : ∀ w, (f w).Reports env s) :
    (DB.expireDeadline w f).Reports env s :=
  .bind (fun _ => rfl) fun _ => .ite (.throw _) (hf w)

theorem SetRange_reports (offset : Int64) (value : Bytes) :
    (db.SetRange key offset value).Reports env s :=
  .ite (.done _) (.of_commits (.bind fun _ => .ite (.throw _) (.bind fun _ => .ite (.throw _)
    (.bind fun _ => .commit _))))

theorem BitOP_reports (op : Bytes) (destKey : Bytes) (srcKeys : List Bytes) :
    (db.BitOP op destKey srcKeys).Reports env s := by
  refine .bind (.lift _) fun _ => ?_
  match srcKeys with
  | [] => exact .done _
  | [_] => exact .done _
  | _ :: _ :: _ =>
    exact .of_commits (.ite (.throw _) (.bind fun _ => .bind fun _ => .bind fun _ => .commit _))

theorem lpush_reports (whereSeq : Int32) (args : List Bytes) :
    (db.lpush key whereSeq args).Reports env s :=
  .bind (.lift _) fun _ => .bind (lGetMeta_reads _) fun _ => .ite (.done _)
    (.of_commits (.bind fun _ => .ite (.throw _) (.bind fun _ => .commit _)))

theorem lpop_reports (whereSeq : Int32) : (db.lpop key whereSeq).Reports env s :=
  .bind (.lift _) fun _ => .bind (lGetMeta_reads _) fun _ => .ite (.done _)
    (.of_commits (.bind fun _ => .bind fun _ => .bind fun _ => .bind fun _ => .commit _))

theorem ltrim_reports (trimSize whereSeq : Int32) :
    (db.ltrim key trimSize whereSeq).Reports env s :=
  .bind (.lift _) fun _ => .ite (.done _) (.bind (lGetMeta_reads _) fun _ => .ite (.done _)
    (.of_commits (.ite (.throw _) (.bind fun _ => .bind fun _ => .bind fun _ => .commit _))))

/-- The queue of a call that gets as far as a commit whose error it drops. -/
def Write.unreported (db : DB) (s : Store) : Write → Option Batch
  | .SetNX key value =>
    if ValidKey key ∧ value.length ≤ MaxValueSize ∧ s.get (db.encodeKVKey key) = none then
      some [.put (db.encodeKVKey key) value]
    else none
  | .Append key value =>
    let oldValue := (s.get (db.encodeKVKey key)).getD []
    if value ≠ [] ∧ ValidKey key ∧ oldValue.length + value.length ≤ MaxValueSize then
      some [.put (db.encodeKVKey key) (oldValue ++ value)]
    else none
  | _ => none

theorem SetNX_reports {key value : Bytes} (h : (Write.SetNX key value).unreported db s = none) :
    (db.SetNX key value).Reports env s := by
  refine .lift_bind fun _ hk => .lift_bind fun _ hv => .get_bind ?_
  have hsome : (s.get (db.encodeKVKey key)).isSome := by
    by_contra hnone
    rw [Write.unreported, if_pos ⟨checkKeySize_ok.mp hk, checkValueSize_ok.mp hv,
      by simpa using hnone⟩] at h
    cases h
  rw [if_pos hsome]
  exact .done _

theorem Append_reports {key value : Bytes} (h : (Write.Append key value).unreported db s = none) :
    (db.Append key value).Reports env s := by
  unfold DB.Append
  split_ifs with h0
  · exact .done _
  · refine .lift_bind fun _ hk => .get_bind ?_
    have hlong : ((s.get (db.encodeKVKey key)).getD []).length + value.length > MaxValueSize := by
      by_contra hshort
      rw [Write.unreported, if_pos ⟨fun hv => h0 (by rw [hv]; rfl), checkKeySize_ok.mp hk,
        not_lt.mp hshort⟩] at h
      cases h
    rw [if_pos hlong]
    exact .throw _

theorem body_reports {c : Write} (h : c.unreported db s = none) : (c.body db).Reports env s := by
  cases c with
  | SetNX key value => exact (SetNX_reports h).discard
  | Append key value => exact (Append_reports h).discard
  | Set key value | HSet key field value =>
    exact Op.Commits.discard (.bind fun _ => .bind fun _ => .bind fun _ => .commit _)
  | SetEX key duration value =>
    exact Op.Commits.discard (.bind fun _ => .bind fun _ => .ite (.throw _)
      (.bind fun _ => .bind fun _ => .bind fun _ => .commit _))
  | GetSet key value | HIncrBy key field delta =>
    exact Op.Commits.discard (.bind fun _ => .bind fun _ => .bind fun _ => .bind fun _ =>
      .commit _)
  | MSet args | Del keys =>
    exact Op.Reports.discard (.ite (.done _) (.of_commits (.bind fun _ => .commit _)))
  | Incr key | IncrBy key _ | Decr key | DecrBy key _ => exact (incr_commits _ _).discard
  | SetRange key offset value => exact (SetRange_reports _ _ _).discard
  | SetBit key offset on =>
    exact Op.Commits.discard (.bind fun _ => .ite (.throw _) (.bind fun _ => .bind fun _ =>
      .commit _))
  | BitOP op destKey srcKeys => exact (BitOP_reports _ _ _).discard
  | Expire key duration =>
    exact (expireDuration_reports _ fun _ =>
      expireSized_reports (keyExists_reads _ _) _ _ _).discard
  | ExpireAt key w =>
    exact (expireDeadline_reports _ fun _ =>
      expireSized_reports (keyExists_reads _ _) _ _ _).discard
  | HMset key args | HDel key args | SAdd key args | SRem key args
  | ZRemRangeByRank key start stop | ZRemRangeByLex key min max rangeType =>
    exact Op.Commits.discard (.bind fun _ => .bind fun _ => .commit _)
  | LPush key args | RPush key args => exact (lpush_reports _ _ _).discard
  | LPop key | RPop key => exact (lpop_reports _ _).discard
  | LTrim key start stop => exact (ltrim2_commits _ _ _).discard
  | LTrimFront key trimSize | LTrimBack key trimSize => exact (ltrim_reports _ _ _).discard
  | LSet key index value =>
    exact Op.Commits.discard (.bind fun _ => .bind fun _ => .ite (.throw _)
      (.bind fun _ => .commit _))
  | LExpire key duration =>
    exact (expireDuration_reports _ fun _ => expireSized_reports LLen_reads _ _ _).discard
  | LExpireAt key w =>
    exact (expireDeadline_reports _ fun _ => expireSized_reports LLen_reads _ _ _).discard
  | SUnionStore dstKey keys | SDiffStore dstKey keys | SInterStore dstKey keys =>
    exact (sStoreGeneric_commits _ _ _).discard
  | ZAdd key args | ZRem key members =>
    exact Op.Reports.discard (.ite (.done _)
      (.of_commits (.bind fun _ => .bind fun _ => .commit _)))
  | ZIncrBy key delta member => exact (ZIncrBy_commits _ _ _).discard
  | ZRemRangeByScore key min max | ZClear key | ZMclear keys =>
    exact Op.Commits.discard (.bind fun _ => .commit _)
  | ZUnionStore destKey srcKeys weights aggregate =>
    exact Op.Commits.discard (.bind fun _ => .bind fun _ => zStore_commits _ _)
  | ZInterStore destKey srcKeys weights aggregate => exact (ZInterStore_commits _ _ _ _).discard
  | HExpire key duration | SExpire key duration | ZExpire key duration =>
    exact (expireDuration_reports _ fun _ =>
      expireSized_reports (readSize_reads _ _) _ _ _).discard
  | HExpireAt key w | SExpireAt key w | ZExpireAt key w =>
    exact (expireDeadline_reports _ fun _ =>
      expireSized_reports (readSize_reads _ _) _ _ _).discard
  | Persist key | HPersist key | LPersist key | SPersist key | ZPersist key =>
    exact (persist_commits _ _).discard
  | HClear key | LClear key | SClear key => exact (clear_commits _ _ _).discard
  | HMclear keys | LMclear keys | SMclear keys => exact (mclear_commits _ _ _).discard

theorem applyBatch_put_ne {k v : Bytes} (h : s.get k ≠ some v) : s.applyBatch [.put k v] ≠ s := by
  intro he
  apply h
  calc s.get k = (s.insert k v).get k := by rw [← congrArg (fun m => m.get k) he]; rfl
    _ = some v := by rw [OrderedMap.get_insert, if_pos rfl]

theorem body_unreported {c : Write} {b : Batch} (h : c.unreported db s = some b) (t : Txn) :
    c.body db env s t = (.ok (.commitOr () ()), t.queue b) ∧ s.applyBatch b ≠ s := by
  cases c with
  | SetNX key value =>
    obtain ⟨⟨hk, hv, hnone⟩, hb⟩ := (Option.ite_none_right_eq_some ..).mp h
    obtain rfl := Option.some.inj hb
    refine ⟨?_, applyBatch_put_ne (by rw [hnone]; exact nofun)⟩
    simp [Write.body, Op.discard, DB.SetNX, checkKeySize_ok.mpr hk, checkValueSize_ok.mpr hv,
      hnone, Ret.discard]
  | Append key value =>
    obtain ⟨⟨h0, hk, hlen⟩, hb⟩ := (Option.ite_none_right_eq_some ..).mp h
    obtain rfl := Option.some.inj hb
    refine ⟨?_, applyBatch_put_ne ?_⟩
    · simp [Write.body, Op.discard, DB.Append, checkKeySize_ok.mpr hk, h0, not_lt.mpr hlen,
        Ret.discard]
    · intro he
      have hlen := congrArg (fun v : Option Bytes => (v.getD []).length) he
      simp only [Option.getD_some, List.length_append] at hlen
      exact h0 (List.length_eq_zero_iff.mp (by omega))
  | _ => cases h

end

structure Session where
  state : State
  batch : DataType → Batch

def Op.behind {α : Type} (b : Batch) (x : Op α) : Op α :=
  fun env s t => x env s { t with batch := b ++ t.batch }

variable (c : Write) (σ : Session)

namespace Session

def fresh (st : State) : Session := ⟨st, fun _ => []⟩

def write : Except Err Unit × Session :=
  let r := exec env ((c.body db).behind (σ.batch c.type)) σ.state
  (r.1, ⟨r.2, Function.update σ.batch c.type []⟩)

def run (db : DB) : List (Env × Write) → Session → Session
  | [], σ => σ
  | (env, c) :: cs, σ => run db cs (σ.write db env c).2

def queued : Batch :=
  (c.body db env σ.state.store ⟨[], σ.state.nc⟩).2.batch

/-- An error leaves the store as it was, nil means that the queue is applied, and
the next operation finds the batch empty. -/
def Faithful : Prop :=
  (∀ e, (σ.write db env c).1 = .error e →
    (σ.write db env c).2.state.store = σ.state.store ∧ (σ.write db env c).2.batch c.type = []) ∧
  ((σ.write db env c).1 = .ok () →
    (σ.write db env c).2.state.store = σ.state.store.applyBatch (σ.queued db env c) ∧
      (σ.write db env c).2.batch c.type = [])

variable {db : DB} {env : Env} {c : Write} {σ : Session}

theorem write_batch (h : ∀ T, σ.batch T = []) (T : DataType) :
    (σ.write db env c).2.batch T = [] := by
  change Function.update σ.batch c.type [] T = []
  rw [Function.update_apply]
  split_ifs
  · rfl
  · exact h T

theorem run_batch (cs : List (Env × Write)) (h : ∀ T, σ.batch T = []) (T : DataType) :
    (run db cs σ).batch T = [] := by
  induction cs generalizing σ with
  | nil => exact h T
  | cons c cs ih => exact ih (write_batch h)

theorem faithful_iff (h : ∀ T, σ.batch T = []) :
    σ.Faithful db env c ↔ ((exec env (c.body db) σ.state).1 = .ok () →
      (exec env (c.body db) σ.state).2.store = σ.state.store.applyBatch (σ.queued db env c)) := by
  have hb : (c.body db).behind (σ.batch c.type) = c.body db := by
    rw [h c.type]
    rfl
  have hw : (σ.write db env c).1 = (exec env (c.body db) σ.state).1 := by rw [write, hb]
  have hs : (σ.write db env c).2.state = (exec env (c.body db) σ.state).2 := by rw [write, hb]
  have hempty : (σ.write db env c).2.batch c.type = [] := write_batch h c.type
  rw [Faithful, hw, hs]
  constructor
  · intro hf hok
    exact (hf.2 hok).1
  · intro hf
    exact ⟨fun e he => ⟨exec_error he, hempty⟩, fun hok => ⟨hf hok, hempty⟩⟩

theorem faithful_of_reports (h : ∀ T, σ.batch T = [])
    (hc : (c.body db).Reports env σ.state.store) : σ.Faithful db env c :=
  (faithful_iff h).mpr fun hok => hc.exec_ok hok

theorem faithful_iff_of_unreported {b : Batch} (h : ∀ T, σ.batch T = [])
    (hc : c.unreported db σ.state.store = some b) :
    σ.Faithful db env c ↔ ¬ Refused env σ.state.store b := by
  obtain ⟨hbody, hne⟩ := @body_unreported db env _ c b hc ⟨[], σ.state.nc⟩
  have hq : σ.queued db env c = b := by rw [queued, hbody]; rfl
  rw [faithful_iff h, hq, exec, hbody]
  simp only [List.nil_append]
  cases hcommit : commit env σ.state.store b with
  | error e =>
    have hrefused := commit_error_iff.mp ⟨e, hcommit⟩
    simpa [hrefused] using hne.symm
  | ok s' =>
    have haccepted : ¬ Refused env σ.state.store b := by
      intro hr
      obtain ⟨e, he⟩ := commit_error_iff.mpr hr
      rw [hcommit] at he
      cases he
    simpa [haccepted] using commit_ok hcommit

/-- After any writes, a write is faithful unless it is a `SetNX` or an `Append` that
gets to its commit and the commit is refused. -/
theorem write_faithful_iff (db : DB) (st : State) (cs : List (Env × Write)) (env : Env)
    (c : Write) :
    (run db cs (fresh st)).Faithful db env c ↔
      ¬ ∃ b, c.unreported db (run db cs (fresh st)).state.store = some b ∧
        Refused env (run db cs (fresh st)).state.store b := by
  have h : ∀ T, (run db cs (fresh st)).batch T = [] := run_batch cs fun _ => rfl
  cases hc : c.unreported db (run db cs (fresh st)).state.store with
  | none => simpa using faithful_of_reports h (body_reports hc)
  | some b =>
    rw [faithful_iff_of_unreported h hc]
    simp

theorem setnx_read_only_unfaithful :
    ((fresh State.empty).write DB.zero ⟨0, true, fun _ _ => none, id, fun l => .refl l⟩
      (.SetNX [1] [2])).1 = .ok () ∧
    ¬ (fresh State.empty).Faithful DB.zero ⟨0, true, fun _ _ => none, id, fun l => .refl l⟩
      (.SetNX [1] [2]) := by
  refine ⟨by decide, fun hf => ?_⟩
  have hstore := (hf.2 (by decide)).1
  have hget := congrArg (fun s : Store => s.get (DB.zero.encodeKVKey [1])) hstore
  revert hget
  decide

end Session

end LedisDB
