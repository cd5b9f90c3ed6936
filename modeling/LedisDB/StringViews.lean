import LedisDB.BitOps
import LedisDB.Bits

/-!
# The views of a string

`Get`, `GetRange`, `Exists` and `StrLen` read one entry. A missing key is nil for `Get`;
`StrLen` calls a method on it and panics. `Append`, `SetRange` and `BitOP` return the length
of the string that they leave, except where they return zero without writing it: for an
empty value, for fewer than two sources, and when `Append` drops the error of its commit.
-/

namespace LedisDB

structure ViewsAgree (db : DB) (env : Env) (s : Store) (key : Bytes) (v : Option Bytes) :
    Prop where
  get : (db.Get key).eval env s = .ok v
  strLen : ∃ n, (db.StrLen key).eval env s = .ok n ∧ n.toInt = (v.getD []).length
  getRange : ∃ r, (db.GetRange key 0 (-1)).eval env s = .ok r ∧ r.getD [] = v.getD []
  exist : ∃ n, (db.Exists key).eval env s = .ok n ∧ (n = 1 ↔ v ≠ none)

inductive LengthCall
  | Append (value : Bytes)
  | SetRange (offset : Int64) (value : Bytes)
  | BitOP (op : Bytes) (srcKeys : List Bytes)

def LengthCall.body (db : DB) (key : Bytes) : LengthCall → Op (Ret Int64)
  | .Append value => db.Append key value
  | .SetRange offset value => db.SetRange key offset value
  | .BitOP op srcKeys => db.BitOP op key srcKeys

/-- The call does not panic, and the number it returns is that of `StrLen` right after it. -/
def ReturnsStrLen (db : DB) (env : Env) (key : Bytes) : Except Err Int64 × State → Prop
  | (.error e, _) => e ≠ .panic
  | (.ok n, st') => (db.StrLen key).eval env st'.store = .ok n

section
variable {db : DB} {env : Env} {st : State} {s : Store} {key value v : Bytes}

theorem Get_eval (hk : ValidKey key) :
    (db.Get key).eval env s = .ok (s.get (db.encodeKVKey key)) := by
  simp [DB.Get, Op.eval, checkKeySize_ok.mpr hk]

theorem StrLen_eval (hk : ValidKey key) :
    (db.StrLen key).eval env s = match s.get (db.encodeKVKey key) with
      | none => .error .panic
      | some v => .ok (Int64.ofNat v.length) := by
  simp only [DB.StrLen, DB.GetSlice, Op.eval, Op.bind_run, checkKeySize_ok.mpr hk, Op.get_run]
  cases s.get (db.encodeKVKey key) <;> rfl

theorem StrLen_of_some (hk : ValidKey key) (hv : s.get (db.encodeKVKey key) = some v) :
    (db.StrLen key).eval env s = .ok (Int64.ofNat v.length) := by
  rw [StrLen_eval hk, hv]

theorem StrLen_eq_zero_iff (hs : Proper s) (hk : ValidKey key) (db : DB) (env : Env) :
    (db.StrLen key).eval env s = .ok 0 ↔ s.get (db.encodeKVKey key) = some [] := by
  have hle := value_length_le hs db key
  rw [StrLen_eval hk]
  cases hv : s.get (db.encodeKVKey key) with
  | none => simp
  | some v =>
    rw [hv, Option.getD_some] at hle
    rw [Except.ok.injEq, ← Int64.toInt_inj, toInt_ofNat_size hle, Option.some.injEq,
      ← List.length_eq_zero_iff]
    exact Int.natCast_eq_zero

theorem Exists_eval (hk : ValidKey key) :
    (db.Exists key).eval env s = .ok (if (s.get (db.encodeKVKey key)).isSome then 1 else 0) := by
  simp [DB.Exists, DB.keyExists, Op.eval, checkKeySize_ok.mpr hk]

theorem rangeBytes_all (v : Bytes) : rangeBytes v 0 (-1) = v := by
  have hb : (getRange 0 (-1) v.length).1 = 0 ∧
      ((getRange 0 (-1) v.length).2 + 1).toNat = v.length := by
    simp only [getRange]
    split_ifs <;> omega
  rw [rangeBytes, hb.2, List.take_length]
  rfl

theorem viewsAgree_iff (hs : Proper s) (hk : ValidKey key) :
    (∃ v, ViewsAgree db env s key v) ↔ s.get (db.encodeKVKey key) ≠ none := by
  constructor
  · rintro ⟨v, h⟩ hnone
    obtain ⟨n, hn, -⟩ := h.strLen
    rw [StrLen_eval hk, hnone] at hn
    cases hn
  · intro hsome
    obtain ⟨v, hv⟩ := Option.ne_none_iff_exists'.mp hsome
    have hle := value_length_le hs db key
    rw [hv] at hle
    obtain ⟨r, hr, hbytes⟩ := @GetRange_eval db env s key hk 0 (-1)
    rw [hv, rangeBytes_all] at hbytes
    refine ⟨some v, by rw [Get_eval hk, hv], ⟨_, StrLen_of_some hk hv, ?_⟩,
      ⟨r, hr, hbytes⟩, ⟨1, by rw [Exists_eval hk, hv]; rfl, by simp⟩⟩
    exact toInt_ofNat_size hle

def LengthCall.Fits (db : DB) (env : Env) (s : Store) (key : Bytes) : LengthCall → Prop
  | .Append value =>
    let new := (s.get (db.encodeKVKey key)).getD [] ++ value
    (value = [] ∨ new.length ≤ MaxValueSize ∧
      ∃ e, commit env s [.put (db.encodeKVKey key) new] = .error e) →
        s.get (db.encodeKVKey key) = some []
  | .SetRange offset value =>
    if value = [] then s.get (db.encodeKVKey key) = some []
    else Int64.ofNat value.length + offset > Int64.ofNat MaxValueSize ∨
      SliceInRange ((s.get (db.encodeKVKey key)).getD []).length value.length offset
  | .BitOP _ srcKeys => srcKeys.length < 2 → s.get (db.encodeKVKey key) = some []

theorem Append_exec (hk : ValidKey key) (hv : value ≠ []) :
    let new := (st.store.get (db.encodeKVKey key)).getD [] ++ value
    exec env (db.Append key value) st =
      if new.length > MaxValueSize then (.error .errValueSize, st)
      else match commit env st.store [.put (db.encodeKVKey key) new] with
        | .error _ => (.ok 0, st)
        | .ok s => (.ok (Int64.ofNat new.length), ⟨s, st.nc⟩) := by
  intro new
  simp only [exec, DB.Append, List.length_eq_zero_iff, if_neg hv, Op.bind_run,
    checkKeySize_ok.mpr hk, Op.get_run]
  rw [← List.length_append]
  by_cases hlen : new.length > MaxValueSize
  · rw [if_pos hlen, if_pos hlen]
    rfl
  · rw [if_neg hlen, if_neg hlen]
    rfl

theorem StrLen_put (hk : ValidKey key) (v : Bytes) :
    (db.StrLen key).eval env (s.applyBatch [.put (db.encodeKVKey key) v]) =
      .ok (Int64.ofNat v.length) :=
  StrLen_of_some hk (OrderedMap.get_applyBatch_put s _ v)

theorem returnsStrLen_put (hk : ValidKey key) (henv : env.Orderly) (v : Bytes) :
    ReturnsStrLen db env key
      (match commit env st.store [.put (db.encodeKVKey key) v] with
      | .error e => (.error e, st)
      | .ok s => (.ok (Int64.ofNat v.length), ⟨s, st.nc⟩)) := by
  rcases henv.commit st.store [.put (db.encodeKVKey key) v] with hc | ⟨e, he, hc⟩
  · rw [hc]
    exact StrLen_put hk v
  · rwa [hc]

section
variable (hs : Proper st.store) (hk : ValidKey key)
include hs hk

theorem Append_returns_iff
    (value : Bytes) : ReturnsStrLen db env key (exec env (db.Append key value) st) ↔
      (LengthCall.Append value).Fits db env st.store key := by
  have hzero := StrLen_eq_zero_iff hs hk db env
  by_cases hv : value = []
  · subst hv
    exact hzero.trans ⟨fun h _ => h, fun h => h (.inl rfl)⟩
  · rw [Append_exec hk hv, LengthCall.Fits, or_iff_right hv]
    split_ifs with hlen
    · exact iff_of_true nofun fun h => absurd h.1 (not_le.mpr hlen)
    · rw [and_iff_right (not_lt.mp hlen)]
      cases hc : commit env st.store [.put (db.encodeKVKey key)
          ((st.store.get (db.encodeKVKey key)).getD [] ++ value)] with
      | error e => exact hzero.trans ⟨fun h _ => h, fun h => h ⟨e, rfl⟩⟩
      | ok s' =>
        refine iff_of_true ?_ fun ⟨e, he⟩ => nomatch he
        rw [commit_ok hc]
        exact StrLen_put hk _

theorem SetRange_returns_iff (henv : env.Orderly) (offset : Int64) (value : Bytes) :
    ReturnsStrLen db env key (exec env (db.SetRange key offset value) st) ↔
      (LengthCall.SetRange offset value).Fits db env st.store key := by
  rw [LengthCall.Fits]
  by_cases hv : value = []
  · subst hv
    exact StrLen_eq_zero_iff hs hk db env
  · rw [if_neg hv]
    by_cases hend : Int64.ofNat value.length + offset > Int64.ofNat MaxValueSize
    · rw [SetRange_tooLong hv hk hend]
      exact iff_of_true nofun (.inl hend)
    · rw [SetRange_exec hv hk hend, or_iff_right hend,
        ← sliceInRange_iff (value_length_le hs db key) hend]
      split_ifs with hoff
      · exact iff_of_false (fun h => h rfl) (not_not.mpr hoff)
      · exact iff_of_true (returnsStrLen_put hk henv _) hoff

theorem BitOP_returns_iff (henv : env.Orderly) (op : Bytes) (srcKeys : List Bytes) :
    ReturnsStrLen db env key (exec env (db.BitOP op key srcKeys) st) ↔
      (LengthCall.BitOP op srcKeys).Fits db env st.store key := by
  by_cases hlen : srcKeys.length < 2
  · rw [BitOP_few hk hlen]
    exact (StrLen_eq_zero_iff hs hk db env).trans ⟨fun h _ => h, fun h => h hlen⟩
  · refine iff_of_true ?_ fun h => absurd h hlen
    by_cases hop : BitOpName.ofText op = .BitNot
    · rw [BitOP_not hop hk (not_lt.mp hlen)]
      exact nofun
    · match srcKeys with
      | [] => simp at hlen
      | [_] => simp at hlen
      | src :: k :: ks =>
        rw [BitOP_many hk hop (List.cons_ne_nil k ks)]
        cases hloop : (db.bitOPLoop (.ofText op) ((st.store.get (db.encodeKVKey src)).getD [])
            (k :: ks)).eval env st.store with
        | error e =>
          rcases bitOPLoop_error hloop with rfl | rfl
          · exact nofun
          · exact nofun
        | ok v => exact returnsStrLen_put hk henv v

end

def Op.PanicFree {α : Type} (x : Op α) (env : Env) (s : Store) : Prop :=
  ∀ t, (x env s t).1 ≠ .error .panic

namespace Op.PanicFree

variable {α γ : Type} {x : Op α} {f : α → Op γ}

theorem pure (a : α) : (Pure.pure a : Op α).PanicFree env s := fun _ => nofun

theorem throw {e : Err} (h : e ≠ .panic) : (Op.throw e : Op α).PanicFree env s :=
  fun _ he => h (Except.error.inj he)

theorem lift {r : Except Err α} (h : r ≠ .error .panic) : (Op.lift r).PanicFree env s := fun _ => h

theorem bind (hx : x.PanicFree env s) (hf : ∀ a, (f a).PanicFree env s) :
    (x >>= f).PanicFree env s := by
  intro t
  have h := hx t
  rw [bind_run]
  rcases hr : x env s t with ⟨_ | a, t'⟩
  · rw [hr] at h
    exact fun he => h (congrArg Except.error (Except.error.inj he))
  · exact hf a t'

theorem ite {c : Prop} [Decidable c] {x y : Op α} (hx : x.PanicFree env s)
    (hy : y.PanicFree env s) : (if c then x else y).PanicFree env s := by
  split_ifs
  · exact hx
  · exact hy

theorem get (k : Bytes) : (Op.get k).PanicFree env s := fun _ => nofun

theorem put (k v : Bytes) : (Op.put k v).PanicFree env s := fun _ => nofun

theorem delete (k : Bytes) : (Op.delete k).PanicFree env s := fun _ => nofun

theorem now : Op.now.PanicFree env s := fun _ => nofun

theorem keySize : (Op.lift (checkKeySize key)).PanicFree env s := by
  refine lift fun h => ?_
  unfold checkKeySize at h
  split_ifs at h
  cases h

theorem valueSize (value : Bytes) : (Op.lift (checkValueSize value)).PanicFree env s := by
  refine lift fun h => ?_
  unfold checkValueSize at h
  split_ifs at h
  cases h

theorem rmExpire (t : UInt8) (k : Bytes) : (db.rmExpire t k).PanicFree env s := by
  refine bind (get _) fun v => ?_
  cases v with
  | none => exact pure _
  | some v =>
    refine bind (lift fun h => ?_) fun _ => bind (delete _) fun _ => bind (delete _) fun _ => pure _
    cases decodeInt64_error h

theorem ignoreErr (hx : x.PanicFree env s) (d : α) : (x.ignoreErr d).PanicFree env s := by
  intro t
  have hpanic := hx t
  unfold Op.ignoreErr
  rcases hr : x env s t with ⟨e | a, t'⟩
  · rw [hr] at hpanic
    cases e with
    | panic => exact absurd rfl hpanic
    | _ => exact nofun
  · exact nofun

theorem expireAt (t : UInt8) (k : Bytes) (w : Int64) : (db.expireAt t k w).PanicFree env s :=
  bind (put _ _) fun _ => bind (put _ _) fun _ _ => nofun

theorem setExpireAt (w : Int64) : (db.setExpireAt key w).PanicFree env s :=
  bind (bind (keySize) fun _ => bind (get _) fun _ => pure _) fun _ =>
    ite (pure _) (bind (expireAt _ _ _) fun _ => pure _)

theorem discard {x : Op (Ret α)} (hx : x.PanicFree env s) : x.discard.PanicFree env s :=
  bind hx fun _ => pure _

theorem exec {x : Op (Ret α)} (hx : x.PanicFree env st.store) (henv : env.Orderly) :
    (exec env x st).1 ≠ .error .panic := by
  have hpanic := hx ⟨[], st.nc⟩
  unfold LedisDB.exec
  rcases hr : x env st.store ⟨[], st.nc⟩ with ⟨e | r, t⟩
  · rw [hr] at hpanic
    exact fun h => hpanic (congrArg Except.error (Except.error.inj h))
  · rcases henv.commit st.store t.batch with hc | ⟨e, he, hc⟩
    · cases r <;> simp [hc]
    · cases r <;> simp [hc, he]

theorem incr (delta : Int64) : (db.incr key delta).PanicFree env s := by
  refine bind (keySize) fun _ => bind (get _) fun v => bind (lift fun h => ?_) fun _ =>
    bind (put _ _) fun _ => pure _
  cases v with
  | none => cases h
  | some v => exact absurd h (parseInt_ne_panic v)

theorem mSetLoop (args : List KVPair) : (db.mSetLoop args).PanicFree env s := by
  induction args with
  | nil => exact pure _
  | cons arg args ih =>
    exact bind (keySize) fun _ => bind (valueSize _) fun _ => bind (put _ _) fun _ => ih

theorem delLoop (keys : List Bytes) : (db.delLoop keys).PanicFree env s := by
  induction keys with
  | nil => exact pure _
  | cons k ks ih =>
    exact bind (delete _) fun _ => bind (ignoreErr (rmExpire _ _) 0) fun _ => ih

theorem BitOP (op : Bytes) (srcKeys : List Bytes) : (db.BitOP op key srcKeys).PanicFree env s := by
  refine bind (keySize) fun _ => ?_
  match srcKeys with
  | [] => exact pure _
  | [_] => exact pure _
  | src :: k :: ks =>
    refine ite (throw (by decide)) (bind (get _) fun v => bind (fun t h => ?_) fun _ =>
      bind (put _ _) fun _ => pure _)
    rw [bitOPLoop_reads _ (v.getD []) (k :: ks) t] at h
    rcases bitOPLoop_error h with he | he
    · cases he
    · cases he

end Op.PanicFree

open Op.PanicFree in
theorem string_write_panicFree {c : Write} (hT : c.type = .KV)
    (hc : ∀ key offset value, c ≠ .SetRange key offset value) : (c.body db).PanicFree env s := by
  cases c <;> first | (simp [Write.type] at hT; done) | refine discard ?_
  case Set key value =>
    exact bind (keySize) fun _ => bind (valueSize _) fun _ => bind (put _ _) fun _ =>
      pure _
  case SetNX key value =>
    exact bind (keySize) fun _ => bind (valueSize _) fun _ => bind (get _) fun _ =>
      ite (pure _) (bind (put _ _) fun _ => pure _)
  case SetEX key duration value =>
    exact bind (keySize) fun _ => bind (valueSize _) fun _ => ite (throw (by decide))
      (bind (put _ _) fun _ => bind now fun _ => bind (expireAt _ _ _) fun _ => pure _)
  case GetSet key value =>
    exact bind (keySize) fun _ => bind (valueSize _) fun _ => bind (get _) fun _ =>
      bind (put _ _) fun _ => pure _
  case MSet args => exact ite (pure _) (bind (mSetLoop args) fun _ => pure _)
  case Del keys => exact ite (pure _) (bind (delLoop keys) fun _ => pure _)
  case Incr key => exact incr _
  case IncrBy key n => exact incr _
  case Decr key => exact incr _
  case DecrBy key n => exact incr _
  case Append key value =>
    exact ite (pure _) (bind (keySize) fun _ => bind (get _) fun _ =>
      ite (throw (by decide)) (bind (put _ _) fun _ => pure _))
  case SetRange key offset value => exact absurd rfl (hc key offset value)
  case SetBit key offset on =>
    exact bind (keySize) fun _ => ite (throw (by decide)) (bind (get _) fun _ =>
      bind (put _ _) fun _ => pure _)
  case BitOP op key keys => exact Op.PanicFree.BitOP op keys
  case Expire key d => exact ite (throw (by decide)) (bind now fun _ => setExpireAt _)
  case ExpireAt key w => exact bind now fun _ => ite (throw (by decide)) (setExpireAt _)
  case Persist key =>
    exact bind (keySize) fun _ => bind (rmExpire _ _) fun _ => pure _

/-- The views of a key agree exactly when the key is there, each of the three writes returns the
length exactly where it fits, and the other writes of strings do not panic. -/
theorem string_views_iff (h : Reached st.store) (hk : ValidKey key) (henv : env.Orderly) (db : DB) :
    ((∃ v, ViewsAgree db env st.store key v) ↔ st.store.get (db.encodeKVKey key) ≠ none) ∧
    (∀ c : LengthCall, ReturnsStrLen db env key (exec env (c.body db key) st) ↔
      c.Fits db env st.store key) ∧
    ∀ c : Write, c.type = .KV → (∀ key offset value, c ≠ .SetRange key offset value) →
      (exec env (c.body db) st).1 ≠ .error .panic := by
  have hs := h.proper
  refine ⟨viewsAgree_iff hs hk, fun c => ?_, fun c hT hc =>
    (string_write_panicFree hT hc).exec henv⟩
  cases c with
  | Append value => exact Append_returns_iff hs hk value
  | SetRange offset value => exact SetRange_returns_iff hs hk henv offset value
  | BitOP op srcKeys => exact BitOP_returns_iff hs hk henv op srcKeys

end

theorem string_views_of_three_bytes :
    (∃ v, ViewsAgree DB.zero (Env.quiet 0) (oneString [1, 2, 3]).store [107] v) ∧
    ReturnsStrLen DB.zero (Env.quiet 0) [107]
      (exec (Env.quiet 0) (DB.zero.Append [107] [4]) (oneString [1, 2, 3])) := by
  have h := @string_views_iff (Env.quiet 0) (oneString [1, 2, 3]) [107] (oneString_reached _)
    (by decide) (fun _ _ => nofun) DB.zero
  refine ⟨h.1.mpr (by decide), (h.2.1 (.Append [4])).mpr ?_⟩
  rintro (hnil | ⟨-, e, he⟩)
  · cases hnil
  · cases he

theorem string_views_missing_or_untouched :
    (DB.zero.StrLen [107]).eval (Env.quiet 0) State.empty.store = .error .panic ∧
    (exec (Env.quiet 0) (DB.zero.Append [107] []) (oneString [1, 2, 3])).1 = .ok 0 ∧
    (exec (Env.quiet 0) (DB.zero.BitOP (str "and") [107] [[107]]) (oneString [1, 2, 3])).1 = .ok 0 ∧
    (exec (Env.quiet 0) (DB.zero.SetRange [107] (-1) [9]) (oneString [1, 2, 3])).1 = .error .panic ∧
    (DB.zero.StrLen [107]).eval (Env.quiet 0) (oneString [1, 2, 3]).store = .ok 3 := by
  decide

end LedisDB
