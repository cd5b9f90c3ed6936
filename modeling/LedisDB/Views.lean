import LedisDB.Flush
import LedisDB.HashInvariant
import LedisDB.SetAlgebra

/-!
# Reading several entries at once

`MGet` and `HMget` look up one entry after the other with one iterator, `HKeys` and
`HValues` walk the entries that `HGetAll` walks. They are shown to answer what the
single reads answer. `SIsMember` alone checks no sizes; it is shown to answer from
the members of its own key all the same.
-/

namespace LedisDB

variable (db : DB) (pick : Bytes → Bytes → Bytes) (key : Bytes)

namespace DB

/-- The loop of `MGet` and `HMget`. -/
def findLoop (check : Bytes → Except Err Unit) (enc : Bytes → Bytes) :
    List Bytes → Op (List (Option Bytes))
  | [] => pure []
  | a :: as => do
    Op.lift (check a)
    let v ← Op.find (enc a)
    let vs ← findLoop check enc as
    pure (v :: vs)

def MGet (keys : List Bytes) : Op (List (Option Bytes)) :=
  findLoop checkKeySize db.encodeKVKey keys

def HMget (args : List Bytes) : Op (List (Option Bytes)) :=
  findLoop (checkHashKFSize key) (db.hEncodeHashKey key) args

def hEachLoop (db : DB) (pick : Bytes → Bytes → Bytes) : List (Bytes × Bytes) → Op (List Bytes)
  | [] => pure []
  | e :: es => do
    let kf ← Op.lift (db.hDecodeHashKey e.1)
    let vs ← db.hEachLoop pick es
    pure (pick kf.2 e.2 :: vs)

/-- The common body of `HKeys` and `HValues`. -/
def hEach : Op (List Bytes) := do
  Op.lift (checkKeySize key)
  let start := db.hEncodeStartKey key
  let stop := db.hEncodeStopKey key
  let es ← Op.range ⟨some start, some stop, RangeROpen⟩ ⟨0, -1⟩ .forward
  db.hEachLoop pick es

def HKeys : Op (List Bytes) := db.hEach (fun f _ => f) key

def HValues : Op (List Bytes) := db.hEach (fun _ v => v) key

def SIsMember (key member : Bytes) : Op Int64 := do
  let v ← Op.get (db.sEncodeSetKey key member)
  pure (if v.isNone then 0 else 1)

end DB

section
variable {db : DB} {env : Env} {s : Store} {key : Bytes} {u : Txn}

theorem findLoop_run (check : Bytes → Except Err Unit) (enc : Bytes → Bytes) (as : List Bytes) :
    DB.findLoop check enc as env s u =
      (as.mapM fun a => (check a).map fun _ => s.get (enc a), u) := by
  induction as with
  | nil => rfl
  | cons a as ih =>
    simp only [DB.findLoop, Op.bind_run, Op.lift_run, Op.find_run, List.mapM_cons]
    cases check a with
    | error e => rfl
    | ok _ =>
      dsimp only
      rw [ih]
      cases as.mapM fun a => (check a).map fun _ => s.get (enc a) <;> rfl

theorem single_eval (check : Except Err Unit) (ek : Bytes) :
    (do Op.lift check; Op.get ek : Op (Option Bytes)).eval env s = check.map fun _ => s.get ek := by
  cases check <;> rfl

/-- One iterator for all keys reads what one `Get` for each of them reads, and fails where the
first of these fails. -/
theorem MGet_eq_mapM_Get (db : DB) (env : Env) (s : Store) (keys : List Bytes) :
    (db.MGet keys).eval env s = keys.mapM fun key => (db.Get key).eval env s := by
  rw [Op.eval, DB.MGet, findLoop_run]
  exact congrArg keys.mapM (funext fun key => (single_eval _ _).symm)

theorem HMget_eval (args : List Bytes) : (db.HMget key args).eval env s =
    args.mapM fun f => (db.HGet key f).eval env s := by
  rw [Op.eval, DB.HMget, findLoop_run]
  exact congrArg args.mapM (funext fun f => (single_eval _ _).symm)

theorem hEachLoop_run (es : List (Bytes × Bytes)) :
    db.hEachLoop pick es env s u =
      ((db.hGetAllLoop es env s u).1.map (List.map fun p => pick p.Field p.Value),
        (db.hGetAllLoop es env s u).2) := by
  induction es with
  | nil => rfl
  | cons e es ih =>
    simp only [DB.hEachLoop, DB.hGetAllLoop, Op.bind_run, Op.lift_run]
    cases db.hDecodeHashKey e.1 with
    | error e => rfl
    | ok kf =>
      dsimp only
      rw [ih]
      rcases db.hGetAllLoop es env s u with ⟨_ | vs, t⟩ <;> rfl

theorem hEach_eval : (db.hEach pick key).eval env s =
    ((db.HGetAll key).eval env s).map (List.map fun p => pick p.Field p.Value) := by
  simp only [Op.eval, DB.hEach, DB.HGetAll, Op.bind_run, Op.lift_run, Op.range_run, hEachLoop_run]
  cases checkKeySize key <;> rfl

theorem HGet_eval {f : Bytes} (hf : checkHashKFSize key f = .ok ()) :
    (db.HGet key f).eval env s = .ok (s.get (db.hEncodeHashKey key f)) := by
  rw [DB.HGet, single_eval, hf]
  rfl

/-- The ways to read a hash show one list of fields, in order and without repetition. -/
theorem hash_views_agree (db : DB) (env : Env) (s : Store) (key : Bytes) (hk : ValidKey key) :
    ∃ all, (db.HGetAll key).eval env s = .ok all ∧ (all.map FVPair.Field).Pairwise (· < ·) ∧
      (db.HKeys key).eval env s = .ok (all.map FVPair.Field) ∧
      (db.HValues key).eval env s = .ok (all.map FVPair.Value) ∧
      ∀ args, (∀ f ∈ args, checkHashKFSize key f = .ok ()) → (db.HMget key args).eval env s =
        .ok (args.map fun f => (all.find? fun p => p.Field = f).map FVPair.Value) := by
  refine ⟨_, HGetAll_eval hk, ?_, ?_, ?_, fun args hargs => ?_⟩
  · rw [List.map_map, List.pairwise_map]
    exact s.under_sorted _
  · rw [DB.HKeys, hEach_eval, HGetAll_eval hk]
    rfl
  · rw [DB.HValues, hEach_eval, HGetAll_eval hk]
    rfl
  · have hfound : ∀ f, (((s.under (front db .HASH key)).map fun e => (⟨e.1, e.2⟩ : FVPair)).find?
        fun p => p.Field = f).map FVPair.Value = s.get (db.hEncodeHashKey key f) := by
      intro f
      rw [List.find?_map, Option.map_map, hEncodeHashKey_front, ← OrderedMap.find_under]
      rfl
    rw [HMget_eval]
    induction args with
    | nil => rfl
    | cons f args ih =>
      rw [List.mapM_cons, HGet_eval (hargs f (.head _)), ih fun g hg => hargs g (.tail _ hg),
        List.map_cons, hfound]
      rfl

theorem hash_views_agree_two :
    (DB.zero.HMget [107] [[103], [104]]).eval (Env.quiet 0)
      (run DB.zero [(Env.quiet 0, .write (.HMset [107] [⟨[103], [118]⟩, ⟨[102], [119]⟩]))]
        State.empty).store = .ok [some [118], none] := by
  obtain ⟨all, hall, -, -, -, hget⟩ := hash_views_agree DB.zero (Env.quiet 0)
    (run DB.zero [(Env.quiet 0, .write (.HMset [107] [⟨[103], [118]⟩, ⟨[102], [119]⟩]))]
      State.empty).store [107] (by decide)
  have heq : all = [⟨[102], [119]⟩, ⟨[103], [118]⟩] := Except.ok.inj (hall.symm.trans rfl)
  rw [hget [[103], [104]] (by decide), heq]
  rfl

theorem StoreWf.smember_valid (hs : StoreWf s) {m v : Bytes}
    (h : s.get (db.sEncodeSetKey key m) = some v) : ValidKey key := by
  obtain ⟨hst, -⟩ := hs.of_itemKey_prefix (T := .SET) (t := SetType)
    (by decide) h (List.prefix_refl _)
  generalize hek : db.sEncodeSetKey key m = ek at hst
  cases hst with
  | ssize => exact absurd (DB.plainKey_inj.mp hek).2.1 (by decide)
  | smember hk _ => exact hk

/-- No size is checked, and a key longer than its length field can say is still not taken for
another key: what would be asked for is longer than any stored member. -/
theorem SIsMember_iff_SMembers (hs : Reached s) (db : DB) (env : Env) (key m : Bytes) :
    ∃ n, (db.SIsMember key m).eval env s = .ok n ∧ (n = 0 ∨ n = 1) ∧
      (n = 1 ↔ ∃ ms, (db.SMembers key).eval env s = .ok ms ∧ m ∈ ms) := by
  cases hget : s.get (db.sEncodeSetKey key m) with
  | none =>
    refine ⟨0, by simp [Op.eval, DB.SIsMember, hget], .inl rfl, iff_of_false (by decide) ?_⟩
    intro h
    obtain ⟨ms, hms, hm⟩ := h
    have hmem := (SMembers_ok (Prod.ext hms rfl) m).mp hm
    rw [mem_members, ← sEncodeSetKey_front, hget] at hmem
    cases hmem
  | some v =>
    have hk := hs.wf.smember_valid hget
    refine ⟨1, by simp [Op.eval, DB.SIsMember, hget], .inr rfl, iff_of_true rfl ?_⟩
    refine ⟨_, SMembers_eval hk, mem_smembers.mpr (mem_members.mpr ?_)⟩
    rw [← sEncodeSetKey_front, hget]
    rfl

theorem SIsMember_iff_SMembers_two : ∃ n,
    (DB.zero.SIsMember [107] [98]).eval (Env.quiet 0)
      (Call.step DB.zero (Env.quiet 0) State.empty (.write (.SAdd [107] [[97], [98]]))).2.1.store =
        .ok n ∧ n = 1 := by
  obtain ⟨n, hn, -, hiff⟩ := SIsMember_iff_SMembers
    (@Reached.call State.empty DB.zero (Env.quiet 0) (.write (.SAdd [107] [[97], [98]])) .empty)
    DB.zero (Env.quiet 0) [107] [98]
  exact ⟨n, hn, hiff.mpr ⟨[[97], [98]], rfl, by decide⟩⟩

end

end LedisDB
