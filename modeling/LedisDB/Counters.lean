import LedisDB.Flush

/-!
# Counters

`Incr`, `IncrBy`, `Decr` and `DecrBy` of strings and `HIncrBy` of hash fields parse the
stored text, add in 64 bits without a test and store the decimal form of the sum. A counter
is exact or refuses unless the sum leaves the range, where it wraps around.
-/

namespace LedisDB

section
variable {db : DB} {env : Env} {s : Store} {key field value : Bytes}

theorem Reached.hashSize (h : Reached s) (db : DB) (key : Bytes) :
    ∃ n, decodeInt64 (s.get (db.hEncodeSizeKey key)) = .ok n := by
  cases hv : s.get (db.hEncodeSizeKey key) with
  | none => exact ⟨0, rfl⟩
  | some v =>
    obtain ⟨n, rfl⟩ := (h.proper db _ key v hv).hashSize rfl
    exact ⟨n, decodeInt64_PutInt64 n⟩

end

inductive CounterCall
  | Incr (key : Bytes)
  | IncrBy (key : Bytes) (increment : Int64)
  | Decr (key : Bytes)
  | DecrBy (key : Bytes) (decrement : Int64)
  | HIncrBy (key field : Bytes) (delta : Int64)

namespace CounterCall

def body (db : DB) : CounterCall → Op (Ret Int64)
  | .Incr key => db.Incr key
  | .IncrBy key increment => db.IncrBy key increment
  | .Decr key => db.Decr key
  | .DecrBy key decrement => db.DecrBy key decrement
  | .HIncrBy key field delta => db.HIncrBy key field delta

def read (db : DB) : CounterCall → Op (Option Bytes)
  | .Incr key | .IncrBy key _ | .Decr key | .DecrBy key _ => db.Get key
  | .HIncrBy key field _ => db.HGet key field

def entry (db : DB) : CounterCall → Bytes
  | .Incr key | .IncrBy key _ | .Decr key | .DecrBy key _ => db.encodeKVKey key
  | .HIncrBy key field _ => db.hEncodeHashKey key field

def Valid : CounterCall → Prop
  | .Incr key | .IncrBy key _ | .Decr key | .DecrBy key _ => ValidKey key
  | .HIncrBy key field _ => ValidKey key ∧ ValidKey field

def change : CounterCall → ℤ
  | .Incr _ => 1
  | .IncrBy _ increment => increment.toInt
  | .Decr _ => -1
  | .DecrBy _ decrement => -decrement.toInt
  | .HIncrBy _ _ delta => delta.toInt

def delta : CounterCall → Int64
  | .Incr _ => 1
  | .IncrBy _ increment => increment
  | .Decr _ => -1
  | .DecrBy _ decrement => -decrement
  | .HIncrBy _ _ delta => delta

end CounterCall

/-- A missing entry counts as zero; `form` says which text stands for which number. -/
def StandsFor (form : Bytes → ℤ → Prop) (v : Option Bytes) (n : ℤ) : Prop :=
  match v with
  | none => n = 0
  | some b => form b n

def Counts (db : DB) (env : Env) (st : State) (c : CounterCall) (n : ℤ) : Prop :=
  ∃ m st', exec env (c.body db) st = (.ok m, st') ∧ m.toInt = n ∧
    (c.read db).eval env st'.store = .ok (some (Resp.decimalInt n)) ∧
    parseInt (Resp.decimalInt n) = .ok m

structure ExactOrRefuses (form : Bytes → ℤ → Prop) (db : DB) (env : Env) (st : State)
    (c : CounterCall) : Prop where
  counts : ∀ n, StandsFor form (st.store.get (c.entry db)) n → FitsInt64 n →
    FitsInt64 (n + c.change) → Counts db env st c (n + c.change)
  refuses : (¬ ∃ n, StandsFor form (st.store.get (c.entry db)) n ∧ FitsInt64 n ∧
    FitsInt64 (n + c.change)) → ∃ e, exec env (c.body db) st = (.error e, st)

section
variable {db : DB} {env : Env} {st : State} {s : Store} {c : CounterCall} {form : Bytes → ℤ → Prop}
  {k size : Int64} {v : Option Bytes} {key : Bytes} {e : Err} {n : ℤ}

theorem StrInt64_ok_iff : StrInt64 v = .ok k ↔ StandsFor IsDecimal v k.toInt := by
  cases v with
  | none =>
    rw [StrInt64, Except.ok.injEq, ← Int64.toInt_inj]
    exact eq_comm
  | some v => exact parseInt_ok_iff

theorem CounterCall.add_delta (c : CounterCall) (k : Int64) :
    (k + c.delta).toInt = (k.toInt + c.change).bmod (2 ^ 64) := by
  cases c with
  | Incr key => exact Int64.toInt_add k 1
  | IncrBy key n | HIncrBy key field n => exact Int64.toInt_add k n
  | Decr key => exact Int64.toInt_add k (-1)
  | DecrBy key n =>
    rw [delta, Int64.toInt_add, Int64.toInt_neg]
    exact Int.add_bmod_bmod

theorem incr_exec (key : Bytes) (delta : Int64) : exec env (db.incr key delta) st =
      match checkKeySize key with
      | .error e => (.error e, st)
      | .ok _ => match StrInt64 (st.store.get (db.encodeKVKey key)) with
        | .error e => (.error e, st)
        | .ok n => match commit env st.store
            [.put (db.encodeKVKey key) (FormatInt64ToSlice (n + delta))] with
          | .error e => (.error e, st)
          | .ok s => (.ok (n + delta), ⟨s, st.nc⟩) := by
  simp only [exec, DB.incr, Op.bind_run, Op.get_run]
  cases checkKeySize key with
  | error e => rfl
  | ok _ =>
    cases StrInt64 (st.store.get (db.encodeKVKey key)) with
    | error e => rfl
    | ok n => rfl

theorem incr_parsed (henv : env.Commits) (hkey : ValidKey key)
    (hk : StrInt64 (st.store.get (db.encodeKVKey key)) = .ok k) (delta : Int64) :
    ∃ st', exec env (db.incr key delta) st = (.ok (k + delta), st') ∧
      st'.store.get (db.encodeKVKey key) = some (FormatInt64ToSlice (k + delta)) := by
  simp [incr_exec, checkKeySize_ok.mpr hkey, hk, henv.commit]

theorem incr_invalid (hkey : ¬ ValidKey key) (delta : Int64) :
    exec env (db.incr key delta) st = (.error .errKeySize, st) := by
  rw [incr_exec, checkKeySize_error hkey]

theorem incr_unparsed (hkey : ValidKey key)
    (he : StrInt64 (st.store.get (db.encodeKVKey key)) = .error e) (delta : Int64) :
    exec env (db.incr key delta) st = (.error e, st) := by
  rw [incr_exec, checkKeySize_ok.mpr hkey, he]

theorem hSetItem_run (hsize : decodeInt64 (s.get (db.hEncodeSizeKey key)) = .ok size)
    (field value : Bytes) (env : Env) (u : Txn) : ∃ n b, db.hSetItem key field value env s u =
      (.ok n, u.queue (b ++ [.put (db.hEncodeHashKey key field) value])) := by
  simp only [DB.hSetItem, Op.bind_run, Op.get_run]
  by_cases hsome : (s.get (db.hEncodeHashKey key field)).isSome
  · rw [if_pos hsome]
    exact ⟨0, [], by simp⟩
  · rw [if_neg hsome]
    obtain ⟨n, hn⟩ := incrSize_run db env u HashType key 1 hsize
    simp [DB.hIncrSize, hn]

theorem counter_invalid (hc : ¬ c.Valid) : ∃ e, exec env (c.body db) st = (.error e, st) := by
  cases c with
  | Incr key | IncrBy key _ | Decr key | DecrBy key _ =>
    exact ⟨.errKeySize, incr_invalid hc _⟩
  | HIncrBy key field delta =>
    cases hcheck : checkHashKFSize key field with
    | error e => exact ⟨e, by simp [exec, CounterCall.body, DB.HIncrBy, hcheck]⟩
    | ok _ => exact absurd (checkKMSize_ok.mp hcheck) hc

theorem counter_unparsed (hc : c.Valid) (he : StrInt64 (st.store.get (c.entry db)) = .error e) :
    exec env (c.body db) st = (.error e, st) := by
  cases c with
  | Incr key | IncrBy key _ | Decr key | DecrBy key _ =>
    exact incr_unparsed hc he _
  | HIncrBy key field delta =>
    have hcheck : checkHashKFSize key field = .ok () := checkKMSize_ok.mpr hc
    rw [CounterCall.entry] at he
    simp [exec, CounterCall.body, DB.HIncrBy, hcheck, he]

theorem counter_parsed (h : Reached st.store) (henv : env.Commits) (hc : c.Valid)
    (hk : StrInt64 (st.store.get (c.entry db)) = .ok k) :
    ∃ st', exec env (c.body db) st = (.ok (k + c.delta), st') ∧
      st'.store.get (c.entry db) = some (FormatInt64ToSlice (k + c.delta)) := by
  cases c with
  | Incr key | IncrBy key _ | Decr key | DecrBy key _ =>
    exact incr_parsed henv hc hk _
  | HIncrBy key field delta =>
    have hcheck : checkHashKFSize key field = .ok () := checkKMSize_ok.mpr hc
    obtain ⟨size, hsize⟩ := h.hashSize db key
    obtain ⟨n, b, hrun⟩ := hSetItem_run hsize field (FormatInt64ToSlice (k + delta)) env ⟨[], st.nc⟩
    rw [CounterCall.entry] at hk
    refine ⟨⟨st.store.applyBatch ([] ++ b ++ [.put (db.hEncodeHashKey key field)
      (FormatInt64ToSlice (k + delta))]), st.nc⟩, ?_, ?_⟩
    · simp [exec, CounterCall.body, CounterCall.delta, DB.HIncrBy, hcheck, hk, hrun, henv.commit]
    · rw [applyBatch_append]
      exact OrderedMap.get_applyBatch_put _ _ _

theorem CounterCall.read_eval (hc : c.Valid) :
    (c.read db).eval env s = .ok (s.get (c.entry db)) := by
  cases c with
  | Incr key | IncrBy key _ | Decr key | DecrBy key _ =>
    simp [read, entry, DB.Get, Op.eval, checkKeySize_ok.mpr hc]
  | HIncrBy key field delta =>
    have hcheck : checkHashKFSize key field = .ok () := checkKMSize_ok.mpr hc
    simp [read, entry, DB.HGet, Op.eval, hcheck]

section
variable (h : Reached st.store) (henv : env.Commits)
  (hk : StrInt64 (st.store.get (c.entry db)) = .ok k)
include h henv hk

theorem counts_iff :
    Counts db env st c (k.toInt + c.change) ↔ c.Valid ∧ FitsInt64 (k.toInt + c.change) := by
  constructor
  · rintro ⟨m, st', hrun, hm, -⟩
    refine ⟨?_, hm ▸ Int64.fits m⟩
    by_contra hc
    obtain ⟨e, he⟩ := counter_invalid hc
    rw [he] at hrun
    cases hrun
  · rintro ⟨hc, hfits⟩
    obtain ⟨st', hrun, hget⟩ := counter_parsed h henv hc hk
    have hsum : (k + c.delta).toInt = k.toInt + c.change := by
      rw [c.add_delta, Int.bmod_eq_of_le hfits.1 hfits.2]
    rw [FormatInt64ToSlice_eq, hsum] at hget
    refine ⟨_, st', hrun, hsum, by rw [CounterCall.read_eval hc, hget], ?_⟩
    rw [parseInt_ok_iff, hsum]
    exact isDecimal_decimalInt _

theorem counter_fails_iff : (∃ e, exec env (c.body db) st = (.error e, st)) ↔ ¬ c.Valid := by
  refine ⟨?_, fun hc => counter_invalid hc⟩
  rintro ⟨e, he⟩ hc
  obtain ⟨st', hrun, -⟩ := counter_parsed h henv hc hk
  rw [he] at hrun
  cases hrun

end

theorem StandsFor.unique {n' : ℤ} (h : StandsFor IsDecimal v n) (h' : StandsFor IsDecimal v n') :
    n = n' := by
  cases v with
  | none => exact Eq.trans h (Eq.symm h')
  | some b => exact IsDecimal.unique h h'

theorem StandsFor.mono (hform : ∀ b n, form b n → IsDecimal b n) (h : StandsFor form v n) :
    StandsFor IsDecimal v n := by
  cases v with
  | none => exact h
  | some b => exact hform b n h

theorem StandsFor.parsed (h : StandsFor IsDecimal v n) (hn : FitsInt64 n) :
    StrInt64 v = .ok (Int64.ofInt n) := by
  rwa [StrInt64_ok_iff, Int64.toInt_ofInt_fits hn]

theorem exactOrRefuses_iff (h : Reached st.store) (henv : env.Commits)
    (hform : ∀ b n, form b n → IsDecimal b n) :
    ExactOrRefuses form db env st c ↔ ∀ n, StandsFor IsDecimal (st.store.get (c.entry db)) n →
      FitsInt64 n → (StandsFor form (st.store.get (c.entry db)) n ∧ FitsInt64 (n + c.change) ↔
        c.Valid) := by
  constructor
  · intro hE n hn hfits
    have hk := hn.parsed hfits
    have hcounts := counts_iff h henv hk
    rw [Int64.toInt_ofInt_fits hfits] at hcounts
    constructor
    · rintro ⟨hf, hsum⟩
      exact (hcounts.mp (hE.counts n hf hfits hsum)).1
    · intro hc
      by_contra hno
      refine (counter_fails_iff h henv hk).mp (hE.refuses ?_) hc
      rintro ⟨n', hf, -, hsum⟩
      obtain rfl := hn.unique (hf.mono hform)
      exact hno ⟨hf, hsum⟩
  · intro hall
    refine ⟨fun n hf hfits hsum => ?_, fun hno => ?_⟩
    · have hn := hf.mono hform
      have hcounts := counts_iff h henv (hn.parsed hfits)
      rw [Int64.toInt_ofInt_fits hfits] at hcounts
      exact hcounts.mpr ⟨(hall n hn hfits).mp ⟨hf, hsum⟩, hsum⟩
    · by_cases hc : c.Valid
      · cases hk : StrInt64 (st.store.get (c.entry db)) with
        | error e => exact ⟨e, counter_unparsed hc hk⟩
        | ok k =>
          obtain ⟨hf, hsum⟩ := (hall k.toInt (StrInt64_ok_iff.mp hk) (Int64.fits k)).mpr hc
          exact absurd ⟨k.toInt, hf, Int64.fits k, hsum⟩ hno
      · exact counter_invalid hc

theorem counters_exact_iff (h : Reached st.store) (henv : env.Commits) (db : DB) (c : CounterCall) :
    (ExactOrRefuses IsDecimal db env st c ↔
      ∀ n, StandsFor IsDecimal (st.store.get (c.entry db)) n → FitsInt64 n →
        (FitsInt64 (n + c.change) ↔ c.Valid)) ∧
    (ExactOrRefuses (fun b n => b = Resp.decimalInt n) db env st c ↔
      ∀ n, StandsFor IsDecimal (st.store.get (c.entry db)) n → FitsInt64 n →
        (StandsFor (fun b n => b = Resp.decimalInt n) (st.store.get (c.entry db)) n ∧
          FitsInt64 (n + c.change) ↔ c.Valid)) := by
  constructor
  · rw [exactOrRefuses_iff h henv fun _ _ hf => hf]
    exact forall_congr' fun n => forall_congr' fun hn => by rw [and_iff_right hn]
  · refine exactOrRefuses_iff h henv ?_
    rintro b n rfl
    exact isDecimal_decimalInt n

end

theorem counters_exact_of_missing :
    ExactOrRefuses IsDecimal DB.zero (Env.quiet 0) State.empty (.HIncrBy [104] [102] 5) := by
  have henv : (Env.quiet 0).Commits := ⟨rfl, fun _ _ => rfl⟩
  refine (@counters_exact_iff (Env.quiet 0) State.empty .empty henv DB.zero
    (.HIncrBy [104] [102] 5)).1.mpr ?_
  rintro n rfl -
  exact iff_of_true (by decide) ⟨by decide, by decide⟩

theorem counters_wrap :
    (exec (Env.quiet 0) (DB.zero.Incr [107])
      (oneString (FormatInt64ToSlice 9223372036854775807))).1 = .ok (-9223372036854775808) ∧
    (exec (Env.quiet 0) (DB.zero.DecrBy [107] (-9223372036854775808)) State.empty).1 =
      .ok (-9223372036854775808) := by
  decide

end LedisDB
