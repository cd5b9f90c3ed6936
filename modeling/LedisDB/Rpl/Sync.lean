import LedisDB.Rpl.MasterLog
import LedisDB.Rpl.Replay

/-!
# Sending and storing logs

A slave asks for the log after the last one it has, stored or applied. The master
answers with the records of the logs from there on, up to a limit
(`ReadLogsTo` of `ledis/replication.go`, `syncCommand` of `server/cmd_replication.go`),
and the slave stores them one by one (`StoreLogsFromReader`, `sync` of
`server/replication.go`).
-/

namespace LedisDB.Rpl

open List

def maxReplLogSize : ℕ := 1 * 1024 * 1024

structure Stat where
  FirstID : UInt64
  LastID : UInt64
  CommitID : UInt64

def Replication.Stat (r : Replication) : Rpl.Stat × Replication :=
  let (firstID, r) := r.FirstLogID
  let (lastID, r) := r.LastLogID
  (⟨firstID, lastID, r.commitID⟩, r)

structure Reading where
  w : Bytes
  n : ℕ
  nextLogID : UInt64

def Replication.readLogs (r : Replication) (lastID : UInt64) :
    ℕ → UInt64 → Reading → Except Err Reading
  | 0, _, out => .ok out
  | fuel + 1, i, out =>
    if i ≤ lastID then
      match r.GetLog i with
      | .error e => .error e
      | .ok log =>
        let out : Reading := ⟨out.w ++ log.Encode, out.n + log.Size, i + 1⟩
        if out.n > maxReplLogSize then .ok out else r.readLogs lastID fuel (i + 1) out
    else .ok out

namespace Ledis

/-- Every log counts, so there are not more passes than `maxReplLogSize`. -/
def ReadLogsTo (l : Ledis) (startLogID : UInt64) : Except Err Reading × Ledis :=
  let (firstID, r) := l.r.FirstLogID
  if startLogID < firstID then (.error .ErrLogMissed, { l with r })
  else
    let (lastID, r) := r.LastLogID
    (r.readLogs lastID (maxReplLogSize + 1) startLogID ⟨[], 0, startLogID⟩, { l with r })

def syncCommand (l : Ledis) (logId : UInt64) : Except Err Bytes × Ledis :=
  let lastLogID := logId - 1
  let (stat, r) := l.r.Stat
  if lastLogID > stat.LastID then (.error .invalidSyncID, { l with r })
  else match ({ l with r } : Ledis).ReadLogsTo logId with
    | (.error e, l) => (.error e, l)
    | (.ok out, l) =>
      let (stat, r) := l.r.Stat
      (.ok (beBytes 8 stat.LastID.toNat ++ out.w), { l with r })

end Ledis

def Replication.storeLogs : ℕ → Bytes → Replication → Except Err Unit × Replication
  | 0, _, r => (.ok (), r)
  | fuel + 1, rb, r =>
    match Log.Decode rb with
    | .error .eof => (.ok (), r)
    | .error e => (.error e, r)
    | .ok (log, rb) =>
      match r.StoreLog log with
      | (.error e, r) => (.error e, r)
      | (.ok _, r) => r.storeLogs fuel rb

namespace Ledis

/-- Every log takes some of the bytes, so there are not more passes than these. -/
def StoreLogsFromReader (l : Ledis) (readonly : Bool) (rb : Bytes) : Except Err Unit × Ledis :=
  if !readonly then (.error .ErrRplInRDWR, l)
  else
    let (res, r) := l.r.storeLogs (rb.length + 1) rb
    (res, { l with r })

def nextSyncLogID (l : Ledis) : UInt64 × Ledis :=
  let (stat, r) := l.r.Stat
  (if stat.LastID > stat.CommitID then stat.LastID + 1 else stat.CommitID + 1, { l with r })

def receive (l : Ledis) (readonly : Bool) (buf : Bytes) : Except Err Unit × Ledis :=
  if buf.length < 8 then (.error .invalidSyncSize, l)
  else
    let buf := buf.drop 8
    if buf.length = 0 then (.ok (), l) else l.StoreLogsFromReader readonly buf

end Ledis

structure Carried (sn : Snappy) (bs : List Batch) (k : ℕ) (l : Log) : Prop where
  id_eq : l.ID.toNat = k + 1
  small : l.Data.length < 2 ^ 32
  encodes : ∃ b, bs[k]? = some b ∧ Encodes sn l b

def Carries (sn : Snappy) (bs : List Batch) : ℕ → List Log → Prop
  | _, [] => True
  | k, l :: ls => Carried sn bs k l ∧ Carries sn bs (k + 1) ls

section
variable {sn : Snappy} {bs : List Batch} {k : ℕ} {ls xs ys : List Rpl.Log} {l : Rpl.Log}
  {s : LogStore} {r : Replication} {fuel : ℕ}

theorem carries_append :
    Carries sn bs k (xs ++ ys) ↔ Carries sn bs k xs ∧ Carries sn bs (k + xs.length) ys := by
  induction xs generalizing k with
  | nil => simp [Carries]
  | cons x xs ih =>
    rw [cons_append, Carries, ih, Carries, length_cons, and_assoc,
      Nat.add_right_comm, Nat.add_assoc]

theorem Carried.mono {bs' : List Batch} (h : Carried sn bs k l) (hbs : bs <+: bs') :
    Carried sn bs' k l := by
  obtain ⟨b, hb, henc⟩ := h.encodes
  obtain ⟨rest, rfl⟩ := hbs
  refine ⟨h.id_eq, h.small, b, ?_, henc⟩
  rw [List.getElem?_append_left (List.getElem?_eq_some_iff.mp hb).1, hb]

section
variable (h : Carries sn bs k ls)
include h

theorem Carries.mono {bs' : List Batch} (hbs : bs <+: bs') : Carries sn bs' k ls := by
  induction ls generalizing k with
  | nil => trivial
  | cons l ls ih => exact ⟨h.1.mono hbs, ih h.2⟩

theorem Carries.numbered : Numbered (k + 1) ls := by
  induction ls generalizing k with
  | nil => exact .nil
  | cons l ls ih => exact numbered_cons.mpr ⟨h.1.id_eq, ih h.2⟩

theorem Carries.carried_of_mem (hl : l ∈ ls) : Carried sn bs (l.ID.toNat - 1) l := by
  induction ls generalizing k with
  | nil => cases hl
  | cons x ls ih =>
    rcases mem_cons.mp hl with rfl | hl
    · rw [h.1.id_eq]
      exact h.1
    · exact ih h.2 hl

theorem Carries.small : ∀ l ∈ ls, l.Data.length < 2 ^ 32 := fun _ hl => (h.carried_of_mem hl).small

theorem Carries.length_le (hk : k ≤ bs.length) : k + ls.length ≤ bs.length := by
  induction ls generalizing k with
  | nil => exact hk
  | cons l ls ih =>
    obtain ⟨b, hb, -⟩ := h.1.encodes
    have := ih h.2 (List.getElem?_eq_some_iff.mp hb).1
    rw [List.length_cons]
    omega

theorem Carries.lastID_eq (hne : ls ≠ []) : (lastID ls).toNat = k + ls.length := by
  have := h.numbered.lastID_eq hne
  omega

end

theorem LogStore.Holds.GetLog_cases (h : s.Holds ls) (id : UInt64) :
    (∃ l ∈ ls, l.ID = id ∧ s.GetLog id = .ok l.wire) ∨
      ∃ e, s.GetLog id = .error e ∧ (e = .ErrLogNotFound ∨ e = .panic) := by
  by_cases hmem : ∃ l ∈ ls, l.ID = id
  · obtain ⟨l, hl, rfl⟩ := hmem
    exact .inl ⟨l, hl, rfl, h.GetLog_of_mem hl⟩
  · have hne := fun l hl heq => hmem ⟨l, hl, heq⟩
    right
    cases s with
    | file s =>
      obtain ⟨ts, cur, h, rfl⟩ := h
      change ∃ e, s.GetLog id = .error e ∧ _
      rw [h.GetLog_of_not_mem hne]
      split_ifs
      · exact ⟨_, rfl, by simp⟩
      · exact ⟨_, rfl, by simp⟩
    | level s => exact ⟨_, LevelStore.Holds.GetLog_of_not_mem h hne, .inl rfl⟩

theorem LogStore.Holds.GetLog_ok (h : s.Holds ls) {id : UInt64} {x : Log}
    (hget : s.GetLog id = .ok x) : ∃ l ∈ ls, l.ID = id ∧ x = l.wire := by
  rcases h.GetLog_cases id with ⟨l, hl, hid, heq⟩ | ⟨e, heq, -⟩
  · rw [heq] at hget
    exact ⟨l, hl, hid, (Except.ok.inj hget).symm⟩
  · rw [heq] at hget
    cases hget

theorem LogStore.Holds.GetLog_error (h : s.Holds ls) {id : UInt64} {e : Err}
    (hget : s.GetLog id = .error e) : e = .ErrLogNotFound ∨ e = .panic := by
  rcases h.GetLog_cases id with ⟨l, -, -, heq⟩ | ⟨e', heq, he⟩
  · rw [heq] at hget
    cases hget
  · rw [heq] at hget
    cases hget
    exact he

theorem LogStore.Holds.FirstLogID_eq (h : r.s.Holds ls) :
    ∃ s', s'.Holds ls ∧ r.FirstLogID = (firstID ls, { r with s := s' }) := by
  obtain ⟨heq, h'⟩ := h.FirstID_eq
  exact ⟨_, h', by rw [Replication.FirstLogID, heq]⟩

theorem LogStore.Holds.LastLogID_eq (h : r.s.Holds ls) :
    ∃ s', s'.Holds ls ∧ r.LastLogID = (lastID ls, { r with s := s' }) := by
  obtain ⟨heq, h'⟩ := h.LastID_eq
  exact ⟨_, h', by rw [Replication.LastLogID, heq]⟩

theorem LogStore.Holds.Stat_eq (h : r.s.Holds ls) :
    ∃ s', s'.Holds ls ∧ r.Stat = (⟨firstID ls, lastID ls, r.commitID⟩, { r with s := s' }) := by
  obtain ⟨s₁, h₁, hfirst⟩ := h.FirstLogID_eq
  obtain ⟨s₂, h₂, hlast⟩ := @Holds.LastLogID_eq ls { r with s := s₁ } h₁
  refine ⟨s₂, h₂, ?_⟩
  rw [Replication.Stat, hfirst]
  dsimp only
  rw [hlast]

theorem Replication.readLogs_fuel (r : Replication) (lastID : UInt64) (i : UInt64)
    {out : Reading} (hn : out.n ≤ maxReplLogSize) (hfuel : maxReplLogSize < fuel + out.n) :
    r.readLogs lastID (fuel + 1) i out = r.readLogs lastID fuel i out := by
  induction fuel generalizing i out with
  | zero => omega
  | succ fuel ih =>
    rw [readLogs, readLogs]
    split_ifs with hle
    · cases r.GetLog i with
      | error e => rfl
      | ok l =>
        dsimp only
        split_ifs with hcut
        · rfl
        · have hsize : 0 < l.Size := Nat.add_pos_left (by decide) _
          exact ih _ (not_lt.mp hcut) (by dsimp only; omega)
    · rfl

theorem LogStore.Holds.readLogs_carries (h : r.s.Holds ls) (hc : Carries sn bs k ls)
    {last i : UInt64} {out out' : Reading} (hok : r.readLogs last fuel i out = .ok out') :
    ∃ xs, out'.w = out.w ++ records xs ∧ Carries sn bs (i.toNat - 1) xs ∧
      (xs ≠ [] → 0 < i.toNat ∧ i ≤ last) := by
  induction fuel generalizing i out with
  | zero =>
    cases hok
    exact ⟨[], by simp, trivial, fun hne => absurd rfl hne⟩
  | succ fuel ih =>
    unfold Replication.readLogs at hok
    split_ifs at hok with hle
    · cases hget : r.GetLog i with
      | error e =>
        rw [hget] at hok
        cases hok
      | ok x =>
        obtain ⟨l, hl, rfl, rfl⟩ := h.GetLog_ok hget
        have hcarried := hc.carried_of_mem hl
        rw [Log.wire_eq hcarried.small] at hget
        have hpos : 0 < l.ID.toNat := by
          have := hcarried.id_eq
          omega
        rw [hget] at hok
        dsimp only at hok
        split_ifs at hok with hcut
        · cases hok
          exact ⟨[l], by simp, ⟨hcarried, trivial⟩, fun _ => ⟨hpos, hle⟩⟩
        · obtain ⟨xs, hw, hxs, hne⟩ := ih hok
          refine ⟨l :: xs, by simp [hw], ⟨hcarried, ?_⟩, fun _ => ⟨hpos, hle⟩⟩
          by_cases hnil : xs = []
          · rw [hnil]
            trivial
          · have hnext : (l.ID + 1).toNat - 1 = l.ID.toNat - 1 + 1 := by
              have := (hne hnil).1
              rw [UInt64.toNat_add, UInt64.toNat_one] at this ⊢
              have := l.ID.toNat_lt
              omega
            rwa [hnext] at hxs
    · cases hok
      exact ⟨[], by simp, trivial, fun hne => absurd rfl hne⟩

namespace Ledis

variable {m : Ledis}

theorem ReadLogsTo_spec (h : m.r.s.Holds ls) (hc : Carries sn bs k ls) (i : UInt64) :
    ∃ s', s'.Holds ls ∧ (m.ReadLogsTo i).2 = { m with r := { m.r with s := s' } } ∧
      ∀ out, (m.ReadLogsTo i).1 = .ok out → ∃ xs, out.w = records xs ∧
        Carries sn bs (i.toNat - 1) xs ∧ (xs ≠ [] → 0 < i.toNat ∧ i ≤ lastID ls) := by
  obtain ⟨s₁, h₁, hfirst⟩ := h.FirstLogID_eq
  obtain ⟨s₂, h₂, hlast⟩ := @LogStore.Holds.LastLogID_eq ls { m.r with s := s₁ } h₁
  rw [ReadLogsTo, hfirst]
  dsimp only
  split_ifs with hmissed
  · exact ⟨s₁, h₁, rfl, fun out hout => nomatch hout⟩
  · rw [hlast]
    refine ⟨s₂, h₂, rfl, fun out hout => ?_⟩
    obtain ⟨xs, hw, hxs, hne⟩ :=
      @LogStore.Holds.readLogs_carries _ _ _ _ { m.r with s := s₂ } _ h₂ hc _ _ _ _ hout
    exact ⟨xs, by simpa using hw, hxs, hne⟩

end Ledis

theorem LogStore.Holds.StoreLog_cases (h : s.Holds ls) (h0 : l.ID ≠ 0)
    (hnext : ls ≠ [] → l.ID = lastID ls + 1) :
    ((s.StoreLog l).1 = .ok () ∧ (s.StoreLog l).2.Holds (ls ++ [l])) ∨
      (s.StoreLog l).1 ≠ .ok () ∧ (s.StoreLog l).2.Holds ls := by
  have hid : l.ID = (l.ID - 1) + 1 := (UInt64.sub_add_cancel _ _).symm
  have hlast : ls ≠ [] → lastID ls = l.ID - 1 := by
    intro hne
    rw [hnext hne, UInt64.add_sub_cancel]
  rcases h.StoreLog_next hlast hid h0 with ⟨-, hok, h'⟩ | ⟨-, herr, h'⟩
  · exact .inl ⟨hok, h'⟩
  · exact .inr ⟨herr, h'⟩

theorem LogStore.Holds.StoreLog_carried (h : s.Holds ls) (hc : Carries sn bs k ls)
    (hl : Carried sn bs (k + ls.length) l) :
    ((s.StoreLog l).1 = .ok () ∧ (s.StoreLog l).2.Holds (ls ++ [l])) ∨
      (s.StoreLog l).1 ≠ .ok () ∧ (s.StoreLog l).2.Holds ls := by
  have h0 : l.ID ≠ 0 := by
    rw [← UInt64.toNat_inj.ne, hl.id_eq]
    exact Nat.succ_ne_zero _
  refine h.StoreLog_cases h0 fun hne => ?_
  have hlt := l.ID.toNat_lt
  rw [← UInt64.toNat_inj, UInt64.toNat_add, hc.lastID_eq hne]
  rw [hl.id_eq] at hlt ⊢
  exact (Nat.mod_eq_of_lt hlt).symm

theorem Replication.storeLogs_records (h : r.s.Holds ls)
    (hc : Carries sn bs k ls) (hxs : Carries sn bs (k + ls.length) xs) (hfuel : xs.length < fuel) :
    ∃ ys s', ys <+: xs ∧ s'.Holds (ls ++ ys) ∧
      (r.storeLogs fuel (records xs)).2 = { r with s := s' } ∧
      ((r.storeLogs fuel (records xs)).1 = .ok () → ys = xs) := by
  induction xs generalizing ls r fuel with
  | nil =>
    obtain ⟨fuel, rfl⟩ : ∃ f, fuel = f + 1 := ⟨fuel - 1, by omega⟩
    exact ⟨[], r.s, prefix_rfl, by rwa [append_nil], rfl, fun _ => rfl⟩
  | cons x xs ih =>
    obtain ⟨fuel, rfl⟩ : ∃ f, fuel = f + 1 := ⟨fuel - 1, by omega⟩
    have hdecode : Log.Decode (records (x :: xs)) = .ok (x, records xs) := by
      have h := Log.Decode_Encode x (records xs)
      rwa [Nat.mod_eq_of_lt hxs.1.small, drop_length, Log.wire_eq hxs.1.small] at h
    rw [storeLogs, hdecode]
    dsimp only
    unfold StoreLog
    rcases h.StoreLog_carried hc hxs.1 with ⟨hok, h'⟩ | ⟨herr, h'⟩
    · rw [hok]
      have hlen : (ls ++ [x]).length = ls.length + 1 := by simp
      have hc' : Carries sn bs k (ls ++ [x]) := carries_append.mpr ⟨hc, hxs.1, trivial⟩
      obtain ⟨ys, s', hys, hs', heq, hall⟩ := @ih _ { r with s := (r.s.StoreLog x).2 } fuel h' hc'
        (by rw [hlen]; exact hxs.2) (by rw [length_cons] at hfuel; omega)
      refine ⟨x :: ys, s', cons_prefix_cons.mpr ⟨rfl, hys⟩, by simpa using hs', heq, ?_⟩
      intro h
      rw [hall h]
    · cases hres : (r.s.StoreLog x).1 with
      | ok u => exact absurd hres herr
      | error e =>
        exact ⟨[], _, nil_prefix, by rwa [append_nil], rfl, fun h => nomatch h⟩

end

end LedisDB.Rpl
