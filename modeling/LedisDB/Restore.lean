import LedisDB.ExpiryCompleteness
import LedisDB.ListSlices
import LedisDB.Migrate
import LedisDB.MultiWrite

/-!
# Restoring a dump

`Restore` clears the key, writes the dumped value with one call of its type and sets the
TTL with a third call. The dump of a key and what is restored from it meet at `Holds`:
the dump is of a value that the source holds, and a restore that succeeds makes the
target hold the value of the dump, whatever was there. It succeeds unless the value is a
list that does not fit into the half of the sequence numbers in which a list that is
pushed at its tail grows.
-/

namespace LedisDB

open DB List

variable (db : DB) (s : Store) (key : Bytes)

namespace RdbValue

variable {F : Type}

def type : RdbValue F → DataType
  | .String _ => .KV
  | .Hash _ => .HASH
  | .List _ => .LIST
  | .ZSet _ => .ZSET
  | .Set _ => .SET

/-- The key has this value; the order of fields and members is left open. -/
def Holds : RdbValue F → Prop
  | .String v => s.get (db.encodeKVKey key) = some v
  | .List xs => ∃ h, ListRep db s key ⟨h, xs⟩
  | .Hash fvs => Counted db s .HASH key ∧
      ∀ f v, s.get (front db .HASH key ++ f) = some v ↔ ⟨f, v⟩ ∈ fvs
  | .Set ms => Counted db s .SET key ∧ members db s .SET key = ms.toFinset
  | .ZSet _ => False

/-- A value that is not empty, of which the call that writes it accepts every part and counts
it once. -/
def Writable : RdbValue F → Prop
  | .String v => checkValueSize v = .ok ()
  | .List xs => xs ≠ [] ∧ xs.length ≤ 2 ^ 31
  | .Hash fvs => fvs ≠ [] ∧ (fvs.map FVPair.Field).Nodup ∧ fvs.length < 2 ^ 63 ∧
      ∀ a ∈ fvs, (do checkHashKFSize key a.Field; checkValueSize a.Value) = .ok ()
  | .Set ms => ms ≠ [] ∧ ms.Nodup ∧ ms.length < 2 ^ 63 ∧
      ∀ m ∈ ms, checkSetKMSize key m = .ok ()
  | .ZSet _ => False

def HasRoom : RdbValue F → Prop
  | .List xs => xs.length ≤ 1073740824
  | _ => True

end RdbValue

def ValueWf : DataType → Prop
  | .KV => ∀ v, s.get (db.encodeKVKey key) = some v → checkValueSize v = .ok ()
  | .LIST => ∃ q, ListRep db s key q
  | .HASH => Counted db s .HASH key ∧
      ∀ f v, s.get (db.hEncodeHashKey key f) = some v → checkValueSize v = .ok ()
  | .SET => Counted db s .SET key
  | .ZSET => ZWf db s key

def SameContent (s' : Store) (key' : Bytes) : DataType → Prop
  | .KV => s'.get (db.encodeKVKey key') = s.get (db.encodeKVKey key)
  | .LIST => ∃ q q', ListRep db s key q ∧ ListRep db s' key' q' ∧ q'.items = q.items
  | .HASH => Counted db s' .HASH key' ∧
      ∀ f, s'.get (db.hEncodeHashKey key' f) = s.get (db.hEncodeHashKey key f)
  | .SET => Counted db s' .SET key' ∧ members db s' .SET key' = members db s .SET key
  | .ZSET => ZWf db s' key' ∧
      ∀ m, s'.get (db.zEncodeSetKey key' m) = s.get (db.zEncodeSetKey key m)

section
variable {db : DB} {env : Env} {s s' : Store} {T : DataType} {key key' target v k x : Bytes}
  {st : State} {F : Type} {value : RdbValue F} {q : Sequence} {rdb : Rdb}
  {n ttl duration now : Int64}

theorem RdbValue.Holds.sameContent (h : value.Holds db s key) (h' : value.Holds db s' key') :
    SameContent db s key s' key' value.type := by
  cases value with
  | String v => exact h'.trans h.symm
  | List xs =>
    obtain ⟨a, ha⟩ := h
    obtain ⟨b, hb⟩ := h'
    exact ⟨_, _, ha, hb, rfl⟩
  | Hash fvs =>
    refine ⟨h'.1, fun f => Option.ext fun v => ?_⟩
    rw [hEncodeHashKey_front, hEncodeHashKey_front]
    exact (h'.2 f v).trans (h.2 f v).symm
  | Set ms => exact ⟨h'.1, h'.2.trans h.2.symm⟩
  | ZSet v => exact h.elim

theorem RdbValue.Holds.congr (h : value.Holds db s key)
    (hsame : ∀ ek, DataEntry db value.type key ek → s'.get ek = s.get ek) :
    value.Holds db s' key := by
  cases value with
  | String v => exact (hsame _ (.kv key)).trans h
  | List xs =>
    obtain ⟨a, ha⟩ := h
    exact ⟨a, ha.congr (hsame _ (.lmeta key)) fun n => hsame _ (.litem key n)⟩
  | Hash fvs =>
    obtain ⟨hC, hmem⟩ := h
    have hfield : ∀ f, s'.get (front db .HASH key ++ f) = s.get (front db .HASH key ++ f) := by
      intro f
      rw [← hEncodeHashKey_front]
      exact hsame _ (.hfield key f)
    refine ⟨hC.congr hfield (hsame _ (.hsize key)), fun f v => ?_⟩
    rw [hfield, hmem]
  | Set ms =>
    obtain ⟨hC, hmem⟩ := h
    have hmember : ∀ m, s'.get (front db .SET key ++ m) = s.get (front db .SET key ++ m) := by
      intro m
      rw [← sEncodeSetKey_front]
      exact hsame _ (.smember key m)
    exact ⟨hC.congr hmember (hsame _ (.ssize key)), (OrderedMap.suffixes_congr hmember).trans hmem⟩
  | ZSet v => exact h.elim

theorem Sequence.slice_all (q : Sequence) : q.slice 0 (-1) = q.items := by
  rcases hq : q.items with _ | ⟨x, xs⟩
  · simp [slice, hq]
  · simp [slice, hq, position]

theorem LRange_all (hs : StoreWf s) (hk : ValidKey key) (h : ListRep db s key q) :
    (db.LRange key 0 (-1)).eval env s = .ok q.items := by
  rw [Op.eval, LRange_run hs hk h]
  exact congrArg Except.ok q.slice_all

theorem dumpAll_eval {α : Type} {read : Op (List α)} {f : List α → RdbValue rdb.Float64}
    {xs : List α} (h : read.eval env s = .ok xs) (hne : xs ≠ []) :
    (DB.dumpAll rdb read f).eval env s = .ok (some (rdb.Dump (f xs))) := by
  rcases hr : read env s ⟨[], 0⟩ with ⟨r, t⟩
  rw [Op.eval, hr] at h
  cases h
  simp [dumpAll, Op.eval, hr, hne]

theorem Counted.under_ne_nil (hC : Counted db s T key) (h : s.get (sizeKey db T key) ≠ none) :
    s.under (front db T key) ≠ [] := by
  intro hnil
  have hcard : (members db s T key).card = 0 := by
    rw [members, OrderedMap.card_suffixes, hnil]
    rfl
  exact h (by rw [hC.size, if_pos hcard])

theorem Counted.under_length (hC : Counted db s T key) :
    (s.under (front db T key)).length < 2 ^ 63 := by
  rw [← OrderedMap.card_suffixes]
  exact hC.card_lt

theorem xdump_holds (rdb : Rdb) (hs : StoreWf s) (hk : ValidKey key) (hT : T ≠ .ZSET)
    (hwf : ValueWf db s key T) (hne : s.get (db.plainKey T.plain key) ≠ none)
    (ht : ValidKey target) :
    ∃ value : RdbValue rdb.Float64,
      (xdump rdb db T key).eval env s = .ok (some (rdb.Dump value)) ∧ value.type = T ∧
      value.Holds db s key ∧ value.Writable target := by
  cases T with
  | KV =>
    obtain ⟨v, hv⟩ := Option.ne_none_iff_exists'.mp hne
    have hget : s.get (db.encodeKVKey key) = some v := hv
    refine ⟨.String v, ?_, rfl, hget, hwf v hget⟩
    simp [xdump, DB.Dump, DB.Get, Op.eval, checkKeySize_ok.mpr hk, hget]
  | LIST =>
    obtain ⟨q, h⟩ := hwf
    have hq : q.items ≠ [] := by
      intro hq
      have hnone := h.metaEntry
      rw [if_pos hq] at hnone
      exact hne hnone
    refine ⟨.List q.items, dumpAll_eval (LRange_all hs hk h) hq, rfl, ⟨q.head, h⟩, hq, ?_⟩
    have := push_base h hq
    omega
  | HASH =>
    obtain ⟨hC, hsize⟩ := hwf
    have hnil := hC.under_ne_nil hne
    refine ⟨.Hash ((s.under (front db .HASH key)).map fun e => ⟨e.1, e.2⟩),
      dumpAll_eval (HGetAll_eval hk) (by simpa using hnil), rfl,
      ⟨hC, fun f v => ?_⟩, by simpa using hnil, ?_, ?_, ?_⟩
    · rw [mem_map, ← OrderedMap.mem_under]
      constructor
      · exact fun h => ⟨(f, v), h, rfl⟩
      · rintro ⟨e, he, heq⟩
        cases heq
        exact he
    · rw [map_map]
      exact s.under_nodup _
    · rw [length_map]
      exact hC.under_length
    · intro a ha
      obtain ⟨e, he, rfl⟩ := mem_map.mp ha
      have hfield : checkHashKFSize target e.1 = .ok () :=
        checkKMSize_ok.mpr ⟨ht, hs.member_valid (.inl rfl) he⟩
      have hvalue : checkValueSize e.2 = .ok () := by
        refine hsize e.1 e.2 ?_
        rw [hEncodeHashKey_front]
        exact OrderedMap.mem_under.mp he
      simp [hfield, hvalue, bind, Except.bind]
  | SET =>
    have hC := hwf
    have hnil := hC.under_ne_nil hne
    refine ⟨.Set ((s.under (front db .SET key)).map Prod.fst),
      dumpAll_eval (SMembers_eval hk) (by simpa using hnil), rfl,
      ⟨hC, rfl⟩, by simpa using hnil, s.under_nodup _, ?_, ?_⟩
    · rw [length_map]
      exact hC.under_length
    · intro m hm
      obtain ⟨e, he, rfl⟩ := mem_map.mp hm
      exact checkKMSize_ok.mpr ⟨ht, hs.member_valid (.inr (.inl rfl)) he⟩
  | ZSET => exact absurd rfl hT

section
variable (henv : env.Commits) (hs : StoreWf st.store)
include henv hs

theorem Erases.clear_exec (hk : ValidKey key) (h : Erases db st.store T key) : ∃ n st',
      exec env (db.clear T.code (db.deleteFunc T) key) st = (.ok n, st') ∧
      Clean db st'.store T key := by
  obtain ⟨n, b, hrun, hw⟩ := h env ⟨[], st.nc⟩
  obtain ⟨r, hrm⟩ := rmExpire_run db env st.store ⟨b, st.nc⟩ T.code key
  refine ⟨n, _, henv.exec (t := ⟨b ++ db.rmBatch st.store T.code key, st.nc⟩) ?_, hw.clean hs⟩
  simp [clear, checkKeySize_ok.mpr hk, hrun, hrm]

theorem Del_exec : ∃ st',
    exec env (db.Del [key]) st = (.ok 1, st') ∧ Clean db st'.store .KV key := by
  obtain ⟨r, hrm⟩ := rmExpire_run db env st.store ⟨[.delete (db.encodeKVKey key)], st.nc⟩ KVType key
  refine ⟨_, henv.exec (t := ⟨[.delete (db.encodeKVKey key)] ++
    db.rmBatch st.store KVType key, st.nc⟩) ?_, (delete_wipes).clean hs⟩
  rw [DB.Del, if_neg (by simp)]
  simp only [delLoop, Op.bind_run, Op.delete_run, Txn.queue, nil_append, hrm]
  rfl

theorem xdel_exec (hk : ValidKey key) (hT : T ≠ .ZSET) (hc : Consistent db st.store T key) : ∃ st',
      exec env ((xdel key T).body db) st = (.ok (), st') ∧ Clean db st'.store T key ∧
      StoreWf st'.store := by
  obtain ⟨st', hexec, hclean⟩ : ∃ st',
      exec env ((xdel key T).body db) st = (.ok (), st') ∧ Clean db st'.store T key := by
    by_cases hkv : T = .KV
    · subst hkv
      obtain ⟨st', hexec, hclean⟩ := Del_exec henv hs
      refine ⟨st', ?_, hclean⟩
      show exec env (db.Del [key]).discard st = _
      rw [exec_discard, hexec]
      rfl
    · obtain ⟨n, st', hexec, hclean⟩ := (hc.erases hs hk.2).clear_exec henv hs hk
      refine ⟨st', ?_, hclean⟩
      have hbody : (xdel key T).body db = (db.clear T.code (db.deleteFunc T) key).discard := by
        cases T with
        | KV => exact absurd rfl hkv
        | ZSET => exact absurd rfl hT
        | _ => rfl
      rw [hbody, exec_discard, hexec]
      rfl
  refine ⟨st', hexec, hclean, ?_⟩
  have hwf : StoreWf (exec env ((xdel key T).body db) st).2.store := write_wf hs _
  rwa [hexec] at hwf

end

section
variable (h : Clean db s T key) (hT : T = .HASH ∨ T = .SET)
include h hT

theorem Clean.front_get (x : Bytes) : s.get (front db T key ++ x) = none := by
  refine h _ (.inl ?_)
  rcases hT with rfl | rfl
  · rw [← hEncodeHashKey_front]
    exact .hfield key x
  · rw [← sEncodeSetKey_front]
    exact .smember key x

theorem Clean.collectionWf : CollectionWf db T key s := by
  refine ⟨Counted.cleared (h.front_get hT) (h _ (.inl (DataEntry.plain db T key))), ?_, ?_⟩
  · rintro rfl
    rcases hT with hT | hT <;> cases hT
  · intro v hv
    rw [h _ (.inr rfl)] at hv
    cases hv

theorem Clean.members_eq : members db s T key = ∅ := by
  ext x
  simp [mem_members, h.front_get hT x]

end

theorem AddCall.fill {α : Type} {pair : α → Bytes × Bytes} {num : Int64 → Int64} {valid : α → Prop}
    {cond : Store → List α → Prop} {call : List α → State → Except Err Int64 × State}
    (h : AddCall db T key pair num valid cond call) (hT : T = .HASH ∨ T = .SET)
    (hclean : Clean db st.store T key) {args : List α} (hvalid : ∀ a ∈ args, valid a)
    (hlen : args.length < 2 ^ 63) (hcond : cond st.store args) : ∃ n st',
      call args st = (.ok n, st') ∧ Counted db st'.store T key ∧
      members db st'.store T key = ((args.map pair).map Prod.fst).toFinset ∧
      ∀ x, st'.store.get (front db T key ++ x) = (putUpdate (args.map pair) x).getD none := by
  have hempty := hclean.members_eq hT
  have hroom : (members db st.store T key ∪
      ((args.map pair).map Prod.fst).toFinset).card < 2 ^ 63 := by
    rw [hempty]
    calc ((args.map pair).map Prod.fst).toFinset.card
        ≤ ((args.map pair).map Prod.fst).length := toFinset_card_le _
      _ = args.length := by rw [length_map, length_map]
      _ < 2 ^ 63 := hlen
  obtain ⟨st', hcall, hupd⟩ := h.runs args st (hclean.collectionWf hT) hvalid hroom hlen
  have hU := hupd.mp hcond
  refine ⟨_, st', hcall, hU.counted, ?_, fun x => ?_⟩
  · rw [hU.members_put, hempty, Finset.empty_union]
  · rw [hU.member, hclean.front_get hT]

theorem putUpdate_eq_some {args : List (Bytes × Bytes)} (h : (args.map Prod.fst).Nodup) :
    putUpdate args x = some (some v) ↔ (x, v) ∈ args := by
  induction args with
  | nil => simp [putUpdate]
  | cons a as ih =>
    obtain ⟨ha, has⟩ := nodup_cons.mp h
    rw [putUpdate_cons, mem_cons]
    by_cases hx : a.1 = x
    · have hnone := putUpdate_eq_none.mpr (hx ▸ ha)
      have hnot : (x, v) ∉ as := by
        intro hmem
        rw [← ih has, hnone] at hmem
        cases hmem
      rw [hnone, Option.none_or, if_pos hx, ← hx]
      rw [← hx] at hnot
      simp only [hnot, or_false, Option.some.injEq]
      constructor
      · rintro rfl
        rfl
      · intro h
        rw [← h]
    · have hne : (x, v) ≠ a := fun h => hx (congrArg Prod.fst h).symm
      rw [if_neg hx, Option.or_none, ih has]
      simp [hne]

theorem pushTail_fits (z : ℤ) (xs : List Bytes) :
    (Sequence.pushTail ⟨z, []⟩ xs).Fits ↔ xs.length ≤ 1073740824 := by
  simp only [Sequence.pushTail, Sequence.Fits, Sequence.tail, if_true, nil_append]
  omega

theorem counting_ok {γ : Type} {g : γ → Int64} {r : Except Err γ × State}
    (h : counting g r = (.ok n, st)) : ∃ a, r = (.ok a, st) := by
  obtain ⟨r, st'⟩ := r
  cases r with
  | error e => cases h
  | ok a =>
    cases h
    exact ⟨a, rfl⟩

theorem getD_none_eq_some {x : Option (Option Bytes)} :
    x.getD none = some v ↔ x = some (some v) := by
  cases x <;> simp

theorem push_exec {x : Op (Ret Int64)} (henv : env.Commits)
    (hrun : Pushes db env st.store ⟨[], st.nc⟩ key x n q) (hfits : q.Fits) : ∃ st',
      exec env x.discard st = (.ok (), st') ∧ ListRep db st'.store key q := by
  obtain ⟨b, hb, hrep⟩ := hrun
  rw [if_pos hfits] at hb
  refine ⟨⟨st.store.applyBatch b, st.nc⟩, ?_, hrep hfits⟩
  rw [exec_discard, henv.exec hb]
  rfl

theorem fill_exec {value : RdbValue rdb.Float64} (henv : env.Commits) (hk : ValidKey key)
    (hclean : Clean db st.store value.type key) (hw : value.Writable key) (hroom : value.HasRoom)
    (ttl : Int64) : ∃ st',
      exec env ((DB.restoreCalls rdb key ttl value).2.1.body db) st = (.ok (), st') ∧
      value.Holds db st'.store key := by
  cases value with
  | String v =>
    refine ⟨⟨st.store.applyBatch [.put (db.encodeKVKey key) v], st.nc⟩, ?_, ?_⟩
    · have hset : exec env (db.Set key v) st = _ :=
        henv.exec (t := ⟨[.put (db.encodeKVKey key) v], st.nc⟩) (a := ())
          (by simp [DB.Set, checkKeySize_ok.mpr hk, show checkValueSize v = .ok () from hw])
      show exec env (db.Set key v).discard st = _
      rw [exec_discard, hset]
      rfl
    · show ((st.store.applyOp (.put (db.encodeKVKey key) v))).get _ = some v
      rw [get_applyOp]
      simp
  | List xs =>
    obtain ⟨hne, hlen⟩ := hw
    obtain ⟨st', hexec, hrep⟩ := push_exec henv
      (RPush_run env ⟨[], st.nc⟩ hk (hclean.listRep 0) hne hlen) ((pushTail_fits 0 xs).mpr hroom)
    exact ⟨st', hexec, _, hrep⟩
  | Hash fvs =>
    obtain ⟨hne, hnodup, hlen, hvalid⟩ := hw
    have hnodup' : ((fvs.map fun a => (a.Field, a.Value)).map Prod.fst).Nodup := by
      rwa [map_map]
    obtain ⟨n, st', hcall, hC, -, hget⟩ := (HMset_call henv).fill (.inl rfl) hclean hvalid hlen
      (hnodup'.filter _)
    refine ⟨st', ?_, hC, fun f v => ?_⟩
    · obtain ⟨u, hexec⟩ := counting_ok hcall
      show exec env (db.HMset key fvs).discard st = _
      rw [exec_discard, hexec]
      rfl
    · rw [hget, getD_none_eq_some, putUpdate_eq_some hnodup', mem_map]
      constructor
      · rintro ⟨a, ha, heq⟩
        cases heq
        exact ha
      · exact fun h => ⟨_, h, rfl⟩
  | Set ms =>
    obtain ⟨hne, hnodup, hlen, hvalid⟩ := hw
    have hfst : (ms.map fun m => (m, ([] : Bytes))).map Prod.fst = ms := by
      rw [map_map]
      exact map_id ms
    obtain ⟨n, st', hcall, hC, hmem, -⟩ := (SAdd_call henv).fill (.inr rfl) hclean hvalid hlen
      ((hfst.symm ▸ hnodup).filter _)
    rw [hfst] at hmem
    refine ⟨st', ?_, hC, hmem⟩
    show exec env (db.SAdd key ms).discard st = _
    rw [exec_discard, hcall]
    rfl
  | ZSet v => exact hw.elim

theorem fill_full {value : RdbValue rdb.Float64} (hk : ValidKey key)
    (hclean : Clean db st.store value.type key) (hw : value.Writable key) (hroom : ¬ value.HasRoom)
    (ttl : Int64) :
    exec env ((DB.restoreCalls rdb key ttl value).2.1.body db) st =
      (.error .errListSeq, ⟨st.store, st.nc⟩) := by
  cases value with
  | List xs =>
    obtain ⟨hne, hlen⟩ := hw
    obtain ⟨b, hrun, -⟩ := RPush_run env ⟨[], st.nc⟩ hk (hclean.listRep 0) hne hlen
    rw [if_neg fun h => hroom ((pushTail_fits 0 xs).mp h)] at hrun
    show exec env (db.RPush key xs).discard st = _
    rw [exec_discard, exec, hrun]
    rfl
  | _ => exact absurd trivial hroom

theorem write_undated (hs : StoreWf st.store) (c : Write) (hc : c.deadline env.now = none)
    (h : deadlineOf db st.store T k = none) :
    deadlineOf db (exec env (c.body db) st).2.store T k = none := by
  rcases exec_store env (c.body db) st with heq | heq <;> rw [heq]
  · exact h
  · obtain ⟨b, hb, hemits⟩ := Write.emits db env hs c ⟨[], st.nc⟩
    rw [hb]
    rw [hc] at hemits
    by_contra hne
    obtain ⟨v, hv⟩ := Option.ne_none_iff_exists'.mp hne
    rcases hemits.deadline hv with hv | ⟨-, w, hw, -⟩
    · rw [h] at hv
      cases hv
    · cases hw

theorem expireSized_discard (henv : env.Commits) {size : Op Int64}
    (hsize : size env st.store ⟨[], st.nc⟩ = (.ok n, ⟨[], st.nc⟩)) (hn : n ≠ 0)
    (hpos : 0 < duration) :
    ∃ nc, exec env (DB.expireDuration duration (db.expireSized T.code key size)).discard st =
      (.ok (), ⟨st.store.applyBatch (expireBatch db T key (env.now + duration)), nc⟩) := by
  obtain ⟨nc, hrun⟩ := @expireSized_run db env T st key size n duration hsize hn hpos
  refine ⟨nc, ?_⟩
  rw [exec_discard, henv.exec hrun]
  rfl

theorem Counted.expire_exec (hC : Counted db st.store T key) (henv : env.Commits)
    (hk : ValidKey key) (hne : (members db st.store T key).Nonempty) (hpos : 0 < ttl) : ∃ nc,
      exec env (DB.expireDuration ttl (db.expireSized T.code key
        (DB.readSize (sizeKey db T key) key))).discard st = (.ok (),
          ⟨st.store.applyBatch (expireBatch db T key (env.now + ttl)), nc⟩) := by
  refine expireSized_discard henv ?_ (ofNat_ne_zero hne.card_ne_zero hC.card_lt) hpos
  simp [DB.readSize, checkKeySize_ok.mpr hk, hC.decode]

theorem expire_exec {value : RdbValue rdb.Float64} (henv : env.Commits) (hk : ValidKey key)
    (h : value.Holds db st.store key) (hw : value.Writable key) (hpos : 0 < ttl) : ∃ nc,
      exec env ((DB.restoreCalls rdb key ttl value).2.2.body db) st = (.ok (),
        ⟨st.store.applyBatch (expireBatch db value.type key (env.now + ttl)), nc⟩) := by
  cases value with
  | String v =>
    have hget : st.store.get (db.encodeKVKey key) = some v := h
    refine expireSized_discard (T := .KV) (n := 1) henv ?_ (by decide) hpos
    simp [DB.Exists, keyExists, checkKeySize_ok.mpr hk, hget]
  | List xs =>
    obtain ⟨a, ha⟩ := h
    have hlen : xs.length < 2 ^ 63 := lt_of_le_of_lt hw.2 (by norm_num)
    exact expireSized_discard (T := .LIST) henv (LLen_run hk ha)
      (ofNat_ne_zero (by simpa using hw.1) hlen) hpos
  | Hash fvs =>
    obtain ⟨a, ha⟩ := exists_mem_of_ne_nil _ hw.1
    have hmem : a.Field ∈ members db st.store .HASH key := by
      rw [mem_members, (h.2 a.Field a.Value).mpr ha]
      rfl
    exact h.1.expire_exec henv hk ⟨_, hmem⟩ hpos
  | Set ms =>
    obtain ⟨m, hm⟩ := exists_mem_of_ne_nil _ hw.1
    have hmem : m ∈ members db st.store .SET key := by
      rw [h.2]
      exact mem_toFinset.mpr hm
    exact h.1.expire_exec henv hk ⟨_, hmem⟩ hpos
  | ZSet v => exact hw.elim

theorem deadlineOf_expireBatch (w : Int64) :
    deadlineOf db (s.applyBatch (expireBatch db T key w)) T key = some (PutInt64 w) := by
  refine (deadlineOf_expireAt db s T key w T key).trans ?_
  rw [if_pos ⟨rfl, rfl⟩]

theorem restoreSeconds_nonpos (h : ttl ≤ 0) : ¬ DB.restoreSeconds ttl > 0 := by
  rw [restoreSeconds, if_neg (by simpa using h)]
  simpa using h

theorem restoreSeconds_toInt (h : 0 < ttl) :
    (DB.restoreSeconds ttl).toInt = max 1 (ttl.toInt / 1000) := by
  have hpos : 0 < ttl.toInt := by simpa using Int64.lt_iff_toInt_lt.mp h
  have hdiv : (ttl / 1000).toInt = ttl.toInt / 1000 := by
    rw [Int64.toInt_div, show (1000 : Int64).toInt = 1000 from rfl,
      Int.tdiv_eq_ediv_of_nonneg hpos.le]
    have := Int64.toInt_lt ttl
    refine Int.bmod_eq_of_le ?_ ?_ <;> omega
  have hzero : ttl / 1000 = 0 ↔ ttl.toInt / 1000 = 0 := by
    rw [← Int64.toInt_inj, hdiv]
    rfl
  rw [restoreSeconds, if_pos h]
  split_ifs with h0
  · rw [hzero.mp h0]
    rfl
  · have := mt hzero.mpr h0
    omega

theorem restoreSeconds_pos (h : 0 < ttl) : 0 < DB.restoreSeconds ttl := by
  rw [Int64.lt_iff_toInt_lt, restoreSeconds_toInt h]
  exact lt_of_lt_of_le Int.zero_lt_one (le_max_left _ _)

/-- The TTL that a restore with `ttl` milliseconds leaves: none, or whole seconds and at least
one. -/
def TtlSet (db : DB) (s : Store) (T : DataType) (key : Bytes) (now ttl : Int64) : Prop :=
  if ttl ≤ 0 then deadlineOf db s T key = none
  else ∃ w : Int64, deadlineOf db s T key = some (PutInt64 w) ∧
    (now.toInt + max 1 (ttl.toInt / 1000) < 2 ^ 63 → w.toInt = now.toInt + max 1 (ttl.toInt / 1000))

theorem restore_deadline (h : 0 < ttl) (hlt : now.toInt + max 1 (ttl.toInt / 1000) < 2 ^ 63) :
    (now + DB.restoreSeconds ttl).toInt = now.toInt + max 1 (ttl.toInt / 1000) := by
  rw [Int64.toInt_add, restoreSeconds_toInt h]
  have := Int64.le_toInt now
  refine Int.bmod_eq_of_le ?_ ?_ <;> omega

theorem RdbValue.Writable.type_ne {F : Type} {value : RdbValue F} (h : value.Writable key) :
    value.type ≠ .ZSET := by
  cases value with
  | ZSet v => exact h.elim
  | _ => exact fun h => nomatch h

theorem restoreCalls_clear (rdb : Rdb) (ttl : Int64) (value : RdbValue rdb.Float64) :
    (DB.restoreCalls rdb key ttl value).1 = xdel key value.type := by
  cases value <;> rfl

theorem restoreCalls_write_deadline (rdb : Rdb) (ttl now : Int64) (value : RdbValue rdb.Float64) :
    (DB.restoreCalls rdb key ttl value).2.1.deadline now = none := by
  cases value <;> rfl

section
variable (rdb : Rdb) (value : RdbValue rdb.Float64)

section
variable (hrdb : rdb.DecodeDump (rdb.Dump value) = .ok value) (henv : env.Commits)
  (hs : StoreWf st.store) (hk : ValidKey key) (hc : Consistent db st.store value.type key)
  (hw : value.Writable key)
include hrdb henv hs hk hc hw

theorem Restore_holds (hroom : value.HasRoom) (ttl : Int64) : ∃ st',
      db.Restore rdb key ttl (rdb.Dump value) env st = (.ok (), st') ∧
      value.Holds db st'.store key ∧ TtlSet db st'.store value.type key env.now ttl := by
  obtain ⟨st₁, hclear, hclean, hs₁⟩ := xdel_exec henv hs hk hw.type_ne hc
  rw [← restoreCalls_clear rdb (restoreSeconds ttl)] at hclear
  obtain ⟨st₂, hfill, hholds⟩ := fill_exec henv hk hclean hw hroom (restoreSeconds ttl)
  by_cases hpos : 0 < ttl
  · have hsecs := restoreSeconds_pos hpos
    obtain ⟨nc, hexp⟩ := expire_exec henv hk hholds hw hsecs
    refine ⟨⟨st₂.store.applyBatch (expireBatch db value.type key
      (env.now + restoreSeconds ttl)), nc⟩, ?_,
      hholds.congr fun ek hek => expireBatch_data hek _, ?_⟩
    · simp [DB.Restore, hrdb, hclear, hfill, if_pos hsecs, hexp]
    · rw [TtlSet, if_neg (Int64.not_le.mpr hpos)]
      exact ⟨_, deadlineOf_expireBatch .., restore_deadline hpos⟩
  · have hle := Int64.not_lt.mp hpos
    refine ⟨st₂, ?_, hholds, ?_⟩
    · simp [DB.Restore, hrdb, hclear, hfill, if_neg (restoreSeconds_nonpos hle)]
    · have hnone := write_undated hs₁ (restoreCalls rdb key (restoreSeconds ttl) value).2.1
        (restoreCalls_write_deadline _ _ env.now _) (hclean _ (.inr rfl))
      rw [hfill] at hnone
      rwa [TtlSet, if_pos hle]

theorem Restore_full (hroom : ¬ value.HasRoom) (ttl : Int64) : ∃ st',
      db.Restore rdb key ttl (rdb.Dump value) env st = (.error .errListSeq, st') ∧
      Clean db st'.store value.type key := by
  obtain ⟨st₁, hclear, hclean, -⟩ := xdel_exec henv hs hk hw.type_ne hc
  rw [← restoreCalls_clear rdb (restoreSeconds ttl)] at hclear
  refine ⟨⟨st₁.store, st₁.nc⟩, ?_, hclean⟩
  simp [DB.Restore, hrdb, hclear, fill_full hk hclean hw hroom]

end

end

end

theorem restore_dump_iff (rdb : Rdb)
    (hrdb : ∀ value, value.type ≠ .ZSET → rdb.DecodeDump (rdb.Dump value) = .ok value) (db : DB)
    (env : Env) (henv : env.Commits) (st : State) (hs : StoreWf st.store) (T : DataType)
    (hT : T ≠ .ZSET) (source target : Bytes) (hsource : ValidKey source) (htarget : ValidKey target)
    (hwf : ValueWf db st.store source T) (hne : st.store.get (db.plainKey T.plain source) ≠ none)
    (hc : Consistent db st.store T target) (ttl : Int64) :
    ∃ data, (xdump rdb db T source).eval env st.store = .ok (some data) ∧
      ((∃ st', db.Restore rdb target ttl data env st = (.ok (), st') ∧
        SameContent db st.store source st'.store target T ∧
        TtlSet db st'.store T target env.now ttl) ↔
      (T = .LIST → ∀ q, ListRep db st.store source q → q.items.length ≤ 1073740824)) := by
  obtain ⟨value, hdump, rfl, hholds, hw⟩ := xdump_holds rdb hs hsource hT hwf hne htarget
  refine ⟨rdb.Dump value, hdump, ?_, fun hroom => ?_⟩
  · rintro ⟨st', hrestore, -⟩ hlist q hq
    by_contra hlong
    cases value with
    | List xs =>
      obtain ⟨a, ha⟩ := hholds
      have hfull : ¬ (RdbValue.List xs : RdbValue rdb.Float64).HasRoom := by
        rwa [hq.items_unique ha] at hlong
      obtain ⟨st'', hfail, -⟩ := Restore_full rdb _ (hrdb _ hT) henv hs htarget hc hw hfull ttl
      rw [hrestore] at hfail
      cases hfail
    | _ => cases hlist
  · have hfits : value.HasRoom := by
      cases value with
      | List xs =>
        obtain ⟨a, ha⟩ := hholds
        exact hroom rfl _ ha
      | _ => trivial
    obtain ⟨st', hrestore, hholds', httl⟩ :=
      Restore_holds rdb value (hrdb _ hT) henv hs htarget hc hw hfits ttl
    exact ⟨st', hrestore, hholds.sameContent hholds', httl⟩

def twoHashes : State := run DB.zero
  [(Env.quiet 0, .write (.HMset [107] [⟨[102], [118]⟩, ⟨[103], [119]⟩])),
    (Env.quiet 0, .write (.HSet [116] [120] [121])),
    (Env.quiet 0, .write (.HExpire [116] 9))] State.empty

theorem restore_dump_hash : ∃ data st', (xdump Migration.plain DB.zero .HASH [107]).eval
      (Env.quiet 5) twoHashes.store = .ok (some data) ∧
    DB.zero.Restore Migration.plain [116] 3500 data (Env.quiet 5) twoHashes = (.ok (), st') ∧
    st'.store.get (DB.zero.hEncodeHashKey [116] [103]) = some [119] ∧
    st'.store.get (DB.zero.hEncodeHashKey [116] [120]) = none ∧
    TtlSet DB.zero st'.store .HASH [116] 5 3500 := by
  have hC : Counted DB.zero twoHashes.store .HASH [107] := ⟨by decide, by decide⟩
  have hsize : ∀ f v, twoHashes.store.get (DB.zero.hEncodeHashKey [107] f) = some v →
      checkValueSize v = .ok () := by
    have hall : ∀ e ∈ twoHashes.store.under (front DB.zero .HASH [107]),
        checkValueSize e.2 = .ok () := by decide
    intro f v hget
    exact hall (f, v) (OrderedMap.mem_under.mpr hget)
  obtain ⟨data, hdump, hiff⟩ := restore_dump_iff Migration.plain (fun _ _ => rfl) DB.zero
    (Env.quiet 5) ⟨rfl, fun _ _ => rfl⟩ twoHashes (run_wf DB.zero _) .HASH (by decide) [107] [116]
    (by decide) (by decide) ⟨hC, hsize⟩ (by decide) trivial 3500
  obtain ⟨st', hrestore, ⟨-, hsame⟩, httl⟩ := hiff.mpr (by intro h; cases h)
  refine ⟨data, st', hdump, hrestore, ?_, ?_, httl⟩
  · rw [hsame]
    decide
  · rw [hsame]
    decide

def longList (xs : List Bytes) : List (Env × Call) :=
  [(Env.quiet 0, .write (.LPush [107] [[118], [118]])), (Env.quiet 0, .write (.RPush [107] xs))]

theorem longList_rep {xs : List Bytes} (hlen : xs.length = 1073740823) :
    ListRep DB.zero (run DB.zero (longList xs) State.empty).store [107]
      ⟨1073741823, [[118], [118]] ++ xs⟩ := by
  have henv : (Env.quiet 0).Commits := ⟨rfl, fun _ _ => rfl⟩
  have hk : ValidKey [107] := by decide
  have hnil : ListRep zero State.empty.store [107] ⟨0, []⟩ := ListRep.of_empty rfl fun _ => rfl
  obtain ⟨st₁, hexec₁, hrep₁⟩ := push_exec henv
    (LPush_run (Env.quiet 0) ⟨[], State.empty.nc⟩ hk hnil (cons_ne_nil [118] [[118]])
      (by simp)) (by decide)
  have hne : xs ≠ [] := by
    rintro rfl
    simp at hlen
  have hfits : (Sequence.pushTail ⟨1073741823, [[118], [118]]⟩ xs).Fits := by
    simp [Sequence.pushTail, Sequence.Fits, Sequence.tail, hlen]
  obtain ⟨st₂, hexec₂, hrep₂⟩ := push_exec henv
    (RPush_run (Env.quiet 0) ⟨[], st₁.nc⟩ hk hrep₁ hne (by omega)) hfits
  have hrun : run zero (longList xs) State.empty = st₂ := by
    show (exec (Env.quiet 0) (zero.RPush [107] xs).discard
      (exec (Env.quiet 0) (zero.LPush [107] [[118], [118]]).discard State.empty).2).2 = st₂
    rw [hexec₁, hexec₂]
  rwa [hrun]

theorem longList_lost {xs : List Bytes} (hlen : xs.length = 1073740823) : ∃ data st',
    (xdump Migration.plain DB.zero .LIST [107]).eval (Env.quiet 0)
      (run DB.zero (longList xs) State.empty).store = .ok (some data) ∧
    DB.zero.Restore Migration.plain [107] 0 data (Env.quiet 0)
      (run DB.zero (longList xs) State.empty) = (.error .errListSeq, st') ∧
    Clean DB.zero st'.store .LIST [107] := by
  have hrep := longList_rep hlen
  have hs := run_wf zero (longList xs)
  have hk : ValidKey [107] := by decide
  have hne : [[118], [118]] ++ xs ≠ [] := by simp
  have hlen' : ([[118], [118]] ++ xs).length = 1073740825 := by simp [hlen]
  have henv : (Env.quiet 0).Commits := ⟨rfl, fun _ _ => rfl⟩
  have hfull : ¬ ([[118], [118]] ++ xs).length ≤ 1073740824 := by omega
  obtain ⟨st', hfail, hclean⟩ := Restore_full Migration.plain (.List ([[118], [118]] ++ xs)) rfl
    henv hs hk hrep.entries ⟨hne, by omega⟩ hfull 0
  exact ⟨_, st', dumpAll_eval (LRange_all hs hk hrep) hne, hfail, hclean⟩

theorem restore_loses_long_list : ∃ (cs : List (Env × Call)) (data : Migration.plain.Data)
    (st' : State), ValueWf DB.zero (run DB.zero cs State.empty).store [107] .LIST ∧
    (run DB.zero cs State.empty).store.get (DB.zero.lEncodeMetaKey [107]) ≠ none ∧
    (xdump Migration.plain DB.zero .LIST [107]).eval (Env.quiet 0)
      (run DB.zero cs State.empty).store = .ok (some data) ∧
    DB.zero.Restore Migration.plain [107] 0 data (Env.quiet 0) (run DB.zero cs State.empty) =
      (.error .errListSeq, st') ∧
    st'.store.get (DB.zero.lEncodeMetaKey [107]) = none := by
  have hlen : (List.replicate 1073740823 [118] : List Bytes).length = 1073740823 :=
    List.length_replicate
  generalize (List.replicate 1073740823 [118] : List Bytes) = xs at hlen
  have hrep := longList_rep hlen
  obtain ⟨data, st', hdump, hfail, hclean⟩ := longList_lost hlen
  refine ⟨longList xs, data, st', ⟨_, hrep⟩, ?_, hdump, hfail, hclean _ (.inl (.lmeta _))⟩
  rw [hrep.metaEntry]
  simp

end LedisDB
