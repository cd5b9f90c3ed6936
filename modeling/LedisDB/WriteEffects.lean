import LedisDB.Strings

/-!
# The queue of every write

Each operation of the five data types queues only what `Emits` allows for the
keys it is addressed to; `Write.emits` and `deleteFunc_emits` collect this for
the write interface and the expire callbacks. The range deletes need a
well-formed store: they are bounded by constructed keys only. The strings of a
proper store stay within `MaxValueSize`.
-/

namespace LedisDB

section
variable {db : DB} {env : Env} {s : Store} {A : Bytes → Prop} {D : Option (Bytes × Int64)}
  {key dstKey destKey member : Bytes} {keys : List Bytes}
open Emitting
open Op.Queues hiding put delete deleteAll

theorem delete_emits (hk : A key) : Emitting db env s .KV A D (db.delete key) :=
  (delete hk (.kv key)).bind fun _ => pure _

theorem delLoop_emits (hk : ∀ k ∈ keys, A k) : Emitting db env s .KV A D (db.delLoop keys) := by
  induction keys with
  | nil => exact pure _
  | cons k ks ih =>
    have hk0 := hk k (.head _)
    exact (delete hk0 (.kv k)).bind fun _ => bind (rmExpire_ignoreErr hk0 rfl) fun _ =>
      ih fun k' h => hk k' (.tail _ h)

theorem mSetLoop_emits {args : List KVPair} (hk : ∀ a ∈ args, A a.Key) :
    Emitting db env s .KV A D (db.mSetLoop args) := by
  induction args with
  | nil => exact pure _
  | cons a as ih =>
    exact (lift _).bind fun _ => lift_bind fun _ hv =>
      (put (hk a (.head _)) (.kv a.Key fun _ => checkValueSize_ok.mp hv)).bind fun _ =>
        ih fun a' h => hk a' (.tail _ h)

section
variable (hk : A key) {field value : Bytes}
include hk

theorem setExpireAt_emits (w : Int64) (hD : D = some (key, w)) :
    Emitting db env s .KV A D (db.setExpireAt key w) :=
  expireSized (keyExists_reads _ _) (expireAt hk hD rfl)

theorem put_string (hv : Proper s → value.length ≤ MaxValueSize) {α : Type} (a : α) :
    Emitting db env s .KV A D (Op.put (db.encodeKVKey key) value >>= fun _ => Pure.pure a) :=
  (put hk (.kv key hv)).bind fun _ => pure _

theorem incr_emits (delta : Int64) : Emitting db env s .KV A D (db.incr key delta) :=
  (lift _).bind fun _ => (get _).bind fun _ => (lift _).bind fun n => put_string hk
    (fun _ => (FormatInt64ToSlice_length_le (n + delta)).trans (by decide)) _

theorem BitOP_emits (op : Bytes) (srcKeys : List Bytes) :
    Emitting db env s .KV A D (db.BitOP op key srcKeys) := by
  refine (lift _).bind fun _ => ?_
  match srcKeys with
  | [] => exact pure _
  | [_] => exact pure _
  | src :: src' :: srcs =>
    exact ite (fun _ => throw _) fun _ => get_bind <| reads_bind (bitOPLoop_reads _ _ _)
      fun r hr => put_string hk
        (fun hs => bitOPLoop_length_le hs (value_length_le hs db src) hr) _

theorem SetBit_emits (offset on : Int64) : Emitting db env s .KV A D (db.SetBit key offset on) := by
  refine (lift _).bind fun _ => ite (fun _ => throw _) fun _ => get_bind <|
    put_string hk (fun hs => ?_) _
  have hle := value_length_le hs db key
  have hb := byteOffset_lt offset.toUInt64.toUInt32
  have hM : MaxValueSize = 2 ^ 30 := rfl
  rw [List.length_set, extend_eq_padTo hb hle, padTo_length]
  omega

theorem SetRange_emits (offset : Int64) (value : Bytes) :
    Emitting db env s .KV A D (db.SetRange key offset value) := by
  refine ite (fun _ => pure _) fun _ => (lift _).bind fun _ => ite (fun _ => throw _) fun hend =>
    get_bind <| ite (fun _ => throw _) fun hoff => put_string hk (fun hs => ?_) _
  have hrange := (sliceInRange_iff (value_length_le hs db key) hend).mp hoff
  obtain ⟨hM, hle⟩ := hrange.extended (value_length_le hs db key) hend
  rwa [overlay_length (by omega)]

theorem Append_emits (value : Bytes) : Emitting db env s .KV A D (db.Append key value) := by
  refine ite (fun _ => pure _) fun _ => (lift _).bind fun _ => (get _).bind fun _ =>
    ite (fun _ => throw _) fun hlen => put_string hk (fun _ => ?_) _
  rw [List.length_append]
  exact not_lt.mp hlen

theorem hIncrSize_emits (delta : Int64) : Emitting db env s .HASH A D (db.hIncrSize key delta) :=
  incrSize hk (fun _ => .hsize key) rfl delta

theorem hSetItem_emits (hv : ValidKey key) (hf : ValidKey field) (value : Bytes) :
    Emitting db env s .HASH A D (db.hSetItem key field value) :=
  (get _).bind fun _ => ite (fun _ => (put hk (.hfield hv hf)).bind fun _ => pure _)
    fun _ => (hIncrSize_emits hk 1).bind fun _ => (put hk (.hfield hv hf)).bind fun _ => pure _

theorem hDelete_emits : Emitting db env s .HASH A D (db.hDelete key) :=
  deleteMembers hk (.hsize key) (t := HashType) fun m => .hfield key m

theorem HIncrBy_emits (delta : Int64) :
    Emitting db env s .HASH A D (db.HIncrBy key field delta) := by
  refine lift_bind fun _ hc => ?_
  obtain ⟨hv, hf⟩ := checkKMSize_ok.mp hc
  exact (get _).bind fun _ => (lift _).bind fun _ => (hSetItem_emits hk hv hf _).bind fun _ =>
    pure _

theorem HSet_emits (value : Bytes) : Emitting db env s .HASH A D (db.HSet key field value) := by
  refine lift_bind fun _ hc => ?_
  obtain ⟨hv, hf⟩ := checkKMSize_ok.mp hc
  exact (lift _).bind fun _ => (hSetItem_emits hk hv hf value).bind fun _ => pure _

theorem hExpireAt_emits (w : Int64) (hD : D = some (key, w)) :
    Emitting db env s .HASH A D (db.hExpireAt key w) :=
  expireSized (readSize_reads _ _) (expireAt hk hD rfl)

theorem lSetMeta_emits (headSeq tailSeq : Int32) :
    Emitting db env s .LIST A D (db.lSetMeta (db.lEncodeMetaKey key) headSeq tailSeq) :=
  ite (fun _ => pure _) fun _ => ite
    (fun _ => (delete hk (.lmeta key)).bind fun _ => pure _)
    fun _ => (put hk (.lmeta key)).bind fun _ => pure _

theorem lpushLoop_emits (hv : ValidKey key) (seq delta : Int32) (i : ℕ)
    (args : List Bytes) : Emitting db env s .LIST A D (db.lpushLoop key seq delta i args) := by
  induction args generalizing i with
  | nil => exact pure _
  | cons a as ih => exact (put hk (.litem hv _)).bind fun _ => ih _

theorem lpush_emits (whereSeq : Int32) (args : List Bytes) :
    Emitting db env s .LIST A D (db.lpush key whereSeq args) := by
  refine lift_bind fun _ hc => ?_
  have hv := checkKeySize_ok.mp hc
  refine (reads (lGetMeta_reads _)).bind fun ⟨headSeq, tailSeq, size⟩ => ?_
  exact ite (fun _ => pure _) fun _ => (lpushLoop_emits hk hv _ _ _ _).bind fun _ =>
    ite (fun _ => throw _) fun _ => (lSetMeta_emits hk _ _).bind fun _ => pure _

theorem rmExpire_if_emits (c : Prop) [Decidable c] :
    Emitting db env s .LIST A D
      (if c then (db.rmExpire ListType key).ignoreErr 0 else Pure.pure 0) :=
  ite (fun _ => rmExpire_ignoreErr hk rfl) fun _ => pure _

theorem lpop_emits (whereSeq : Int32) : Emitting db env s .LIST A D (db.lpop key whereSeq) := by
  refine (lift _).bind fun _ => (reads (lGetMeta_reads _)).bind fun ⟨headSeq, tailSeq, size⟩ => ?_
  exact ite (fun _ => pure _) fun _ => (get _).bind fun _ =>
    (delete hk (.litem key _)).bind fun _ => (lSetMeta_emits hk _ _).bind fun _ =>
      (rmExpire_if_emits hk _).bind fun _ => pure _

end

theorem lDelete_emits (hs : StoreWf s) (hk : A key) :
    Emitting db env s .LIST A D (db.lDelete key) := by
  refine (reads (lGetMeta_reads _)).bind fun ⟨headSeq, tailSeq, _⟩ => ?_
  refine range_bind ?_
  refine bind (deleteAll ?_) fun _ => (delete hk (.lmeta key)).bind fun _ => pure _
  intro ek hek
  obtain ⟨e, he, rfl⟩ := List.mem_map.mp hek
  obtain ⟨hst, -⟩ := hs.of_range (T := .LIST) (by simp [DataType.items]) he
  exact ⟨key, hk, hst.entry⟩

theorem litems_emits (hk : A key) (f : Int32 → Int32) (seqs : List Int32) :
    Emitting db env s .LIST A D (Op.deleteAll (seqs.map fun i => db.lEncodeListKey key (f i))) := by
  refine deleteAll fun ek hek => ?_
  obtain ⟨i, -, rfl⟩ := List.mem_map.mp hek
  exact ⟨key, hk, .litem key _⟩

theorem ltrim2_emits (hs : StoreWf s) (hk : A key) (startP stopP : Int64) :
    Emitting db env s .LIST A D (db.ltrim2 key startP stopP) := by
  refine (lift _).bind fun _ => (reads (lGetMeta_reads _)).bind fun ⟨headSeq, _, llen⟩ => ?_
  refine ite (fun _ => ?_) fun _ => ?_
  · exact (lDelete_emits hs hk).bind fun _ => bind (rmExpire_ignoreErr hk rfl) fun _ => pure _
  · exact (litems_emits hk _ _).bind fun _ =>
      (ite (fun _ => litems_emits hk _ _) fun _ => pure _).bind fun _ =>
        (lSetMeta_emits hk _ _).bind fun _ => pure _

theorem ltrim_emits (hk : A key) (trimSize whereSeq : Int32) :
    Emitting db env s .LIST A D (db.ltrim key trimSize whereSeq) := by
  refine (lift _).bind fun _ => ite (fun _ => pure _) fun _ => ?_
  refine (reads (lGetMeta_reads _)).bind fun ⟨headSeq, tailSeq, size⟩ => ?_
  refine ite (fun _ => pure _) fun _ => ite (fun _ => throw _) fun _ => ?_
  exact (litems_emits hk id _).bind fun _ => (lSetMeta_emits hk _ _).bind fun _ =>
    (rmExpire_if_emits hk _).bind fun _ => pure _

theorem LSet_emits (hk : A key) (index : Int32) (value : Bytes) :
    Emitting db env s .LIST A D (db.LSet key index value) := by
  refine lift_bind fun _ hc => ?_
  have hv := checkKeySize_ok.mp hc
  refine (reads (lGetMeta_reads _)).bind fun ⟨headSeq, tailSeq, _⟩ => ?_
  exact ite (fun _ => throw _) fun _ => (put hk (.litem hv _)).bind fun _ => pure _

theorem lExpireAt_emits (hk : A key) (w : Int64) (hD : D = some (key, w)) :
    Emitting db env s .LIST A D (db.lExpireAt key w) :=
  expireSized LLen_reads (expireAt hk hD rfl)

theorem sDelete_emits (hk : A key) : Emitting db env s .SET A D (db.sDelete key) :=
  deleteMembers hk (.ssize key) (t := SetType) fun m => .smember key m

theorem sIncrSize_emits (hk : A key) (delta : Int64) :
    Emitting db env s .SET A D (db.sIncrSize key delta) :=
  incrSize hk (fun _ => .ssize key) rfl delta

theorem sStoreLoop_emits (hk : A dstKey) (members : List Bytes) :
    Emitting db env s .SET A D (db.sStoreLoop dstKey members) := by
  induction members with
  | nil => exact pure _
  | cons m ms ih =>
    refine lift_bind fun _ hc => ?_
    obtain ⟨hv, hm⟩ := checkKMSize_ok.mp hc
    exact (put hk (.smember hv hm)).bind fun _ => ih

theorem sStoreGeneric_emits (hk : A dstKey) (optType : SetOpt) (keys : List Bytes) :
    Emitting db env s .SET A D (db.sStoreGeneric dstKey optType keys) :=
  (lift _).bind fun _ => (sDelete_emits hk).bind fun _ => (reads (sGeneric_reads optType keys)).bind
    fun _ => (sStoreLoop_emits hk _).bind fun _ => (put hk (.ssize dstKey)).bind fun _ => pure _

theorem sExpireAt_emits (hk : A key) (w : Int64) (hD : D = some (key, w)) :
    Emitting db env s .SET A D (db.sExpireAt key w) :=
  expireSized (readSize_reads _ _) (expireAt hk hD rfl)

theorem zIncrSize_emits (hk : A key) (delta : Int64) :
    Emitting db env s .ZSET A D (db.zIncrSize key delta) :=
  incrSize hk (fun _ => .zsize key) rfl delta

theorem zSetItem_emits (hk : A key) (hv : ValidKey key) (hm : ValidKey member) (score : Int64) :
    Emitting db env s .ZSET A D (db.zSetItem key score member) := by
  refine ite (fun _ => throw _) fun _ => (get _).bind fun v => bind ?_ fun _ =>
    (put hk (.zmember hv hm)).bind fun _ => (put hk (.zscore hv hm score)).bind fun _ => pure _
  cases v with
  | none => exact pure _
  | some v => exact (lift _).bind fun sc => (delete hk (.zscore key member sc)).bind fun _ => pure _

theorem zDelItem_emits (hk : A key) (skipDelScore : Bool) :
    Emitting db env s .ZSET A D (db.zDelItem key member skipDelScore) := by
  refine (get _).bind fun v => ?_
  cases v with
  | none => exact pure _
  | some v =>
    refine bind (ite (fun _ => pure _) fun _ => (lift _).bind fun sc => ?_) fun _ => ?_
    · exact delete hk (.zscore key member sc)
    · exact (delete hk (.zmember key member)).bind fun _ => pure _

theorem zRemRangeLoop_emits (hk : A key) {es : List (Bytes × Bytes)}
    (hes : ∀ e ∈ es, DataEntry db .ZSET key e.1) (num : Int64) :
    Emitting db env s .ZSET A D (db.zRemRangeLoop key es num) := by
  induction es generalizing num with
  | nil => exact pure _
  | cons e es ih =>
    have ih' := ih fun e' h => hes e' (.tail _ h)
    unfold DB.zRemRangeLoop
    split
    · exact ih' _
    · exact (zDelItem_emits hk true).bind fun _ =>
        (delete hk (hes e (.head _))).bind fun _ => ih' _

theorem zRemRange_emits (hs : StoreWf s) (hk : A key) (min max : Int64) (offset count : ℤ) :
    Emitting db env s .ZSET A D (db.zRemRange key min max offset count) := by
  refine ite (fun _ => throw _) fun _ => ?_
  refine (zRemRangeLoop_emits hk ?_ _).bind fun _ => (zIncrSize_emits hk _).bind fun _ => pure _
  intro e he
  have hstop : ∃ b, db.zEncodeStopScoreKey key max = db.itemKey ZScoreType key b := by
    refine ⟨DB.scoreSep max :: (beBytes 8 max.toUInt64.toNat ++ [zsetStopMemSep]), ?_⟩
    have hlast : db.zEncodeScoreKey key [] max = db.itemKey ZScoreType key
        (DB.scoreSep max :: beBytes 8 max.toUInt64.toNat) ++ [zsetStartMemSep] := by
      rw [← DB.itemKey_append]
      rfl
    rw [DB.zEncodeStopScoreKey, hlast, DB.setLast_append, ← DB.itemKey_append]
    rfl
  obtain ⟨b, hb⟩ := hstop
  rw [hb] at he
  exact (hs.of_range (by simp [DataType.items]) he).1.entry

theorem zDelete_emits (hs : StoreWf s) (hk : A key) :
    Emitting db env s .ZSET A D (db.zDelete key) :=
  ignoreErr (zRemRange_emits hs hk _ _ _ _) 0

theorem zAddLoop_emits (hk : A key) (args : List ScorePair) (num : Int64) :
    Emitting db env s .ZSET A D (db.zAddLoop key args num) := by
  induction args generalizing num with
  | nil => exact pure _
  | cons a as ih =>
    refine lift_bind fun _ hc => ?_
    obtain ⟨hv, hm⟩ := checkKMSize_ok.mp hc
    exact (zSetItem_emits hk hv hm a.Score).bind fun _ => ih _

theorem zRemLoop_emits (hk : A key) (members : List Bytes) (num : Int64) :
    Emitting db env s .ZSET A D (db.zRemLoop key members num) := by
  induction members generalizing num with
  | nil => exact pure _
  | cons m ms ih => exact (lift _).bind fun _ => (zDelItem_emits hk false).bind fun _ => ih _

theorem ZIncrBy_emits (hk : A key) (delta : Int64) :
    Emitting db env s .ZSET A D (db.ZIncrBy key delta member) := by
  refine lift_bind fun _ hc => ?_
  obtain ⟨hv, hm⟩ := checkKMSize_ok.mp hc
  refine (get _).bind fun v => bind ?_ fun sc => ite (fun _ => throw _) fun _ => ?_
  · cases v with
    | none => exact bind (ignoreErr (zIncrSize_emits hk 1) 0) fun _ => pure _
    | some v => exact lift _
  · exact (put hk (.zscore hv hm _)).bind fun _ => (put hk (.zmember hv hm)).bind fun _ =>
      (ite (fun _ => delete hk (.zscore key member sc)) fun _ => pure _).bind fun _ => pure _

theorem zStoreLoop_emits (hk : A destKey) (destMap : DB.ScoreMap) (members : List Bytes) :
    Emitting db env s .ZSET A D (db.zStoreLoop destKey destMap members) := by
  induction members with
  | nil => exact pure _
  | cons m ms ih =>
    refine lift_bind fun _ hc => ?_
    obtain ⟨hv, hm⟩ := checkKMSize_ok.mp hc
    exact (zSetItem_emits hk hv hm _).bind fun _ => ih

theorem zStore_emits (hs : StoreWf s) (hk : A destKey) (destMap : DB.ScoreMap) :
    Emitting db env s .ZSET A D (db.zStore destKey destMap) :=
  (zDelete_emits hs hk).bind fun _ => (mapOrder _).bind fun _ =>
    (zStoreLoop_emits hk destMap _).bind fun _ => (put hk (.zsize destKey)).bind fun _ => pure _

section
variable (hs : StoreWf s) (hk : A destKey) (srcKeys : List Bytes) (weights : Option (List Int64))
  (aggregate : UInt8)
include hs hk srcKeys weights aggregate

theorem ZUnionStore_emits :
    Emitting db env s .ZSET A D (db.ZUnionStore destKey srcKeys weights aggregate) :=
  (lift _).bind fun ⟨_, _⟩ => (reads (zUnionLoop_reads _ _ _)).bind fun _ => zStore_emits hs hk _

theorem ZInterStore_emits :
    Emitting db env s .ZSET A D (db.ZInterStore destKey srcKeys weights aggregate) := by
  refine (lift _).bind fun ⟨_, srcs⟩ => ?_
  cases srcs with
  | nil => exact throw _
  | cons src srcs =>
    exact (reads (ZRange_reads _ _ _)).bind fun _ => (reads (zInterLoop_reads _ _ _)).bind fun _ =>
      zStore_emits hs hk _

end

theorem zMclearLoop_emits (hs : StoreWf s) (hk : ∀ k ∈ keys, A k) :
    Emitting db env s .ZSET A D (db.zMclearLoop keys) := by
  induction keys with
  | nil => exact pure _
  | cons k ks ih =>
    exact (zRemRange_emits hs (hk k (.head _)) _ _ _ _).bind fun _ =>
      ih fun k' h => hk k' (.tail _ h)

theorem zEncodeStopSetKey_item (key : Bytes) :
    db.zEncodeStopSetKey key = db.itemKey ZSetType key [zsetStopMemSep] := by
  rw [DB.zEncodeStopSetKey, DB.zEncodeSetKey, DB.itemKey_single, DB.setLast_append,
    DB.itemKey_single]
  rfl

theorem zLexRange_items (key : Bytes) (min max : Option Bytes) (rangeType : UInt8) :
    ∃ a b, db.zLexRange key min max rangeType =
      ⟨some (db.itemKey ZSetType key a), some (db.itemKey ZSetType key b), rangeType⟩ := by
  cases min <;> cases max <;> simp only [DB.zLexRange, zEncodeStopSetKey_item] <;> exact ⟨_, _, rfl⟩

theorem ZRemRangeByLex_emits (hs : StoreWf s) (hk : A key) (min max : Option Bytes)
    (rangeType : UInt8) :
    Emitting db env s .ZSET A D (db.ZRemRangeByLex key min max rangeType) := by
  refine range_bind ?_
  refine bind (deleteAll ?_) fun _ => pure _
  intro ek hek
  obtain ⟨e, he, rfl⟩ := List.mem_map.mp hek
  obtain ⟨a, b, hab⟩ := zLexRange_items key min max rangeType
  rw [hab] at he
  exact ⟨key, hk, (hs.of_range (by simp [DataType.items]) he).1.entry⟩

theorem zExpireAt_emits (hk : A key) (w : Int64) (hD : D = some (key, w)) :
    Emitting db env s .ZSET A D (db.zExpireAt key w) :=
  expireSized (readSize_reads _ _) (expireAt hk hD rfl)

end

section
variable {db : DB} {env : Env} {s : Store}
open Emitting
open Op.Queues hiding put delete deleteAll

theorem Write.emits (db : DB) (env : Env) (hs : StoreWf s) (c : Write) :
    Emitting db env s c.type (· ∈ c.keys) (c.deadline env.now) (c.body db) := by
  have h1 : ∀ k : Bytes, k ∈ [k] := fun k => List.mem_singleton_self k
  cases c <;> refine discard ?_
  case Set key value =>
    exact (lift _).bind fun _ => lift_bind fun _ hv =>
      put_string (h1 key) (fun _ => checkValueSize_ok.mp hv) _
  case SetNX key value =>
    exact (lift _).bind fun _ => lift_bind fun _ hv => (get _).bind fun _ =>
      ite (fun _ => pure _) fun _ => put_string (h1 key) (fun _ => checkValueSize_ok.mp hv) _
  case SetEX key duration value =>
    refine (lift _).bind fun _ => lift_bind fun _ hv => ite (fun _ => throw _) fun _ => ?_
    exact (put (h1 key) (.kv key fun _ => checkValueSize_ok.mp hv)).bind fun _ => now_bind <|
      bind (expireAt (h1 key) rfl rfl) fun _ => pure _
  case GetSet key value =>
    exact (lift _).bind fun _ => lift_bind fun _ hv => (get _).bind fun _ =>
      put_string (h1 key) (fun _ => checkValueSize_ok.mp hv) _
  case MSet args =>
    exact ite (fun _ => pure _) fun _ =>
      (mSetLoop_emits fun a ha => List.mem_map_of_mem ha).bind fun _ => pure _
  case Del keys =>
    exact ite (fun _ => pure _) fun _ => (delLoop_emits fun _ h => h).bind fun _ => pure _
  case Incr key => exact incr_emits (h1 key) _
  case IncrBy key increment => exact incr_emits (h1 key) _
  case Decr key => exact incr_emits (h1 key) _
  case DecrBy key decrement => exact incr_emits (h1 key) _
  case Append key value => exact Append_emits (h1 key) _
  case SetRange key offset value => exact SetRange_emits (h1 key) _ _
  case SetBit key offset on => exact SetBit_emits (h1 key) _ _
  case BitOP op destKey srcKeys => exact BitOP_emits (h1 destKey) _ _
  case Expire key duration => exact expireDuration (setExpireAt_emits (h1 key) _ rfl)
  case ExpireAt key w => exact expireDeadline (setExpireAt_emits (h1 key) _ rfl)
  case Persist key => exact persist (rmExpire (h1 key) rfl)
  case HSet key field value => exact HSet_emits (h1 key) _
  case HMset key args =>
    refine (addLoop (h1 key) (fun m v hc => ?_) _ _).bind fun _ =>
      (hIncrSize_emits (h1 key) _).bind fun _ => pure _
    obtain ⟨hv, hf⟩ := checkKMSize_ok.mp (except_bind_ok hc).1
    exact .hfield hv hf
  case HDel key args =>
    exact (remLoop (h1 key) (DataEntry.hfield key) _ _).bind fun _ =>
      (hIncrSize_emits (h1 key) _).bind fun _ => pure _
  case HIncrBy key field delta => exact HIncrBy_emits (h1 key) _
  case HClear key => exact clear (hDelete_emits (h1 key)) (rmExpire (h1 key) rfl)
  case HMclear keys => exact mclear (fun _ h => hDelete_emits h) fun _ h => rmExpire h rfl
  case HExpire key duration => exact expireDuration (hExpireAt_emits (h1 key) _ rfl)
  case HExpireAt key w => exact expireDeadline (hExpireAt_emits (h1 key) _ rfl)
  case HPersist key => exact persist (rmExpire (h1 key) rfl)
  case LPush key args => exact lpush_emits (h1 key) _ _
  case RPush key args => exact lpush_emits (h1 key) _ _
  case LPop key => exact lpop_emits (h1 key) _
  case RPop key => exact lpop_emits (h1 key) _
  case LTrim key start stop => exact ltrim2_emits hs (h1 key) _ _
  case LTrimFront key trimSize => exact ltrim_emits (h1 key) _ _
  case LTrimBack key trimSize => exact ltrim_emits (h1 key) _ _
  case LSet key index value => exact LSet_emits (h1 key) _ _
  case LClear key => exact clear (lDelete_emits hs (h1 key)) (rmExpire (h1 key) rfl)
  case LMclear keys => exact mclear (fun _ h => lDelete_emits hs h) fun _ h => rmExpire h rfl
  case LExpire key duration => exact expireDuration (lExpireAt_emits (h1 key) _ rfl)
  case LExpireAt key w => exact expireDeadline (lExpireAt_emits (h1 key) _ rfl)
  case LPersist key => exact persist (rmExpire (h1 key) rfl)
  case SAdd key args =>
    refine (addLoop (h1 key) (fun m v hc => ?_) _ _).bind fun _ =>
      (sIncrSize_emits (h1 key) _).bind fun _ => pure _
    obtain ⟨hv, hm⟩ := checkKMSize_ok.mp hc
    exact .smember hv hm
  case SRem key args =>
    exact (remLoop (h1 key) (DataEntry.smember key) _ _).bind fun _ =>
      (sIncrSize_emits (h1 key) _).bind fun _ => pure _
  case SUnionStore dstKey keys => exact sStoreGeneric_emits (h1 dstKey) _ _
  case SDiffStore dstKey keys => exact sStoreGeneric_emits (h1 dstKey) _ _
  case SInterStore dstKey keys => exact sStoreGeneric_emits (h1 dstKey) _ _
  case SClear key => exact clear (sDelete_emits (h1 key)) (rmExpire (h1 key) rfl)
  case SMclear keys => exact mclear (fun _ h => sDelete_emits h) fun _ h => rmExpire h rfl
  case SExpire key duration => exact expireDuration (sExpireAt_emits (h1 key) _ rfl)
  case SExpireAt key w => exact expireDeadline (sExpireAt_emits (h1 key) _ rfl)
  case SPersist key => exact persist (rmExpire (h1 key) rfl)
  case ZAdd key args =>
    exact ite (fun _ => pure _) fun _ => (zAddLoop_emits (h1 key) _ _).bind fun _ =>
      (zIncrSize_emits (h1 key) _).bind fun _ => pure _
  case ZRem key members =>
    exact ite (fun _ => pure _) fun _ => (zRemLoop_emits (h1 key) _ _).bind fun _ =>
      (zIncrSize_emits (h1 key) _).bind fun _ => pure _
  case ZIncrBy key delta member => exact ZIncrBy_emits (h1 key) _
  case ZRemRangeByScore key min max =>
    exact (zRemRange_emits hs (h1 key) _ _ _ _).bind fun _ => pure _
  case ZRemRangeByRank key start stop =>
    exact (reads (zParseLimit_reads _ _ _)).bind fun ⟨_, _⟩ =>
      (zRemRange_emits hs (h1 key) _ _ _ _).bind fun _ => pure _
  case ZRemRangeByLex key min max rangeType => exact ZRemRangeByLex_emits hs (h1 key) _ _ _
  case ZClear key => exact (zRemRange_emits hs (h1 key) _ _ _ _).bind fun _ => pure _
  case ZMclear keys => exact (zMclearLoop_emits hs fun _ h => h).bind fun _ => pure _
  case ZUnionStore destKey srcKeys weights aggregate =>
    exact ZUnionStore_emits hs (h1 destKey) _ _ _
  case ZInterStore destKey srcKeys weights aggregate =>
    exact ZInterStore_emits hs (h1 destKey) _ _ _
  case ZExpire key duration => exact expireDuration (zExpireAt_emits (h1 key) _ rfl)
  case ZExpireAt key w => exact expireDeadline (zExpireAt_emits (h1 key) _ rfl)
  case ZPersist key => exact persist (rmExpire (h1 key) rfl)

theorem deleteFunc_emits (hs : StoreWf s) (T : DataType) (key : Bytes) :
    Emitting db env s T (· = key) none (db.deleteFunc T key) := by
  cases T with
  | KV => exact delete_emits rfl
  | LIST => exact lDelete_emits hs rfl
  | HASH => exact hDelete_emits rfl
  | SET => exact sDelete_emits rfl
  | ZSET => exact zDelete_emits hs rfl

end

end LedisDB
