import LedisDB.KV
import LedisDB.Hash
import LedisDB.List
import LedisDB.Set
import LedisDB.ZSet

/-!
# Operations that only read

The readers that the write operations call: what they return depends on the
store alone and they queue nothing.
-/

namespace LedisDB

section
variable {db : DB} {env : Env} {s : Store}
open Op.Reads

theorem readSize_reads (sk key : Bytes) : (DB.readSize sk key).Reads env s :=
  (lift _).bind fun _ => (get sk).bind fun _ => lift _

theorem keyExists_reads (ek key : Bytes) : (DB.keyExists ek key).Reads env s :=
  (lift _).bind fun _ => (get ek).bind fun _ => pure _

theorem bitOPLoop_reads (op : BitOpName) (value : Bytes) (keys : List Bytes) :
    (db.bitOPLoop op value keys).Reads env s := by
  induction keys generalizing value with
  | nil => exact pure _
  | cons k ks ih =>
    exact (lift _).bind fun _ => (get _).bind fun _ => (lift _).bind fun _ => ih _

theorem lGetMeta_reads (ek : Bytes) : (db.lGetMeta ek).Reads env s := by
  refine (get _).bind fun v => ?_
  cases v with
  | none => exact pure _
  | some v => exact (lift _).bind fun _ => pure _

theorem LLen_reads {key : Bytes} : (db.LLen key).Reads env s :=
  (lift _).bind fun _ => (lGetMeta_reads _).bind fun _ => pure _

theorem SMembers_reads (key : Bytes) : (db.SMembers key).Reads env s := by
  refine (lift _).bind fun _ => (range _ _ _).bind fun es => ?_
  induction es with
  | nil => exact pure _
  | cons e es ih => exact (lift _).bind fun _ => ih.bind fun _ => pure _

theorem sInterSelect_reads (destMap tempMap members : List Bytes) :
    (DB.sInterSelect destMap tempMap members).Reads env s := by
  induction members generalizing tempMap with
  | nil => exact pure _
  | cons m ms ih => exact (lift _).bind fun _ => ih _

theorem sUnionLoop_reads (dstMap keys : List Bytes) : (db.sUnionLoop dstMap keys).Reads env s := by
  induction keys generalizing dstMap with
  | nil => exact pure _
  | cons k ks ih => exact (lift _).bind fun _ => (SMembers_reads k).bind fun _ => ih _

theorem sDiffLoop_reads (destMap keys : List Bytes) : (db.sDiffLoop destMap keys).Reads env s := by
  induction keys generalizing destMap with
  | nil => exact mapOrder _
  | cons k ks ih => exact (SMembers_reads k).bind fun _ => (pure _).ite (ih _)

theorem sInterLoop_reads (destMap keys : List Bytes) :
    (db.sInterLoop destMap keys).Reads env s := by
  induction keys generalizing destMap with
  | nil => exact mapOrder _
  | cons k ks ih =>
    exact (lift _).bind fun _ => (SMembers_reads k).bind fun _ => (pure _).ite
      ((sInterSelect_reads _ _ _).bind fun _ => (pure _).ite (ih _))

theorem sGeneric_reads (optType : SetOpt) (keys : List Bytes) :
    (db.sGeneric optType keys).Reads env s := by
  cases optType with
  | UnionType => exact (sUnionLoop_reads _ _).bind fun _ => mapOrder _
  | DiffType =>
    cases keys with
    | nil => exact throw _
    | cons k ks => exact (SMembers_reads k).bind fun _ => sDiffLoop_reads _ _
  | InterType =>
    cases keys with
    | nil => exact throw _
    | cons k ks => exact (SMembers_reads k).bind fun _ => sInterLoop_reads _ _

theorem zParseLimit_reads (key : Bytes) (start stop : Int64) :
    (db.zParseLimit key start stop).Reads env s :=
  ite ((readSize_reads _ _).bind fun _ => (pure _).ite ((pure _).ite (pure _)))
    ((pure _).ite (pure _))

theorem ZRange_reads (key : Bytes) (start stop : Int64) :
    (db.ZRange key start stop).Reads env s := by
  refine (zParseLimit_reads key start stop).bind fun ⟨offset, count⟩ => ?_
  refine (throw _).ite ((pure _).ite ((range _ _ _).bind fun es => bind ?_ fun _ => pure _))
  induction es with
  | nil => exact pure _
  | cons e es ih =>
    unfold DB.zRangeLoop
    split
    · exact ih
    · exact ih.bind fun _ => pure _

section
variable (f : Int64 → Int64 → Int64) (destMap : DB.ScoreMap) (srcs : List (Bytes × Int64))
include f destMap srcs

theorem zUnionLoop_reads : (db.zUnionLoop f destMap srcs).Reads env s := by
  induction srcs generalizing destMap with
  | nil => exact pure _
  | cons src srcs ih => exact (ZRange_reads _ _ _).bind fun _ => ih _

theorem zInterLoop_reads : (db.zInterLoop f destMap srcs).Reads env s := by
  induction srcs generalizing destMap with
  | nil => exact pure _
  | cons src srcs ih => exact (ZRange_reads _ _ _).bind fun _ => ih _

end

end

end LedisDB
