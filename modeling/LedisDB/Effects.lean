import LedisDB.Call
import LedisDB.Reads

/-!
# What a call can do to the store

`Emits` lists once what may stand in the queue of a call: puts of data entries of the
addressed keys with the values that operations write, deletes of such entries, the pair of
deletes of `rmExpire`, and the pair of puts of `expireAt` for the call's own deadline. The
rules for bodies are those of `Op.Queues`.
-/

namespace LedisDB

/-- What the readers rely on in the value of a data entry, by the type byte of its key. -/
structure Valued (t : UInt8) (v : Bytes) : Prop where
  string : t = KVType → v.length ≤ MaxValueSize
  listMeta : t = LMetaType → 8 ≤ v.length
  hashSize : t = HSizeType → ∃ n, v = PutInt64 n
  score : t = ZSetType → ∃ c, v = PutInt64 c

def Proper (s : Store) : Prop :=
  ∀ (db : DB) t r v, s.get (db.plainKey t r) = some v → Valued t v

/-- The data entries that operations on store `s` put, with their values. -/
inductive Puts (db : DB) (s : Store) : DataType → Bytes → Bytes → Bytes → Prop
  | kv (k : Bytes) {v : Bytes} (hv : Proper s → v.length ≤ MaxValueSize) :
      Puts db s .KV k (db.encodeKVKey k) v
  | lmeta (k : Bytes) {headSeq tailSeq : Int32} :
      Puts db s .LIST k (db.lEncodeMetaKey k) (putMeta headSeq tailSeq)
  | litem {k v : Bytes} (hk : ValidKey k) (seq : Int32) :
      Puts db s .LIST k (db.lEncodeListKey k seq) v
  | hsize (k : Bytes) {n : Int64} : Puts db s .HASH k (db.hEncodeSizeKey k) (PutInt64 n)
  | hfield {k f v : Bytes} (hk : ValidKey k) (hf : ValidKey f) :
      Puts db s .HASH k (db.hEncodeHashKey k f) v
  | ssize (k : Bytes) {n : Int64} : Puts db s .SET k (db.sEncodeSizeKey k) (PutInt64 n)
  | smember {k m v : Bytes} (hk : ValidKey k) (hm : ValidKey m) :
      Puts db s .SET k (db.sEncodeSetKey k m) v
  | zsize (k : Bytes) {n : Int64} : Puts db s .ZSET k (db.zEncodeSizeKey k) (PutInt64 n)
  | zmember {k m : Bytes} (hk : ValidKey k) (hm : ValidKey m) {score : Int64} :
      Puts db s .ZSET k (db.zEncodeSetKey k m) (PutInt64 score)
  | zscore {k m v : Bytes} (hk : ValidKey k) (hm : ValidKey m) (score : Int64) :
      Puts db s .ZSET k (db.zEncodeScoreKey k m score) v

/-- Queues of calls addressed to the keys `A` of type `T`, on store `s`; `D` is the
key and deadline of an expire call. -/
inductive Emits (db : DB) (s : Store) (T : DataType) (A : Bytes → Prop)
    (D : Option (Bytes × Int64)) : Batch → Prop
  | nil : Emits db s T A D []
  | put {k ek v : Bytes} {b : Batch} (hk : A k) (he : Puts db s T k ek v)
      (hb : Emits db s T A D b) : Emits db s T A D (.put ek v :: b)
  | delete {k ek : Bytes} {b : Batch} (hk : A k) (he : DataEntry db T k ek)
      (hb : Emits db s T A D b) : Emits db s T A D (.delete ek :: b)
  | rmExpire {k v : Bytes} {w : Int64} {b : Batch} (hk : A k)
      (hv : s.get (db.expEncodeMetaKey T.code k) = some v) (hw : decodeInt64 (some v) = .ok w)
      (hb : Emits db s T A D b) :
      Emits db s T A D (.delete (db.expEncodeMetaKey T.code k) ::
        .delete (db.expEncodeTimeKey T.code k w) :: b)
  | expireAt {k : Bytes} {w : Int64} {b : Batch} (hk : A k) (hD : D = some (k, w))
      (hb : Emits db s T A D b) :
      Emits db s T A D
        (.put (db.expEncodeTimeKey T.code k w) (db.expEncodeMetaKey T.code k) ::
          .put (db.expEncodeMetaKey T.code k) (PutInt64 w) :: b)

section
variable {db : DB} {s : Store} {T : DataType} {A : Bytes → Prop} {D : Option (Bytes × Int64)}
  {k ek v : Bytes}

theorem Puts.stored (h : Puts db s T k ek v) : Stored db T k ek := by
  cases h <;> constructor <;> assumption

theorem Valued.other {t : UInt8} (h : t ∉ [KVType, LMetaType, HSizeType, ZSetType]) :
    Valued t v := by
  refine ⟨?_, ?_, ?_, ?_⟩ <;> (rintro rfl; exact absurd h (by decide))

theorem Puts.valued (h : Puts db s T k ek v) (hs : Proper s) {db' : DB} {t : UInt8} {r : Bytes}
    (hek : ek = db'.plainKey t r) : Valued t v := by
  cases h <;> obtain ⟨-, rfl, -⟩ := DB.plainKey_inj.mp hek <;> try exact .other (by decide)
  all_goals refine ⟨fun h => ?_, fun h => ?_, fun h => ?_, fun h => ?_⟩ <;>
    try exact absurd h (by decide)
  case kv hv => exact hv hs
  case lmeta => simp [putMeta]
  case hsize => exact ⟨_, rfl⟩
  case zmember => exact ⟨_, rfl⟩

theorem ExpireEntry.valued (h : ExpireEntry db T k ek) {db' : DB} {t : UInt8} {r : Bytes}
    (hek : ek = db'.plainKey t r) : Valued t v := by
  cases h <;> obtain ⟨-, rfl, -⟩ := DB.plainKey_inj.mp hek <;> exact .other (by decide)

theorem Emits.append {a b : Batch} (ha : Emits db s T A D a) (hb : Emits db s T A D b) :
    Emits db s T A D (a ++ b) := by
  induction ha with
  | nil => exact hb
  | put hk he _ ih => exact .put hk he ih
  | delete hk he _ ih => exact .delete hk he ih
  | rmExpire hk hv hw _ ih => exact .rmExpire hk hv hw ih
  | expireAt hk hD _ ih => exact .expireAt hk hD ih

instance : Op.Closed (Emits db s T A D) := ⟨.nil, Emits.append⟩

/-- A queue puts only values that the readers can rely on. -/
theorem Emits.valued {b : Batch} (hb : Emits db s T A D b) (hs : Proper s) (h : .put ek v ∈ b)
    {db' : DB} {t : UInt8} {r : Bytes} (hek : ek = db'.plainKey t r) : Valued t v := by
  induction hb with
  | nil => cases h
  | put hk he _ ih =>
    rcases List.mem_cons.mp h with h | h
    · cases h
      exact he.valued hs hek
    · exact ih h
  | delete hk he _ ih | rmExpire hk hv hw _ ih => exact ih (by simpa using h)
  | @expireAt k w b hk hD _ ih =>
    rcases List.mem_cons.mp h with h | h
    · cases h
      exact (ExpireEntry.time (k := k) w).valued hek
    · rcases List.mem_cons.mp h with h | h
      · cases h
        exact (ExpireEntry.expMeta (k := k)).valued hek
      · exact ih h

theorem Emits.deletes {ks : List Bytes} (h : ∀ ek ∈ ks, ∃ k, A k ∧ DataEntry db T k ek) :
    Emits db s T A D (ks.map .delete) := by
  induction ks with
  | nil => exact .nil
  | cons ek ks ih =>
    obtain ⟨k, hk, he⟩ := h ek (.head _)
    exact .delete hk he (ih fun ek' h' => h ek' (.tail _ h'))

end

namespace Op.Queues

variable {α : Type} {db : DB} {env : Env} {s : Store} {P : Batch → Prop} {t : UInt8} {k : Bytes}
  {w : Int64} {f : Int64 → Op (Ret Int64)} {del : Bytes → Op Int64}

theorem of_expireAt (h : P [.put (db.expEncodeTimeKey t k w) (db.expEncodeMetaKey t k),
      .put (db.expEncodeMetaKey t k) (PutInt64 w)]) : (db.expireAt t k w).Queues env s P :=
  fun _ => ⟨_, by simp [DB.expireAt], h⟩

variable [Closed P]

theorem discard {x : Op (Ret α)} (hx : x.Queues env s P) : x.discard.Queues env s P :=
  hx.bind fun _ => pure _

theorem of_rmExpire (h : ∀ v w, s.get (db.expEncodeMetaKey t k) = some v →
      decodeInt64 (some v) = .ok w →
      P [.delete (db.expEncodeMetaKey t k), .delete (db.expEncodeTimeKey t k w)]) :
    (db.rmExpire t k).Queues env s P := by
  refine get_bind ?_
  cases hv : s.get (db.expEncodeMetaKey t k) with
  | none => exact pure 0
  | some v => exact lift_bind fun w hw t => ⟨_, by simp, h v w hv hw⟩

theorem persist (h : (db.rmExpire t k).Queues env s P) : (db.persist t k).Queues env s P :=
  (lift _).bind fun _ => h.bind fun _ => pure _

theorem expireDuration {duration : Int64} (hf : (f (env.now + duration)).Queues env s P) :
    (DB.expireDuration duration f).Queues env s P := ite (fun _ => throw _) fun _ => hf

theorem expireDeadline (hf : (f w).Queues env s P) : (DB.expireDeadline w f).Queues env s P :=
  now.bind fun _ => ite (fun _ => throw _) fun _ => hf

theorem expireSized {size : Op Int64} (hsize : size.Reads env s)
    (h : (db.expireAt t k w).Queues env s P) : (db.expireSized t k size w).Queues env s P :=
  (reads hsize).bind fun _ => ite (fun _ => pure _) fun _ => h.bind fun _ => pure _

theorem clear (hdel : (del k).Queues env s P) (hrm : (db.rmExpire t k).Queues env s P) :
    (db.clear t del k).Queues env s P :=
  (lift _).bind fun _ => hdel.bind fun _ => (ignoreErr hrm 0).bind fun _ => pure _

theorem mclear {keys : List Bytes} (hdel : ∀ k ∈ keys, (del k).Queues env s P)
    (hrm : ∀ k ∈ keys, (db.rmExpire t k).Queues env s P) :
    (db.mclear t del keys).Queues env s P := by
  refine bind ?_ fun _ => pure _
  induction keys with
  | nil => exact pure _
  | cons k ks ih =>
    exact (lift _).bind fun _ => (hdel k (.head _)).bind fun _ =>
      (ignoreErr (hrm k (.head _)) 0).bind fun _ =>
        ih (fun k' h => hdel k' (.tail _ h)) fun k' h => hrm k' (.tail _ h)

end Op.Queues

abbrev Emitting {α : Type} (db : DB) (env : Env) (s : Store) (T : DataType) (A : Bytes → Prop)
    (D : Option (Bytes × Int64)) (x : Op α) : Prop := x.Queues env s (Emits db s T A D)

namespace Emitting

variable {db : DB} {env : Env} {s : Store} {T : DataType} {A : Bytes → Prop}
  {D : Option (Bytes × Int64)} {k ek sk v : Bytes} {t : UInt8} {w : Int64} {enc : Bytes → Bytes}
open Op.Queues hiding put delete deleteAll

theorem put (hk : A k) (he : Puts db s T k ek v) : Emitting db env s T A D (Op.put ek v) :=
  Op.Queues.put (.put hk he .nil)

theorem delete (hk : A k) (he : DataEntry db T k ek) : Emitting db env s T A D (Op.delete ek) :=
  Op.Queues.delete (.delete hk he .nil)

theorem deleteAll {ks : List Bytes} (h : ∀ ek ∈ ks, ∃ k, A k ∧ DataEntry db T k ek) :
    Emitting db env s T A D (Op.deleteAll ks) := Op.Queues.deleteAll (Emits.deletes h)

theorem rmExpire (hk : A k) (ht : t = T.code) : Emitting db env s T A D (db.rmExpire t k) := by
  subst ht
  exact of_rmExpire fun v w hv hw => .rmExpire hk hv hw .nil

theorem rmExpire_ignoreErr (hk : A k) (ht : t = T.code) :
    Emitting db env s T A D ((db.rmExpire t k).ignoreErr 0) := ignoreErr (rmExpire hk ht) 0

theorem expireAt (hk : A k) (hD : D = some (k, w)) (ht : t = T.code) :
    Emitting db env s T A D (db.expireAt t k w) := by
  subst ht
  exact of_expireAt (.expireAt hk hD .nil)

theorem incrSize (hk : A k) (hsk : ∀ n, Puts db s T k sk (PutInt64 n)) (ht : t = T.code)
    (delta : Int64) : Emitting db env s T A D (db.incrSize sk t k delta) :=
  (get _).bind fun _ => (lift _).bind fun _ => ite
    (fun _ => (delete hk (hsk 0).stored.entry).bind fun _ =>
      (rmExpire_ignoreErr hk ht).bind fun _ => pure _)
    fun _ => (put hk (hsk _)).bind fun _ => pure _

theorem deleteMembers (hk : A k) (hsk : DataEntry db T k sk)
    (ht : ∀ m, DataEntry db T k (db.itemKey t k (58 :: m))) :
    Emitting db env s T A D (DB.deleteMembers sk (db.itemKey t k [58])
      (DB.setLast (db.itemKey t k [58]) 59)) := by
  refine range_bind (bind (deleteAll fun ek hek => ?_) fun _ =>
    (delete hk hsk).bind fun _ => pure _)
  obtain ⟨e, he, rfl⟩ := List.mem_map.mp hek
  rw [DB.scan_members] at he
  obtain ⟨e', -, rfl⟩ := List.mem_map.mp he
  exact ⟨k, hk, ht e'.1⟩

theorem addLoop (hk : A k) {check : Bytes → Bytes → Except Err Unit}
    (henc : ∀ m v, check m v = .ok () → Puts db s T k (enc m) v) (args : List (Bytes × Bytes))
    (num : Int64) : Emitting db env s T A D (DB.addLoop check enc args num) := by
  induction args generalizing num with
  | nil => exact pure _
  | cons a as ih =>
    exact lift_bind fun _ hc => (get _).bind fun _ =>
      (put hk (henc a.1 a.2 hc)).bind fun _ => ih _

theorem remLoop (hk : A k) {check : Bytes → Except Err Unit} (henc : ∀ m, DataEntry db T k (enc m))
    (ms : List Bytes) (num : Int64) : Emitting db env s T A D (DB.remLoop check enc ms num) := by
  induction ms generalizing num with
  | nil => exact pure _
  | cons m ms ih =>
    exact (lift _).bind fun _ => (find _).bind fun _ => ite (fun _ => ih _)
      fun _ => (delete hk (henc m)).bind fun _ => ih _

end Emitting

end LedisDB
