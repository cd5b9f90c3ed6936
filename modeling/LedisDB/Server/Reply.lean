import LedisDB.Decimals
import LedisDB.Server.Errors

/-!
# Writing replies

`respWriter` of `server/client_resp.go`. Each array kind has count arithmetic of its own,
and statuses and errors are written as they are. `RespReply.value` is the RESP value that
a reply stands for; the writer writes its encoding.
-/

namespace LedisDB

def Delims : Bytes := str "\r\n"
def NullBulk : Bytes := str "-1"
def NullArray : Bytes := str "-1"

def Itoa (n : ℕ) : Bytes := decimalDigits (n + 1) n

/-- The dynamic types that `writeArray` knows; a nil slice keeps its type. -/
inductive RespItem
  | nilInterfaces
  | interfaces (lst : List RespItem)
  | slices (lst : Option (List (Option Bytes)))
  | bytes (b : Option Bytes)
  | null
  | int64 (n : Int64)
  | string (s : Bytes)
  | error (text : Bytes)

inductive RespReply
  | Error (err : Option Bytes)
  | Status (status : Bytes)
  | Integer (n : Int64)
  | Bulk (b : Option Bytes)
  | Array (lst : Option (List RespItem))
  | SliceArray (lst : Option (List (Option Bytes)))
  | FVPairArray (lst : Option (List (Option Bytes × Option Bytes)))
  | ScorePairArray (lst : Option (List (Int64 × Option Bytes))) (withScores : Bool)

namespace respWriter

def writeError (err : Option Bytes) : Bytes := str "-" ++ (err.getD [] ++ Delims)

def writeStatus (status : Bytes) : Bytes := str "+" ++ (status ++ Delims)

def writeInteger (n : Int64) : Bytes := str ":" ++ (FormatInt64ToSlice n ++ Delims)

def writeBulk : Option Bytes → Bytes
  | none => str "$" ++ (NullBulk ++ Delims)
  | some b => str "$" ++ (Itoa b.length ++ Delims ++ (b ++ Delims))

def writeCount : Option ℕ → Bytes
  | none => str "*" ++ (NullArray ++ Delims)
  | some n => str "*" ++ (Itoa n ++ Delims)

def writeSliceArray : Option (List (Option Bytes)) → Bytes
  | none => writeCount none
  | some lst => writeCount (some lst.length) ++ lst.flatMap writeBulk

def writeFVPairArray : Option (List (Option Bytes × Option Bytes)) → Bytes
  | none => writeCount none
  | some lst => writeCount (some (lst.length * 2)) ++
      lst.flatMap fun (field, value) => writeBulk field ++ writeBulk value

def writeScorePairArray (withScores : Bool) : Option (List (Int64 × Option Bytes)) → Bytes
  | none => writeCount none
  | some lst => writeCount (some (if withScores then lst.length * 2 else lst.length)) ++
      lst.flatMap fun (score, member) => writeBulk member ++
        if withScores then writeBulk (some (FormatInt64ToSlice score)) else []

mutual

def writeItem : RespItem → Bytes
  | .nilInterfaces => writeCount none
  | .interfaces lst => writeCount (some lst.length) ++ writeItems lst
  | .slices lst => writeSliceArray lst
  | .bytes b => writeBulk b
  | .null => writeBulk none
  | .int64 n => writeInteger n
  | .string s => writeStatus s
  | .error text => writeError (some text)

def writeItems : List RespItem → Bytes
  | [] => []
  | x :: xs => writeItem x ++ writeItems xs

end

def writeArray : Option (List RespItem) → Bytes
  | none => writeCount none
  | some lst => writeCount (some lst.length) ++ writeItems lst

end respWriter

open respWriter

def RespReply.write : RespReply → Bytes
  | .Error err => writeError err
  | .Status status => writeStatus status
  | .Integer n => writeInteger n
  | .Bulk b => writeBulk b
  | .Array lst => writeArray lst
  | .SliceArray lst => writeSliceArray lst
  | .FVPairArray lst => writeFVPairArray lst
  | .ScorePairArray lst withScores => writeScorePairArray withScores lst

namespace Resp

def ofBytes : Option Bytes → Resp
  | none => .nilBulk
  | some b => .bulk b

def ofSlices : Option (List (Option Bytes)) → Resp
  | none => .nilArray
  | some lst => .array (lst.map ofBytes)

end Resp

mutual

def RespItem.value : RespItem → Resp
  | .nilInterfaces => .nilArray
  | .interfaces lst => .array (RespItem.values lst)
  | .slices lst => Resp.ofSlices lst
  | .bytes b => Resp.ofBytes b
  | .null => .nilBulk
  | .int64 n => .integer n
  | .string s => .status s
  | .error text => .error text

def RespItem.values : List RespItem → List Resp
  | [] => []
  | x :: xs => x.value :: RespItem.values xs

end

/-- The RESP value of a reply; pairs follow one another in one array. -/
def RespReply.value : RespReply → Resp
  | .Error err => .error (err.getD [])
  | .Status status => .status status
  | .Integer n => .integer n
  | .Bulk b => Resp.ofBytes b
  | .Array none => .nilArray
  | .Array (some lst) => .array (RespItem.values lst)
  | .SliceArray lst => Resp.ofSlices lst
  | .FVPairArray none => .nilArray
  | .FVPairArray (some lst) => .array (lst.flatMap fun (field, value) =>
      [Resp.ofBytes field, Resp.ofBytes value])
  | .ScorePairArray none _ => .nilArray
  | .ScorePairArray (some lst) withScores => .array (lst.flatMap fun (score, member) =>
      Resp.ofBytes member :: if withScores then [.bulk (FormatInt64ToSlice score)] else [])

theorem Itoa_eq (n : ℕ) : Itoa n = Resp.decimalInt n := decimalDigits_eq (n + 1) n

theorem writeInteger_eq (n : Int64) : writeInteger n = (Resp.integer n).encode := by
  rw [writeInteger, FormatInt64ToSlice_eq]
  rfl

theorem writeBulk_eq (b : Option Bytes) : writeBulk b = (Resp.ofBytes b).encode := by
  cases b with
  | none => rfl
  | some b =>
    rw [writeBulk, Itoa_eq]
    rfl

theorem writeCount_array {n : ℕ} {xs : List Resp} (h : n = xs.length) :
    writeCount (some n) ++ xs.flatMap Resp.encode = (Resp.array xs).encode := by
  rw [writeCount, Itoa_eq, h, ← Resp.encodeAll_eq]
  rfl

theorem writeCount_flatMap {α : Type} {lst : List α} {f : α → List Resp} {g : α → Bytes} {n k : ℕ}
    (hn : n = lst.length * k) (hk : ∀ a, (f a).length = k)
    (hg : ∀ a, g a = (f a).flatMap Resp.encode) :
    writeCount (some n) ++ lst.flatMap g = (Resp.array (lst.flatMap f)).encode := by
  have hlen : n = (lst.flatMap f).length := by
    rw [hn]
    simp [hk]
  rw [← writeCount_array hlen, List.flatMap_assoc]
  exact congrArg (fun h => _ ++ lst.flatMap h) (funext hg)

theorem writeSliceArray_eq (lst : Option (List (Option Bytes))) :
    writeSliceArray lst = (Resp.ofSlices lst).encode := by
  cases lst with
  | none => rfl
  | some lst =>
    rw [Resp.ofSlices, ← List.flatMap_pure_eq_map]
    refine writeCount_flatMap (Nat.mul_one _).symm (fun _ => rfl) fun b => ?_
    rw [writeBulk_eq]
    exact (List.append_nil _).symm

theorem RespItem.values_length (xs : List RespItem) : (RespItem.values xs).length = xs.length := by
  induction xs with
  | nil => rfl
  | cons x xs ih => rw [values, List.length_cons, List.length_cons, ih]

mutual

theorem writeItem_eq (x : RespItem) : writeItem x = x.value.encode := by
  cases x with
  | nilInterfaces | null | string s | error text => rfl
  | interfaces lst =>
    rw [writeItem, RespItem.value, ← writeCount_array (RespItem.values_length lst).symm,
      writeItems_eq lst]
  | slices lst => exact writeSliceArray_eq lst
  | bytes b => exact writeBulk_eq b
  | int64 n => exact writeInteger_eq n

theorem writeItems_eq (xs : List RespItem) :
    writeItems xs = (RespItem.values xs).flatMap Resp.encode := by
  cases xs with
  | nil => rfl
  | cons x xs =>
    rw [writeItems, RespItem.values, List.flatMap_cons, writeItem_eq x, writeItems_eq xs]

end

theorem RespReply.write_eq (r : RespReply) : r.write = r.value.encode := by
  cases r with
  | Error err => rfl
  | Status status => rfl
  | Integer n => exact writeInteger_eq n
  | Bulk b => exact writeBulk_eq b
  | Array lst =>
    cases lst with
    | none => rfl
    | some lst =>
      rw [value, ← writeCount_array (RespItem.values_length lst).symm, ← writeItems_eq]
      rfl
  | SliceArray lst => exact writeSliceArray_eq lst
  | FVPairArray lst =>
    cases lst with
    | none => rfl
    | some lst =>
      refine writeCount_flatMap rfl (fun _ => rfl) fun (field, value) => ?_
      dsimp only
      rw [writeBulk_eq, writeBulk_eq]
      simp
  | ScorePairArray lst withScores =>
    cases lst with
    | none => rfl
    | some lst =>
      cases withScores with
      | false =>
        refine writeCount_flatMap (Nat.mul_one _).symm (fun _ => rfl) fun (score, member) => ?_
        dsimp only
        rw [writeBulk_eq]
        simp
      | true =>
        refine writeCount_flatMap rfl (fun _ => rfl) fun (score, member) => ?_
        dsimp only
        rw [writeBulk_eq, writeBulk_eq]
        simp [Resp.ofBytes]

end LedisDB
