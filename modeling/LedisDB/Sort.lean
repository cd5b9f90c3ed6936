import LedisDB.Sorting
import LedisDB.ZSetLex

/-!
# SORT

`xsort` (`ledis/sort.go`) looks up a comparison value for every element, sorts the
elements with the standard library and cuts the range of the `LIMIT` out. The bounds of the
range are computed in `int` and may wrap; the length of the result is allocated before the
first element is copied.
-/

namespace LedisDB

/-- What `make` can allocate. The address space holds less than `2 ^ 63` bytes. -/
structure Heap where
  size : ℕ
  size_lt : size < 2 ^ 63

/-- `make` panics on a negative length and on one that does not fit. -/
def Heap.make (heap : Heap) (elemSize : ℕ) (len : ℤ) : Except Err Unit :=
  if len < 0 ∨ heap.size < elemSize * len.toNat then .error .panic else .ok ()

/-- The parts of the standard library that `xsort` uses. -/
structure SortLib where
  Float64 : Type
  zero : Float64
  lt : Float64 → Float64 → Bool
  ParseFloat : Bytes → Option Float64
  sorter : Sorting.Sorter

def getSortRange (values : List Bytes) (offset size : Int64) : Int64 × Int64 :=
  let start : Int64 := if offset > 0 then offset else 0
  let valueLen := Int64.ofNat values.length
  let stop := if size > 0 then start + size - 1 else valueLen - 1
  let (start, stop) :=
    if start ≥ valueLen then (valueLen - 1, valueLen - 2) else (start, stop)
  let stop := if stop ≥ valueLen then valueLen - 1 else stop
  (start, stop)

def bytesIndex (sep : Bytes) : Bytes → Option ℕ
  | [] => if sep = [] then some 0 else none
  | b :: s => if sep.isPrefixOf (b :: s) then some 0 else (bytesIndex sep s).map (· + 1)

def replaceFirst (old : UInt8) (new : Bytes) : Bytes → Bytes
  | [] => []
  | b :: s => if b = old then new ++ s else b :: replaceFirst old new s

def star : UInt8 := 42

def hashPattern : Bytes := [42, 45, 62]

def hashDereference (pattern : Bytes) : Bytes × Option Bytes :=
  match bytesIndex hashPattern pattern with
  | some n =>
    if n > 0 ∧ n + 3 < pattern.length then (pattern.take (n + 1), some (pattern.drop (n + 3)))
    else (pattern, none)
  | none => (pattern, none)

namespace DB

def lookupKeyByPattern (db : DB) (pattern subKey : Bytes) : Op (Option Bytes) :=
  -- the pattern #
  if pattern = [35] then pure (some subKey)
  else if !pattern.contains star then pure none
  else
    let (key, field) := hashDereference pattern
    let key := replaceFirst star subKey key
    match field with
    | none => (db.Get key).ignoreErr none
    | some field => (db.HGet key field).ignoreErr none

end DB

structure sortItem (F : Type) where
  value : Bytes
  cmpValue : Option Bytes
  score : F

def sortItemSize : ℕ := 56

def sortItemSlice.Less (lib : SortLib) (alpha sortByPattern : Bool)
    (s1 s2 : sortItem lib.Float64) : Bool :=
  if !alpha then
    if lib.lt s1.score s2.score then true
    else if lib.lt s2.score s1.score then false
    else decide (s1.value < s2.value)
  else if sortByPattern then
    match s1.cmpValue, s2.cmpValue with
    | none, _ => true
    | some _, none => false
    | some c1, some c2 => decide (c1 < c2)
  else decide (s1.value < s2.value)

/-- A pattern without `*` names no keys, and nothing is sorted by it. -/
def dontsort : Option Bytes → Bool
  | some sortBy => !sortBy.contains star
  | none => false

namespace DB

variable (lib : SortLib) (heap : Heap) (db : DB) (key : Bytes)

def sortItemOf (alpha dontsort : Bool) (sortBy : Option Bytes)
    (value : Bytes) : Op (sortItem lib.Float64) :=
  if dontsort then pure ⟨value, none, lib.zero⟩
  else do
    let cmpValue ← match sortBy with
      | some pattern => db.lookupKeyByPattern pattern value
      | none => pure (some value)
    match cmpValue with
    | none => pure ⟨value, none, lib.zero⟩
    | some cmpValue =>
      if alpha then pure ⟨value, if sortBy.isSome then some cmpValue else none, lib.zero⟩
      else match lib.ParseFloat cmpValue with
        | none => Op.throw (.scoreNotDouble cmpValue)
        | some score => pure ⟨value, none, score⟩

def sortItems (lib : SortLib) (db : DB) (alpha dontsort : Bool) (sortBy : Option Bytes) :
    List Bytes → Op (List (sortItem lib.Float64))
  | [] => pure []
  | value :: values => do
    let item ← db.sortItemOf lib alpha dontsort sortBy value
    let items ← db.sortItems lib alpha dontsort sortBy values
    pure (item :: items)

def getPatterns (db : DB) (value : Bytes) : List Bytes → Op (List (Option Bytes))
  | [] => pure []
  | getPattern :: sortGet => do
    let v ← db.lookupKeyByPattern getPattern value
    let vs ← db.getPatterns value sortGet
    pure (v :: vs)

/-- The loop that fills the result, from position `i` on for `n` rounds. -/
def sortResult {F : Type} (db : DB) (items : List (sortItem F)) (sortGet : List Bytes) :
    ℕ → ℕ → Op (List (Option Bytes))
  | _, 0 => pure []
  | i, n + 1 =>
    match items[i]? with
    | none => Op.throw .panic
    | some item => do
      let vs ← if sortGet.length = 0 then pure [some item.value]
        else db.getPatterns item.value sortGet
      let res ← db.sortResult items sortGet (i + 1) n
      pure (vs ++ res)

def xsort (values : List Bytes) (offset size : Int64)
    (alpha desc : Bool) (sortBy : Option Bytes) (sortGet : List Bytes) : Op (List (Option Bytes)) :=
  if values.length = 0 then pure []
  else do
    let (start, stop) := getSortRange values offset size
    let dontsort := dontsort sortBy
    Op.lift (heap.make sortItemSize values.length)
    let items ← db.sortItems lib alpha dontsort sortBy values
    let less := sortItemSlice.Less lib alpha sortBy.isSome
    let items :=
      if dontsort then items
      else if !desc then lib.sorter.sort less items
      else lib.sorter.sort (fun a b => less b a) items
    let resLen := stop - start + 1
    let resLen := if sortGet.length > 0 then Int64.ofNat sortGet.length * resLen else resLen
    Op.lift (heap.make sliceSize resLen.toInt)
    -- the rounds of `for i := start; i <= end; i++`
    db.sortResult items sortGet start.toInt.toNat (stop.toInt - start.toInt + 1).toNat

def XLSort (offset size : Int64)
    (alpha desc : Bool) (sortBy : Option Bytes) (sortGet : List Bytes) :
    Op (List (Option Bytes)) := do
  let values ← db.LRange key 0 (-1)
  db.xsort lib heap values offset size alpha desc sortBy sortGet

def XSSort (offset size : Int64)
    (alpha desc : Bool) (sortBy : Option Bytes) (sortGet : List Bytes) :
    Op (List (Option Bytes)) := do
  let values ← db.SMembers key
  db.xsort lib heap values offset size alpha desc sortBy sortGet

def XZSort (offset size : Int64)
    (alpha desc : Bool) (sortBy : Option Bytes) (sortGet : List Bytes) :
    Op (List (Option Bytes)) := do
  let values ← db.ZRangeByLex key none none RangeClose 0 (-1)
  db.xsort lib heap values offset size alpha desc sortBy sortGet

end DB

end LedisDB
