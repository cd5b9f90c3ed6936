import LedisDB.ScanPages
import LedisDB.Server.Errors

/-!
# The scan commands

`server/cmd_scan.go`. XSCAN, XHSCAN, XSSCAN and XZSCAN start and end with the empty
cursor; HSCAN, SSCAN and ZSCAN start and end with `0`, which is translated to the empty
cursor. The reply to a page that is not full carries the end cursor, any other the name
of the last element. Whether a page is full is decided by the COUNT of the client, which
may be zero or negative, while the engine then uses ten.
-/

namespace LedisDB

open List

def nilCursorLedis : Bytes := []
def nilCursorRedis : Bytes := str "0"

structure ScanOpts where
  pattern : Bytes
  count : ℤ
  desc : Bool

def parseScanOpts : List Bytes → ScanOpts → Except ServerErr ScanOpts
  | [], o => .ok o
  | arg :: args, o =>
    if toUpper arg = str "MATCH" then
      match args with
      | [] => .error .ErrCmdParams
      | m :: args => parseScanOpts args { o with pattern := m }
    else if toUpper arg = str "COUNT" then
      match args with
      | [] => .error .ErrCmdParams
      | n :: args =>
        match parseInt n with
        | .error e => .error (.atoi n e)
        | .ok count => parseScanOpts args { o with count := count.toInt }
    else if toUpper arg = str "ASC" then parseScanOpts args { o with desc := false }
    else if toUpper arg = str "DESC" then parseScanOpts args { o with desc := true }
    else .error (.invalidArgument arg)

def parseXScanArgs (args : List Bytes) : Except ServerErr (Bytes × ScanOpts) :=
  match args with
  | [] => .error (.ledis .panic)
  | cursor :: args => (parseScanOpts args ⟨[], 10, false⟩).map fun o => (cursor, o)

def parseScanArgs (args : List Bytes) : Except ServerErr (Bytes × ScanOpts) :=
  (parseXScanArgs args).map fun a =>
    (if a.1 = nilCursorRedis then nilCursorLedis else a.1, a.2)

structure ScanCommandGroup where
  lastCursor : Bytes
  parseArgs : List Bytes → Except ServerErr (Bytes × ScanOpts)

def xScanGroup : ScanCommandGroup := ⟨nilCursorLedis, parseXScanArgs⟩
def scanGroup : ScanCommandGroup := ⟨nilCursorRedis, parseScanArgs⟩

structure ScanClient where
  db : DB
  memory : ℕ
  compile : Bytes → Option (Bytes → Bool)

def ScanClient.buildMatchRegexp (c : ScanClient) (pattern : Bytes) :
    Except ServerErr (Option (Bytes → Bool)) :=
  if pattern.length > 0 then
    match c.compile pattern with
    | none => .error (.regexp pattern)
    | some r => .ok (some r)
  else .ok none

def scanReply {α : Type} (lastCursor : Bytes) (count : ℤ) (name : α → Bytes)
    (data : α → List Bytes) (ay : List α) : Except ServerErr (Bytes × List Bytes) :=
  if ay.length < count then .ok (lastCursor, ay.flatMap data)
  else match ay.getLast? with
    | none => .error (.ledis .panic)
    | some a => .ok (name a, ay.flatMap data)

def ScanClient.answer {α : Type} (c : ScanClient) (env : Env) (s : Store) (scg : ScanCommandGroup)
    (args : List Bytes) (scan revScan : Bytes → ℤ → Bool → Option (Bytes → Bool) → Op (List α))
    (name : α → Bytes) (data : α → List Bytes) : Except ServerErr (Bytes × List Bytes) := do
  let (cursor, o) ← scg.parseArgs args
  let r ← c.buildMatchRegexp o.pattern
  let ay ← (((if o.desc then revScan else scan) cursor o.count false r).eval env s).mapError .ledis
  scanReply scg.lastCursor o.count name data ay

def parseDataType (arg : Bytes) : Except ServerErr DataType :=
  if toUpper arg = str "KV" then .ok .KV
  else if toUpper arg = str "HASH" then .ok .HASH
  else if toUpper arg = str "LIST" then .ok .LIST
  else if toUpper arg = str "SET" then .ok .SET
  else if toUpper arg = str "ZSET" then .ok .ZSET
  else .error (.invalidKeyType arg)

namespace ScanCommandGroup

variable (scg : ScanCommandGroup) (c : ScanClient) (env : Env) (s : Store)

def xscanCommand : List Bytes → Except ServerErr (Bytes × List Bytes)
  | tp :: cursor :: args => do
    let dataType ← parseDataType tp
    c.answer env s scg (cursor :: args) (c.db.Scan c.memory dataType)
      (c.db.RevScan c.memory dataType) id fun k => [k]
  | _ => .error .ErrCmdParams

def xhscanCommand : List Bytes → Except ServerErr (Bytes × List Bytes)
  | key :: cursor :: args =>
    c.answer env s scg (cursor :: args) (c.db.HScan c.memory key) (c.db.HRevScan c.memory key)
      FVPair.Field fun v => [v.Field, v.Value]
  | _ => .error .ErrCmdParams

def xsscanCommand : List Bytes → Except ServerErr (Bytes × List Bytes)
  | key :: cursor :: args =>
    c.answer env s scg (cursor :: args) (c.db.SScan c.memory key) (c.db.SRevScan c.memory key)
      id fun m => [m]
  | _ => .error .ErrCmdParams

def xzscanCommand : List Bytes → Except ServerErr (Bytes × List Bytes)
  | key :: cursor :: args =>
    c.answer env s scg (cursor :: args) (c.db.ZScan c.memory key) (c.db.ZRevScan c.memory key)
      ScorePair.Member fun v => [v.Member, FormatInt64ToSlice v.Score]
  | _ => .error .ErrCmdParams

end ScanCommandGroup

inductive ScanCommand
  | hscan
  | sscan
  | zscan
  | xscan
  | xhscan
  | xsscan
  | xzscan

namespace ScanCommand

def group : ScanCommand → ScanCommandGroup
  | .hscan | .sscan | .zscan => scanGroup
  | .xscan | .xhscan | .xsscan | .xzscan => xScanGroup

def handler (k : ScanCommand) : ScanClient → Env → Store → List Bytes →
    Except ServerErr (Bytes × List Bytes) :=
  match k with
  | .hscan | .xhscan => k.group.xhscanCommand
  | .sscan | .xsscan => k.group.xsscanCommand
  | .zscan | .xzscan => k.group.xzscanCommand
  | .xscan => k.group.xscanCommand

def scanned (subject : Bytes) : ScanCommand → Option Scanned
  | .hscan | .xhscan => some (.fields subject)
  | .sscan | .xsscan => some (.members subject)
  | .zscan | .xzscan => some (.scores subject)
  | .xscan => (parseDataType subject).toOption.map .keys

def translate (k : ScanCommand) (cursor : Bytes) : Bytes :=
  if cursor = k.group.lastCursor then [] else cursor

theorem parseArgs_ok (k : ScanCommand) {opts : List Bytes} {o : ScanOpts}
    (ho : parseScanOpts opts ⟨[], 10, false⟩ = .ok o) (cursor : Bytes) :
    k.group.parseArgs (cursor :: opts) = .ok (k.translate cursor, o) := by
  have hx : parseXScanArgs (cursor :: opts) = .ok (cursor, o) := by
    rw [parseXScanArgs, ho]
    rfl
  have hid : xScanGroup.parseArgs (cursor :: opts) =
      .ok (if cursor = nilCursorLedis then [] else cursor, o) := by
    refine hx.trans ?_
    split_ifs with h
    · rw [h]
      rfl
    · rfl
  have hs : parseScanArgs (cursor :: opts) =
      .ok (if cursor = nilCursorRedis then nilCursorLedis else cursor, o) := by
    rw [parseScanArgs, hx]
    rfl
  cases k with
  | hscan | sscan | zscan => exact hs
  | xscan | xhscan | xsscan | xzscan => exact hid

end ScanCommand

def Scanned.data : Scanned → Bytes × Bytes → List Bytes
  | .keys _, e => [e.1]
  | .fields _, e => [e.1, e.2]
  | .members _, e => [e.1]
  | .scores _, e => [e.1, FormatInt64ToSlice (scoreIn e.2)]

section
variable {env : Env} {s : Store} {c : ScanClient} {k : ScanCommand} {x : Scanned}
  {subject last : Bytes} {opts : List Bytes} {o : ScanOpts} {r : Option (Bytes → Bool)} {count : ℤ}

theorem scanReply_map {α γ : Type} (last : Bytes) (count : ℤ) (name : α → Bytes)
    (data : α → List Bytes) (f : γ → α) (ay : List γ) :
    scanReply last count name data (ay.map f) =
      scanReply last count (fun a => name (f a)) (fun a => data (f a)) ay := by
  unfold scanReply
  rw [length_map, getLast?_map, flatMap_map]
  cases ay.getLast? <;> rfl

theorem answer_eq {α : Type} {scan revScan : Bytes → ℤ → Bool → Option (Bytes → Bool) → Op (List α)}
    {name : α → Bytes} {data : α → List Bytes} {f : Bytes × Bytes → α} {elemSize : ℕ}
    (ho : parseScanOpts opts ⟨[], 10, false⟩ = .ok o)
    (hr : c.buildMatchRegexp o.pattern = .ok r) (cursor : Bytes)
    (hscan : ((if o.desc then revScan else scan) (k.translate cursor) o.count false r).eval env s =
      if elemSize * (DB.checkScanCount o.count).toNat > c.memory then .error .panic
      else .ok ((x.found c.db s (k.translate cursor) o.count false r o.desc).map f))
    (hname : ∀ e, name (f e) = e.1) (hdata : ∀ e, data (f e) = x.data e) :
    c.answer env s k.group (cursor :: opts) scan revScan name data =
      if elemSize * (DB.checkScanCount o.count).toNat > c.memory then .error (.ledis .panic)
      else scanReply k.group.lastCursor o.count Prod.fst x.data
        (x.found c.db s (k.translate cursor) o.count false r o.desc) := by
  simp only [ScanClient.answer, k.parseArgs_ok ho, hr, bind, Except.bind, hscan]
  split_ifs
  · rfl
  · simp [Except.mapError, scanReply_map, hname, hdata]

theorem page_eval {α : Type} {elemSize memory : ℕ} {f : Unit → Op (List α)} {ay : List α}
    (h : elemSize * (DB.checkScanCount count).toNat ≤ memory →
      (Op.lift (DB.makePage memory elemSize (DB.checkScanCount count)) >>= f).eval env s = .ok ay) :
    (Op.lift (DB.makePage memory elemSize (DB.checkScanCount count)) >>= f).eval env s =
      if elemSize * (DB.checkScanCount count).toNat > memory then .error .panic else .ok ay := by
  split_ifs with hpage
  · simp [Op.eval, DB.makePage, hpage]
  · exact h (not_lt.mp hpage)

section
variable {db : DB} {memory : ℕ} {key : Bytes} (hs : Reached s) (count : ℤ) (desc : Bool)
  (cursor : Bytes)
include hs

/-! Each scan of the engine, with the page it allocates. -/

theorem scan_eval (T : DataType) :
    ((if desc then db.RevScan memory T else db.Scan memory T) cursor count false r).eval env s =
      if DB.sliceSize * (DB.checkScanCount count).toNat > memory then .error .panic
      else .ok (((Scanned.keys T).found db s cursor count false r desc).map Prod.fst) := by
  cases desc with
  | false => exact page_eval fun h => congrArg Prod.fst (keys_run cursor false r false hs.wf T h)
  | true => exact page_eval fun h => congrArg Prod.fst (keys_run cursor false r true hs.wf T h)

variable (hkey : ValidKey key)
include hkey

theorem hScan_eval :
    ((if desc then db.HRevScan memory key else db.HScan memory key) cursor count false r).eval
      env s = if DB.fvPairSize * (DB.checkScanCount count).toNat > memory then .error .panic
        else .ok (((Scanned.fields key).found db s cursor count false r desc).map
          fun e => ⟨e.1, e.2⟩) := by
  cases desc <;>
    exact page_eval fun h => congrArg Prod.fst (hScanGeneric_run cursor false r _ hs.wf hkey h)

theorem sScan_eval :
    ((if desc then db.SRevScan memory key else db.SScan memory key) cursor count false r).eval
      env s = if DB.sliceSize * (DB.checkScanCount count).toNat > memory then .error .panic
        else .ok (((Scanned.members key).found db s cursor count false r desc).map
          Prod.fst) := by
  cases desc <;>
    exact page_eval fun h => congrArg Prod.fst (sScanGeneric_run cursor false r _ hs.wf hkey h)

theorem zScan_eval :
    ((if desc then db.ZRevScan memory key else db.ZScan memory key) cursor count false r).eval
      env s = if DB.scorePairSize * (DB.checkScanCount count).toNat > memory then .error .panic
        else .ok (((Scanned.scores key).found db s cursor count false r desc).map
          fun e => ⟨scoreIn e.2, e.1⟩) := by
  cases desc <;>
    exact page_eval fun h => congrArg Prod.fst (zScanGeneric_run cursor false r _ hs hkey h)

end

theorem handler_eq (hs : Reached s) (hk : k.scanned subject = some x) (hx : x.Valid)
    (ho : parseScanOpts opts ⟨[], 10, false⟩ = .ok o)
    (hr : c.buildMatchRegexp o.pattern = .ok r) (cursor : Bytes) :
    k.handler c env s (subject :: cursor :: opts) =
      if x.elemSize * (DB.checkScanCount o.count).toNat > c.memory then .error (.ledis .panic)
      else scanReply k.group.lastCursor o.count Prod.fst x.data
        (x.found c.db s (k.translate cursor) o.count false r o.desc) := by
  cases k with
  | hscan | xhscan =>
    cases hk
    exact answer_eq ho hr cursor (hScan_eval hs _ _ _ hx) (fun _ => rfl) fun _ => rfl
  | sscan | xsscan =>
    cases hk
    exact answer_eq ho hr cursor (sScan_eval hs _ _ _ hx) (fun _ => rfl) fun _ => rfl
  | zscan | xzscan =>
    cases hk
    exact answer_eq ho hr cursor (zScan_eval hs _ _ _ hx) (fun _ => rfl) fun _ => rfl
  | xscan =>
    simp only [ScanCommand.scanned] at hk
    cases hT : parseDataType subject with
    | error e =>
      rw [hT] at hk
      cases hk
    | ok T =>
      rw [hT] at hk
      cases hk
      simp only [ScanCommand.handler, ScanCommandGroup.xscanCommand, hT]
      exact answer_eq ho hr cursor (scan_eval hs _ _ _ T) (fun _ => rfl) fun _ => rfl

def pageReply (lastCursor : Bytes) (count : ℤ) (ay : List (Bytes × Bytes)) :
    Except ServerErr (Bytes × List (Bytes × Bytes)) :=
  if ay.length < count then .ok (lastCursor, ay)
  else match ay.getLast? with
    | none => .error (.ledis .panic)
    | some a => .ok (a.1, ay)

theorem scanReply_eq (last : Bytes) (count : ℤ) (data : Bytes × Bytes → List Bytes)
    (ay : List (Bytes × Bytes)) : scanReply last count Prod.fst data ay =
      (pageReply last count ay).map fun a => (a.1, a.2.flatMap data) := by
  unfold scanReply pageReply
  split_ifs
  · rfl
  · cases ay.getLast? <;> rfl

theorem pageReply_ok (hcount : 0 < count) (ay : List (Bytes × Bytes)) :
    ∃ a, pageReply last count ay = .ok a := by
  unfold pageReply
  split_ifs with hlen
  · exact ⟨_, rfl⟩
  · cases hlast : ay.getLast? with
    | none =>
      rw [getLast?_eq_none_iff.mp hlast] at hlen
      exact absurd hcount hlen
    | some a => exact ⟨_, rfl⟩

theorem checkScanCount_of_pos (h : 0 < count) : DB.checkScanCount count = count :=
  if_neg (not_le.mpr h)

theorem pageReply_replies (hcount : 0 < count) (last : Bytes)
    (page : Bytes → List (Bytes × Bytes)) :
    Replies (fun cursor => pageReply last count (page cursor))
      (fun cursor => (.ok (page cursor) : Except ServerErr _)) Prod.fst last count.toNat := by
  intro cursor p hp
  cases hp
  refine ⟨fun hlen => if_pos (by omega), fun a ha hlen => ?_⟩
  change pageReply last count (page cursor) = _
  rw [pageReply, if_neg (by omega), ha]

theorem exists_above (l : List Bytes) : ∃ c, c ≠ [] ∧ c ≠ nilCursorRedis ∧ ∀ x ∈ l, x < c := by
  have hbound : ∃ c, ∀ x ∈ l, x ≤ c := by
    induction l with
    | nil => exact ⟨[], by simp⟩
    | cons a l ih =>
      obtain ⟨c, hc⟩ := ih
      refine ⟨max a c, fun x hx => ?_⟩
      rcases mem_cons.mp hx with rfl | hx
      · exact le_max_left _ _
      · exact (hc x hx).trans (le_max_right _ _)
  obtain ⟨c, hc⟩ := hbound
  have hlast : nilCursorRedis.getLast? = some 48 := rfl
  refine ⟨c ++ [0], by simp, fun h => ?_, fun x hx => (hc x hx).trans_lt ?_⟩
  · rw [← h, getLast?_concat] at hlast
    exact absurd (Option.some.inj hlast) (by decide)
  · simpa using (Lexicographic.append_lt_append_iff c [] [0]).mpr (nil_lt_cons 0 [])

theorem exists_found_nil (k : ScanCommand) (db : DB) (x : Scanned) (count : ℤ)
    (r : Option (Bytes → Bool)) (desc : Bool) :
    ∃ cursor, x.found db s (k.translate cursor) count false r desc = [] := by
  have htr : ∀ {cursor : Bytes}, cursor ≠ [] → cursor ≠ nilCursorRedis →
      k.translate cursor = cursor := by
    intro cursor h h'
    cases k with
    | hscan | sscan | zscan => exact if_neg h'
    | xscan | xhscan | xsscan | xzscan => exact if_neg h
  have hnone : ∀ cursor, (∀ e ∈ x.entries db s, pastCursor cursor false desc e.1 = false) →
      x.found db s cursor count false r desc = [] := by
    intro cursor h
    rw [Scanned.found, filter_eq_nil_iff.mpr, take_nil]
    intro e he
    rw [h e (Direction.mem_arrange.mp he)]
    simp
  cases desc with
  | false =>
    obtain ⟨c, hne, hne', hc⟩ := exists_above ((x.entries db s).map Prod.fst)
    refine ⟨c, ?_⟩
    rw [htr hne hne']
    refine hnone c fun e he => ?_
    have hlt := hc e.1 (mem_map_of_mem he)
    simpa [pastCursor] using hlt.le
  | true =>
    refine ⟨[0], ?_⟩
    rw [htr (by simp) (by decide)]
    refine hnone [0] fun e _ => ?_
    cases he : e.1 with
    | nil => simp [pastCursor]
    | cons a t =>
      have hle : [0] ≤ a :: t := by
        refine not_lt.mp fun h => ?_
        rcases cons_lt_cons_iff.mp h with h | ⟨-, h⟩
        · exact absurd h (by simp)
        · exact absurd h (by simp)
      simpa [pastCursor] using hle

/-- What the cursor protocol promises of a command: every request is answered, and a client
that passes the returned cursor back until it is the terminal one gets every element that
matches once. -/
structure CursorProtocol (k : ScanCommand) (c : ScanClient) (env : Env) (s : Store)
    (subject : Bytes) (opts : List Bytes) (elements : List (List Bytes)) : Prop where
  answers : ∀ cursor, k.handler c env s (subject :: cursor :: opts) ≠ .error (.ledis .panic)
  complete : ∀ fuel, elements.length < fuel →
    visit (fun cursor => k.handler c env s (subject :: cursor :: opts)) k.group.lastCursor fuel
      k.group.lastCursor = some elements.flatten

theorem ScanCommand.translate_last (k : ScanCommand) : k.translate k.group.lastCursor = [] :=
  if_pos rfl

theorem visit_handler (hs : Reached s) (hk : k.scanned subject = some x) (hx : x.Valid)
    (ho : parseScanOpts opts ⟨[], 10, false⟩ = .ok o) (hr : c.buildMatchRegexp o.pattern = .ok r)
    (hcount : 0 < o.count) (hmem : x.elemSize * o.count.toNat ≤ c.memory) (fuel : ℕ)
    (cursor : Bytes) :
    visit (fun cursor => k.handler c env s (subject :: cursor :: opts)) k.group.lastCursor fuel
      cursor = (visit (fun cursor => pageReply k.group.lastCursor o.count
        (x.found c.db s (k.translate cursor) o.count false r o.desc)) k.group.lastCursor fuel
          cursor).map fun p => p.flatMap x.data := by
  rw [← visit_flatMap]
  congr 1
  funext cursor
  rw [handler_eq hs hk hx ho hr, checkScanCount_of_pos hcount, if_neg (not_lt.mpr hmem),
    scanReply_eq]

theorem matching_nodup (db : DB) (s : Store) (x : Scanned) (r : Option (Bytes → Bool))
    (reverse : Bool) : (x.matching db s r reverse).Nodup := by
  refine List.Pairwise.imp (fun {a b} h => ?_) (matching_sorted db s x r reverse)
  rintro rfl
  exact scanBefore_asymm reverse a a h h

theorem data_length (x : Scanned) : ∃ w, 0 < w ∧ ∀ e, (x.data e).length = w := by
  cases x with
  | keys _ | members _ => exact ⟨1, by decide, fun _ => rfl⟩
  | fields _ | scores _ => exact ⟨2, by decide, fun _ => rfl⟩

theorem length_eq_of_flatMap {l l' : List (Bytes × Bytes)}
    (h : l.flatMap x.data = l'.flatMap x.data) : l.length = l'.length := by
  obtain ⟨w, hw, hdata⟩ := data_length x
  have hlen := congrArg length h
  simp only [length_flatMap, hdata, map_const', sum_replicate_nat] at hlen
  exact Nat.eq_of_mul_eq_mul_right hw hlen

theorem visit_pages_iff (k : ScanCommand) (c : ScanClient) (x : Scanned) (r : Option (Bytes → Bool))
    (hcount : 0 < o.count) {E : List (Bytes × Bytes)}
    (hE : E = (x.matchingEntries c.db s r o.desc).filter fun e => e.1 ≠ []) {fuel : ℕ}
    (hf : E.length < fuel) :
    let read := visit (fun cursor => pageReply k.group.lastCursor o.count
      (x.found c.db s (k.translate cursor) o.count false r o.desc)) k.group.lastCursor fuel
        k.group.lastCursor
    (read = some E ↔ ∀ V a W, E = V ++ a :: W → a.1 = k.group.lastCursor →
      o.count.toNat ∣ V.length + 1 → W = []) ∧ ∀ p, read = some p → p <+: E := by
  have hpages := found_pages ServerErr c.db s x o.count r o.desc
  rw [checkScanCount_of_pos hcount, ← hE] at hpages
  have hnd : (E.map Prod.fst).Nodup := by
    refine (matching_nodup c.db s x r o.desc).sublist ?_
    rw [← matchingEntries_names, hE]
    exact filter_sublist.map _
  have hreplies := pageReply_replies hcount k.group.lastCursor fun cursor =>
    x.found c.db s (k.translate cursor) o.count false r o.desc
  have hn : 0 < o.count.toNat := by omega
  have htr : ∀ cursor, cursor ≠ k.group.lastCursor → k.translate cursor = cursor :=
    fun cursor h => if_neg h
  exact ⟨visit_eq_iff hpages hn hreplies htr k.translate_last hf hnd,
    fun p hp => visit_prefix_list hpages hn hreplies htr k.translate_last hf hnd hp⟩

theorem matchingEntries_filter (h : [] ∉ x.matching c.db s r o.desc) :
    ((x.matchingEntries c.db s r o.desc).filter fun e => e.1 ≠ []) =
      x.matchingEntries c.db s r o.desc := by
  refine filter_eq_self.mpr fun e he => decide_eq_true ?_
  rintro hnil
  rw [← matchingEntries_names] at h
  exact h (hnil ▸ mem_map_of_mem he)

theorem pageEnd_iff {n : ℕ} :
    (∀ V a W, x.matchingEntries c.db s r o.desc = V ++ a :: W → a.1 = last → n ∣ V.length + 1 →
      W = []) ↔
    ∀ V W, x.matching c.db s r o.desc = V ++ last :: W → n ∣ V.length + 1 → W = [] := by
  rw [← matchingEntries_names]
  constructor
  · intro h V' W' hE hdvd
    obtain ⟨V, aW, hsplit, rfl, haW⟩ := map_eq_append_iff.mp hE
    obtain ⟨a, W, rfl, ha, rfl⟩ := map_eq_cons_iff.mp haW
    rw [length_map] at hdvd
    rw [h V a W hsplit ha hdvd, map_nil]
  · rintro h V a W hE rfl hdvd
    have hnil := h (V.map Prod.fst) (W.map Prod.fst) (by rw [hE]; simp) (by simpa using hdvd)
    exact map_eq_nil_iff.mp hnil

theorem nonempty_of_read {p : List (Bytes × Bytes)}
    (hp : p <+: (x.matchingEntries c.db s r o.desc).filter fun e => e.1 ≠ [])
    (hlen : p.length = (x.matchingEntries c.db s r o.desc).length) :
    [] ∉ x.matching c.db s r o.desc ∧ p = x.matchingEntries c.db s r o.desc := by
  have heq := (hp.sublist.trans filter_sublist).eq_of_length hlen
  refine ⟨fun hnil => ?_, heq⟩
  rw [← matchingEntries_names] at hnil
  obtain ⟨e, he, hempty⟩ := mem_map.mp hnil
  rw [← heq] at he
  exact of_decide_eq_true (mem_filter.mp (hp.subset he)).2 hempty

theorem cursor_protocol_iff (hs : Reached s) (hk : k.scanned subject = some x) (hx : x.Valid)
    (ho : parseScanOpts opts ⟨[], 10, false⟩ = .ok o)
    (hr : c.buildMatchRegexp o.pattern = .ok r) (env : Env) :
    CursorProtocol k c env s subject opts ((x.matchingEntries c.db s r o.desc).map x.data) ↔
      0 < o.count ∧ x.elemSize * o.count.toNat ≤ c.memory ∧
        [] ∉ x.matching c.db s r o.desc ∧
        ∀ V W, x.matching c.db s r o.desc = V ++ k.group.lastCursor :: W →
          o.count.toNat ∣ V.length + 1 → W = [] := by
  constructor
  · rintro ⟨hanswers, hcomplete⟩
    have hmem : ¬ x.elemSize * (DB.checkScanCount o.count).toNat > c.memory := by
      intro h
      exact hanswers [] (by rw [handler_eq hs hk hx ho hr, if_pos h])
    have hcount : 0 < o.count := by
      by_contra hle
      obtain ⟨cursor, hnil⟩ := exists_found_nil k c.db x o.count r o.desc
      refine hanswers cursor ?_
      rw [handler_eq hs hk hx ho hr, if_neg hmem, hnil]
      exact if_neg (by simpa using hle)
    rw [checkScanCount_of_pos hcount] at hmem
    -- the client reads a part of the elements that are not empty
    have hread := hcomplete _ (Nat.lt_succ_self _)
    rw [visit_handler hs hk hx ho hr hcount (not_lt.mp hmem), List.length_map] at hread
    obtain ⟨p, hp, hdata⟩ := Option.map_eq_some_iff.mp hread
    have hlt := Nat.lt_succ_of_le (List.length_filter_le (fun e : Bytes × Bytes => e.1 ≠ [])
      (x.matchingEntries c.db s r o.desc))
    obtain ⟨hiff, hpart⟩ := visit_pages_iff k c x r hcount rfl hlt
    obtain ⟨hne, rfl⟩ := nonempty_of_read (hpart p hp) (length_eq_of_flatMap hdata)
    refine ⟨hcount, not_lt.mp hmem, hne, pageEnd_iff.mp ?_⟩
    rw [matchingEntries_filter hne] at hiff
    exact hiff.mp hp
  · rintro ⟨hcount, hmem, hne, hends⟩
    refine ⟨fun cursor => ?_, fun fuel hf => ?_⟩
    · obtain ⟨a, ha⟩ := pageReply_ok hcount
        (x.found c.db s (k.translate cursor) o.count false r o.desc)
      rw [handler_eq hs hk hx ho hr, checkScanCount_of_pos hcount, if_neg (not_lt.mpr hmem),
        scanReply_eq, ha]
      intro h
      cases h
    · rw [List.length_map] at hf
      have hiff := (visit_pages_iff k c x r hcount (matchingEntries_filter hne).symm hf).1
      rw [visit_handler hs hk hx ho hr hcount hmem, hiff.mpr (pageEnd_iff.mpr hends)]
      rfl

theorem cursor_protocol_fields :
    CursorProtocol .hscan ⟨DB.zero, 4096, fun _ => none⟩ (Env.quiet 0)
      (exec (Env.quiet 0) (DB.zero.HMset [104] [⟨[97], [1]⟩, ⟨[98], [2]⟩, ⟨[99], [3]⟩])
        State.empty).2.store [104] [str "COUNT", str "2"]
      [[[97], [1]], [[98], [2]], [[99], [3]]] := by
  have hreached := @Reached.call State.empty DB.zero (Env.quiet 0)
    (.write (.HMset [104] [⟨[97], [1]⟩, ⟨[98], [2]⟩, ⟨[99], [3]⟩])) .empty
  have hkey : ValidKey [104] := by decide
  refine (cursor_protocol_iff (k := .hscan)
    (o := ⟨[], 2, false⟩) hreached rfl hkey rfl rfl
      (Env.quiet 0)).mpr ⟨by decide, by decide, by decide, fun V W h => ?_⟩
  have hnot : nilCursorRedis ∉ (Scanned.fields [104]).matching DB.zero
      (exec (Env.quiet 0) (DB.zero.HMset [104] [⟨[97], [1]⟩, ⟨[98], [2]⟩, ⟨[99], [3]⟩])
        State.empty).2.store none false := by
    decide
  exact absurd (h ▸ List.mem_append_right V (.head _)) hnot

theorem hscan_panics_and_loses :
    ScanCommand.hscan.handler ⟨DB.zero, 4096, fun _ => none⟩ (Env.quiet 0) State.empty.store
      [[104], str "0", str "COUNT", str "0"] = .error (.ledis .panic) ∧
    visit (fun cursor => ScanCommand.hscan.handler ⟨DB.zero, 4096, fun _ => none⟩ (Env.quiet 0)
      (exec (Env.quiet 0) (DB.zero.HMset [104] [⟨str "0", [1]⟩, ⟨str "1", [2]⟩])
        State.empty).2.store [[104], cursor, str "COUNT", str "1"])
      (str "0") 5 (str "0") = some [str "0", [1]] :=
  ⟨by decide, by decide⟩

end

end LedisDB
