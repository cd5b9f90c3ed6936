import LedisDB.Server.Requests
import LedisDB.Server.Scan

/-!
# The stream of replies

What a client reads on its connection: the replies to its requests, one after another.
Every request but SHUTDOWN, which stops the server, is answered once, so the k-th reply
is the one to the k-th request. The reader of goredis finds the replies again exactly if no
status and no error among them has an LF in its text or is too long for the reader's buffer.
XSCAN is a command that puts an argument into the text of an error.
-/

namespace LedisDB

namespace Requests

variable {R : Type}

section
variable (cfg : Config) (cmds : Bytes → Option (Command R)) (i : ℕ)

def exchanges : List Event → App R → List (List Bytes × Option RespReply)
  | [], _ => []
  | .request env j reqData :: events, a =>
    let next := a.step cfg cmds (.request env j reqData)
    if j = i ∧ a.Listens i then (reqData, next.1) :: exchanges events next.2
    else exchanges events next.2
  | .check env db :: events, a => exchanges events (a.step cfg cmds (.check env db)).2

def replies (events : List Event) (a : App R) : List RespReply :=
  (exchanges cfg cmds i events a).filterMap Prod.snd

def output (events : List Event) (a : App R) : Bytes :=
  (replies cfg cmds i events a).flatMap RespReply.write

end

section
variable {cfg : Config} {cmds : Bytes → Option (Command R)} {i : ℕ} {env : Env} {c : Client}
  {reqData args : List Bytes}

theorem handleCmd_silent {cmd : Bytes} {s : Shared R}
    (h : (handleCmd cfg cmds env cmd args c s).1 = none) :
    (handleCmd cfg cmds env cmd args c s).2.2.running = false := by
  unfold handleCmd at h ⊢
  split_ifs at h ⊢
  rfl

theorem handleRequest_silent {s : Shared R}
    (h : (handleRequest cfg cmds env reqData c s).1 = none) :
    (handleRequest cfg cmds env reqData c s).2.2.running = false := by
  rw [handleRequest_eq] at h ⊢
  split at h
  · cases h
  · exact handleCmd_silent h

theorem App.not_listens {a : App R} (h : a.shared.running = false) (j : ℕ) : ¬ a.Listens j :=
  fun hopen => Bool.false_ne_true (h.symm.trans hopen.1)

theorem step_stopped {a : App R} (h : a.shared.running = false) (e : Event) :
    a.step cfg cmds e = (none, a) := by
  cases e with
  | request env j reqData => exact if_neg (App.not_listens h j)
  | check env db => simp [App.step, h]

theorem step_silent {a : App R} (hopen : a.Listens i)
    (h : (a.step cfg cmds (.request env i reqData)).1 = none) :
    (a.step cfg cmds (.request env i reqData)).2.shared.running = false := by
  rw [App.step, if_pos hopen] at h ⊢
  exact handleRequest_silent h

theorem exchanges_stopped {a : App R} (h : a.shared.running = false) (events : List Event) :
    exchanges cfg cmds i events a = [] := by
  induction events with
  | nil => rfl
  | cons e events ih =>
    cases e with
    | request env j reqData =>
      rw [exchanges, step_stopped h]
      exact (if_neg fun hopen => App.not_listens h i hopen.2).trans ih
    | check env db =>
      rwa [exchanges, step_stopped h]

theorem exchanges_of_reply {events : List Event} {a : App R} {k : ℕ} {r : RespReply}
    (h : (replies cfg cmds i events a)[k]? = some r) :
    ∃ reqData, (exchanges cfg cmds i events a)[k]? = some (reqData, some r) := by
  induction events generalizing a k with
  | nil => cases h
  | cons e events ih =>
    cases e with
    | request env j reqData =>
      rw [replies, exchanges] at h
      rw [exchanges]
      split_ifs at h ⊢ with hown
      · obtain ⟨rfl, hopen⟩ := hown
        cases hr : (a.step cfg cmds (.request env j reqData)).1 with
        | none =>
          rw [exchanges_stopped (step_silent hopen hr), hr] at h
          cases h
        | some r₀ =>
          rw [hr] at h
          cases k with
          | zero => exact ⟨reqData, congrArg (fun r => some (reqData, r)) h⟩
          | succ k => exact ih h
      · exact ih h
    | check env db => exact ih h

end

/-- A reply is read back exactly if no status or error in it has an LF or is too long for the
buffer, and a client reads back the replies to its requests exactly if this holds for each of
them. The buffer has room for the lines of numbers. -/
theorem replies_self_delimiting_iff (cfg : Config) (cmds : Bytes → Option (Command R)) {size : ℕ}
    (hsize : 23 ≤ size) :
    (∀ (r : RespReply) rest,
      Resp.Parse size (r.write ++ rest) = some (r.value, rest) ↔ r.value.Clean size) ∧
    ∀ i events (a : App R),
      (∀ rest, Resp.readMany (Resp.Parse size) (replies cfg cmds i events a).length
          (output cfg cmds i events a ++ rest) =
        some ((replies cfg cmds i events a).map RespReply.value, rest) ↔
        ∀ r ∈ replies cfg cmds i events a, r.value.Clean size) ∧
      ∀ (k : ℕ) (r : RespReply), (replies cfg cmds i events a)[k]? = some r →
        ∃ reqData, (exchanges cfg cmds i events a)[k]? = some (reqData, some r) := by
  refine ⟨fun r rest => ?_, fun i events a => ⟨fun rest => ?_, fun k r h => exchanges_of_reply h⟩⟩
  · rw [RespReply.write_eq]
    exact Resp.Parse_encode_iff hsize r.value rest
  · have houtput : output cfg cmds i events a =
        ((replies cfg cmds i events a).map RespReply.value).flatMap Resp.encode := by
      rw [List.flatMap_map]
      exact congrArg (fun f => List.flatMap f _) (funext RespReply.write_eq)
    have hiff := Resp.readMany_Parse_iff hsize
      ((replies cfg cmds i events a).map RespReply.value) rest
    rw [List.length_map] at hiff
    rw [houtput, hiff, List.forall_mem_map]

def echoCommand (texts : ErrorTexts) : Command R := fun _ args c s =>
  match args with
  | [arg] => (.ok (.Bulk (some arg)), c, s)
  | _ => (.error (ServerErr.ErrCmdParams.Error texts), c, s)

def xscanCommand (texts : ErrorTexts) (memory : ℕ) (compile : Bytes → Option (Bytes → Bool)) :
    Command R := fun env args c s =>
  match xScanGroup.xscanCommand ⟨c.db, memory, compile⟩ env s.store args with
  | .ok (cursor, elems) =>
    (.ok (.Array (some [.bytes (some cursor), .slices (some (elems.map some))])), c, s)
  | .error e => (.error (e.Error texts), c, s)

def plain : Config := { guarded with AuthPassword := [] }

def echoAndScan (name : Bytes) : Option (Command Unit) :=
  if name = str "echo" then some (echoCommand plain.texts)
  else if name = str "xscan" then some (xscanCommand plain.texts 1024 fun _ => none)
  else none

def started : App Unit :=
  ⟨⟨OrderedMap.empty, [0], fun _ => 0, (), true⟩, fun _ => ⟨DB.zero, false, false⟩⟩

def brokenLine : List Event :=
  [.request (Env.quiet 0) 0 [str "XSCAN", str "x\r\n:7", str "0"],
    .request (Env.quiet 0) 0 [str "ECHO", str "hello"]]

theorem replies_read_back :
    Resp.readMany (Resp.Parse 1024) 1 (output plain echoAndScan 0 (brokenLine.drop 1) started) =
      some ([.bulk (str "hello")], []) :=
  (((@replies_self_delimiting_iff Unit plain echoAndScan 1024 (by decide)).2 0
    (brokenLine.drop 1) started).1 []).mpr (by decide)

theorem replies_shifted_by_line_end :
    replies plain echoAndScan 0 brokenLine started =
      [.Error (some (str "invalid key type x\r\n:7")), .Bulk (some (str "hello"))] ∧
    Resp.readMany (Resp.Parse 1024) 2 (output plain echoAndScan 0 brokenLine started) =
      some ([.error (str "invalid key type x"), .integer 7], str "$5\r\nhello\r\n") :=
  ⟨rfl, rfl⟩

end Requests

end LedisDB
