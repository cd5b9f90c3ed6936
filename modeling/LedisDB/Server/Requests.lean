import LedisDB.Call
import LedisDB.Server.Reply
import LedisDB.Simulation

/-!
# Requests of RESP clients

`handleRequest`, `handleXSelectCmd` and `perform` of the server. XSELECT, QUIT and
SHUTDOWN are taken out before `perform` looks at the authentication, and the commands
behind it are parameters: whatever they do, they are not reached by a client that has
not given the password. What such a client can still do is to stop the server, and to
select a database for the first time, which starts its TTL checker.
-/

namespace LedisDB

namespace Requests

structure Config where
  AuthPassword : Bytes
  AuthMethod : Option (Bytes → Bool)
  Databases : ℕ
  databases_le : Databases ≤ MaxDatabases
  texts : ErrorTexts

structure Client where
  db : DB
  isAuthed : Bool
  closed : Bool

/-- What the clients share: the store of all databases, the selected databases with the next
check times of their TTL checkers, the replication log and configuration, and whether the
server runs. -/
structure Shared (R : Type) where
  store : Store
  dbs : List ℕ
  nc : ℕ → Int64
  rpl : R
  running : Bool

abbrev Command (R : Type) : Type :=
  Env → List Bytes → Client → Shared R → Except Bytes RespReply × Client × Shared R

variable {R : Type}

variable (cfg : Config) (cmds : Bytes → Option (Command R)) (env : Env) (reqData : List Bytes)

namespace Config

def authEnabled : Bool := cfg.AuthPassword.length > 0 || cfg.AuthMethod.isSome

def accepts (password : Bytes) : Bool :=
  match cfg.AuthMethod with
  | none => cfg.AuthPassword = password
  | some method => method password

end Config

def OK : Bytes := str "OK"
def xselectFormat : Bytes :=
  str "invalid format for XSELECT, must XSELECT db THEN your command"

def xselectDB (text : Bytes) : Bytes := str "invalid db for XSELECT, err " ++ text

def authCommand : Command R := fun _ args c s =>
  match args with
  | [password] =>
    if cfg.accepts password then (.ok (.Status OK), { c with isAuthed := true }, s)
    else
      (.error (ServerErr.ErrAuthenticationFailure.Error cfg.texts), { c with isAuthed := false }, s)
  | _ => (.error (ServerErr.ErrCmdParams.Error cfg.texts), c, s)

def regCmds (name : Bytes) : Option (Command R) :=
  if name = str "auth" then some (authCommand cfg) else cmds name

def checkIndex (index : Int64) : Except Bytes DB :=
  if h : 0 ≤ index.toInt ∧ index.toInt < cfg.Databases then
    .ok ⟨index.toInt.toNat, by have := cfg.databases_le; omega⟩
  else .error (str "invalid db index " ++ FormatInt64ToSlice index ++ str ", must in [0, " ++
    FormatInt64ToSlice (Int64.ofNat cfg.Databases - 1) ++ str "]")

/-- The rest of `Select`: a database that is selected for the first time gets a TTL checker. -/
def Shared.select (s : Shared R) (db : DB) : Shared R :=
  if db.index ∈ s.dbs then s
  else { s with dbs := s.dbs ++ [db.index], nc := Function.update s.nc db.index 0 }

/-- The checks of `handleXSelectCmd`, with the database, the command and its arguments. -/
def parseXSelect : List Bytes → Except Bytes (DB × Bytes × List Bytes)
  | index :: word :: cmd :: args =>
    if upperSlice word ≠ str "THEN" then .error xselectFormat
    else match parseInt index with
      | .error e => .error (xselectDB (cfg.texts.atoi index e))
      | .ok n =>
        match checkIndex cfg n with
        | .error e => .error (xselectDB e)
        | .ok db => .ok (db, lowerSlice cmd, args)
  | _ => .error xselectFormat

def handleXSelectCmd (args : List Bytes) (c : Client) (s : Shared R) :
    Except Bytes (Bytes × List Bytes × Client × Shared R) :=
  (parseXSelect cfg args).map fun (db, cmd, args) => (cmd, args, { c with db }, s.select db)

def perform (cmd : Bytes)
    (args : List Bytes) (c : Client) (s : Shared R) : RespReply × Client × Shared R :=
  let cmd := toLower cmd
  if cmd.length = 0 then (.Error (ServerErr.ErrEmptyCommand.Error cfg.texts), c, s)
  else match regCmds cfg cmds cmd with
    | none => (.Error (ServerErr.ErrNotFound.Error cfg.texts), c, s)
    | some exeCmd =>
      if cfg.authEnabled && !c.isAuthed && cmd ≠ str "auth" then
        (.Error (ServerErr.ErrNotAuthenticated.Error cfg.texts), c, s)
      else match exeCmd env args c s with
        | (.ok r, c, s) => (r, c, s)
        | (.error e, c, s) => (.Error e, c, s)

def handleCmd (cmd : Bytes)
    (args : List Bytes) (c : Client) (s : Shared R) : Option RespReply × Client × Shared R :=
  if cmd = str "quit" then (some (.Status OK), { c with closed := true }, s)
  else if cmd = str "shutdown" then
    (none, { c with closed := true }, { s with running := false })
  else
    let (r, c, s) := perform cfg cmds env cmd args c s
    (some r, c, s)

def splitRequest : List Bytes → Bytes × List Bytes
  | [] => ([], [])
  | cmd :: args => (lowerSlice cmd, args)

def handleRequest (c : Client) (s : Shared R) : Option RespReply × Client × Shared R :=
  let (cmd, args) := splitRequest reqData
  if cmd = str "xselect" then
    match handleXSelectCmd cfg args c s with
    | .error e => (some (.Error e), c, s)
    | .ok (cmd, args, c, s) => handleCmd cfg cmds env cmd args c s
  else handleCmd cfg cmds env cmd args c s

structure App (R : Type) where
  shared : Shared R
  clients : ℕ → Client

/-- A request of a client, or a check of the TTL checker of a database. -/
inductive Event
  | request (env : Env) (i : ℕ) (reqData : List Bytes)
  | check (env : Env) (db : DB)

def Shared.check (env : Env) (db : DB) (s : Shared R) : Shared R :=
  if db.index ∈ s.dbs then
    let st := (LedisDB.check db env ⟨s.store, s.nc db.index⟩).2.1
    { s with store := st.store, nc := Function.update s.nc db.index st.nc }
  else s

def App.Listens (a : App R) (i : ℕ) : Prop := a.shared.running ∧ (a.clients i).closed = false

instance (a : App R) (i : ℕ) : Decidable (a.Listens i) := inferInstanceAs (Decidable (_ ∧ _))

def App.step (a : App R) :
    Event → Option RespReply × App R
  | .request env i reqData =>
    if a.Listens i then
      let (r, c, s) := handleRequest cfg cmds env reqData (a.clients i) a.shared
      (r, ⟨s, Function.update a.clients i c⟩)
    else (none, a)
  | .check env db =>
    (none, if a.shared.running then { a with shared := a.shared.check env db } else a)

def unwrap : Except Bytes (Option DB × Bytes × List Bytes) :=
  let (cmd, args) := splitRequest reqData
  if cmd = str "xselect" then
    (parseXSelect cfg args).map fun (db, cmd, args) => (some db, cmd, args)
  else .ok (none, cmd, args)

def CorrectAuth : Prop :=
  match unwrap cfg reqData with
  | .ok (_, cmd, [password]) => toLower cmd = str "auth" ∧ cfg.accepts password = true
  | _ => False

/-- The request neither stops the server nor selects a database for the first time. -/
def Quiet (dbs : List ℕ) (reqData : List Bytes) : Prop :=
  match unwrap cfg reqData with
  | .error _ => True
  | .ok (db, cmd, _) => cmd ≠ str "shutdown" ∧ ∀ d ∈ db, d.index ∈ dbs

instance (cfg : Config) (reqData : List Bytes) : Decidable (CorrectAuth cfg reqData) := by
  unfold CorrectAuth
  split <;> infer_instance

instance (cfg : Config) (dbs : List ℕ) (reqData : List Bytes) :
    Decidable (Quiet cfg dbs reqData) := by
  unfold Quiet
  split <;> infer_instance

def refuse (registered : Bytes → Bool) (cmd : Bytes) (args : List Bytes) : RespReply :=
  if cmd = str "quit" then .Status OK
  else if (toLower cmd).length = 0 then .Error (ServerErr.ErrEmptyCommand.Error cfg.texts)
  else if toLower cmd = str "auth" then
    .Error (some (if args.length = 1 then ServerErr.ErrAuthenticationFailure.Error cfg.texts
      else ServerErr.ErrCmdParams.Error cfg.texts))
  else if registered (toLower cmd) then .Error (ServerErr.ErrNotAuthenticated.Error cfg.texts)
  else .Error (ServerErr.ErrNotFound.Error cfg.texts)

def refusal (registered : Bytes → Bool) (reqData : List Bytes) : RespReply :=
  match unwrap cfg reqData with
  | .error e => .Error e
  | .ok (_, cmd, args) => refuse cfg registered cmd args

section
variable {cfg : Config} {cmds : Bytes → Option (Command R)} {env : Env} {c : Client} {s : Shared R}
  {reqData args : List Bytes}

theorem Shared.select_of_mem {db : DB} (h : db.index ∈ s.dbs) : s.select db = s := if_pos h

theorem handleRequest_eq (cfg : Config) (cmds : Bytes → Option (Command R))
    (reqData : List Bytes) (c : Client) (s : Shared R) :
    handleRequest cfg cmds env reqData c s =
      match unwrap cfg reqData with
      | .error e => (some (.Error e), c, s)
      | .ok (db, cmd, args) => handleCmd cfg cmds env cmd args
          (db.elim c fun d => { c with db := d }) (db.elim s s.select) := by
  unfold handleRequest unwrap handleXSelectCmd
  generalize splitRequest reqData = r
  obtain ⟨cmd, args⟩ := r
  dsimp only
  split_ifs
  · cases parseXSelect cfg args <;> rfl
  · rfl

theorem authCommand_refused (env : Env) (s : Shared R)
    (h : ∀ password, args = [password] → cfg.accepts password = false) (hc : c.isAuthed = false) :
    ∃ c', authCommand cfg env args c s = (.error (if args.length = 1
      then ServerErr.ErrAuthenticationFailure.Error cfg.texts
      else ServerErr.ErrCmdParams.Error cfg.texts), c', s) ∧ c'.isAuthed = false := by
  match args with
  | [] => exact ⟨c, rfl, hc⟩
  | [password] =>
    simp [authCommand, h password rfl]
  | _ :: _ :: _ => exact ⟨c, rfl, hc⟩

theorem handleCmd_refused {cmd : Bytes} (hauth : cfg.authEnabled = true) (hc : c.isAuthed = false)
    (hshut : cmd ≠ str "shutdown")
    (hnever : toLower cmd = str "auth" → ∀ password, args = [password] →
      cfg.accepts password = false) :
    ∃ c', handleCmd cfg cmds env cmd args c s =
      (some (refuse cfg (fun name => (cmds name).isSome) cmd args), c', s) ∧
      c'.isAuthed = false := by
  unfold handleCmd refuse
  by_cases hquit : cmd = str "quit"
  · exact ⟨{ c with closed := true }, by rw [if_pos hquit, if_pos hquit], hc⟩
  rw [if_neg hquit, if_neg hquit, if_neg hshut, perform]
  by_cases hempty : (toLower cmd).length = 0
  · exact ⟨c, by simp only [if_pos hempty], hc⟩
  by_cases hname : toLower cmd = str "auth"
  · obtain ⟨c', hrun, hc'⟩ := authCommand_refused env s (hnever hname) hc
    refine ⟨c', ?_, hc'⟩
    have hreg : regCmds cfg cmds (toLower cmd) = some (authCommand cfg) := if_pos hname
    rw [hname] at hempty hreg ⊢
    simp only [if_neg hempty, hreg, hrun, ne_eq, not_true_eq_false, decide_false, Bool.and_false,
      Bool.false_eq_true, if_false, if_true]
  · have hreg : regCmds cfg cmds (toLower cmd) = cmds (toLower cmd) := if_neg hname
    refine ⟨c, ?_, hc⟩
    cases hcmd : cmds (toLower cmd) with
    | none => simp only [if_neg hempty, if_neg hname, hreg, hcmd, Option.isSome_none,
        Bool.false_eq_true, if_false]
    | some exeCmd => simp only [if_neg hempty, hreg, hcmd, hauth, hc, hname, ne_eq,
        not_false_eq_true, decide_true, Bool.not_false, Bool.and_self, Option.isSome_some, if_true,
        if_false]

theorem handleRequest_refused (cmds : Bytes → Option (Command R))
    (hauth : cfg.authEnabled = true) (hc : c.isAuthed = false)
    (hnever : ¬ CorrectAuth cfg reqData) (hquiet : Quiet cfg s.dbs reqData) :
    ∃ c', handleRequest cfg cmds env reqData c s =
      (some (refusal cfg (fun name => (cmds name).isSome) reqData), c', s) ∧
      c'.isAuthed = false := by
  rw [handleRequest_eq, refusal]
  unfold Quiet at hquiet
  cases hreq : unwrap cfg reqData with
  | error e => exact ⟨c, rfl, hc⟩
  | ok r =>
    obtain ⟨db, cmd, args⟩ := r
    rw [hreq] at hquiet
    obtain ⟨hshut, hdbs⟩ := hquiet
    have hselect : db.elim s s.select = s := by
      cases db with
      | none => rfl
      | some d => exact Shared.select_of_mem (hdbs d rfl)
    have hpassword : toLower cmd = str "auth" → ∀ password, args = [password] →
        cfg.accepts password = false := by
      rintro hname password rfl
      rw [CorrectAuth, hreq] at hnever
      exact Bool.eq_false_iff.mpr fun hacc => hnever ⟨hname, hacc⟩
    have hc' : (db.elim c fun d => { c with db := d }).isAuthed = false := by
      cases db <;> exact hc
    dsimp only
    rw [hselect]
    exact handleCmd_refused hauth hc' hshut hpassword

end

def Event.sender : Event → Option ℕ
  | .request _ i _ => some i
  | .check _ _ => none

structure SameBut (u : ℕ) (a b : App R) : Prop where
  shared : a.shared = b.shared
  clients : ∀ i, i ≠ u → a.clients i = b.clients i

def QuietAt (u : ℕ) (a : App R) : Event → Prop
  | .request _ i reqData => i = u → Quiet cfg a.shared.dbs reqData
  | .check _ _ => True

def LacksAuth (u : ℕ) : Event → Prop
  | .request _ i reqData => i = u → ¬ CorrectAuth cfg reqData
  | .check _ _ => True

instance (cfg : Config) (u : ℕ) (a : App R) (e : Event) : Decidable (QuietAt cfg u a e) := by
  cases e <;> unfold QuietAt <;> infer_instance

instance (cfg : Config) (u : ℕ) (e : Event) : Decidable (LacksAuth cfg u e) := by
  cases e <;> unfold LacksAuth <;> infer_instance

section
variable {cfg : Config} {cmds : Bytes → Option (Command R)} {u : ℕ} {a b : App R}

theorem SameBut.refl : SameBut u a a := ⟨rfl, fun _ _ => rfl⟩

theorem SameBut.hidden (h : SameBut u a b) (hauth : cfg.authEnabled = true)
    (hu : (a.clients u).isAuthed = false) {env : Env} {reqData : List Bytes}
    (hnever : ¬ CorrectAuth cfg reqData) (hquiet : Quiet cfg a.shared.dbs reqData) :
    SameBut u (a.step cfg cmds (.request env u reqData)).2 b ∧
      ((a.step cfg cmds (.request env u reqData)).2.clients u).isAuthed = false := by
  rw [App.step]
  split_ifs
  · obtain ⟨c', hrun, hc'⟩ := handleRequest_refused cmds hauth hu hnever hquiet
    rw [hrun]
    refine ⟨⟨h.shared, fun i hi => ?_⟩, ?_⟩
    · rw [← h.clients i hi]
      exact Function.update_of_ne hi _ _
    · exact (congrArg Client.isAuthed (Function.update_self u c' a.clients)).trans hc'
  · exact ⟨h, hu⟩

theorem SameBut.step (cfg : Config) (cmds : Bytes → Option (Command R)) (h : SameBut u a b)
    {e : Event} (he : e.sender ≠ some u) :
    SameBut u (a.step cfg cmds e).2 (b.step cfg cmds e).2 ∧
      (a.step cfg cmds e).2.clients u = a.clients u := by
  cases e with
  | request env i reqData =>
    have hi : i ≠ u := fun hi => he (congrArg some hi)
    have hlisten : b.Listens i ↔ a.Listens i := by
      rw [App.Listens, App.Listens, h.shared, h.clients i hi]
    rw [App.step, App.step]
    by_cases hopen : a.Listens i
    · rw [if_pos hopen, if_pos (hlisten.mpr hopen), ← h.shared, ← h.clients i hi]
      generalize handleRequest cfg cmds env reqData (a.clients i) a.shared = r
      obtain ⟨r, c, s⟩ := r
      refine ⟨⟨rfl, fun k hk => ?_⟩, Function.update_of_ne hi.symm c a.clients⟩
      show Function.update a.clients i c k = Function.update b.clients i c k
      rw [Function.update_apply, Function.update_apply, h.clients k hk]
    · rw [if_neg hopen, if_neg fun hb => hopen (hlisten.mp hb)]
      exact ⟨h, rfl⟩
  | check env db =>
    rw [App.step, App.step, ← h.shared]
    split_ifs
    · exact ⟨⟨rfl, h.clients⟩, rfl⟩
    · exact ⟨h, rfl⟩

end

def Exempt : Prop :=
  match unwrap cfg reqData with
  | .error _ => True
  | .ok (_, cmd, _) => toLower cmd = str "auth" ∨ cmd = str "quit"

theorem refusal_error {cfg : Config} {reqData : List Bytes} (h : ¬ Exempt cfg reqData)
    (registered : Bytes → Bool) :
    ∃ e ∈ [ServerErr.ErrEmptyCommand, .ErrNotFound, .ErrNotAuthenticated],
      refusal cfg registered reqData = .Error (e.Error cfg.texts) := by
  unfold Exempt at h
  unfold refusal
  split at h
  · exact absurd trivial h
  · rw [not_or] at h
    simp only [refuse, if_neg h.1, if_neg h.2]
    split_ifs
    · exact ⟨.ErrEmptyCommand, by simp, rfl⟩
    · exact ⟨.ErrNotAuthenticated, by simp, rfl⟩
    · exact ⟨.ErrNotFound, by simp, rfl⟩

def getCommand (texts : ErrorTexts) : Command R := fun env args c s =>
  match args with
  | [key] =>
    match (c.db.Get key).eval env s.store with
    | .ok v => (.ok (.Bulk v), c, s)
    | .error e => (.error ((ServerErr.ledis e).Error texts), c, s)
  | _ => (.error (ServerErr.ErrCmdParams.Error texts), c, s)

theorem unauthenticated_has_no_effect (cfg : Config) (hauth : cfg.authEnabled = true)
    (cmds : Bytes → Option (Command R)) (u : ℕ) (events : List Event) (a : App R)
    (hu : (a.clients u).isAuthed = false) (hnever : ∀ e ∈ events, LacksAuth cfg u e)
    (hquiet : Meets (App.step cfg cmds) (QuietAt cfg u) events a) :
    SameBut u (after (App.step cfg cmds) events a)
      (after (App.step cfg cmds) (events.filter fun e => e.sender ≠ some u) a) ∧
    Meets (App.step cfg cmds) (fun a e => ∀ env reqData, e = .request env u reqData →
      a.Listens u → (a.step cfg cmds e).1 =
        some (refusal cfg (fun name => (cmds name).isSome) reqData)) events a ∧
    ∀ registered reqData, ¬ Exempt cfg reqData →
      ∃ e ∈ [ServerErr.ErrEmptyCommand, .ErrNotFound, .ErrNotAuthenticated],
        refusal cfg registered reqData = .Error (e.Error cfg.texts) := by
  have hall := hquiet.and hnever
  refine ⟨?_, ?_, fun registered reqData h => refusal_error h registered⟩
  · refine (after_filter (R := fun s a => SameBut u s a ∧ (s.clients u).isAuthed = false)
      (fun s a e h hC he => ?_) (fun s a e h hC he => ?_) ⟨⟨rfl, fun _ _ => rfl⟩, hu⟩ hall).1
    · cases e with
      | request env i reqData =>
        obtain rfl : i = u := by simpa [Event.sender] using he
        exact h.1.hidden hauth h.2 (hC.2 rfl) (hC.1 rfl)
      | check env db => simp [Event.sender] at he
    · obtain ⟨hsame, hclient⟩ := h.1.step cfg cmds (of_decide_eq_true he)
      exact ⟨hsame, by rw [hclient]; exact h.2⟩
  · refine hall.imp (I := fun a => (a.clients u).isAuthed = false) (fun a e h hC => ?_)
      (fun a e h hC => ?_) hu
    · by_cases he : e.sender = some u
      · cases e with
        | request env i reqData =>
          obtain rfl := Option.some.inj he
          exact (SameBut.refl.hidden hauth h (hC.2 rfl) (hC.1 rfl)).2
        | check env db => cases he
      · rw [(SameBut.refl.step cfg cmds he).2]
        exact h
    · rintro env reqData rfl hopen
      obtain ⟨c', hrun, -⟩ := handleRequest_refused cmds hauth h (hC.2 rfl) (hC.1 rfl)
      rw [App.step, if_pos hopen, hrun]

def guarded : Config :=
  ⟨str "secret", none, 16, by decide, ⟨fun _ _ => [], fun _ => [], fun _ => []⟩⟩

def onlyGet (name : Bytes) : Option (Command Unit) :=
  if name = str "get" then some (getCommand guarded.texts) else none

def second : DB := ⟨1, by decide⟩

def restarted : App Unit :=
  ⟨⟨(exec (Env.quiet 0) (second.SetEX [1] 10 [2]) .empty).2.store, [0], fun _ => 0, (), true⟩,
    fun _ => ⟨DB.zero, false, false⟩⟩

def guesses : List Event :=
  [.request (Env.quiet 20) 0 [str "GET", [1]],
    .request (Env.quiet 20) 0 [str "AUTH", str "guess"],
    .request (Env.quiet 20) 1 [str "AUTH", str "secret"],
    .request (Env.quiet 20) 0 [str "XSELECT", str "0", str "THEN", str "get", [1]],
    .check (Env.quiet 20) DB.zero,
    .request (Env.quiet 20) 1 [str "XSELECT", str "1", str "THEN", str "GET", [1]]]

theorem unauthenticated_has_no_effect_of_guesses :
    SameBut 0 (after (App.step guarded onlyGet) guesses restarted)
      (after (App.step guarded onlyGet) (guesses.filter fun e => e.sender ≠ some 0) restarted) ∧
    answers (App.step guarded onlyGet) guesses restarted =
      [some (.Error (some (str "not authenticated"))),
        some (.Error (some (str "authentication failure"))), some (.Status OK),
        some (.Error (some (str "not authenticated"))), none, some (.Bulk (some [2]))] := by
  exact ⟨(unauthenticated_has_no_effect guarded rfl onlyGet 0 guesses restarted rfl (by decide)
    (by decide)).1, rfl⟩

theorem unauthenticated_has_effects :
    guarded.authEnabled = true ∧ (restarted.clients 0).isAuthed = false ∧
    ¬ CorrectAuth guarded [str "SHUTDOWN"] ∧
    ¬ CorrectAuth guarded [str "XSELECT", str "1", str "THEN", str "GET", [1]] ∧
    restarted.shared.running = true ∧
    (after (App.step guarded onlyGet) [.request (Env.quiet 20) 0 [str "SHUTDOWN"]]
      restarted).shared.running = false ∧
    (after (App.step guarded onlyGet) [.check (Env.quiet 20) second]
      restarted).shared.store.get (second.encodeKVKey [1]) = some [2] ∧
    (after (App.step guarded onlyGet)
      [.request (Env.quiet 20) 0 [str "XSELECT", str "1", str "THEN", str "GET", [1]],
        .check (Env.quiet 20) second]
      restarted).shared.store.get (second.encodeKVKey [1]) = none := by
  exact ⟨rfl, rfl, by decide, by decide, rfl, rfl, by decide, by decide⟩

end Requests

end LedisDB
