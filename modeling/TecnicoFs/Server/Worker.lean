import TecnicoFs.Command.Codec
import TecnicoFs.Interleaving.Delivery

/-!
# The server and its clients

`tecnicofs.c` and the calls of `client-api.c`, as a service.  Each worker thread receives a
datagram, parses it, runs the command on the file system and responds with one byte; if it
cannot parse the datagram it responds with a NUL.  A call of a client sends its command and
takes the next byte that it receives as the response.

Anything can be sent to the server, but for nothing at all.  A client of the API is the list
of the calls that it makes: for `process_input` these are the commands of its input, and a
program that uses the API makes any calls it likes.  A call for which there is no command
returns without sending anything.
-/

namespace TecnicoFs

open Interleaving

/-! ## The source -/

/-- What a worker does with what it received. -/
inductive Received where
  /-- Nothing was received, and the server exits. -/
  | exit
  /-- No command: the response is negative. -/
  | negative
  | execute (command : TfsCommand)

/-- `worker_thread_fn` up to the execution of the command -/
def workerThreadFnReceive (datagram : List CChar) : Received :=
  if (datagram.take (512 - 1)).length = 0 then .exit
  else
    match workerThreadFnParse datagram with
    | .error _ => .negative
    | .ok command => .execute command

/-- `executed_successfully` -/
def Reply.executedSuccessfully (reply : Reply) : Bool := reply.outcome.isOk

variable {κ ω : Type}

/-- **The worker threads.**  The paths of the command of a call are at some addresses. -/
def workerThreads (fs : TfsFs) (limit : Nat) (address : κ × Nat → Nat × Nat) :
    Service Op Op.Resp κ Reply (List CChar) CChar where
  accept r datagram :=
    match workerThreadFnReceive datagram with
    | .execute command => some ((command.task (address r).1 (address r).2).prog fs)
    | _ => none
  answer reply := if reply.executedSuccessfully then 1 else 0
  refusal := 0
  limit := limit

/-- Errors of `tfs_client_server_connection_send_command`. -/
inductive TfsClientServerConnectionSendCommandError where
  | send
  | receive
  deriving DecidableEq

/-- What `tfs_client_server_connection_send_command` returns: whether the command was
successful, if there was a response. -/
def sendCommandResult :
    Service.Result CChar → Except TfsClientServerConnectionSendCommandError Bool
  | .unsent => .error .send
  | .lost => .error .receive
  | .answered response => .ok (response ≠ 0)

/-- What a call of the client API returns. -/
def apiReturn (result : Service.Result CChar) : Nat :=
  match sendCommandResult result with
  | .error _ => 1
  | .ok commandSuccessful => if !commandSuccessful then 2 else 0

/-- What is sent to the server: a datagram for each call of each client, if the call sends
one.  None is empty, for a worker that receives nothing makes the server exit. -/
structure Datagrams (κ : Type) where
  sent : κ → List (Option (List CChar))
  nonempty : ∀ k, some [] ∉ sent k

/-- What the server runs for a call. -/
def Datagrams.served (datagrams : Datagrams κ) (address : κ × Nat → Nat × Nat) (r : κ × Nat) :
    Option Task :=
  match (Service.request datagrams.sent r).map workerThreadFnParse with
  | some (.ok command) => some (command.task (address r).1 (address r).2)
  | _ => none

/-- What the server runs for a call, and something that is in order for the other calls. -/
def Datagrams.task (datagrams : Datagrams κ) (address : κ × Nat → Nat × Nat) (r : κ × Nat) :
    Task :=
  (datagrams.served address r).getD (.print [])

/-- The states of a server and its clients. -/
abbrev ServerState (κ ω : Type) : Type :=
  Service.State Op Op.Resp κ ω (Mem (κ × Nat)) Reply (List CChar) CChar

/-- The runs of a server and its clients, from a memory in which nothing is under way. -/
abbrev ServerRun [DecidableEq κ] [DecidableEq ω] (fs : TfsFs) (limit : Nat)
    (address : κ × Nat → Nat × Nat) (datagrams : Datagrams κ) (m : Mem (κ × Nat)) :
    List (Service.Event κ) → ServerState κ ω → Prop :=
  Service.Run (machine (κ × Nat)) (workerThreads fs limit address) datagrams.sent (.start m)

/-! ## What is run for a call -/

theorem workerThreadFnReceive_eq {datagram : List CChar} (h : datagram ≠ []) :
    workerThreadFnReceive datagram =
      match workerThreadFnParse datagram with
      | .error _ => .negative
      | .ok command => .execute command := by
  obtain ⟨ch, datagram, rfl⟩ := List.exists_cons_of_ne_nil h
  exact if_neg (by simp)

section Served

variable {fs : TfsFs} {limit : Nat} {address : κ × Nat → Nat × Nat} {datagrams : Datagrams κ}
  {r : κ × Nat}

theorem Datagrams.ne_nil_of_request {datagram : List CChar}
    (h : Service.request datagrams.sent r = some datagram) : datagram ≠ [] := by
  rintro rfl
  rw [Service.request, Option.join_eq_some_iff] at h
  exact datagrams.nonempty r.1 (List.mem_of_getElem? h)

/-- The program of a call is that of its task. -/
theorem program_workerThreads : (workerThreads fs limit address).program datagrams.sent r =
    (datagrams.served address r).map (Task.prog fs) := by
  rw [Service.program, Datagrams.served]
  cases hrequest : Service.request datagrams.sent r with
  | none => rfl
  | some datagram =>
    simp only [Option.map_some, Option.bind_some, workerThreads,
      workerThreadFnReceive_eq (Datagrams.ne_nil_of_request hrequest)]
    cases workerThreadFnParse datagram <;> rfl

theorem prog_task {p : TfsProg Reply}
    (h : (workerThreads fs limit address).program datagrams.sent r = some p) :
    ((datagrams.task address r).prog fs) = p := by
  rw [program_workerThreads] at h
  obtain ⟨task, htask, rfl⟩ := Option.map_eq_some_iff.mp h
  rw [Datagrams.task, htask]
  rfl

/-- The command that is run for a call is one that the parser returns. -/
theorem exists_parsed {task : Task} (h : datagrams.served address r = some task) :
    ∃ command : TfsCommand, command.Parsed ∧
      task = command.task (address r).1 (address r).2 := by
  unfold Datagrams.served at h
  split at h
  · rename_i command hparse
    obtain ⟨datagram, -, hparse⟩ := Option.map_eq_some_iff.mp hparse
    refine ⟨command, ?_, (Option.some.inj h).symm⟩
    rw [workerThreadFnParse] at hparse
    exact parsed_of_parse (Prod.ext hparse rfl)
  · cases h

/-- All tasks of the server are in order. -/
theorem valid_task (r : κ × Nat) : (datagrams.task address r).Valid := by
  rw [Datagrams.task]
  cases hserved : datagrams.served address r with
  | none => exact trivial
  | some task =>
    obtain ⟨command, hparsed, rfl⟩ := exists_parsed hserved
    exact hparsed.valid _ _

end Served

/-! ## Clients of the API -/

/-- The commands of the calls that each client makes. -/
abbrev Clients (κ : Type) := κ → List (Option TfsCommand)

/-- **No client of the API makes the server exit.** -/
def Clients.datagrams (clients : Clients κ) : Datagrams κ where
  sent k := (clients k).map (Option.map tfsClientServerConnectionSendCommand)
  nonempty k h := by
    obtain ⟨x, -, hx⟩ := List.mem_map.mp h
    obtain ⟨command, -, hcommand⟩ := Option.map_eq_some_iff.mp hx
    simp [tfsClientServerConnectionSendCommand] at hcommand

/-- The command of a call. -/
def Clients.command (clients : Clients κ) (r : κ × Nat) : Option TfsCommand :=
  (clients r.1)[r.2]?.join

theorem request_datagrams {clients : Clients κ} {r : κ × Nat} :
    Service.request clients.datagrams.sent r =
    (clients.command r).map tfsClientServerConnectionSendCommand := by
  rw [Service.request, Clients.datagrams, List.getElem?_map, Clients.command]
  cases (clients r.1)[r.2]? <;> rfl

end TecnicoFs
