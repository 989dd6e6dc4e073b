import TecnicoFs.Util
import Mathlib.Data.List.Induction
import Mathlib.Data.List.Infix

/-!
# Mounting

`client-api.c`: the connection of a client and the two calls that make and destroy it.  The
outcomes of `socket` and `bind` are inputs.  What the calls do to the outside is a list of
system calls, and the sockets that are open are read off that list.

`tfsMount` never notes that there is a connection now.  So no call after a successful mount
does what it should, and a mount whose `bind` fails keeps its socket: the calls behave as they
are meant to exactly as long as there is at most one mount that gets a socket, it also
binds it, and nothing comes after it (`mount_contract_iff`).
-/

namespace TecnicoFs

/-! ## The source -/

/-- A system call, with its outcome. -/
inductive SysCall where
  | socket (fd : Option Nat)
  | unlink (path : List CChar)
  | bind (fd : Nat) (path : List CChar) (bound : Bool)
  | close (fd : Nat)
  deriving DecidableEq, Repr

/-- A server connection -/
structure TfsClientServerConnection where
  clientSocket : Nat
  clientAddress : List CChar
  serverAddress : List CChar
  deriving DecidableEq, Repr

inductive TfsClientServerConnectionNewErrorKind where
  | createSocket
  | bindSocket
  deriving DecidableEq, Repr

/-- Creates a new connection to the server -/
def tfsClientServerConnectionNew (pid : Nat) (serverPath : List CChar) (socket : Option Nat)
    (bound : Bool) :
    Except TfsClientServerConnectionNewErrorKind TfsClientServerConnection × List SysCall :=
  match socket with
  | none => (.error .createSocket, [.socket none])
  | some clientSocket =>
      let clientAddress := cstr ("/tmp/tfs-client-" ++ toString pid)
      let sysCalls :=
        [.socket (some clientSocket), .unlink clientAddress, .bind clientSocket clientAddress bound]
      if !bound then (.error .bindSocket, sysCalls)
      else (.ok ⟨clientSocket, clientAddress, serverPath⟩, sysCalls)

/-- Destroys a connection to the server -/
def tfsClientServerConnectionDestroy (connection : TfsClientServerConnection) : List SysCall :=
  [.close connection.clientSocket, .unlink connection.clientAddress]

/-- The global variables of the client API. -/
structure ClientApi where
  globalClientConnection : TfsClientServerConnection
  globalClientConnectionInitialized : Bool
  deriving DecidableEq, Repr

/-- Their values at the start. -/
def ClientApi.zero : ClientApi := ⟨⟨0, [], []⟩, false⟩

/-- What a call returns, the variables after it, and its system calls. -/
structure ApiStep where
  returned : Nat
  api : ClientApi
  sysCalls : List SysCall

def tfsMount (pid : Nat) (self : ClientApi) (serverPath : List CChar) (socket : Option Nat)
    (bound : Bool) : ApiStep :=
  let destroyed :=
    if self.globalClientConnectionInitialized then
      tfsClientServerConnectionDestroy self.globalClientConnection
    else []
  let self := { self with globalClientConnectionInitialized := false }
  match tfsClientServerConnectionNew pid serverPath socket bound with
  | (.error _, sysCalls) => ⟨1, self, destroyed ++ sysCalls⟩
  | (.ok connection, sysCalls) =>
      ⟨0, { self with globalClientConnection := connection }, destroyed ++ sysCalls⟩

def tfsUnmount (self : ClientApi) : ApiStep :=
  if !self.globalClientConnectionInitialized then ⟨1, self, []⟩
  else
    ⟨0, { self with globalClientConnectionInitialized := false },
      tfsClientServerConnectionDestroy self.globalClientConnection⟩

/-! ## Histories -/

/-- One of the two calls, with the outcomes of `socket` and `bind` in it. -/
inductive MountCall where
  | tfsMount (serverPath : List CChar) (socket : Option Nat) (bound : Bool)
  | tfsUnmount
  deriving DecidableEq, Repr

def MountCall.step (pid : Nat) (self : ClientApi) : MountCall → ApiStep
  | .tfsMount serverPath socket bound => TecnicoFs.tfsMount pid self serverPath socket bound
  | .tfsUnmount => TecnicoFs.tfsUnmount self

/-- A call that has returned. -/
structure MountEvent where
  call : MountCall
  returned : Nat
  sysCalls : List SysCall

/-- The calls one after the other. -/
def mountHistory (pid : Nat) : ClientApi → List MountCall → List MountEvent
  | _, [] => []
  | self, call :: calls =>
      ⟨call, (call.step pid self).returned, (call.step pid self).sysCalls⟩ ::
        mountHistory pid (call.step pid self).api calls

/-- All system calls of a history. -/
def sysCallsOf (h : List MountEvent) : List SysCall := h.flatMap MountEvent.sysCalls

/-- The open sockets after a system call. -/
def SysCall.openAfter (fds : List Nat) : SysCall → List Nat
  | .socket (some fd) => fd :: fds
  | .close fd => fds.erase fd
  | _ => fds

/-- The sockets that were created and not closed. -/
def openSockets (sysCalls : List SysCall) : List Nat := sysCalls.foldl SysCall.openAfter []

def SysCall.isSocket : SysCall → Bool
  | .socket _ => true
  | _ => false

/-- A mount is active: the last successful call was a mount, and no mount has failed since. -/
def Mounted (h : List MountEvent) : Prop :=
  ∃ pre e post, h = pre ++ e :: post ∧ e.call ≠ .tfsUnmount ∧ e.returned = 0 ∧
    ∀ e' ∈ post, e'.call = .tfsUnmount ∧ e'.returned ≠ 0

/-- **What mounting and unmounting are to do.** -/
structure MountContract (h : List MountEvent) : Prop where
  bounded : ∀ sysCalls, sysCalls <+: sysCallsOf h → (openSockets sysCalls).length ≤ 1
  open_iff : ∀ pre, pre <+: h → ((openSockets (sysCallsOf pre)).length = 1 ↔ Mounted pre)
  unmount : ∀ pre e, pre ++ [e] <+: h → e.call = .tfsUnmount → (e.returned = 0 ↔ Mounted pre)
  remount : ∀ pre e, pre ++ [e] <+: h → e.call ≠ .tfsUnmount → Mounted pre →
    ∀ fd ∈ openSockets (sysCallsOf pre),
      .close fd ∈ e.sysCalls.takeWhile fun sysCall => !sysCall.isSocket

/-! ## What the calls do -/

/-- The call when no connection is noted. -/
def MountCall.event (pid : Nat) (call : MountCall) : MountEvent :=
  ⟨call, (call.step pid .zero).returned, (call.step pid .zero).sysCalls⟩

/-- The socket that a call creates. -/
def MountCall.opened : MountCall → Option Nat
  | .tfsMount _ socket _ => socket
  | .tfsUnmount => none

def SysCall.created : SysCall → Option Nat
  | .socket fd => fd
  | _ => none

section History

variable {pid : Nat} {calls : List MountCall} {call : MountCall}

/-- **No call ever notes a connection.** -/
theorem step_of_not_initialized {self : ClientApi}
    (h : self.globalClientConnectionInitialized = false) :
    (call.step pid self).api.globalClientConnectionInitialized = false ∧
      (⟨call, (call.step pid self).returned, (call.step pid self).sysCalls⟩ : MountEvent) =
        call.event pid := by
  cases call with
  | tfsUnmount => simp [MountCall.event, MountCall.step, tfsUnmount, h, ClientApi.zero]
  | tfsMount serverPath socket bound =>
    cases socket with
    | none => simp [MountCall.event, MountCall.step, tfsMount, tfsClientServerConnectionNew, h,
        ClientApi.zero]
    | some fd =>
      cases bound <;>
        simp [MountCall.event, MountCall.step, tfsMount, tfsClientServerConnectionNew, h,
          ClientApi.zero]

theorem mountHistory_eq {self : ClientApi} (h : self.globalClientConnectionInitialized = false) :
    mountHistory pid self calls = calls.map (MountCall.event pid) := by
  induction calls generalizing self with
  | nil => rfl
  | cons call calls ih =>
    obtain ⟨hapi, hevent⟩ := @step_of_not_initialized pid call self h
    rw [mountHistory, ih hapi, hevent, List.map_cons]

theorem returned_eq_zero_iff : (call.event pid).returned = 0 ↔
    ∃ serverPath fd, call = .tfsMount serverPath (some fd) true := by
  cases call with
  | tfsUnmount => simp [MountCall.event, MountCall.step, tfsUnmount, ClientApi.zero]
  | tfsMount serverPath socket bound =>
    cases socket with
    | none => simp [MountCall.event, MountCall.step, tfsMount, tfsClientServerConnectionNew]
    | some fd =>
      cases bound <;>
        simp [MountCall.event, MountCall.step, tfsMount, tfsClientServerConnectionNew]

/-- A call closes nothing. -/
theorem sysCalls_event : (∀ fd, .close fd ∉ (call.event pid).sysCalls) ∧
    (call.event pid).sysCalls.filterMap SysCall.created = call.opened.toList := by
  cases call with
  | tfsUnmount => simp [MountCall.event, MountCall.step, tfsUnmount, ClientApi.zero,
      MountCall.opened]
  | tfsMount serverPath socket bound =>
    cases socket with
    | none => simp [MountCall.event, MountCall.step, tfsMount, tfsClientServerConnectionNew,
        MountCall.opened, SysCall.created, ClientApi.zero]
    | some fd =>
      cases bound <;>
        simp [MountCall.event, MountCall.step, tfsMount, tfsClientServerConnectionNew,
          MountCall.opened, SysCall.created, ClientApi.zero]

theorem openSockets_of_not_close {sysCalls : List SysCall} (h : ∀ fd, .close fd ∉ sysCalls) :
    openSockets sysCalls = (sysCalls.filterMap SysCall.created).reverse := by
  induction sysCalls using List.reverseRecOn with
  | nil => rfl
  | append_singleton sysCalls x ih =>
    have hx : openSockets (sysCalls ++ [x]) = x.openAfter (openSockets sysCalls) := by
      rw [openSockets, List.foldl_append]
      rfl
    rw [hx, ih fun fd hfd => h fd (List.mem_append_left _ hfd), List.filterMap_append,
      List.reverse_append]
    cases x with
    | socket fd => cases fd <;> rfl
    | unlink path => rfl
    | bind fd path bound => rfl
    | close fd => exact absurd (by simp) (h fd)

theorem sysCallsOf_events : (∀ fd, .close fd ∉ sysCallsOf (calls.map (MountCall.event pid))) ∧
    (sysCallsOf (calls.map (MountCall.event pid))).filterMap SysCall.created =
      calls.filterMap MountCall.opened := by
  induction calls with
  | nil => simp [sysCallsOf]
  | cons call calls ih =>
    obtain ⟨hclose, hcreated⟩ := @sysCalls_event pid call
    rw [List.map_cons, sysCallsOf, List.flatMap_cons, List.filterMap_append, hcreated]
    refine ⟨fun fd hfd => ?_, ?_⟩
    · rcases List.mem_append.mp hfd with hfd | hfd
      · exact hclose fd hfd
      · exact ih.1 fd hfd
    · rw [← sysCallsOf, ih.2, List.filterMap_cons]
      cases call.opened <;> rfl

theorem openSockets_events : openSockets (sysCallsOf (calls.map (MountCall.event pid))) =
    (calls.filterMap MountCall.opened).reverse := by
  rw [openSockets_of_not_close sysCallsOf_events.1, sysCallsOf_events.2]

theorem mounted_iff : Mounted (calls.map (MountCall.event pid)) ↔
    ∃ pre serverPath fd post, calls = pre ++ .tfsMount serverPath (some fd) true :: post ∧
      ∀ call ∈ post, call = .tfsUnmount := by
  constructor
  · rintro ⟨pre, e, post, heq, -, hzero, hpost⟩
    obtain ⟨pre, rest, rfl, rfl, hrest⟩ := List.map_eq_append_iff.mp heq
    obtain ⟨call, post, rfl, rfl, rfl⟩ := List.map_eq_cons_iff.mp hrest
    obtain ⟨serverPath, fd, rfl⟩ := returned_eq_zero_iff.mp hzero
    exact ⟨pre, serverPath, fd, post, rfl, fun call hcall =>
      (hpost _ (List.mem_map_of_mem hcall)).1⟩
  · rintro ⟨pre, serverPath, fd, post, rfl, hpost⟩
    refine ⟨pre.map (MountCall.event pid), _, post.map (MountCall.event pid), by
      rw [List.map_append, List.map_cons], by simp [MountCall.event],
      returned_eq_zero_iff.mpr ⟨_, _, rfl⟩, fun e he => ?_⟩
    obtain ⟨call, hcall, rfl⟩ := List.mem_map.mp he
    obtain rfl := hpost call hcall
    exact ⟨rfl, by simp [returned_eq_zero_iff]⟩

/-- Every mount that gets a socket also binds it, and is the last call. -/
def OneMount (calls : List MountCall) : Prop :=
  ∀ pre serverPath fd bound post,
    calls = pre ++ .tfsMount serverPath (some fd) bound :: post → bound = true ∧ post = []

theorem exists_of_mem_opened {fd : Nat} (h : fd ∈ calls.filterMap MountCall.opened) :
    ∃ pre serverPath bound post, calls = pre ++ .tfsMount serverPath (some fd) bound :: post := by
  obtain ⟨call, hcall, hfd⟩ := List.mem_filterMap.mp h
  obtain ⟨pre, post, rfl⟩ := List.append_of_mem hcall
  cases call with
  | tfsUnmount => simp [MountCall.opened] at hfd
  | tfsMount serverPath socket bound =>
    obtain rfl : socket = some fd := hfd
    exact ⟨pre, serverPath, bound, post, rfl⟩

/-- The calls before the last one have not created a socket. -/
theorem OneMount.opened_eq_nil (h : OneMount calls) {pre : List MountCall} {call : MountCall}
    (hpre : pre ++ [call] <+: calls) : pre.filterMap MountCall.opened = [] := by
  refine List.eq_nil_iff_forall_not_mem.mpr fun fd hfd => ?_
  obtain ⟨pre', serverPath, bound, post, rfl⟩ := exists_of_mem_opened hfd
  obtain ⟨rest, rfl⟩ := hpre
  have hnil := (h pre' serverPath fd bound (post ++ [call] ++ rest) (by simp)).2
  simp at hnil

theorem OneMount.not_mounted (h : OneMount calls) {pre : List MountCall} {call : MountCall}
    (hpre : pre ++ [call] <+: calls) : ¬Mounted (pre.map (MountCall.event pid)) := by
  rw [mounted_iff]
  rintro ⟨pre', serverPath, fd, post, rfl, -⟩
  have hnil := h.opened_eq_nil hpre
  simp [MountCall.opened] at hnil

theorem OneMount.opened_length (h : OneMount calls) {pre : List MountCall} (hpre : pre <+: calls) :
    (pre.filterMap MountCall.opened).length ≤ 1 := by
  rcases List.eq_nil_or_concat' pre with rfl | ⟨pre, call, rfl⟩
  · simp
  · rw [List.filterMap_append, h.opened_eq_nil hpre]
    cases hcall : call.opened <;> simp [hcall]

/-- A prefix of a history is the history of a prefix. -/
theorem exists_of_prefix {pre : List MountEvent}
    (h : pre <+: calls.map (MountCall.event pid)) :
    ∃ pre', pre' <+: calls ∧ pre = pre'.map (MountCall.event pid) :=
  List.prefix_map_iff.mp h

theorem exists_of_prefix_concat {pre : List MountEvent} {e : MountEvent}
    (h : pre ++ [e] <+: calls.map (MountCall.event pid)) :
    ∃ pre' call, pre' ++ [call] <+: calls ∧ pre = pre'.map (MountCall.event pid) ∧
      e = call.event pid := by
  obtain ⟨all, hall, heq⟩ := exists_of_prefix h
  obtain ⟨pre', last, rfl, rfl, hlast⟩ := List.map_eq_append_iff.mp heq.symm
  obtain ⟨call, rfl, rfl⟩ := List.map_eq_singleton_iff.mp hlast
  exact ⟨pre', call, hall, rfl, rfl⟩

/-- Where a socket is open, there is a mount with nothing but unmounts after it. -/
theorem MountContract.of_opened (h : MountContract (calls.map (MountCall.event pid)))
    {pre : List MountCall} (hpre : pre <+: calls) (hopened : pre.filterMap MountCall.opened ≠ []) :
    (pre.filterMap MountCall.opened).length = 1 ∧ Mounted (pre.map (MountCall.event pid)) := by
  have hpre' := hpre.map (MountCall.event pid)
  have hlen : (openSockets (sysCallsOf (pre.map (MountCall.event pid)))).length = 1 := by
    refine Nat.le_antisymm (h.bounded _ (hpre'.flatMap MountEvent.sysCalls)) ?_
    rw [openSockets_events, List.length_reverse]
    exact List.length_pos_iff.mpr hopened
  refine ⟨?_, (h.open_iff _ hpre').mp hlen⟩
  rwa [openSockets_events, List.length_reverse] at hlen

/-- If the last call is not an unmount then it is that mount. -/
theorem MountContract.of_opened_concat (h : MountContract (calls.map (MountCall.event pid)))
    {pre : List MountCall} {call : MountCall} (hpre : pre ++ [call] <+: calls)
    (hopened : (pre ++ [call]).filterMap MountCall.opened ≠ []) :
    call = .tfsUnmount ∨ ∃ serverPath fd, call = .tfsMount serverPath (some fd) true := by
  obtain ⟨pre', serverPath, fd, post, heq, hpost⟩ := mounted_iff.mp (h.of_opened hpre hopened).2
  rcases List.eq_nil_or_concat' post with rfl | ⟨post, last, rfl⟩
  · exact Or.inr ⟨serverPath, fd, (List.append_inj' heq rfl).2 |> List.singleton_inj.mp⟩
  · left
    rw [← List.cons_append, ← List.append_assoc] at heq
    obtain rfl := List.singleton_inj.mp (List.append_inj' heq rfl).2
    exact hpost call (by simp)

/-- **When mounting and unmounting work**: whatever the outcomes of `socket` and `bind` are, as
long as every mount that gets a socket also binds it and is the last call. -/
theorem mount_contract_iff (pid : Nat) (calls : List MountCall) :
    MountContract (mountHistory pid .zero calls) ↔ OneMount calls := by
  rw [mountHistory_eq rfl]
  constructor
  · intro h pre serverPath fd bound post heq
    generalize hmount : MountCall.tfsMount serverPath (some fd) bound = mount at heq
    have hpre : pre ++ [mount] <+: calls := ⟨post, by rw [heq, List.append_assoc]; rfl⟩
    have hopened : mount.opened = some fd := by rw [← hmount]; rfl
    have hne : (pre ++ [mount]).filterMap MountCall.opened ≠ [] := by simp [hopened]
    constructor
    · rcases h.of_opened_concat hpre hne with hun | ⟨_, _, hok⟩
      · rw [hun] at hmount
        cases hmount
      · rw [hok] at hmount
        cases hmount
        rfl
    · cases post with
      | nil => rfl
      | cons call post =>
        have hpre' : pre ++ [mount] ++ [call] <+: calls := ⟨post, by rw [heq]; simp⟩
        have hne' : (pre ++ [mount] ++ [call]).filterMap MountCall.opened ≠ [] := by simp [hopened]
        rcases h.of_opened_concat hpre' hne' with hun | ⟨_, _, hok⟩
        · -- the unmount fails, as it finds no connection
          have hmounted := (h.of_opened hpre hne).2
          have hzero := (h.unmount _ (call.event pid) (by simpa using hpre'.map (MountCall.event pid))
            (by rw [hun]; rfl)).mpr hmounted
          obtain ⟨_, _, hok⟩ := returned_eq_zero_iff.mp hzero
          rw [hun] at hok
          cases hok
        · -- the second mount has not closed the first socket
          have hlen := (h.of_opened hpre' hne').1
          rw [← hmount, hok] at hlen
          simp [MountCall.opened] at hlen
  · intro h
    refine ⟨fun sysCalls hpre => ?_, fun pre hpre => ?_, fun pre e hpre hcall => ?_,
      fun pre e hpre _ hmounted => ?_⟩
    · obtain ⟨hclose, hcreated⟩ := @sysCallsOf_events pid calls
      rw [openSockets_of_not_close fun fd hfd => hclose fd (hpre.subset hfd), List.length_reverse]
      have hlen := (hpre.sublist.filterMap SysCall.created).length_le
      rw [hcreated] at hlen
      exact Nat.le_trans hlen (h.opened_length (List.prefix_refl _))
    · obtain ⟨pre, hpre', rfl⟩ := exists_of_prefix hpre
      rw [openSockets_events, List.length_reverse, mounted_iff]
      constructor
      · intro hlen
        obtain ⟨fd, hfd⟩ := List.length_eq_one_iff.mp hlen
        obtain ⟨pre', serverPath, bound, post, rfl⟩ :=
          exists_of_mem_opened (hfd ▸ List.mem_singleton_self fd)
        obtain ⟨rest, rfl⟩ := hpre'
        obtain ⟨rfl, hnil⟩ := h pre' serverPath fd bound (post ++ rest) (by simp)
        obtain ⟨rfl, -⟩ := List.append_eq_nil_iff.mp hnil
        exact ⟨pre', serverPath, fd, [], rfl, by simp⟩
      · rintro ⟨pre', serverPath, fd, post, rfl, -⟩
        refine Nat.le_antisymm (h.opened_length hpre') ?_
        simp [MountCall.opened]
        omega
    · obtain ⟨pre, call, hpre', rfl, rfl⟩ := exists_of_prefix_concat hpre
      refine iff_of_false (fun hzero => ?_) (h.not_mounted hpre')
      obtain ⟨serverPath, fd, rfl⟩ := returned_eq_zero_iff.mp hzero
      simp [MountCall.event] at hcall
    · obtain ⟨pre, call, hpre', rfl, rfl⟩ := exists_of_prefix_concat hpre
      exact absurd hmounted (h.not_mounted hpre')

/-- A mount that succeeds at the second attempt. -/
theorem mount_contract_retry : MountContract (mountHistory 1 .zero
    [.tfsMount (cstr "/tmp/tfs") none false, .tfsUnmount,
      .tfsMount (cstr "/tmp/tfs") (some 3) true]) := by
  refine (mount_contract_iff 1 _).mpr fun pre serverPath fd bound post heq => ?_
  rcases pre with - | ⟨call, - | ⟨call', - | ⟨call'', pre⟩⟩⟩ <;> simp_all

/-- **A connection cannot be unmounted.** -/
theorem not_mount_contract :
    ¬MountContract (mountHistory 1 .zero [.tfsMount (cstr "/tmp/tfs") (some 3) true,
      .tfsUnmount]) ∧
    (mountHistory 1 .zero [.tfsMount (cstr "/tmp/tfs") (some 3) true, .tfsUnmount]).map
      MountEvent.returned = [0, 1] := by
  refine ⟨fun h => ?_, by decide⟩
  have hmounted : Mounted [MountCall.event 1 (.tfsMount (cstr "/tmp/tfs") (some 3) true)] :=
    ⟨[], _, [], rfl, by simp [MountCall.event], rfl, by simp⟩
  have hzero := (h.unmount [_] (MountCall.event 1 .tfsUnmount) (List.prefix_refl _) rfl).mpr
    hmounted
  cases hzero

end History

end TecnicoFs
