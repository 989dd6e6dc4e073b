import TecnicoFs.Sequential.Serial
import TecnicoFs.Interleaving.Among
import TecnicoFs.Interleaving.Progress
import TecnicoFs.Server.Worker

/-!
# The server is linearizable

Whatever its clients send it and however its workers take turns, the server answers as if
it did the calls one at a time, each at some instant between the request and the answer,
on a tree that nobody else touches (`server_linearizable`).

The order is that of the log of the file system.  A client that has its answer before
another call is made comes before that call: the answer that it took is to its own call, as
long as it has received all answers before it.
-/

namespace TecnicoFs

open Interleaving

/-! ## Answers to listings -/

/-- No action changes which files can be opened. -/
theorem exec_canOpen {ι : Type} [DecidableEq ι] {t : ι} {o : Op} {m m' : Mem ι} {r : o.Resp}
    (h : (machine ι).exec t o m = some (r, m')) : m'.canOpen = m.canOpen := by
  cases o with
  | lock => rw [(exec_lock h).2]; rfl
  | tryLock =>
    rcases exec_tryLock h with ⟨-, -, rfl⟩ | ⟨-, -, rfl⟩
    · rfl
    · rfl
  | unlock => rw [exec_unlock h]; rfl
  | read => rw [(exec_read h).2]
  | write => rw [exec_write h]; rfl
  | assert => rw [(exec_assert h).2]
  | undefined => exact r.elim
  | fopen =>
    rcases exec_fopen h with ⟨-, rfl⟩ | ⟨-, rfl⟩
    · rfl
    · rfl
  | fclose =>
    obtain ⟨-, rfl⟩ := exec_fclose h
    rfl

theorem exec_fopen_eq {ι : Type} [DecidableEq ι] {t : ι} {name : List CChar} {m m' : Mem ι}
    {r : (Op.fopen name).Resp} (h : (machine ι).exec t (.fopen name) m = some (r, m')) :
    r = m.canOpen name := by
  change (if m.canOpen name then some (true, m.setFile name []) else some (false, m)) = some (r, m')
    at h
  cases hopen : m.canOpen name with
  | true =>
    rw [if_pos hopen] at h
    exact (Prod.mk.inj (Option.some.inj h)).1.symm
  | false =>
    rw [if_neg (by simp [hopen])] at h
    exact (Prod.mk.inj (Option.some.inj h)).1.symm

/-- **A listing succeeds if its file can be opened**, and fails otherwise. -/
theorem executedSuccessfully_print {ι : Type} [DecidableEq ι] {fs : TfsFs} {task : ι → Task}
    {m : Mem ι} {tr : List (Event ι)} {c : Config Op Op.Resp ι (Mem ι) Reply}
    (hrun : Run (machine ι) (fun t => (task t).prog fs) (.initial m) tr c) {t : ι}
    {name : List CChar} (ht : task t = .print name) {reply : Reply}
    (hret : c.thread t = .returned reply) : reply.executedSuccessfully = m.canOpen name := by
  have hI : ∀ (t : ι) (o : Op) (m₁ : Mem ι) (r : o.Resp) (m₂ : Mem ι),
      (machine ι).exec t o m₁ = some (r, m₂) → m₁.canOpen = m.canOpen →
        m₂.canOpen = m.canOpen :=
    fun _ _ _ _ _ he h => (exec_canOpen he).trans h
  refine (Run.of_keeping (I := fun m' => m'.canOpen = m.canOpen)
    (R := fun t reply => ∀ name, task t = .print name →
      reply.executedSuccessfully = m.canOpen name) (fun t w => ?_) rfl hrun).2 t reply hret name ht
  cases htask : task t with
  | call call =>
    exact Safe.of_keeps hI (Prog.Keeps.of_forall (fun _ _ => trivial)
      fun _ _ name heq => absurd heq (by simp)) w
  | print name =>
    have hprint : Safe (machine ι) (.full (.keeping fun m' => m'.canOpen = m.canOpen) t)
        (fun result _ => (Reply.print result).executedSuccessfully = m.canOpen name)
        (tfsFsPrint fs name) w := by
      refine Safe.bind (Safe.keeping_act hI fun m₁ opened m₂ hi he => ?_)
      have hopened : opened = m.canOpen name := (exec_fopen_eq he).trans (congrFun hi name)
      refine fun w' _ _ => ?_
      cases opened with
      | true =>
        have hok : ∀ (_ : Unit) (_ : Op), True := fun _ _ => trivial
        refine Safe.of_keeps hI
          (R := fun result => (Reply.print result).executedSuccessfully = m.canOpen name) ?_ w'
        rw [if_pos rfl]
        exact .bind_of_forall hok fun _ _ => .bind_of_forall hok fun _ _ =>
          .bind_of_forall hok fun _ _ => .bind_of_forall hok fun _ _ =>
          .bind_of_forall hok fun _ _ => hopened
      | false => exact fun _ _ _ => hopened
    refine Safe.bind (hprint.mono fun result w _ h _ _ _ name' heq => ?_)
    obtain rfl := Task.print.inj heq
    exact h

/-! ## One call at a time -/

/-- Calls that are made one after the other on a tree, with their outcomes. -/
inductive AtomicHistory {ι : Type} (capacity : Nat) (task : ι → Option Task) (T₀ : Tree) :
    List (ι × Outcome) → Tree → Prop where
  | nil : AtomicHistory capacity task T₀ [] T₀
  | snoc {history : List (ι × Outcome)} {T : Tree} {r : ι} {slot : Nat} {c : Call}
      (h : AtomicHistory capacity task T₀ history T) (hc : task r = some (.call c))
      (hfit : Fits capacity T slot c) :
      AtomicHistory capacity task T₀ (history ++ [(r, (atomic T slot c).outcome)])
        (atomic T slot c).tree

variable {κ ω : Type} {fs : TfsFs} {limit : Nat} {address : κ × Nat → Nat × Nat}
  {datagrams : Datagrams κ} {m : Mem (κ × Nat)} {tr : List (Service.Event κ)}
  {s : ServerState κ ω}

/-- What the answer to a call says of the history: whether the call succeeded, if the
server took its command for a call on the tree. -/
def Datagrams.AnswersTo (datagrams : Datagrams κ) (address : κ × Nat → Nat × Nat)
    (canOpen : List CChar → Bool) (history : List ((κ × Nat) × Outcome)) (r : κ × Nat)
    (a : CChar) : Prop :=
  match datagrams.served address r with
  | none => a = 0
  | some (.call _) => ∃ outcome, (r, outcome) ∈ history ∧ a = if outcome.isOk then 1 else 0
  | some (.print name) => a = if canOpen name then 1 else 0

/-- **The calls that were made, one at a time.** -/
structure Linearization (fs : TfsFs) (address : κ × Nat → Nat × Nat) (datagrams : Datagrams κ)
    (m : Mem (κ × Nat)) (tr : List (Service.Event κ)) (s : ServerState κ ω)
    (history : List ((κ × Nat) × Outcome)) (T : Tree) : Prop where
  atomic : AtomicHistory fs.inodeTable.capacity (datagrams.served address) m.node history T
  nodup : (history.map Prod.fst).Nodup
  /-- Only calls whose requests were sent are done. -/
  sent : ∀ r ∈ history.map Prod.fst, .send r ∈ tr
  /-- The answer that a client took is to its own call, if it lost none before. -/
  answers : ∀ k n a, (s.results k)[n]? = some (.answered a) → .lost ∉ (s.results k).take n →
    datagrams.AnswersTo address m.canOpen history (k, n) a
  /-- A call that was over before another one was made comes first. -/
  order : ∀ r u c, Service.Earlier tr r u → datagrams.served address r = some (.call c) →
    ∀ l₁ l₂, history.map Prod.fst = l₁ ++ u :: l₂ → r ∈ l₁
  /-- When no worker is busy, the inode table is the tree. -/
  idle : (∀ w, s.worker w = .idle) → s.mem.node = T

theorem task_eq_call_iff {r : κ × Nat} {c : Call} :
    datagrams.task address r = .call c ↔ datagrams.served address r = some (.call c) := by
  rw [Datagrams.task]
  cases datagrams.served address r <;> simp

/-- The setup that the server is. -/
abbrev serverSetup (fs : TfsFs) (address : κ × Nat → Nat × Nat) (datagrams : Datagrams κ)
    (m : Mem (κ × Nat)) (hT : TreeInv fs.inodeTable.capacity m.node) : Setup (κ × Nat) :=
  Setup.ofMem fs (datagrams.task address) valid_task m hT

theorem atomicHistory_of_replay {hT : TreeInv fs.inodeTable.capacity m.node}
    {log : List (Entry (κ × Nat))} {T : Tree}
    (h : (serverSetup fs address datagrams m hT).Replay log T) :
    AtomicHistory fs.inodeTable.capacity (datagrams.served address) m.node
      (log.map fun e => (e.tid, e.outcome)) T := by
  induction h with
  | nil => exact .nil
  | snoc h hc hfit houtcome _ _ ih =>
    rw [List.map_append, List.map_singleton, ← houtcome]
    exact ih.snoc (task_eq_call_iff.mp hc) hfit

section Threads

variable {hT : TreeInv fs.inodeTable.capacity m.node} {stage : κ × Nat → Service.Stage ω}
  {c : Config Op Op.Resp (κ × Nat) (Mem (κ × Nat)) Reply} {w : FsWorld (κ × Nat)}
  {tr' : List (Event (κ × Nat))} [DecidableEq κ]

/-- What a thread returned is the answer to its call. -/
theorem answersTo_of_isAnswer (hg : (serverSetup fs address datagrams m hT).contract.Good c w)
    (hrun : Run (machine (κ × Nat)) (fun r => (datagrams.task address r).prog fs)
      (.initial m) tr' c)
    (hthreads : Service.Threads (workerThreads fs limit address) datagrams.sent s stage c)
    {r : κ × Nat} {a : CChar}
    (h : (workerThreads fs limit address).IsAnswer datagrams.sent c r a) :
    datagrams.AnswersTo address m.canOpen (w.ghost.log.map fun e => (e.tid, e.outcome)) r a := by
  have hprogram := @program_workerThreads _ fs limit address datagrams r
  rw [Service.IsAnswer, hprogram, Option.map_eq_none_iff] at h
  unfold Datagrams.AnswersTo
  rcases h with ⟨hnone, rfl⟩ | ⟨reply, hret, rfl⟩
  · rw [hnone]
    rfl
  cases hserved : datagrams.served address r with
  | none =>
    -- there is no thread for a datagram that is refused
    rw [hserved] at hprogram
    have hwaiting := hthreads.fresh r (Or.inr (Or.inr hprogram))
    rw [hret] at hwaiting
    cases hwaiting
  | some task =>
    have htask : datagrams.task address r = task := by rw [Datagrams.task, hserved]; rfl
    cases task with
    | call call =>
      have hknows := hg.knows r
      rw [hret] at hknows
      obtain ⟨⟨e, he, rfl⟩, hall⟩ := Setup.Final.exists_entry htask hknows
      exact ⟨e.outcome, List.mem_map_of_mem (f := fun e => (e.tid, e.outcome)) he, by
        rw [hall e he rfl]; rfl⟩
    | print name =>
      exact congrArg (fun b : Bool => if b then (1 : CChar) else 0)
        (executedSuccessfully_print hrun htask hret)

/-- A thread that has entered the log was invoked. -/
theorem not_waiting_of_mem (hg : (serverSetup fs address datagrams m hT).contract.Good c w)
    {r : κ × Nat} (hr : r ∈ w.ghost.log.map Entry.tid) : c.thread r ≠ .waiting := by
  intro hwaiting
  have hknows := hg.knows r
  rw [hwaiting] at hknows
  exact Setup.Fresh.not_mem hknows hr

/-- A thread that returned has entered the log. -/
theorem mem_log_of_returned (hg : (serverSetup fs address datagrams m hT).contract.Good c w)
    {r : κ × Nat} {call : Call} (hserved : datagrams.served address r = some (.call call))
    {reply : Reply} (hret : c.thread r = .returned reply) : r ∈ w.ghost.log.map Entry.tid := by
  have hknows := hg.knows r
  rw [hret] at hknows
  obtain ⟨⟨e, he, rfl⟩, -⟩ := Setup.Final.exists_entry (task_eq_call_iff.mpr hserved) hknows
  exact List.mem_map_of_mem he

end Threads

variable [DecidableEq κ]

/-- What explains a run of the threads from a tree with no locks, from its start to its end. -/
theorem exists_good_past (hT : TreeInv fs.inodeTable.capacity m.node)
    (hlocks : ∀ i, m.locks i = []) {tr' : List (Event (κ × Nat))}
    {c : Config Op Op.Resp (κ × Nat) (Mem (κ × Nat)) Reply}
    (hrun : Run (machine (κ × Nat)) (fun r => (datagrams.task address r).prog fs) (.initial m)
      tr' c) :
    ∃ w, (serverSetup fs address datagrams m hT).contract.Good c w ∧
      ∀ tr₁ tr₂, tr' = tr₁ ++ tr₂ → ∃ c₁ w₁,
        Run (machine (κ × Nat)) (fun r => (datagrams.task address r).prog fs) (.initial m) tr₁ c₁ ∧
        (serverSetup fs address datagrams m hT).contract.Good c₁ w₁ ∧
        w₁.ghost.log <+: w.ghost.log := by
  have hstarts := @Setup.starts_ofMem _ fs (datagrams.task address) valid_task m hT fun i => by
    rw [hlocks i]
    exact RwLock.ok_nil
  have hgrow : ∀ t w w', (serverSetup fs address datagrams m hT).protocol.Guar t w w' →
      w.ghost.log <+: w'.ghost.log := fun t w w' hguar => by
    obtain ⟨l, hl, -⟩ := hguar.own
    exact hl ▸ List.prefix_append _ _
  exact Contract.exists_good_along (C := (serverSetup fs address datagrams m hT).contract)
    (g := ⟨m.node, [], fun _ => none⟩) hgrow hstarts.inv
    (fun t => Setup.fresh_start (by simp [hlocks])) hrun

variable [DecidableEq ω]

/-- What explains a run of the server from a tree with no locks, from its start to its end. -/
theorem exists_explained_run (hT : TreeInv fs.inodeTable.capacity m.node)
    (hlocks : ∀ i, m.locks i = []) (h : ServerRun fs limit address datagrams m tr s) :
    ∃ (stage : κ × Nat → Service.Stage ω) (c : Config Op Op.Resp (κ × Nat) (Mem (κ × Nat)) Reply)
      (w : FsWorld (κ × Nat)),
      Service.Tracks (workerThreads fs limit address) datagrams.sent s stage c ∧
      Run (machine (κ × Nat)) (fun r => (datagrams.task address r).prog fs) (.initial m)
        (tr.filterMap ((workerThreads fs limit address).project datagrams.sent)) c ∧
      (serverSetup fs address datagrams m hT).contract.Good c w ∧
      ∀ tr₁ tr₂, tr.filterMap ((workerThreads fs limit address).project datagrams.sent) =
          tr₁ ++ tr₂ → ∃ c₁ w₁,
        Run (machine (κ × Nat)) (fun r => (datagrams.task address r).prog fs) (.initial m) tr₁ c₁ ∧
        (serverSetup fs address datagrams m hT).contract.Good c₁ w₁ ∧
        w₁.ghost.log <+: w.ghost.log := by
  obtain ⟨stage, c, htracks, hrun⟩ := h.exists_tracks fun _ _ => prog_task
  obtain ⟨w, hg, hpast⟩ := exists_good_past hT hlocks hrun
  exact ⟨stage, c, w, htracks, hrun, hg, hpast⟩

/-- **What explains a run gives the order of its calls.** -/
theorem linearization_of_good {hT : TreeInv fs.inodeTable.capacity m.node}
    (h : ServerRun fs limit address datagrams m tr s) {stage : κ × Nat → Service.Stage ω}
    {c : Config Op Op.Resp (κ × Nat) (Mem (κ × Nat)) Reply} {w : FsWorld (κ × Nat)}
    (htracks : Service.Tracks (workerThreads fs limit address) datagrams.sent s stage c)
    (hrun : Run (machine (κ × Nat)) (fun r => (datagrams.task address r).prog fs) (.initial m)
      (tr.filterMap ((workerThreads fs limit address).project datagrams.sent)) c)
    (hg : (serverSetup fs address datagrams m hT).contract.Good c w)
    (hpast : ∀ tr₁ tr₂, tr.filterMap ((workerThreads fs limit address).project datagrams.sent) =
        tr₁ ++ tr₂ → ∃ c₁ w₁,
      Run (machine (κ × Nat)) (fun r => (datagrams.task address r).prog fs) (.initial m) tr₁ c₁ ∧
      (serverSetup fs address datagrams m hT).contract.Good c₁ w₁ ∧
      w₁.ghost.log <+: w.ghost.log) :
    Linearization fs address datagrams m tr s (w.ghost.log.map fun e => (e.tid, e.outcome))
      w.ghost.tree := by
  have hfst : (w.ghost.log.map fun e => (e.tid, e.outcome)).map Prod.fst =
      w.ghost.log.map Entry.tid := List.map_map
  refine ⟨atomicHistory_of_replay hg.inv.replay, hfst ▸ hg.inv.tids, fun r hr => ?_,
    fun k n a ha hlost => answersTo_of_isAnswer hg hrun htracks.threads
      (htracks.threads.results k n a ha hlost),
    fun r u call hearlier hserved l₁ l₂ hl => ?_, fun hidle => ?_⟩
  · rw [hfst] at hr
    exact h.send_of_invoke ((hrun.invoke_mem_iff r).mpr (not_waiting_of_mem hg hr))
  · rw [hfst] at hl
    have hmem : u ∈ w.ghost.log.map Entry.tid := hl ▸ by simp
    have hinvoke := (hrun.invoke_mem_iff u).mpr (not_waiting_of_mem hg hmem)
    obtain ⟨tr₁, tr₂, htr, hrespond⟩ := h.precedes (fun _ _ => prog_task) hearlier
      (by simp [program_workerThreads, hserved]) hinvoke
    obtain ⟨c₁, w₁, hrun₁, hg₁, log₂, hlog⟩ := hpast tr₁ _ htr
    -- when `u` was invoked, the log had `r` and not `u`
    obtain ⟨reply, hret⟩ := (hrun₁.respond_mem_iff r).mp hrespond
    have hr₁ := mem_log_of_returned hg₁ hserved hret
    have hu₁ : u ∉ w₁.ghost.log.map Entry.tid := fun hu => by
      rw [htr] at hrun
      exact hrun.invoke_notMem ((hrun₁.invoke_mem_iff u).mpr (not_waiting_of_mem hg₁ hu))
    have hall : w₁.ghost.log.map Entry.tid ++ log₂.map Entry.tid = l₁ ++ u :: l₂ := by
      rw [← List.map_append, hlog]
      exact hl
    rcases List.append_eq_append_iff.mp hall with ⟨l, rfl, -⟩ | ⟨l, heq, hl'⟩
    · exact List.mem_append_left _ hr₁
    · cases l with
      | nil => rwa [heq, List.append_nil] at hr₁
      | cons x l =>
        obtain ⟨rfl, -⟩ := List.cons.inj hl'
        exact absurd (by rw [heq]; simp) hu₁
  · obtain ⟨-, hnode⟩ := quiet_of_good hg fun r => htracks.threads.rest r fun w' hstage => by
      have hcall := (htracks.places.served w' r).mpr hstage
      rw [hidle w'] at hcall
      cases hcall
    rw [← htracks.threads.mem, ← hg.mem]
    exact funext hnode

/-- The calls of a run from a tree with no locks, one at a time. -/
theorem exists_linearization_of_run (hT : TreeInv fs.inodeTable.capacity m.node)
    (hlocks : ∀ i, m.locks i = []) (h : ServerRun fs limit address datagrams m tr s) :
    ∃ history T, Linearization fs address datagrams m tr s history T := by
  obtain ⟨stage, c, w, htracks, hrun, hg, hpast⟩ := exists_explained_run hT hlocks h
  exact ⟨_, _, linearization_of_good h htracks hrun hg hpast⟩

/-- In a history there are calls only. -/
theorem AtomicHistory.exists_call_of_mem {ι : Type} {capacity : Nat} {task : ι → Option Task}
    {T₀ T : Tree} {history : List (ι × Outcome)} (h : AtomicHistory capacity task T₀ history T)
    {r : ι} (hr : r ∈ history.map Prod.fst) : ∃ c, task r = some (.call c) := by
  induction h with
  | nil => cases hr
  | snoc _ hc _ ih =>
    rw [List.map_append, List.mem_append] at hr
    rcases hr with hr | hr
    · exact ih hr
    · rw [List.mem_singleton.mp hr]
      exact ⟨_, hc⟩

/-- **The calls of a client that receives its answers are done in the order in which it makes
them.** -/
theorem Linearization.client_order {history : List ((κ × Nat) × Outcome)} {T : Tree}
    (hlin : Linearization fs address datagrams m tr s history T)
    (h : ServerRun fs limit address datagrams m tr s) {k : κ} (hlose : ∀ n, .lose (k, n) ∉ tr)
    {n n' : Nat} (hmem : (k, n) ∈ history.map Prod.fst) (hlt : n < n')
    {l₁ l₂ : List (κ × Nat)} (hl : history.map Prod.fst = l₁ ++ (k, n') :: l₂) : (k, n) ∈ l₁ := by
  obtain ⟨c, hc⟩ := hlin.atomic.exists_call_of_mem hmem
  have hsent := hlin.sent _ hmem
  obtain ⟨tr₁, tr₂, rfl, hover⟩ := h.exists_send (hlin.sent (k, n') (hl ▸ by simp))
  have hnot : ∀ i, .lose (k, i) ∉ tr₁ := fun i hi => hlose i (List.mem_append_left _ hi)
  exact hlin.order (k, n) (k, n') c
    ⟨tr₁, tr₂, rfl, (hover n hlt hsent).resolve_right (hnot n), fun i _ => hnot i⟩ hc l₁ l₂ hl

/-- **The server is linearizable.**  Whatever any number of clients send to any number of
workers of a new server, and in whatever order all of them act, there is an order of the
calls that were done on the tree, in which a call that was over before another one was made
comes first, such that doing them one at a time gives all the answers that the clients have
received and, when no worker is busy, the tree. -/
theorem server_linearizable {t : κ × Nat} {canOpen : List CChar → Bool}
    {file : List CChar → List CChar}
    (hnew : tfsFsNew.run (machine (κ × Nat)) t (Mem.zero canOpen file) = some (fs, m))
    (h : ServerRun fs limit address datagrams m tr s) :
    ∃ history T, Linearization fs address datagrams m tr s history T := by
  obtain ⟨hT, hlocks⟩ := tree_of_new hnew
  exact exists_linearization_of_run hT hlocks h

/-- Two clients; one creates a directory and the other a file in it, at the same time. -/
def sharingClients : Clients Bool
  | true => [some (.create (cstr "/a") .dir), some (.search (cstr "/a/f"))]
  | false => [some (.create (cstr "/a/f") .file)]

open Service.Turn in
/-- The creation of the file has to wait for that of the directory, and the search, which
finds the file, for that of the file. -/
def sharingTurns : List (Service.Turn Bool Bool) :=
  [send true, send false] ++ List.replicate 15 (worker true) ++ List.replicate 2 (worker false) ++
    List.replicate 9 (worker true) ++ [take true, send true] ++ List.replicate 5 (worker false) ++
    [worker true] ++ List.replicate 28 (worker false) ++ List.replicate 30 (worker true) ++
    [take false, take true]

set_option synthInstance.maxSize 256 in
/-- A run of the two clients on a new file system. -/
theorem exists_sharing_run {m : Mem (Bool × Nat)}
    (hm : (Mem.zero (fun _ => true) fun _ => []).setNode 0 (.dir tfsInodeDirNew) = m) :
    ∃ (tr : List (Service.Event Bool)) (s : ServerState Bool Bool),
      ServerRun ⟨⟨128⟩⟩ 10 (fun _ => (0, 0)) sharingClients.datagrams m tr s ∧
        s.results true = [.answered 1, .answered 1] ∧ s.results false = [.answered 1] ∧
        s.Complete sharingClients.datagrams.sent := by
  have hafter : ((Service.State.start m).after (machine (Bool × Nat))
      (workerThreads ⟨⟨128⟩⟩ 10 fun _ => (0, 0)) sharingClients.datagrams.sent sharingTurns).map
        (fun s => ((s.results true, s.results false), [s.waiting true, s.waiting false],
          [(s.worker true).call, (s.worker false).call],
          [s.queue.length, (s.inbox true).length, (s.inbox false).length])) =
      some (([.answered 1, .answered 1], [.answered 1]), [false, false], [none, none],
        [0, 0, 0]) := by
    subst hm
    decide +kernel
  obtain ⟨tr, s, hrun, hseen⟩ := Service.Run.nil.exists_seen hafter
  simp only [Prod.mk.injEq, List.cons.injEq, and_true, List.length_eq_zero_iff] at hseen
  obtain ⟨⟨htrue, hfalse⟩, hwaiting, hworker, hqueue, hinbox⟩ := hseen
  refine ⟨tr, s, hrun, htrue, hfalse, fun k => ?_, fun k => ?_, fun w => ?_, hqueue, fun k => ?_⟩
  · cases k
    · rw [hfalse]
      rfl
    · rw [htrue]
      rfl
  · cases k
    · exact hwaiting.2
    · exact hwaiting.1
  · refine Service.Worker.call_eq_none_iff.mp ?_
    cases w
    · exact hworker.2
    · exact hworker.1
  · cases k
    · exact hinbox.2
    · exact hinbox.1

theorem exists_server_linearizable : ∃ (fs : TfsFs) (m : Mem (Bool × Nat))
    (tr : List (Service.Event Bool)) (s : ServerState Bool Bool)
    (history : List ((Bool × Nat) × Outcome)) (T : Tree),
    ServerRun fs 10 (fun _ => (0, 0)) sharingClients.datagrams m tr s ∧
    s.results true = [.answered 1, .answered 1] ∧ s.results false = [.answered 1] ∧
    Linearization fs (fun _ => (0, 0)) sharingClients.datagrams m tr s history T := by
  have hnew := run_tfsFsNew ((true, 0) : Bool × Nat) (fun _ => true) fun _ => []
  generalize hm : (Mem.zero (fun _ => true) fun _ => []).setNode 0 (.dir tfsInodeDirNew) = m at hnew
  obtain ⟨tr, s, hrun, htrue, hfalse, -⟩ := exists_sharing_run hm
  obtain ⟨history, T, h⟩ := server_linearizable hnew hrun
  exact ⟨_, m, tr, s, history, T, hrun, htrue, hfalse, h⟩

end TecnicoFs
