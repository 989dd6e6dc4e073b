import TecnicoFs.Interleaving.Answers
import TecnicoFs.Server.Contents

/-!
# Answers that come late

A command and its response have nothing in common but the sockets: when `recv` fails, the
response stays in the socket of the client, and is taken for that to its next command.  What
a client is told is nevertheless the outcome of one of its calls, made before, and of each at
most once (`server_answers_once`).  A server with one worker lets it lag behind by the number
of responses that were lost (`server_answers_late`).
-/

namespace TecnicoFs

open Interleaving

variable {κ ω : Type} {fs : TfsFs} {limit : Nat} {address : κ × Nat → Nat × Nat}
  {datagrams : Datagrams κ} {m : Mem (κ × Nat)} {tr : List (Service.Event κ)}
  {s : ServerState κ ω} [DecidableEq κ] [DecidableEq ω]

/-- The calls of a run, one at a time, and whose answers the clients took. -/
theorem exists_owned_linearization (hT : TreeInv fs.inodeTable.capacity m.node)
    (hlocks : ∀ i, m.locks i = []) (h : ServerRun fs limit address datagrams m tr s) :
    ∃ (history : List ((κ × Nat) × Outcome)) (T : Tree) (owner : κ × Nat → Nat),
      Linearization fs address datagrams m tr s history T ∧
      (∀ k n a, (s.results k)[n]? = some (.answered a) → .send (k, owner (k, n)) ∈ tr ∧
        owner (k, n) ≤ n ∧ datagrams.AnswersTo address m.canOpen history (k, owner (k, n)) a) ∧
      (∀ k n n' a a', (s.results k)[n]? = some (.answered a) →
        (s.results k)[n']? = some (.answered a') → owner (k, n) = owner (k, n') → n = n') ∧
      ∀ w : ω, (∀ w', w' = w) → Service.InOrder s w owner := by
  obtain ⟨stage, c, owner, htracks, hrun, howned, horder⟩ := h.exists_owner fun _ _ => prog_task
  obtain ⟨w, hg, hpast⟩ := exists_good_past hT hlocks hrun
  refine ⟨_, _, owner, linearization_of_good h htracks hrun hg hpast, fun k n a ha => ?_,
    howned.once, horder⟩
  obtain ⟨hsent, hle, -, hanswer⟩ := howned.took k n a ha
  exact ⟨hsent, hle, answersTo_of_isAnswer hg hrun htracks.threads hanswer⟩

/-- **No answer is taken twice.**  Whatever its clients send and whichever answers they lose,
the calls that a new server has done are in an order, in which one that was over before
another one was made comes first, such that each answer that a client took is what came of a
call that it had made by then, of a different one for each answer. -/
theorem server_answers_once {t : κ × Nat} {canOpen : List CChar → Bool}
    {file : List CChar → List CChar}
    (hnew : tfsFsNew.run (machine (κ × Nat)) t (Mem.zero canOpen file) = some (fs, m))
    (h : ServerRun fs limit address datagrams m tr s) :
    ∃ (history : List ((κ × Nat) × Outcome)) (T : Tree) (owner : κ × Nat → Nat),
      Linearization fs address datagrams m tr s history T ∧
      (∀ k n a, (s.results k)[n]? = some (.answered a) → .send (k, owner (k, n)) ∈ tr ∧
        owner (k, n) ≤ n ∧ datagrams.AnswersTo address m.canOpen history (k, owner (k, n)) a) ∧
      ∀ k n n' a a', (s.results k)[n]? = some (.answered a) →
        (s.results k)[n']? = some (.answered a') → owner (k, n) = owner (k, n') → n = n' := by
  obtain ⟨hT, hlocks⟩ := tree_of_new hnew
  obtain ⟨history, T, owner, hlin, htook, honce, -⟩ := exists_owned_linearization hT hlocks h
  exact ⟨history, T, owner, hlin, htook, honce⟩

/-- **A client lags behind by the answers it lost.**  If a new server has one worker, an answer
that a client took is what came of a call such that as many requests were sent since then, that
of the call itself included, as answers were lost. -/
theorem server_answers_late {t : κ × Nat} {canOpen : List CChar → Bool}
    {file : List CChar → List CChar}
    (hnew : tfsFsNew.run (machine (κ × Nat)) t (Mem.zero canOpen file) = some (fs, m))
    (h : ServerRun fs limit address datagrams m tr s) {w : ω} (hone : ∀ w', w' = w) :
    ∃ (history : List ((κ × Nat) × Outcome)) (T : Tree),
      Linearization fs address datagrams m tr s history T ∧
      ∀ k n a, (s.results k)[n]? = some (.answered a) → ∃ n' ≤ n, .send (k, n') ∈ tr ∧
        datagrams.AnswersTo address m.canOpen history (k, n') a ∧
        (((s.results k).take n).drop n').countP Service.Result.wasSent =
          ((s.results k).take n).countP Service.Result.wasLost := by
  obtain ⟨hT, hlocks⟩ := tree_of_new hnew
  obtain ⟨history, T, owner, hlin, htook, -, horder⟩ := exists_owned_linearization hT hlocks h
  refine ⟨history, T, hlin, fun k n a ha => ?_⟩
  obtain ⟨hsent, hle, hanswer⟩ := htook k n a ha
  exact ⟨owner (k, n), hle, hsent, hanswer, (horder w hone).late_answer ha hle⟩

/-- A client that makes `/a` and searches `/b`. -/
def lateClients : Clients Unit := fun _ =>
  [some (.create (cstr "/a") .dir), some (.search (cstr "/b"))]

open Service.Turn in
/-- The client gives up on its first answer before it is sent, and takes it for the second. -/
def lateTurns : List (Service.Turn Unit Unit) :=
  [send (), lose (), send ()] ++ List.replicate 36 (worker ()) ++ [take ()]

/-- The run of that client on a new file system. -/
theorem exists_late_run {m : Mem (Unit × Nat)}
    (hm : (Mem.zero (fun _ => true) fun _ => []).setNode 0 (.dir tfsInodeDirNew) = m) :
    ∃ (tr : List (Service.Event Unit)) (s : ServerState Unit Unit),
      ServerRun ⟨⟨128⟩⟩ 10 (fun _ => (0, 0)) lateClients.datagrams m tr s ∧
        s.results () = [.lost, .answered 1] := by
  have hafter : ((Service.State.start m).after (machine (Unit × Nat))
      (workerThreads ⟨⟨128⟩⟩ 10 fun _ => (0, 0)) lateClients.datagrams.sent lateTurns).map
        (fun s => s.results ()) = some [.lost, .answered 1] := by
    subst hm
    decide +kernel
  obtain ⟨tr, s, hrun, hresults⟩ := Service.Run.nil.exists_seen hafter
  exact ⟨tr, s, hrun, hresults⟩

/-- The client is told that `/b` was found. -/
theorem exists_server_answers_once : ∃ (fs : TfsFs) (m : Mem (Unit × Nat))
    (tr : List (Service.Event Unit)) (s : ServerState Unit Unit)
    (history : List ((Unit × Nat) × Outcome)) (owner : Unit × Nat → Nat),
    ServerRun fs 10 (fun _ => (0, 0)) lateClients.datagrams m tr s ∧
    s.results () = [.lost, .answered 1] ∧ owner ((), 1) ≤ 1 ∧
    lateClients.datagrams.AnswersTo (fun _ => (0, 0)) m.canOpen history ((), owner ((), 1)) 1 := by
  have hnew := run_tfsFsNew (((), 0) : Unit × Nat) (fun _ => true) fun _ => []
  generalize hm : (Mem.zero (fun _ => true) fun _ => []).setNode 0 (.dir tfsInodeDirNew) = m at hnew
  obtain ⟨tr, s, hrun, hresults⟩ := exists_late_run hm
  obtain ⟨history, T, owner, -, htook, -⟩ := server_answers_once hnew hrun
  obtain ⟨-, hle, hanswer⟩ := htook () 1 1 (by rw [hresults]; rfl)
  exact ⟨_, m, tr, s, history, owner, hrun, hresults, hle, hanswer⟩

/-- It is the creation of `/a` that succeeded. -/
theorem exists_server_answers_late : ∃ (fs : TfsFs) (m : Mem (Unit × Nat))
    (tr : List (Service.Event Unit)) (s : ServerState Unit Unit)
    (history : List ((Unit × Nat) × Outcome)),
    ServerRun fs 10 (fun _ => (0, 0)) lateClients.datagrams m tr s ∧
    s.results () = [.lost, .answered 1] ∧
    lateClients.datagrams.AnswersTo (fun _ => (0, 0)) m.canOpen history ((), 0) 1 := by
  have hnew := run_tfsFsNew (((), 0) : Unit × Nat) (fun _ => true) fun _ => []
  generalize hm : (Mem.zero (fun _ => true) fun _ => []).setNode 0 (.dir tfsInodeDirNew) = m at hnew
  obtain ⟨tr, s, hrun, hresults⟩ := exists_late_run hm
  obtain ⟨history, T, -, htook⟩ := server_answers_late hnew hrun (w := ()) fun _ => rfl
  obtain ⟨n, hle, -, hanswer, hlag⟩ := htook () 1 1 (by rw [hresults]; rfl)
  rw [hresults] at hlag
  obtain rfl | rfl : n = 0 ∨ n = 1 := by omega
  · exact ⟨_, m, tr, s, history, hrun, hresults, hanswer⟩
  · exact absurd hlag (by decide)

end TecnicoFs
