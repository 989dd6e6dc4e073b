import TecnicoFs.Server.Idle

/-!
# A server with moves

Moves can hold up a server in two ways.  Two of them can lock the parents of what they move
in opposite orders, and wait for each other; and one that fails can keep a lock, for which
others wait.  If the moves of different clients do not cross, the first does not happen, and
then all calls are answered unless a client was told that a move of its failed
(`server_answers_unless_move_fails`).  What waits for a lock that was kept waits for ever
(`server_worker_lost`).
-/

namespace TecnicoFs

open Interleaving

section Run

variable {κ ω : Type} {fs : TfsFs} {limit : Nat} {address : κ × Nat → Nat × Nat}
  {datagrams : Datagrams κ} {m : Mem (κ × Nat)} {tr : List (Service.Event κ)}
  {s : ServerState κ ω}

/-- A call waits for a lock of a move, and the client was told that the move failed. -/
def Datagrams.HeldUp (datagrams : Datagrams κ) (address : κ × Nat → Nat × Nat)
    (s : ServerState κ ω) : Prop :=
  ∃ r u, WaitsOn s r u ∧ datagrams.Moves address u ∧
    (s.results u.1)[u.2]? = some (.answered 0)

variable [DecidableEq κ] [DecidableEq ω]

/-- **A move that holds up a server when it comes to rest is over**, and its client knows. -/
theorem answered_of_waitsOn (hT : TreeInv fs.inodeTable.capacity m.node)
    (hlocks : ∀ i, m.locks i = []) (h : ServerRun fs limit address datagrams m tr s)
    (hlose : ∀ r, .lose r ∉ tr)
    (hstuck : s.Stuck (machine (κ × Nat)) (workerThreads fs limit address) datagrams.sent)
    {r u : κ × Nat} (hwaits : WaitsOn s r u) (hbusy : ¬Busy s u) :
    (s.results u.1)[u.2]? = some (.answered 0) := by
  obtain ⟨stage, c, world, htracks, hrun, hg, -⟩ := exists_explained_run hT hlocks h
  obtain ⟨w, i, access, b, -, hb, -⟩ := hwaits
  have hm := matched_of_trace h hlose
  obtain ⟨hmoves, reply, hreply⟩ := returned_of_kept htracks hg hb hbusy
  have hinvoked : c.thread u ≠ .waiting := fun hwaiting => by
    rw [hreply] at hwaiting
    cases hwaiting
  have hsent := h.send_of_invoke ((hrun.invoke_mem_iff u).mpr hinvoked)
  obtain ⟨a, ha⟩ := htracks.places.answered_of_stuck hstuck hm h hsent
    (fun hqueued => hinvoked (htracks.threads.fresh u (Or.inr (Or.inl hqueued))))
    fun w hserved => hbusy ⟨w, (htracks.places.served w u).mpr hserved⟩
  have hlost : .lost ∉ (s.results u.1).take u.2 := fun hmem => hm u.1 (List.mem_of_mem_take hmem)
  rw [ha, answer_of_kept htracks hrun hg hmoves hb ha hlost]

variable {t : κ × Nat} {canOpen : List CChar → Bool} {file : List CChar → List CChar}

theorem heldUp_of_stuck [Finite ω] [Nonempty ω]
    (hnew : tfsFsNew.run (machine (κ × Nat)) t (Mem.zero canOpen file) = some (fs, m))
    {C : Finset (κ × Nat)} (hC : ∀ r, datagrams.Creates address r → r ∈ C)
    (hroom : C.card < fs.inodeTable.capacity) (hcross : datagrams.Uncrossed address)
    (h : ServerRun fs limit address datagrams m tr s) (hlose : ∀ r, .lose r ∉ tr)
    (hlimit : 0 < limit)
    (hstuck : s.Stuck (machine (κ × Nat)) (workerThreads fs limit address) datagrams.sent) :
    s.Complete datagrams.sent ∨ datagrams.HeldUp address s := by
  obtain ⟨hT, hlocks⟩ := tree_of_new hnew
  refine (kept_of_stuck hnew hC hroom hcross h hlose hlimit hstuck).imp_right ?_
  rintro ⟨r, u, hwaits, hmoves, hbusy⟩
  exact ⟨r, u, hwaits, hmoves, answered_of_waitsOn hT hlocks h hlose hstuck hwaits hbusy⟩

end Run

theorem creates_hangingClients {r : Unit × Nat}
    (h : hangingClients.datagrams.Creates (fun _ => (0, 0)) r) :
    r ∈ (Finset.range 5).image (Prod.mk ()) := by
  obtain ⟨path, type, h⟩ := h
  obtain ⟨⟨⟩, n⟩ := r
  refine Finset.mem_image_of_mem _ (Finset.mem_range.mpr ?_)
  by_contra hn
  have hnone : hangingClients.command ((), n) = none := by
    rw [Clients.command, hangingClients, List.getElem?_eq_none (Nat.le_of_not_lt hn)]
    rfl
  rw [Datagrams.served, request_datagrams, hnone] at h
  cases h

end TecnicoFs
