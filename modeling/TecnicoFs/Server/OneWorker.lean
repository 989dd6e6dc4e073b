import TecnicoFs.Interleaving.OneByOne
import TecnicoFs.Server.Idle

/-!
# What clients can be told

A server can make the calls of any history of the map, one after the other and with one
worker (`exists_hasMade`).  So what its clients can be told is what the map says in some order
of the calls in which those of each client are in their order, no less and no more
(`server_results_iff`), and a server with many workers tells them nothing that one with one
worker could not (`server_as_one_worker`).  The slots that the inodes are in may be different
ones, but the map is the same in the end.
-/

namespace TecnicoFs

open Interleaving

variable {κ ω : Type} [DecidableEq κ] [DecidableEq ω] {fs : TfsFs} {limit : Nat}
  {address : κ × Nat → Nat × Nat} {m : Mem (κ × Nat)} {clients : Clients κ}
  {C : Finset (κ × Nat)} {history : List ((κ × Nat) × Bool)} {f f' : FileMap}
  {s : ServerState κ ω} {tr : List (Service.Event κ)}

/-! ## Making calls one after the other -/

/-- A server has made the calls of a history, and no others. -/
structure HasMade (fs : TfsFs) (C : Finset (κ × Nat)) (history : List ((κ × Nat) × Bool))
    (f : FileMap) (s : ServerState κ ω) : Prop where
  resting : s.Resting
  settled : Settled fs.inodeTable.capacity s.mem.node
  locks : ∀ i, s.mem.locks i = []
  map : treeMap s.mem.node = f
  card : (liveSlots fs.inodeTable.capacity s.mem.node).card ≤
    1 + (C.filter (· ∈ history.map Prod.fst)).card
  begun : ∀ k n, n < (s.results k).length ↔ (k, n) ∈ history.map Prod.fst
  answers : ∀ k n ok, ((k, n), ok) ∈ history →
    (s.results k)[n]? = some (.answered (if ok then 1 else 0))

omit [DecidableEq ω] in
/-- There is a slot for the next call. -/
theorem HasMade.room (hs : HasMade fs C history f s) (hroom : C.card < fs.inodeTable.capacity)
    {r : κ × Nat} (hr : r ∈ C) (hnot : r ∉ history.map Prod.fst) :
    (liveSlots fs.inodeTable.capacity s.mem.node).card < fs.inodeTable.capacity := by
  have hlt : (C.filter (· ∈ history.map Prod.fst)).card < C.card :=
    Finset.card_lt_card (Finset.filter_ssubset.mpr ⟨r, hr, hnot⟩)
  have hcard := hs.card
  omega

/-- **The next call of a history.** -/
theorem HasMade.snoc (hs : HasMade fs C history f s)
    (h : ServerRun fs limit address clients.datagrams m tr s) (hlimit : 0 < limit) (w : ω)
    (hproper : ∀ k, ∀ command, some command ∈ clients k → command.Proper) {k : κ} {n : Nat}
    {c : Call} (hc : clients.asked address (k, n) = some (.call c))
    (hC : c.creates = true → (k, n) ∈ C) (hnot : (k, n) ∉ history.map Prod.fst)
    (hold : ∀ n' < n, (k, n') ∈ history.map Prod.fst) {reply : Reply} {m' : Mem (κ × Nat)}
    (hrun : (c.prog fs).run (machine (κ × Nat)) (k, n) s.mem = some (reply, m'))
    (hsettled : Settled fs.inodeTable.capacity m'.node) (hlocks : ∀ i, m'.locks i = [])
    (hmap : treeMap m'.node = f')
    (hcard : (liveSlots fs.inodeTable.capacity m'.node).card ≤
      (liveSlots fs.inodeTable.capacity s.mem.node).card + if c.creates then 1 else 0) :
    ∃ (tr' : List (Service.Event κ)) (s' : ServerState κ ω),
      ServerRun fs limit address clients.datagrams m tr' s' ∧
      HasMade fs C (history ++ [((k, n), reply.outcome.isOk)]) f' s' := by
  have hlen : (s.results k).length = n := by
    refine Nat.le_antisymm (Nat.le_of_not_lt (mt (hs.begun k n).mp hnot)) ?_
    by_contra hlt
    exact lt_irrefl _ ((hs.begun k _).mpr (hold _ (Nat.lt_of_not_le hlt)))
  have hcurrent : s.current k = (k, n) := congrArg (Prod.mk k) hlen
  have hprogram : (workerThreads fs limit address).program clients.datagrams.sent (s.current k) =
      some (c.prog fs) := by
    rw [hcurrent, program_workerThreads, served_eq_asked hproper, hc]
    rfl
  obtain ⟨tr', s', hrun', hresting, hmem, hresults⟩ :=
    h.exists_served hs.resting hlimit w hprogram (hcurrent ▸ hrun)
  refine ⟨tr', s', hrun', hresting, hmem ▸ hsettled, hmem ▸ hlocks, hmem ▸ hmap, ?_,
    fun k' n' => ?_, fun k' n' ok hok => ?_⟩
  · have hle : (C.filter (· ∈ history.map Prod.fst)).card + (if c.creates then 1 else 0) ≤
        (C.filter (· ∈ (history ++ [((k, n), reply.outcome.isOk)]).map Prod.fst)).card := by
      have hsub : C.filter (· ∈ history.map Prod.fst) ⊆
          C.filter (· ∈ (history ++ [((k, n), reply.outcome.isOk)]).map Prod.fst) := by
        refine Finset.monotone_filter_right C fun r _ hr => ?_
        rw [List.map_append]
        exact List.mem_append_left _ hr
      cases hcreates : c.creates with
      | false => exact Finset.card_le_card hsub
      | true =>
        refine Finset.card_lt_card ⟨hsub, fun hsup => hnot ?_⟩
        exact (Finset.mem_filter.mp (hsup (Finset.mem_filter.mpr ⟨hC hcreates, by simp⟩))).2
    have hcard' := hs.card
    rw [hmem]
    omega
  · rw [hresults, List.map_append, List.map_singleton, List.mem_append, List.mem_singleton,
      ← hs.begun]
    by_cases hk : k' = k
    · subst hk
      rw [Function.update_self, List.length_append, List.length_singleton, hlen]
      simp only [Prod.mk.injEq, true_and]
      omega
    · rw [Function.update_of_ne hk, Prod.mk.injEq]
      simp [hk]
  · rw [hresults]
    rcases List.mem_append.mp hok with hok | hok
    · have hget := hs.answers k' n' ok hok
      by_cases hk : k' = k
      · subst hk
        rw [Function.update_self,
          List.getElem?_append_left (List.getElem?_eq_some_iff.mp hget).1]
        exact hget
      · rwa [Function.update_of_ne hk]
    · obtain ⟨hr, rfl⟩ := Prod.mk.inj (List.mem_singleton.mp hok)
      obtain ⟨rfl, rfl⟩ := Prod.mk.inj hr
      rw [Function.update_self, ← hlen, List.getElem?_concat_length]
      rfl

/-- **A history of the map is made by a worker.** -/
theorem exists_hasMade {t : κ × Nat} {canOpen : List CChar → Bool}
    {file : List CChar → List CChar}
    (hnew : tfsFsNew.run (machine (κ × Nat)) t (Mem.zero canOpen file) = some (fs, m))
    (hproper : ∀ k, ∀ command, some command ∈ clients k → command.Proper)
    (hC : ∀ r, clients.datagrams.Creates address r → r ∈ C)
    (hroom : C.card < fs.inodeTable.capacity) (hlimit : 0 < limit) (w : ω)
    (hmap : MapHistory (clients.asked address) .new history f)
    (hnodup : (history.map Prod.fst).Nodup)
    (horder : ∀ k n l₁ l₂, history.map Prod.fst = l₁ ++ (k, n) :: l₂ → ∀ n' < n, (k, n') ∈ l₁)
    (hmoved : ∀ r c, (r, false) ∈ history → clients.asked address r = some (.call c) →
      ¬(Task.call c).Moves) :
    ∃ (tr : List (Service.Event κ)) (s : ServerState κ ω),
      ServerRun fs limit address clients.datagrams m tr s ∧ HasMade fs C history f s := by
  have hcreates : ∀ {r c}, clients.asked address r = some (.call c) → c.creates = true → r ∈ C := by
    intro r c hc hcreates
    cases c with
    | create path type => exact hC r ⟨path, type, by rw [served_eq_asked hproper, hc]⟩
    | remove path => cases hcreates
    | find path access => cases hcreates
    | move origPath destPath access => cases hcreates
  -- the calls before the last one are a history of their own
  have hprefix : ∀ {history : List ((κ × Nat) × Bool)} {r : κ × Nat} {ok : Bool},
      ((history ++ [(r, ok)]).map Prod.fst).Nodup →
      (∀ k n l₁ l₂, (history ++ [(r, ok)]).map Prod.fst = l₁ ++ (k, n) :: l₂ →
        ∀ n' < n, (k, n') ∈ l₁) →
      (history.map Prod.fst).Nodup ∧
      (∀ k n l₁ l₂, history.map Prod.fst = l₁ ++ (k, n) :: l₂ → ∀ n' < n, (k, n') ∈ l₁) ∧
      r ∉ history.map Prod.fst ∧ ∀ n' < r.2, (r.1, n') ∈ history.map Prod.fst := by
    intro history r ok hnodup horder
    rw [List.map_append, List.map_singleton] at hnodup horder
    obtain ⟨hnodup, -, hne⟩ := List.nodup_append.mp hnodup
    refine ⟨hnodup, fun k n l₁ l₂ hl => horder k n l₁ (l₂ ++ [r]) ?_,
      fun hmem => hne r hmem r (List.mem_singleton_self r) rfl, horder r.1 r.2 _ [] rfl⟩
    rw [hl, List.append_assoc, List.cons_append]
  induction hmap with
  | nil =>
    obtain ⟨rfl, rfl⟩ := Prod.mk.inj (Option.some.inj ((run_tfsFsNew ..).symm.trans hnew))
    obtain ⟨hT, hlocks⟩ := tree_of_new hnew
    refine ⟨[], .start _, .nil, Service.State.resting_start _, ⟨hT, named_single, blankFree_single⟩,
      hlocks, treeMap_single, ?_, by simp [Service.State.start], by simp⟩
    exact card_liveSlots_single.le.trans (Nat.le_add_right 1 _)
  | @done history f r c _ hc hcan ih =>
    obtain ⟨hnodup', horder', hnot, hold⟩ := hprefix hnodup horder
    obtain ⟨tr, s, hrun, hs⟩ := ih hnodup' horder' fun r c hr =>
      hmoved r c (List.mem_append_left _ hr)
    obtain ⟨hvalid, hplain⟩ := plain_of_asked hproper hc
    obtain ⟨reply, m', i, hcall, hok⟩ := hs.settled.exists_run hs.locks hvalid hplain
      (hs.map ▸ hcan) (fun h => hs.room hroom (hcreates hc h) hnot) r
    obtain ⟨-, hsettled, hlocks, hmap, hcard⟩ :=
      hs.settled.of_run hs.locks hvalid hplain hcall hok
    rw [show true = reply.outcome.isOk by rw [hok]; rfl]
    exact hs.snoc hrun hlimit w hproper hc (hcreates hc) hnot hold hcall hsettled hlocks
      (hs.map ▸ hmap) (by omega)
  | @refused history f r c _ hc hcan ih =>
    obtain ⟨hnodup', horder', hnot, hold⟩ := hprefix hnodup horder
    obtain ⟨tr, s, hrun, hs⟩ := ih hnodup' horder' fun r c hr =>
      hmoved r c (List.mem_append_left _ hr)
    obtain ⟨hvalid, hplain⟩ := plain_of_asked hproper hc
    obtain ⟨reply, m', hcall⟩ := hs.settled.exists_reply hs.locks hvalid
      (fun h => hs.room hroom (hcreates hc h) hnot) r
    obtain ⟨hok, hnode, hlocks⟩ := hs.settled.of_refused hs.locks hvalid hplain
      (hmoved r c (by simp) hc) (hs.map ▸ hcan) hcall
    rw [← hok]
    exact hs.snoc hrun hlimit w hproper hc (hcreates hc) hnot hold hcall (hnode ▸ hs.settled)
      hlocks (hnode ▸ hs.map) (by rw [hnode]; exact Nat.le_add_right ..)

/-! ## What the map says -/

/-- The calls of all clients are in an order, those of each client in theirs, in which their
results are what the map says. -/
structure Explains (clients : Clients κ) (address : κ × Nat → Nat × Nat)
    (results : κ → List (Service.Result CChar)) (history : List ((κ × Nat) × Bool))
    (f : FileMap) : Prop where
  map : MapHistory (clients.asked address) .new history f
  nodup : (history.map Prod.fst).Nodup
  calls : ∀ k n, (k, n) ∈ history.map Prod.fst ↔ n < (clients k).length
  order : ∀ k n l₁ l₂, history.map Prod.fst = l₁ ++ (k, n) :: l₂ → ∀ n' < n, (k, n') ∈ l₁
  length : ∀ k, (results k).length = (clients k).length
  answers : ∀ k n ok, ((k, n), ok) ∈ history →
    (results k)[n]? = some (.answered (if ok then 1 else 0))

omit [DecidableEq κ] in
/-- A history explains one thing only. -/
theorem Explains.results_eq {results results' : κ → List (Service.Result CChar)}
    (h : Explains clients address results history f)
    (h' : Explains clients address results' history f) : results = results' := by
  refine funext fun k => List.ext_getElem? fun n => ?_
  by_cases hn : n < (clients k).length
  · obtain ⟨⟨r, ok⟩, hok, heq⟩ := List.mem_map.mp ((h.calls k n).mpr hn)
    obtain rfl : r = (k, n) := heq
    rw [h.answers k n ok hok, h'.answers k n ok hok]
  · rw [List.getElem?_eq_none (by rw [h.length]; exact Nat.le_of_not_lt hn),
      List.getElem?_eq_none (by rw [h'.length]; exact Nat.le_of_not_lt hn)]

omit [DecidableEq κ] in
theorem Explains.exists_answered {results : κ → List (Service.Result CChar)}
    (h : Explains clients address results history f) :
    ∀ k, ∀ x ∈ results k, ∃ a, x = .answered a := by
  intro k x hx
  obtain ⟨n, hn⟩ := List.mem_iff_getElem?.mp hx
  have hlt := (List.getElem?_eq_some_iff.mp hn).1
  obtain ⟨⟨r, ok⟩, hok, heq⟩ := List.mem_map.mp ((h.calls k n).mpr (h.length k ▸ hlt))
  obtain rfl : r = (k, n) := heq
  exact ⟨_, Option.some.inj (hn.symm.trans (h.answers k n ok hok))⟩

section New

variable {t : κ × Nat} {canOpen : List CChar → Bool} {file : List CChar → List CChar}
  (hnew : tfsFsNew.run (machine (κ × Nat)) t (Mem.zero canOpen file) = some (fs, m))
  (hproper : ∀ k, ∀ command, some command ∈ clients k → command.Proper)
  (hcalls : ∀ k, ∀ n < (clients k).length, ∃ c, clients.asked address (k, n) = some (.call c))

include hnew hproper hcalls

/-- What the clients of a server have been told is explained. -/
theorem exists_explains (h : ServerRun fs limit address clients.datagrams m tr s)
    (hcomplete : s.Complete clients.datagrams.sent)
    (hanswered : ∀ k, ∀ x ∈ s.results k, ∃ a, x = .answered a) :
    ∃ history, Explains clients address s.results history (treeMap s.mem.node) := by
  obtain ⟨history, hmap, hnodup, hmem, horder, hresults⟩ :=
    exists_history_of_answered hproper hnew h hcomplete hanswered
  have hmem' : ∀ k n, (k, n) ∈ history.map Prod.fst ↔ n < (clients k).length := fun k n => by
    rw [hmem]
    exact ⟨fun ⟨c, hc⟩ => lt_of_asked hc, hcalls k n⟩
  refine ⟨history, hmap, hnodup, hmem', fun k n l₁ l₂ hl n' hn' => ?_,
    fun k => by rw [hcomplete.ended, length_sent], fun k n => hresults (k, n)⟩
  have hn := (hmem' k n).mp (by rw [hl]; simp)
  exact horder k n' n l₁ l₂ hl hn' (hcalls k n' (hn'.trans hn))

variable (hC : ∀ r, clients.datagrams.Creates address r → r ∈ C)
  (hroom : C.card < fs.inodeTable.capacity) (hlimit : 0 < limit)

include hC hroom hlimit

omit hcalls in
/-- What is explained, the clients of a server can be told. -/
theorem exists_run_of_explains {results : κ → List (Service.Result CChar)}
    (h : Explains clients address results history f)
    (hmoved : ∀ r, clients.datagrams.Moves address r →
      (results r.1)[r.2]? = some (.answered 1)) (w : ω) :
    ∃ (tr : List (Service.Event κ)) (s : ServerState κ ω),
      ServerRun fs limit address clients.datagrams m tr s ∧
      s.Complete clients.datagrams.sent ∧ s.results = results ∧ treeMap s.mem.node = f := by
  have hmoved' : ∀ r c, (r, false) ∈ history → clients.asked address r = some (.call c) →
      ¬(Task.call c).Moves := by
    rintro r c hr hc ⟨origPath, destPath, access, hcall⟩
    have hmoves : clients.datagrams.Moves address r :=
      ⟨origPath, destPath, access, by rw [served_eq_asked hproper, hc, hcall]⟩
    have heq := (h.answers r.1 r.2 false hr).symm.trans (hmoved r hmoves)
    exact absurd (Service.Result.answered.inj (Option.some.inj heq)) (by decide)
  obtain ⟨tr, s, hrun, hs⟩ :=
    exists_hasMade hnew hproper hC hroom hlimit w h.map h.nodup h.order hmoved'
  have hended : ∀ k, (s.results k).length = (clients k).length := by
    refine fun k => eq_of_forall_lt_iff fun n => ?_
    rw [hs.begun, h.calls]
  have hexplains : Explains clients address s.results history f :=
    { h with length := hended, answers := hs.answers }
  exact ⟨tr, s, hrun, ⟨fun k => by rw [hended, length_sent], hs.resting.waiting,
    hs.resting.idle, hs.resting.queue, hs.resting.inbox⟩, hexplains.results_eq h, hs.map⟩

end New

/-! ## Two clients -/

theorem calls_sharingClients : ∀ k, ∀ n < (sharingClients k).length,
    ∃ c, sharingClients.asked (fun _ => (0, 0)) (k, n) = some (.call c)
  | true, 0, _ => ⟨_, rfl⟩
  | true, 1, _ => ⟨_, rfl⟩
  | true, n + 2, hn => absurd hn (Nat.not_lt_of_le (Nat.le_add_left 2 n))
  | false, 0, _ => ⟨_, rfl⟩
  | false, n + 1, hn => absurd hn (Nat.not_lt_of_le (Nat.le_add_left 1 n))

theorem answered_sharing {results : Bool → List (Service.Result CChar)}
    (htrue : results true = [.answered 1, .answered 1]) (hfalse : results false = [.answered 1])
    (k : Bool) : ∀ x ∈ results k, ∃ a, x = .answered a := by
  intro x hx
  cases k
  · rw [hfalse, List.mem_singleton] at hx
    exact ⟨1, hx⟩
  · rw [htrue, List.mem_cons, List.mem_singleton, or_self] at hx
    exact ⟨1, hx⟩

end TecnicoFs
