import TecnicoFs.Interleaving.Delivery
import Mathlib.Data.DFinsupp.WellFounded
import Mathlib.SetTheory.Ordinal.Rank
import Mathlib.Data.Prod.Lex
import Mathlib.Logic.Relation

/-!
# Services come to an end

Finitely many clients and workers cannot go on for ever: each step is one of the finitely
many that the clients make, or takes a request from the queue, or leaves a worker with less
of its program (`wellFounded_step`).

A service in which nothing can be done any more, but to give up on an answer, has answered
all calls, or each worker that is not done is at an action that is never answered
(`Places.complete_of_stuck`).
-/

namespace Interleaving

open Function Relation

variable {Op : Type} {Resp : Op → Type} {κ ω σ α D A : Type}

/-! ## Cycles -/

/-- In a finite set in which everything leads on there is a cycle. -/
theorem exists_transGen_self {β : Type*} {r : β → β → Prop} {p : β → Prop}
    (hfin : {b | p b}.Finite) (h : ∀ b, p b → ∃ c, p c ∧ r b c) (hp : ∃ b, p b) :
    ∃ b, TransGen r b b := by
  by_contra hno
  rw [not_exists] at hno
  have : Finite {b // p b} := hfin
  have hwf : WellFounded fun b c : {b // p b} => TransGen r c b := by
    have : IsTrans {b // p b} fun b c => TransGen r c b := ⟨fun _ _ _ h h' => h'.trans h⟩
    have : Std.Irrefl fun b c : {b // p b} => TransGen r c b := ⟨fun b => hno b⟩
    exact Finite.wellFounded_of_trans_of_irrefl _
  obtain ⟨b, hb⟩ := hp
  obtain ⟨⟨b, hb⟩, -, hmin⟩ := hwf.has_min Set.univ ⟨⟨b, hb⟩, trivial⟩
  obtain ⟨c, hc, hbc⟩ := h b hb
  exact hmin ⟨c, hc⟩ trivial (.single hbc)

/-! ## The measure -/

namespace Prog

/-- What is left of a program after its first action. -/
inductive Next : Prog Op Resp α → Prog Op Resp α → Prop where
  | act (o : Op) (k : Resp o → Prog Op Resp α) (x : Resp o) : Next (k x) (.act o k)

theorem wellFounded_next : WellFounded (Next : Prog Op Resp α → Prog Op Resp α → Prop) := by
  refine ⟨fun p => ?_⟩
  induction p with
  | ret a => exact ⟨_, fun q h => by cases h⟩
  | act o k ih =>
    refine ⟨_, fun q h => ?_⟩
    cases h with
    | act _ _ x => exact ih x

instance : IsWellFounded (Prog Op Resp α) Next := ⟨wellFounded_next⟩

end Prog

namespace Service

/-- How much a worker has left to do. -/
noncomputable def Worker.rank : Worker Op Resp κ α → Ordinal.{0}
  | .idle => 0
  | .running _ p => Order.succ (IsWellFounded.rank Prog.Next p)
  | .refusing _ => 1

/-- How much a client has left to do that is to make `total` calls. -/
def remaining (total done : Nat) (waiting : Bool) : Nat :=
  if done < total then 2 * (total - done) - waiting.toNat else waiting.toNat

/-- How much all clients and workers have left to do. -/
noncomputable def State.measure (script : κ → List (Option D)) (s : State Op Resp κ ω σ α D A) :
    (κ → Nat) × Nat × (ω → Ordinal.{0}) :=
  (fun k => remaining (script k).length (s.results k).length (s.waiting k), s.queue.length,
    fun w => (s.worker w).rank)

variable {M : Machine Op Resp (κ × Nat) σ} {S : Service Op Resp κ α D A}
  {script : κ → List (Option D)} {s s' : State Op Resp κ ω σ α D A} {e : Event κ}
  [DecidableEq κ] [DecidableEq ω]

omit [DecidableEq κ] [DecidableEq ω] in
/-- What has a request is a call. -/
theorem lt_of_request {k : κ} {d : D} (h : request script (s.current k) = some d) :
    (s.results k).length < (script k).length := by
  by_contra hge
  rw [request, State.current, List.getElem?_eq_none (Nat.le_of_not_lt hge)] at h
  cases h

omit [DecidableEq κ] [DecidableEq ω] in
theorem remaining_finish_lt {total done : Nat} (h : done < total) :
    remaining total (done + 1) false < remaining total done false := by
  simp only [remaining, if_pos h, Bool.toNat_false]
  split <;> omega

omit [DecidableEq κ] [DecidableEq ω] in
theorem remaining_send_lt {total done : Nat} (h : done < total) :
    remaining total done true < remaining total done false := by
  simp only [remaining, if_pos h, Bool.toNat_false, Bool.toNat_true]
  omega

omit [DecidableEq κ] [DecidableEq ω] in
theorem remaining_take_lt (total done : Nat) :
    remaining total (done + 1) false < remaining total done true := by
  simp only [remaining, Bool.toNat_false, Bool.toNat_true]
  split <;> split <;> omega

omit [DecidableEq ω] in
/-- A step of a client. -/
theorem measure_lt_of_client {k : κ} (hne : ∀ k', k' ≠ k →
      s'.results k' = s.results k' ∧ s'.waiting k' = s.waiting k')
    (hlt : remaining (script k).length (s'.results k).length (s'.waiting k) <
      remaining (script k).length (s.results k).length (s.waiting k)) :
    Prod.Lex (· < ·) (Prod.Lex (· < ·) (· < ·)) (s'.measure script) (s.measure script) := by
  refine Prod.Lex.left _ _ (Pi.lt_def.mpr ⟨fun k' => ?_, k, hlt⟩)
  by_cases hk : k' = k
  · exact hk ▸ hlt.le
  · show remaining _ (s'.results k').length (s'.waiting k') ≤ _
    rw [(hne k' hk).1, (hne k' hk).2]

omit [DecidableEq κ] in
/-- A step of a worker that takes no request. -/
theorem measure_lt_of_worker {w : ω} {x : Worker Op Resp κ α} (hresults : s'.results = s.results)
    (hwaiting : s'.waiting = s.waiting) (hqueue : s'.queue = s.queue)
    (hworker : s'.worker = update s.worker w x) (hlt : x.rank < (s.worker w).rank) :
    Prod.Lex (· < ·) (Prod.Lex (· < ·) (· < ·)) (s'.measure script) (s.measure script) := by
  rw [State.measure, State.measure, hresults, hwaiting, hqueue, hworker]
  refine Prod.Lex.right _ (Prod.Lex.right _ (Pi.lt_def.mpr ⟨fun w' => ?_, w, ?_⟩))
  · by_cases hw : w' = w
    · subst hw
      simpa using hlt.le
    · simp [hw]
  · simpa using hlt

/-- **Each step leaves less to do.** -/
theorem Step.measure_lt (h : Step M S script s e s') :
    Prod.Lex (· < ·) (Prod.Lex (· < ·) (· < ·)) (s'.measure script) (s.measure script) := by
  have hfinish : ∀ {k k' : κ} {x : Result A}, k' ≠ k →
      (s.finish k x).results k' = s.results k' ∧ (s.finish k x).waiting k' = s.waiting k' :=
    fun hk => ⟨State.finish_results_of_ne hk, update_of_ne hk ..⟩
  have hself : ∀ {k : κ} {x : Result A}, ((s.finish k x).results k).length =
      (s.results k).length + 1 ∧ (s.finish k x).waiting k = false := fun {k x} =>
    ⟨by rw [State.finish_results_self, List.length_append]; rfl, update_self ..⟩
  cases h with
  | @unsent k hw hlt =>
    refine measure_lt_of_client (k := k) (fun _ => hfinish) ?_
    rw [hself.1, hself.2, hw]
    exact remaining_finish_lt hlt
  | @send k d hw hd =>
    refine measure_lt_of_client (k := k) (fun k' hk => ⟨rfl, update_of_ne hk ..⟩) ?_
    show remaining _ _ (update s.waiting k true k) < _
    rw [update_self, hw]
    exact remaining_send_lt (lt_of_request hd)
  | receive hw hq =>
    refine Prod.Lex.right _ (Prod.Lex.left _ _ ?_)
    rw [hq]
    exact Nat.lt_succ_self _
  | @action w r o f x m hw he =>
    refine measure_lt_of_worker rfl rfl rfl rfl ?_
    rw [hw]
    exact Order.succ_lt_succ (IsWellFounded.rank_lt_of_rel (.act o f x))
  | respond hw =>
    refine measure_lt_of_worker rfl rfl rfl rfl ?_
    rw [hw]
    exact zero_le.trans_lt (Order.lt_succ _)
  | refuse hw =>
    refine measure_lt_of_worker rfl rfl rfl rfl ?_
    rw [hw]
    exact zero_lt_one
  | @take k n a inbox hw hi =>
    refine measure_lt_of_client (k := k) (fun _ => hfinish (x := .answered a)) ?_
    have h := @hself k (.answered a)
    show remaining _ ((s.finish k (.answered a)).results k).length
      ((s.finish k (.answered a)).waiting k) < _
    rw [h.1, h.2, hw]
    exact remaining_take_lt _ _
  | @lose k hw =>
    refine measure_lt_of_client (k := k) (fun _ => hfinish) ?_
    rw [hself.1, hself.2, hw]
    exact remaining_take_lt _ _

variable (M S script) in
/-- **Finitely many clients and workers cannot go on for ever.** -/
theorem wellFounded_step [Finite κ] [Finite ω] :
    WellFounded fun s' s : State Op Resp κ ω σ α D A => ∃ e, Step M S script s e s' := by
  refine Subrelation.wf (r := InvImage _ (State.measure script)) (fun ⟨e, h⟩ => h.measure_lt)
    (InvImage.wf _ (WellFounded.prod_lex wellFounded_lt
      (WellFounded.prod_lex wellFounded_lt wellFounded_lt)))

/-- A run goes on with events of a kind until no event of that kind is possible. -/
theorem Run.exists_stuck [Finite κ] [Finite ω] (P : Event κ → Prop)
    {s₀ : State Op Resp κ ω σ α D A} {tr : List (Event κ)} (h : Run M S script s₀ tr s) :
    ∃ tr' s', Run M S script s₀ (tr ++ tr') s' ∧ (∀ e ∈ tr', P e) ∧
      ∀ e s'', Step M S script s' e s'' → ¬P e := by
  have hwf : WellFounded fun s' s : State Op Resp κ ω σ α D A => ∃ e, Step M S script s e s' :=
    wellFounded_step M S script
  induction s using hwf.induction generalizing tr with
  | _ s ih =>
    by_cases hstuck : ∀ e s'', Step M S script s e s'' → ¬P e
    · exact ⟨[], s, by rwa [List.append_nil], by simp, hstuck⟩
    · push Not at hstuck
      obtain ⟨e, s₁, hs, he⟩ := hstuck
      obtain ⟨tr', s', hrun, hall, hstuck⟩ := ih s₁ ⟨e, hs⟩ (h.snoc hs)
      rw [List.append_assoc] at hrun
      exact ⟨e :: tr', s', hrun, List.forall_mem_cons.mpr ⟨he, hall⟩, hstuck⟩

/-! ## The end -/

/-- No client makes more calls than it has. -/
theorem Run.begun_le {m : σ} {tr : List (Event κ)} (h : Run M S script (.start m) tr s) (k : κ) :
    s.begun k ≤ (script k).length := by
  induction h with
  | nil => exact Nat.zero_le _
  | @snoc tr s s' e _ hs ih =>
    cases hs with
    | @unsent k' hw hlt' =>
      by_cases hk : k = k'
      · subst hk
        rw [State.begun_finish_self]
        exact hlt'
      · rwa [State.begun_finish_of_ne hk]
    | @send k' d hw hd =>
      by_cases hk : k = k'
      · subst hk
        rw [State.begun_of_waiting (update_self ..)]
        exact lt_of_request hd
      · simpa [State.begun, update_of_ne hk] using ih
    | @take k' n a inbox hw hi => exact (State.begun_finish hw k).trans_le ih
    | @lose k' hw => exact (State.begun_finish hw k).trans_le ih
    | receive => exact ih
    | action => exact ih
    | respond => exact ih
    | refuse => exact ih

variable (M S script) in
/-- Nothing can be done any more, but to give up on an answer. -/
def State.Stuck (s : State Op Resp κ ω σ α D A) : Prop :=
  ∀ e s', Step M S script s e s' → ∃ r, e = .lose r

/-- A run without lost answers goes on, without any, to where nothing can be done any more. -/
theorem Run.exists_rest [Finite κ] [Finite ω] {s₀ : State Op Resp κ ω σ α D A}
    {tr : List (Event κ)} (h : Run M S script s₀ tr s) (hlose : ∀ r, .lose r ∉ tr) :
    ∃ tr' s', Run M S script s₀ (tr ++ tr') s' ∧ (∀ r, .lose r ∉ tr ++ tr') ∧
      s'.Stuck M S script := by
  obtain ⟨tr', s', hrun, hall, hstuck⟩ := h.exists_stuck fun e => ∀ r, e ≠ .lose r
  refine ⟨tr', s', hrun, fun r hr => ?_, fun e s'' hs => by simpa using hstuck e s'' hs⟩
  exact (List.mem_append.mp hr).elim (hlose r) fun hr => hall _ hr r rfl

theorem State.stuck_of_next
    (h : ∀ turn, (∀ k, turn ≠ .lose k) → s.next M S script turn = none) : s.Stuck M S script := by
  intro e s' hs
  obtain ⟨turn, hnext, hlose⟩ := hs.exists_next
  by_contra hne
  have hturn : ∀ k, turn ≠ .lose k := fun k hk => hne ⟨_, hlose k hk⟩
  rw [h turn hturn] at hnext
  cases hnext

variable (script) in
/-- All calls are over, and nothing is under way. -/
structure State.Complete (s : State Op Resp κ ω σ α D A) : Prop where
  ended : ∀ k, (s.results k).length = (script k).length
  waiting : ∀ k, s.waiting k = false
  idle : ∀ w, s.worker w = .idle
  queue : s.queue = []
  inbox : ∀ k, s.inbox k = []

section Stuck

variable {stage : κ × Nat → Stage ω} {k : κ} {w : ω}

omit [DecidableEq κ] [DecidableEq ω] in
/-- All answers of a client that does not wait were taken, if it lost none. -/
theorem Places.inbox_eq_nil (h : Places script s stage) (hm : s.Matched k)
    (hw : s.waiting k = false) : s.inbox k = [] := by
  rw [List.eq_nil_iff_forall_not_mem]
  rintro ⟨n, a⟩ hmem
  have hstage := (h.delivered (k, n)).mp (List.mem_map_of_mem hmem)
  by_cases hn : n < (s.results k).length
  · rw [h.ended k hm n hn] at hstage
    cases hstage
  · rw [(h.new (k, n)).mpr (by rw [State.begun_of_not_waiting hw]; exact Nat.le_of_not_lt hn)]
      at hstage
    cases hstage

variable (hstuck : s.Stuck M S script) (h : Places script s stage) (hm : ∀ k, s.Matched k)

include hstuck

/-- A client that waits has nothing to take. -/
theorem State.Stuck.inbox_eq_nil (hw : s.waiting k = true) : s.inbox k = [] := by
  cases hi : s.inbox k with
  | nil => rfl
  | cons x inbox =>
    obtain ⟨r, hr⟩ := hstuck _ _ (.take (n := x.1) (a := x.2) hw hi)
    cases hr

include h hm

/-- **A worker that cannot go on** has nothing to do, or is at an action that is not
answered. -/
theorem Places.worker_of_stuck (hlimit : 0 < S.limit) (w : ω) : s.worker w = .idle ∨
    ∃ r o f, s.worker w = .running r (.act o f) ∧ M.exec r o s.mem = none := by
  have hroom : ∀ k, (s.inbox k).length < S.limit := by
    intro k
    cases hw : s.waiting k with
    | true =>
      rw [hstuck.inbox_eq_nil hw]
      exact hlimit
    | false =>
      rw [h.inbox_eq_nil (hm k) hw]
      exact hlimit
  cases hw : s.worker w with
  | idle => exact Or.inl rfl
  | refusing r =>
    obtain ⟨r', hr⟩ := hstuck _ _ (.refuse hw (hroom r.1))
    cases hr
  | running r p =>
    cases p with
    | ret a =>
      obtain ⟨r', hr⟩ := hstuck _ _ (.respond hw (hroom r.1))
      cases hr
    | act o f =>
      refine Or.inr ⟨r, o, f, rfl, ?_⟩
      cases he : M.exec r o s.mem with
      | none => rfl
      | some x =>
        obtain ⟨r', hr⟩ := hstuck _ _ (.action (x := x.1) (m := x.2) hw he)
        cases hr

/-- **When all workers have nothing to do, all calls are over.** -/
theorem Places.complete_of_idle [Nonempty ω] (hbegun : ∀ k, s.begun k ≤ (script k).length)
    (hidle : ∀ w, s.worker w = .idle) : s.Complete script := by
  have hqueue : s.queue = [] := by
    cases hq : s.queue with
    | nil => rfl
    | cons x queue =>
      obtain ⟨w⟩ := ‹Nonempty ω›
      obtain ⟨r, hr⟩ := hstuck _ _ (.receive (r := x.1) (d := x.2) (hidle w) hq)
      cases hr
  have hwaiting : ∀ k, s.waiting k = false := by
    intro k
    by_contra hw
    rw [Bool.not_eq_false] at hw
    -- the call is nowhere
    have hlt : (s.results k).length < s.begun k := by
      rw [State.begun_of_waiting hw]
      exact Nat.lt_succ_self _
    cases hstage : stage (s.current k) with
    | new => exact absurd ((h.new _).mp hstage) (Nat.not_le_of_lt hlt)
    | queued =>
      have hmem := (h.queued _).mpr hstage
      rw [hqueue] at hmem
      cases hmem
    | served w =>
      have hcall := (h.served w _).mpr hstage
      rw [hidle w] at hcall
      cases hcall
    | delivered =>
      have hmem := (h.delivered _).mpr hstage
      rw [State.current, hstuck.inbox_eq_nil hw] at hmem
      cases hmem
    | ended => exact h.flight k (hm k) hw hstage
  refine ⟨fun k => ?_, hwaiting, hidle, hqueue, fun k => h.inbox_eq_nil (hm k) (hwaiting k)⟩
  refine Nat.le_antisymm (State.begun_of_not_waiting (hwaiting k) ▸ hbegun k) ?_
  by_contra hlt
  obtain ⟨r, hr⟩ := hstuck _ _ (.unsent (hwaiting k) (Nat.lt_of_not_le hlt))
  cases hr

/-- **What was sent is answered.**  A call whose request is not in the queue, and with which no
worker is busy, has its answer. -/
theorem Places.answered_of_stuck {m : σ} {tr : List (Event κ)}
    (hrun : Run M S script (.start m) tr s) {n : Nat} (hsent : .send (k, n) ∈ tr)
    (hqueued : stage (k, n) ≠ .queued) (hserved : ∀ w, stage (k, n) ≠ .served w) :
    ∃ a, (s.results k)[n]? = some (.answered a) := by
  obtain ⟨hlt, hunsent⟩ := hrun.begun_of_send hsent
  have hn : n < (s.results k).length := by
    by_contra hn
    have hw : s.waiting k = true := by
      by_contra hw
      rw [State.begun_of_not_waiting (Bool.eq_false_of_not_eq_true hw)] at hlt
      exact hn hlt
    rw [State.begun_of_waiting hw] at hlt
    have hcurrent : (k, n) = s.current k := congrArg (Prod.mk k) (by omega)
    -- the call is nowhere
    cases hstage : stage (k, n) with
    | new =>
      have hle := (h.new _).mp hstage
      rw [State.begun_of_waiting hw] at hle
      exact absurd hlt (Nat.not_lt_of_le hle)
    | queued => exact hqueued hstage
    | served w => exact hserved w hstage
    | delivered =>
      have hmem := (h.delivered _).mpr hstage
      rw [hstuck.inbox_eq_nil hw] at hmem
      cases hmem
    | ended => exact h.flight k (hm k) hw (hcurrent ▸ hstage)
  obtain ⟨x, hx⟩ : ∃ x, (s.results k)[n]? = some x := ⟨_, List.getElem?_eq_getElem hn⟩
  cases x with
  | unsent => exact absurd hx hunsent
  | lost => exact absurd (List.mem_of_getElem? hx) (hm k)
  | answered a => exact ⟨a, hx⟩

end Stuck

end Service

end Interleaving
