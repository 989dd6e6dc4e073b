import TecnicoFs.Interleaving.Service
import Mathlib.Data.List.Nodup

/-!
# Where the requests and the answers are

At any time a call of a client is at one *stage*: its request or its answer is in one place,
and there once.  So no request is lost or taken twice, and a client that did not lose an
answer gets the answers to its own calls.

Each call has a thread, which is invoked when a worker takes the request and returns when
the worker answers.  What a worker has left to do for a call is what its thread has.
-/

namespace Interleaving

open Function

variable {Op : Type} {Resp : Op → Type} {κ ω σ α D A : Type}

namespace Service

/-- Where the request of a call is, or its answer. -/
inductive Stage (ω : Type) : Type where
  | new : Stage ω
  | queued : Stage ω
  | served (w : ω) : Stage ω
  | delivered : Stage ω
  | ended : Stage ω

variable (S : Service Op Resp κ α D A) (script : κ → List (Option D))

/-- What thread `r` returned makes `a` the answer to call `r`, or the request is refused. -/
def IsAnswer (c : Config Op Resp (κ × Nat) σ α) (r : κ × Nat) (a : A) : Prop :=
  (S.program script r = none ∧ a = S.refusal) ∨ ∃ x, c.thread r = .returned x ∧ a = S.answer x

/-- **Where everything is.** -/
structure Places (s : State Op Resp κ ω σ α D A) (stage : κ × Nat → Stage ω) : Prop where
  queue_nodup : (s.queue.map Prod.fst).Nodup
  queued : ∀ r, r ∈ s.queue.map Prod.fst ↔ stage r = .queued
  request : ∀ x ∈ s.queue, request script x.1 = some x.2
  served : ∀ w r, (s.worker w).call = some r ↔ stage r = .served w
  inbox_nodup : ∀ k, ((s.inbox k).map Prod.fst).Nodup
  delivered : ∀ r, r.2 ∈ (s.inbox r.1).map Prod.fst ↔ stage r = .delivered
  new : ∀ r, stage r = .new ↔ s.begun r.1 ≤ r.2
  ended : ∀ k, s.Matched k → ∀ n < (s.results k).length, stage (k, n) = .ended
  flight : ∀ k, s.Matched k → s.waiting k = true → stage (s.current k) ≠ .ended

/-- **The threads of all calls.** -/
structure Threads (s : State Op Resp κ ω σ α D A) (stage : κ × Nat → Stage ω)
    (c : Config Op Resp (κ × Nat) σ α) : Prop where
  mem : c.mem = s.mem
  running : ∀ w r p, s.worker w = .running r p →
    c.thread r = .running p ∧ S.program script r ≠ none
  refusing : ∀ w r, s.worker w = .refusing r → S.program script r = none
  fresh : ∀ r, stage r = .new ∨ stage r = .queued ∨ S.program script r = none →
    c.thread r = .waiting
  rest : ∀ r, (∀ w, stage r ≠ .served w) → c.thread r = .waiting ∨ ∃ x, c.thread r = .returned x
  inbox : ∀ k, ∀ x ∈ s.inbox k, S.IsAnswer script c (k, x.1) x.2
  results : ∀ k n a, (s.results k)[n]? = some (.answered a) → .lost ∉ (s.results k).take n →
    S.IsAnswer script c (k, n) a

/-- The step of the system of threads that goes with a step of the service. -/
def project : Event κ → Option (Interleaving.Event (κ × Nat))
  | .receive r => if (S.program script r).isSome then some (.invoke r) else none
  | .action r => some (.action r)
  | .respond r => if (S.program script r).isSome then some (.respond r) else none
  | _ => none

variable {S script}

/-! ## Places -/

section Stages

variable [DecidableEq κ] {stage : κ × Nat → Stage ω} {r r' : κ × Nat} {x y : Stage ω}

/-- What is at neither of two stages does not notice that a call goes from one to the other. -/
theorem update_stage_iff (hx : stage r ≠ y) (hy : x ≠ y) : update stage r x r' = y ↔
    stage r' = y := by
  by_cases hr : r' = r
  · subst hr
    rw [update_self]
    exact ⟨fun h => absurd h hy, fun h => absurd h hx⟩
  · rw [update_of_ne hr]

/-- The calls at the stage that a call goes to. -/
theorem update_stage_self_iff : update stage r x r' = x ↔ stage r' = x ∨ r' = r := by
  by_cases hr : r' = r
  · subst hr
    simp
  · simp [hr]

/-- The calls at the stage that a call comes from. -/
theorem update_stage_ne_iff (hx : x ≠ stage r) :
    update stage r x r' = stage r ↔ stage r' = stage r ∧ r' ≠ r := by
  by_cases hr : r' = r
  · subst hr
    simp [hx]
  · simp [hr]

end Stages

namespace State

variable [DecidableEq κ] {s : State Op Resp κ ω σ α D A} {k k' : κ} {x : Result A}

omit [DecidableEq κ] in
theorem begun_of_not_waiting (h : s.waiting k = false) : s.begun k = (s.results k).length := by
  simp [begun, h]

omit [DecidableEq κ] in
theorem begun_of_waiting (h : s.waiting k = true) : s.begun k = (s.results k).length + 1 := by
  simp [begun, h]

theorem finish_results_self : (s.finish k x).results k = s.results k ++ [x] := update_self ..

theorem finish_results_of_ne (h : k' ≠ k) : (s.finish k x).results k' = s.results k' :=
  update_of_ne h ..

theorem begun_finish_self : (s.finish k x).begun k = (s.results k).length + 1 := by
  simp [begun, finish]

theorem begun_finish_of_ne (h : k' ≠ k) : (s.finish k x).begun k' = s.begun k' := by
  simp [begun, finish, update_of_ne h]

/-- The end of a call that had begun is no new beginning. -/
theorem begun_finish (h : s.waiting k = true) (k' : κ) : (s.finish k x).begun k' = s.begun k' := by
  by_cases hk : k' = k
  · subst hk
    rw [begun_finish_self, begun_of_waiting h]
  · exact begun_finish_of_ne hk

/-- A client whose results are matched had matched results before its last call ended. -/
theorem Matched.of_finish (h : (s.finish k x).Matched k') : s.Matched k' := by
  intro hmem
  by_cases hk : k' = k
  · subst hk
    exact h (by rw [finish_results_self]; exact List.mem_append_left _ hmem)
  · exact h (by rwa [finish_results_of_ne hk])

end State

section Places

variable {s : State Op Resp κ ω σ α D A} {stage stage' : κ × Nat → Stage ω} {k : κ} {w : ω}
  {r : κ × Nat}

theorem Places.start (m : σ) :
    Places script (.start m : State Op Resp κ ω σ α D A) fun _ => .new where
  queue_nodup := List.nodup_nil
  queued r := by simp [State.start]
  request x hx := by cases hx
  served w r := by simp [State.start, Worker.call]
  inbox_nodup k := List.nodup_nil
  delivered r := by simp [State.start]
  new r := by simp [State.start, State.begun]
  ended k _ n hn := by cases hn
  flight k _ hk := by cases hk

/-- The call that a client is at has not begun if the client is not waiting. -/
theorem Places.current_new (h : Places script s stage) (hw : s.waiting k = false) :
    stage (s.current k) = .new :=
  (h.new _).mpr (Nat.le_of_eq (State.begun_of_not_waiting hw))

/-- A call that is neither new nor over is the current one of its client, if no answer was
lost. -/
theorem Places.eq_current_of_stage (h : Places script s stage) (hm : s.Matched k) {n : Nat}
    (hnew : stage (k, n) ≠ .new) (hended : stage (k, n) ≠ .ended) : (k, n) = s.current k := by
  have hge : (s.results k).length ≤ n := by
    by_contra hlt
    exact hended (h.ended k hm n (Nat.lt_of_not_le hlt))
  have hlt : n < s.begun k := by
    by_contra hle
    exact hnew ((h.new (k, n)).mpr (Nat.le_of_not_lt hle))
  have hle : s.begun k ≤ (s.results k).length + 1 := by
    rw [State.begun]
    split <;> omega
  exact congrArg (Prod.mk k) (by omega)

/-- The answer that a client can take is to its current call, if no answer was lost. -/
theorem Places.eq_current (h : Places script s stage) (hm : s.Matched k) {n : Nat}
    (hn : n ∈ (s.inbox k).map Prod.fst) : (k, n) = s.current k := by
  have hstage := (h.delivered (k, n)).mp hn
  exact h.eq_current_of_stage hm (fun hnew => by rw [hnew] at hstage; cases hstage)
    fun hended => by rw [hended] at hstage; cases hstage

/-- A worker is busy with the current call of a client, if no answer was lost. -/
theorem Places.eq_current_of_call (h : Places script s stage) (hm : s.Matched k) {n : Nat}
    (hcall : (s.worker w).call = some (k, n)) : (k, n) = s.current k := by
  have hstage := (h.served w (k, n)).mp hcall
  exact h.eq_current_of_stage hm (fun hnew => by rw [hnew] at hstage; cases hstage)
    fun hended => by rw [hended] at hstage; cases hstage

variable [DecidableEq κ]

/-- When a call begins, the next one is the first that has not. -/
theorem Places.new_of_begin (h : Places script s stage) (hw : s.waiting k = false)
    {s' : State Op Resp κ ω σ α D A} (hself : s'.begun k = (s.results k).length + 1)
    (hne : ∀ k', k' ≠ k → s'.begun k' = s.begun k') {x : Stage ω} (hx : x ≠ .new)
    (r : κ × Nat) : update stage (s.current k) x r = .new ↔ s'.begun r.1 ≤ r.2 := by
  by_cases hr : r = s.current k
  · subst hr
    rw [update_self]
    refine ⟨fun h => absurd h hx, fun h => ?_⟩
    change s'.begun k ≤ (s.results k).length at h
    omega
  · rw [update_of_ne hr, h.new]
    obtain ⟨k', n⟩ := r
    show s.begun k' ≤ n ↔ s'.begun k' ≤ n
    by_cases hk : k' = k
    · subst hk
      have hn : n ≠ (s.results k').length := fun hn => hr (by rw [hn]; rfl)
      rw [hself, State.begun_of_not_waiting hw]
      omega
    · rw [hne k' hk]

/-- A call of client `k` is over. -/
theorem Places.ended_finish (h : Places script s stage) {x : Result A}
    (hover : ∀ r, stage' r ≠ stage r → stage' r = .ended)
    (hcurrent : (s.finish k x).Matched k → stage' (s.current k) = .ended) (k' : κ)
    (hm : (s.finish k x).Matched k') (n : Nat) (hn : n < ((s.finish k x).results k').length) :
    stage' (k', n) = .ended := by
  by_contra hne
  have hstage : stage' (k', n) = stage (k', n) := by_contra fun hch => hne (hover _ hch)
  by_cases hk : k' = k
  · subst hk
    rw [State.finish_results_self, List.length_append, List.length_singleton] at hn
    rcases Nat.lt_succ_iff_lt_or_eq.mp hn with hn | rfl
    · exact hne (hstage.trans (h.ended k' hm.of_finish n hn))
    · exact hne (hcurrent hm)
  · rw [State.finish_results_of_ne hk] at hn
    exact hne (hstage.trans (h.ended k' hm.of_finish n hn))

/-- The other clients still wait. -/
theorem Places.flight_finish (h : Places script s stage) {x : Result A}
    (hsame : ∀ r, r.1 ≠ k → stage' r = stage r) (k' : κ) (hm : (s.finish k x).Matched k')
    (hw : (s.finish k x).waiting k' = true) : stage' ((s.finish k x).current k') ≠ .ended := by
  by_cases hk : k' = k
  · subst hk
    simp [State.finish] at hw
  · have hw' : s.waiting k' = true := by simpa [State.finish, update_of_ne hk] using hw
    rw [State.current, State.finish_results_of_ne hk, hsame _ hk]
    exact h.flight k' hm.of_finish hw'

theorem Places.unsent (h : Places script s stage) (hw : s.waiting k = false) :
    Places script (s.finish k .unsent) (update stage (s.current k) .ended) := by
  have hnew := h.current_new hw
  have hother : ∀ r (y : Stage ω), y ≠ .new → y ≠ .ended →
      (update stage (s.current k) .ended r = y ↔ stage r = y) := fun r y hy hy' =>
    update_stage_iff (hnew ▸ hy.symm) hy'.symm
  refine ⟨h.queue_nodup, fun r => ?_, h.request, fun w r => ?_, h.inbox_nodup, fun r => ?_,
    h.new_of_begin hw State.begun_finish_self (fun _ => State.begun_finish_of_ne) (by simp),
    h.ended_finish (fun r hr => ?_) (fun _ => update_self ..), h.flight_finish fun r hr => ?_⟩
  · exact (h.queued r).trans (hother r _ (by simp) (by simp)).symm
  · exact (h.served w r).trans (hother r _ (by simp) (by simp)).symm
  · exact (h.delivered r).trans (hother r _ (by simp) (by simp)).symm
  · by_contra hne
    refine hr (update_of_ne ?_ ..)
    rintro rfl
    exact hne (update_self ..)
  · refine update_of_ne ?_ ..
    rintro rfl
    exact hr rfl

theorem Places.send (h : Places script s stage) (hw : s.waiting k = false) {d : D}
    (hd : Service.request script (s.current k) = some d) :
    Places script
      { s with queue := s.queue ++ [(s.current k, d)], waiting := update s.waiting k true }
      (update stage (s.current k) .queued) := by
  have hnew := h.current_new hw
  have hother : ∀ r (y : Stage ω), y ≠ .new → y ≠ .queued →
      (update stage (s.current k) .queued r = y ↔ stage r = y) := fun r y hy hy' =>
    update_stage_iff (hnew ▸ hy.symm) hy'.symm
  have hnot : s.current k ∉ s.queue.map Prod.fst := by
    rw [h.queued, hnew]
    simp
  refine ⟨?_, fun r => ?_, fun x hx => ?_, fun w r => ?_, h.inbox_nodup, fun r => ?_,
    h.new_of_begin hw ?_ (fun k' hk => ?_) (by simp), fun k' hm n hn => ?_, fun k' hm hw' => ?_⟩
  · rw [List.map_append, List.nodup_append]
    refine ⟨h.queue_nodup, List.nodup_singleton _, ?_⟩
    rintro a ha b hb rfl
    rw [List.map_singleton, List.mem_singleton] at hb
    subst hb
    exact hnot ha
  · rw [update_stage_self_iff, List.map_append, List.mem_append, h.queued]
    simp
  · rcases List.mem_append.mp hx with hx | hx
    · exact h.request x hx
    · rw [List.mem_singleton.mp hx]
      exact hd
  · exact (h.served w r).trans (hother r _ (by simp) (by simp)).symm
  · exact (h.delivered r).trans (hother r _ (by simp) (by simp)).symm
  · simp [State.begun]
  · simp [State.begun, update_of_ne hk]
  · change n < (s.results k').length at hn
    have hne : (k', n) ≠ s.current k := by
      rintro heq
      obtain ⟨rfl, rfl⟩ := Prod.mk.inj heq
      exact Nat.lt_irrefl _ hn
    rw [update_of_ne hne]
    exact h.ended k' hm n hn
  · change update stage (s.current k) .queued (s.current k') ≠ .ended
    by_cases hk : k' = k
    · subst hk
      rw [update_self]
      simp
    · rw [update_of_ne (by simp [State.current, hk])]
      refine h.flight k' hm ?_
      simpa [update_of_ne hk] using hw'

theorem Places.lose (h : Places script s stage) (hw : s.waiting k = true) :
    Places script (s.finish k .lost) stage := by
  refine ⟨h.queue_nodup, h.queued, h.request, h.served, h.inbox_nodup, h.delivered, fun r => ?_,
    h.ended_finish (fun r hr => absurd rfl hr) fun hm => ?_, h.flight_finish fun r _ => rfl⟩
  · rw [h.new, State.begun_finish hw]
  · exact absurd (by rw [State.finish_results_self]; simp) hm

theorem Places.take (h : Places script s stage) (hw : s.waiting k = true) {n : Nat} {a : A}
    {inbox : List (Nat × A)} (hi : s.inbox k = (n, a) :: inbox) :
    Places script { s.finish k (.answered a) with inbox := update s.inbox k inbox }
      (update stage (k, n) .ended) := by
  have hstage : stage (k, n) = .delivered := (h.delivered (k, n)).mp (by simp [hi])
  have hother : ∀ r (y : Stage ω), y ≠ .delivered → y ≠ .ended →
      (update stage (k, n) .ended r = y ↔ stage r = y) := fun r y hy hy' =>
    update_stage_iff (hstage ▸ hy.symm) hy'.symm
  have hnodup := h.inbox_nodup k
  rw [hi, List.map_cons, List.nodup_cons] at hnodup
  refine ⟨h.queue_nodup, fun r => ?_, h.request, fun w r => ?_, fun k' => ?_, fun r => ?_,
    fun r => ?_, fun k' hm n' hn' => ?_, fun k' hm hw' => ?_⟩
  · exact (h.queued r).trans (hother r _ (by simp) (by simp)).symm
  · exact (h.served w r).trans (hother r _ (by simp) (by simp)).symm
  · show ((update s.inbox k inbox k').map Prod.fst).Nodup
    by_cases hk : k' = k
    · subst hk
      rw [update_self]
      exact hnodup.2
    · rw [update_of_ne hk]
      exact h.inbox_nodup k'
  · show r.2 ∈ (update s.inbox k inbox r.1).map Prod.fst ↔ _
    obtain ⟨k', n'⟩ := r
    rw [← hstage, update_stage_ne_iff (by rw [hstage]; simp), hstage, ← h.delivered]
    by_cases hk : k' = k
    · subst hk
      rw [update_self, hi, List.map_cons, List.mem_cons]
      constructor
      · intro hmem
        refine ⟨Or.inr hmem, fun heq => hnodup.1 ?_⟩
        rwa [← (Prod.mk.inj heq).2]
      · rintro ⟨heq | hmem, hne⟩
        · exact absurd (congrArg (Prod.mk k') heq) hne
        · exact hmem
    · rw [update_of_ne hk]
      simp [hk]
  · show update stage (k, n) .ended r = .new ↔ (s.finish k (.answered a)).begun r.1 ≤ r.2
    rw [hother r _ (by simp) (by simp), State.begun_finish hw, h.new]
  · refine h.ended_finish (x := .answered a) (fun r hr => ?_) (fun hm => ?_) k' hm n' hn'
    · by_contra hne
      refine hr (update_of_ne ?_ ..)
      rintro rfl
      exact hne (update_self ..)
    · rw [← h.eq_current (n := n) hm.of_finish (by simp [hi])]
      exact update_self ..
  · refine h.flight_finish (x := .answered a) (fun r hr => update_of_ne ?_ ..) k' hm hw'
    rintro rfl
    exact hr rfl

/-- A step of a worker leaves the clients alone. -/
theorem Places.of_worker (h : Places script s stage) {s' : State Op Resp κ ω σ α D A}
    {x : Stage ω} (hwaiting : s'.waiting = s.waiting) (hresults : s'.results = s.results)
    (hr : stage r ≠ .new ∧ stage r ≠ .ended) (hx : x ≠ .new ∧ x ≠ .ended)
    (hqueue_nodup : (s'.queue.map Prod.fst).Nodup)
    (hqueued : ∀ r', r' ∈ s'.queue.map Prod.fst ↔ update stage r x r' = .queued)
    (hrequest : ∀ x ∈ s'.queue, Service.request script x.1 = some x.2)
    (hserved : ∀ w r', (s'.worker w).call = some r' ↔ update stage r x r' = .served w)
    (hinbox_nodup : ∀ k, ((s'.inbox k).map Prod.fst).Nodup)
    (hdelivered : ∀ r', r'.2 ∈ (s'.inbox r'.1).map Prod.fst ↔
      update stage r x r' = .delivered) : Places script s' (update stage r x) where
  queue_nodup := hqueue_nodup
  queued := hqueued
  request := hrequest
  served := hserved
  inbox_nodup := hinbox_nodup
  delivered := hdelivered
  new r' := by
    rw [update_stage_iff hr.1 hx.1, h.new, State.begun, State.begun, hwaiting, hresults]
  ended k hm n hn := by
    rw [State.Matched, hresults] at hm
    rw [hresults] at hn
    exact (update_stage_iff hr.2 hx.2).mpr (h.ended k hm n hn)
  flight k hm hk := by
    rw [State.Matched, hresults] at hm
    rw [hwaiting] at hk
    rw [Ne, update_stage_iff hr.2 hx.2, State.current, hresults]
    exact h.flight k hm hk

variable [DecidableEq ω]

omit [DecidableEq κ] [DecidableEq ω] in
theorem call_start (d : D) : (S.start r d).call = some r := by
  unfold Service.start
  split
  · rfl
  · rfl

theorem Places.receive (h : Places script s stage) (hw : s.worker w = .idle) {d : D}
    {queue : List ((κ × Nat) × D)} (hq : s.queue = (r, d) :: queue) :
    Places script { s.setWorker w (S.start r d) with queue := queue }
      (update stage r (.served w)) := by
  have hstage : stage r = .queued := (h.queued r).mp (by simp [hq])
  have hnodup := h.queue_nodup
  rw [hq, List.map_cons, List.nodup_cons] at hnodup
  refine h.of_worker rfl rfl (by simp [hstage]) (by simp) hnodup.2 (fun r' => ?_) (fun x hx => ?_)
    (fun w' r' => ?_) h.inbox_nodup (fun r' => ?_)
  · rw [← hstage, update_stage_ne_iff (by rw [hstage]; simp), hstage, ← h.queued, hq,
      List.map_cons, List.mem_cons]
    constructor
    · exact fun hmem => ⟨Or.inr hmem, fun heq => hnodup.1 (heq ▸ hmem)⟩
    · rintro ⟨heq | hmem, hne⟩
      · exact absurd heq hne
      · exact hmem
  · exact h.request x (by rw [hq]; exact List.mem_cons_of_mem _ hx)
  · show (update s.worker w (S.start r d) w').call = some r' ↔ _
    by_cases hww : w' = w
    · subst hww
      rw [update_self, call_start, update_stage_self_iff, ← h.served, hw]
      simp [Worker.call, eq_comm]
    · rw [update_of_ne hww, h.served]
      exact (update_stage_iff (by simp [hstage]) (by simpa using Ne.symm hww)).symm
  · exact (h.delivered r').trans (update_stage_iff (by simp [hstage]) (by simp)).symm

omit [DecidableEq κ] in
theorem Places.action (h : Places script s stage) {p p' : Prog Op Resp α}
    (hw : s.worker w = .running r p) (m : σ) :
    Places script { s.setWorker w (.running r p') with mem := m } stage where
  queue_nodup := h.queue_nodup
  queued := h.queued
  request := h.request
  served w' r' := by
    rw [← h.served]
    show (update s.worker w (.running r p') w').call = some r' ↔ _
    by_cases hww : w' = w
    · subst hww
      rw [update_self, hw]
      rfl
    · rw [update_of_ne hww]
  inbox_nodup := h.inbox_nodup
  delivered := h.delivered
  new := h.new
  ended := h.ended
  flight := h.flight

theorem Places.deliver (h : Places script s stage) (hw : (s.worker w).call = some r) (a : A) :
    Places script ((s.setWorker w .idle).deliver r a) (update stage r .delivered) := by
  have hstage : stage r = .served w := (h.served w r).mp hw
  have hnot : r.2 ∉ (s.inbox r.1).map Prod.fst := by
    rw [h.delivered, hstage]
    simp
  refine h.of_worker rfl rfl (by simp [hstage]) (by simp) h.queue_nodup (fun r' => ?_) h.request
    (fun w' r' => ?_) (fun k => ?_) (fun r' => ?_)
  · exact (h.queued r').trans (update_stage_iff (by simp [hstage]) (by simp)).symm
  · show (update s.worker w .idle w').call = some r' ↔ _
    by_cases hww : w' = w
    · subst hww
      rw [update_self, ← hstage, update_stage_ne_iff (by rw [hstage]; simp), hstage, ← h.served, hw]
      simp [Worker.call, eq_comm]
    · rw [update_of_ne hww, h.served]
      exact (update_stage_iff (by simpa [hstage] using Ne.symm hww) (by simp)).symm
  · show ((update s.inbox r.1 (s.inbox r.1 ++ [(r.2, a)]) k).map Prod.fst).Nodup
    by_cases hk : k = r.1
    · subst hk
      rw [update_self, List.map_append, List.nodup_append]
      refine ⟨h.inbox_nodup _, List.nodup_singleton _, ?_⟩
      rintro n hn n' hn' rfl
      rw [List.map_singleton, List.mem_singleton] at hn'
      subst hn'
      exact hnot hn
    · rw [update_of_ne hk]
      exact h.inbox_nodup k
  · show r'.2 ∈ (update s.inbox r.1 (s.inbox r.1 ++ [(r.2, a)]) r'.1).map Prod.fst ↔ _
    rw [update_stage_self_iff, ← h.delivered]
    by_cases hk : r'.1 = r.1
    · rw [hk, update_self, List.map_append, List.mem_append, List.map_singleton,
        List.mem_singleton]
      simp [Prod.ext_iff, hk]
    · rw [update_of_ne hk]
      simp [Prod.ext_iff, hk]

end Places

/-! ## Threads -/

section Threads

variable {s : State Op Resp κ ω σ α D A} {stage : κ × Nat → Stage ω}
  {c c' : Config Op Resp (κ × Nat) σ α} {k : κ} {w : ω} {r r' : κ × Nat} {a : A}

/-- Answers stay answers. -/
theorem IsAnswer.mono (h : S.IsAnswer script c r a)
    (hc : ∀ x, c.thread r = .returned x → c'.thread r = .returned x) :
    S.IsAnswer script c' r a := by
  rcases h with h | ⟨x, hx, ha⟩
  · exact Or.inl h
  · exact Or.inr ⟨x, hc x hx, ha⟩

variable [DecidableEq κ]

/-- A step of a thread leaves the answers to all calls as they are. -/
theorem IsAnswer.set (h : S.IsAnswer script c r' a)
    (hr : ∀ x, c.thread r ≠ .returned x) (m : σ) (y : Thread Op Resp α) :
    S.IsAnswer script (c.set r m y) r' a := by
  refine h.mono fun x hx => ?_
  rw [c.set_thread_of_ne]
  · exact hx
  · rintro rfl
    exact hr x hx

omit [DecidableEq κ] in
theorem Threads.start (m : σ) : Threads S script
    (.start m : State Op Resp κ ω σ α D A) (fun _ => .new) (.initial m) where
  mem := rfl
  running w r p h := by cases h
  refusing w r h := by cases h
  fresh r _ := rfl
  rest r _ := Or.inl rfl
  inbox k x hx := by cases hx
  results k n a h := by simp [State.start] at h

/-- What a client knows after a call that ended in `x`. -/
theorem Threads.results_finish (h : Threads S script s stage c) {x : Result A}
    (hx : ∀ a, x = .answered a → s.Matched k → S.IsAnswer script c (s.current k) a) (k' : κ)
    (n : Nat) (a : A) (hn : ((s.finish k x).results k')[n]? = some (.answered a))
    (hlost : .lost ∉ ((s.finish k x).results k').take n) : S.IsAnswer script c (k', n) a := by
  by_cases hk : k' = k
  · subst hk
    rw [State.finish_results_self] at hn hlost
    rcases Nat.lt_trichotomy n (s.results k').length with hlt | rfl | hgt
    · rw [List.getElem?_append_left hlt] at hn
      rw [List.take_append_of_le_length (Nat.le_of_lt hlt)] at hlost
      exact h.results k' n a hn hlost
    · rw [List.getElem?_concat_length, Option.some.injEq] at hn
      rw [List.take_left] at hlost
      exact hx a hn hlost
    · rw [List.getElem?_eq_none (by simpa using Nat.succ_le_of_lt hgt)] at hn
      cases hn
  · rw [State.finish_results_of_ne hk] at hn hlost
    exact h.results k' n a hn hlost

/-- A step of a client leaves the threads alone. -/
theorem Threads.of_client (h : Threads S script s stage c) (s' : State Op Resp κ ω σ α D A)
    (hmem : s'.mem = s.mem) (hworker : s'.worker = s.worker)
    (hinbox : ∀ k, ∀ x ∈ s'.inbox k, x ∈ s.inbox k)
    (hresults : ∀ k n a, (s'.results k)[n]? = some (.answered a) → .lost ∉ (s'.results k).take n →
      S.IsAnswer script c (k, n) a) {x : Stage ω} (hserved : ∀ w, stage r ≠ .served w)
    (hx : x = .new ∨ x = .queued → stage r = .new) :
    Threads S script s' (update stage r x) c where
  mem := h.mem.trans hmem.symm
  running w r p hw := h.running w r p (by rwa [← hworker])
  refusing w r hw := h.refusing w r (by rwa [← hworker])
  fresh r' hr := by
    by_cases heq : r' = r
    · subst heq
      rw [update_self] at hr
      rcases hr with hr | hr | hr
      · exact h.fresh r' (Or.inl (hx (Or.inl hr)))
      · exact h.fresh r' (Or.inl (hx (Or.inr hr)))
      · exact h.fresh r' (Or.inr (Or.inr hr))
    · rw [update_of_ne heq] at hr
      exact h.fresh r' hr
  rest r' hr := by
    by_cases heq : r' = r
    · exact h.rest r' (heq ▸ hserved)
    · rw [update_of_ne heq] at hr
      exact h.rest r' hr
  inbox k x hx := h.inbox k x (hinbox k x hx)
  results := hresults

theorem Threads.unsent (h : Threads S script s stage c) (hnew : stage (s.current k) = .new) :
    Threads S script (s.finish k .unsent) (update stage (s.current k) .ended) c := by
  refine h.of_client (s.finish k .unsent) rfl rfl ?_ ?_ ?_ ?_
  · exact fun _ _ hx => hx
  · exact h.results_finish fun a ha => by cases ha
  · simp [hnew]
  · simp

theorem Threads.send (h : Threads S script s stage c) (hnew : stage (s.current k) = .new) (d : D) :
    Threads S script
      { s with queue := s.queue ++ [(s.current k, d)], waiting := update s.waiting k true }
      (update stage (s.current k) .queued) c := by
  refine h.of_client
    { s with queue := s.queue ++ [(s.current k, d)], waiting := update s.waiting k true } rfl rfl ?_
    h.results ?_ fun _ => hnew
  · exact fun _ _ hx => hx
  · simp [hnew]

theorem Threads.lose (h : Threads S script s stage c) :
    Threads S script (s.finish k .lost) stage c where
  mem := h.mem
  running := h.running
  refusing := h.refusing
  fresh := h.fresh
  rest := h.rest
  inbox := h.inbox
  results := h.results_finish fun a ha => by cases ha

theorem Threads.take (h : Threads S script s stage c) (hp : Places script s stage)
    (hw : s.waiting k = true) {n : Nat} {inbox : List (Nat × A)}
    (hi : s.inbox k = (n, a) :: inbox) :
    Threads S script { s.finish k (.answered a) with inbox := update s.inbox k inbox }
      (update stage (k, n) .ended) c := by
  have hstage : stage (k, n) = .delivered := (hp.delivered (k, n)).mp (by simp [hi])
  refine h.of_client { s.finish k (.answered a) with inbox := update s.inbox k inbox } rfl rfl
    (fun k' x hx => ?_) ?_ ?_ ?_
  · change x ∈ update s.inbox k inbox k' at hx
    by_cases hk : k' = k
    · subst hk
      rw [update_self] at hx
      rw [hi]
      exact List.mem_cons_of_mem _ hx
    · rwa [update_of_ne hk] at hx
  · refine h.results_finish fun b hb hm => ?_
    obtain rfl := Result.answered.inj hb
    rw [← hp.eq_current (n := n) hm (by simp [hi])]
    exact h.inbox k (n, a) (by simp [hi])
  · simp [hstage]
  · simp

variable [DecidableEq ω]

/-- **A worker takes a step for its call**: the call goes to stage `x`, and its thread to `y`. -/
theorem Threads.of_worker (h : Threads S script s stage c) (hp : Places script s stage)
    (s' : State Op Resp κ ω σ α D A) {m : σ} {v : Worker Op Resp κ α} {x : Stage ω}
    {y : Thread Op Resp α} (hmem : s'.mem = m) (hworker : s'.worker = update s.worker w v)
    (hresults : s'.results = s.results)
    (hother : ∀ w', w' ≠ w → stage r ≠ .served w') (hreturned : ∀ z, c.thread r ≠ .returned z)
    (hprogram : S.program script r ≠ none)
    (hv : ∀ r' p, v = .running r' p → r' = r ∧ y = .running p) (hv' : ∀ r', v ≠ .refusing r')
    (hx : x ≠ .new ∧ x ≠ .queued)
    (hy : (∀ w, x ≠ .served w) → ∃ z, y = .returned z)
    (hinbox : ∀ k, ∀ x ∈ s'.inbox k, x ∈ s.inbox k ∨
      (k, x.1) = r ∧ ∃ z, y = .returned z ∧ x.2 = S.answer z) :
    Threads S script s' (update stage r x) (c.set r m y) where
  mem := hmem.symm
  running w' r' p hw' := by
    rw [hworker] at hw'
    by_cases hww : w' = w
    · subst hww
      rw [update_self] at hw'
      obtain ⟨rfl, rfl⟩ := hv r' p hw'
      exact ⟨c.set_thread_self _ _ _, hprogram⟩
    · rw [update_of_ne hww] at hw'
      have hr : r' ≠ r := by
        rintro rfl
        exact hother w' hww ((hp.served w' r').mp (by rw [hw']; rfl))
      rw [c.set_thread_of_ne hr]
      exact h.running w' r' p hw'
  refusing w' r' hw' := by
    rw [hworker] at hw'
    by_cases hww : w' = w
    · subst hww
      rw [update_self] at hw'
      exact absurd hw' (hv' r')
    · rw [update_of_ne hww] at hw'
      exact h.refusing w' r' hw'
  fresh r' hr := by
    by_cases heq : r' = r
    · subst heq
      rw [update_self] at hr
      rcases hr with hr | hr | hr
      · exact absurd hr hx.1
      · exact absurd hr hx.2
      · exact absurd hr hprogram
    · rw [update_of_ne heq] at hr
      rw [c.set_thread_of_ne heq]
      exact h.fresh r' hr
  rest r' hr := by
    by_cases heq : r' = r
    · subst heq
      rw [update_self] at hr
      obtain ⟨z, rfl⟩ := hy hr
      exact Or.inr ⟨z, c.set_thread_self _ _ _⟩
    · rw [update_of_ne heq] at hr
      rw [c.set_thread_of_ne heq]
      exact h.rest r' hr
  inbox k x hx := by
    rcases hinbox k x hx with hx | ⟨rfl, z, rfl, hz⟩
    · exact (h.inbox k x hx).set hreturned m y
    · exact Or.inr ⟨z, c.set_thread_self _ _ _, hz⟩
  results k n a hn hlost := by
    rw [hresults] at hn hlost
    exact (h.results k n a hn hlost).set hreturned m y

/-- A worker takes a step for a call that is refused. -/
theorem Threads.of_refusal (h : Threads S script s stage c)
    (s' : State Op Resp κ ω σ α D A) {v : Worker Op Resp κ α} {x : Stage ω}
    (hmem : s'.mem = s.mem) (hworker : s'.worker = update s.worker w v)
    (hresults : s'.results = s.results) (hprogram : S.program script r = none)
    (hv : v = .idle ∨ v = .refusing r)
    (hinbox : ∀ k, ∀ x ∈ s'.inbox k, x ∈ s.inbox k ∨ (k, x.1) = r ∧ x.2 = S.refusal) :
    Threads S script s' (update stage r x) c := by
  have hwaiting : c.thread r = .waiting := h.fresh r (Or.inr (Or.inr hprogram))
  refine ⟨h.mem.trans hmem.symm, fun w' r' p hw' => ?_, fun w' r' hw' => ?_, fun r' hr => ?_,
    fun r' hr => ?_, fun k x hx => ?_, hresults ▸ h.results⟩
  · rw [hworker] at hw'
    by_cases hww : w' = w
    · subst hww
      rw [update_self] at hw'
      rcases hv with rfl | rfl
      · cases hw'
      · cases hw'
    · rw [update_of_ne hww] at hw'
      exact h.running w' r' p hw'
  · rw [hworker] at hw'
    by_cases hww : w' = w
    · subst hww
      rw [update_self] at hw'
      rcases hv with rfl | rfl
      · cases hw'
      · exact Worker.refusing.inj hw' ▸ hprogram
    · rw [update_of_ne hww] at hw'
      exact h.refusing w' r' hw'
  · by_cases heq : r' = r
    · exact heq ▸ hwaiting
    · rw [update_of_ne heq] at hr
      exact h.fresh r' hr
  · by_cases heq : r' = r
    · exact Or.inl (heq ▸ hwaiting)
    · rw [update_of_ne heq] at hr
      exact h.rest r' hr
  · rcases hinbox k x hx with hx | ⟨rfl, hx⟩
    · exact h.inbox k x hx
    · exact Or.inl ⟨hprogram, hx⟩

end Threads

end Service

end Interleaving
