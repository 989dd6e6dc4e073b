import TecnicoFs.Interleaving.System

/-!
# Services

Clients make calls, one after the other: a call sends a request to the socket of the
service and waits for an answer.  A pool of workers takes the requests from the socket in
the order in which they came.  For a request a worker runs a program on the memory that
all workers share, and then sends the answer to the socket of the client; or it refuses
the request.

A call is named by its client and its number.  Messages, workers and the actions of
programs carry these names, but no step of a client looks at them: a call takes whatever
answer comes first, and if an answer cannot be received, the next call may get it.
-/

namespace Interleaving

open Function

/-- What the workers of a service do with the requests of the clients `κ`. -/
structure Service (Op : Type) (Resp : Op → Type) (κ α D A : Type) where
  /-- What is run for the request of a call, unless it is refused. -/
  accept : κ × Nat → D → Option (Prog Op Resp α)
  /-- The answer after such a run. -/
  answer : α → A
  /-- The answer to a request that is refused. -/
  refusal : A
  /-- The number of messages that a socket holds. -/
  limit : Nat

variable {Op : Type} {Resp : Op → Type} {κ ω σ α D A : Type}

namespace Service

/-- How a call ended. -/
inductive Result (A : Type) : Type where
  /-- Nothing was sent. -/
  | unsent : Result A
  /-- A request was sent, and the answer could not be received. -/
  | lost : Result A
  | answered (a : A) : Result A
  deriving DecidableEq

/-- What a worker is at. -/
inductive Worker (Op : Type) (Resp : Op → Type) (κ α : Type) : Type where
  | idle : Worker Op Resp κ α
  | running (r : κ × Nat) (p : Prog Op Resp α) : Worker Op Resp κ α
  | refusing (r : κ × Nat) : Worker Op Resp κ α

/-- The call that a worker is busy with. -/
def Worker.call : Worker Op Resp κ α → Option (κ × Nat)
  | .idle => none
  | .running r _ => some r
  | .refusing r => some r

theorem Worker.call_eq_none_iff {x : Worker Op Resp κ α} : x.call = none ↔ x = .idle := by
  cases x <;> simp [call]

/-- The action that a worker does next, and the call that it is for. -/
def Worker.action : Worker Op Resp κ α → Option ((κ × Nat) × Op)
  | .running r (.act o _) => some (r, o)
  | _ => none

theorem Worker.action_eq_some_iff {x : Worker Op Resp κ α} {r : κ × Nat} {o : Op} :
    x.action = some (r, o) ↔ ∃ f, x = .running r (.act o f) := by
  refine ⟨fun h => ?_, fun ⟨f, h⟩ => h ▸ rfl⟩
  cases x with
  | idle => cases h
  | refusing => cases h
  | running r' p =>
    cases p with
    | ret => cases h
    | act o' f =>
      obtain ⟨rfl, rfl⟩ := Prod.mk.inj (Option.some.inj h)
      exact ⟨f, rfl⟩

theorem Worker.call_of_action {x : Worker Op Resp κ α} {r : κ × Nat} {o : Op}
    (h : x.action = some (r, o)) : x.call = some r := by
  obtain ⟨f, rfl⟩ := action_eq_some_iff.mp h
  rfl

/-- The memory, all messages under way, the workers and the clients. -/
structure State (Op : Type) (Resp : Op → Type) (κ ω σ α D A : Type) where
  mem : σ
  /-- The requests that no worker has taken, oldest first. -/
  queue : List ((κ × Nat) × D)
  worker : ω → Worker Op Resp κ α
  /-- The answers that a client has not received, oldest first. -/
  inbox : κ → List (Nat × A)
  /-- The client has sent a request and waits for an answer. -/
  waiting : κ → Bool
  /-- The calls of a client that are over, oldest first. -/
  results : κ → List (Result A)

/-- What a step of a service is seen as. -/
inductive Event (κ : Type) : Type where
  | unsent (r : κ × Nat) : Event κ
  | send (r : κ × Nat) : Event κ
  | receive (r : κ × Nat) : Event κ
  | action (r : κ × Nat) : Event κ
  | respond (r : κ × Nat) : Event κ
  | take (r : κ × Nat) : Event κ
  | lose (r : κ × Nat) : Event κ
  deriving DecidableEq

namespace State

/-- Nothing has been sent. -/
def start (m : σ) : State Op Resp κ ω σ α D A :=
  ⟨m, [], fun _ => .idle, fun _ => [], fun _ => false, fun _ => []⟩

/-- The number of calls that a client has begun. -/
def begun (s : State Op Resp κ ω σ α D A) (k : κ) : Nat :=
  (s.results k).length + if s.waiting k then 1 else 0

/-- The call that a client is at. -/
def current (s : State Op Resp κ ω σ α D A) (k : κ) : κ × Nat := (k, (s.results k).length)

/-- All answers that client `k` has received are those to the calls that took them, for all
that can be seen of its results. -/
def Matched (s : State Op Resp κ ω σ α D A) (k : κ) : Prop := .lost ∉ s.results k

variable [DecidableEq κ] [DecidableEq ω] (s : State Op Resp κ ω σ α D A)

/-- The current call of client `k` is over. -/
def finish (k : κ) (x : Result A) : State Op Resp κ ω σ α D A :=
  { s with
    waiting := update s.waiting k false
    results := update s.results k (s.results k ++ [x]) }

/-- Worker `w` goes on to `x`. -/
def setWorker (w : ω) (x : Worker Op Resp κ α) : State Op Resp κ ω σ α D A :=
  { s with worker := update s.worker w x }

/-- An answer to call `r` is sent. -/
def deliver (r : κ × Nat) (a : A) : State Op Resp κ ω σ α D A :=
  { s with inbox := update s.inbox r.1 (s.inbox r.1 ++ [(r.2, a)]) }

end State

variable (M : Machine Op Resp (κ × Nat) σ) (S : Service Op Resp κ α D A)
  (script : κ → List (Option D))

/-- What a worker does first with the request of a call. -/
def start (r : κ × Nat) (d : D) : Worker Op Resp κ α :=
  match S.accept r d with
  | some p => .running r p
  | none => .refusing r

/-- The request that a call sends, if there is such a call and it sends one. -/
def request (r : κ × Nat) : Option D := (script r.1)[r.2]?.join

/-- What is run for a call. -/
def program (r : κ × Nat) : Option (Prog Op Resp α) := (request script r).bind (S.accept r)

variable [DecidableEq κ] [DecidableEq ω]

/-- One step of a service.  A client makes the calls of its script; sending a request can
fail, and a call that has no request sends none. -/
inductive Step : State Op Resp κ ω σ α D A → Event κ → State Op Resp κ ω σ α D A → Prop where
  | unsent {s : State Op Resp κ ω σ α D A} {k : κ} (hw : s.waiting k = false)
      (hlt : (s.results k).length < (script k).length) :
      Step s (.unsent (s.current k)) (s.finish k .unsent)
  | send {s : State Op Resp κ ω σ α D A} {k : κ} {d : D} (hw : s.waiting k = false)
      (hd : request script (s.current k) = some d) (hroom : s.queue.length < S.limit) :
      Step s (.send (s.current k))
        { s with queue := s.queue ++ [(s.current k, d)], waiting := update s.waiting k true }
  | receive {s : State Op Resp κ ω σ α D A} {w : ω} {r : κ × Nat} {d : D}
      {queue : List ((κ × Nat) × D)} (hw : s.worker w = .idle) (hq : s.queue = (r, d) :: queue) :
      Step s (.receive r) { s.setWorker w (S.start r d) with queue := queue }
  | action {s : State Op Resp κ ω σ α D A} {w : ω} {r : κ × Nat} {o : Op}
      {f : Resp o → Prog Op Resp α} {x : Resp o} {m : σ} (hw : s.worker w = .running r (.act o f))
      (he : M.exec r o s.mem = some (x, m)) :
      Step s (.action r) { s.setWorker w (.running r (f x)) with mem := m }
  | respond {s : State Op Resp κ ω σ α D A} {w : ω} {r : κ × Nat} {a : α}
      (hw : s.worker w = .running r (.ret a)) (hroom : (s.inbox r.1).length < S.limit) :
      Step s (.respond r) ((s.setWorker w .idle).deliver r (S.answer a))
  | refuse {s : State Op Resp κ ω σ α D A} {w : ω} {r : κ × Nat} (hw : s.worker w = .refusing r)
      (hroom : (s.inbox r.1).length < S.limit) :
      Step s (.respond r) ((s.setWorker w .idle).deliver r S.refusal)
  | take {s : State Op Resp κ ω σ α D A} {k : κ} {n : Nat} {a : A} {inbox : List (Nat × A)}
      (hw : s.waiting k = true) (hi : s.inbox k = (n, a) :: inbox) :
      Step s (.take (s.current k))
        { s.finish k (.answered a) with inbox := update s.inbox k inbox }
  | lose {s : State Op Resp κ ω σ α D A} {k : κ} (hw : s.waiting k = true) :
      Step s (.lose (s.current k)) (s.finish k .lost)

/-- The runs of a service, with their traces. -/
inductive Run (s₀ : State Op Resp κ ω σ α D A) :
    List (Event κ) → State Op Resp κ ω σ α D A → Prop where
  | nil : Run s₀ [] s₀
  | snoc {tr : List (Event κ)} {s s' : State Op Resp κ ω σ α D A} {e : Event κ}
      (h : Run s₀ tr s) (hs : Step M S script s e s') : Run s₀ (tr ++ [e]) s'

/-! ## Schedules -/

/-- Who acts next. -/
inductive Turn (κ ω : Type) : Type where
  | send (k : κ) : Turn κ ω
  | unsent (k : κ) : Turn κ ω
  | worker (w : ω) : Turn κ ω
  | take (k : κ) : Turn κ ω
  | lose (k : κ) : Turn κ ω

/-- The next step of a worker, if it can be taken. -/
def State.work (s : State Op Resp κ ω σ α D A) (w : ω) : Option (State Op Resp κ ω σ α D A) :=
  match s.worker w with
  | .idle =>
      match s.queue with
      | [] => none
      | (r, d) :: queue => some { s.setWorker w (S.start r d) with queue := queue }
  | .running r (.act o f) =>
      match M.exec r o s.mem with
      | none => none
      | some (x, m) => some { s.setWorker w (.running r (f x)) with mem := m }
  | .running r (.ret a) =>
      if (s.inbox r.1).length < S.limit then some ((s.setWorker w .idle).deliver r (S.answer a))
      else none
  | .refusing r =>
      if (s.inbox r.1).length < S.limit then some ((s.setWorker w .idle).deliver r S.refusal)
      else none

/-- The step of that turn, if it can be taken. -/
def State.next (s : State Op Resp κ ω σ α D A) :
    Turn κ ω → Option (State Op Resp κ ω σ α D A)
  | .send k =>
      match request script (s.current k) with
      | none => none
      | some d =>
          if s.waiting k = false ∧ s.queue.length < S.limit then
            some
              { s with queue := s.queue ++ [(s.current k, d)], waiting := update s.waiting k true }
          else none
  | .unsent k =>
      if s.waiting k = false ∧ (s.results k).length < (script k).length then
        some (s.finish k .unsent)
      else none
  | .worker w => s.work M S w
  | .take k =>
      match s.inbox k with
      | [] => none
      | (_, a) :: inbox =>
          if s.waiting k = true then
            some { s.finish k (.answered a) with inbox := update s.inbox k inbox }
          else none
  | .lose k => if s.waiting k = true then some (s.finish k .lost) else none

/-- The state after these turns. -/
def State.after (s : State Op Resp κ ω σ α D A) :
    List (Turn κ ω) → Option (State Op Resp κ ω σ α D A)
  | [] => some s
  | turn :: turns => (s.next M S script turn).bind fun s' => s'.after turns

variable {M S script} {s s' : State Op Resp κ ω σ α D A}

theorem State.exists_step_of_work {w : ω} (h : s.work M S w = some s') :
    ∃ e, Step M S script s e s' := by
  unfold State.work at h
  split at h
  · rename_i hw
    split at h
    · cases h
    · rename_i r d queue hq
      exact ⟨_, Option.some.inj h ▸ Step.receive hw hq⟩
  · rename_i r o f hw
    split at h
    · cases h
    · rename_i x m he
      exact ⟨_, Option.some.inj h ▸ Step.action hw he⟩
  · rename_i r a hw
    split at h
    · rename_i hroom
      exact ⟨_, Option.some.inj h ▸ Step.respond hw hroom⟩
    · cases h
  · rename_i r hw
    split at h
    · rename_i hroom
      exact ⟨_, Option.some.inj h ▸ Step.refuse hw hroom⟩
    · cases h

theorem State.exists_step_of_next {turn : Turn κ ω} (h : s.next M S script turn = some s') :
    ∃ e, Step M S script s e s' := by
  cases turn with
  | send k =>
    rw [State.next] at h
    split at h
    · cases h
    · rename_i d hd
      split at h
      · rename_i hroom
        exact ⟨_, Option.some.inj h ▸ Step.send hroom.1 hd hroom.2⟩
      · cases h
  | unsent k =>
    rw [State.next] at h
    split at h
    · rename_i hlt
      exact ⟨_, Option.some.inj h ▸ Step.unsent hlt.1 hlt.2⟩
    · cases h
  | worker w => exact State.exists_step_of_work h
  | take k =>
    rw [State.next] at h
    split at h
    · cases h
    · rename_i n a inbox hi
      split at h
      · rename_i hw
        exact ⟨_, Option.some.inj h ▸ Step.take hw hi⟩
      · cases h
  | lose k =>
    rw [State.next] at h
    split at h
    · rename_i hw
      exact ⟨_, Option.some.inj h ▸ Step.lose hw⟩
    · cases h

theorem Run.append {s₀ : State Op Resp κ ω σ α D A} {tr tr' : List (Event κ)}
    (h : Run M S script s₀ tr s) (h' : Run M S script s tr' s') :
    Run M S script s₀ (tr ++ tr') s' := by
  induction h' with
  | nil => rwa [List.append_nil]
  | snoc _ hs ih =>
    rw [← List.append_assoc]
    exact ih.snoc hs

/-- Every step is that of a turn, and only a client that has its turn for it gives up. -/
theorem Step.exists_next {e : Event κ} (h : Step M S script s e s') :
    ∃ turn, s.next M S script turn = some s' ∧ ∀ k, turn = .lose k → e = .lose (s.current k) := by
  have hwork : ∀ w, s.work M S w = some s' →
      ∃ turn, s.next M S script turn = some s' ∧ ∀ k, turn = .lose k → e = .lose (s.current k) :=
    fun w h => ⟨.worker w, h, by simp⟩
  cases h with
  | @unsent k hw hlt => exact ⟨.unsent k, if_pos ⟨hw, hlt⟩, by simp⟩
  | @send k d hw hd hroom =>
    refine ⟨.send k, ?_, by simp⟩
    rw [State.next, hd]
    exact if_pos ⟨hw, hroom⟩
  | @receive w r d queue hw hq => exact hwork w (by rw [State.work, hw, hq])
  | @action w r o f x m hw he =>
    refine hwork w ?_
    rw [State.work, hw]
    simp only [he]
  | @respond w r a hw hroom =>
    refine hwork w ?_
    rw [State.work, hw]
    exact if_pos hroom
  | @refuse w r hw hroom =>
    refine hwork w ?_
    rw [State.work, hw]
    exact if_pos hroom
  | @take k n a inbox hw hi =>
    refine ⟨.take k, ?_, by simp⟩
    rw [State.next, hi]
    exact if_pos hw
  | @lose k hw =>
    refine ⟨.lose k, if_pos hw, fun k' h => ?_⟩
    obtain rfl := Turn.lose.inj h
    rfl

/-- **A schedule that can be followed prolongs a run.** -/
theorem Run.exists_after {s₀ : State Op Resp κ ω σ α D A} {tr : List (Event κ)}
    (h : Run M S script s₀ tr s) {turns : List (Turn κ ω)}
    (hturns : s.after M S script turns = some s') : ∃ tr', Run M S script s₀ tr' s' := by
  induction turns generalizing s tr with
  | nil =>
    obtain rfl := Option.some.inj hturns
    exact ⟨tr, h⟩
  | cons turn turns ih =>
    obtain ⟨s₁, hnext, hturns⟩ := Option.bind_eq_some_iff.mp hturns
    obtain ⟨e, hs⟩ := State.exists_step_of_next hnext
    exact ih (h.snoc hs) hturns

/-- A worker whose action is not answered stays where it is. -/
theorem Step.action_of_blocked (hs : Step M S script s e s') {w : ω} {r : κ × Nat} {o : Op}
    (hw : (s.worker w).action = some (r, o)) (hno : M.exec r o s.mem = none) :
    (s'.worker w).action = some (r, o) := by
  cases hs with
  | unsent => exact hw
  | send => exact hw
  | take => exact hw
  | lose => exact hw
  | @receive w' _ _ _ hidle =>
    have hne : w ≠ w' := fun heq => by
      rw [heq, hidle] at hw
      cases hw
    simpa [State.setWorker, update_of_ne hne] using hw
  | @action w' _ _ f _ _ hrun he =>
    have hne : w ≠ w' := fun heq => by
      rw [heq, hrun] at hw
      obtain ⟨rfl, rfl⟩ := Prod.mk.inj (Option.some.inj hw)
      rw [hno] at he
      cases he
    simpa [State.setWorker, update_of_ne hne] using hw
  | @respond w' _ _ hrun =>
    have hne : w ≠ w' := fun heq => by
      rw [heq, hrun] at hw
      cases hw
    simpa [State.setWorker, State.deliver, update_of_ne hne] using hw
  | @refuse w' _ hrun =>
    have hne : w ≠ w' := fun heq => by
      rw [heq, hrun] at hw
      cases hw
    simpa [State.setWorker, State.deliver, update_of_ne hne] using hw

/-- What is seen after a schedule is seen after a run. -/
theorem Run.exists_seen {s₀ : State Op Resp κ ω σ α D A} {tr : List (Event κ)}
    (h : Run M S script s₀ tr s) {turns : List (Turn κ ω)} {β : Type}
    {see : State Op Resp κ ω σ α D A → β} {b : β}
    (hsee : (s.after M S script turns).map see = some b) :
    ∃ tr' s', Run M S script s₀ tr' s' ∧ see s' = b := by
  obtain ⟨s', hs', hb⟩ := Option.map_eq_some_iff.mp hsee
  obtain ⟨tr', hrun⟩ := h.exists_after hs'
  exact ⟨tr', s', hrun, hb⟩

end Service

end Interleaving
