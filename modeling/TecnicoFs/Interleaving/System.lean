import TecnicoFs.Interleaving.Program

/-!
# Interleavings of programs

Every thread of a family runs one program.  A thread waits until it is invoked, performs
the actions of its program one at a time, and returns.  A run interleaves the steps of
all threads in any order; the trace of a run keeps what an observer sees of it, the
invocations, the actions and the returns, oldest first.
-/

namespace Interleaving

open Function

variable {Op : Type} {Resp : Op → Type} {ι σ α : Type}

/-- Where a thread is. -/
inductive Thread (Op : Type) (Resp : Op → Type) (α : Type) : Type where
  /-- Not invoked yet. -/
  | waiting : Thread Op Resp α
  /-- Invoked; the program is what is left to do. -/
  | running (p : Prog Op Resp α) : Thread Op Resp α
  | returned (a : α) : Thread Op Resp α

/-- The shared memory together with all threads. -/
structure Config (Op : Type) (Resp : Op → Type) (ι σ α : Type) where
  mem : σ
  thread : ι → Thread Op Resp α

/-- What a step of the system is seen as. -/
inductive Event (ι : Type) : Type where
  | invoke (t : ι) : Event ι
  | action (t : ι) : Event ι
  | respond (t : ι) : Event ι
  deriving DecidableEq

/-- The thread that takes the step. -/
def Event.thread : Event ι → ι
  | .invoke t => t
  | .action t => t
  | .respond t => t

/-- No thread has been invoked. -/
def Config.initial (s : σ) : Config Op Resp ι σ α := ⟨s, fun _ => .waiting⟩

variable [DecidableEq ι]

/-- The configuration after thread `t` moved to `x` and the memory became `s`. -/
def Config.set (c : Config Op Resp ι σ α) (t : ι) (s : σ) (x : Thread Op Resp α) :
    Config Op Resp ι σ α :=
  ⟨s, update c.thread t x⟩

@[simp] theorem Config.set_mem (c : Config Op Resp ι σ α) (t : ι) (s : σ)
    (x : Thread Op Resp α) : (c.set t s x).mem = s := rfl

@[simp] theorem Config.set_thread_self (c : Config Op Resp ι σ α) (t : ι) (s : σ)
    (x : Thread Op Resp α) : (c.set t s x).thread t = x := update_self ..

theorem Config.set_thread_of_ne (c : Config Op Resp ι σ α) {t u : ι} (h : u ≠ t) (s : σ)
    (x : Thread Op Resp α) : (c.set t s x).thread u = c.thread u := update_of_ne h ..

variable (M : Machine Op Resp ι σ) (prog : ι → Prog Op Resp α)

/-- One step of the system. -/
inductive Step : Config Op Resp ι σ α → Event ι → Config Op Resp ι σ α → Prop where
  | invoke {c : Config Op Resp ι σ α} {t : ι} (h : c.thread t = .waiting) :
      Step c (.invoke t) (c.set t c.mem (.running (prog t)))
  | action {c : Config Op Resp ι σ α} {t : ι} {o : Op} {k : Resp o → Prog Op Resp α}
      {r : Resp o} {s : σ} (h : c.thread t = .running (.act o k))
      (he : M.exec t o c.mem = some (r, s)) :
      Step c (.action t) (c.set t s (.running (k r)))
  | respond {c : Config Op Resp ι σ α} {t : ι} {a : α}
      (h : c.thread t = .running (.ret a)) :
      Step c (.respond t) (c.set t c.mem (.returned a))

/-- The runs from a configuration, with their traces. -/
inductive Run (c₀ : Config Op Resp ι σ α) : List (Event ι) → Config Op Resp ι σ α → Prop where
  | nil : Run c₀ [] c₀
  | snoc {tr : List (Event ι)} {c c' : Config Op Resp ι σ α} {e : Event ι}
      (h : Run c₀ tr c) (hs : Step M prog c e c') : Run c₀ (tr ++ [e]) c'

/-- The part of a run in which all configurations have the property `P`. -/
inductive RunWhile (P : Config Op Resp ι σ α → Prop) (c₀ : Config Op Resp ι σ α) :
    Config Op Resp ι σ α → Prop where
  | nil (h : P c₀) : RunWhile P c₀ c₀
  | snoc {c c' : Config Op Resp ι σ α} {e : Event ι} (h : RunWhile P c₀ c)
      (hs : Step M prog c e c') (h' : P c') : RunWhile P c₀ c'

/-- The runs in which every step meets a condition on the configuration before it. -/
inductive RunBy (cond : Config Op Resp ι σ α → Event ι → Prop) (c₀ : Config Op Resp ι σ α) :
    List (Event ι) → Config Op Resp ι σ α → Prop where
  | nil : RunBy cond c₀ [] c₀
  | snoc {tr : List (Event ι)} {c c' : Config Op Resp ι σ α} {e : Event ι}
      (h : RunBy cond c₀ tr c) (hs : Step M prog c e c') (hc : cond c e) :
      RunBy cond c₀ (tr ++ [e]) c'

/-- Thread `t` is about to perform `o`. -/
def Config.At (c : Config Op Resp ι σ α) (t : ι) (o : Op) : Prop :=
  ∃ k, c.thread t = .running (.act o k)

omit [DecidableEq ι] in
theorem Config.At.eq {c : Config Op Resp ι σ α} {t : ι} {o o' : Op} (h : c.At t o)
    (h' : c.At t o') : o = o' := by
  obtain ⟨k, hk⟩ := h
  obtain ⟨k', hk'⟩ := h'
  rw [hk, Thread.running.injEq, Prog.act.injEq] at hk'
  exact hk'.1

/-- In the trace, `t` responded before `u` was invoked. -/
def Precedes (tr : List (Event ι)) (t u : ι) : Prop :=
  ∃ tr₁ tr₂, tr = tr₁ ++ .invoke u :: tr₂ ∧ .respond t ∈ tr₁

omit [DecidableEq ι] in
theorem Precedes.of_snoc {tr : List (Event ι)} {e : Event ι} {t u : ι}
    (h : Precedes (tr ++ [e]) t u) :
    Precedes tr t u ∨ (e = .invoke u ∧ .respond t ∈ tr) := by
  obtain ⟨tr₁, tr₂, heq, hmem⟩ := h
  rcases List.eq_nil_or_concat tr₂ with rfl | ⟨tr₃, e', rfl⟩
  · obtain ⟨h₁, h₂⟩ := List.append_inj' heq rfl
    exact Or.inr ⟨by simpa using h₂, h₁ ▸ hmem⟩
  · have heq' : tr ++ [e] = (tr₁ ++ .invoke u :: tr₃) ++ [e'] := by simpa using heq
    exact Or.inl ⟨tr₁, tr₃, (List.append_inj' heq' rfl).1, hmem⟩

variable {M prog}

/-- Such a part of a run prolongs a run. -/
theorem RunWhile.exists_run {c₀ c c' : Config Op Resp ι σ α} {P : Config Op Resp ι σ α → Prop}
    {tr : List (Event ι)} (h : RunWhile M prog P c c') (hrun : Run M prog c₀ tr c) :
    ∃ tr', Run M prog c₀ tr' c' := by
  induction h with
  | nil => exact ⟨tr, hrun⟩
  | snoc _ hs _ ih =>
    obtain ⟨tr', hrun'⟩ := ih
    exact ⟨_, hrun'.snoc hs⟩

theorem RunBy.run {c₀ c : Config Op Resp ι σ α}
    {cond : Config Op Resp ι σ α → Event ι → Prop} {tr : List (Event ι)}
    (h : RunBy M prog cond c₀ tr c) : Run M prog c₀ tr c := by
  induction h with
  | nil => exact .nil
  | snoc _ hs _ ih => exact ih.snoc hs

/-- A run in which the condition holds at each step. -/
theorem Run.runBy {c₀ c : Config Op Resp ι σ α}
    {cond : Config Op Resp ι σ α → Event ι → Prop} {tr : List (Event ι)} (h : Run M prog c₀ tr c)
    (hcond : ∀ tr₁ e tr₂ c₁, tr = tr₁ ++ e :: tr₂ → Run M prog c₀ tr₁ c₁ → cond c₁ e) :
    RunBy M prog cond c₀ tr c := by
  induction h with
  | nil => exact .nil
  | @snoc tr c c' e h hs ih =>
    refine .snoc (ih fun tr₁ e' tr₂ c₁ heq => hcond tr₁ e' (tr₂ ++ [e]) c₁ ?_) hs
      (hcond tr e [] c rfl h)
    rw [heq, List.append_assoc, List.cons_append]

theorem RunWhile.last {c c' : Config Op Resp ι σ α} {P : Config Op Resp ι σ α → Prop}
    (h : RunWhile M prog P c c') : P c' := by
  cases h with
  | nil h => exact h
  | snoc _ _ h => exact h

/-- The threads that have responded are those that have returned. -/
theorem Run.respond_mem_iff {s : σ} {tr : List (Event ι)} {c : Config Op Resp ι σ α}
    (h : Run M prog (.initial s) tr c) (t : ι) :
    .respond t ∈ tr ↔ ∃ a, c.thread t = .returned a := by
  induction h with
  | nil => simp [Config.initial]
  | @snoc tr c c' e h hs ih =>
    rw [List.mem_append, List.mem_singleton, ih]
    cases hs with
    | @invoke u hu =>
      by_cases htu : t = u
      · subst htu; simp [hu]
      · simp [c.set_thread_of_ne htu]
    | @action u o k r s' hu he =>
      by_cases htu : t = u
      · subst htu; simp [hu]
      · simp [c.set_thread_of_ne htu]
    | @respond u a hu =>
      by_cases htu : t = u
      · subst htu; simp
      · simp [c.set_thread_of_ne htu, htu]

/-- The threads that have been invoked are those that are not waiting. -/
theorem Run.invoke_mem_iff {s : σ} {tr : List (Event ι)} {c : Config Op Resp ι σ α}
    (h : Run M prog (.initial s) tr c) (t : ι) : .invoke t ∈ tr ↔ c.thread t ≠ .waiting := by
  induction h with
  | nil => simp [Config.initial]
  | @snoc tr c c' e h hs ih =>
    rw [List.mem_append, List.mem_singleton, ih]
    cases hs with
    | @invoke u hu =>
      by_cases htu : t = u
      · subst htu; simp
      · simp [c.set_thread_of_ne htu, htu]
    | @action u o k r s' hu he =>
      by_cases htu : t = u
      · subst htu; simp [hu]
      · simp [c.set_thread_of_ne htu]
    | @respond u a hu =>
      by_cases htu : t = u
      · subst htu; simp [hu]
      · simp [c.set_thread_of_ne htu]

/-- Before a step of a run there is a run up to it. -/
theorem Run.exists_of_append {c₀ c : Config Op Resp ι σ α} {tr₁ tr₂ : List (Event ι)} {e : Event ι}
    (h : Run M prog c₀ (tr₁ ++ e :: tr₂) c) :
    ∃ c₁ c₂, Run M prog c₀ tr₁ c₁ ∧ Step M prog c₁ e c₂ := by
  generalize htr : tr₁ ++ e :: tr₂ = tr at h
  induction h generalizing tr₂ with
  | nil => simp at htr
  | @snoc tr c c' e' h hs ih =>
    rcases List.eq_nil_or_concat tr₂ with rfl | ⟨tr₃, e₃, rfl⟩
    · obtain ⟨rfl, heq⟩ := List.append_inj' htr rfl
      exact ⟨c, c', h, List.singleton_inj.mp heq ▸ hs⟩
    · rw [List.concat_eq_append, ← List.cons_append, ← List.append_assoc] at htr
      exact ih (List.append_inj' htr rfl).1

/-- No thread is invoked twice. -/
theorem Run.invoke_notMem {s : σ} {c : Config Op Resp ι σ α} {tr₁ tr₂ : List (Event ι)} {t : ι}
    (h : Run M prog (.initial s) (tr₁ ++ .invoke t :: tr₂) c) : .invoke t ∉ tr₁ := by
  obtain ⟨c₁, c₂, hrun, hs⟩ := h.exists_of_append
  rw [hrun.invoke_mem_iff, not_not]
  cases hs with
  | invoke ht => exact ht

/-- What came before a thread was invoked came before everything after that. -/
theorem Run.respond_mem_of_precedes {s : σ} {c : Config Op Resp ι σ α} {tr₁ tr₂ : List (Event ι)}
    {t u : ι} (h : Run M prog (.initial s) (tr₁ ++ tr₂) c) (hbefore : Precedes (tr₁ ++ tr₂) t u)
    (hu : .invoke u ∈ tr₁) : .respond t ∈ tr₁ := by
  obtain ⟨l₁, l₂, heq, ht⟩ := hbefore
  rcases List.append_eq_append_iff.mp heq with ⟨l, rfl, -⟩ | ⟨l, rfl, -⟩
  · rw [heq] at h
    exact absurd (List.mem_append_left _ hu) h.invoke_notMem
  · exact List.mem_append_left _ ht

theorem Config.set_set (c : Config Op Resp ι σ α) (t : ι) (s s' : σ)
    (x y : Thread Op Resp α) : (c.set t s x).set t s' y = c.set t s' y := by
  rw [Config.set, Config.set, update_idem, Config.set]

/-- A thread that runs its program without interference prolongs a run. -/
theorem Run.exists_alone {c₀ c : Config Op Resp ι σ α} {tr : List (Event ι)}
    (hrun : Run M prog c₀ tr c) {t : ι} (ht : c.thread t = .waiting) {a : α} {s : σ}
    (halone : (prog t).run M t c.mem = some (a, s)) :
    ∃ tr', Run M prog c₀ tr' (c.set t s (.returned a)) := by
  have key : ∀ (p : Prog Op Resp α) (tr : List (Event ι)) (s₀ : σ),
      Run M prog c₀ tr (c.set t s₀ (.running p)) → p.run M t s₀ = some (a, s) →
      ∃ tr', Run M prog c₀ tr' (c.set t s (.returned a)) := by
    intro p
    induction p with
    | ret b =>
      intro tr s₀ hrun hret
      obtain ⟨rfl, rfl⟩ := Prod.mk.inj (Option.some.inj hret)
      have hstep := hrun.snoc (Step.respond (Config.set_thread_self ..))
      rw [Config.set_mem, Config.set_set] at hstep
      exact ⟨_, hstep⟩
    | act o k ih =>
      intro tr s₀ hrun hact
      obtain ⟨r, s₁, hexec, hact⟩ := Prog.exists_of_run_act hact
      have hstep := hrun.snoc (Step.action (Config.set_thread_self ..) hexec)
      rw [Config.set_set] at hstep
      exact ih r _ s₁ hstep hact
  exact key (prog t) _ c.mem (hrun.snoc (.invoke ht)) halone

/-! ## Schedules -/

variable (M prog)

/-- The next step of thread `t`, if it can be taken. -/
def Config.next (c : Config Op Resp ι σ α) (t : ι) : Option (Config Op Resp ι σ α) :=
  match c.thread t with
  | .waiting => some (c.set t c.mem (.running (prog t)))
  | .running (.act o k) =>
      match M.exec t o c.mem with
      | none => none
      | some (r, s) => some (c.set t s (.running (k r)))
  | .running (.ret a) => some (c.set t c.mem (.returned a))
  | .returned _ => none

/-- The configuration after the threads have taken one step each, in this order. -/
def Config.after (c : Config Op Resp ι σ α) : List ι → Option (Config Op Resp ι σ α)
  | [] => some c
  | t :: ts => (c.next M prog t).bind fun c' => c'.after ts

omit [DecidableEq ι] in
/-- The action that thread `t` is about to perform. -/
def Config.op (c : Config Op Resp ι σ α) (t : ι) : Option Op :=
  match c.thread t with
  | .running (.act o _) => some o
  | _ => none

omit [DecidableEq ι] in
/-- What thread `t` has returned. -/
def Config.result (c : Config Op Resp ι σ α) (t : ι) : Option α :=
  match c.thread t with
  | .returned a => some a
  | _ => none

variable {M prog}

omit [DecidableEq ι] in
theorem Config.thread_of_result {c : Config Op Resp ι σ α} {t : ι} {a : α}
    (h : c.result t = some a) : c.thread t = .returned a := by
  unfold Config.result at h
  split at h
  · rename_i b hthread
    obtain rfl := Option.some.inj h
    exact hthread
  · cases h

omit [DecidableEq ι] in
theorem Config.at_of_op {c : Config Op Resp ι σ α} {t : ι} {o : Op} (h : c.op t = some o) :
    c.At t o := by
  unfold Config.op at h
  split at h
  · rename_i o' k hthread
    obtain rfl := Option.some.inj h
    exact ⟨k, hthread⟩
  · cases h

theorem Config.exists_step_of_next {c c' : Config Op Resp ι σ α} {t : ι}
    (h : c.next M prog t = some c') : ∃ e, e.thread = t ∧ Step M prog c e c' := by
  unfold Config.next at h
  split at h
  · rename_i hthread
    exact ⟨.invoke t, rfl, Option.some.inj h ▸ Step.invoke hthread⟩
  · rename_i o k hthread
    split at h
    · cases h
    · rename_i r s hexec
      exact ⟨.action t, rfl, Option.some.inj h ▸ Step.action hthread hexec⟩
  · rename_i a hthread
    exact ⟨.respond t, rfl, Option.some.inj h ▸ Step.respond hthread⟩
  · cases h

/-- The event of the next step of a thread is its own. -/
theorem Config.next_of_step {c c' : Config Op Resp ι σ α} {e : Event ι}
    (hs : Step M prog c e c') : c.next M prog e.thread = some c' := by
  cases hs with
  | invoke ht => simp only [Event.thread, next, ht]
  | action ht he => simp only [Event.thread, next, ht, he]
  | respond ht => simp only [Event.thread, next, ht]

theorem Config.after_append (c : Config Op Resp ι σ α) (ts ts' : List ι) :
    c.after M prog (ts ++ ts') = (c.after M prog ts).bind fun c' => c'.after M prog ts' := by
  induction ts generalizing c with
  | nil => rfl
  | cons t ts ih =>
    rw [List.cons_append, after, after, Option.bind_assoc]
    exact congrArg _ (funext ih)

/-- **A run follows the schedule of its events.** -/
theorem Run.after_eq {c₀ c : Config Op Resp ι σ α} {tr : List (Event ι)}
    (hrun : Run M prog c₀ tr c) : c₀.after M prog (tr.map Event.thread) = some c := by
  induction hrun with
  | nil => rfl
  | @snoc tr c c' e _ hs ih =>
    rw [List.map_append, Config.after_append, ih, Option.bind_some, List.map_singleton,
      Config.after, Config.next_of_step hs]
    rfl

/-- A schedule that can be followed is a run. -/
theorem Run.exists_after {c₀ c c' : Config Op Resp ι σ α} {tr : List (Event ι)}
    (hrun : Run M prog c₀ tr c) {ts : List ι} (h : c.after M prog ts = some c') :
    ∃ tr', tr'.map Event.thread = ts ∧ Run M prog c₀ (tr ++ tr') c' := by
  induction ts generalizing c tr with
  | nil =>
    obtain rfl := Option.some.inj h
    exact ⟨[], rfl, by rwa [List.append_nil]⟩
  | cons t ts ih =>
    obtain ⟨c₁, hnext, hafter⟩ := Option.bind_eq_some_iff.mp h
    obtain ⟨e, rfl, hs⟩ := Config.exists_step_of_next hnext
    obtain ⟨tr', rfl, hrun'⟩ := ih (hrun.snoc hs) hafter
    exact ⟨e :: tr', rfl, by rwa [List.append_assoc] at hrun'⟩

variable (M prog)

/-- The configurations that a schedule leads through. -/
def Config.trail (c : Config Op Resp ι σ α) : List ι → List (Config Op Resp ι σ α)
  | [] => [c]
  | t :: ts =>
      c :: match c.next M prog t with
        | none => []
        | some c' => c'.trail ts

variable {M prog}

theorem Config.mem_trail {c c' : Config Op Resp ι σ α} {ts : List ι}
    (h : c.after M prog ts = some c') (ts' : List ι) : c' ∈ c.trail M prog (ts ++ ts') := by
  induction ts generalizing c with
  | nil =>
    obtain rfl := Option.some.inj h
    cases ts' with
    | nil => exact List.mem_singleton_self c
    | cons t ts' => exact List.mem_cons_self
  | cons t ts ih =>
    obtain ⟨c₁, hnext, h⟩ := Option.bind_eq_some_iff.mp h
    rw [List.cons_append, trail, hnext]
    exact List.mem_cons_of_mem _ (ih h)

end Interleaving
