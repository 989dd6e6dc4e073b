import TecnicoFs.Interleaving.System

/-!
# Rely and guarantee

A *protocol* says how threads that share a memory behave towards each other.  It speaks
of worlds, a memory together with a ghost value that no program sees, and consists of an
invariant, of what each thread may rely on the others to do, of what a step of a thread
itself is bound to, and of what has to hold of a world in which a thread is about to
perform an action.

`Safe` is the judgement about one thread.  It is defined by recursion on the program that
is left: whatever the others did in the meantime, the next action is in order, and
whatever its answer is, some choice of the ghost value keeps the invariant, is something
all other threads rely on, and leaves a safe program.  So a proof of `Safe` is a symbolic
execution of one program text, and the interleaving is dealt with here, once:
`Run.exists_good` puts the judgements of all threads together along a run.

The environment of a thread is a parameter.  With all of the rely relation it is the
system of all threads; with equality it is the run of one program alone, and the same
symbolic execution then says that this run comes to an end (`Safe.exists_run`).
-/

namespace Interleaving

variable {Op : Type} {Resp : Op → Type} {ι σ γ α β : Type}

/-- A memory and a ghost value. -/
@[ext] structure World (σ γ : Type) where
  mem : σ
  ghost : γ

/-- How the threads behave towards each other. -/
structure Protocol (Op : Type) (ι σ γ : Type) where
  /-- Holds between any two actions. -/
  inv : World σ γ → Prop
  /-- What a thread can rely on all others together to do. -/
  rely : ι → World σ γ → World σ γ → Prop
  /-- What a single step of a thread is bound to. -/
  own : ι → World σ γ → World σ γ → Prop
  /-- What holds when a thread is about to perform an action. -/
  pre : ι → Op → World σ γ → Prop
  rely_refl : ∀ t w, rely t w w
  rely_trans : ∀ t w w' w'', rely t w w' → rely t w' w'' → rely t w w''

namespace Protocol

variable (P : Protocol Op ι σ γ)

/-- What a step of thread `t` has to guarantee. -/
structure Guar (t : ι) (w w' : World σ γ) : Prop where
  inv : P.inv w'
  own : P.own t w w'
  rely : ∀ u, u ≠ t → P.rely u w w'

/-- The environment of thread `t`: some part of what `t` relies on. -/
structure Env (t : ι) where
  step : World σ γ → World σ γ → Prop
  rely_of_step : ∀ {w w'}, step w w' → P.rely t w w'
  refl : ∀ w, step w w
  trans : ∀ {w w' w''}, step w w' → step w' w'' → step w w''

/-- All other threads. -/
def Env.full (t : ι) : P.Env t where
  step := P.rely t
  rely_of_step := id
  refl := P.rely_refl t
  trans := P.rely_trans t _ _ _

/-- No other thread. -/
def Env.alone (t : ι) : P.Env t where
  step := Eq
  rely_of_step h := h ▸ P.rely_refl t _
  refl _ := rfl
  trans := Eq.trans

end Protocol

variable (M : Machine Op Resp ι σ) {P : Protocol Op ι σ γ} {t : ι} (E : P.Env t)

/-- Thread `t` is safe with the program in the world, and returns only in `Q`. -/
def Safe (Q : α → World σ γ → Prop) : Prog Op Resp α → World σ γ → Prop
  | .ret a, w => ∀ w', E.step w w' → P.inv w' → Q a w'
  | .act o k, w => ∀ w', E.step w w' → P.inv w' → P.pre t o w' ∧
      ∀ r s, M.exec t o w'.mem = some (r, s) →
        ∃ g, P.Guar t w' ⟨s, g⟩ ∧ Safe Q (k r) ⟨s, g⟩

namespace Safe

variable {M E} {Q Q' : α → World σ γ → Prop} {p : Prog Op Resp α} {w w' : World σ γ}

/-- A safe thread stays safe while others act. -/
theorem later (h : Safe M E Q p w) (hw : E.step w w') : Safe M E Q p w' := by
  cases p with
  | ret a => exact fun w'' hs hi => h w'' (E.trans hw hs) hi
  | act o k => exact fun w'' hs hi => h w'' (E.trans hw hs) hi

/-- It is enough to be safe whenever the thread is next scheduled. -/
theorem of_forall (h : ∀ w', E.step w w' → P.inv w' → Safe M E Q p w') : Safe M E Q p w := by
  cases p with
  | ret a => exact fun w' hs hi => h w' hs hi w' (E.refl w') hi
  | act o k => exact fun w' hs hi => h w' hs hi w' (E.refl w') hi

theorem ret {a : α} (h : ∀ w', E.step w w' → P.inv w' → Q a w') : Safe M E Q (.ret a) w := h

/-- The rule of composition. -/
theorem bind {f : α → Prog Op Resp β} {R : β → World σ γ → Prop}
    (h : Safe M E (fun a w => Safe M E R (f a) w) p w) : Safe M E R (p >>= f) w := by
  induction p generalizing w with
  | ret a => exact of_forall h
  | act o k ih =>
    intro w' hs hi
    obtain ⟨hp, hk⟩ := h w' hs hi
    refine ⟨hp, fun r s he => ?_⟩
    obtain ⟨g, hg, hsafe⟩ := hk r s he
    exact ⟨g, hg, ih r hsafe⟩

/-- The rule of consequence. -/
theorem mono (h : Safe M E Q p w) (hQ : ∀ a w, P.inv w → Q a w → Q' a w) :
    Safe M E Q' p w := by
  induction p generalizing w with
  | ret a => exact fun w' hs hi => hQ a w' hi (h w' hs hi)
  | act o k ih =>
    intro w' hs hi
    obtain ⟨hp, hk⟩ := h w' hs hi
    refine ⟨hp, fun r s he => ?_⟩
    obtain ⟨g, hg, hsafe⟩ := hk r s he
    exact ⟨g, hg, ih r hsafe⟩

/-- The rule of a loop.  The invariant speaks of the part of the list that is left. -/
theorem foldlM {τ : Type} {f : α → τ → Prog Op Resp α} {J : List τ → α → World σ γ → Prop}
    (hnil : ∀ a w, J [] a w → Safe M E Q (pure a) w)
    (hcons : ∀ x l a w, J (x :: l) a w → Safe M E (J l) (f a x) w) {l : List τ} {a : α}
    (h : J l a w) : Safe M E Q (l.foldlM f a) w := by
  induction l generalizing a w with
  | nil => exact hnil a w h
  | cons x l ih =>
    rw [List.foldlM_cons]
    exact bind ((hcons x l a w h).mono fun a' w' _ h' => ih h')

/-- **A run alone stays within the judgement.**  If a property of worlds is kept by
whatever the thread guarantees, the run of a safe program ends in a world with that
property, in the postcondition. -/
theorem of_run {S : World σ γ → Prop} (hS : ∀ w w', S w → P.Guar t w w' → S w')
    (h : Safe M E Q p w) (hi : P.inv w) (hSw : S w) {a : α} {s : σ}
    (hrun : p.run M t w.mem = some (a, s)) :
    ∃ g, P.inv ⟨s, g⟩ ∧ S ⟨s, g⟩ ∧ Q a ⟨s, g⟩ := by
  induction p generalizing w with
  | ret b =>
    obtain ⟨rfl, rfl⟩ : b = a ∧ w.mem = s := by simpa using hrun
    exact ⟨w.ghost, hi, hSw, h w (E.refl w) hi⟩
  | act o k ih =>
    obtain ⟨-, hk⟩ := h w (E.refl w) hi
    obtain ⟨r, s', he, hrun⟩ := Prog.exists_of_run_act hrun
    obtain ⟨g, hg, hsafe⟩ := hk r s' he
    exact ih r hsafe hg.inv (hS _ _ hSw hg) hrun

/-- **A run alone comes to an end**, if the actions that are in order can be taken. -/
theorem exists_run {S : World σ γ → Prop} (hS : ∀ w w', S w → P.Guar t w w' → S w')
    (hex : ∀ o w, P.inv w → S w → P.pre t o w → ∃ x, M.exec t o w.mem = some x)
    (h : Safe M E Q p w) (hi : P.inv w) (hSw : S w) :
    ∃ a s, p.run M t w.mem = some (a, s) := by
  induction p generalizing w with
  | ret a => exact ⟨a, w.mem, rfl⟩
  | act o k ih =>
    obtain ⟨hp, hk⟩ := h w (E.refl w) hi
    obtain ⟨⟨r, s⟩, he⟩ := hex o w hi hSw hp
    obtain ⟨g, hg, hsafe⟩ := hk r s he
    obtain ⟨a, s', hrun⟩ := ih r hsafe hg.inv (hS _ _ hSw hg)
    exact ⟨a, s', by rw [Prog.run_act, he]; exact hrun⟩

/-- Whatever a run alone performs is in order. -/
theorem exists_of_mem_trace {S : World σ γ → Prop} (hS : ∀ w w', S w → P.Guar t w w' → S w')
    (h : Safe M E Q p w) (hi : P.inv w) (hSw : S w) {x : (o : Op) × Option (Resp o)}
    (hx : x ∈ p.trace M t w.mem) :
    ∃ w', P.inv w' ∧ S w' ∧ P.pre t x.1 w' ∧ (M.exec t x.1 w'.mem).map Prod.fst = x.2 := by
  induction p generalizing w with
  | ret a => cases hx
  | act o k ih =>
    obtain ⟨hp, hk⟩ := h w (E.refl w) hi
    cases he : M.exec t o w.mem with
    | none =>
      rw [Prog.trace_act_of_none he, List.mem_singleton] at hx
      subst hx
      exact ⟨w, hi, hSw, hp, by rw [he]; rfl⟩
    | some y =>
      obtain ⟨r, s⟩ := y
      obtain ⟨g, hg, hsafe⟩ := hk r s he
      rw [Prog.trace_act_of_some he, List.mem_cons] at hx
      rcases hx with rfl | hx
      · exact ⟨w, hi, hSw, hp, by rw [he]; rfl⟩
      · exact ih r hsafe hg.inv (hS _ _ hSw hg) hx

end Safe

/-! ## All threads together -/

/-- What is known of a thread before it is invoked and after it returned, and that its
program is safe in between.  At its return a thread may adjust the ghost value once
more. -/
structure Contract (P : Protocol Op ι σ γ) (prog : ι → Prog Op Resp α) where
  fresh : ι → World σ γ → Prop
  final : ι → α → World σ γ → Prop
  fresh_of_rely : ∀ {t w w'}, P.rely t w w' → fresh t w → fresh t w'
  final_of_rely : ∀ {t a w w'}, P.rely t w w' → final t a w → final t a w'
  safe : ∀ {t w}, P.inv w → fresh t w →
    Safe M (Protocol.Env.full P t)
      (fun a w => ∃ g, P.Guar t w ⟨w.mem, g⟩ ∧ final t a ⟨w.mem, g⟩) (prog t) w

namespace Contract

variable {M} {prog : ι → Prog Op Resp α} (C : Contract M P prog)

/-- What is known of one thread. -/
def Knows (t : ι) (w : World σ γ) : Thread Op Resp α → Prop
  | .waiting => C.fresh t w
  | .running p => Safe M (Protocol.Env.full P t)
      (fun a w => ∃ g, P.Guar t w ⟨w.mem, g⟩ ∧ C.final t a ⟨w.mem, g⟩) p w
  | .returned a => C.final t a w

theorem Knows.of_rely {C : Contract M P prog} {t : ι} {w w' : World σ γ}
    {x : Thread Op Resp α} (h : C.Knows t w x) (hw : P.rely t w w') : C.Knows t w' x := by
  cases x with
  | waiting => exact C.fresh_of_rely hw h
  | running p => exact Safe.later h hw
  | returned a => exact C.final_of_rely hw h

/-- The ghost value explains the configuration. -/
structure Good (c : Config Op Resp ι σ α) (w : World σ γ) : Prop where
  mem : w.mem = c.mem
  inv : P.inv w
  knows : ∀ t, C.Knows t w (c.thread t)

/-- What happens to the world at an event. -/
def Moves (P : Protocol Op ι σ γ) : Event ι → World σ γ → World σ γ → Prop
  | .invoke _, w, w' => w' = w
  | .action t, w, w' => P.Guar t w w'
  | .respond t, w, w' => P.Guar t w w'

variable {C} [DecidableEq ι]

theorem Good.set {c : Config Op Resp ι σ α} {w w' : World σ γ} (h : C.Good c w) {t : ι}
    (hi : P.inv w') (hr : ∀ u, u ≠ t → P.rely u w w') {x : Thread Op Resp α}
    (hx : C.Knows t w' x) : C.Good (c.set t w'.mem x) w' where
  mem := rfl
  inv := hi
  knows u := by
    by_cases hut : u = t
    · subst hut; rwa [Config.set_thread_self]
    · rw [Config.set_thread_of_ne _ hut]
      exact (h.knows u).of_rely (hr u hut)

/-- **One step of the system.**  Whatever thread acts, the ghost value can follow. -/
theorem Good.step {c c' : Config Op Resp ι σ α} {w : World σ γ} {e : Event ι}
    (h : C.Good c w) (hs : Step M prog c e c') : ∃ w', C.Good c' w' ∧ Moves P e w w' := by
  obtain ⟨s, g⟩ := w
  obtain rfl : s = c.mem := h.mem
  cases hs with
  | @invoke t ht =>
    have hfresh := h.knows t
    rw [ht] at hfresh
    exact ⟨_, h.set h.inv (fun u _ => P.rely_refl u _) (C.safe h.inv hfresh), rfl⟩
  | @action t o k r s' ht he =>
    have hsafe := h.knows t
    rw [ht] at hsafe
    obtain ⟨g', hg, hsafe'⟩ := (hsafe _ (P.rely_refl t _) h.inv).2 r s' he
    exact ⟨_, h.set hg.inv hg.rely hsafe', hg⟩
  | @respond t a ht =>
    have hret := h.knows t
    rw [ht] at hret
    obtain ⟨g', hg, hfinal⟩ := hret _ (P.rely_refl t _) h.inv
    exact ⟨_, h.set hg.inv hg.rely hfinal, hg⟩

/-- **Every reachable configuration is explained by some ghost value.** -/
theorem exists_good {s : σ} {g : γ} (hi : P.inv ⟨s, g⟩) (hf : ∀ t, C.fresh t ⟨s, g⟩)
    {tr : List (Event ι)} {c : Config Op Resp ι σ α} (h : Run M prog (.initial s) tr c) :
    ∃ w, C.Good c w := by
  induction h with
  | nil => exact ⟨⟨s, g⟩, rfl, hi, hf⟩
  | snoc _ hs ih =>
    obtain ⟨w, hw⟩ := ih
    obtain ⟨w', hw', -⟩ := hw.step hs
    exact ⟨w', hw'⟩

/-- **One ghost value explains a run from start to end**: what it says of the past is what
some ghost value said then. -/
theorem exists_good_along {β : Type} {log : γ → List β}
    (hmono : ∀ t w w', P.Guar t w w' → log w.ghost <+: log w'.ghost) {s : σ} {g : γ}
    (hi : P.inv ⟨s, g⟩) (hf : ∀ t, C.fresh t ⟨s, g⟩) {tr : List (Event ι)}
    {c : Config Op Resp ι σ α} (h : Run M prog (.initial s) tr c) :
    ∃ w, C.Good c w ∧ ∀ tr₁ tr₂, tr = tr₁ ++ tr₂ →
      ∃ c₁ w₁, Run M prog (.initial s) tr₁ c₁ ∧ C.Good c₁ w₁ ∧ log w₁.ghost <+: log w.ghost := by
  induction h with
  | nil =>
    refine ⟨⟨s, g⟩, ⟨rfl, hi, hf⟩, fun tr₁ tr₂ heq => ?_⟩
    obtain ⟨rfl, -⟩ := List.append_eq_nil_iff.mp heq.symm
    exact ⟨_, ⟨s, g⟩, .nil, ⟨rfl, hi, hf⟩, List.prefix_rfl⟩
  | @snoc tr c c' e hrun hs ih =>
    obtain ⟨w, hw, hpast⟩ := ih
    obtain ⟨w', hw', hmove⟩ := hw.step hs
    have hgrow : log w.ghost <+: log w'.ghost := by
      cases e with
      | invoke t => exact (show w' = w from hmove) ▸ List.prefix_rfl
      | action t => exact hmono t w w' hmove
      | respond t => exact hmono t w w' hmove
    refine ⟨w', hw', fun tr₁ tr₂ heq => ?_⟩
    rcases List.eq_nil_or_concat tr₂ with rfl | ⟨tr₃, e', rfl⟩
    · rw [List.append_nil] at heq
      exact ⟨c', w', heq ▸ hrun.snoc hs, hw', List.prefix_rfl⟩
    · rw [List.concat_eq_append, ← List.append_assoc] at heq
      obtain ⟨c₁, w₁, hrun₁, hw₁, hlog⟩ := hpast tr₁ tr₃ (List.append_inj' heq rfl).1
      exact ⟨c₁, w₁, hrun₁, hw₁, hlog.trans hgrow⟩

omit [DecidableEq ι] in
/-- The next action of a running thread is in order. -/
theorem Good.pre {c : Config Op Resp ι σ α} {w : World σ γ} (h : C.Good c w) {t : ι} {o : Op}
    (ht : c.At t o) : P.pre t o w := by
  obtain ⟨k, hk⟩ := ht
  have hsafe := h.knows t
  rw [hk] at hsafe
  exact (hsafe w (P.rely_refl t w) h.inv).1

/-- **The order in which threads enter the ghost value respects real time.**  `order`
lists threads in the ghost value and only grows; a returned thread is on it and a thread
that has not been invoked is not.  Then a thread that responded before another was
invoked entered first. -/
theorem exists_good_ordered {order : γ → List ι}
    (hmono : ∀ t w w', P.Guar t w w' → order w.ghost <+: order w'.ghost)
    (hfinal : ∀ t a w, P.inv w → C.final t a w → t ∈ order w.ghost)
    (hfresh : ∀ t w, P.inv w → C.fresh t w → t ∉ order w.ghost)
    {s : σ} {g : γ} (hi : P.inv ⟨s, g⟩) (hf : ∀ t, C.fresh t ⟨s, g⟩)
    {tr : List (Event ι)} {c : Config Op Resp ι σ α} (h : Run M prog (.initial s) tr c) :
    ∃ w, C.Good c w ∧ ∀ t u, Precedes tr t u →
      ∃ l₁ l₂, order w.ghost = l₁ ++ l₂ ∧ t ∈ l₁ ∧ u ∉ l₁ := by
  induction h with
  | nil =>
    refine ⟨⟨s, g⟩, ⟨rfl, hi, hf⟩, ?_⟩
    rintro t u ⟨tr₁, tr₂, heq, -⟩
    exact absurd heq (by simp)
  | @snoc tr c c' e hrun hs ih =>
    obtain ⟨w, hw, hord⟩ := ih
    obtain ⟨w', hw', hmove⟩ := hw.step hs
    have hgrow : order w.ghost <+: order w'.ghost := by
      cases e with
      | invoke t => exact (show w' = w from hmove) ▸ List.prefix_rfl
      | action t => exact hmono t w w' hmove
      | respond t => exact hmono t w w' hmove
    refine ⟨w', hw', fun t u hp => ?_⟩
    rcases hp.of_snoc with hp | ⟨rfl, hmem⟩
    · obtain ⟨l₁, l₂, heq, ht, hu⟩ := hord t u hp
      obtain ⟨l₃, hl₃⟩ := hgrow
      exact ⟨l₁, l₂ ++ l₃, by rw [← hl₃, heq, List.append_assoc], ht, hu⟩
    · -- `u` is being invoked: so far the order has `t` and not `u`
      obtain rfl : w' = w := hmove
      obtain ⟨a, ha⟩ := (hrun.respond_mem_iff t).mp hmem
      have ht := hw.knows t
      rw [ha] at ht
      refine ⟨order w'.ghost, [], by simp, hfinal t a w' hw.inv ht, ?_⟩
      cases hs with
      | invoke hu =>
        have hfr := hw.knows u
        rw [hu] at hfr
        exact hfresh u w' hw.inv hfr

end Contract

end Interleaving
