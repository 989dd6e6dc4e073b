import Mathlib.Logic.Function.Basic

/-!
# Programs made of atomic actions

A program is a finite tree: it has returned a value, or it is about to perform one
atomic action and goes on as the answer of that action says.  Everything between two
actions is ordinary functional code, so a program written in `do` notation is both the
text of one thread and the list of the points at which other threads can interfere.

An action is answered by a *machine*: a partial function of the acting thread, the
action and the memory.  No answer means that the action cannot be taken in that memory,
because it waits or because the program stopped there.

`Prog.run` is the run of one program that nothing interferes with.
-/

namespace Interleaving

/-- A program over the actions `Op`, answered in `Resp`, that returns an `α`. -/
inductive Prog (Op : Type) (Resp : Op → Type) (α : Type) : Type where
  | ret (a : α) : Prog Op Resp α
  | act (o : Op) (k : Resp o → Prog Op Resp α) : Prog Op Resp α

namespace Prog

variable {Op : Type} {Resp : Op → Type} {α β γ : Type}

/-- Sequential composition. -/
def bind : Prog Op Resp α → (α → Prog Op Resp β) → Prog Op Resp β
  | ret a, f => f a
  | act o k, f => act o fun r => (k r).bind f

/-- The program that performs one action and returns its answer. -/
def perform (o : Op) : Prog Op Resp (Resp o) := act o ret

instance : Monad (Prog Op Resp) where
  pure := ret
  bind := bind

@[simp] theorem pure_eq_ret (a : α) : (pure a : Prog Op Resp α) = ret a := rfl

@[simp] theorem ret_bind (a : α) (f : α → Prog Op Resp β) : (ret a >>= f) = f a := rfl

@[simp] theorem act_bind (o : Op) (k : Resp o → Prog Op Resp α) (f : α → Prog Op Resp β) :
    (act o k >>= f) = act o fun r => k r >>= f := rfl

theorem bind_ret (p : Prog Op Resp α) : (p >>= ret) = p := by
  induction p with
  | ret a => rfl
  | act o k ih => exact congrArg (act o) (funext ih)

theorem bind_assoc' (p : Prog Op Resp α) (f : α → Prog Op Resp β)
    (g : β → Prog Op Resp γ) : (p >>= f >>= g) = p >>= fun a => f a >>= g := by
  induction p with
  | ret a => rfl
  | act o k ih => exact congrArg (act o) (funext ih)

instance : LawfulMonad (Prog Op Resp) := 
  LawfulMonad.mk' (Prog Op Resp) bind_ret (fun _ _ => rfl) bind_assoc'

@[simp] theorem perform_bind (o : Op) (f : Resp o → Prog Op Resp β) :
    (perform o >>= f) = act o f := rfl

end Prog

/-- What answers the actions of the threads `ι` on a memory `σ`. -/
structure Machine (Op : Type) (Resp : Op → Type) (ι σ : Type) where
  /-- The answer and the new memory, if the action can be taken. -/
  exec : ι → (o : Op) → σ → Option (Resp o × σ)

namespace Prog

variable {Op : Type} {Resp : Op → Type} {ι σ α β : Type}

/-- The run of a program by thread `t` with no interference. -/
def run (M : Machine Op Resp ι σ) (t : ι) : Prog Op Resp α → σ → Option (α × σ)
  | ret a, s => some (a, s)
  | act o k, s =>
      match M.exec t o s with
      | none => none
      | some (r, s') => (k r).run M t s'

variable {M : Machine Op Resp ι σ} {t : ι}

@[simp] theorem run_ret (a : α) (s : σ) : (ret a : Prog Op Resp α).run M t s = some (a, s) := rfl

theorem run_act (o : Op) (k : Resp o → Prog Op Resp α) (s : σ) :
    (act o k).run M t s = (M.exec t o s).bind fun x => (k x.1).run M t x.2 := by
  rw [run]
  cases M.exec t o s <;> rfl

/-- The run of a composition is the run of its first part, then of the rest. -/
theorem run_bind (p : Prog Op Resp α) (f : α → Prog Op Resp β) (s : σ) :
    (p >>= f).run M t s = (p.run M t s).bind fun x => (f x.1).run M t x.2 := by
  induction p generalizing s with
  | ret a => rfl
  | act o k ih =>
    rw [act_bind, run_act, run_act, Option.bind_assoc]
    exact congrArg _ (funext fun x => ih x.1 x.2)

/-- What a run that starts with an action goes through. -/
theorem exists_of_run_act {o : Op} {k : Resp o → Prog Op Resp α} {s : σ} {x : α × σ}
    (h : (act o k).run M t s = some x) :
    ∃ r s', M.exec t o s = some (r, s') ∧ (k r).run M t s' = some x := by
  rw [run_act] at h
  obtain ⟨⟨r, s'⟩, he, hk⟩ := Option.bind_eq_some_iff.mp h
  exact ⟨r, s', he, hk⟩

/-- What the run of a composition goes through. -/
theorem exists_of_run_bind {p : Prog Op Resp α} {f : α → Prog Op Resp β} {s : σ} {x : β × σ}
    (h : (p >>= f).run M t s = some x) :
    ∃ a s', p.run M t s = some (a, s') ∧ (f a).run M t s' = some x := by
  rw [run_bind] at h
  obtain ⟨⟨a, s'⟩, hp, hf⟩ := Option.bind_eq_some_iff.mp h
  exact ⟨a, s', hp, hf⟩

/-! ## The actions of a run -/

/-- The actions of a run with no interference, each with its answer.  If the last one has
none, the run got stuck there. -/
def trace (M : Machine Op Resp ι σ) (t : ι) : Prog Op Resp α → σ → List ((o : Op) × Option (Resp o))
  | ret _, _ => []
  | act o k, s =>
      match M.exec t o s with
      | none => [⟨o, none⟩]
      | some (r, s') => ⟨o, some r⟩ :: (k r).trace M t s'

@[simp] theorem trace_ret (a : α) (s : σ) : (ret a : Prog Op Resp α).trace M t s = [] := rfl

theorem trace_act_of_none {o : Op} {k : Resp o → Prog Op Resp α} {s : σ}
    (h : M.exec t o s = none) : (act o k).trace M t s = [⟨o, none⟩] := by
  rw [trace, h]

theorem trace_act_of_some {o : Op} {k : Resp o → Prog Op Resp α} {s s' : σ} {r : Resp o}
    (h : M.exec t o s = some (r, s')) :
    (act o k).trace M t s = ⟨o, some r⟩ :: (k r).trace M t s' := by
  rw [trace, h]

/-- The actions of a composition are those of its first part, then those of the rest. -/
theorem trace_bind {p : Prog Op Resp α} {f : α → Prog Op Resp β} {a : α} {s s' : σ}
    (h : p.run M t s = some (a, s')) :
    (p >>= f).trace M t s = p.trace M t s ++ (f a).trace M t s' := by
  induction p generalizing s with
  | ret b =>
    obtain ⟨rfl, rfl⟩ := Prod.mk.inj (Option.some.inj h)
    rfl
  | act o k ih =>
    obtain ⟨r, s₁, he, h⟩ := exists_of_run_act h
    rw [act_bind, trace_act_of_some he, trace_act_of_some he, ih r h, List.cons_append]

/-! ## Partial correctness -/

/-- Whenever a run with no interference comes to an end, it ends in `Q`. -/
def Post (M : Machine Op Resp ι σ) (t : ι) (Q : α → σ → Prop) (p : Prog Op Resp α) (s : σ) : Prop :=
  ∀ a s', p.run M t s = some (a, s') → Q a s'

section Post

variable {Q Q' : α → σ → Prop} {p : Prog Op Resp α} {s : σ}

theorem Post.ret {a : α} (h : Q a s) : (ret a : Prog Op Resp α).Post M t Q s := by
  intro b s' hrun
  obtain ⟨rfl, rfl⟩ := Prod.mk.inj (Option.some.inj hrun)
  exact h

theorem Post.act {o : Op} {k : Resp o → Prog Op Resp α}
    (h : ∀ r s', M.exec t o s = some (r, s') → (k r).Post M t Q s') :
    (act o k).Post M t Q s := by
  intro b s' hrun
  obtain ⟨r, s₁, he, hrun⟩ := exists_of_run_act hrun
  exact h r s₁ he b s' hrun

/-- The rule of composition. -/
theorem Post.bind {f : α → Prog Op Resp β} {R : β → σ → Prop}
    (h : p.Post M t (fun a s' => (f a).Post M t R s') s) : (p >>= f).Post M t R s := by
  intro b s' hrun
  obtain ⟨a, s₁, hp, hf⟩ := exists_of_run_bind hrun
  exact h a s₁ hp b s' hf

/-- The rule of consequence. -/
theorem Post.mono (h : p.Post M t Q s) (hQ : ∀ a s', Q a s' → Q' a s') : p.Post M t Q' s :=
  fun a s' hrun => hQ a s' (h a s' hrun)

end Post

/-! ## Disciplines -/

/-- The actions of a program keep to an automaton, whatever their answers are: each is
allowed in the state the ones before it lead to, and the program returns only in `Q`. -/
def Keeps {S : Type} (ok : S → Op → Prop) (next : S → Op → S) (Q : S → α → Prop) :
    S → Prog Op Resp α → Prop
  | q, ret a => Q q a
  | q, act o k => ok q o ∧ ∀ r, (k r).Keeps ok next Q (next q o)

section Keeps

variable {S : Type} {ok : S → Op → Prop} {next : S → Op → S} {Q Q' : S → α → Prop} {q : S}
  {p : Prog Op Resp α}

/-- The rule of consequence. -/
theorem Keeps.mono (h : p.Keeps ok next Q q) (hQ : ∀ q a, Q q a → Q' q a) :
    p.Keeps ok next Q' q := by
  induction p generalizing q with
  | ret a => exact hQ q a h
  | act o k ih => exact ⟨h.1, fun r => ih r (h.2 r)⟩

/-- A discipline that allows everything. -/
theorem Keeps.of_forall (hok : ∀ q o, ok q o) (hQ : ∀ q a, Q q a) : p.Keeps ok next Q q := by
  induction p generalizing q with
  | ret a => exact hQ q a
  | act o k ih => exact ⟨hok q o, fun r => ih r⟩

/-- The rule of composition. -/
theorem Keeps.bind {f : α → Prog Op Resp β} {R : S → β → Prop}
    (h : p.Keeps ok next (fun q a => (f a).Keeps ok next R q) q) : (p >>= f).Keeps ok next R q := by
  induction p generalizing q with
  | ret a => exact h
  | act o k ih => exact ⟨h.1, fun r => ih r (h.2 r)⟩

/-- Where everything is allowed, only the end of a program counts. -/
theorem Keeps.bind_of_forall {f : α → Prog Op Resp β} {R : S → β → Prop} (hok : ∀ q o, ok q o)
    (h : ∀ q a, (f a).Keeps ok next R q) : (p >>= f).Keeps ok next R q :=
  Keeps.bind (Keeps.of_forall hok h)

end Keeps

/-- **All actions of the program are allowed**, whatever their answers are. -/
def All (ok : Op → Prop) : Prog Op Resp α → Prop
  | ret _ => True
  | act o k => ok o ∧ ∀ r, (k r).All ok

section All

variable {ok ok' : Op → Prop} {p : Prog Op Resp α} {f : α → Prog Op Resp β}

theorem all_pure (a : α) : (pure a : Prog Op Resp α).All ok := trivial

theorem all_perform {o : Op} (h : ok o) : (perform o : Prog Op Resp (Resp o)).All ok :=
  ⟨h, fun _ => trivial⟩

/-- The rule of consequence. -/
theorem All.mono (h : p.All ok) (hok : ∀ o, ok o → ok' o) : p.All ok' := by
  induction p with
  | ret a => trivial
  | act o k ih => exact ⟨hok o h.1, fun r => ih r (h.2 r)⟩

theorem all_of_forall (h : ∀ o, ok o) (p : Prog Op Resp α) : p.All ok := by
  induction p with
  | ret a => trivial
  | act o k ih => exact ⟨h o, ih⟩

/-- The rule of composition. -/
theorem All.bind (h : p.All ok) (hf : ∀ a, (f a).All ok) : (p >>= f).All ok := by
  induction p with
  | ret a => exact hf a
  | act o k ih => exact ⟨h.1, fun r => ih r (h.2 r)⟩

/-- The rule of a loop. -/
theorem all_foldlM {τ : Type} {f : β → τ → Prog Op Resp β} {l : List τ}
    (h : ∀ x ∈ l, ∀ b, (f b x).All ok) (b : β) : (l.foldlM f b).All ok := by
  induction l generalizing b with
  | nil => trivial
  | cons x l ih =>
    rw [List.forall_mem_cons] at h
    rw [List.foldlM_cons]
    exact (h.1 b).bind fun b' => ih h.2 b'

/-- A part of which the automaton takes no notice. -/
theorem All.keeps_bind {S : Type} {okAt : S → Op → Prop} {next : S → Op → S} {q : S}
    {R : S → β → Prop} (h : p.All ok) (hok : ∀ o, ok o → okAt q o ∧ next q o = q)
    (hf : ∀ a, (f a).Keeps okAt next R q) : (p >>= f).Keeps okAt next R q := by
  induction p with
  | ret a => exact hf a
  | act o k ih =>
    obtain ⟨hat, hnext⟩ := hok o h.1
    exact ⟨hat, fun r => hnext.symm ▸ ih r (h.2 r)⟩

end All

end Prog

end Interleaving
