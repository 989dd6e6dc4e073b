import TecnicoFs.Interleaving.Safe

/-!
# One thread among any others

What a thread can get to when nothing is known of the others but a relation: between any
two of its actions the memory changes by `env`.  With equality this is the run of one
program alone, from whatever memory; and in a run of a system each thread is among the
others, if every step of theirs is in the relation (`Run.exists_reaches`).

`Protocol.among` is the protocol of the one thread.  It asks nothing of the others, so a
`Safe` program is never about to take an action that is not in order, wherever it gets to.
-/

namespace Interleaving

variable {Op : Type} {Resp : Op → Type} {ι σ α : Type}

/-- What thread `t` gets to from a program and a memory, while others change the memory
by `env`. -/
inductive Reaches (M : Machine Op Resp ι σ) (t : ι) (env : σ → σ → Prop)
    (p : Prog Op Resp α) (s : σ) : Prog Op Resp α → σ → Prop where
  | refl : Reaches M t env p s p s
  | env {q : Prog Op Resp α} {s₁ s₂ : σ} (h : Reaches M t env p s q s₁) (he : env s₁ s₂) :
      Reaches M t env p s q s₂
  | act {o : Op} {k : Resp o → Prog Op Resp α} {r : Resp o} {s₁ s₂ : σ}
      (h : Reaches M t env p s (.act o k) s₁) (he : M.exec t o s₁ = some (r, s₂)) :
      Reaches M t env p s (k r) s₂

/-- The protocol of thread `t` among others that change the memory by `env`: the actions
of `t` are in order if they are `ok`. -/
def Protocol.among (t : ι) (env : σ → σ → Prop) (hrefl : ∀ s, env s s)
    (htrans : ∀ s₁ s₂ s₃, env s₁ s₂ → env s₂ s₃ → env s₁ s₃) (ok : Op → Prop) :
    Protocol Op ι σ Unit where
  inv _ := True
  rely u w w' := u = t → env w.mem w'.mem
  own _ _ _ := True
  pre _ o _ := ok o
  rely_refl _ w _ := hrefl w.mem
  rely_trans _ w₁ w₂ w₃ h h' hu := htrans w₁.mem w₂.mem w₃.mem (h hu) (h' hu)

section Among

variable {M : Machine Op Resp ι σ} {t : ι} {env : σ → σ → Prop} {hrefl : ∀ s, env s s}
  {htrans : ∀ s₁ s₂ s₃, env s₁ s₂ → env s₂ s₃ → env s₁ s₃} {ok : Op → Prop}
  {Q : α → World σ Unit → Prop} {p q : Prog Op Resp α} {s s' : σ}

/-- What the thread itself does is of no concern to the others. -/
theorem Protocol.guar_among (w w' : World σ Unit) :
    (Protocol.among t env hrefl htrans ok).Guar t w w' :=
  ⟨trivial, trivial, fun _ hu h => absurd h hu⟩

theorem Safe.among_ret {a : α} (h : ∀ s', env s s' → Q a ⟨s', ()⟩) :
    Safe M (.full (.among t env hrefl htrans ok) t) Q (.ret a) ⟨s, ()⟩ :=
  fun w' hw _ => h w'.mem (hw rfl)

/-- The rule of an action. -/
theorem Safe.among_act {o : Op} {k : Resp o → Prog Op Resp α} (ho : ok o)
    (h : ∀ s₁ r s₂, env s s₁ → M.exec t o s₁ = some (r, s₂) →
      Safe M (.full (.among t env hrefl htrans ok) t) Q (k r) ⟨s₂, ()⟩) :
    Safe M (.full (.among t env hrefl htrans ok) t) Q (.act o k) ⟨s, ()⟩ :=
  fun w' hw _ => ⟨ho, fun r s₂ he => ⟨(), Protocol.guar_among _ _, h w'.mem r s₂ (hw rfl) he⟩⟩

/-- **A safe program stays safe wherever it gets to.** -/
theorem Safe.of_reaches
    (h : Safe M (.full (.among t env hrefl htrans ok) t) Q p ⟨s, ()⟩)
    (hreach : Reaches M t env p s q s') :
    Safe M (.full (.among t env hrefl htrans ok) t) Q q ⟨s', ()⟩ := by
  induction hreach with
  | refl => exact h
  | env _ he ih => exact ih.later fun _ => he
  | @act o k r s₁ s₂ _ he ih =>
    obtain ⟨g, -, hk⟩ := (ih ⟨s₁, ()⟩ (fun _ => hrefl s₁) trivial).2 r s₂ he
    exact hk

/-- The action that comes next is in order. -/
theorem Safe.ok_of_reaches {o : Op} {k : Resp o → Prog Op Resp α}
    (h : Safe M (.full (.among t env hrefl htrans ok) t) Q p ⟨s, ()⟩)
    (hreach : Reaches M t env p s (.act o k) s') : ok o :=
  (h.of_reaches hreach ⟨s', ()⟩ (fun _ => hrefl s') trivial).1

end Among

/-- **In a run of a system every thread is among the others**, if each step of theirs is in
the relation. -/
theorem Run.exists_reaches [DecidableEq ι] {M : Machine Op Resp ι σ} {prog : ι → Prog Op Resp α}
    {t : ι} {env : σ → σ → Prop} {s : σ} {tr : List (Event ι)} {c : Config Op Resp ι σ α}
    (h : Run M prog (.initial s) tr c)
    (henv : ∀ tr' c₁ e c₂, Run M prog (.initial s) tr' c₁ → Step M prog c₁ e c₂ →
      e.thread ≠ t → env c₁.mem c₂.mem) {p : Prog Op Resp α} (ht : c.thread t = .running p) :
    ∃ s₀, Reaches M t env (prog t) s₀ p c.mem := by
  induction h generalizing p with
  | nil => cases ht
  | @snoc tr c c' e hrun hs ih =>
    by_cases hut : e.thread = t
    · cases hs with
      | @invoke u _ =>
        obtain rfl : u = t := hut
        rw [Config.set_thread_self] at ht
        cases ht
        exact ⟨c.mem, .refl⟩
      | @action u _ _ _ _ hu he =>
        obtain rfl : u = t := hut
        rw [Config.set_thread_self] at ht
        cases ht
        obtain ⟨s₀, hreach⟩ := ih hu
        exact ⟨s₀, hreach.act he⟩
      | @respond u _ _ =>
        obtain rfl : u = t := hut
        rw [Config.set_thread_self] at ht
        cases ht
    · have hthread : c'.thread t = c.thread t := by
        cases hs with
        | invoke => exact Config.set_thread_of_ne _ (Ne.symm hut) _ _
        | action => exact Config.set_thread_of_ne _ (Ne.symm hut) _ _
        | respond => exact Config.set_thread_of_ne _ (Ne.symm hut) _ _
      obtain ⟨s₀, hreach⟩ := ih (hthread.symm.trans ht)
      exact ⟨s₀, hreach.env (henv _ _ _ _ hrun hs hut)⟩

/-! ## What no action changes -/

/-- The protocol of threads of which nothing is asked, when whatever they do keeps `I`. -/
def Protocol.keeping (I : σ → Prop) : Protocol Op ι σ Unit where
  inv w := I w.mem
  rely _ _ _ := True
  own _ _ _ := True
  pre _ _ _ := True
  rely_refl _ _ := trivial
  rely_trans _ _ _ _ _ _ := trivial

section Keeping

variable {M : Machine Op Resp ι σ} {I : σ → Prop} {t : ι} {p : Prog Op Resp α}
  {Q : α → World σ Unit → Prop}

/-- The rule of an action. -/
theorem Safe.keeping_act (hI : ∀ t o s r s', M.exec t o s = some (r, s') → I s → I s') {o : Op}
    {k : Resp o → Prog Op Resp α} {w : World σ Unit}
    (h : ∀ s r s', I s → M.exec t o s = some (r, s') →
      Safe M (.full (.keeping I) t) Q (k r) ⟨s', ()⟩) :
    Safe M (.full (.keeping I) t) Q (.act o k) w :=
  fun _ _ hi => ⟨trivial, fun r s he =>
    ⟨(), ⟨hI t o _ r s he hi, trivial, fun _ _ => trivial⟩, h _ r s hi he⟩⟩

/-- All that such a thread returns is in `Q` if all that its program can return is. -/
theorem Safe.of_keeps (hI : ∀ t o s r s', M.exec t o s = some (r, s') → I s → I s')
    {R : α → Prop}
    (h : p.Keeps (fun _ _ => True) (fun q _ => q) (fun _ a => R a) ()) (w : World σ Unit) :
    Safe M (.full (.keeping I) t) (fun a _ => R a) p w := by
  induction p generalizing w with
  | ret a => exact fun _ _ _ => h
  | act o k ih => exact Safe.keeping_act hI fun s r s' _ _ => ih r (h.2 r) _

/-- What is known of threads of which nothing is asked. -/
def Contract.keeping {prog : ι → Prog Op Resp α} {R : ι → α → Prop}
    (h : ∀ t w, Safe M (.full (.keeping I) t) (fun a _ => R t a) (prog t) w) :
    Contract M (.keeping I) prog where
  fresh _ _ := True
  final t a _ := R t a
  fresh_of_rely _ _ := trivial
  final_of_rely _ hR := hR
  safe _ _ := (h _ _).mono fun _ _ hi hR => ⟨(), ⟨hi, trivial, fun _ _ => trivial⟩, hR⟩

/-- **What all actions keep holds in every run**, and the programs return what they return
while it holds. -/
theorem Run.of_keeping [DecidableEq ι] {prog : ι → Prog Op Resp α} {R : ι → α → Prop}
    (hsafe : ∀ t w, Safe M (.full (.keeping I) t) (fun a _ => R t a) (prog t) w) {s : σ} (hs : I s)
    {tr : List (Event ι)} {c : Config Op Resp ι σ α} (h : Run M prog (.initial s) tr c) :
    I c.mem ∧ ∀ t a, c.thread t = .returned a → R t a := by
  obtain ⟨w, hg⟩ := (Contract.keeping hsafe).exists_good (g := ()) hs (fun _ => trivial) h
  refine ⟨hg.mem ▸ hg.inv, fun t a ht => ?_⟩
  have hknows := hg.knows t
  rw [ht] at hknows
  exact hknows

end Keeping

/-! ## Disciplines -/

/-- The protocol of threads that take no action but those that are `ok` for them, when such
actions keep `I`. -/
def Protocol.disciplined (ok : ι → Op → Prop) (I : σ → Prop) : Protocol Op ι σ Unit where
  inv w := I w.mem
  rely _ _ _ := True
  own _ _ _ := True
  pre t o _ := ok t o
  rely_refl _ _ := trivial
  rely_trans _ _ _ _ _ _ := trivial

section Disciplined

variable {M : Machine Op Resp ι σ} {ok : ι → Op → Prop} {I : σ → Prop}

theorem Safe.of_discipline
    (hI : ∀ t o s r s', ok t o → M.exec t o s = some (r, s') → I s → I s') {t : ι}
    {p : Prog Op Resp α} (h : p.All (ok t)) (w : World σ Unit) :
    Safe M (.full (.disciplined ok I) t) (fun _ _ => True) p w := by
  induction p generalizing w with
  | ret a => exact fun _ _ _ => trivial
  | act o k ih =>
    exact fun _ _ hi => ⟨h.1, fun r s he =>
      ⟨(), ⟨hI t o _ r s h.1 he hi, trivial, fun _ _ => trivial⟩, ih r (h.2 r) _⟩⟩

/-- What is known of threads that keep to a discipline. -/
def Contract.disciplined {prog : ι → Prog Op Resp α}
    (h : ∀ t w, Safe M (.full (.disciplined ok I) t) (fun _ _ => True) (prog t) w) :
    Contract M (.disciplined ok I) prog where
  fresh _ _ := True
  final _ _ _ := True
  fresh_of_rely _ _ := trivial
  final_of_rely _ _ := trivial
  safe _ _ := (h _ _).mono fun _ _ hi _ => ⟨(), ⟨hi, trivial, fun _ _ => trivial⟩, trivial⟩

/-- **Threads that keep to a discipline** keep what its actions keep, and are never about to
do anything else. -/
theorem Run.of_discipline [DecidableEq ι]
    (hI : ∀ t o s r s', ok t o → M.exec t o s = some (r, s') → I s → I s')
    {prog : ι → Prog Op Resp α} (hprog : ∀ t, (prog t).All (ok t)) {s : σ} (hs : I s)
    {tr : List (Event ι)} {c : Config Op Resp ι σ α}
    (h : Run M prog (.initial s) tr c) : I c.mem ∧ ∀ t o, c.At t o → ok t o := by
  obtain ⟨w, hg⟩ := (Contract.disciplined fun t => Safe.of_discipline hI (hprog t)).exists_good
    (g := ()) hs (fun _ => trivial) h
  exact ⟨hg.mem ▸ hg.inv, fun t o hat => hg.pre hat⟩

end Disciplined

end Interleaving
