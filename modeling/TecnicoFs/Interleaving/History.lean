import Mathlib.Logic.Relation
import TecnicoFs.Interleaving.System

/-!
# What a run has come through

Some statements about a configuration speak of the past: a value was read at one instant
of a call, or a file was written by a call that is over.  A *history* is a reachable
configuration together with the trace that led to it, and an assertion about histories can
speak of all of that.

`OnTrack` is the judgement about one thread.  Whenever the thread is about to perform an
action, what is asked of that action holds, whatever the other threads have done in the
meantime.  Nothing is asked of the other threads: what their steps leave of an assertion is
said by a lemma about a single step, `Stable`, and `History.pre` then holds in every
reachable configuration.
-/

namespace Interleaving

open Relation

variable {Op : Type} {Resp : Op → Type} {ι σ α β γ : Type} [DecidableEq ι]

variable (M : Machine Op Resp ι σ) (prog : ι → Prog Op Resp α) (s : σ)

/-- A reachable configuration and the trace that led to it. -/
structure History where
  trace : List (Event ι)
  config : Config Op Resp ι σ α
  run : Run M prog (.initial s) trace config

variable {M prog s} {h h' h'' : History M prog s} {e : Event ι} {t : ι}

namespace History

/-- One step later. -/
structure Next (h : History M prog s) (e : Event ι) (h' : History M prog s) : Prop where
  trace : h'.trace = h.trace ++ [e]
  step : Step M prog h.config e h'.config

/-- The first history is the past of the second. -/
def Before (h h' : History M prog s) : Prop :=
  ∃ tr, h'.trace = h.trace ++ tr ∧ Run M prog h.config tr h'.config

theorem Before.refl (h : History M prog s) : h.Before h := ⟨[], by simp, .nil⟩

theorem Before.next (hb : h.Before h') (hn : h'.Next e h'') : h.Before h'' := by
  obtain ⟨tr, htr, hrun⟩ := hb
  exact ⟨tr ++ [e], by rw [hn.trace, htr, List.append_assoc], hrun.snoc hn.step⟩

/-- Some steps of other threads later. -/
def Others (t : ι) : History M prog s → History M prog s → Prop :=
  ReflTransGen fun h h' => ∃ e, e.thread ≠ t ∧ h.Next e h'

/-- A step of another thread leaves a thread where it was. -/
theorem Next.thread_eq (hn : h.Next e h') (he : e.thread ≠ t) :
    h'.config.thread t = h.config.thread t := by
  obtain ⟨-, hs⟩ := hn
  generalize h.config = c, h'.config = c' at hs
  cases hs with
  | invoke => exact c.set_thread_of_ne he.symm _ _
  | action => exact c.set_thread_of_ne he.symm _ _
  | respond => exact c.set_thread_of_ne he.symm _ _

theorem Next.of_invoke (hn : h.Next (.invoke t) h') :
    h.config.thread t = .waiting ∧ h'.config.thread t = .running (prog t) ∧
      h'.config.mem = h.config.mem := by
  obtain ⟨-, hs⟩ := hn
  generalize h.config = c, h'.config = c' at hs ⊢
  cases hs with
  | invoke ht => exact ⟨ht, c.set_thread_self _ _ _, rfl⟩

theorem Next.of_action (hn : h.Next (.action t) h') :
    ∃ o k r, h.config.thread t = .running (.act o k) ∧ h'.config.thread t = .running (k r) ∧
      M.exec t o h.config.mem = some (r, h'.config.mem) := by
  obtain ⟨-, hs⟩ := hn
  generalize h.config = c, h'.config = c' at hs ⊢
  cases hs with
  | action ht he => exact ⟨_, _, _, ht, c.set_thread_self _ _ _, he⟩

theorem Next.of_respond (hn : h.Next (.respond t) h') :
    ∃ a, h.config.thread t = .running (.ret a) ∧ h'.config.thread t = .returned a ∧
      h'.config.mem = h.config.mem := by
  obtain ⟨-, hs⟩ := hn
  generalize h.config = c, h'.config = c' at hs ⊢
  cases hs with
  | respond ht => exact ⟨_, ht, c.set_thread_self _ _ _, rfl⟩

end History

/-- An assertion that no other thread invalidates. -/
def Stable (t : ι) (A : History M prog s → Prop) : Prop :=
  ∀ h e h', e.thread ≠ t → History.Next h e h' → A h → A h'

theorem Stable.others {A : History M prog s → Prop} (hA : Stable t A)
    (hs : History.Others t h h') (h₀ : A h) : A h' := by
  induction hs with
  | refl => exact h₀
  | tail _ hn ih =>
    obtain ⟨e, he, hn⟩ := hn
    exact hA _ e _ he hn ih

/-- **Thread `t` is on track.**  At each action `pre` holds, and where the program
ends `Q` does. -/
def OnTrack (t : ι) (pre : Op → History M prog s → Prop) (Q : β → History M prog s → Prop) :
    Prog Op Resp β → History M prog s → Prop
  | .ret a, h => ∀ h', History.Others t h h' → Q a h'
  | .act o k, h => ∀ h', History.Others t h h' → pre o h' ∧ ∀ r h'', h'.Next (.action t) h'' →
      M.exec t o h'.config.mem = some (r, h''.config.mem) → OnTrack t pre Q (k r) h''

namespace OnTrack

variable {pre : Op → History M prog s → Prop} {Q : β → History M prog s → Prop}
  {p : Prog Op Resp β} {A : History M prog s → Prop}

/-- A thread stays on track while others act. -/
theorem later (hf : OnTrack t pre Q p h) (hs : History.Others t h h') : OnTrack t pre Q p h' := by
  cases p with
  | ret a => exact fun h'' hs' => hf h'' (hs.trans hs')
  | act o k => exact fun h'' hs' => hf h'' (hs.trans hs')

/-- It is enough to be on track whenever the thread is next scheduled. -/
theorem of_forall (hf : ∀ h', History.Others t h h' → OnTrack t pre Q p h') :
    OnTrack t pre Q p h := by
  cases p with
  | ret a => exact fun h' hs => hf h' hs h' .refl
  | act o k => exact fun h' hs => hf h' hs h' .refl

/-- The rule of composition. -/
theorem bind {f : β → Prog Op Resp γ} {R : γ → History M prog s → Prop}
    (hf : OnTrack t pre (fun a h => OnTrack t pre R (f a) h) p h) :
    OnTrack t pre R (p >>= f) h := by
  induction p generalizing h with
  | ret a => exact of_forall hf
  | act o k ih =>
    intro h' hs
    obtain ⟨hpre, hk⟩ := hf h' hs
    exact ⟨hpre, fun r h'' hn he => ih r (hk r h'' hn he)⟩

/-- The rule of consequence. -/
theorem mono {Q' : β → History M prog s → Prop} (hf : OnTrack t pre Q p h)
    (hQ : ∀ a h, Q a h → Q' a h) : OnTrack t pre Q' p h := by
  induction p generalizing h with
  | ret a => exact fun h' hs => hQ a h' (hf h' hs)
  | act o k ih =>
    intro h' hs
    obtain ⟨hpre, hk⟩ := hf h' hs
    exact ⟨hpre, fun r h'' hn he => ih r (hk r h'' hn he)⟩

/-- The rule of a loop.  The invariant speaks of the part of the list that is left. -/
theorem foldlM {τ : Type} {f : β → τ → Prog Op Resp β} {J : List τ → β → History M prog s → Prop}
    (hnil : ∀ b h, J [] b h → OnTrack t pre Q (pure b) h)
    (hcons : ∀ x l b h, J (x :: l) b h → OnTrack t pre (J l) (f b x) h) {l : List τ} {b : β}
    (hf : J l b h) : OnTrack t pre Q (l.foldlM f b) h := by
  induction l generalizing b h with
  | nil => exact hnil b h hf
  | cons x l ih =>
    rw [List.foldlM_cons]
    exact bind ((hcons x l b h hf).mono fun b' h' hf' => ih hf')

theorem ret {a : β} (hA : Stable t A) (h₀ : A h) (hQ : ∀ h', A h' → Q a h') :
    OnTrack t pre Q (.ret a) h :=
  fun _ hs => hQ _ (hA.others hs h₀)

/-- The rule of a single action, in terms of an assertion that holds before it. -/
theorem perform {o : Op} {f : Resp o → Prog Op Resp β} (hA : Stable t A) (h₀ : A h)
    (hpre : ∀ h', A h' → pre o h')
    (hf : ∀ r h' h'', A h' → h'.Next (.action t) h'' →
      M.exec t o h'.config.mem = some (r, h''.config.mem) → OnTrack t pre Q (f r) h'') :
    OnTrack t pre Q (Prog.perform o >>= f) h := fun h' hs =>
  ⟨hpre h' (hA.others hs h₀), fun r h'' hn he => hf r h' h'' (hA.others hs h₀) hn he⟩

/-- The same for an assertion that no step invalidates. -/
theorem perform_keep {o : Op} {f : Resp o → Prog Op Resp β}
    (hA : ∀ h e h', History.Next h e h' → A h → A h') (h₀ : A h) (hpre : ∀ h', A h' → pre o h')
    (hf : ∀ r h', A h' → OnTrack t pre Q (f r) h') :
    OnTrack t pre Q (Prog.perform o >>= f) h :=
  perform (fun h e h' _ => hA h e h') h₀ hpre fun r _ h'' h' hn _ => hf r h'' (hA _ _ _ hn h')

end OnTrack

/-- **In every reachable configuration a thread that is running is on track.** -/
theorem History.onTrack {pre : Op → History M prog s → Prop} {Q : α → History M prog s → Prop}
    (hstart : ∀ h : History M prog s, h.config.thread t = .running (prog t) →
      OnTrack t pre Q (prog t) h)
    (h : History M prog s) {p : Prog Op Resp α} (hp : h.config.thread t = .running p) :
    OnTrack t pre Q p h := by
  obtain ⟨tr, c, hrun⟩ := h
  induction hrun generalizing p with
  | nil => cases hp
  | @snoc tr c c' e hrun hs ih =>
    have hn : History.Next ⟨tr, c, hrun⟩ e ⟨tr ++ [e], c', hrun.snoc hs⟩ := ⟨rfl, hs⟩
    by_cases he : e.thread = t
    · subst he
      cases e with
      | invoke t =>
        obtain rfl := Thread.running.inj (hn.of_invoke.2.1.symm.trans hp)
        exact hstart _ hn.of_invoke.2.1
      | action t =>
        obtain ⟨o, k, r, hact, hp', hexec⟩ := hn.of_action
        obtain rfl := Thread.running.inj (hp'.symm.trans hp)
        exact (ih hact _ .refl).2 r _ hn hexec
      | respond t =>
        obtain ⟨a, -, hp', -⟩ := hn.of_respond
        cases hp'.symm.trans hp
    · exact (ih ((hn.thread_eq he).symm.trans hp)).later (.single ⟨e, he, hn⟩)

/-- What is asked of an action holds when the action is about to be performed. -/
theorem History.pre {pre : Op → History M prog s → Prop} {Q : α → History M prog s → Prop}
    (hstart : ∀ h : History M prog s, h.config.thread t = .running (prog t) →
      OnTrack t pre Q (prog t) h)
    (h : History M prog s) {o : Op} (ho : h.config.At t o) : pre o h := by
  obtain ⟨k, hk⟩ := ho
  exact (h.onTrack hstart hk h .refl).1

end Interleaving
