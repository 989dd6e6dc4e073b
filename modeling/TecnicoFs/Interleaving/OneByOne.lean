import TecnicoFs.Interleaving.Service

/-!
# One call after the other

A service at rest can serve the call that a client is at: the client sends the request, a
worker takes it and runs the program to its end with nobody else acting, and the client takes
the answer.  Then the service is at rest again (`Run.exists_served`).
-/

namespace Interleaving

open Function

namespace Service

variable {Op : Type} {Resp : Op → Type} {κ ω σ α D A : Type} [DecidableEq κ] [DecidableEq ω]
  {M : Machine Op Resp (κ × Nat) σ} {S : Service Op Resp κ α D A}
  {script : κ → List (Option D)} {s s₀ : State Op Resp κ ω σ α D A} {tr : List (Event κ)}

/-- Nothing is under way. -/
structure State.Resting (s : State Op Resp κ ω σ α D A) : Prop where
  waiting : ∀ k, s.waiting k = false
  idle : ∀ w, s.worker w = .idle
  queue : s.queue = []
  inbox : ∀ k, s.inbox k = []

omit [DecidableEq κ] [DecidableEq ω] in
theorem State.resting_start (m : σ) : (State.start m : State Op Resp κ ω σ α D A).Resting :=
  ⟨fun _ => rfl, fun _ => rfl, rfl, fun _ => rfl⟩

/-- A worker runs its program while nobody else acts. -/
theorem Run.exists_worked (h : Run M S script s₀ tr s) {w : ω} {r : κ × Nat}
    {p : Prog Op Resp α} (hw : s.worker w = .running r p) {x : α} {m : σ}
    (hp : p.run M r s.mem = some (x, m)) :
    ∃ tr', Run M S script s₀ tr' { s.setWorker w (.running r (.ret x)) with mem := m } := by
  induction p generalizing s tr with
  | ret a =>
    obtain ⟨rfl, rfl⟩ := Prod.mk.inj (Option.some.inj hp)
    refine ⟨tr, ?_⟩
    rw [State.setWorker, ← hw, update_eq_self]
    exact h
  | act o f ih =>
    obtain ⟨y, m₁, he, hp⟩ := Prog.exists_of_run_act hp
    obtain ⟨tr', h'⟩ := ih y (h.snoc (.action hw he)) (update_self ..) hp
    refine ⟨tr', ?_⟩
    simpa [State.setWorker] using h'

/-- **A service at rest serves a call.** -/
theorem Run.exists_served (h : Run M S script s₀ tr s) (hrest : s.Resting)
    (hlimit : 0 < S.limit) (w : ω) {k : κ} {p : Prog Op Resp α}
    (hprogram : S.program script (s.current k) = some p) {x : α} {m : σ}
    (hp : p.run M (s.current k) s.mem = some (x, m)) :
    ∃ tr' s', Run M S script s₀ tr' s' ∧ s'.Resting ∧ s'.mem = m ∧
      s'.results = update s.results k (s.results k ++ [.answered (S.answer x)]) := by
  obtain ⟨d, hd, haccept⟩ := Option.bind_eq_some_iff.mp hprogram
  have hqueue : s.queue ++ [(s.current k, d)] = (s.current k, d) :: [] := by rw [hrest.queue]; rfl
  have h₁ := h.snoc (.send (hrest.waiting k) hd (by rw [hrest.queue]; exact hlimit))
  have h₂ := h₁.snoc (.receive (w := w) (hrest.idle w) hqueue)
  have hstart : S.start (s.current k) d = .running (s.current k) p := by rw [start, haccept]
  rw [hstart] at h₂
  obtain ⟨tr₃, h₃⟩ := h₂.exists_worked (update_self ..) hp
  have h₄ := h₃.snoc (.respond (w := w) (update_self ..)
    (show (s.inbox k).length < S.limit by rw [hrest.inbox]; exact hlimit))
  have hinbox : update s.inbox k (s.inbox k ++ [((s.results k).length, S.answer x)]) k =
      ((s.results k).length, S.answer x) :: [] := by
    rw [update_self, hrest.inbox]
    rfl
  have h₅ := h₄.snoc (.take (k := k) (update_self ..) hinbox)
  refine ⟨_, _, h₅, ⟨fun k' => ?_, fun w' => ?_, rfl, fun k' => ?_⟩, rfl, rfl⟩
  · show update (update s.waiting k true) k false k' = false
    by_cases hk : k' = k
    · rw [hk, update_self]
    · rw [update_of_ne hk, update_of_ne hk, hrest.waiting]
  · show update (update (update s.worker w _) w _) w .idle w' = .idle
    by_cases hw : w' = w
    · rw [hw, update_self]
    · rw [update_of_ne hw, update_of_ne hw, update_of_ne hw, hrest.idle]
  · show update (update s.inbox k _) k [] k' = []
    by_cases hk : k' = k
    · rw [hk, update_self]
    · rw [update_of_ne hk, update_of_ne hk, hrest.inbox]

end Service

end Interleaving
