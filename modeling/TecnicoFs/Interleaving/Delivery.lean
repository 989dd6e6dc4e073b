import TecnicoFs.Interleaving.Stages
import Mathlib.Data.List.Induction

/-!
# Services as systems of threads

A service seen as a system of threads, one for each call: a run of the service is a run of
that system (`Run.exists_tracks`).  What holds in all interleavings of programs thereby
holds of a service with any number of workers, and the order of time between calls is that
between their threads (`Run.precedes`).
-/

namespace Interleaving

open Function

variable {Op : Type} {Resp : Op → Type} {κ ω σ α D A : Type}

namespace Service

variable {S : Service Op Resp κ α D A} {script : κ → List (Option D)}

variable [DecidableEq κ] [DecidableEq ω] {M : Machine Op Resp (κ × Nat) σ}
  {prog : κ × Nat → Prog Op Resp α} {s s' : State Op Resp κ ω σ α D A}
  {stage : κ × Nat → Stage ω} {c : Config Op Resp (κ × Nat) σ α} {e : Event κ}

variable (S script) in
/-- A service, the stages of its calls, and the threads of its calls. -/
structure Tracks (s : State Op Resp κ ω σ α D A) (stage : κ × Nat → Stage ω)
    (c : Config Op Resp (κ × Nat) σ α) : Prop where
  places : Places script s stage
  threads : Threads S script s stage c

omit [DecidableEq κ] [DecidableEq ω] in
theorem Tracks.start (m : σ) : Tracks S script
    (.start m : State Op Resp κ ω σ α D A) (fun _ => .new) (.initial m) :=
  ⟨.start m, .start m⟩

variable (prog) in
/-- What happens to the threads in a step of the service. -/
def Follows (S : Service Op Resp κ α D A) (script : κ → List (Option D))
    (M : Machine Op Resp (κ × Nat) σ) (e : Event κ) (c c' : Config Op Resp (κ × Nat) σ α) : Prop :=
  (S.project script e = none ∧ c' = c) ∨
    ∃ e', S.project script e = some e' ∧ Interleaving.Step M prog c e' c'

omit [DecidableEq ω] in
/-- The run of the threads goes on. -/
theorem Follows.run {m : σ} {tr : List (Event κ)} {c' : Config Op Resp (κ × Nat) σ α}
    (h : Follows prog S script M e c c')
    (hrun : Interleaving.Run M prog (.initial m) (tr.filterMap (S.project script)) c) :
    Interleaving.Run M prog (.initial m) ((tr ++ [e]).filterMap (S.project script)) c' := by
  rcases h with ⟨he, rfl⟩ | ⟨e', he, hstep⟩
  · simpa [List.filterMap_append, he] using hrun
  · rw [List.filterMap_append, List.filterMap_cons_some he, List.filterMap_nil]
    exact hrun.snoc hstep

/-- How the stages of the calls change: what has ended stays so, and a call begins when it is
sent, or ends at once. -/
def Onward (e : Event κ) (stage stage' : κ × Nat → Stage ω) : Prop :=
  (∀ r, stage r = .ended → stage' r = .ended) ∧
    ∀ r, stage r = .new → stage' r = .new ∨ stage' r = .ended ∨ e = .send r

omit [DecidableEq ω] in
theorem Onward.update {r : κ × Nat} {x : Stage ω} (hr : stage r ≠ .ended)
    (hx : stage r = .new → x = .ended ∨ e = .send r) : Onward e stage (update stage r x) := by
  refine ⟨fun r' hr' => ?_, fun r' hr' => ?_⟩
  · rwa [update_of_ne]
    rintro rfl
    exact hr hr'
  · by_cases heq : r' = r
    · subst heq
      rw [update_self]
      exact Or.inr (hx hr')
    · exact Or.inl (by rwa [update_of_ne heq])

omit [DecidableEq κ] [DecidableEq ω] in
theorem Onward.refl : Onward e stage stage := ⟨fun _ h => h, fun _ h => Or.inl h⟩

/-- A worker takes a request. -/
theorem Tracks.receive (hprog : ∀ r p, S.program script r = some p → prog r = p)
    (h : Tracks S script s stage c) {w : ω} {r : κ × Nat} {d : D}
    {queue : List ((κ × Nat) × D)} (hw : s.worker w = .idle) (hq : s.queue = (r, d) :: queue) :
    ∃ c', Tracks S script { s.setWorker w (S.start r d) with queue := queue }
      (update stage r (.served w)) c' ∧ Follows prog S script M (.receive r) c c' := by
  have hstage : stage r = .queued := (h.places.queued r).mp (by simp [hq])
  have hrequest : Service.request script r = some d := h.places.request (r, d) (by simp [hq])
  have hwaiting : c.thread r = .waiting := h.threads.fresh r (Or.inr (Or.inl hstage))
  have hprogram : S.program script r = S.accept r d := by
    rw [Service.program, hrequest]
    rfl
  cases haccept : S.accept r d with
  | some p =>
    rw [haccept] at hprogram
    refine ⟨c.set r c.mem (.running p), ⟨h.places.receive hw hq, ?_⟩,
      Or.inr ⟨.invoke r, by simp [project, hprogram], hprog r p hprogram ▸ .invoke hwaiting⟩⟩
    have hstart : S.start r d = .running r p := by
      unfold Service.start
      rw [haccept]
    rw [hstart]
    refine h.threads.of_worker h.places
      { s.setWorker w (.running r p) with queue := queue } h.threads.mem.symm rfl rfl
      (by simp [hstage]) (by simp [hwaiting]) (by simp [hprogram]) (fun r' p' heq => ?_)
      (by simp) (by simp) (fun hno => absurd rfl (hno w)) fun k x hx => Or.inl hx
    obtain ⟨rfl, rfl⟩ := Worker.running.inj heq
    exact ⟨rfl, rfl⟩
  | none =>
    rw [haccept] at hprogram
    refine ⟨c, ⟨h.places.receive hw hq, ?_⟩, Or.inl ⟨by simp [project, hprogram], rfl⟩⟩
    have hstart : S.start r d = .refusing r := by
      unfold Service.start
      rw [haccept]
    rw [hstart]
    exact h.threads.of_refusal { s.setWorker w (.refusing r) with queue := queue } rfl rfl rfl
      hprogram (Or.inr rfl) fun k x hx => Or.inl hx

omit [DecidableEq ω] in
/-- What is in the sockets of the clients after an answer was sent. -/
theorem mem_deliver {r : κ × Nat} {a : A} {k : κ} {x : Nat × A} (hx : x ∈ (s.deliver r a).inbox k) :
    x ∈ s.inbox k ∨ (k, x.1) = r ∧ x.2 = a := by
  change x ∈ update s.inbox r.1 (s.inbox r.1 ++ [(r.2, a)]) k at hx
  by_cases hk : k = r.1
  · subst hk
    rw [update_self, List.mem_append, List.mem_singleton] at hx
    rcases hx with hx | rfl
    · exact Or.inl hx
    · exact Or.inr ⟨rfl, rfl⟩
  · rw [update_of_ne hk] at hx
    exact Or.inl hx

/-- **One step of the service.**  Whatever client or worker acts, the stages and the threads
can follow. -/
theorem Tracks.step (hprog : ∀ r p, S.program script r = some p → prog r = p)
    (h : Tracks S script s stage c) (hs : Step M S script s e s') :
    ∃ stage' c', Tracks S script s' stage' c' ∧ Follows prog S script M e c c' ∧
      Onward e stage stage' := by
  have hserved : ∀ {w r}, (s.worker w).call = some r → stage r = .served w ∧
      ∀ w', w' ≠ w → stage r ≠ .served w' := by
    intro w r hw
    have hstage := (h.places.served w r).mp hw
    exact ⟨hstage, fun w' hw' => by simpa [hstage] using hw'.symm⟩
  cases hs with
  | unsent hw =>
    have hnew := h.places.current_new hw
    exact ⟨_, c, ⟨h.places.unsent hw, h.threads.unsent hnew⟩, Or.inl ⟨rfl, rfl⟩,
      .update (by simp [hnew]) fun _ => Or.inl rfl⟩
  | @send k d hw hd =>
    have hnew := h.places.current_new hw
    exact ⟨_, c, ⟨h.places.send hw hd, h.threads.send hnew d⟩, Or.inl ⟨rfl, rfl⟩,
      .update (by simp [hnew]) fun _ => Or.inr rfl⟩
  | receive hw hq =>
    obtain ⟨c', h', hc'⟩ := h.receive hprog hw hq
    have hstage := (h.places.queued _).mp (by rw [hq]; exact List.mem_cons_self)
    exact ⟨_, c', h', hc', .update (by simp [hstage]) (by simp [hstage])⟩
  | @action w r o f x m hw he =>
    obtain ⟨hthread, hprogram⟩ := h.threads.running w r _ hw
    obtain ⟨hstage, hother⟩ := hserved (w := w) (r := r) (by rw [hw]; rfl)
    rw [← h.threads.mem] at he
    have hthreads := h.threads.of_worker h.places
      { s.setWorker w (.running r (f x)) with mem := m } (x := .served w) rfl rfl rfl hother
      (by simp [hthread]) hprogram
      (fun r' p heq => by obtain ⟨rfl, rfl⟩ := Worker.running.inj heq; exact ⟨rfl, rfl⟩) (by simp)
      (by simp) (fun hno => absurd rfl (hno w)) fun k x hx => Or.inl hx
    rw [← hstage, update_eq_self] at hthreads
    exact ⟨stage, _, ⟨h.places.action hw m, hthreads⟩, Or.inr ⟨_, rfl, .action hthread he⟩,
      .refl⟩
  | @respond w r a hw =>
    obtain ⟨hthread, hprogram⟩ := h.threads.running w r _ hw
    obtain ⟨hstage, hother⟩ := hserved (w := w) (r := r) (by rw [hw]; rfl)
    refine ⟨_, c.set r c.mem (.returned a), ⟨h.places.deliver (by rw [hw]; rfl) _, ?_⟩,
      Or.inr ⟨.respond r, by simp [project, Option.isSome_iff_ne_none, hprogram],
        .respond hthread⟩, .update (by simp [hstage]) (by simp [hstage])⟩
    refine h.threads.of_worker h.places ((s.setWorker w .idle).deliver r (S.answer a))
      h.threads.mem.symm rfl rfl hother (by simp [hthread]) hprogram (by simp) (by simp) (by simp)
      (fun _ => ⟨a, rfl⟩) fun k x hx => ?_
    rcases mem_deliver hx with hx | ⟨hr, hx⟩
    · exact Or.inl hx
    · exact Or.inr ⟨hr, a, rfl, hx⟩
  | @refuse w r hw =>
    have hprogram := h.threads.refusing w r hw
    obtain ⟨hstage, -⟩ := hserved (w := w) (r := r) (by rw [hw]; rfl)
    refine ⟨_, c, ⟨h.places.deliver (by rw [hw]; rfl) _, ?_⟩,
      Or.inl ⟨by simp [project, hprogram], rfl⟩, .update (by simp [hstage]) (by simp [hstage])⟩
    exact h.threads.of_refusal ((s.setWorker w .idle).deliver r S.refusal) rfl rfl rfl hprogram
      (Or.inl rfl) fun k x hx => mem_deliver hx
  | @take k n a inbox hw hi =>
    have hstage := (h.places.delivered (k, n)).mp (by simp [hi])
    exact ⟨_, c, ⟨h.places.take hw hi, h.threads.take h.places hw hi⟩, Or.inl ⟨rfl, rfl⟩,
      .update (by simp [hstage]) (by simp [hstage])⟩
  | lose hw => exact ⟨stage, c, ⟨h.places.lose hw, h.threads.lose⟩, Or.inl ⟨rfl, rfl⟩, .refl⟩

/-- **A run of a service is a run of the threads of its calls.** -/
theorem Run.exists_tracks (hprog : ∀ r p, S.program script r = some p → prog r = p) {m : σ}
    {tr : List (Event κ)} (h : Run M S script (.start m) tr s) :
    ∃ (stage : κ × Nat → Stage ω) (c : Config Op Resp (κ × Nat) σ α), Tracks S script s stage c ∧
      Interleaving.Run M prog (.initial m) (tr.filterMap (S.project script)) c := by
  induction h with
  | nil => exact ⟨_, _, .start m, .nil⟩
  | snoc _ hs ih =>
    obtain ⟨stage, c, htracks, hrun⟩ := ih
    obtain ⟨stage', c', htracks', hfollows, -⟩ := htracks.step hprog hs
    exact ⟨stage', c', htracks', hfollows.run hrun⟩

/-- Before a step of a run there is a run up to it, and behind it there is one as well. -/
theorem Run.exists_of_append {s₀ : State Op Resp κ ω σ α D A} {tr₁ tr₂ : List (Event κ)}
    (h : Run M S script s₀ (tr₁ ++ e :: tr₂) s) :
    ∃ s₁ s₂, Run M S script s₀ tr₁ s₁ ∧ Step M S script s₁ e s₂ ∧ Run M S script s₂ tr₂ s := by
  induction tr₂ using List.reverseRecOn generalizing s with
  | nil =>
    generalize htr : tr₁ ++ [e] = tr at h
    cases h with
    | nil => simp at htr
    | snoc h hs =>
      obtain ⟨rfl, heq⟩ := List.append_inj' htr rfl
      exact ⟨_, _, h, List.singleton_inj.mp heq ▸ hs, .nil⟩
  | append_singleton tr₂ e' ih =>
    generalize htr : tr₁ ++ e :: (tr₂ ++ [e']) = tr at h
    cases h with
    | nil => simp at htr
    | @snoc tr _ _ _ h hs =>
      rw [← List.cons_append, ← List.append_assoc] at htr
      obtain ⟨rfl, heq⟩ := List.append_inj' htr rfl
      obtain ⟨s₁, s₂, h₁, hs₁, h₂⟩ := ih h
      exact ⟨s₁, s₂, h₁, hs₁, List.singleton_inj.mp heq ▸ h₂.snoc hs⟩

omit [DecidableEq ω] in
/-- The results after one more call. -/
theorem State.getElem?_finish {k k' : κ} {n : Nat} {x y : Result A} :
    ((s.finish k' x).results k)[n]? = some y ↔
      (s.results k)[n]? = some y ∨ ((k, n) = s.current k' ∧ x = y) := by
  by_cases hk : k = k'
  · subst hk
    rw [finish_results_self, List.getElem?_append]
    split
    · rename_i hlt
      have hne : (k, n) ≠ s.current k := fun heq => by
        obtain ⟨-, rfl⟩ := Prod.mk.inj heq
        exact Nat.lt_irrefl _ hlt
      simp [hne]
    · rename_i hge
      have hnone : (s.results k)[n]? = none := List.getElem?_eq_none (Nat.le_of_not_lt hge)
      rw [hnone, List.getElem?_singleton]
      simp only [current, Prod.mk.injEq, true_and, reduceCtorEq, false_or]
      have hiff : n - (s.results k).length = 0 ↔ n = (s.results k).length := by omega
      simp [hiff]
  · have hne : (k, n) ≠ s.current k' := fun heq => hk (Prod.mk.inj heq).1
    simp [finish_results_of_ne hk, hne]

/-- What a step does to the results. -/
theorem Step.results_cases (hs : Step M S script s e s') :
    (s'.results = s.results ∧ ∀ r, e ≠ .take r ∧ e ≠ .lose r) ∨
    ∃ k x, s'.results = (s.finish k x).results ∧ ((e = .unsent (s.current k) ∧ x = .unsent) ∨
      (e = .take (s.current k) ∧ ∃ a, x = .answered a) ∨
      (e = .lose (s.current k) ∧ x = .lost)) := by
  cases hs with
  | unsent => exact Or.inr ⟨_, _, rfl, Or.inl ⟨rfl, rfl⟩⟩
  | take => exact Or.inr ⟨_, _, rfl, Or.inr (Or.inl ⟨rfl, _, rfl⟩)⟩
  | lose => exact Or.inr ⟨_, _, rfl, Or.inr (Or.inr ⟨rfl, rfl⟩)⟩
  | send => exact Or.inl ⟨rfl, by simp⟩
  | receive => exact Or.inl ⟨rfl, by simp⟩
  | action => exact Or.inl ⟨rfl, by simp⟩
  | respond => exact Or.inl ⟨rfl, by simp⟩
  | refuse => exact Or.inl ⟨rfl, by simp⟩

/-- What the trace says of the end of a call is what the client knows. -/
theorem Run.results_iff {m : σ} {tr : List (Event κ)} (h : Run M S script (.start m) tr s) (k : κ)
    (n : Nat) : (.take (k, n) ∈ tr ↔ ∃ a, (s.results k)[n]? = some (.answered a)) ∧
      (.lose (k, n) ∈ tr ↔ (s.results k)[n]? = some .lost) := by
  induction h with
  | nil => simp [State.start]
  | @snoc tr s s' e h hs ih =>
    rw [List.mem_append, List.mem_append, ih.1, ih.2, List.mem_singleton, List.mem_singleton]
    rcases hs.results_cases with ⟨heq, hne⟩ | ⟨k', x, heq, h⟩
    · rw [heq]
      exact ⟨or_iff_left (hne (k, n)).1.symm, or_iff_left (hne (k, n)).2.symm⟩
    · rw [heq]
      simp only [State.getElem?_finish, exists_or]
      rcases h with ⟨rfl, rfl⟩ | ⟨rfl, a, rfl⟩ | ⟨rfl, rfl⟩
      · simp
      · simp
      · simp

/-- A client of which the trace says so has lost no answer. -/
theorem Run.matched {m : σ} {tr : List (Event κ)} (h : Run M S script (.start m) tr s) {k : κ}
    (hlose : ∀ n, .lose (k, n) ∉ tr) : s.Matched k := fun hlost => by
  obtain ⟨n, hn⟩ := List.mem_iff_getElem?.mp hlost
  exact hlose n ((h.results_iff k n).2.mpr hn)

/-- What a client knows stays. -/
theorem Run.results_prefix {s₀ : State Op Resp κ ω σ α D A} {tr : List (Event κ)}
    (h : Run M S script s₀ tr s) (k : κ) : s₀.results k <+: s.results k := by
  induction h with
  | nil => exact List.prefix_rfl
  | snoc _ hs ih =>
    rcases hs.results_cases with ⟨heq, -⟩ | ⟨k', x, heq, -⟩
    · rwa [heq]
    · rw [heq]
      by_cases hk : k = k'
      · subst hk
        rw [State.finish_results_self]
        exact ih.trans (List.prefix_append ..)
      · rwa [State.finish_results_of_ne hk]

/-- **Only what was sent is received.** -/
theorem Run.send_of_receive {m : σ} {tr : List (Event κ)} (h : Run M S script (.start m) tr s) :
    (∀ x ∈ s.queue, .send x.1 ∈ tr) ∧ ∀ r, .receive r ∈ tr → .send r ∈ tr := by
  induction h with
  | nil => simp [State.start]
  | @snoc tr s s' e _ hs ih =>
    have hold : ∀ r, .send r ∈ tr → .send r ∈ tr ++ [e] := fun r => List.mem_append_left _
    have hsame : s'.queue = s.queue → (∀ r, e ≠ .receive r) →
        (∀ x ∈ s'.queue, .send x.1 ∈ tr ++ [e]) ∧
          ∀ r, .receive r ∈ tr ++ [e] → .send r ∈ tr ++ [e] := by
      intro hq he
      refine ⟨fun x hx => hold _ (ih.1 x (hq ▸ hx)), fun r hr => ?_⟩
      rw [List.mem_append, List.mem_singleton] at hr
      exact hold r (ih.2 r (hr.resolve_right (he r).symm))
    cases hs with
    | @send k d hw hd hroom =>
      refine ⟨fun x hx => ?_, fun r hr => hold r (ih.2 r (by simpa using hr))⟩
      rcases List.mem_append.mp hx with hx | hx
      · exact hold _ (ih.1 x hx)
      · rw [List.mem_singleton.mp hx]
        exact List.mem_append_right _ (List.mem_singleton_self _)
    | @receive w r d queue hw hq =>
      rw [hq] at ih
      refine ⟨fun x hx => hold _ (ih.1 x (List.mem_cons_of_mem _ hx)), fun r' hr => ?_⟩
      rw [List.mem_append, List.mem_singleton, Event.receive.injEq] at hr
      rcases hr with hr | rfl
      · exact hold r' (ih.2 r' hr)
      · exact hold r' (ih.1 (r', d) List.mem_cons_self)
    | unsent => exact hsame rfl (by simp)
    | action => exact hsame rfl (by simp)
    | respond => exact hsame rfl (by simp)
    | refuse => exact hsame rfl (by simp)
    | take => exact hsame rfl (by simp)
    | lose => exact hsame rfl (by simp)

/-- A thread is invoked for a request that was sent. -/
theorem Run.send_of_invoke {m : σ} {tr : List (Event κ)} (h : Run M S script (.start m) tr s)
    {r : κ × Nat} (hr : .invoke r ∈ tr.filterMap (S.project script)) : .send r ∈ tr := by
  obtain ⟨e, he, hproject⟩ := List.mem_filterMap.mp hr
  cases e with
  | receive r' =>
    rw [project, Option.ite_none_right_eq_some] at hproject
    obtain rfl := Interleaving.Event.invoke.inj (Option.some.inj hproject.2)
    exact h.send_of_receive.2 r' he
  | respond r' =>
    rw [project, Option.ite_none_right_eq_some] at hproject
    cases hproject.2
  | _ => cases hproject

/-- What was sent has begun, and is not said to be unsent. -/
theorem Run.begun_of_send {m : σ} {tr : List (Event κ)} (h : Run M S script (.start m) tr s)
    {k : κ} {n : Nat} (hsent : .send (k, n) ∈ tr) :
    n < s.begun k ∧ (s.results k)[n]? ≠ some .unsent := by
  induction h with
  | nil => cases hsent
  | @snoc tr s s' e h hs ih =>
    rw [List.mem_append, List.mem_singleton] at hsent
    have hsame : s'.waiting = s.waiting → s'.results = s.results → e ≠ .send (k, n) →
        n < s'.begun k ∧ (s'.results k)[n]? ≠ some .unsent := by
      intro hw hr he
      rw [State.begun, hw, hr]
      exact ih (hsent.resolve_right he.symm)
    -- the call of client `k'` that ends was not sent before, if it ends so
    have hfinish : ∀ (k' : κ) (x : Result A) (s'' : State Op Resp κ ω σ α D A),
        s''.waiting = (s.finish k' x).waiting → s''.results = (s.finish k' x).results →
        (x = .unsent → s.waiting k' = false) → e ≠ .send (k, n) →
        n < s''.begun k ∧ (s''.results k)[n]? ≠ some .unsent := by
      intro k' x s'' hw hr hx he
      obtain ⟨hlt, hne⟩ := ih (hsent.resolve_right he.symm)
      rw [State.begun, hw, hr]
      refine ⟨?_, fun hn => ?_⟩
      · by_cases hk : k = k'
        · subst hk
          rw [← State.begun, State.begun_finish_self]
          rw [State.begun] at hlt
          split at hlt
          · exact hlt
          · omega
        · rwa [← State.begun, State.begun_finish_of_ne hk]
      · rcases State.getElem?_finish.mp hn with hn | ⟨hcurrent, rfl⟩
        · exact hne hn
        · obtain ⟨rfl, rfl⟩ := Prod.mk.inj hcurrent
          rw [State.begun_of_not_waiting (hx rfl)] at hlt
          exact Nat.lt_irrefl _ hlt
    cases hs with
    | @unsent k' hw hlt => exact hfinish k' .unsent _ rfl rfl (fun _ => hw) (by simp)
    | @take k' n' a inbox hw hi =>
      exact hfinish k' (.answered a) _ rfl rfl (fun heq => by cases heq) (by simp)
    | @lose k' hw => exact hfinish k' .lost _ rfl rfl (fun heq => by cases heq) (by simp)
    | @send k' d hw hd hroom =>
      by_cases hk : k = k'
      · subst hk
        rw [State.begun_of_waiting (update_self ..)]
        rcases hsent with hsent | hsent
        · exact ⟨Nat.lt_succ_of_lt (State.begun_of_not_waiting hw ▸ (ih hsent).1), (ih hsent).2⟩
        · obtain ⟨-, rfl⟩ := Prod.mk.inj (Event.send.inj hsent)
          exact ⟨Nat.lt_succ_self _, by rw [List.getElem?_eq_none (Nat.le_refl _)]; simp⟩
      · have he : (k, n) ≠ s.current k' := fun heq => hk (Prod.mk.inj heq).1
        have hold := ih (hsent.resolve_right fun heq => he (Event.send.inj heq))
        simpa [State.begun, update_of_ne hk] using hold
    | receive => exact hsame rfl rfl (by simp)
    | action => exact hsame rfl rfl (by simp)
    | respond => exact hsame rfl rfl (by simp)
    | refuse => exact hsame rfl rfl (by simp)

/-- **A client makes its calls one after the other.**  When it sends a request, the calls
that it sent before are over. -/
theorem Run.exists_send {m : σ} {tr : List (Event κ)} (h : Run M S script (.start m) tr s) {k : κ}
    {n : Nat} (hsent : .send (k, n) ∈ tr) :
    ∃ tr₁ tr₂, tr = tr₁ ++ .send (k, n) :: tr₂ ∧
      ∀ n' < n, .send (k, n') ∈ tr → .take (k, n') ∈ tr₁ ∨ .lose (k, n') ∈ tr₁ := by
  obtain ⟨tr₁, tr₂, rfl⟩ := List.append_of_mem hsent
  refine ⟨tr₁, tr₂, rfl, fun n' hn' hsent' => ?_⟩
  obtain ⟨s₁, s₂, h₁, hs, h₂⟩ := h.exists_of_append
  have hresults : s₂.results = s₁.results ∧ (s₁.results k).length = n := by
    generalize he : Event.send (k, n) = e at hs
    cases hs with
    | send hw hd =>
      obtain ⟨rfl, rfl⟩ := Prod.mk.inj (Event.send.inj he)
      exact ⟨rfl, rfl⟩
    | _ => cases he
  have hlt : n' < (s₁.results k).length := hresults.2 ▸ hn'
  have hprefix := h₂.results_prefix k
  rw [hresults.1] at hprefix
  have hsame : (s.results k)[n']? = (s₁.results k)[n']? := by
    rw [List.getElem?_eq_getElem hlt, hprefix.getElem hlt, List.getElem?_eq_getElem]
  have hne := (h.begun_of_send hsent').2
  rw [hsame, List.getElem?_eq_getElem hlt] at hne
  rw [(h₁.results_iff k n').1, (h₁.results_iff k n').2, List.getElem?_eq_getElem hlt]
  cases hx : (s₁.results k)[n'] with
  | unsent => exact absurd (congrArg some hx) hne
  | lost => exact Or.inr rfl
  | answered a => exact Or.inl ⟨a, rfl⟩

/-- Client `r.1` had its answer to call `r` before call `u` was made, and had lost none of those
before it. -/
def Earlier (tr : List (Event κ)) (r u : κ × Nat) : Prop :=
  ∃ tr₁ tr₂, tr = tr₁ ++ .send u :: tr₂ ∧ .take r ∈ tr₁ ∧ ∀ n < r.2, .lose (r.1, n) ∉ tr₁

/-- **Calls in the order of time.**  If a call was over before another one was made, its thread
responded before that of the other one was invoked. -/
theorem Run.precedes (hprog : ∀ r p, S.program script r = some p → prog r = p) {m : σ}
    {tr : List (Event κ)} {r u : κ × Nat} (h : Run M S script (.start m) tr s)
    (hearlier : Earlier tr r u) (hprogram : S.program script r ≠ none)
    (hu : .invoke u ∈ tr.filterMap (S.project script)) :
    Precedes (tr.filterMap (S.project script)) r u := by
  obtain ⟨tr₁, tr₂, rfl, hr, hlost⟩ := hearlier
  obtain ⟨s₁, s₂, hrun₁, hs, -⟩ := h.exists_of_append
  obtain ⟨stage, c, htracks, hrun⟩ := hrun₁.exists_tracks hprog
  have hrespond : .respond r ∈ tr₁.filterMap (S.project script) := by
    obtain ⟨a, ha⟩ := (hrun₁.results_iff r.1 r.2).1.mp hr
    rw [hrun.respond_mem_iff]
    have hanswer : S.IsAnswer script c r a := by
      refine htracks.threads.results r.1 r.2 a ha fun hmem => ?_
      obtain ⟨n, hn, heq⟩ := List.mem_take_iff_getElem.mp hmem
      refine hlost n (Nat.lt_min.mp hn).1 ((hrun₁.results_iff r.1 n).2.mpr ?_)
      rw [List.getElem?_eq_getElem (Nat.lt_min.mp hn).2, heq]
    rcases hanswer with ⟨hnone, -⟩ | ⟨x, hx, -⟩
    · exact absurd hnone hprogram
    · exact ⟨x, hx⟩
  have hnew : .invoke u ∉ tr₁.filterMap (S.project script) := by
    rw [hrun.invoke_mem_iff, not_not]
    cases hs with
    | send hw => exact htracks.threads.fresh _ (Or.inl (htracks.places.current_new hw))
  rw [List.filterMap_append] at hu ⊢
  obtain ⟨l₁, l₂, hl⟩ := List.append_of_mem ((List.mem_append.mp hu).resolve_left hnew)
  exact ⟨_ ++ l₁, l₂, by rw [hl, List.append_assoc], List.mem_append_left _ hrespond⟩

/-- **When a thread is under way**, all calls that were over before its call was made have
returned. -/
theorem Run.returned_of_earlier (hprog : ∀ r p, S.program script r = some p → prog r = p) {m : σ}
    {tr : List (Event κ)} {r u : κ × Nat} (h : Run M S script (.start m) tr s)
    (hearlier : Earlier tr r u) (hprogram : S.program script r ≠ none)
    {tr₁ tr₂ : List (Interleaving.Event (κ × Nat))}
    (htr : tr.filterMap (S.project script) = tr₁ ++ tr₂)
    {c₁ : Config Op Resp (κ × Nat) σ α} (hrun₁ : Interleaving.Run M prog (.initial m) tr₁ c₁)
    (hu : c₁.thread u ≠ .waiting) : ∃ x, c₁.thread r = .returned x := by
  obtain ⟨stage, c, -, hrun⟩ := h.exists_tracks hprog
  have hinvoke := (hrun₁.invoke_mem_iff u).mpr hu
  have hbefore := h.precedes hprog hearlier hprogram (htr ▸ List.mem_append_left _ hinvoke)
  rw [htr] at hrun hbefore
  exact (hrun₁.respond_mem_iff r).mp (hrun.respond_mem_of_precedes hbefore hinvoke)

end Service

end Interleaving
