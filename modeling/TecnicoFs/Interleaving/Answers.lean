import TecnicoFs.Interleaving.Delivery

/-!
# Whose answers a client takes

A client takes whatever answer comes first.  Once it has given up on one, the next call may
get that one, the call behind it the next one, and so on.  Still each answer is that to a
call of the same client, which was sent before, and no answer is taken twice
(`Run.exists_owner`).  A service with one worker answers in the order of the requests, so
that the calls are as many behind as answers were lost (`Run.late_answer`).
-/

namespace Interleaving

open Function

variable {Op : Type} {Resp : Op → Type} {κ ω σ α D A : Type}

namespace Service

/-- A request was sent. -/
def Result.wasSent : Result A → Bool
  | .unsent => false
  | _ => true

/-- An answer was received. -/
def Result.wasAnswered : Result A → Bool
  | .answered _ => true
  | _ => false

/-- A request was sent, and the answer could not be received. -/
def Result.wasLost : Result A → Bool
  | .lost => true
  | _ => false

theorem Result.countP_wasSent (l : List (Result A)) :
    l.countP wasSent = l.countP wasAnswered + l.countP wasLost := by
  induction l with
  | nil => rfl
  | cons x l ih =>
    cases x <;> simp only [List.countP_cons, wasSent, wasAnswered, wasLost] <;> simp <;> omega

theorem findIdxs_of_getElem? {α : Type} {p : α → Bool} {l : List α} {n : Nat} {x : α}
    (hn : l[n]? = some x) (hx : p x = true) :
    (l.findIdxs p)[(l.take n).countP p]? = some n := by
  obtain ⟨hlt, rfl⟩ := List.getElem?_eq_some_iff.mp hn
  have hsplit : l.findIdxs p =
      (l.take n).findIdxs p ++ (l[n] :: l.drop (n + 1)).findIdxs p n := by
    conv_lhs => rw [← List.take_append_drop n l, List.drop_eq_getElem_cons hlt,
      List.findIdxs_append, List.length_take, Nat.min_eq_left (Nat.le_of_lt hlt), Nat.zero_add]
  rw [hsplit, List.getElem?_append_right (Nat.le_of_eq List.length_findIdxs),
    List.length_findIdxs, Nat.sub_self, List.findIdxs_cons, if_pos hx]
  rfl

/-- As many are before an index of the list of indices as are before it in the list. -/
theorem countP_take_of_findIdxs {α : Type} {p : α → Bool} {l : List α} {i n : Nat}
    (h : (l.findIdxs p)[i]? = some n) : (l.take n).countP p = i := by
  obtain ⟨hlt, hp⟩ := List.mem_findIdxs_iff_exists_getElem_pos.mp (List.mem_of_getElem? h)
  have hn := findIdxs_of_getElem? (List.getElem?_eq_getElem hlt) hp
  obtain ⟨hi, -⟩ := List.getElem?_eq_some_iff.mp h
  exact ((List.getElem?_inj hi List.nodup_findIdxs).mp (h.trans hn.symm)).symm

/-! ## What is to come -/

namespace State

/-- The calls of client `k` for which a request was sent. -/
def sentCalls (s : State Op Resp κ ω σ α D A) (k : κ) : List Nat :=
  (s.results k).findIdxs Result.wasSent ++ if s.waiting k then [(s.results k).length] else []

/-- The calls of client `k` that took an answer. -/
def answeredCalls (s : State Op Resp κ ω σ α D A) (k : κ) : List Nat :=
  (s.results k).findIdxs Result.wasAnswered

variable [DecidableEq κ]

/-- The calls of client `k` of which the answer is still to be taken, if worker `w` is the only
one: it was sent, or the request is with the worker, or still under way. -/
def pending (s : State Op Resp κ ω σ α D A) (w : ω) (k : κ) : List Nat :=
  (s.inbox k).map Prod.fst ++ ((s.worker w).call.toList ++ s.queue.map Prod.fst).filterMap
    fun r => if r.1 = k then some r.2 else none

variable {s : State Op Resp κ ω σ α D A} {k k' : κ} {x : Result A}

theorem answeredCalls_finish_self : (s.finish k x).answeredCalls k =
    s.answeredCalls k ++ if x.wasAnswered then [(s.results k).length] else [] := by
  rw [answeredCalls, finish_results_self, List.findIdxs_append, List.findIdxs_singleton,
    Nat.zero_add]
  rfl

theorem answeredCalls_finish_of_ne (h : k' ≠ k) :
    (s.finish k x).answeredCalls k' = s.answeredCalls k' := by
  rw [answeredCalls, finish_results_of_ne h]
  rfl

/-- The end of a call changes nothing in what was sent. -/
theorem sentCalls_finish (h : x.wasSent = s.waiting k) :
    (s.finish k x).sentCalls k' = s.sentCalls k' := by
  by_cases hk : k' = k
  · subst hk
    rw [sentCalls, finish_results_self, List.findIdxs_append, List.findIdxs_singleton, h,
      Nat.zero_add]
    simp [finish, sentCalls]
  · rw [sentCalls, finish_results_of_ne hk]
    simp [finish, update_of_ne hk, sentCalls]

/-- A worker sends its answer. -/
theorem pending_deliver [DecidableEq ω] {w : ω} {r : κ × Nat} (hw : (s.worker w).call = some r)
    (a : A) : ((s.setWorker w .idle).deliver r a).pending w k = s.pending w k := by
  rw [pending, pending, hw]
  by_cases hk : r.1 = k
  · subst hk
    simp [deliver, setWorker, Worker.call]
  · have hk' : k ≠ r.1 := fun heq => hk heq.symm
    simp [deliver, setWorker, Worker.call, hk, update_of_ne hk']

end State

/-- **Answers are in the order of the requests.**  What was taken, and what is still to be
taken, is what was sent. -/
def InOrder [DecidableEq κ] (s : State Op Resp κ ω σ α D A) (w : ω) (owner : κ × Nat → Nat) :
    Prop :=
  ∀ k, (s.answeredCalls k).map (fun n => owner (k, n)) ++ s.pending w k = s.sentCalls k

/-! ## Owners -/

variable {S : Service Op Resp κ α D A} {script : κ → List (Option D)}
  {s s' : State Op Resp κ ω σ α D A} {stage stage' : κ × Nat → Stage ω}
  {c c' : Config Op Resp (κ × Nat) σ α} {e : Event κ} {tr : List (Event κ)}
  {owner : κ × Nat → Nat}

variable (S script) in
/-- **Whose answers the calls took**: call `(k, n)` took that to call `(k, owner (k, n))`. -/
structure Owned (tr : List (Event κ)) (s : State Op Resp κ ω σ α D A)
    (stage : κ × Nat → Stage ω) (c : Config Op Resp (κ × Nat) σ α) (owner : κ × Nat → Nat) :
    Prop where
  sent : ∀ r, stage r ≠ .new → stage r ≠ .ended → .send r ∈ tr
  took : ∀ k n a, (s.results k)[n]? = some (.answered a) → .send (k, owner (k, n)) ∈ tr ∧
    owner (k, n) ≤ n ∧ stage (k, owner (k, n)) = .ended ∧
    S.IsAnswer script c (k, owner (k, n)) a
  once : ∀ k n n' a a', (s.results k)[n]? = some (.answered a) →
    (s.results k)[n']? = some (.answered a') → owner (k, n) = owner (k, n') → n = n'
  own : ∀ k n a, (s.results k)[n]? = some (.answered a) → .lost ∉ (s.results k).take n →
    owner (k, n) = n

theorem Owned.start (m : σ) : Owned S script []
    (.start m : State Op Resp κ ω σ α D A) (fun _ => .new) (.initial m) owner where
  sent r h := absurd rfl h
  took k n a h := by simp [State.start] at h
  once k n n' a a' h := by simp [State.start] at h
  own k n a h := by simp [State.start] at h

variable {M : Machine Op Resp (κ × Nat) σ} {prog : κ × Nat → Prog Op Resp α}

/-- What was sent goes on. -/
theorem Owned.sent_step (h : Owned S script tr s stage c owner) (honward : Onward e stage stage')
    (r : κ × Nat) (hnew : stage' r ≠ .new) (hended : stage' r ≠ .ended) :
    .send r ∈ tr ++ [e] := by
  by_cases hr : stage r = .new
  · rcases honward.2 r hr with h' | h' | rfl
    · exact absurd h' hnew
    · exact absurd h' hended
    · exact List.mem_append_right _ (List.mem_singleton_self _)
  · exact List.mem_append_left _ (h.sent r hr fun h' => hended (honward.1 r h'))

variable [DecidableEq κ]

/-- Answers stay answers. -/
theorem IsAnswer.follows {r : κ × Nat} {a : A} (h : S.IsAnswer script c r a)
    (hc : Follows prog S script M e c c') : S.IsAnswer script c' r a := by
  rcases hc with ⟨-, rfl⟩ | ⟨_, -, hs⟩
  · exact h
  · cases hs with
    | invoke ht => exact h.set (by simp [ht]) _ _
    | action ht => exact h.set (by simp [ht]) _ _
    | respond ht => exact h.set (by simp [ht]) _ _

variable [DecidableEq ω]

/-- The steps that take no answer. -/
theorem Owned.step (h : Owned S script tr s stage c owner) (hs : Step M S script s e s')
    (hne : ∀ r, e ≠ .take r) (hfollows : Follows prog S script M e c c')
    (honward : Onward e stage stage') : Owned S script (tr ++ [e]) s' stage' c' owner := by
  have hresults : ∀ k (n : Nat) a, (s'.results k)[n]? = some (.answered a) →
      (s.results k)[n]? = some (.answered a) := by
    intro k n a hn
    rcases hs.results_cases with ⟨heq, -⟩ | ⟨k', x, heq, hx⟩
    · rwa [heq] at hn
    · rw [heq] at hn
      refine (State.getElem?_finish.mp hn).resolve_right ?_
      rintro ⟨-, rfl⟩
      rcases hx with ⟨-, hx⟩ | ⟨rfl, -⟩ | ⟨-, hx⟩
      · cases hx
      · exact hne _ rfl
      · cases hx
  refine ⟨h.sent_step honward, fun k n a hn => ?_, fun k n n' a a' hn hn' => ?_,
    fun k n a hn hlost => ?_⟩
  · obtain ⟨hsent, hle, hended, hanswer⟩ := h.took k n a (hresults k n a hn)
    exact ⟨List.mem_append_left _ hsent, hle, honward.1 _ hended, hanswer.follows hfollows⟩
  · exact h.once k n n' a a' (hresults k n a hn) (hresults k n' a' hn')
  · have hold := hresults k n a hn
    refine h.own k n a hold fun hmem => hlost ?_
    obtain ⟨l, hl⟩ := Run.results_prefix (Run.nil.snoc hs) k
    rw [← hl, List.take_append_of_le_length (Nat.le_of_lt (List.getElem?_eq_some_iff.mp hold).1)]
    exact hmem

omit [DecidableEq ω] in
/-- **A call takes an answer.** -/
theorem Owned.take (h : Owned S script tr s stage c owner) (ht : Tracks S script s stage c) {k : κ}
    {n : Nat} {a : A} {inbox : List (Nat × A)} (hw : s.waiting k = true)
    (hi : s.inbox k = (n, a) :: inbox) :
    Owned S script (tr ++ [.take (s.current k)])
      { s.finish k (.answered a) with inbox := update s.inbox k inbox }
      (update stage (k, n) .ended) c (update owner (s.current k) n) := by
  have hstage : stage (k, n) = .delivered := (ht.places.delivered (k, n)).mp (by simp [hi])
  have honward : Onward (.take (s.current k)) stage (update stage (k, n) .ended) :=
    .update (by simp [hstage]) (by simp [hstage])
  have hsent : .send (k, n) ∈ tr := h.sent (k, n) (by simp [hstage]) (by simp [hstage])
  have hlt : n ≤ (s.results k).length := by
    have hbegun : ¬s.begun k ≤ n := fun hle => by
      rw [(ht.places.new (k, n)).mpr hle] at hstage
      cases hstage
    rw [State.begun_of_waiting hw] at hbegun
    omega
  -- the answer that is taken was not taken before
  have hfresh : ∀ k' n' a', (s.results k')[n']? = some (.answered a') → k' = k →
      owner (k', n') ≠ n := by
    rintro k' n' a' hn' rfl rfl
    obtain ⟨-, -, hended, -⟩ := h.took k' n' a' hn'
    rw [hended] at hstage
    cases hstage
  have hold : ∀ k' n' a', (s.results k')[n']? = some (.answered a') →
      update owner (s.current k) n (k', n') = owner (k', n') := by
    intro k' n' a' hn'
    rw [update_of_ne]
    rintro heq
    obtain ⟨rfl, rfl⟩ := Prod.mk.inj heq
    rw [List.getElem?_eq_none (Nat.le_refl _)] at hn'
    cases hn'
  refine ⟨h.sent_step honward, fun k' n' a' hn' => ?_, fun k' n₁ n₂ a₁ a₂ h₁ h₂ heq => ?_,
    fun k' n' a' hn' hlost => ?_⟩
  · rcases State.getElem?_finish.mp hn' with hn' | ⟨hcurrent, ha⟩
    · obtain ⟨hsent', hle, hended, hanswer⟩ := h.took k' n' a' hn'
      rw [hold k' n' a' hn']
      exact ⟨List.mem_append_left _ hsent', hle, honward.1 _ hended, hanswer⟩
    · obtain ⟨rfl, rfl⟩ := Prod.mk.inj hcurrent
      obtain rfl := Result.answered.inj ha
      rw [← hcurrent, update_self]
      exact ⟨List.mem_append_left _ hsent, hlt, update_self ..,
        ht.threads.inbox _ (n, a) (by simp [hi])⟩
  · rcases State.getElem?_finish.mp h₁ with hn₁ | ⟨hc₁, -⟩
    · rw [hold _ _ _ hn₁] at heq
      rcases State.getElem?_finish.mp h₂ with hn₂ | ⟨hc₂, -⟩
      · rw [hold _ _ _ hn₂] at heq
        exact h.once k' n₁ n₂ a₁ a₂ hn₁ hn₂ heq
      · rw [hc₂, update_self] at heq
        exact absurd heq (hfresh k' n₁ a₁ hn₁ (Prod.mk.inj hc₂).1)
    · rcases State.getElem?_finish.mp h₂ with hn₂ | ⟨hc₂, -⟩
      · rw [hold _ _ _ hn₂, hc₁, update_self] at heq
        exact absurd heq.symm (hfresh k' n₂ a₂ hn₂ (Prod.mk.inj hc₁).1)
      · exact (Prod.mk.inj (hc₁.trans hc₂.symm)).2
  · rcases State.getElem?_finish.mp hn' with hold' | ⟨hcurrent, -⟩
    · rw [hold k' n' a' hold']
      refine h.own k' n' a' hold' fun hmem => hlost ?_
      have hprefix : s.results k' <+: (s.finish k (.answered a)).results k' := by
        by_cases hk : k' = k
        · subst hk
          rw [State.finish_results_self]
          exact List.prefix_append ..
        · exact (State.finish_results_of_ne hk).symm ▸ List.prefix_rfl
      obtain ⟨l, hl⟩ := hprefix
      show _ ∈ ((s.finish k (.answered a)).results k').take n'
      rw [← hl, List.take_append_of_le_length (Nat.le_of_lt (List.getElem?_eq_some_iff.mp hold').1)]
      exact hmem
    · obtain ⟨rfl, rfl⟩ := Prod.mk.inj hcurrent
      rw [← hcurrent, update_self]
      have hmatched : s.Matched k' := fun hmem => hlost <| by
        show _ ∈ ((s.finish k' (.answered a)).results k').take _
        rw [State.finish_results_self, List.take_left]
        exact hmem
      exact (Prod.mk.inj (ht.places.eq_current hmatched (n := n) (by simp [hi]))).2

/-! ## Order -/

section Order

variable {w : ω} {k : κ}

omit [DecidableEq ω]

theorem InOrder.start (m : σ) :
    InOrder (.start m : State Op Resp κ ω σ α D A) w owner := fun k => by
  simp [State.answeredCalls, State.pending, State.sentCalls, State.start, Worker.call]

/-- A step of a worker is seen in nothing but what is pending. -/
theorem InOrder.of_pending (h : InOrder s w owner) (hresults : s'.results = s.results)
    (hwaiting : s'.waiting = s.waiting) (hpending : ∀ k, s'.pending w k = s.pending w k) :
    InOrder s' w owner := fun k => by
  rw [State.answeredCalls, State.sentCalls, hresults, hwaiting, hpending]
  exact h k

/-- A call ends without an answer. -/
theorem InOrder.finish (h : InOrder s w owner) {x : Result A} (hx : x.wasAnswered = false)
    (hsent : x.wasSent = s.waiting k) : InOrder (s.finish k x) w owner := by
  intro k'
  have hanswered : (s.finish k x).answeredCalls k' = s.answeredCalls k' := by
    by_cases hk : k' = k
    · subst hk
      rw [State.answeredCalls_finish_self, hx]
      exact List.append_nil _
    · exact State.answeredCalls_finish_of_ne hk
  rw [hanswered, State.sentCalls_finish hsent]
  exact h k'

theorem InOrder.send (h : InOrder s w owner) (hw : s.waiting k = false) (d : D) :
    InOrder { s with queue := s.queue ++ [(s.current k, d)], waiting := update s.waiting k true }
      w owner := by
  intro k'
  have hk' := h k'
  by_cases hk : k' = k
  · subst hk
    simp only [State.pending, State.sentCalls, hw, State.current] at hk' ⊢
    simp only [Bool.false_eq_true, if_false, List.append_nil] at hk'
    rw [← hk']
    simp [State.answeredCalls]
  · have hk'' : ¬k = k' := fun heq => hk heq.symm
    simpa [State.pending, State.sentCalls, State.answeredCalls, State.current, hk'',
      update_of_ne hk] using hk'

/-- **A call takes the oldest answer.** -/
theorem InOrder.take (h : InOrder s w owner) (hw : s.waiting k = true) {n : Nat} {a : A}
    {inbox : List (Nat × A)} (hi : s.inbox k = (n, a) :: inbox) :
    InOrder { s.finish k (.answered a) with inbox := update s.inbox k inbox } w
      (update owner (s.current k) n) := by
  intro k'
  have hold : (s.answeredCalls k').map (fun i => update owner (s.current k) n (k', i)) =
      (s.answeredCalls k').map fun i => owner (k', i) := by
    refine List.map_congr_left fun i hi' => update_of_ne ?_ ..
    rintro heq
    obtain ⟨rfl, rfl⟩ := Prod.mk.inj heq
    exact Nat.lt_irrefl _ (List.lt_add_of_mem_findIdxs _ hi')
  have hk' := h k'
  rw [← hold] at hk'
  show ((s.finish k (.answered a)).answeredCalls k').map _ ++ _ =
    (s.finish k (.answered a)).sentCalls k'
  rw [State.sentCalls_finish (x := .answered a) hw.symm, ← hk']
  by_cases hk : k' = k
  · subst hk
    rw [State.answeredCalls_finish_self]
    simp [State.pending, State.finish, State.current, Result.wasAnswered, hi]
  · rw [State.answeredCalls_finish_of_ne hk]
    simp [State.pending, State.finish, update_of_ne hk]

/-- **The calls are as many behind as answers were lost.**  With one worker, as many requests
were sent since that of which a call took the answer, as answers were lost before. -/
theorem InOrder.late_answer (h : InOrder s w owner) {n : Nat} {a : A}
    (hn : (s.results k)[n]? = some (.answered a)) (hle : owner (k, n) ≤ n) :
    (((s.results k).take n).drop (owner (k, n))).countP Result.wasSent =
      ((s.results k).take n).countP Result.wasLost := by
  have hlt : n < (s.results k).length := (List.getElem?_eq_some_iff.mp hn).1
  have hi : (s.answeredCalls k)[((s.results k).take n).countP Result.wasAnswered]? = some n :=
    findIdxs_of_getElem? hn rfl
  have hsent : (s.sentCalls k)[((s.results k).take n).countP Result.wasAnswered]? =
      some (owner (k, n)) := by
    rw [← h k, List.getElem?_append_left, List.getElem?_map, hi]
    · rfl
    · rw [List.length_map]
      exact (List.getElem?_eq_some_iff.mp hi).1
  have hold : ((s.results k).findIdxs Result.wasSent)[
      ((s.results k).take n).countP Result.wasAnswered]? = some (owner (k, n)) := by
    rw [State.sentCalls, List.getElem?_append] at hsent
    split at hsent
    · exact hsent
    · -- what is sent now comes behind
      obtain ⟨-, heq⟩ := List.mem_ite_nil_right.mp (List.mem_of_getElem? hsent)
      rw [List.mem_singleton.mp heq] at hle
      exact absurd hle (Nat.not_le_of_lt hlt)
  have hcount := countP_take_of_findIdxs hold
  have hboth := Result.countP_wasSent ((s.results k).take n)
  have happend := congrArg (List.countP Result.wasSent)
    (List.take_append_drop (owner (k, n)) ((s.results k).take n))
  rw [List.countP_append, List.take_take, Nat.min_eq_left hle] at happend
  omega

variable [DecidableEq ω]

/-- The steps that take no answer. -/
theorem InOrder.step (h : InOrder s w owner) (hone : ∀ w', w' = w)
    (hs : Step M S script s e s') (hne : ∀ r, e ≠ .take r) : InOrder s' w owner := by
  cases hs with
  | unsent hw => exact h.finish rfl hw.symm
  | lose hw => exact h.finish rfl hw.symm
  | take => exact absurd rfl (hne _)
  | send hw => exact h.send hw _
  | @receive w' r d queue hw hq =>
    obtain rfl := hone w'
    refine h.of_pending rfl rfl fun k => ?_
    simp only [State.pending, State.setWorker, update_self, call_start, hw, hq]
    rfl
  | @action w' r o f x m hw he =>
    obtain rfl := hone w'
    refine h.of_pending rfl rfl fun k => ?_
    simp only [State.pending, State.setWorker, update_self, hw]
    rfl
  | @respond w' r a hw hroom =>
    obtain rfl := hone w'
    exact h.of_pending rfl rfl fun k => State.pending_deliver (by rw [hw]; rfl) _
  | @refuse w' r hw hroom =>
    obtain rfl := hone w'
    exact h.of_pending rfl rfl fun k => State.pending_deliver (by rw [hw]; rfl) _

end Order

/-- **Whose answers the clients take.**  Along a run of the service, and the run of the threads
that goes with it. -/
theorem Run.exists_owner (hprog : ∀ r p, S.program script r = some p → prog r = p) {m : σ}
    (h : Run M S script (.start m) tr s) :
    ∃ (stage : κ × Nat → Stage ω) (c : Config Op Resp (κ × Nat) σ α) (owner : κ × Nat → Nat),
      Tracks S script s stage c ∧
      Interleaving.Run M prog (.initial m) (tr.filterMap (S.project script)) c ∧
      Owned S script tr s stage c owner ∧ ∀ w : ω, (∀ w', w' = w) → InOrder s w owner := by
  induction h with
  | nil => exact ⟨_, _, Prod.snd, .start m, .nil, .start m, fun w _ => .start m⟩
  | @snoc tr s s' e h hs ih =>
    obtain ⟨stage, c, owner, htracks, hrun, howned, horder⟩ := ih
    by_cases htake : ∃ r, e = .take r
    · obtain ⟨r, rfl⟩ := htake
      cases hs with
      | take hw hi =>
        exact ⟨_, c, _, ⟨htracks.places.take hw hi, htracks.threads.take htracks.places hw hi⟩,
          Follows.run (Or.inl ⟨rfl, rfl⟩) hrun, howned.take htracks hw hi,
          fun w hone => (horder w hone).take hw hi⟩
    · have hne : ∀ r, e ≠ .take r := fun r heq => htake ⟨r, heq⟩
      obtain ⟨stage', c', htracks', hfollows, honward⟩ := htracks.step hprog hs
      exact ⟨stage', c', owner, htracks', hfollows.run hrun,
        howned.step hs hne hfollows honward, fun w hone => (horder w hone).step hone hs hne⟩

end Service

end Interleaving
