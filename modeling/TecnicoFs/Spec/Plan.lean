import TecnicoFs.Spec.Invariant

/-!
# Lock requests

The blocking lock requests of a call, in the order in which it makes them, as paths: the
`plan` of the call.  Which slots are locked depends on the tree; `requests` reads the
plan in a tree, up to the first path that does not resolve.

A plan is *closed*: a path is requested after all paths above it.  So which slots the
first requests name depends on those slots only (`Made.locate_congr`), and a call that holds
what it asked for so far need not care what others do to the rest of the tree.
-/

namespace TecnicoFs

open Function Graph

/-- A lock request. -/
structure Request where
  path : List (List CChar)
  access : TfsRwLockAccess
  /-- The request is made only if there is a directory here. -/
  needs : Option (List (List CChar))
  deriving Inhabited

/-- The components `cs` after `pre`: shared for all but the last one. -/
def chain (pre : List (List CChar)) : List (List CChar) → TfsRwLockAccess → List Request
  | [], _ => []
  | c :: cs, access =>
      ⟨pre ++ [c], if cs = [] then access else .shared, none⟩ :: chain (pre ++ [c]) cs access

/-- The requests of `tfs_fs_lock_all`. -/
def planLockAll (path : TfsPath) (access : TfsRwLockAccess) : List Request :=
  ⟨[], if path.len = 0 then access else .shared, none⟩ :: chain [] (comps path.str) access

/-- The access to the common ancestor. -/
def MoveSplit.ancestorAccess (s : MoveSplit) : TfsRwLockAccess :=
  if s.origParent.len = 0 ∨ s.destParent.len = 0 then .unique else .shared

/-- The parents in the order in which they are locked. -/
def MoveSplit.parents (s : MoveSplit) : TfsPath × TfsPath :=
  if s.OrigFirst then (s.origParent, s.destParent) else (s.destParent, s.origParent)

/-- The requests of a move between two directories for both of them. -/
def MoveSplit.planParents (s : MoveSplit) : List Request :=
  planLockAll s.ancestor s.ancestorAccess ++
    chain (comps s.ancestor.str) (comps s.parents.1.str) .unique ++
    chain (comps s.ancestor.str) (comps s.parents.2.str) .unique

/-- The requests of `tfs_fs_move` after those for the common ancestor. -/
def MoveSplit.planRest (s : MoveSplit) (access : TfsRwLockAccess) : List Request :=
  if s.rhsRest.len = 0 ∧ s.lhsRest.len = 0 then []
  else if s.origParent.len = 0 ∧ s.destParent.len = 0 then
    [⟨comps s.ancestor.str ++ s.origNames, .unique, none⟩]
  else
    chain (comps s.ancestor.str) (comps s.parents.1.str) .unique ++
      chain (comps s.ancestor.str) (comps s.parents.2.str) .unique ++
      [⟨comps s.ancestor.str ++ s.origNames, access,
        some (comps s.ancestor.str ++ comps s.destParent.str)⟩]

/-- The requests of `tfs_fs_move`. -/
def planMove (origPath destPath : TfsPath) (access : TfsRwLockAccess) : List Request :=
  let s := moveSplit origPath destPath
  if tfsPathEq origPath s.destParent then []
  else if tfsPathEq s.origParent destPath then []
  else planLockAll s.ancestor s.ancestorAccess ++ s.planRest access

/-- **The lock requests of a call.** -/
def Call.plan : Call → List Request
  | .create path _ => planLockAll (tfsPathPopLast path).2 .unique
  | .remove path =>
      planLockAll (tfsPathPopLast path).2 .unique ++
        [⟨comps (tfsPathPopLast path).2.str ++ [(tfsPathPopLast path).1.str], .unique, none⟩]
  | .find path access => planLockAll path access
  | .move origPath destPath access => planMove origPath destPath access

/-- The lock requests of a task; a listing locks the root. -/
def Task.plan : Task → List Request
  | .call c => c.plan
  | .print _ => [⟨[], .unique, none⟩]

/-! ## Plans in a tree -/

/-- There is a directory at the path. -/
def DirAt (T : Tree) (path : List (List CChar)) : Prop :=
  ∃ i, locate T 0 path = .ok i ∧ (T i).type = .dir

instance (T : Tree) (path : List (List CChar)) : Decidable (DirAt T path) :=
  match h : locate T 0 path with
  | .ok i => decidable_of_iff ((T i).type = .dir) (by simp [DirAt, h])
  | .error _ => isFalse (by simp [DirAt, h])

/-- The slots a plan names in a tree, up to the first request that is not made. -/
def requests (T : Tree) : List Request → List (Nat × TfsRwLockAccess)
  | [] => []
  | r :: rs =>
      match locate T 0 r.path with
      | .ok i => if ∀ p ∈ r.needs, DirAt T p then (i, r.access) :: requests T rs else []
      | .error _ => []

/-- A request is made in a tree, for slot `i`. -/
def Request.Names (T : Tree) (r : Request) (i : Nat) : Prop :=
  locate T 0 r.path = .ok i ∧ ∀ p ∈ r.needs, DirAt T p

/-- The first requests of a plan, with their slots. -/
def Made (T : Tree) (done : List Request) (held : List (Nat × TfsRwLockAccess)) : Prop :=
  List.Forall₂ (fun r x => r.Names T x.1 ∧ r.access = x.2) done held

theorem Made.prefix_requests {T : Tree} {done todo : List Request}
    {held : List (Nat × TfsRwLockAccess)} (h : Made T done held) :
    held <+: requests T (done ++ todo) := by
  induction h with
  | nil => exact List.nil_prefix
  | @cons r x done held hr _ ih =>
    obtain ⟨⟨hl, hn⟩, ha⟩ := hr
    rw [List.cons_append, requests, hl]
    dsimp only
    rw [if_pos hn, ha]
    exact (List.prefix_cons_inj _).mpr ih

/-- If the next request is not made, the held slots are all the plan names. -/
theorem Made.requests_eq {T : Tree} {done todo : List Request}
    {held : List (Nat × TfsRwLockAccess)} (h : Made T done held)
    (hstop : requests T todo = []) : requests T (done ++ todo) = held := by
  induction h with
  | nil => exact hstop
  | @cons r x done held hr _ ih =>
    obtain ⟨⟨hl, hn⟩, ha⟩ := hr
    rw [List.cons_append, requests, hl]
    dsimp only
    rw [if_pos hn, ha, ih]

theorem requests_eq_nil_of_error {T : Tree} {r : Request} {rs : List Request}
    {e : TfsFsFindErrorKind} (h : locate T 0 r.path = .error e) : requests T (r :: rs) = [] := by
  rw [requests, h]

theorem requests_eq_nil_of_needs {T : Tree} {r : Request} {rs : List Request}
    {path : List (List CChar)} (hneeds : path ∈ r.needs) (h : ¬DirAt T path) :
    requests T (r :: rs) = [] := by
  rw [requests]
  cases locate T 0 r.path with
  | error e => rfl
  | ok i => exact if_neg fun hall => h (hall path hneeds)

theorem Made.snoc {T : Tree} {done : List Request} {held : List (Nat × TfsRwLockAccess)}
    (h : Made T done held) {r : Request} {i : Nat} (hr : r.Names T i) :
    Made T (done ++ [r]) (held ++ [(i, r.access)]) :=
  List.rel_append h (List.Forall₂.cons ⟨hr, rfl⟩ List.Forall₂.nil)

/-- The first of the requests that were made. -/
theorem Made.init {T : Tree} {p q : List Request} {held : List (Nat × TfsRwLockAccess)}
    (h : Made T (p ++ q) held) : ∃ held', Made T p held' := by
  have htake := List.forall₂_take p.length h
  rw [List.take_left] at htake
  exact ⟨_, htake⟩

/-- The last of the requests that were made. -/
theorem Made.exists_of_snoc {T : Tree} {done : List Request} {r : Request}
    {held : List (Nat × TfsRwLockAccess)} (h : Made T (done ++ [r]) held) :
    ∃ held' i, held = held' ++ [(i, r.access)] ∧ Made T done held' ∧ r.Names T i := by
  induction done generalizing held with
  | nil =>
    cases h with
    | @cons _ x _ _ hx h =>
      cases h
      exact ⟨[], x.1, by rw [hx.2]; rfl, List.Forall₂.nil, hx.1⟩
  | cons r' done ih =>
    cases h with
    | @cons _ x _ _ hx h =>
      obtain ⟨held', i, rfl, hmade, hr⟩ := ih h
      exact ⟨x :: held', i, rfl, List.Forall₂.cons hx hmade, hr⟩

/-- A request that was made is held. -/
theorem Made.exists_held {T : Tree} {done : List Request} {held : List (Nat × TfsRwLockAccess)}
    (h : Made T done held) {r : Request} (hr : r ∈ done) :
    ∃ i, locate T 0 r.path = .ok i ∧ (i, r.access) ∈ held := by
  induction h with
  | nil => cases hr
  | @cons r' x done held hx _ ih =>
    rcases List.mem_cons.mp hr with rfl | hr
    · obtain ⟨⟨hl, -⟩, ha⟩ := hx
      exact ⟨x.1, hl, by rw [ha]; exact List.mem_cons_self⟩
    · obtain ⟨i, hl, hmem⟩ := ih hr
      exact ⟨i, hl, List.mem_cons_of_mem _ hmem⟩

/-- What is held was requested. -/
theorem Made.exists_request {T : Tree} {done : List Request}
    {held : List (Nat × TfsRwLockAccess)} (h : Made T done held) {i : Nat} {a : TfsRwLockAccess}
    (hi : (i, a) ∈ held) : ∃ r ∈ done, r.Names T i ∧ r.access = a := by
  induction h with
  | nil => cases hi
  | @cons r x done held hx _ ih =>
    rcases List.mem_cons.mp hi with rfl | hi
    · exact ⟨r, List.mem_cons_self, hx⟩
    · obtain ⟨r', hr', hnames⟩ := ih hi
      exact ⟨r', List.mem_cons_of_mem _ hr', hnames⟩

/-- Nothing below a slot that is no directory is requested. -/
theorem requests_eq_nil_of_not_dir {T : Tree} {pre : List (List CChar)} {i : Nat}
    (hi : locate T 0 pre = .ok i) (hd : (T i).type ≠ .dir) {rs : List Request}
    (hrs : ∀ r ∈ rs, ∃ ds, ds ≠ [] ∧ r.path = pre ++ ds) : requests T rs = [] := by
  cases rs with
  | nil => rfl
  | cons r rs =>
    obtain ⟨ds, hds, hpath⟩ := hrs r List.mem_cons_self
    cases ds with
    | nil => exact absurd rfl hds
    | cons c cs =>
      have herr := (locate_append_of_ok hi (c :: cs)).trans (locate_cons_of_not_dir hd c cs)
      exact requests_eq_nil_of_error (hpath ▸ herr)

/-! ## Closed plans -/

/-- All paths above `path` are among those of `done`. -/
def Covered (done : List Request) (path : List (List CChar)) : Prop :=
  ∀ ds c es, path = ds ++ c :: es → ∃ r ∈ done, r.path = ds

/-- Every path comes after those above it, and after the ones it needs. -/
def Closed (plan : List Request) : Prop :=
  ∀ done r todo, plan = done ++ r :: todo →
    Covered done r.path ∧ ∀ p ∈ r.needs, ∃ r' ∈ done, r'.path = p

theorem Covered.mono {done done' : List Request} {path : List (List CChar)}
    (h : Covered done path) (hsub : ∀ r ∈ done, r ∈ done') : Covered done' path := by
  intro ds c es heq
  obtain ⟨r, hr, hp⟩ := h ds c es heq
  exact ⟨r, hsub r hr, hp⟩

/-- What is held decides every path right below it. -/
theorem Made.locate_congr {T T' : Tree} {done : List Request}
    {held : List (Nat × TfsRwLockAccess)} (h : Made T done held)
    (hagree : ∀ x ∈ held, T' x.1 = T x.1) {path : List (List CChar)} (hpath : Covered done path) :
    locate T' 0 path = locate T 0 path := by
  refine TecnicoFs.locate_congr fun ds c es j heq hj => ?_
  obtain ⟨r, hr, rfl⟩ := hpath ds c es heq
  obtain ⟨i, hi, hmem⟩ := h.exists_held hr
  rw [hj, Except.ok.injEq] at hi
  exact hi ▸ hagree _ hmem

/-- A path that is held stays where it is. -/
theorem Made.locate_of_mem {T T' : Tree} {done : List Request}
    {held : List (Nat × TfsRwLockAccess)} (h : Made T done held) {r : Request} (hr : r ∈ done)
    (hcov : Covered done r.path) (hagree : ∀ x ∈ held, T' x.1 = T x.1) :
    ∃ i, locate T 0 r.path = .ok i ∧ locate T' 0 r.path = .ok i ∧ T' i = T i := by
  obtain ⟨i, hi, hmem⟩ := h.exists_held hr
  exact ⟨i, hi, (h.locate_congr hagree hcov).trans hi, hagree _ hmem⟩

theorem Made.dirAt_congr {T T' : Tree} {done : List Request}
    {held : List (Nat × TfsRwLockAccess)} (h : Made T done held) {r : Request} (hr : r ∈ done)
    (hcov : Covered done r.path) (hagree : ∀ x ∈ held, T' x.1 = T x.1) (hdir : DirAt T r.path) :
    DirAt T' r.path := by
  obtain ⟨i, hi, hi', hT⟩ := h.locate_of_mem hr hcov hagree
  obtain ⟨j, hj, htype⟩ := hdir
  rw [hi, Except.ok.injEq] at hj
  subst hj
  exact ⟨i, hi', hT ▸ htype⟩

/-- **The first requests depend only on the slots they name.** -/
theorem Made.congr {T T' : Tree} {plan done todo : List Request}
    {held : List (Nat × TfsRwLockAccess)} (hclosed : Closed plan) (hplan : plan = done ++ todo)
    (h : Made T done held) (hagree : ∀ x ∈ held, T' x.1 = T x.1) : Made T' done held := by
  have key : ∀ (pre suf : List Request) (hpre hsuf : List (Nat × TfsRwLockAccess)),
      done = pre ++ suf → held = hpre ++ hsuf → Made T pre hpre → Made T suf hsuf →
      Made T' suf hsuf := by
    intro pre suf hpre hsuf hdone hheld hmpre hmsuf
    induction hmsuf generalizing pre hpre with
    | nil => exact List.Forall₂.nil
    | @cons r x suf hsuf hr hmsuf ih =>
      have hcl := hclosed pre r (suf ++ todo) (by rw [hplan, hdone]; simp)
      have hagree' : ∀ y ∈ hpre, T' y.1 = T y.1 := fun y hy => hagree y (by rw [hheld]; simp [hy])
      obtain ⟨⟨hl, hn⟩, ha⟩ := hr
      refine List.Forall₂.cons ⟨⟨(hmpre.locate_congr hagree' hcl.1).trans hl, ?_⟩, ha⟩ ?_
      · intro p hp
        obtain ⟨r', hr', rfl⟩ := hcl.2 p hp
        obtain ⟨pre₁, pre₂, rfl⟩ := List.append_of_mem hr'
        have hcl' := hclosed pre₁ r' (pre₂ ++ r :: suf ++ todo) (by rw [hplan, hdone]; simp)
        exact hmpre.dirAt_congr hr' (hcl'.1.mono (by simp +contextual)) hagree' (hn _ hp)
      · refine ih (pre ++ [r]) (hpre ++ [x]) (by rw [hdone]; simp) (by rw [hheld]; simp) ?_
        exact List.rel_append hmpre (List.Forall₂.cons ⟨⟨hl, hn⟩, ha⟩ List.Forall₂.nil)
  exact key [] done [] held rfl rfl List.Forall₂.nil h

/-- Nor does the next request depend on anything else. -/
theorem Made.names_congr {T T' : Tree} {plan done todo : List Request} {r : Request}
    {held : List (Nat × TfsRwLockAccess)} (hclosed : Closed plan)
    (hplan : plan = done ++ r :: todo) (h : Made T done held)
    (hagree : ∀ x ∈ held, T' x.1 = T x.1) {i : Nat} (hr : r.Names T i) : r.Names T' i := by
  obtain ⟨hcov, hneeds⟩ := hclosed done r todo hplan
  refine ⟨(h.locate_congr hagree hcov).trans hr.1, fun p hp => ?_⟩
  obtain ⟨r', hr', rfl⟩ := hneeds p hp
  obtain ⟨pre, post, rfl⟩ := List.append_of_mem hr'
  have hcov' := (hclosed pre r' (post ++ r :: todo) (by rw [hplan]; simp)).1
  exact h.dirAt_congr hr' (hcov'.mono (by simp +contextual)) hagree (hr.2 _ hp)

/-! ## The plans of the calls are closed

`Extends p q` says that `q` can follow `p` in a closed plan in which no path occurs twice. -/

/-- What is asked of a request that comes after `done`. -/
structure Follows (done : List Request) (r : Request) : Prop where
  covered : Covered done r.path
  needs : ∀ p ∈ r.needs, ∃ r' ∈ done, r'.path = p
  fresh : ∀ r' ∈ done, r'.path ≠ r.path
  nulFree : ∀ c ∈ r.path, NulFree c

/-- Every request follows those before it. -/
def Extends (p q : List Request) : Prop :=
  ∀ done r todo, q = done ++ r :: todo → Follows (p ++ done) r

theorem extends_nil (p : List Request) : Extends p [] := by
  intro done r todo h
  simp at h

theorem Extends.cons {p q : List Request} {r : Request} (hr : Follows p r)
    (hq : Extends (p ++ [r]) q) : Extends p (r :: q) := by
  intro done r' todo h
  cases done with
  | nil =>
    obtain ⟨rfl, -⟩ := List.cons.inj h
    simpa using hr
  | cons r'' done =>
    obtain ⟨rfl, h'⟩ := List.cons.inj h
    simpa using hq done r' todo h'

theorem Extends.append {p q q' : List Request} (hq : Extends p q) (hq' : Extends (p ++ q) q') :
    Extends p (q ++ q') := by
  induction q generalizing p with
  | nil => simpa using hq'
  | cons r q ih =>
    refine Extends.cons (by simpa using hq [] r q rfl) (ih ?_ (by simpa using hq'))
    intro done r' todo h
    simpa using hq (r :: done) r' todo (by rw [h]; rfl)

theorem Extends.closed {plan : List Request} (h : Extends [] plan) : Closed plan := by
  intro done r todo heq
  have hr := h done r todo heq
  exact ⟨by simpa using hr.covered, by simpa using hr.needs⟩

theorem Covered.snoc {done : List Request} {pre : List (List CChar)} (h : Covered done pre)
    (hpre : ∃ r ∈ done, r.path = pre) (c : List CChar) : Covered done (pre ++ [c]) := by
  intro ds c' es heq
  rcases List.eq_nil_or_concat' es with rfl | ⟨es', e, rfl⟩
  · obtain ⟨rfl, -⟩ := List.append_inj' heq rfl
    exact hpre
  · have heq' : pre ++ [c] = (ds ++ c' :: es') ++ [e] := by rw [heq]; simp
    exact h ds c' es' (List.append_inj' heq' rfl).1

theorem covered_nil (done : List Request) : Covered done [] := by
  intro ds c es h
  simp at h

/-- The paths of a chain. -/
theorem exists_of_mem_chain {pre cs : List (List CChar)} {access : TfsRwLockAccess} {r : Request}
    (h : r ∈ chain pre cs access) :
    ∃ ds, ds ≠ [] ∧ ds <+: cs ∧ r.path = pre ++ ds := by
  induction cs generalizing pre with
  | nil => simp [chain] at h
  | cons c cs ih =>
    rw [chain, List.mem_cons] at h
    rcases h with rfl | h
    · exact ⟨[c], by simp, by simp, rfl⟩
    · obtain ⟨ds, -, hds, hp⟩ := ih h
      exact ⟨c :: ds, by simp, by simpa using hds, by rw [hp]; simp⟩

/-- All requests of a move after those for the common ancestor are below it. -/
theorem MoveSplit.exists_of_mem_planRest {s : MoveSplit} {access : TfsRwLockAccess} {r : Request}
    (h : r ∈ s.planRest access) : ∃ ds, ds ≠ [] ∧ r.path = comps s.ancestor.str ++ ds := by
  have horig : s.origNames ≠ [] := by simp [origNames]
  rw [planRest] at h
  split at h
  · cases h
  split at h
  · rw [List.mem_singleton.mp h]
    exact ⟨_, horig, rfl⟩
  · rw [List.mem_append, List.mem_append] at h
    rcases h with (h | h) | h
    · obtain ⟨ds, hds, -, hpath⟩ := exists_of_mem_chain h
      exact ⟨ds, hds, hpath⟩
    · obtain ⟨ds, hds, -, hpath⟩ := exists_of_mem_chain h
      exact ⟨ds, hds, hpath⟩
    · rw [List.mem_singleton.mp h]
      exact ⟨_, horig, rfl⟩

/-- A chain ends with the whole path. -/
theorem exists_mem_chain {p : List Request} {pre : List (List CChar)}
    (hpre : ∃ r ∈ p, r.path = pre) (cs : List (List CChar)) (access : TfsRwLockAccess) :
    ∃ r ∈ p ++ chain pre cs access, r.path = pre ++ cs := by
  induction cs generalizing p pre with
  | nil => simpa [chain] using hpre
  | cons c cs ih =>
    obtain ⟨r, hr, hp⟩ := @ih (p ++ [⟨pre ++ [c], if cs = [] then access else .shared, none⟩])
      (pre ++ [c]) ⟨_, List.mem_append_right _ List.mem_cons_self, rfl⟩
    exact ⟨r, by simpa [chain] using hr, by simpa using hp⟩

/-- What a chain ends with has the access that was asked for. -/
theorem exists_mem_chain_access {pre cs : List (List CChar)} (hcs : cs ≠ [])
    (access : TfsRwLockAccess) :
    ∃ r ∈ chain pre cs access, r.path = pre ++ cs ∧ r.access = access := by
  induction cs generalizing pre with
  | nil => exact absurd rfl hcs
  | cons c cs ih =>
    rw [chain]
    by_cases hnil : cs = []
    · subst hnil
      exact ⟨_, List.mem_cons_self, rfl, rfl⟩
    · obtain ⟨r, hr, hp, ha⟩ := @ih (pre ++ [c]) hnil
      exact ⟨r, List.mem_cons_of_mem _ hr, by simpa using hp, ha⟩

/-- A chain covers its path. -/
theorem covered_chain {p : List Request} {pre : List (List CChar)} (hcov : Covered p pre)
    (hpre : ∃ r ∈ p, r.path = pre) (cs : List (List CChar)) (access : TfsRwLockAccess) :
    Covered (p ++ chain pre cs access) (pre ++ cs) := by
  induction cs generalizing p pre with
  | nil => simpa [chain] using hcov
  | cons c cs ih =>
    have h := @ih (p ++ [⟨pre ++ [c], if cs = [] then access else .shared, none⟩]) (pre ++ [c])
      ((hcov.snoc hpre c).mono fun r hr => List.mem_append_left _ hr)
      ⟨_, List.mem_append_right _ List.mem_cons_self, rfl⟩
    simpa [chain] using h

/-- **A chain can follow what ends with its start**, if none of its paths occurred. -/
theorem extends_chain {p : List Request} {pre cs : List (List CChar)} {access : TfsRwLockAccess}
    (hcov : Covered p pre) (hpre : ∃ r ∈ p, r.path = pre)
    (hfresh : ∀ ds, ds ≠ [] → ds <+: cs → ∀ r ∈ p, r.path ≠ pre ++ ds)
    (hnul : ∀ c ∈ pre ++ cs, NulFree c) : Extends p (chain pre cs access) := by
  induction cs generalizing p pre with
  | nil => exact extends_nil p
  | cons c cs ih =>
    have hr : Follows p ⟨pre ++ [c], if cs = [] then access else .shared, none⟩ :=
      { covered := hcov.snoc hpre c
        needs := by simp
        fresh := hfresh [c] (by simp) (by simp)
        nulFree := fun c' hc' => hnul c' (by
          rcases List.mem_append.mp hc' with h | h
          · simp [h]
          · simp [List.mem_singleton.mp h]) }
    refine Extends.cons hr (ih ?_ ⟨_, List.mem_append_right _ List.mem_cons_self, rfl⟩ ?_ (by simpa using hnul))
    · exact (hcov.snoc hpre c).mono fun r hr => List.mem_append_left _ hr
    · intro ds hds hpref r hrp
      rcases List.mem_append.mp hrp with hrp | hrp
      · simpa using hfresh (c :: ds) (by simp) (by simpa using hpref) r hrp
      · rw [List.mem_singleton.mp hrp]
        simpa using hds

theorem extends_planLockAll {path : TfsPath} (hnul : ∀ c ∈ comps path.str, NulFree c)
    (access : TfsRwLockAccess) : Extends [] (planLockAll path access) := by
  have hroot : Follows [] ⟨[], if path.len = 0 then access else .shared, none⟩ :=
    { covered := covered_nil _
      needs := by simp
      fresh := by simp
      nulFree := by simp }
  refine Extends.cons hroot (extends_chain (covered_nil _) ⟨_, List.mem_cons_self, rfl⟩ ?_
    (by simpa using hnul))
  intro ds hds _ r hr
  rw [List.mem_singleton.mp hr]
  simpa using hds.symm

/-- The paths of `planLockAll`. -/
theorem prefix_of_mem_planLockAll {path : TfsPath} {access : TfsRwLockAccess} {r : Request}
    (h : r ∈ planLockAll path access) : r.path <+: comps path.str := by
  rcases List.mem_cons.mp h with rfl | h
  · exact List.nil_prefix
  · obtain ⟨ds, -, hds, hp⟩ := exists_of_mem_chain h
    rw [hp]
    simpa using hds

theorem exists_mem_planLockAll (path : TfsPath) (access : TfsRwLockAccess) :
    ∃ r ∈ planLockAll path access, r.path = comps path.str :=
  @exists_mem_chain [⟨[], if path.len = 0 then access else .shared, none⟩] []
    ⟨_, List.mem_cons_self, rfl⟩ (comps path.str) access

/-- The last request of `planLockAll` is the one for the whole path. -/
theorem planLockAll_eq_snoc (path : TfsPath) (access : TfsRwLockAccess) :
    ∃ p r, planLockAll path access = p ++ [r] ∧ r.path = comps path.str := by
  have key : ∀ (cs pre : List (List CChar)) (r₀ : Request), r₀.path = pre →
      ∃ p r, r₀ :: chain pre cs access = p ++ [r] ∧ r.path = pre ++ cs := by
    intro cs
    induction cs with
    | nil => exact fun pre r₀ hr₀ => ⟨[], r₀, rfl, by rw [hr₀, List.append_nil]⟩
    | cons c cs ih =>
      intro pre r₀ _
      obtain ⟨p, r, hp, hr⟩ := ih (pre ++ [c])
        ⟨pre ++ [c], if cs = [] then access else .shared, none⟩ rfl
      exact ⟨r₀ :: p, r, by rw [chain, hp]; rfl, by simpa using hr⟩
  rw [planLockAll]
  simpa using key (comps path.str) [] _ rfl

theorem covered_planLockAll (path : TfsPath) (access : TfsRwLockAccess) :
    Covered (planLockAll path access) (comps path.str) :=
  @covered_chain [⟨[], if path.len = 0 then access else .shared, none⟩] [] (covered_nil _)
    ⟨_, List.mem_cons_self, rfl⟩ (comps path.str) access

theorem exists_mem_planLockAll_access {path : TfsPath}
    (h : comps path.str = [] ↔ path.len = 0) (access : TfsRwLockAccess) :
    ∃ r ∈ planLockAll path access, r.path = comps path.str ∧ r.access = access := by
  rw [planLockAll]
  by_cases hlen : path.len = 0
  · exact ⟨_, List.mem_cons_self, (h.mpr hlen).symm, if_pos hlen⟩
  · have hne : comps path.str ≠ [] := fun hnil => hlen (h.mp hnil)
    obtain ⟨r, hr, hp, ha⟩ := @exists_mem_chain_access [] _ hne access
    exact ⟨r, List.mem_cons_of_mem _ hr, hp, ha⟩

/-- Where a path leads to depends only on what was locked along it. -/
theorem Made.locate_planLockAll {T T' : Tree} {path : TfsPath} {access : TfsRwLockAccess}
    {todo : List Request} {held : List (Nat × TfsRwLockAccess)}
    (h : Made T (planLockAll path access ++ todo) held)
    (hagree : ∀ x ∈ held, T' x.1 = T x.1) :
    locate T' 0 (comps path.str) = locate T 0 (comps path.str) :=
  h.locate_congr hagree ((covered_planLockAll path access).mono fun _ hr =>
    List.mem_append_left _ hr)

/-- The slot where a path leads to is held. -/
theorem Made.mem_planLockAll {T : Tree} {path : TfsPath} {access : TfsRwLockAccess}
    {todo : List Request} {held : List (Nat × TfsRwLockAccess)}
    (h : Made T (planLockAll path access ++ todo) held) {i : Nat}
    (hi : locate T 0 (comps path.str) = .ok i) : ∃ b, (i, b) ∈ held := by
  obtain ⟨r, hr, hp⟩ := exists_mem_planLockAll path access
  obtain ⟨j, hj, hmem⟩ := h.exists_held (List.mem_append_left _ hr)
  rw [hp, hi, Except.ok.injEq] at hj
  exact ⟨r.access, hj ▸ hmem⟩

/-- That slot is the last one that was locked. -/
theorem Made.exists_last {T : Tree} {path : TfsPath} {access : TfsRwLockAccess}
    {held : List (Nat × TfsRwLockAccess)} (h : Made T (planLockAll path access) held) {i : Nat}
    (hi : locate T 0 (comps path.str) = .ok i) : ∃ init b, held = init ++ [(i, b)] := by
  obtain ⟨p, r, hp, hr⟩ := planLockAll_eq_snoc path access
  rw [hp] at h
  obtain ⟨init, j, rfl, -, hj⟩ := h.exists_of_snoc
  obtain rfl : i = j := by simpa [hr, hi] using hj.1
  exact ⟨init, r.access, rfl⟩

theorem Made.mem_planLockAll_access {T : Tree} {path : TfsPath} {access : TfsRwLockAccess}
    (htrim : comps path.str = [] ↔ path.len = 0) {todo : List Request}
    {held : List (Nat × TfsRwLockAccess)} (h : Made T (planLockAll path access ++ todo) held)
    {i : Nat} (hi : locate T 0 (comps path.str) = .ok i) : (i, access) ∈ held := by
  obtain ⟨r, hr, hp, ha⟩ := exists_mem_planLockAll_access htrim access
  obtain ⟨j, hj, hmem⟩ := h.exists_held (List.mem_append_left _ hr)
  rw [hp, hi, Except.ok.injEq] at hj
  exact ha ▸ hj ▸ hmem

/-- The root is held. -/
theorem Made.root_mem {T : Tree} {path : TfsPath} {access : TfsRwLockAccess}
    {todo : List Request} {held : List (Nat × TfsRwLockAccess)}
    (h : Made T (planLockAll path access ++ todo) held) : ∃ b, (0, b) ∈ held := by
  obtain ⟨j, hj, hmem⟩ := h.exists_held (List.mem_append_left _ List.mem_cons_self)
  obtain rfl : 0 = j := Except.ok.inj hj
  exact ⟨_, hmem⟩

/-- A child can follow the chain of its parent. -/
theorem extends_child {path : TfsPath} (hnul : ∀ c ∈ comps path.str, NulFree c)
    {name : List CChar} (hname : NulFree name) (access access' : TfsRwLockAccess) :
    Extends (planLockAll path access) [⟨comps path.str ++ [name], access', none⟩] := by
  refine Extends.cons ⟨?_, by simp, ?_, ?_⟩ (extends_nil _)
  · exact (covered_planLockAll path access).snoc (exists_mem_planLockAll path access) name
  · intro r hr heq
    have hlen := (prefix_of_mem_planLockAll hr).length_le
    rw [heq, List.length_append, List.length_singleton] at hlen
    omega
  · intro c hc
    rcases List.mem_append.mp hc with hc | hc
    · exact hnul c hc
    · exact List.mem_singleton.mp hc ▸ hname

/-! ### Moves -/

namespace MoveSplit.Cuts

variable {s : MoveSplit} {origPath destPath : TfsPath} (h : s.Cuts origPath destPath)

include h

/-- Names that lead from the common ancestor into its two sides differ at once. -/
theorem not_prefix_both {ds : List (List CChar)} (hds : ds ≠ [])
    (ho : ds <+: s.origNames) (hd : ds <+: comps s.destParent.str) : False := by
  obtain ⟨es, heo⟩ := ho
  obtain ⟨fs, hed⟩ := hd
  have hne : ¬(s.origParent.len = 0 ∧ s.destParent.len = 0) := by
    rintro ⟨-, hlen⟩
    rw [h.destParent.mpr hlen, List.append_eq_nil_iff] at hed
    exact hds hed.1
  rcases h.diverge hne with ⟨hnil, -⟩ | ⟨c, c', as, bs, hco, hcd, hcc⟩
  · rw [hnil, List.append_eq_nil_iff] at hed
    exact hds hed.1
  · cases ds with
    | nil => exact hds rfl
    | cons d ds =>
      rw [hco, List.cons_append, List.cons.injEq] at heo
      rw [hcd, List.cons_append, List.cons.injEq] at hed
      exact hcc (heo.1.symm.trans hed.1)

omit h in
theorem parents_cases : s.parents = (s.origParent, s.destParent) ∨
    s.parents = (s.destParent, s.origParent) := by
  rw [MoveSplit.parents]
  split
  · exact Or.inl rfl
  · exact Or.inr rfl

omit h in
theorem eq_parents {p : TfsPath} (hp : p = s.origParent ∨ p = s.destParent) :
    p = s.parents.1 ∨ p = s.parents.2 := by
  rcases parents_cases (s := s) with heq | heq
  · rw [heq]
    exact hp
  · rw [heq]
    exact hp.symm

/-- The two sides in the order of locking differ at once as well. -/
theorem not_prefix_parents {ds : List (List CChar)} (hds : ds ≠ [])
    (h₁ : ds <+: comps s.parents.1.str) (h₂ : ds <+: comps s.parents.2.str) : False := by
  have horig : comps s.origParent.str <+: s.origNames := List.prefix_append ..
  rcases parents_cases (s := s) with heq | heq
  · rw [heq] at h₁ h₂
    exact h.not_prefix_both hds (h₁.trans horig) h₂
  · rw [heq] at h₁ h₂
    exact h.not_prefix_both hds (h₂.trans horig) h₁

theorem nulFree_parents (hn : NulFree origPath.str) (hm : NulFree destPath.str) :
    (∀ c ∈ comps s.parents.1.str, NulFree c) ∧ ∀ c ∈ comps s.parents.2.str, NulFree c := by
  rcases parents_cases (s := s) with heq | heq
  · rw [heq]
    exact ⟨h.nulFree_origParent hn, h.nulFree_destParent hm⟩
  · rw [heq]
    exact ⟨h.nulFree_destParent hm, h.nulFree_origParent hn⟩

/-- Both parents are locked for unique access, and all above them is locked. -/
theorem exists_mem_planParents {p : TfsPath}
    (hp : p = s.origParent ∨ p = s.destParent) :
    (∃ r ∈ s.planParents, r.path = comps s.ancestor.str ++ comps p.str ∧ r.access = .unique) ∧
      Covered s.planParents (comps s.ancestor.str ++ comps p.str) := by
  have hcov := covered_planLockAll s.ancestor s.ancestorAccess
  have hpre := exists_mem_planLockAll s.ancestor s.ancestorAccess
  have hlen : comps p.str = [] ↔ p.len = 0 := by
    rcases hp with rfl | rfl
    · exact h.origParent
    · exact h.destParent
  constructor
  · by_cases hnil : comps p.str = []
    · have hunique : s.ancestorAccess = .unique := by
        refine if_pos ?_
        rcases hp with rfl | rfl
        · exact Or.inl (hlen.mp hnil)
        · exact Or.inr (hlen.mp hnil)
      obtain ⟨r, hr, hpath, hacc⟩ := exists_mem_planLockAll_access h.ancestor s.ancestorAccess
      refine ⟨r, ?_, by rw [hnil, List.append_nil, hpath], hacc.trans hunique⟩
      exact List.mem_append_left _ (List.mem_append_left _ hr)
    · obtain ⟨r, hr, hpath, hacc⟩ := @exists_mem_chain_access (comps s.ancestor.str) _ hnil .unique
      refine ⟨r, ?_, hpath, hacc⟩
      rcases eq_parents hp with rfl | rfl
      · exact List.mem_append_left _ (List.mem_append_right _ hr)
      · exact List.mem_append_right _ hr
  · rcases eq_parents hp with rfl | rfl
    · exact (covered_chain hcov hpre _ _).mono fun r hr => List.mem_append_left _ hr
    · refine covered_chain (hcov.mono fun r hr => List.mem_append_left _ hr) ?_ _ _
      obtain ⟨r, hr, hpath⟩ := hpre
      exact ⟨r, List.mem_append_left _ hr, hpath⟩

theorem extends_planRest (hn : NulFree origPath.str) (hm : NulFree destPath.str)
    (access : TfsRwLockAccess) :
    Extends (planLockAll s.ancestor s.ancestorAccess) (s.planRest access) := by
  have hanc := h.nulFree_ancestor hn
  have hnames := h.nulFree_origNames hn
  obtain ⟨hnul₁, hnul₂⟩ := h.nulFree_parents hn hm
  have happend : ∀ {cs : List (List CChar)}, (∀ c ∈ cs, NulFree c) →
      ∀ c ∈ comps s.ancestor.str ++ cs, NulFree c := by
    intro cs hcs c hc
    rcases List.mem_append.mp hc with hc | hc
    · exact hanc c hc
    · exact hcs c hc
  have hcov := covered_planLockAll s.ancestor s.ancestorAccess
  have hpre := exists_mem_planLockAll s.ancestor s.ancestorAccess
  have hlong : ∀ ds : List (List CChar), ds ≠ [] →
      ∀ r ∈ planLockAll s.ancestor s.ancestorAccess, r.path ≠ comps s.ancestor.str ++ ds := by
    intro ds hds r hr heq
    have hlen := (prefix_of_mem_planLockAll hr).length_le
    rw [heq, List.length_append] at hlen
    exact hds (List.length_eq_zero_iff.mp (by omega))
  rw [MoveSplit.planRest]
  split
  · exact extends_nil _
  split
  · rename_i h₂
    have ho : s.origNames = [s.origFilename.str] := by
      rw [MoveSplit.origNames, h.origParent.mpr h₂.1]
      rfl
    rw [ho]
    exact extends_child hanc (h.nulFree_origFilename hn) _ _
  · -- the two chains, then the child
    have hmono : ∀ {q : List Request} {path : List (List CChar)},
        Covered (planLockAll s.ancestor s.ancestorAccess) path →
        Covered (planLockAll s.ancestor s.ancestorAccess ++ q) path :=
      fun hc => hc.mono fun r hr => List.mem_append_left _ hr
    have hmem : ∀ q : List Request, ∃ r ∈ planLockAll s.ancestor s.ancestorAccess ++ q,
        r.path = comps s.ancestor.str := by
      intro q
      obtain ⟨r, hr, hp⟩ := hpre
      exact ⟨r, List.mem_append_left _ hr, hp⟩
    have hfirst : Extends (planLockAll s.ancestor s.ancestorAccess)
        (chain (comps s.ancestor.str) (comps s.parents.1.str) .unique) :=
      extends_chain hcov hpre (fun ds hds _ => hlong ds hds) (happend hnul₁)
    have hsecond : Extends (planLockAll s.ancestor s.ancestorAccess ++
        chain (comps s.ancestor.str) (comps s.parents.1.str) .unique)
        (chain (comps s.ancestor.str) (comps s.parents.2.str) .unique) := by
      refine extends_chain (hmono hcov) (hmem _) ?_ (happend hnul₂)
      intro ds hds hpref r hr heq
      rcases List.mem_append.mp hr with hr | hr
      · exact hlong ds hds r hr heq
      · obtain ⟨ds', -, hpref', hp⟩ := exists_of_mem_chain hr
        rw [hp, List.append_cancel_left_eq] at heq
        exact h.not_prefix_parents hds (heq ▸ hpref') hpref
    refine Extends.append (hfirst.append hsecond) (Extends.cons ⟨?_, ?_, ?_, happend hnames⟩
      (extends_nil _))
    · -- both chains are complete when the child is asked for
      obtain ⟨⟨r, hr, hpath, -⟩, hcov'⟩ := h.exists_mem_planParents (Or.inl rfl)
      have hchild := hcov'.snoc ⟨r, hr, hpath⟩ s.origFilename.str
      rw [List.append_assoc (comps s.ancestor.str)] at hchild
      simpa only [planParents, MoveSplit.origNames, List.append_assoc] using hchild
    · intro p hp
      obtain rfl : comps s.ancestor.str ++ comps s.destParent.str = p := by simpa using hp
      obtain ⟨⟨r, hr, hpath, -⟩, -⟩ := h.exists_mem_planParents (Or.inr rfl)
      exact ⟨r, by simpa [planParents] using hr, hpath⟩
    · intro r hr heq
      have hside : ∀ q : TfsPath, (q = s.origParent ∨ q = s.destParent) →
          ∀ ds, ds <+: comps q.str → ds ≠ s.origNames := by
        rintro q (rfl | rfl) ds hds rfl
        · have hlen := hds.length_le
          rw [MoveSplit.origNames, List.length_append, List.length_singleton] at hlen
          omega
        · exact h.not_prefix_both (by simp [MoveSplit.origNames]) List.prefix_rfl hds
      have hq : ∀ q, (q = s.parents.1 ∨ q = s.parents.2) →
          q = s.origParent ∨ q = s.destParent := by
        intro q hq
        rcases parents_cases (s := s) with heq | heq
        · rw [heq] at hq
          exact hq
        · rw [heq] at hq
          exact hq.symm
      rw [List.mem_append, List.mem_append] at hr
      rcases hr with hr | hr | hr
      · exact hlong s.origNames (by simp [MoveSplit.origNames]) r hr heq
      · obtain ⟨ds, -, hds, hp⟩ := exists_of_mem_chain hr
        rw [hp, List.append_cancel_left_eq] at heq
        exact hside _ (hq _ (Or.inl rfl)) ds hds heq
      · obtain ⟨ds, -, hds, hp⟩ := exists_of_mem_chain hr
        rw [hp, List.append_cancel_left_eq] at heq
        exact hside _ (hq _ (Or.inr rfl)) ds hds heq

end MoveSplit.Cuts

/-- **In the plan of a task every request follows those before it.** -/
theorem Task.extends_plan {task : Task} (h : task.Valid) : Extends [] task.plan := by
  cases task with
  | print fileName => exact Extends.cons ⟨covered_nil _, by simp, by simp, by simp⟩ (extends_nil _)
  | call c =>
    cases c with
    | create path type => exact extends_planLockAll (nulFree_comps_popLast_rest h.1) _
    | remove path =>
      exact (extends_planLockAll (nulFree_comps_popLast_rest h) _).append
        (extends_child (nulFree_comps_popLast_rest h) (nulFree_tfsPathPopLast h) _ _)
    | find path access => exact extends_planLockAll (fun c => nulFree_of_mem_comps h) _
    | move origPath destPath access =>
      show Extends [] (planMove origPath destPath access)
      have hcuts := MoveSplit.moveSplit_cuts h.1 destPath
      rw [planMove]
      split
      · exact extends_nil _
      split
      · exact extends_nil _
      · exact (extends_planLockAll (hcuts.nulFree_ancestor h.1) _).append
          (hcuts.extends_planRest h.1 h.2 access)

theorem Task.closed_plan {task : Task} (h : task.Valid) : Closed task.plan :=
  (task.extends_plan h).closed

/-! ## The slots that are held -/

section Held

variable {capacity : Nat} {T : Tree} (hT : TreeInv capacity T) {plan done todo : List Request}
  (hplan : Extends [] plan) {held : List (Nat × TfsRwLockAccess)}

include hT hplan

/-- A request in the plan names what its path leads to. -/
theorem Made.walk {r : Request} (heq : plan = done ++ r :: todo) {i : Nat} (hr : r.Names T i) :
    Walk (Child T) 0 r.path i :=
  (locate_eq_ok_iff hT (hplan done r todo heq).nulFree).mp hr.1

/-- Two requests of the plan name different slots. -/
theorem Made.names_ne {mid : List Request} {r r' : Request}
    (heq : plan = done ++ r :: mid ++ r' :: todo) {i j : Nat} (hr : r.Names T i)
    (hr' : r'.Names T j) : i ≠ j := by
  rintro rfl
  have w := @Made.walk _ _ hT _ done _ hplan r (by rw [heq, List.append_assoc]; rfl) i hr
  have w' := Made.walk hT hplan heq hr'
  exact (hplan _ r' todo heq).fresh r (by simp) (hT.tree.walk_labels w w')

/-- A task does not ask for a slot it holds. -/
theorem Made.not_held {r : Request} (heq : plan = done ++ r :: todo) (h : Made T done held)
    {i : Nat} (hr : r.Names T i) (a : TfsRwLockAccess) : (i, a) ∉ held := by
  have key : ∀ (pre suf : List Request) (hsuf : List (Nat × TfsRwLockAccess)),
      done = pre ++ suf → Made T suf hsuf → (i, a) ∉ hsuf := by
    intro pre suf hsuf hdone hm
    induction hm generalizing pre with
    | nil => simp
    | @cons r' x suf hsuf hx hm ih =>
      rw [List.mem_cons, not_or]
      refine ⟨?_, ih (pre ++ [r']) (by rw [hdone]; simp)⟩
      rintro rfl
      exact Made.names_ne hT hplan (by rw [heq, hdone]) hx.1 hr rfl
  exact key [] done held rfl h

/-- No slot is held twice. -/
theorem Made.nodup (heq : plan = done ++ todo) (h : Made T done held) :
    (held.map Prod.fst).Nodup := by
  induction done using List.reverseRecOn generalizing held todo with
  | nil =>
    cases h
    exact List.nodup_nil
  | append_singleton done r ih =>
    obtain ⟨held, i, rfl, hmade, hr⟩ := h.exists_of_snoc
    have heq' : plan = done ++ r :: todo := by rw [heq, List.append_assoc]; rfl
    rw [List.map_append, List.nodup_append]
    refine ⟨ih heq' hmade, List.nodup_singleton _, ?_⟩
    rintro j hj k hk rfl
    obtain ⟨⟨j, b⟩, hmem, rfl⟩ := List.mem_map.mp hj
    obtain rfl : j = i := by simpa using hk
    exact hmade.not_held hT hplan heq' hr b hmem

/-- What is held is part of the tree. -/
theorem Made.live (heq : plan = done ++ todo) (h : Made T done held) :
    ∀ x ∈ held, T x.1 ≠ .none := by
  intro x hx
  induction done using List.reverseRecOn generalizing held todo with
  | nil =>
    cases h
    cases hx
  | append_singleton done r ih =>
    obtain ⟨held, i, rfl, hmade, hr⟩ := h.exists_of_snoc
    have heq' : plan = done ++ r :: todo := by rw [heq, List.append_assoc]; rfl
    rcases List.mem_append.mp hx with hx | hx
    · exact ih heq' hmade hx
    · rw [List.mem_singleton.mp hx]
      exact hT.tree.walk_live hT.tree.live_root (Made.walk hT hplan heq' hr)

end Held

end TecnicoFs
