import TecnicoFs.Spec.Plan

/-!
# The order of lock requests

Where a call stands when it asks for a lock.  All calls lock from the root downwards, so
most of the time a call holds nothing but the paths above the one it asks for, and shares
these.  The exception is a move between two directories.  When it locks the second of the
two parents it holds the chain that leads to the first one, and what it asks for next is
not below that.

`tfs_str_cmp` decides which parent is first, by the length of the path relative to the
common ancestor of the call.  Two moves *cross* if the second parent of one and the first
parent of the other are on one line down from the root; the order of the source does not
rule that out.
-/

namespace TecnicoFs

/-- `p` is above `q`. -/
def Above (p q : List (List CChar)) : Prop := ∃ c cs, q = p ++ c :: cs

theorem above_append (p : List (List CChar)) {cs : List (List CChar)} (h : cs ≠ []) :
    Above p (p ++ cs) := by
  cases cs with
  | nil => exact absurd rfl h
  | cons c cs => exact ⟨c, cs, rfl⟩

theorem Above.isPrefix {p q : List (List CChar)} (h : Above p q) : p <+: q := by
  obtain ⟨c, cs, rfl⟩ := h
  exact List.prefix_append ..

theorem Above.length_lt {p q : List (List CChar)} (h : Above p q) : p.length < q.length := by
  obtain ⟨c, cs, rfl⟩ := h
  simp

theorem Above.of_prefix {p q r : List (List CChar)} (hp : p <+: q) (h : Above q r) :
    Above p r := by
  obtain ⟨ds, rfl⟩ := hp
  obtain ⟨c, cs, rfl⟩ := h
  rw [List.append_assoc]
  exact above_append p (by simp)

/-! ## Crossing moves -/

/-- The parents that a move between two directories locks one after the other. -/
def Call.lockedParents : Call → Option (List (List CChar) × List (List CChar))
  | .move origPath destPath _ =>
      let s := moveSplit origPath destPath
      if tfsPathEq origPath s.destParent then none
      else if tfsPathEq s.origParent destPath then none
      else if s.origParent.len = 0 ∨ s.destParent.len = 0 then none
      else some (comps s.ancestor.str ++ comps s.parents.1.str,
        comps s.ancestor.str ++ comps s.parents.2.str)
  | _ => none

/-- The second parent of one move and the first parent of another are on one line. -/
def Call.Crosses (c c' : Call) : Prop :=
  ∃ x ∈ c.lockedParents, ∃ y ∈ c'.lockedParents, x.2 <+: y.1 ∨ y.1 <+: x.2

/-! ## Where a call stands -/

/-- Everything that was asked for is above the request, and shared. -/
def Single (done : List Request) (r : Request) : Prop :=
  ∀ q ∈ done, q.access = .shared ∧ Above q.path r.path

/-- The call is on the way to the second parent `b`, and holds the chain to the first
parent `a`. -/
structure Second (a b : List (List CChar)) (done : List Request) (r : Request) : Prop where
  held : ∀ q ∈ done, (q.access = .shared ∧ Above q.path r.path) ∨
    (q.path <+: a ∧ (q.access = .unique → q.path = a))
  next : r.path <+: b
  last : r.access = .unique → r.path = b

/-- Something above the request is held for unique access. -/
def Guarded (done : List Request) (r : Request) : Prop :=
  ∃ q ∈ done, q.access = .unique ∧ Above q.path r.path

/-- The three places where a call can stand. -/
def Standing (c : Call) (done : List Request) (r : Request) : Prop :=
  Single done r ∨ (∃ x ∈ c.lockedParents, Second x.1 x.2 done r) ∨ Guarded done r

/-- Where a chain stands. -/
theorem chain_split {pre cs : List (List CChar)} {access : TfsRwLockAccess}
    {done todo : List Request} {r : Request} (h : chain pre cs access = done ++ r :: todo) :
    ∃ ds c, ds ++ [c] <+: cs ∧ r.path = pre ++ (ds ++ [c]) ∧
      (r.access = .unique → ds ++ [c] = cs) ∧
      ∀ q ∈ done, q.access = .shared ∧ ∃ es, q.path = pre ++ es ∧ es <+: ds := by
  induction cs generalizing pre done with
  | nil => simp [chain] at h
  | cons c cs ih =>
    rw [chain] at h
    cases done with
    | nil =>
      obtain ⟨rfl, -⟩ := List.cons.inj h
      refine ⟨[], c, by simp, rfl, fun hacc => ?_, by simp⟩
      by_cases hcs : cs = []
      · rw [hcs]
        rfl
      · rw [if_neg hcs] at hacc
        cases hacc
    | cons r' done =>
      obtain ⟨rfl, h'⟩ := List.cons.inj h
      have hcs : cs ≠ [] := by
        rintro rfl
        simp [chain] at h'
      obtain ⟨ds, c', hpre, hpath, hlast, hdone⟩ := ih h'
      refine ⟨c :: ds, c', by simpa using hpre, by simpa using hpath,
        fun hacc => by rw [List.cons_append, hlast hacc], fun q hq => ?_⟩
      rcases List.mem_cons.mp hq with rfl | hq
      · exact ⟨if_neg hcs, [c], rfl, by simp⟩
      · obtain ⟨hacc, es, hes, hpre'⟩ := hdone q hq
        exact ⟨hacc, c :: es, by simpa using hes, by simpa using hpre'⟩

theorem eq_of_mem_chain {pre cs : List (List CChar)} {access : TfsRwLockAccess} {r : Request}
    (h : r ∈ chain pre cs access) :
    r.path <+: pre ++ cs ∧ (r.access = .unique → r.path = pre ++ cs) := by
  obtain ⟨done, todo, heq⟩ := List.append_of_mem h
  obtain ⟨ds, c, hpre, hpath, hlast, -⟩ := chain_split heq
  rw [hpath]
  exact ⟨(List.prefix_append_right_inj pre).mpr hpre, fun hacc => by rw [hlast hacc]⟩

/-- A request is above those that follow it in a chain. -/
theorem single_of_chain {pre cs : List (List CChar)} {access : TfsRwLockAccess}
    {before done todo : List Request} {r : Request} (h : chain pre cs access = done ++ r :: todo)
    (hbefore : ∀ q ∈ before, q.access = .shared ∧ q.path <+: pre) :
    Single (before ++ done) r := by
  obtain ⟨ds, c, -, hpath, -, hdone⟩ := chain_split h
  intro q hq
  rw [hpath]
  rcases List.mem_append.mp hq with hq | hq
  · obtain ⟨hacc, hpre⟩ := hbefore q hq
    exact ⟨hacc, Above.of_prefix hpre (above_append pre (by simp))⟩
  · obtain ⟨hacc, es, hes, hpre⟩ := hdone q hq
    refine ⟨hacc, Above.of_prefix (hes ▸ (List.prefix_append_right_inj pre).mpr hpre) ?_⟩
    rw [← List.append_assoc]
    exact above_append (pre ++ ds) (by simp)

/-- One chain from the root. -/
theorem single_of_planLockAll {path : TfsPath} {access : TfsRwLockAccess}
    {done todo : List Request} {r : Request}
    (h : planLockAll path access = done ++ r :: todo) : Single done r := by
  rw [planLockAll] at h
  cases done with
  | nil => simp [Single]
  | cons r' done =>
    obtain ⟨rfl, h'⟩ := List.cons.inj h
    refine @single_of_chain _ _ _ [_] _ _ _ h' fun q hq => ?_
    rw [List.mem_singleton.mp hq]
    refine ⟨if_neg fun hlen => ?_, List.nil_prefix⟩
    rw [len_eq_zero_iff.mp hlen, comps_nil] at h'
    simp [chain] at h'

/-- A chain for shared access is shared. -/
theorem shared_of_mem_planLockAll {path : TfsPath} {r : Request}
    (h : r ∈ planLockAll path .shared) : r.access = .shared := by
  have key : ∀ (cs pre : List (List CChar)), ∀ r ∈ chain pre cs .shared, r.access = .shared := by
    intro cs
    induction cs with
    | nil => simp [chain]
    | cons c cs ih =>
      intro pre r hr
      rcases List.mem_cons.mp hr with rfl | hr
      · exact ite_self _
      · exact ih _ r hr
  rcases List.mem_cons.mp h with rfl | h
  · exact ite_self _
  · exact key _ _ r h

/-- A position in two lists in a row. -/
theorem split_cases {p q done todo : List Request} {r : Request}
    (h : p ++ q = done ++ r :: todo) :
    (∃ todo', p = done ++ r :: todo') ∨ ∃ done', done = p ++ done' ∧ q = done' ++ r :: todo := by
  rcases List.append_eq_append_iff.mp h with ⟨as, rfl, hq⟩ | ⟨bs, hp, hq⟩
  · exact Or.inr ⟨as, rfl, hq⟩
  · cases bs with
    | nil => exact Or.inr ⟨[], by rw [List.append_nil] at hp ⊢; exact hp.symm, hq.symm⟩
    | cons b bs =>
      obtain ⟨rfl, -⟩ := List.cons.inj hq
      exact Or.inl ⟨bs, hp⟩

namespace MoveSplit.Cuts

variable {s : MoveSplit} {origPath destPath : TfsPath} (h : s.Cuts origPath destPath)
  {done todo : List Request} {r : Request}

include h

/-- What a move asks for while it has the common ancestor for itself. -/
theorem guarded_of_unique {access : TfsRwLockAccess} (hacc : s.ancestorAccess = .unique)
    {p : List Request} (hsub : ∀ q ∈ planLockAll s.ancestor s.ancestorAccess, q ∈ p)
    (hr : r ∈ s.planRest access) : Guarded p r := by
  obtain ⟨q, hq, hpath, hunique⟩ := exists_mem_planLockAll_access h.ancestor s.ancestorAccess
  obtain ⟨ds, hds, hpath'⟩ := exists_of_mem_planRest hr
  exact ⟨q, hsub q hq, hunique.trans hacc, by rw [hpath, hpath']; exact above_append _ hds⟩

/-- Where a move between two directories stands. -/
theorem standing_of_parents {access : TfsRwLockAccess} (hshared : s.ancestorAccess = .shared)
    (hplan : planLockAll s.ancestor s.ancestorAccess ++
      (chain (comps s.ancestor.str) (comps s.parents.1.str) .unique ++
      chain (comps s.ancestor.str) (comps s.parents.2.str) .unique ++
      [⟨comps s.ancestor.str ++ s.origNames, access,
        some (comps s.ancestor.str ++ comps s.destParent.str)⟩]) = done ++ r :: todo) :
    Single done r ∨ Second (comps s.ancestor.str ++ comps s.parents.1.str)
      (comps s.ancestor.str ++ comps s.parents.2.str) done r ∨ Guarded done r := by
  have hbefore : ∀ q ∈ planLockAll s.ancestor s.ancestorAccess,
      q.access = .shared ∧ q.path <+: comps s.ancestor.str :=
    fun q hq => ⟨shared_of_mem_planLockAll (hshared ▸ hq), prefix_of_mem_planLockAll hq⟩
  rcases split_cases hplan with ⟨todo', heq⟩ | ⟨done₁, rfl, hrest⟩
  · exact Or.inl (single_of_planLockAll heq)
  rcases split_cases hrest with ⟨todo₁, hchains⟩ | ⟨done₂, rfl, hchild⟩
  · rcases split_cases hchains with ⟨todo', heq⟩ | ⟨done₂, rfl, heq⟩
    · exact Or.inl (single_of_chain heq hbefore)
    · -- on the way to the second parent
      obtain ⟨ds, c, hpre, hpath, hlast, hdone⟩ := chain_split heq
      have hsingle := single_of_chain heq hbefore
      refine Or.inr (Or.inl ⟨fun q hq => ?_, ?_, fun hacc => by rw [hpath, hlast hacc]⟩)
      · rw [List.mem_append, List.mem_append] at hq
        rcases hq with hq | hq | hq
        · exact Or.inl (hsingle q (List.mem_append_left _ hq))
        · exact Or.inr (eq_of_mem_chain hq)
        · exact Or.inl (hsingle q (List.mem_append_right _ hq))
      · rw [hpath]
        exact (List.prefix_append_right_inj _).mpr hpre
  · -- the moved inode, below its parent
    obtain ⟨rfl, hr⟩ : done₂ = [] ∧ r = ⟨comps s.ancestor.str ++ s.origNames, access,
        some (comps s.ancestor.str ++ comps s.destParent.str)⟩ := by
      cases done₂ with
      | nil => exact ⟨rfl, (List.cons.inj hchild).1.symm⟩
      | cons => simp at hchild
    obtain ⟨⟨q, hq, hpath, hunique⟩, -⟩ := h.exists_mem_planParents (Or.inl rfl)
    refine Or.inr (Or.inr ⟨q, by simpa [planParents] using hq, hunique, ?_⟩)
    rw [hpath, hr, MoveSplit.origNames, ← List.append_assoc]
    exact above_append _ (by simp)

end MoveSplit.Cuts

/-- **Where a call stands when it asks for a lock.** -/
theorem Call.standing {c : Call} (hvalid : c.Valid) {done todo : List Request} {r : Request}
    (h : c.plan = done ++ r :: todo) : Standing c done r := by
  cases c with
  | create path type => exact Or.inl (single_of_planLockAll h)
  | find path access => exact Or.inl (single_of_planLockAll h)
  | remove path =>
    rcases split_cases h with ⟨todo', heq⟩ | ⟨done', rfl, heq⟩
    · exact Or.inl (single_of_planLockAll heq)
    · obtain ⟨q, hq, hpath, hunique⟩ :=
        exists_mem_planLockAll_access (comps_popLast_rest_eq_nil_iff path) .unique
      have hr : r ∈ done' ++ r :: todo := by simp
      rw [← heq, List.mem_singleton] at hr
      refine Or.inr (Or.inr ⟨q, List.mem_append_left _ hq, hunique, ?_⟩)
      rw [hpath, hr]
      exact above_append _ (by simp)
  | move origPath destPath access =>
    have hcuts := MoveSplit.moveSplit_cuts hvalid.1 destPath
    replace h : planMove origPath destPath access = done ++ r :: todo := h
    rw [planMove] at h
    split at h
    · simp at h
    rename_i hfirst
    split at h
    · simp at h
    rename_i hsecond
    by_cases hparents : (moveSplit origPath destPath).origParent.len = 0 ∨
        (moveSplit origPath destPath).destParent.len = 0
    · -- the common ancestor is one of the parents
      rcases split_cases h with ⟨todo', heq⟩ | ⟨done', rfl, heq⟩
      · exact Or.inl (single_of_planLockAll heq)
      · refine Or.inr (Or.inr (@MoveSplit.Cuts.guarded_of_unique _ _ _ hcuts _ access (if_pos hparents) _
          (fun q hq => List.mem_append_left _ hq) ?_))
        rw [heq]
        simp
    · have hrest : ¬((moveSplit origPath destPath).rhsRest.len = 0 ∧
          (moveSplit origPath destPath).lhsRest.len = 0) := by
        exact fun h => hparents (Or.inl (hcuts.parents_of_rest h).1)
      rw [MoveSplit.planRest, if_neg hrest, if_neg fun hb => hparents (Or.inl hb.1)] at h
      rcases hcuts.standing_of_parents (if_neg hparents) h with hs | hs | hs
      · exact Or.inl hs
      · refine Or.inr (Or.inl ⟨(_, _), ?_, hs⟩)
        simp only [Call.lockedParents, if_neg hfirst, if_neg hsecond, if_neg hparents]
        exact rfl
      · exact Or.inr (Or.inr hs)

/-- **A move does not cross itself.** -/
theorem not_crosses_self {c : Call} (hvalid : c.Valid) : ¬c.Crosses c := by
  rintro ⟨x, hx, y, hy, hline⟩
  obtain rfl : x = y := Option.mem_unique hx hy
  cases c with
  | create path type => cases hx
  | remove path => cases hx
  | find path access => cases hx
  | move origPath destPath access =>
    have hcuts := MoveSplit.moveSplit_cuts hvalid.1 destPath
    rw [Call.lockedParents] at hx
    split at hx
    · cases hx
    split at hx
    · cases hx
    split at hx
    · cases hx
    rename_i hparents
    rw [not_or] at hparents
    obtain ⟨ho, hd⟩ := hparents
    obtain rfl := Option.mem_some_iff.mp hx
    rw [List.prefix_append_right_inj, List.prefix_append_right_inj] at hline
    have hne : ∀ p, p = (moveSplit origPath destPath).origParent ∨
        p = (moveSplit origPath destPath).destParent → comps p.str ≠ [] := by
      rintro p (rfl | rfl)
      · exact fun h => ho (hcuts.origParent.mp h)
      · exact fun h => hd (hcuts.destParent.mp h)
    have hparents := MoveSplit.Cuts.parents_cases (s := moveSplit origPath destPath)
    rcases hline with h | h
    · refine hcuts.not_prefix_parents (hne _ ?_) h List.prefix_rfl
      rcases hparents with heq | heq <;> simp [heq]
    · refine hcuts.not_prefix_parents (hne _ ?_) List.prefix_rfl h
      rcases hparents with heq | heq <;> simp [heq]

end TecnicoFs
