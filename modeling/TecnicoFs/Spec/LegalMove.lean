import TecnicoFs.Spec.Relocation
import TecnicoFs.Spec.Names

/-!
# Legal moves

A move is legal when there is something at its first path, nothing at its second one but a
directory to put it in, and neither path leads through the other.  After the two early
guards of the source every legal move succeeds.

The guards themselves compare one whole path with what is left of the parent of the other
after the common ancestor is cut off.  They mean to compare the path with that parent.  The
two comparisons differ exactly when the components of the common ancestor occur a second
time right after it (`Repeats`).
-/

namespace TecnicoFs

open Function Graph

/-- Two ways to cut a common prefix off two lists, so that what is left starts differently,
are one. -/
theorem commonPrefix_unique {α : Type*} {as bs l r l' r' : List α} (hl : as ++ l = bs ++ l')
    (hr : as ++ r = bs ++ r') (hdiff : ∀ c ∈ l.head?, c ∉ r.head?)
    (hdiff' : ∀ c ∈ l'.head?, c ∉ r'.head?) : as = bs := by
  induction as generalizing bs with
  | nil =>
    cases bs with
    | nil => rfl
    | cons b bs =>
      rw [List.nil_append] at hl hr
      exact absurd (by rw [hr]; rfl) (hdiff b (by rw [hl]; rfl))
  | cons a as ih =>
    cases bs with
    | nil =>
      rw [List.nil_append] at hl hr
      exact absurd (by rw [← hr]; rfl) (hdiff' a (by rw [← hl]; rfl))
    | cons b bs =>
      rw [List.cons_append, List.cons_append, List.cons.injEq] at hl hr
      rw [hl.1, ih hl.2 hr.2]

/-- **The move is legal.** -/
structure LegalMove (T : Tree) (origPath destPath : TfsPath) : Prop where
  orig : ∃ i, locate T 0 (comps origPath.str) = .ok i
  parent : ∃ p, locate T 0 (comps destPath.str).dropLast = .ok p ∧ (T p).type = .dir
  dest : ∀ i, locate T 0 (comps destPath.str) ≠ .ok i
  notBelow : ¬comps origPath.str <+: comps destPath.str
  notAbove : ¬comps destPath.str <+: comps origPath.str

/-- The second list is the parts of the common prefix and of the first list, and one more
component. -/
def Repeats (cs ds : List (List CChar)) : Prop :=
  ∃ as l y, as ≠ [] ∧ cs = as ++ l ∧ ds = as ++ (as ++ l ++ [y]) ∧ ∀ c ∈ l.head?, c ∉ as.head?

namespace MoveSplit

/-- The pieces of the paths the other way round. -/
def swap (s : MoveSplit) : MoveSplit :=
  ⟨s.ancestor, s.rhsRest, s.lhsRest, s.destFilename, s.destParent, s.origFilename, s.origParent⟩

namespace Cuts

variable {s : MoveSplit} {origPath destPath : TfsPath} (h : s.Cuts origPath destPath)

include h

theorem swap : s.swap.Cuts destPath origPath :=
  ⟨h.dest, h.orig, fun c hc hc' => h.differ c hc' hc, h.destPop, h.origPop, h.destParent,
    h.origParent, h.ancestor⟩

/-- If the first path is no prefix of the second one, it has a name after its parent. -/
theorem orig_eq_of_not_prefix (ho : ¬comps origPath.str <+: comps destPath.str) :
    s.origFilename.str ≠ [] ∧
      comps origPath.str =
        comps s.ancestor.str ++ comps s.origParent.str ++ [s.origFilename.str] := by
  rcases h.origPop with ⟨-, -, hl⟩ | ⟨hne, hl⟩
  · refine absurd ?_ ho
    rw [h.dest, h.orig, hl, List.append_nil]
    exact List.prefix_append ..
  · exact ⟨hne, by rw [h.orig, hl, List.append_assoc]⟩

/-- **When the first guard is wrong.** -/
theorem repeats_iff : Repeats (comps origPath.str) (comps destPath.str) ↔
    comps origPath.str = comps s.destParent.str ∧ comps s.ancestor.str ≠ [] := by
  constructor
  · rintro ⟨as, l, y, has, horig, hdest, hdiff⟩
    have heq : as = comps s.ancestor.str := by
      refine commonPrefix_unique (horig.symm.trans h.orig) (hdest.symm.trans h.dest)
        (fun c hc hc' => hdiff c hc ?_) h.differ
      obtain ⟨a, as, rfl⟩ := List.exists_cons_of_ne_nil has
      exact hc'
    refine ⟨?_, heq ▸ has⟩
    rw [h.dest, heq, List.append_cancel_left_eq] at hdest
    rw [horig, heq]
    rcases h.destPop with ⟨-, -, hr⟩ | ⟨-, hr⟩
    · rw [hr] at hdest
      simp at hdest
    · rw [hr] at hdest
      exact (List.append_inj' hdest rfl).1.symm
  · rintro ⟨heq, ha⟩
    rcases h.destPop with ⟨-, hp, -⟩ | ⟨-, hr⟩
    · rw [hp, h.orig] at heq
      exact absurd (List.append_eq_nil_iff.mp heq).1 ha
    · refine ⟨_, _, _, ha, h.orig, by rw [h.dest, hr, ← heq, h.orig], fun c hc hca => ?_⟩
      refine h.differ c hc ?_
      rw [hr, ← heq, h.orig]
      obtain ⟨a, as, has⟩ := List.exists_cons_of_ne_nil ha
      rw [has] at hca ⊢
      exact hca

theorem length_destParent_le : (comps s.destParent.str).length ≤ (comps destPath.str).length := by
  rcases h.destPop with ⟨-, hp, -⟩ | ⟨-, hr⟩
  · rw [hp]
    exact Nat.zero_le _
  · rw [h.dest, hr, List.length_append, List.length_append]
    omega

/-- Without a common ancestor the first guard is right. -/
theorem eq_dropLast_of_guard (heq : comps origPath.str = comps s.destParent.str)
    (ha : comps s.ancestor.str = []) : comps origPath.str = (comps destPath.str).dropLast := by
  rw [heq, h.dest, ha, List.nil_append]
  rcases h.destPop with ⟨-, hp, hr⟩ | ⟨-, hr⟩
  · rw [hp, hr]
    rfl
  · rw [hr, List.dropLast_concat]

end Cuts

end MoveSplit

theorem Repeats.ne_dropLast {cs ds : List (List CChar)} (h : Repeats cs ds) :
    cs ≠ ds.dropLast := by
  obtain ⟨as, l, y, has, rfl, rfl, -⟩ := h
  rw [← List.append_assoc, List.dropLast_concat]
  intro heq
  exact has (by simpa using heq)

theorem Repeats.length_le {cs ds : List (List CChar)} (h : Repeats cs ds) :
    cs.length + 2 ≤ ds.length := by
  obtain ⟨as, l, y, has, rfl, rfl, -⟩ := h
  have hpos := List.length_pos_iff.mpr has
  simp only [List.length_append, List.length_singleton]
  omega

/-! ## The outcome of a move -/

section Outcome

variable {capacity : Nat} {T : Tree} {origPath destPath : TfsPath} {access : TfsRwLockAccess}

theorem tfsPathEq_origParent_iff (hn : NulFree origPath.str) :
    tfsPathEq (moveSplit origPath destPath).origParent destPath = true ↔
      comps (moveSplit origPath destPath).origParent.str = comps destPath.str := by
  refine tfsPathEq_iff (hn.of_subset fun c hc => ?_)
  exact mem_of_mem_rest (@tfsPathCommonAncestor_splits _ destPath hn).lhs_rest c
    (mem_of_mem_tfsPathPopLast_rest c hc)

/-- The errors of the two guards. -/
def GuardError (e : Effect) : Prop :=
  e.outcome = .error .moveOriginDestinationParent ∨
    e.outcome = .error .moveDestinationOriginParent

theorem not_guardError_rename (p : Nat) (origName destName : List CChar) :
    ¬GuardError (atomicRename T p origName destName) := by
  unfold atomicRename
  split
  · split
    · simp [GuardError, Effect.fail]
    · split <;> simp [GuardError, Effect.fail]
  · simp [GuardError, Effect.fail]

theorem not_guardError_moveEntry (p q : Nat) (origName destName : List CChar)
    (access : TfsRwLockAccess) :
    ¬GuardError (atomicMoveEntry T p q origName destName access) := by
  unfold atomicMoveEntry
  split
  · split
    · split
      · simp [GuardError, Effect.fail]
      · split <;> simp [GuardError]
    · simp [GuardError, Effect.fail]
  · simp [GuardError, Effect.fail]

/-- Past its guards a move does not blame them. -/
theorem not_guardError_moveFrom (a : Nat) (s : MoveSplit) (access : TfsRwLockAccess) :
    ¬GuardError (atomicMoveFrom T a s access) := by
  unfold atomicMoveFrom
  split
  · simp [GuardError]
  split
  · simp [GuardError, Effect.fail]
  split
  · exact not_guardError_rename _ _ _
  split
  · exact not_guardError_moveEntry _ _ _ _ _
  · simp [GuardError, Effect.fail]
  · simp [GuardError, Effect.fail]
  · split <;> simp [GuardError, Effect.fail]

/-- **When the guards fire.** -/
theorem atomicMove_guards (hn : NulFree origPath.str) :
    ((atomicMove T origPath destPath access).outcome = .error .moveOriginDestinationParent ↔
      comps origPath.str = comps (moveSplit origPath destPath).destParent.str) ∧
    ((atomicMove T origPath destPath access).outcome = .error .moveDestinationOriginParent ↔
      comps origPath.str ≠ comps (moveSplit origPath destPath).destParent.str ∧
        comps (moveSplit origPath destPath).origParent.str = comps destPath.str) := by
  rw [Ne, ← tfsPathEq_iff hn, ← tfsPathEq_origParent_iff hn]
  unfold atomicMove
  dsimp only
  by_cases h₁ : tfsPathEq origPath (moveSplit origPath destPath).destParent = true
  · simp [h₁, Effect.fail]
  by_cases h₂ : tfsPathEq (moveSplit origPath destPath).origParent destPath = true
  · simp [h₁, h₂, Effect.fail]
  rw [if_neg h₁, if_neg h₂]
  cases locate T 0 (comps (moveSplit origPath destPath).ancestor.str) with
  | error kind => simp [h₁, h₂, Effect.fail]
  | ok ancestor =>
    have hno := not_guardError_moveFrom (T := T) ancestor (moveSplit origPath destPath) access
    exact ⟨iff_of_false (fun h => hno (Or.inl h)) h₁,
      iff_of_false (fun h => hno (Or.inr h)) fun h => h₂ h.2⟩

/-- **After the guards a legal move succeeds.** -/
theorem atomicMove_ok_of_legal (hT : TreeInv capacity T) (hblank : BlankFree T)
    (hn : NulFree origPath.str) (hm : NulFree destPath.str) (hlegal : LegalMove T origPath destPath)
    (ho : comps origPath.str ≠ comps (moveSplit origPath destPath).destParent.str)
    (hd : comps (moveSplit origPath destPath).origParent.str ≠ comps destPath.str) :
    ∃ i, (atomicMove T origPath destPath access).outcome = .ok i := by
  have hcuts := MoveSplit.moveSplit_cuts hn destPath
  have hguard := Bool.eq_false_iff.mpr fun h => ho ((tfsPathEq_iff hn).mp h)
  have hguard' := Bool.eq_false_iff.mpr fun h => hd ((tfsPathEq_origParent_iff hn).mp h)
  obtain ⟨-, horig⟩ := hcuts.orig_eq_of_not_prefix hlegal.notBelow
  obtain ⟨hname, hdest⟩ := hcuts.swap.orig_eq_of_not_prefix hlegal.notAbove
  obtain ⟨i, hi⟩ := hlegal.orig
  obtain ⟨q, hq, hqdir⟩ := hlegal.parent
  have hnul := hcuts.nulFree_destFilename hm
  have hnulDest := nulFree_comps hm
  simp only [MoveSplit.swap] at hname hdest
  generalize hs : moveSplit origPath destPath = s at *
  rw [horig] at hi
  rw [hdest, List.dropLast_concat] at hq
  obtain ⟨p, hp, hi⟩ := exists_locate_of_append hi
  obtain ⟨d, x, dirIdx, hpd, hfound, -⟩ := locate_cons_eq_ok hi
  obtain ⟨e, hqe⟩ := TfsInode.type_eq_dir_iff.mp hqdir
  have hnew : ∀ j, (s.destFilename.str, j) ∉ e.children := by
    intro j hj
    refine hlegal.dest j ((locate_eq_ok_iff hT hnulDest).mpr ?_)
    rw [hdest] at hnulDest ⊢
    refine Walk.snoc ((locate_eq_ok_iff hT fun c hc => ?_).mp hq) ((child_iff hqe).mpr hj)
    exact hnulDest c (List.mem_append_left _ hc)
  by_cases hne : s.origParent.len = 0 ∧ s.destParent.len = 0
  · -- both parents are the common ancestor
    rw [hcuts.origParent.mpr hne.1, List.append_nil] at hp
    rw [hcuts.destParent.mpr hne.2, List.append_nil] at hq
    obtain rfl : p = q := Except.ok.inj (hp.symm.trans hq)
    obtain rfl : d = e := TfsInode.dir.inj (hpd.symm.trans hqe)
    subst hs
    rw [atomicMove_of_ancestor hguard hguard' hp, atomicMoveFrom]
    split
    · exact ⟨_, rfl⟩
    rw [if_neg (not_not.mpr hqdir), atomicRename_of_dir hpd, hfound]
    dsimp only
    have hmem := mem_children_of_search (hcuts.nulFree_origFilename hn) hfound
    rcases tfsInodeDirRename_spec d hnul hmem fun name h =>
      (hT.tree.parent ((child_iff hpd).mpr h) ((child_iff hpd).mpr hmem)).2 with
      ⟨err, -, entry, hentry, -, heq⟩ | ⟨hok, -⟩ | ⟨d', hok, -⟩
    · obtain ⟨entryName, inodeIdx⟩ := entry
      obtain rfl : entryName = _ := heq
      cases inodeIdx with
      | none => exact absurd (hblank _ _ hpd _ hentry rfl) hname
      | some j => exact absurd (TfsInodeDir.mem_children_iff.mpr hentry) (hnew j)
    · rw [hok]
      exact ⟨_, rfl⟩
    · rw [hok]
      exact ⟨_, rfl⟩
  · subst hs
    rw [atomicMove_of_parents hn hguard hguard' hne hp hq (by rw [hpd]; rfl),
      atomicMoveEntry_of_dirs hpd hqe, hfound]
    dsimp only
    rcases tfsInodeDirAddEntry_spec e x hnul with ⟨err, -, hbad⟩ | ⟨e', hok, -⟩
    · rcases hbad with hnil | hmem
      · exact absurd hnil hname
      · obtain ⟨⟨name, j⟩, hj, heq⟩ := List.mem_map.mp hmem
        obtain rfl : name = _ := heq
        exact absurd hj (hnew j)
    · rw [hok]
      exact ⟨_, rfl⟩

/-- **A move is right about legal moves unless the paths repeat their common ancestor.** -/
theorem atomicMove_legal_iff (hT : TreeInv capacity T) (hblank : BlankFree T)
    (hn : NulFree origPath.str) (hm : NulFree destPath.str) :
    ((LegalMove T origPath destPath →
        ∃ i, (atomicMove T origPath destPath access).outcome = .ok i) ∧
      ((atomicMove T origPath destPath access).outcome = .error .moveOriginDestinationParent →
        comps origPath.str = (comps destPath.str).dropLast) ∧
      ((atomicMove T origPath destPath access).outcome = .error .moveDestinationOriginParent →
        comps destPath.str = (comps origPath.str).dropLast)) ↔
    ¬Repeats (comps origPath.str) (comps destPath.str) ∧
      ¬Repeats (comps destPath.str) (comps origPath.str) := by
  have hcuts := MoveSplit.moveSplit_cuts hn destPath
  obtain ⟨hguard, hguard'⟩ := @atomicMove_guards T origPath destPath access hn
  have hiff := hcuts.repeats_iff
  have hiff' : Repeats (comps destPath.str) (comps origPath.str) ↔
    comps destPath.str = comps (moveSplit origPath destPath).origParent.str ∧
      comps (moveSplit origPath destPath).ancestor.str ≠ [] := hcuts.swap.repeats_iff
  constructor
  · rintro ⟨-, ho, hd⟩
    constructor
    · exact fun h => h.ne_dropLast (ho (hguard.mpr (hiff.mp h).1))
    · intro h
      refine h.ne_dropLast (hd (hguard'.mpr ⟨fun heq => ?_, (hiff'.mp h).1.symm⟩))
      have hlen := h.length_le
      have hle := hcuts.length_destParent_le
      rw [heq] at hlen
      omega
  · rintro ⟨ho, hd⟩
    refine ⟨fun hlegal => atomicMove_ok_of_legal hT hblank hn hm hlegal (fun heq => ?_)
      fun heq => ?_, fun h => ?_, fun h => ?_⟩
    · by_cases ha : comps (moveSplit origPath destPath).ancestor.str = []
      · refine hlegal.notBelow ?_
        rw [hcuts.eq_dropLast_of_guard heq ha]
        exact List.dropLast_prefix _
      · exact ho (hiff.mpr ⟨heq, ha⟩)
    · by_cases ha : comps (moveSplit origPath destPath).ancestor.str = []
      · refine hlegal.notAbove ?_
        rw [hcuts.swap.eq_dropLast_of_guard heq.symm ha]
        exact List.dropLast_prefix _
      · exact hd (hiff'.mpr ⟨heq.symm, ha⟩)
    · refine hcuts.eq_dropLast_of_guard (hguard.mp h) ?_
      by_contra ha
      exact ho (hiff.mpr ⟨hguard.mp h, ha⟩)
    · refine hcuts.swap.eq_dropLast_of_guard (hguard'.mp h).2.symm ?_
      by_contra ha
      exact hd (hiff'.mpr ⟨(hguard'.mp h).2.symm, ha⟩)

end Outcome

end TecnicoFs
