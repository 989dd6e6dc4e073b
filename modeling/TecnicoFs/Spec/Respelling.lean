import TecnicoFs.Path.Splitting
import TecnicoFs.Spec.LegalMove

/-!
# Paths spelled differently

Two paths that `tfs_path_eq` calls equal have the same components.  They are popped alike,
have the same number of components, and a move cuts them into equal pieces.  So what a call
does to a tree depends on the components only, but for one thing: `tfs_fs_move` looks for the
two parents in the order of their characters, and if neither is there it reports the one
that it looked for first.
-/

namespace TecnicoFs

open Graph Text

/-! ## Paths with the same components -/

section Paths

variable {p p' q q' : TfsPath}

/-- Equal paths pop alike. -/
theorem Pops.congr {order : List (List CChar) → List (List CChar)}
    {pop : TfsPath → TfsPath × TfsPath} (h : Pops order pop) (hp : comps p.str = comps p'.str) :
    (pop p).1.str = (pop p').1.str ∧
      order (comps (pop p).2.str) = order (comps (pop p').2.str) := by
  have hstr := h.str_poppedAfter p 0
  have hrest := h.comps_restAfter p 1
  rw [hp, ← h.str_poppedAfter p' 0] at hstr
  rw [hp, ← h.comps_restAfter p' 1] at hrest
  exact ⟨hstr, hrest⟩

theorem tfsPathPopFirst_congr (hp : comps p.str = comps p'.str) :
    (tfsPathPopFirst p).1.str = (tfsPathPopFirst p').1.str ∧
      comps (tfsPathPopFirst p).2.str = comps (tfsPathPopFirst p').2.str :=
  pops_tfsPathPopFirst.congr hp

theorem tfsPathPopLast_congr (hp : comps p.str = comps p'.str) :
    (tfsPathPopLast p).1.str = (tfsPathPopLast p').1.str ∧
      comps (tfsPathPopLast p).2.str = comps (tfsPathPopLast p').2.str :=
  (pops_tfsPathPopLast.congr hp).imp_right List.reverse_injective.eq_iff.mp

theorem tfsPathComponentsLen_congr (hp : comps p.str = comps p'.str) :
    tfsPathComponentsLen p = tfsPathComponentsLen p' := by
  rw [tfsPathComponentsLen_eq, tfsPathComponentsLen_eq, hp]

/-- Of trimmed paths that are equal either both are empty or neither is. -/
theorem len_eq_zero_congr (ht : Trimmed isSlashOrSpace p.str) (ht' : Trimmed isSlashOrSpace p'.str)
    (hp : comps p.str = comps p'.str) : p.len = 0 ↔ p'.len = 0 := by
  rw [len_eq_zero_iff_of_trimmed ht, len_eq_zero_iff_of_trimmed ht', hp]

theorem tfsPathEq_congr (hn : NulFree p.str) (hn' : NulFree p'.str)
    (hp : comps p.str = comps p'.str) (hq : comps q.str = comps q'.str) :
    tfsPathEq p q = tfsPathEq p' q' := by
  rw [Bool.eq_iff_iff, tfsPathEq_iff hn, tfsPathEq_iff hn', hp, hq]

/-- **Equal paths are cut into equal pieces.** -/
structure MoveSplit.SamePieces (s s' : MoveSplit) : Prop where
  ancestor : comps s.ancestor.str = comps s'.ancestor.str
  lhsRest : comps s.lhsRest.str = comps s'.lhsRest.str
  rhsRest : comps s.rhsRest.str = comps s'.rhsRest.str
  origFilename : s.origFilename.str = s'.origFilename.str
  origParent : comps s.origParent.str = comps s'.origParent.str
  destFilename : s.destFilename.str = s'.destFilename.str
  destParent : comps s.destParent.str = comps s'.destParent.str

theorem samePieces_moveSplit (hn : NulFree p.str) (hn' : NulFree p'.str)
    (hp : comps p.str = comps p'.str) (hq : comps q.str = comps q'.str) :
    (moveSplit p q).SamePieces (moveSplit p' q') := by
  have h := MoveSplit.moveSplit_cuts hn q
  have h' := MoveSplit.moveSplit_cuts hn' q'
  have horig := h.orig.symm.trans (hp.trans h'.orig)
  have hdest := h.dest.symm.trans (hq.trans h'.dest)
  have hancestor := commonPrefix_unique horig hdest h.differ h'.differ
  rw [hancestor, List.append_cancel_left_eq] at horig hdest
  exact
    { ancestor := hancestor
      lhsRest := horig
      rhsRest := hdest
      origFilename := (tfsPathPopLast_congr horig).1
      origParent := (tfsPathPopLast_congr horig).2
      destFilename := (tfsPathPopLast_congr hdest).1
      destParent := (tfsPathPopLast_congr hdest).2 }

/-- After the first guard, nothing is left of the two paths exactly if no component is. -/
theorem rests_len_eq_zero_iff (hn : NulFree p.str)
    (hguard : tfsPathEq p (moveSplit p q).destParent = false) :
    (moveSplit p q).rhsRest.len = 0 ∧ (moveSplit p q).lhsRest.len = 0 ↔
      comps (moveSplit p q).rhsRest.str = [] ∧ comps (moveSplit p q).lhsRest.str = [] := by
  constructor
  · exact fun h => ⟨comps_of_len h.1, comps_of_len h.2⟩
  · rintro ⟨hr, hl⟩
    rcases (@tfsPathCommonAncestor_splits p q hn).rests with ⟨hlhs, -⟩ | ⟨hlt, hrt⟩
    · -- nothing was popped, so the first path has no components, and neither has the parent
      have hparent : comps (moveSplit p q).destParent.str = [] := by
        rcases (MoveSplit.moveSplit_cuts hn q).destPop with ⟨-, hnil, -⟩ | ⟨-, hcomps⟩
        · exact hnil
        · rw [hr] at hcomps
          simp at hcomps
      have heq : tfsPathEq p (moveSplit p q).destParent = true := by
        rw [tfsPathEq_iff hn, hparent, ← hl]
        exact congrArg (fun r : TfsPath => comps r.str) hlhs.symm
      rw [heq] at hguard
      cases hguard
    · exact ⟨(len_eq_zero_iff_of_trimmed hrt).mpr hr, (len_eq_zero_iff_of_trimmed hlt).mpr hl⟩

section Moves

variable (hn : NulFree p.str) (hn' : NulFree p'.str) (hp : comps p.str = comps p'.str)
  (hq : comps q.str = comps q'.str)

include hn hn' hp hq

/-- Both guards answer alike. -/
theorem guards_congr :
    tfsPathEq p (moveSplit p q).destParent = tfsPathEq p' (moveSplit p' q').destParent ∧
      tfsPathEq (moveSplit p q).origParent q = tfsPathEq (moveSplit p' q').origParent q' := by
  have hs := samePieces_moveSplit hn hn' hp hq
  refine ⟨tfsPathEq_congr hn hn' hp hs.destParent, ?_⟩
  rw [Bool.eq_iff_iff, tfsPathEq_origParent_iff hn, tfsPathEq_origParent_iff hn', hs.origParent, hq]

/-- Nothing is left of the two paths of both moves, or of neither. -/
theorem rests_congr (ho : tfsPathEq p (moveSplit p q).destParent = false) :
    (moveSplit p q).rhsRest.len = 0 ∧ (moveSplit p q).lhsRest.len = 0 ↔
      (moveSplit p' q').rhsRest.len = 0 ∧ (moveSplit p' q').lhsRest.len = 0 := by
  have hs := samePieces_moveSplit hn hn' hp hq
  have ho' := (guards_congr hn hn' hp hq).1 ▸ ho
  rw [rests_len_eq_zero_iff hn ho, rests_len_eq_zero_iff hn' ho', hs.lhsRest, hs.rhsRest]

theorem parents_congr :
    ((moveSplit p q).origParent.len = 0 ↔ (moveSplit p' q').origParent.len = 0) ∧
      ((moveSplit p q).destParent.len = 0 ↔ (moveSplit p' q').destParent.len = 0) := by
  have hs := samePieces_moveSplit hn hn' hp hq
  exact ⟨len_eq_zero_congr (trimmed_tfsPathPopLast_rest _) (trimmed_tfsPathPopLast_rest _)
      hs.origParent, len_eq_zero_congr (trimmed_tfsPathPopLast_rest _)
      (trimmed_tfsPathPopLast_rest _) hs.destParent⟩

end Moves

end Paths

/-! ## Moves that order the parents differently -/

section Order

variable {T : Tree} {p p' q q' : TfsPath} {access : TfsRwLockAccess}

/-- A move gets as far as looking for the two parents, and neither is there. -/
structure NoParents (T : Tree) (origPath destPath : TfsPath) : Prop where
  orig : tfsPathEq origPath (moveSplit origPath destPath).destParent = false
  dest : tfsPathEq (moveSplit origPath destPath).origParent destPath = false
  parents : ∃ a, locate T 0 (comps (moveSplit origPath destPath).ancestor.str) = .ok a ∧
    (T a).type = .dir ∧
    (∃ e, locate T a (comps (moveSplit origPath destPath).origParent.str) = .error e) ∧
    ∃ e, locate T a (comps (moveSplit origPath destPath).destParent.str) = .error e

/-- Parents with no components are not in order. -/
theorem not_origFirst_of_len {s : MoveSplit} (h : s.origParent.len = 0 ∧ s.destParent.len = 0) :
    ¬s.OrigFirst := by
  rw [len_eq_zero_iff, len_eq_zero_iff] at h
  rw [MoveSplit.OrigFirst, h.1, h.2]
  decide

/-- **The parent that is looked for first decides the error.** -/
theorem NoParents.outcome (hn : NulFree p.str) (h : NoParents T p q) :
    (atomicMove T p q access).outcome = .error (if (moveSplit p q).OrigFirst then
      .moveInexistentOriginParentDir else .moveInexistentDestinationParentDir) := by
  obtain ⟨ho, hd, a, ha, hdir, ⟨e, he⟩, e', he'⟩ := h
  have hparents : ¬((moveSplit p q).origParent.len = 0 ∧ (moveSplit p q).destParent.len = 0) := by
    rintro ⟨hlen, -⟩
    rw [comps_of_len hlen, locate_nil] at he
    cases he
  have hrest : ¬((moveSplit p q).rhsRest.len = 0 ∧ (moveSplit p q).lhsRest.len = 0) :=
    fun hr => hparents ((MoveSplit.moveSplit_cuts hn q).parents_of_rest hr)
  obtain ⟨horig, hdest⟩ := atomicMoveFrom_of_no_parent hrest hdir hparents access
  rw [atomicMove_of_ancestor ho hd ha]
  split
  · rename_i hfirst
    rw [horig e he (Or.inl hfirst)]
    rfl
  · rename_i hfirst
    rw [hdest e' he' (Or.inl hfirst)]
    rfl

section Equal

variable (hn : NulFree p.str) (hn' : NulFree p'.str) (hp : comps p.str = comps p'.str)
  (hq : comps q.str = comps q'.str)

include hn hn' hp hq

theorem NoParents.congr (h : NoParents T p q) : NoParents T p' q' := by
  have hs := samePieces_moveSplit hn hn' hp hq
  obtain ⟨hg, hg'⟩ := guards_congr hn hn' hp hq
  obtain ⟨ho, hd, hparents⟩ := h
  rw [hg] at ho
  rw [hg'] at hd
  rw [hs.ancestor, hs.origParent, hs.destParent] at hparents
  exact ⟨ho, hd, hparents⟩

/-- **What a move does** depends on the order of the parents only if neither is there. -/
theorem atomicMove_congr
    (h : NoParents T p q → ((moveSplit p q).OrigFirst ↔ (moveSplit p' q').OrigFirst)) :
    atomicMove T p q access = atomicMove T p' q' access := by
  have hs := samePieces_moveSplit hn hn' hp hq
  obtain ⟨hg, hg'⟩ := guards_congr hn hn' hp hq
  cases ho : tfsPathEq p (moveSplit p q).destParent with
  | true => rw [atomicMove, atomicMove, if_pos ho, if_pos (hg ▸ ho)]
  | false =>
    cases hd : tfsPathEq (moveSplit p q).origParent q with
    | true =>
      rw [atomicMove, atomicMove, if_neg (by simp [ho]), if_pos hd, if_neg (by simp [← hg, ho]),
        if_pos (hg' ▸ hd)]
    | false =>
      have ho' : tfsPathEq p' (moveSplit p' q').destParent = false := hg ▸ ho
      have hd' : tfsPathEq (moveSplit p' q').origParent q' = false := hg' ▸ hd
      cases ha : locate T 0 (comps (moveSplit p q).ancestor.str) with
      | error e =>
        rw [atomicMove_of_no_ancestor ho hd ha,
          atomicMove_of_no_ancestor ho' hd' (hs.ancestor ▸ ha)]
      | ok a =>
        rw [atomicMove_of_ancestor ho hd ha, atomicMove_of_ancestor ho' hd' (hs.ancestor ▸ ha),
          atomicMoveFrom, atomicMoveFrom, hs.origFilename, hs.destFilename]
        refine if_congr (rests_congr hn hn' hp hq ho) rfl ?_
        by_cases hdir : (T a).type = .dir
        swap
        · rw [if_pos hdir, if_pos hdir]
        rw [if_neg (not_not.mpr hdir), if_neg (not_not.mpr hdir)]
        obtain ⟨horig, hdest⟩ := parents_congr hn hn' hp hq
        refine if_congr (and_congr horig hdest) rfl ?_
        cases hop : locate T a (comps (moveSplit p q).origParent.str) with
        | ok i =>
          rw [← hs.origParent, ← hs.destParent, hop]
          cases locate T a (comps (moveSplit p q).destParent.str) with
          | ok j => rfl
          | error e => rfl
        | error e =>
          rw [← hs.origParent, ← hs.destParent, hop]
          cases hdp : locate T a (comps (moveSplit p q).destParent.str) with
          | ok j => rfl
          | error e' => exact if_congr (h ⟨ho, hd, a, ha, hdir, ⟨e, hop⟩, e', hdp⟩) rfl rfl

end Equal

end Order

end TecnicoFs
