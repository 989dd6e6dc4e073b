import TecnicoFs.Interleaving.Alike
import TecnicoFs.Spec.Respelling

/-!
# Calls spelled differently

The programs of two calls whose paths have the same components take the same actions
(`Prog.Alike`), so they do the same in every memory.  The loop along a path trims its
argument first and goes by components from there on, and only the path that an error
reports differs.

Two things are asked for.  The root is locked for the access of a search only if the path
has no characters at all, so both paths of a search must be empty or neither.  And the
parents of a move must be in the same order.
-/

namespace TecnicoFs

open Interleaving TfsProg Text

/-! ## Programs that do the same -/

/-- The same inode, or an error of the same kind, which may report another path. -/
inductive SameWalk : Except TfsFsFindError TfsLockedInode × LockedInodes →
    Except TfsFsFindError TfsLockedInode × LockedInodes → Prop where
  | error {err err' : TfsFsFindError} (h : err.kind = err'.kind) (lockedInodes : LockedInodes) :
      SameWalk (.error err, lockedInodes) (.error err', lockedInodes)
  | ok (inode : TfsLockedInode) (lockedInodes : LockedInodes) :
      SameWalk (.ok inode, lockedInodes) (.ok inode, lockedInodes)

/-- Replies to the same effect. -/
def Reply.Same (reply reply' : Reply) : Prop := reply.outcome = reply'.outcome

theorem Reply.Same.refl (reply : Reply) : reply.Same reply := rfl

section Alike

variable {fs : TfsFs} {p p' q q' : TfsPath} {access : TfsRwLockAccess} {lockedInodes : LockedInodes}

/-- **The loop along two equal paths** is one loop, but for what it reports. -/
theorem alike_tfsFsLockAllFrom_loop {path path' : TfsPath} {start n : Nat} {cur : TfsLockedInode}
    {cs : List (List CChar)} (ht : Trimmed isSlashOrSpace p.str)
    (ht' : Trimmed isSlashOrSpace p'.str) (hcs : comps p.str = cs) (hcs' : comps p'.str = cs) :
    Prog.Alike SameWalk (tfsFsLockAllFrom.loop fs path start access p cur lockedInodes n)
      (tfsFsLockAllFrom.loop fs path' start access p' cur lockedInodes n) := by
  have hp : comps p.str = comps p'.str := hcs.trans hcs'.symm
  have hlen := len_eq_zero_congr ht ht' hp
  induction cs generalizing p p' cur lockedInodes n with
  | nil =>
    have hzero := (len_eq_zero_iff_of_trimmed ht).mpr hcs
    rw [tfsFsLockAllFrom.loop, dif_neg (not_not.mpr hzero), tfsFsLockAllFrom.loop,
      dif_neg (not_not.mpr (hlen.mp hzero))]
    cases start + n with
    | zero => exact .act _ fun r => r.elim
    | succ last => exact .bind_same _ fun inode => .ret (.ok inode lockedInodes)
  | cons c cs ih =>
    have hnonzero := len_ne_zero_of_cons hcs
    obtain ⟨hfirst, hrest⟩ := tfsPathPopFirst_congr hp
    obtain ⟨-, hcs₁⟩ := tfsPathPopFirst_of_cons hcs
    have hlen₁ := len_eq_zero_congr (trimmed_tfsPathPopFirst_rest p)
      (trimmed_tfsPathPopFirst_rest p') hrest
    rw [tfsFsLockAllFrom.loop, dif_pos hnonzero, tfsFsLockAllFrom.loop,
      dif_pos fun hzero => hnonzero (hlen.mpr hzero)]
    dsimp only
    rw [← hfirst, ← if_congr hlen₁ rfl rfl]
    split
    · exact .bind_same _ fun _ => .ret (.error (by rfl) lockedInodes)
    refine .bind_same _ fun found => ?_
    cases found with
    | none => exact .bind_same _ fun _ => .ret (.error (by rfl) lockedInodes)
    | some x =>
      refine .bind_same _ fun inode => .bind_same _ fun arr => ?_
      exact ih (trimmed_tfsPathPopFirst_rest p) (trimmed_tfsPathPopFirst_rest p') hcs₁
        (hrest.symm.trans hcs₁) hrest hlen₁

theorem alike_tfsFsLockAllFrom (hp : comps p.str = comps p'.str) (start : TfsLockedInode)
    (n : Nat) :
    Prog.Alike SameWalk (tfsFsLockAllFrom fs p start lockedInodes n access)
      (tfsFsLockAllFrom fs p' start lockedInodes n access) :=
  alike_tfsFsLockAllFrom_loop (trimmed_tfsPathTrim p) (trimmed_tfsPathTrim p')
    (comps_tfsPathTrim p) ((comps_tfsPathTrim p').trans hp.symm)

/-- **Locking along two equal paths**, if the root is locked for the same access. -/
theorem alike_tfsFsLockAll (hp : comps p.str = comps p'.str)
    (hroot : access = .shared ∨ (p.len = 0 ↔ p'.len = 0)) :
    Prog.Alike SameWalk (tfsFsLockAll fs p lockedInodes access)
      (tfsFsLockAll fs p' lockedInodes access) := by
  have haccess : (if p.len = 0 then access else .shared) =
      if p'.len = 0 then access else Access.shared := by
    rcases hroot with rfl | hlen
    · rw [ite_self, ite_self]
    · exact if_congr hlen rfl rfl
  rw [tfsFsLockAll, tfsFsLockAll, haccess]
  refine .bind_same _ fun root => .bind_same _ fun arr => ?_
  refine (alike_tfsFsLockAllFrom hp root 1).bind ?_
  rintro _ _ (⟨h, arr⟩ | ⟨inode, arr⟩)
  · exact .bind_same _ fun _ => .ret (.error h arr)
  · exact .ret (.ok inode arr)

/-- Locking along the parents of two equal paths. -/
theorem alike_tfsFsLockAll_parent (hp : comps p.str = comps p'.str) :
    Prog.Alike SameWalk (tfsFsLockAll fs (tfsPathPopLast p).2 lockedInodes access)
      (tfsFsLockAll fs (tfsPathPopLast p').2 lockedInodes access) :=
  alike_tfsFsLockAll (tfsPathPopLast_congr hp).2 <| Or.inr <|
    len_eq_zero_congr (trimmed_tfsPathPopLast_rest p) (trimmed_tfsPathPopLast_rest p')
      (tfsPathPopLast_congr hp).2

theorem alike_create (hp : comps p.str = comps p'.str) (type : TfsInodeType) :
    Prog.Alike Reply.Same ((Call.create p type).operation fs)
      ((Call.create p' type).operation fs) := by
  obtain ⟨hname, hparent⟩ := tfsPathPopLast_congr hp
  rw [Call.operation, Call.operation, tfsFsCreate, tfsFsCreate, hname,
    tfsPathComponentsLen_congr hparent]
  simp only [bind_assoc]
  refine (alike_tfsFsLockAll_parent hp).bind ?_
  rintro _ _ (⟨h, arr⟩ | ⟨inode, arr⟩)
  · exact .ret (congrArg (fun kind => (.error (.createInexistentParentDir kind) : Outcome)) h)
  · exact .refl Reply.Same.refl _

theorem alike_remove (hp : comps p.str = comps p'.str) :
    Prog.Alike Reply.Same ((Call.remove p).operation fs) ((Call.remove p').operation fs) := by
  obtain ⟨hname, hparent⟩ := tfsPathPopLast_congr hp
  rw [Call.operation, Call.operation, tfsFsRemove, tfsFsRemove, hname,
    tfsPathComponentsLen_congr hparent]
  simp only [bind_assoc]
  refine (alike_tfsFsLockAll_parent hp).bind ?_
  rintro _ _ (⟨h, arr⟩ | ⟨inode, arr⟩)
  · exact .ret (congrArg (fun kind => (.error (.removeInexistentParentDir kind) : Outcome)) h)
  · exact .refl Reply.Same.refl _

theorem alike_find (hp : comps p.str = comps p'.str)
    (hroot : access = .shared ∨ (p.len = 0 ↔ p'.len = 0)) :
    Prog.Alike Reply.Same ((Call.find p access).operation fs)
      ((Call.find p' access).operation fs) := by
  rw [Call.operation, Call.operation, tfsFsFind, tfsFsFind, tfsPathComponentsLen_congr hp]
  simp only [bind_assoc]
  refine (alike_tfsFsLockAll hp hroot).bind ?_
  rintro _ _ (⟨h, arr⟩ | ⟨inode, arr⟩)
  · exact .ret (congrArg (fun kind => (.error (.find kind) : Outcome)) h)
  · exact .refl Reply.Same.refl _

theorem alike_tfsFsMoveLockParent
    (hp : comps (tfsPathPopLast p).2.str = comps (tfsPathPopLast p').2.str)
    (commonAncestor : TfsLockedInode) :
    Prog.Alike SameWalk (tfsFsMoveLockParent fs commonAncestor (tfsPathPopLast p).2 lockedInodes)
      (tfsFsMoveLockParent fs commonAncestor (tfsPathPopLast p').2 lockedInodes) :=
  .ite (len_eq_zero_congr (trimmed_tfsPathPopLast_rest p) (trimmed_tfsPathPopLast_rest p') hp)
    (fun _ => .ret (.ok commonAncestor lockedInodes))
    fun _ => alike_tfsFsLockAllFrom hp commonAncestor 0

/-- **Locking both parents**, in the same order. -/
theorem tfsFsMoveLockParents_congr
    (hp : comps (tfsPathPopLast p).2.str = comps (tfsPathPopLast p').2.str)
    (hq : comps (tfsPathPopLast q).2.str = comps (tfsPathPopLast q').2.str)
    (common : LockedChain) (commonAncestor : TfsLockedInode) (firstErr secondErr : TfsFsMoveError) :
    tfsFsMoveLockParents fs common commonAncestor (tfsPathPopLast p).2 (tfsPathPopLast q).2
        firstErr secondErr =
      tfsFsMoveLockParents fs common commonAncestor (tfsPathPopLast p').2 (tfsPathPopLast q').2
        firstErr secondErr := by
  apply Prog.Alike.eq
  rw [tfsFsMoveLockParents, tfsFsMoveLockParents, tfsPathComponentsLen_congr hp,
    tfsPathComponentsLen_congr hq]
  refine (alike_tfsFsMoveLockParent hp commonAncestor).bind ?_
  rintro _ _ (⟨-, arr⟩ | ⟨inode, arr⟩)
  · exact .refl (fun _ => rfl) _
  refine (alike_tfsFsMoveLockParent hq commonAncestor).bind ?_
  rintro _ _ (⟨-, arr'⟩ | ⟨inode', arr'⟩)
  · exact .refl (fun _ => rfl) _
  · exact .refl (fun _ => rfl) _

/-- A rename looks at the characters of the two names only. -/
theorem tfsFsMoveRename_congr (hp : p.str = p'.str) (hq : q.str = q'.str) (common : LockedChain)
    (commonAncestor : TfsLockedInode) :
    tfsFsMoveRename fs common commonAncestor p q =
      tfsFsMoveRename fs common commonAncestor p' q' := by
  rw [tfsFsMoveRename, tfsFsMoveRename, hp, hq]

theorem tfsFsMoveEntry_congr (hp : p.str = p'.str) (hq : q.str = q'.str)
    (common orig dest : LockedChain) (origParent destParent : TfsLockedInode) :
    tfsFsMoveEntry fs common origParent orig destParent dest p q access =
      tfsFsMoveEntry fs common origParent orig destParent dest p' q' access := by
  rw [tfsFsMoveEntry, tfsFsMoveEntry, hp, hq]

/-- **Two moves between equal paths**, if they order the parents in the same way. -/
theorem alike_move (hn : NulFree p.str) (hn' : NulFree p'.str) (hp : comps p.str = comps p'.str)
    (hq : comps q.str = comps q'.str)
    (hfirst : (moveSplit p q).OrigFirst ↔ (moveSplit p' q').OrigFirst) :
    Prog.Alike Reply.Same ((Call.move p q access).operation fs)
      ((Call.move p' q' access).operation fs) := by
  have hs := samePieces_moveSplit hn hn' hp hq
  have htrim : Trimmed isSlashOrSpace (tfsPathCommonAncestor p q).ancestor.str :=
    (tfsPathCommonAncestor_splits hn).trimmed
  have htrim' : Trimmed isSlashOrSpace (tfsPathCommonAncestor p' q').ancestor.str :=
    (tfsPathCommonAncestor_splits hn').trimmed
  obtain ⟨horig, hdest⟩ := parents_congr hn hn' hp hq
  have haccess : (if (tfsPathPopLast (tfsPathCommonAncestor p q).lhsRest).2.len = 0 ∨
        (tfsPathPopLast (tfsPathCommonAncestor p q).rhsRest).2.len = 0 then .unique
        else .shared) =
      if (tfsPathPopLast (tfsPathCommonAncestor p' q').lhsRest).2.len = 0 ∨
        (tfsPathPopLast (tfsPathCommonAncestor p' q').rhsRest).2.len = 0 then .unique
        else Access.shared :=
    if_congr (or_congr horig hdest) rfl rfl
  have hlen : tfsPathComponentsLen (tfsPathCommonAncestor p q).ancestor =
      tfsPathComponentsLen (tfsPathCommonAncestor p' q').ancestor :=
    tfsPathComponentsLen_congr hs.ancestor
  obtain ⟨ho, hd⟩ := guards_congr hn hn' hp hq
  refine Prog.Alike.bind (R := Eq) ?_ fun result _ h => h ▸ .ret rfl
  rw [tfsFsMove, tfsFsMove]
  refine .ite (iff_of_eq (congrArg (· = true) ho)) (fun _ => .ret rfl) fun hguard => ?_
  refine .ite (iff_of_eq (congrArg (· = true) hd)) (fun _ => .ret rfl) fun _ => ?_
  rw [haccess, hlen]
  have hroot := len_eq_zero_congr htrim htrim' hs.ancestor
  refine (alike_tfsFsLockAll hs.ancestor (Or.inr hroot)).bind ?_
  rintro _ _ (⟨-, arr⟩ | ⟨inode, arr⟩)
  · exact .ret rfl
  have hrests := rests_congr hn hn' hp hq (Bool.not_eq_true _ ▸ hguard)
  refine .ite hrests (fun _ => .refl (fun _ => rfl) _) fun _ => ?_
  refine .ite Iff.rfl (fun _ => .refl (fun _ => rfl) _) fun _ => ?_
  refine .ite (and_congr horig hdest) (fun _ => ?_) fun _ => ?_
  · exact .of_eq (tfsFsMoveRename_congr hs.origFilename hs.destFilename _ _)
  refine .ite hfirst (fun _ => ?_) fun _ => ?_
  · refine .bind (.of_eq (tfsFsMoveLockParents_congr hs.origParent hs.destParent ..)) ?_
    rintro result _ rfl
    cases result with
    | error err => exact .ret rfl
    | ok x => exact .of_eq (tfsFsMoveEntry_congr hs.origFilename hs.destFilename _ _ _ _ _)
  · refine .bind (.of_eq (tfsFsMoveLockParents_congr hs.destParent hs.origParent ..)) ?_
    rintro result _ rfl
    cases result with
    | error err => exact .ret rfl
    | ok x => exact .of_eq (tfsFsMoveEntry_congr hs.origFilename hs.destFilename _ _ _ _ _)

end Alike

end TecnicoFs
