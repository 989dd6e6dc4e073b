import TecnicoFs.Concurrent.Operations

/-!
# Moving

`tfs_fs_move`, followed along its text like the other operations.  A move between two
directories writes twice: the entry is added to the one before it is taken from the
other, and the move happens at the second write.  In between only the holder of the root
could see the tree, and that is the move.

A move that fails to add its entry gives back everything but the inode it was to move.
-/

namespace TecnicoFs

open Interleaving Function

variable {ι : Type} [DecidableEq ι]

namespace Setup

variable {S : Setup ι} {t : ι} {E : S.protocol.Env t} {held : List (Nat × TfsRwLockAccess)}
  {T N : Tree} {slot : Option Nat} {w : FsWorld ι} {i a : Nat} {origPath destPath : TfsPath}
  {access : TfsRwLockAccess} {s : MoveSplit}

variable (S) in
/-- The task of `t` is a move that passes the guards, with the pieces `s`. -/
structure Moving (t : ι) (origPath destPath : TfsPath) (access : TfsRwLockAccess)
    (s : MoveSplit) : Prop where
  task : S.task t = .call (.move origPath destPath access)
  split : moveSplit origPath destPath = s
  orig : tfsPathEq origPath s.destParent = false
  dest : tfsPathEq s.origParent destPath = false

namespace Moving

variable (h : S.Moving t origPath destPath access s)

omit [DecidableEq ι]

include h

theorem valid : NulFree origPath.str ∧ NulFree destPath.str := by
  have := S.valid t
  rwa [h.task] at this

theorem ext : Extends [] (Call.move origPath destPath access).plan :=
  @Task.extends_plan (.call (.move origPath destPath access)) h.valid

theorem cuts : s.Cuts origPath destPath :=
  h.split ▸ MoveSplit.moveSplit_cuts h.valid.1 destPath

theorem plan : (Call.move origPath destPath access).plan =
    planLockAll s.ancestor s.ancestorAccess ++ s.planRest access := by
  rw [Call.plan, planMove, h.split]
  rw [if_neg (by simp [h.orig]), if_neg (by simp [h.dest])]

/-- What the move does when the common ancestor is found. -/
theorem atomic (ha : locate T 0 (comps s.ancestor.str) = .ok a) (slot : Nat) :
    TecnicoFs.atomic T slot (.move origPath destPath access) = atomicMoveFrom T a s access := by
  obtain ⟨-, rfl, ho, hd⟩ := h
  exact atomicMove_of_ancestor ho hd ha access

end Moving

/-! ## Renaming -/

theorem tfsFsMoveRename_safe (hm : S.Moving t origPath destPath access s)
    (hrest : ¬(s.rhsRest.len = 0 ∧ s.lhsRest.len = 0))
    (hparents : s.origParent.len = 0 ∧ s.destParent.len = 0) {arr : LockedInodes}
    {d : TfsInodeDir} (hT : TreeInv S.capacity T)
    (hmade : Made T (planLockAll s.ancestor s.ancestorAccess) held)
    (h : Local t held T T [] slot w) (hstored : Stored arr 0 held)
    (hlen : held.length = tfsPathComponentsLen s.ancestor + 1)
    (ha : locate T 0 (comps s.ancestor.str) = .ok a) (hd : T a = .dir d) :
    S.Safe E (fun result w' => S.Finished t (Reply.move result).outcome w')
      (tfsFsMoveRename S.fs ⟨arr, tfsPathComponentsLen s.ancestor + 1⟩ ⟨a, .dir⟩ s.origFilename
        s.destFilename) w := by
  have hplan : (Call.move origPath destPath access).plan =
      planLockAll s.ancestor s.ancestorAccess ++
        [⟨comps s.ancestor.str ++ [s.origFilename.str], .unique, none⟩] := by
    rw [hm.plan, MoveSplit.planRest, if_neg hrest, if_pos hparents, MoveSplit.origNames,
      hm.cuts.origParent.mpr hparents.1]
    rfl
  have hfilename : NulFree s.origFilename.str := hm.cuts.nulFree_origFilename hm.valid.1
  have hatomic : ∀ T', locate T' 0 (comps s.ancestor.str) = .ok a → T' a = .dir d →
      ∀ n, atomic T' n (.move origPath destPath access) =
        atomicRename T' a s.origFilename.str s.destFilename.str := by
    intro T' ha' hd' n
    rw [hm.atomic ha', atomicMoveFrom, if_neg hrest, if_neg (by simp [hd', TfsInode.type]),
      if_pos hparents]
  refine child_safe hm.task (by simp) hplan hT hmade h hstored hlen ha hd .moveOriginNotFound ?_
    rfl (fun _ h => h) (fun _ _ => rfl) ?_
  · intro T' ha' hd' hsearch
    rw [hatomic T' ha' hd', atomicRename_of_dir hd', hsearch]
  · intro w₁ T₁ child dirIdx hsearch hlive hnodup hne hmade₁ hsame h₁
    rw [hplan] at hmade₁
    have hroot := hmade₁.root_mem
    have hmem := hmade₁.mem_planLockAll_access hm.cuts.ancestor (hsame T₁ fun _ _ => rfl).1
    rw [MoveSplit.ancestorAccess, if_pos (Or.inl hparents.1)] at hmem
    have hchild : (child, Access.unique) ∈ held ++ [(child, .unique)] := by simp
    have hd₁ : T₁ a = .dir d := (hsame T₁ fun _ _ => rfl).2
    rw [← hplan] at hmade₁
    refine Safe.bind (Safe.bind (dir_safe h₁ hmem hd₁ fun w₂ _ h₂ => ?_))
    cases hrename : tfsInodeDirRename d child s.destFilename.str with
    | error err =>
      have hready : S.Ready t (held ++ [(child, .unique)]) T₁ (.error (.moveRenameEntry err.kind))
          none := by
        refine ready_of_made hm.task (List.append_nil _).symm hmade₁ (by simp)
          fun T' _ hagree _ => ⟨rfl, 0, ?_, fits_of_ne_create (by simp)⟩
        obtain ⟨ha', hd'⟩ := hsame T' hagree
        rw [hatomic T' ha' hd', atomicRename_of_dir hd', hsearch]
        dsimp only
        rw [hrename]
        rfl
      refine safe_pure h₂ fun w₃ _ h₃ => ?_
      refine Safe.bind (tfsFsUnlockInodes_safe hlen hstored (hready.toDone h₃)
        (nodup_snoc_iff.mpr ⟨hnodup, hne⟩) (fun x hx => (hlive x (List.mem_append_left _ hx)).1)
        (by simp) fun w₄ _ h₄ => ?_)
      refine Safe.bind (tfsInodeTableUnlockInode_safe h₄ (hlive _ hchild).1 (by simp) (by simp)
        fun w₅ _ h₅ w₆ hs₆ _ => (h₅.env hs₆).finished_error)
    | ok d' =>
      refine Safe.bind (safe_write_commit h₂ hm.task hroot hmem (by rw [hd₁]; rfl) 0
        (.ok (some child)) (fun T' => update T' a (.dir d')) ?_ ?_ ?_ ?_)
      · intro T' _ hagree
        obtain ⟨ha', hd'⟩ := hsame T' hagree
        refine ⟨?_, fits_of_ne_create (by simp), ?_⟩
        · rw [hatomic T' ha' hd', atomicRename_of_dir hd', hsearch]
          dsimp only
          rw [hrename]
        · rw [requests_of_made hm.task hmade₁ hagree]
          exact fun x hx => hx
      · intro T' j hj
        by_cases hja : j = a
        · exact hja ▸ hmem
        · exact absurd (update_of_ne hja ..) hj
      · intro T' hagree x hx
        refine Or.inr ?_
        by_cases hxa : x.1 = a
        · rw [hxa, update_self, update_self]
        · rw [update_of_ne hxa, update_of_ne hxa, hagree x hx]
      · intro w₃ T' _ hagree hdone w₄ hs₄ _
        have hlive' : ∀ x ∈ held ++ [(child, Access.unique)],
            update T' a (.dir d') x.1 ≠ .none := by
          intro x hx
          by_cases hxa : x.1 = a
          · rw [hxa, update_self]
            simp
          · rw [update_of_ne hxa, hagree x hx]
            exact (hlive x hx).1
        refine Safe.bind (tfsFsUnlockInodes_safe hlen hstored (hdone.env hs₄)
          (nodup_snoc_iff.mpr ⟨hnodup, hne⟩)
          (fun x hx => hlive' x (List.mem_append_left _ hx)) (by simp) fun w₅ _ h₅ w₆ hs₆ _ => ?_)
        exact (h₅.env hs₆).finished_inode (hlive' _ hchild)

/-! ## The parents -/

theorem tfsFsMoveLockParent_safe
    {Q : Except TfsFsFindError TfsLockedInode × LockedInodes → FsWorld ι → Prop} {c : Call}
    {done todo : List Request} {pre : List (List CChar)} {path : TfsPath}
    (hc : S.task t = .call c) (hpath : comps path.str = [] ↔ path.len = 0)
    (hplan : c.plan = done ++ (chain pre (comps path.str) .unique ++ todo))
    (hT : TreeInv S.capacity T) (hmade : Made T done held) (h : Local t held T T [] slot w)
    (ha : locate T 0 pre = .ok a) (hmem : ∃ b, (a, b) ∈ held) (kind : ErrorKind)
    (hfail : ∀ e T' held', TreeInv S.capacity T' → (∀ x ∈ held, T' x.1 = T x.1) →
      Made T' done held' → locate T' 0 (pre ++ comps path.str) = .error e →
      ∃ n, atomic T' n c = .fail T' kind)
    (hok : ∀ w' T' new arr j, S.Inv w' → TreeInv S.capacity T' → (∀ x ∈ held, T' x.1 = T x.1) →
      Made T' (done ++ chain pre (comps path.str) .unique) (held ++ new) →
      Local t (held ++ new) T' T' [] slot w' → Stored arr 0 new →
      new.length = tfsPathComponentsLen path → locate T' 0 (pre ++ comps path.str) = .ok j →
      Q (.ok ⟨j, (T' j).type⟩, arr) w')
    (herror : ∀ w' T' arr err, S.Inv w' → TreeInv S.capacity T' →
      (∀ x ∈ held, T' x.1 ≠ .none) → S.Done t held T' T' (.error kind) none w' →
      Q (.error err, arr) w') :
    S.Safe E Q (tfsFsMoveLockParent S.fs ⟨a, (T a).type⟩ path (.new (tfsPathComponentsLen path)))
      w := by
  rw [tfsFsMoveLockParent]
  by_cases hlen : path.len = 0
  · have hnil := hpath.mpr hlen
    rw [if_pos hlen]
    refine safe_pure h fun w' hi' h' => ?_
    refine hok w' T [] _ a hi' hT (fun _ _ => rfl) ?_ (by rwa [List.append_nil]) (stored_nil _ _)
      ?_ ?_
    · rw [hnil]
      simpa [chain] using hmade
    · rw [tfsPathComponentsLen_eq, hnil]
      rfl
    · rwa [hnil, List.append_nil]
  · rw [if_neg hlen]
    rw [← List.append_nil held] at hmade h hmem
    refine tfsFsLockAllFrom_loop_safe hc (trimmed_tfsPathTrim path) (comps_tfsPathTrim path) hplan hT
      hmade h ha hmem (stored_nil _ 0) ?_ (fun hnil => absurd (hpath.mp hnil) hlen) (fun _ => kind)
      hfail ?_ herror
    · simp [LockedInodes.new, tfsPathComponentsLen_eq]
    · intro w' T' new arr j hi' hT' hagree hmade' h' hst _ hnew hj
      rw [List.append_nil] at hagree
      exact hok w' T' new arr j hi' hT' hagree hmade' h' hst
        (by rw [hnew, tfsPathComponentsLen_eq]; simp) hj

/-- **Locking both parents**, in either order. -/
theorem tfsFsMoveLockParents_safe
    {Q : Except TfsFsMoveError ((TfsLockedInode × LockedChain) × (TfsLockedInode × LockedChain)) →
      FsWorld ι → Prop} {c : Call} {todo : List Request} {path firstPath secondPath : TfsPath}
    {arr : LockedInodes} {firstErr secondErr : TfsFsMoveError} (hc : S.task t = .call c)
    (hfirst : comps firstPath.str = [] ↔ firstPath.len = 0)
    (hsecond : comps secondPath.str = [] ↔ secondPath.len = 0)
    (hplan : c.plan = planLockAll path access ++ (chain (comps path.str) (comps firstPath.str) .unique
      ++ (chain (comps path.str) (comps secondPath.str) .unique ++ todo)))
    (hT : TreeInv S.capacity T) (hmade : Made T (planLockAll path access) held)
    (h : Local t held T T [] slot w) (hstored : Stored arr 0 held)
    (hlen : held.length = tfsPathComponentsLen path + 1)
    (ha : locate T 0 (comps path.str) = .ok a)
    (hfail₁ : ∀ e T' held', TreeInv S.capacity T' → (∀ x ∈ held, T' x.1 = T x.1) →
      Made T' (planLockAll path access) held' →
      locate T' 0 (comps path.str ++ comps firstPath.str) = .error e →
      ∃ n, atomic T' n c = .fail T' firstErr.kind)
    (hfail₂ : ∀ e T' held', TreeInv S.capacity T' → (∀ x ∈ held, T' x.1 = T x.1) →
      Made T' (planLockAll path access ++ chain (comps path.str) (comps firstPath.str) .unique)
        held' →
      locate T' 0 (comps path.str ++ comps secondPath.str) = .error e →
      ∃ n, atomic T' n c = .fail T' secondErr.kind)
    (herror : ∀ w' err, S.Finished t (.error err.kind) w' → Q (.error err) w')
    (hok : ∀ w' T' held₁ held₂ arr₁ arr₂ p₁ p₂, TreeInv S.capacity T' →
      (∀ x ∈ held, T' x.1 = T x.1) →
      Made T' (planLockAll path access ++ chain (comps path.str) (comps firstPath.str) .unique ++
        chain (comps path.str) (comps secondPath.str) .unique) (held ++ held₁ ++ held₂) →
      Local t (held ++ held₁ ++ held₂) T' T' [] slot w' →
      Stored arr₁ 0 held₁ → held₁.length = tfsPathComponentsLen firstPath →
      Stored arr₂ 0 held₂ → held₂.length = tfsPathComponentsLen secondPath →
      locate T' 0 (comps path.str ++ comps firstPath.str) = .ok p₁ →
      locate T' 0 (comps path.str ++ comps secondPath.str) = .ok p₂ →
      Q (.ok ((⟨p₁, (T' p₁).type⟩, ⟨arr₁, tfsPathComponentsLen firstPath⟩),
        (⟨p₂, (T' p₂).type⟩, ⟨arr₂, tfsPathComponentsLen secondPath⟩))) w') :
    S.Safe E Q (tfsFsMoveLockParents S.fs ⟨arr, tfsPathComponentsLen path + 1⟩ ⟨a, (T a).type⟩
      firstPath secondPath firstErr secondErr) w := by
  have hvalid := S.valid t
  rw [hc] at hvalid
  have hext : Extends [] c.plan := @Task.extends_plan (.call c) hvalid
  have hmade' : Made T (planLockAll path access ++ []) held := by rwa [List.append_nil]
  obtain ⟨b, hmem⟩ := hmade'.mem_planLockAll ha
  have hnodup := hmade.nodup hT hext hplan
  rw [tfsFsMoveLockParents]
  refine Safe.bind (tfsFsMoveLockParent_safe hc hfirst hplan hT hmade h ha ⟨b, hmem⟩ firstErr.kind
    hfail₁ ?_ ?_)
  swap
  · intro w₁ T₁ _ _ _ hT₁ hlive₁ hdone
    refine Safe.bind (unlockAll_safe hlen hstored hdone hnodup hlive₁ fun w₂ _ h₂ w₃ hs₃ _ => ?_)
    exact herror w₃ firstErr (h₂.env hs₃).finished_error
  intro w₁ T₁ held₁ arr₁ p₁ hi₁ hT₁ hagree₁ hmade₁ h₁ hstored₁ hlen₁ hp₁
  have hplan₁ : c.plan = planLockAll path access ++
      chain (comps path.str) (comps firstPath.str) .unique ++
        (chain (comps path.str) (comps secondPath.str) .unique ++ todo) := by simpa using hplan
  have ha₁ : locate T₁ 0 (comps path.str) = .ok a := (hmade'.locate_planLockAll hagree₁).trans ha
  have hTa : T₁ a = T a := hagree₁ _ hmem
  obtain ⟨r, hr, hrpath⟩ := exists_mem_chain (exists_mem_planLockAll path access)
    (comps firstPath.str) .unique
  have hcov := covered_chain (covered_planLockAll path access) (exists_mem_planLockAll path access)
    (comps firstPath.str) .unique
  obtain ⟨j, hj, hmem₁⟩ := hmade₁.exists_held hr
  obtain rfl : p₁ = j := by simpa [hrpath, hp₁] using hj
  dsimp only
  rw [← hTa]
  refine Safe.bind (tfsFsMoveLockParent_safe hc hsecond hplan₁ hT₁ hmade₁ h₁ ha₁
    ⟨b, List.mem_append_left _ hmem⟩ secondErr.kind (fun e T' held' hT' hagree' => hfail₂ e T' held'
      hT' fun x hx => (hagree' x (List.mem_append_left _ hx)).trans (hagree₁ x hx)) ?_ ?_)
  · intro w₂ T₂ held₂ arr₂ p₂ hi₂ hT₂ hagree₂ hmade₂ h₂ hstored₂ hlen₂ hp₂
    have hsame : T₂ p₁ = T₁ p₁ := hagree₂ _ hmem₁
    refine safe_pure h₂ fun w₃ _ h₃ => ?_
    rw [← hsame]
    have hagree₃ : ∀ x ∈ held, T₂ x.1 = T x.1 := fun x hx =>
      (hagree₂ x (List.mem_append_left _ hx)).trans (hagree₁ x hx)
    exact hok w₃ T₂ held₁ held₂ arr₁ arr₂ p₁ p₂ hT₂ hagree₃ hmade₂ h₃ hstored₁ hlen₁ hstored₂ hlen₂
      ((hmade₁.locate_congr hagree₂ hcov).trans hp₁) hp₂
  · intro w₂ T₂ _ _ _ hT₂ hlive₂ hdone
    have hnodup₁ := hmade₁.nodup hT₁ hext hplan₁
    refine Safe.bind (tfsFsUnlockInodes_safe hlen hstored hdone hnodup₁
      (fun x hx => hlive₂ x (List.mem_append_left _ hx)) (by simp) fun w₃ _ h₃ => ?_)
    rw [List.map_append] at hnodup₁
    refine Safe.bind (unlockAll_safe hlen₁ hstored₁ h₃ (List.nodup_append.mp hnodup₁).2.1
      (fun x hx => hlive₂ x (List.mem_append_right _ hx)) fun w₄ _ h₄ w₅ hs₅ _ => ?_)
    exact herror w₅ secondErr (h₄.env hs₅).finished_error

/-! ## The entry -/

/-- The three arrays of a move have the slots `held`. -/
def Chained (common orig dest : LockedChain) (held : List (Nat × TfsRwLockAccess)) : Prop :=
  ∃ heldC heldO heldD, held.Perm (heldC ++ (heldO ++ heldD)) ∧
    (Stored common.lockedInodes 0 heldC ∧ heldC.length = common.len) ∧
    (Stored orig.lockedInodes 0 heldO ∧ heldO.length = orig.len) ∧
    (Stored dest.lockedInodes 0 heldD ∧ heldD.length = dest.len)

theorem tfsFsMoveUnlock_safe {Q : Unit → FsWorld ι → Prop} {common orig dest : LockedChain}
    {rest : List (Nat × TfsRwLockAccess)} {r : Outcome} {leak : Option (Nat × TfsRwLockAccess)}
    (hchained : Chained common orig dest held) (h : S.Done t (held ++ rest) T N r leak w)
    (hnodup : ((held ++ rest).map Prod.fst).Nodup) (hlive : ∀ x ∈ held, T x.1 ≠ .none)
    (hleak : ∀ x ∈ leak, x ∈ rest)
    (hQ : ∀ w', S.Inv w' → S.Done t rest T N r leak w' → Q () w') :
    S.Safe E Q (tfsFsMoveUnlock S.fs common orig dest) w := by
  obtain ⟨heldC, heldO, heldD, hperm, ⟨hstC, hlenC⟩, ⟨hstO, hlenO⟩, hstD, hlenD⟩ := hchained
  have hperm' : (held ++ rest).Perm (heldC ++ (heldO ++ (heldD ++ rest))) := by
    simpa using hperm.append_right rest
  have hlive' : ∀ x ∈ heldC ++ (heldO ++ heldD), T x.1 ≠ .none := fun x hx =>
    hlive x (hperm.mem_iff.mpr hx)
  rw [(hperm'.map Prod.fst).nodup_iff] at hnodup
  have hnodupO : ((heldO ++ (heldD ++ rest)).map Prod.fst).Nodup := by
    rw [List.map_append] at hnodup
    exact (List.nodup_append.mp hnodup).2.1
  have hnodupD : ((heldD ++ rest).map Prod.fst).Nodup := by
    rw [List.map_append] at hnodupO
    exact (List.nodup_append.mp hnodupO).2.1
  rw [tfsFsMoveUnlock]
  refine Safe.bind (tfsFsUnlockInodes_safe hlenC hstC (h.congr fun _ => hperm'.mem_iff.symm) hnodup
    (fun x hx => hlive' x (by simp [hx])) (fun x hx => by simp [hleak x hx]) fun w₁ _ h₁ => ?_)
  refine Safe.bind (tfsFsUnlockInodes_safe hlenO hstO h₁ hnodupO
    (fun x hx => hlive' x (by simp [hx])) (fun x hx => by simp [hleak x hx]) fun w₂ _ h₂ => ?_)
  exact tfsFsUnlockInodes_safe hlenD hstD h₂ hnodupD (fun x hx => hlive' x (by simp [hx])) hleak hQ

/-- A move that fails before it locks the inode. -/
theorem moveUnlock_fail_safe {common orig dest : LockedChain} {err : TfsFsMoveError}
    (hchained : Chained common orig dest held) (hready : S.Ready t held T (.error err.kind) none)
    (h : Local t held T T [] slot w) (hnodup : (held.map Prod.fst).Nodup)
    (hlive : ∀ x ∈ held, T x.1 ≠ .none) :
    S.Safe E (fun result w' => S.Finished t (Reply.move result).outcome w')
      (do
        tfsFsMoveUnlock S.fs common orig dest
        pure (.error err)) w := by
  have hdone := hready.toDone h
  rw [← List.append_nil held] at hnodup hdone
  exact Safe.bind (tfsFsMoveUnlock_safe hchained hdone hnodup hlive (by simp)
    fun w₁ _ h₁ w₂ hs₂ _ => (h₁.env hs₂).finished_error)

/-- **The entry is moved.** -/
theorem tfsFsMoveEntry_safe {common orig dest : LockedChain} {done : List Request} {p q : Nat}
    {pre : List (List CChar)} (hm : S.Moving t origPath destPath access s)
    (hplan : (Call.move origPath destPath access).plan = done ++
      [⟨pre ++ s.origNames, access, some (pre ++ comps s.destParent.str)⟩])
    (hT : TreeInv S.capacity T) (hmade : Made T done held) (h : Local t held T T [] slot w)
    (hchained : Chained common orig dest held) (hroot : ∃ b, (0, b) ∈ held)
    (hp : (p, .unique) ∈ held) (hq : (q, .unique) ∈ held) (hpq : p ≠ q)
    (hsame : ∀ T', (∀ x ∈ held, T' x.1 = T x.1) →
      locate T' 0 (pre ++ comps s.origParent.str) = .ok p ∧
      locate T' 0 (pre ++ comps s.destParent.str) = .ok q ∧
      ∀ n, atomic T' n (.move origPath destPath access) =
        atomicMoveEntry T' p q s.origFilename.str s.destFilename.str access) :
    S.Safe E (fun result w' => S.Finished t (Reply.move result).outcome w')
      (tfsFsMoveEntry S.fs common ⟨p, (T p).type⟩ orig ⟨q, (T q).type⟩ dest s.origFilename
        s.destFilename access) w := by
  have hnodup := hmade.nodup hT hm.ext hplan
  have hlive := hmade.live hT hm.ext hplan
  have horig : ∀ T', (∀ x ∈ held, T' x.1 = T x.1) →
      locate T' 0 (pre ++ s.origNames) = locate T' p [s.origFilename.str] := by
    intro T' hagree
    rw [MoveSplit.origNames, ← List.append_assoc]
    exact locate_append_of_ok (hsame T' hagree).1 _
  rw [tfsFsMoveEntry]
  by_cases hdp : (T p).type = .dir
  swap
  · rw [if_pos hdp]
    refine moveUnlock_fail_safe hchained ?_ h hnodup hlive
    refine ready_of_made hm.task hplan hmade (by simp) fun T' _ hagree _ => ?_
    have hdp' : (T' p).type ≠ .dir := by rwa [hagree _ hp]
    refine ⟨requests_eq_nil_of_error ((horig T' hagree).trans (locate_cons_of_not_dir hdp' _ _)), 0,
      ?_, fits_of_ne_create (by simp)⟩
    rw [(hsame T' hagree).2.2, atomicMoveEntry_of_orig_not_dir hdp']
    rfl
  rw [if_neg (not_not.mpr hdp)]
  obtain ⟨d, hd⟩ := TfsInode.type_eq_dir_iff.mp hdp
  by_cases hdq : (T q).type = .dir
  swap
  · rw [if_pos hdq]
    refine moveUnlock_fail_safe hchained ?_ h hnodup hlive
    refine ready_of_made hm.task hplan hmade (by simp) fun T' _ hagree _ => ?_
    have hdq' : (T' q).type ≠ .dir := by rwa [hagree _ hq]
    refine ⟨requests_eq_nil_of_needs rfl ?_, 0, ?_, fits_of_ne_create (by simp)⟩
    · rintro ⟨j, hj, htype⟩
      rw [(hsame T' hagree).2.1, Except.ok.injEq] at hj
      exact hdq' (hj ▸ htype)
    · rw [(hsame T' hagree).2.2, atomicMoveEntry_of_dest_not_dir ((hagree _ hp).trans hd) hdq']
      rfl
  rw [if_neg (not_not.mpr hdq)]
  obtain ⟨e, he⟩ := TfsInode.type_eq_dir_iff.mp hdq
  refine Safe.bind (searchByName_safe h hp hd fun w₁ _ h₁ => ?_)
  cases hsearch : tfsInodeDirSearchByName d s.origFilename.str with
  | none =>
    refine moveUnlock_fail_safe hchained ?_ h₁ hnodup hlive
    refine ready_of_made hm.task hplan hmade (by simp) fun T' _ hagree _ => ?_
    have hd' := (hagree _ hp).trans hd
    have herr := horig T' hagree
    rw [locate_cons_of_dir hd', hsearch] at herr
    refine ⟨requests_eq_nil_of_error herr, 0, ?_, fits_of_ne_create (by simp)⟩
    rw [(hsame T' hagree).2.2, atomicMoveEntry_of_dirs hd' ((hagree _ hq).trans he), hsearch]
    rfl
  | some x =>
    obtain ⟨child, dirIdx⟩ := x
    dsimp only
    have hplan' : (S.task t).plan = done ++
        ⟨pre ++ s.origNames, access, some (pre ++ comps s.destParent.str)⟩ :: [] := by
      rw [hm.task]
      exact hplan
    have hnames := horig T fun _ _ => rfl
    rw [locate_cons_of_dir hd, hsearch] at hnames
    have hneeds : ∀ path ∈ some (pre ++ comps s.destParent.str), DirAt T path := by
      rintro path hpath
      obtain rfl : pre ++ comps s.destParent.str = path := by simpa using hpath
      exact ⟨q, (hsame T fun _ _ => rfl).2.1, hdq⟩
    refine Safe.bind (tfsInodeTableLock_safe hplan' hmade h₁ ⟨hnames, hneeds⟩
      fun w₂ T₂ hT₂ hagree₂ hmade₂ _ hchild h₂ => ?_)
    rw [← hplan] at hmade₂
    have hnodup₂ := hmade₂.nodup hT₂ hm.ext (List.append_nil _).symm
    have hlive₂ : ∀ x ∈ held, T₂ x.1 ≠ .none := fun x hx => by rw [hagree₂ x hx]; exact hlive x hx
    have hp₂ : (p, Access.unique) ∈ held ++ [(child, access)] := List.mem_append_left _ hp
    have hq₂ : (q, Access.unique) ∈ held ++ [(child, access)] := List.mem_append_left _ hq
    have hd₂ : T₂ p = .dir d := (hagree₂ _ hp).trans hd
    have he₂ : T₂ q = .dir e := (hagree₂ _ hq).trans he
    have hentry : ∀ T', (∀ x ∈ held ++ [(child, access)], T' x.1 = T₂ x.1) →
        T' p = .dir d ∧ T' q = .dir e ∧ atomic T' 0 (.move origPath destPath access) =
          atomicMoveEntry T' p q s.origFilename.str s.destFilename.str access := by
      intro T' hagree
      have hsame' := hsame T' fun x hx => (hagree x (List.mem_append_left _ hx)).trans (hagree₂ x hx)
      exact ⟨(hagree _ hp₂).trans hd₂, (hagree _ hq₂).trans he₂, hsame'.2.2 0⟩
    refine Safe.bind (Safe.bind (dir_safe h₂ hq₂ he₂ fun w₃ _ h₃ => ?_))
    cases hadd : tfsInodeDirAddEntry e child s.destFilename.str with
    | error err =>
      -- the lock of the inode itself is kept
      have hready : S.Ready t (held ++ [(child, access)]) T₂ (.error (.moveAddEntry err.kind))
          (some (child, access)) := by
        refine ready_of_made hm.task (List.append_nil _).symm hmade₂ (by simp)
          fun T' _ hagree _ => ⟨rfl, 0, ?_, fits_of_ne_create (by simp)⟩
        obtain ⟨hd', he', hatomic⟩ := hentry T' hagree
        rw [hatomic, atomicMoveEntry_of_dirs hd' he', hsearch]
        dsimp only
        rw [hadd]
      refine safe_pure h₃ fun w₄ _ h₄ => ?_
      refine Safe.bind (tfsFsMoveUnlock_safe hchained (hready.toDone h₄) hnodup₂ hlive₂ (by simp)
        fun w₅ _ h₅ w₆ hs₆ _ => ?_)
      exact ⟨T₂, T₂, _, _, h₅.env hs₆, Or.inr ⟨by simp [Reply.outcome], rfl, by simpa using hchild⟩⟩
    | ok e' =>
      -- the first of two writes
      obtain ⟨b, hroot⟩ := hroot
      have hroot₂ : ∃ b, (0, b) ∈ held ++ [(child, access)] := ⟨b, List.mem_append_left _ hroot⟩
      refine Safe.bind (safe_write h₃ ⟨_, hm.task⟩ hq₂ (Or.inr ⟨hroot₂, by rw [he₂]; rfl⟩)
        fun w₄ _ h₄ => safe_pure h₄ fun w₅ _ h₅ => ?_)
      have hN : update T₂ q (.dir e') p = .dir d := (update_of_ne hpq ..).trans hd₂
      refine Safe.bind (Safe.bind (dir_safe h₅ hp₂ hN fun w₆ _ h₆ => ?_))
      have hassert := removeEntryByDirIdx_assert (hm.cuts.nulFree_origFilename hm.valid.1) hsearch
      refine Safe.bind (safe_assert h₆ (decide_eq_true hassert) (fun _ _ _ => trivial)
        fun w₇ _ h₇ => ?_)
      refine safe_write_commit h₇ hm.task hroot₂ hp₂ (by rw [hd₂]; rfl) 0 (.ok (some child))
        (fun T' => update (update T' q (.dir e')) p
          (.dir (tfsInodeDirRemoveEntryByDirIdx d dirIdx))) ?_ ?_ ?_ ?_
      · intro T' _ hagree
        obtain ⟨hd', he', hatomic⟩ := hentry T' hagree
        refine ⟨?_, fits_of_ne_create (by simp), ?_⟩
        · rw [hatomic, atomicMoveEntry_of_dirs hd' he', hsearch]
          dsimp only
          rw [hadd]
        · rw [requests_of_made hm.task hmade₂ hagree]
          exact fun x hx => hx
      · intro T' j hj
        by_cases hjp : j = p
        · exact hjp ▸ hp₂
        · by_cases hjq : j = q
          · exact hjq ▸ hq₂
          · rw [update_of_ne hjp, update_of_ne hjq] at hj
            exact absurd rfl hj
      · intro T' hagree x hx
        refine Or.inr ?_
        by_cases hxp : x.1 = p
        · rw [hxp, update_self, update_self]
        · rw [update_of_ne hxp, update_of_ne hxp]
          by_cases hxq : x.1 = q
          · rw [hxq, update_self, update_self]
          · rw [update_of_ne hxq, update_of_ne hxq, hagree x hx]
      · intro w₈ T' _ hagree hdone
        have hlive₃ : ∀ x ∈ held ++ [(child, access)], update (update T' q (.dir e')) p
            (.dir (tfsInodeDirRemoveEntryByDirIdx d dirIdx)) x.1 ≠ .none := by
          intro x hx
          by_cases hxp : x.1 = p
          · rw [hxp, update_self]
            simp
          · rw [update_of_ne hxp]
            by_cases hxq : x.1 = q
            · rw [hxq, update_self]
              simp
            · rw [update_of_ne hxq, hagree x hx]
              exact hmade₂.live hT₂ hm.ext (List.append_nil _).symm x hx
        refine Safe.bind (tfsFsMoveUnlock_safe hchained hdone hnodup₂
          (fun x hx => hlive₃ x (List.mem_append_left _ hx)) (by simp) fun w₉ _ h₉ w' hs' _ => ?_)
        exact (h₉.env hs').finished_inode (hlive₃ (child, access) (by simp))

/-! ## The operation -/

/-- The move of a directory to itself: it is found, and nothing else. -/
theorem move_self_safe (hm : S.Moving t origPath destPath access s)
    (hrest : s.rhsRest.len = 0 ∧ s.lhsRest.len = 0) {arr : LockedInodes}
    (hT : TreeInv S.capacity T) (hmade : Made T (planLockAll s.ancestor s.ancestorAccess) held)
    (h : Local t held T T [] slot w) (hstored : Stored arr 0 held)
    (hlen : held.length = tfsPathComponentsLen s.ancestor + 1)
    (ha : locate T 0 (comps s.ancestor.str) = .ok a) :
    S.Safe E (fun result w' => S.Finished t (Reply.move result).outcome w')
      (do
        tfsFsUnlockInodes S.fs arr 0 (tfsPathComponentsLen s.ancestor + 1 - 1)
        let inode ← arr.get (tfsPathComponentsLen s.ancestor + 1 - 1)
        pure (.ok inode)) w := by
  have hplan : (Call.move origPath destPath access).plan =
      planLockAll s.ancestor s.ancestorAccess ++ [] := by
    rw [hm.plan, MoveSplit.planRest, if_pos hrest]
  have hnodup := hmade.nodup hT hm.ext hplan
  have hlive := hmade.live hT hm.ext hplan
  obtain ⟨init, b, rfl⟩ := hmade.exists_last ha
  have hready : S.Ready t (init ++ [(a, b)]) T (.ok (some a)) none := by
    refine ready_of_made hm.task hplan hmade (by simp) fun T' _ hagree hmade' =>
      ⟨rfl, 0, ?_, fits_of_ne_create (by simp)⟩
    rw [← List.append_nil (planLockAll _ _)] at hmade
    rw [hm.atomic ((hmade.locate_planLockAll hagree).trans ha), atomicMoveFrom, if_pos hrest]
  have hinit : init.length = tfsPathComponentsLen s.ancestor + 1 - 1 := by simpa using hlen
  obtain ⟨type, hget⟩ := hstored init.length (a, b) (by simp)
  have hstored' : Stored arr 0 init := fun k x hx =>
    hstored k x (by rw [List.getElem?_append_left (List.getElem?_eq_some_iff.mp hx).1, hx])
  rw [Nat.zero_add, hinit] at hget
  refine Safe.bind (tfsFsUnlockInodes_safe hinit hstored' (hready.toDone h) hnodup
    (fun x hx => hlive x (List.mem_append_left _ hx)) (by simp) fun w₁ _ h₁ => ?_)
  rw [LockedInodes.get_of_getElem? hget, pure_bind]
  exact fun w₂ hs₂ _ => (h₁.env hs₂).finished_inode (hlive (a, b) (by simp))

/-- The common ancestor is no directory. -/
theorem move_not_dir_safe (hm : S.Moving t origPath destPath access s)
    (hrest : ¬(s.rhsRest.len = 0 ∧ s.lhsRest.len = 0)) {arr : LockedInodes}
    (hT : TreeInv S.capacity T) (hmade : Made T (planLockAll s.ancestor s.ancestorAccess) held)
    (h : Local t held T T [] slot w) (hstored : Stored arr 0 held)
    (hlen : held.length = tfsPathComponentsLen s.ancestor + 1)
    (ha : locate T 0 (comps s.ancestor.str) = .ok a) (hd : (T a).type ≠ .dir) :
    S.Safe E (fun result w' => S.Finished t (Reply.move result).outcome w')
      (do
        tfsFsUnlockChain S.fs ⟨arr, tfsPathComponentsLen s.ancestor + 1⟩
        pure (.error .commonAncestorNotDir)) w := by
  have hmade' : Made T (planLockAll s.ancestor s.ancestorAccess ++ []) held := by
    rwa [List.append_nil]
  obtain ⟨b, hmem⟩ := hmade'.mem_planLockAll ha
  have hready : S.Ready t held T (.error .moveCommonAncestorNotDir) none := by
    refine ready_of_made hm.task hm.plan hmade (by simp) fun T' _ hagree _ => ?_
    have ha' := (hmade'.locate_planLockAll hagree).trans ha
    have hd' : (T' a).type ≠ .dir := by rwa [hagree _ hmem]
    refine ⟨requests_eq_nil_of_not_dir ha' hd' fun r hr => MoveSplit.exists_of_mem_planRest hr, 0,
      ?_, fits_of_ne_create (by simp)⟩
    rw [hm.atomic ha', atomicMoveFrom, if_neg hrest, if_pos hd']
    rfl
  exact Safe.bind (unlockAll_safe hlen hstored (hready.toDone h) (hmade.nodup hT hm.ext hm.plan)
    (hmade.live hT hm.ext hm.plan) fun w₁ _ h₁ w₂ hs₂ _ => (h₁.env hs₂).finished_error)

/-- A move between two directories, with both parents locked. -/
theorem move_parents_safe {common orig dest : LockedChain} {p q : Nat}
    (hm : S.Moving t origPath destPath access s)
    (hrest : ¬(s.rhsRest.len = 0 ∧ s.lhsRest.len = 0))
    (hparents : ¬(s.origParent.len = 0 ∧ s.destParent.len = 0)) (hT : TreeInv S.capacity T)
    (hmade : Made T s.planParents held) (h : Local t held T T [] slot w)
    (hchained : Chained common orig dest held)
    (ha : locate T 0 (comps s.ancestor.str) = .ok a) (hd : (T a).type = .dir)
    (hp : locate T 0 (comps s.ancestor.str ++ comps s.origParent.str) = .ok p)
    (hq : locate T 0 (comps s.ancestor.str ++ comps s.destParent.str) = .ok q) :
    S.Safe E (fun result w' => S.Finished t (Reply.move result).outcome w')
      (tfsFsMoveEntry S.fs common ⟨p, (T p).type⟩ orig ⟨q, (T q).type⟩ dest s.origFilename
        s.destFilename access) w := by
  have hplan : (Call.move origPath destPath access).plan = s.planParents ++
      [⟨comps s.ancestor.str ++ s.origNames, access,
        some (comps s.ancestor.str ++ comps s.destParent.str)⟩] := by
    rw [hm.plan, MoveSplit.planRest, if_neg hrest, if_neg hparents, MoveSplit.planParents]
    simp only [List.append_assoc]
  have hunique : ∀ {path : TfsPath} {j : Nat}, (path = s.origParent ∨ path = s.destParent) →
      locate T 0 (comps s.ancestor.str ++ comps path.str) = .ok j → (j, .unique) ∈ held := by
    intro path j hpath hj
    obtain ⟨⟨r, hr, hrpath, hacc⟩, -⟩ := hm.cuts.exists_mem_planParents hpath
    obtain ⟨i, hi, hmem⟩ := hmade.exists_held hr
    rw [hrpath, hj, Except.ok.injEq] at hi
    exact hacc ▸ hi ▸ hmem
  have hmade' : Made T (planLockAll s.ancestor s.ancestorAccess ++
      (chain (comps s.ancestor.str) (comps s.parents.1.str) .unique ++
        chain (comps s.ancestor.str) (comps s.parents.2.str) .unique)) held := by
    rw [← List.append_assoc]
    exact hmade
  obtain ⟨b, hamem⟩ := hmade'.mem_planLockAll ha
  have hp' : locate T a (comps s.origParent.str) = .ok p := (locate_append_of_ok ha _).symm.trans hp
  have hq' : locate T a (comps s.destParent.str) = .ok q := (locate_append_of_ok ha _).symm.trans hq
  refine tfsFsMoveEntry_safe hm hplan hT hmade h hchained hmade'.root_mem
    (hunique (Or.inl rfl) hp) (hunique (Or.inr rfl) hq)
    (hm.cuts.apart hT hm.valid.1 hm.valid.2 hparents ha hp' hq').1 ?_
  intro T' hagree
  have hlocate : ∀ {path : TfsPath}, (path = s.origParent ∨ path = s.destParent) →
      locate T' 0 (comps s.ancestor.str ++ comps path.str) =
        locate T 0 (comps s.ancestor.str ++ comps path.str) := fun hpath =>
    hmade.locate_congr hagree (hm.cuts.exists_mem_planParents hpath).2
  have hp₁ := (hlocate (Or.inl rfl)).trans hp
  have hq₁ := (hlocate (Or.inr rfl)).trans hq
  have ha₁ := (hmade'.locate_planLockAll hagree).trans ha
  have hd₁ : (T' a).type = .dir := by rw [hagree _ hamem, hd]
  refine ⟨hp₁, hq₁, fun n => ?_⟩
  rw [hm.atomic ha₁]
  exact atomicMoveFrom_of_parents hrest hd₁ hparents ((locate_append_of_ok ha₁ _).symm.trans hp₁)
    ((locate_append_of_ok ha₁ _).symm.trans hq₁) access

/-- A move between two directories, with their common ancestor locked. -/
theorem move_between_safe (hm : S.Moving t origPath destPath access s)
    (hrest : ¬(s.rhsRest.len = 0 ∧ s.lhsRest.len = 0))
    (hparents : ¬(s.origParent.len = 0 ∧ s.destParent.len = 0)) {arr : LockedInodes}
    (hT : TreeInv S.capacity T) (hmade : Made T (planLockAll s.ancestor s.ancestorAccess) held)
    (h : Local t held T T [] slot w) (hstored : Stored arr 0 held)
    (hlen : held.length = tfsPathComponentsLen s.ancestor + 1)
    (ha : locate T 0 (comps s.ancestor.str) = .ok a) (hd : (T a).type = .dir) :
    S.Safe E (fun result w' => S.Finished t (Reply.move result).outcome w')
      (if tfsStrCmp s.origParent.str s.destParent.str < 0 then do
        match ← tfsFsMoveLockParents S.fs ⟨arr, tfsPathComponentsLen s.ancestor + 1⟩
          ⟨a, (T a).type⟩ s.origParent s.destParent
          .inexistentOriginParentDir .inexistentDestinationParentDir with
        | .error err => pure (.error err)
        | .ok (orig, dest) =>
            tfsFsMoveEntry S.fs ⟨arr, tfsPathComponentsLen s.ancestor + 1⟩ orig.1 orig.2 dest.1
              dest.2 s.origFilename s.destFilename access
      else do
        match ← tfsFsMoveLockParents S.fs ⟨arr, tfsPathComponentsLen s.ancestor + 1⟩
          ⟨a, (T a).type⟩ s.destParent s.origParent
          .inexistentDestinationParentDir .inexistentOriginParentDir with
        | .error err => pure (.error err)
        | .ok (dest, orig) =>
            tfsFsMoveEntry S.fs ⟨arr, tfsPathComponentsLen s.ancestor + 1⟩ orig.1 orig.2 dest.1
              dest.2 s.origFilename s.destFilename access) w := by
  have hmade' : Made T (planLockAll s.ancestor s.ancestorAccess ++ []) held := by
    rwa [List.append_nil]
  obtain ⟨b, hamem⟩ := hmade'.mem_planLockAll ha
  have hrestPlan : s.planRest access = chain (comps s.ancestor.str) (comps s.parents.1.str) .unique ++
      (chain (comps s.ancestor.str) (comps s.parents.2.str) .unique ++
        [⟨comps s.ancestor.str ++ s.origNames, access,
          some (comps s.ancestor.str ++ comps s.destParent.str)⟩]) := by
    rw [MoveSplit.planRest, if_neg hrest, if_neg hparents, List.append_assoc]
  -- the ancestor stays the directory that was found
  have hancestor : ∀ {T' : Tree}, (∀ x ∈ held, T' x.1 = T x.1) →
      locate T' 0 (comps s.ancestor.str) = .ok a ∧ (T' a).type = .dir := fun hagree =>
    ⟨(hmade'.locate_planLockAll hagree).trans ha, by rw [hagree _ hamem, hd]⟩
  have hfrom : ∀ {T' : Tree} {kind : ErrorKind}, (∀ x ∈ held, T' x.1 = T x.1) →
      atomicMoveFrom T' a s access = .fail T' kind →
      ∃ n, atomic T' n (.move origPath destPath access) = .fail T' kind := fun hagree heq =>
    ⟨0, (hm.atomic (hancestor hagree).1 0).trans heq⟩
  have hrel : ∀ {T' : Tree} (cs : List (List CChar)), (∀ x ∈ held, T' x.1 = T x.1) →
      locate T' 0 (comps s.ancestor.str ++ cs) = locate T' a cs := fun cs hagree =>
    locate_append_of_ok (hancestor hagree).1 cs
  have hfound : ∀ {T' : Tree} {held' : List (Nat × TfsRwLockAccess)} {path : TfsPath},
      (∀ x ∈ held, T' x.1 = T x.1) →
      Made T' (planLockAll s.ancestor s.ancestorAccess ++
        chain (comps s.ancestor.str) (comps path.str) .unique) held' →
      ∃ j, locate T' a (comps path.str) = .ok j := by
    intro T' held' path hagree hmade'
    obtain ⟨r, hr, hrpath⟩ := exists_mem_chain (exists_mem_planLockAll s.ancestor s.ancestorAccess)
      (comps path.str) .unique
    obtain ⟨j, hj, -⟩ := hmade'.exists_held hr
    rw [hrpath, hrel _ hagree] at hj
    exact ⟨j, hj⟩
  by_cases hfirst : tfsStrCmp s.origParent.str s.destParent.str < 0
  · have hparentsEq : s.parents = (s.origParent, s.destParent) := if_pos hfirst
    have hplan := hm.plan
    rw [hrestPlan, hparentsEq] at hplan
    rw [if_pos hfirst]
    refine Safe.bind (tfsFsMoveLockParents_safe hm.task hm.cuts.origParent hm.cuts.destParent hplan
      hT hmade h hstored hlen ha ?_ ?_ (fun w' err hfin w'' hs _ => hfin.env hs) ?_)
    · intro e T' held' _ hagree _ herr
      exact hfrom hagree ((atomicMoveFrom_of_no_parent hrest (hancestor hagree).2 hparents
        access).1 e ((hrel _ hagree).symm.trans herr) (Or.inl hfirst))
    · intro e T' held' _ hagree hmade' herr
      exact hfrom hagree ((atomicMoveFrom_of_no_parent hrest (hancestor hagree).2 hparents
        access).2 e ((hrel _ hagree).symm.trans herr) (Or.inr (hfound hagree hmade')))
    · intro w' T' held₁ held₂ arr₁ arr₂ p q hT' hagree hmade' h' hst₁ hlen₁ hst₂ hlen₂ hp hq
      obtain ⟨ha', hd'⟩ := hancestor hagree
      refine move_parents_safe hm hrest hparents hT' ?_ h' ⟨held, held₁, held₂, by simp,
        ⟨hstored, hlen⟩, ⟨hst₁, hlen₁⟩, hst₂, hlen₂⟩ ha' hd' hp hq
      rw [MoveSplit.planParents, hparentsEq]
      exact hmade'
  · have hparentsEq : s.parents = (s.destParent, s.origParent) := if_neg hfirst
    have hplan := hm.plan
    rw [hrestPlan, hparentsEq] at hplan
    rw [if_neg hfirst]
    refine Safe.bind (tfsFsMoveLockParents_safe hm.task hm.cuts.destParent hm.cuts.origParent hplan
      hT hmade h hstored hlen ha ?_ ?_ (fun w' err hfin w'' hs _ => hfin.env hs) ?_)
    · intro e T' held' _ hagree _ herr
      exact hfrom hagree ((atomicMoveFrom_of_no_parent hrest (hancestor hagree).2 hparents
        access).2 e ((hrel _ hagree).symm.trans herr) (Or.inl hfirst))
    · intro e T' held' _ hagree hmade' herr
      exact hfrom hagree ((atomicMoveFrom_of_no_parent hrest (hancestor hagree).2 hparents
        access).1 e ((hrel _ hagree).symm.trans herr) (Or.inr (hfound hagree hmade')))
    · intro w' T' held₁ held₂ arr₁ arr₂ q p hT' hagree hmade' h' hst₁ hlen₁ hst₂ hlen₂ hq hp
      obtain ⟨ha', hd'⟩ := hancestor hagree
      refine move_parents_safe hm hrest hparents hT' ?_ h' ⟨held, held₂, held₁, ?_,
        ⟨hstored, hlen⟩, ⟨hst₂, hlen₂⟩, hst₁, hlen₁⟩ ha' hd' hp hq
      · rw [MoveSplit.planParents, hparentsEq]
        exact hmade'
      · rw [List.append_assoc]
        exact List.perm_append_comm.append_left held

/-- **`tfs_fs_move`.** -/
theorem tfsFsMove_safe (hc : S.task t = .call (.move origPath destPath access))
    (h : Local t [] T T [] slot w) :
    S.Safe E (fun result w' => S.Finished t (Reply.move result).outcome w')
      (tfsFsMove S.fs origPath destPath access) w := by
  have hguard : ∀ {err : TfsFsMoveError}, (Call.move origPath destPath access).plan = [] →
      (∀ T', atomicMove T' origPath destPath access = .fail T' err.kind) →
      S.Safe E (fun result w' => S.Finished t (Reply.move result).outcome w')
        (pure (.error err)) w := by
    intro err hplan hatomic
    have hready : S.Ready t [] T (.error err.kind) none :=
      ready_of_made hc hplan List.Forall₂.nil (by simp) fun T' _ _ _ =>
        ⟨rfl, 0, hatomic T', fits_of_ne_create (by simp)⟩
    exact safe_pure h fun w₁ _ h₁ => (hready.toDone h₁).finished_error
  by_cases ho : tfsPathEq origPath (moveSplit origPath destPath).destParent = true
  · have hplan : (Call.move origPath destPath access).plan = [] := if_pos ho
    rw [tfsFsMove]
    exact (if_pos ho).symm ▸ hguard hplan fun T' => if_pos ho
  by_cases hd : tfsPathEq (moveSplit origPath destPath).origParent destPath = true
  · have hplan : (Call.move origPath destPath access).plan = [] :=
      (if_neg ho).trans (if_pos hd)
    rw [tfsFsMove]
    exact ((if_neg ho).trans (if_pos hd)).symm ▸ hguard hplan fun T' =>
      (if_neg ho).trans (if_pos hd)
  have hm : S.Moving t origPath destPath access (moveSplit origPath destPath) :=
    ⟨hc, rfl, by simpa using ho, by simpa using hd⟩
  rw [tfsFsMove]
  refine ((if_neg ho).trans (if_neg hd)).symm ▸ ?_
  refine Safe.bind (tfsFsLockAll_safe hc hm.plan h (fun _ => .moveInexistentCommonAncestor) ?_ ?_ ?_)
  · exact fun kind T' _ herr => ⟨0, atomicMove_of_no_ancestor hm.orig hm.dest herr access⟩
  · intro w₁ T₁ held arr a _ hT₁ hmade₁ h₁ hstored hlen ha
    dsimp only
    by_cases hrest : (moveSplit origPath destPath).rhsRest.len = 0 ∧
        (moveSplit origPath destPath).lhsRest.len = 0
    · exact (if_pos hrest).symm ▸ move_self_safe hm hrest hT₁ hmade₁ h₁ hstored hlen ha
    refine (if_neg hrest).symm ▸ ?_
    by_cases htype : (T₁ a).type = .dir
    swap
    · rw [if_pos htype]
      exact move_not_dir_safe hm hrest hT₁ hmade₁ h₁ hstored hlen ha htype
    rw [if_neg (not_not.mpr htype)]
    by_cases hparents : (moveSplit origPath destPath).origParent.len = 0 ∧
        (moveSplit origPath destPath).destParent.len = 0
    · obtain ⟨d, hd⟩ := TfsInode.type_eq_dir_iff.mp htype
      rw [htype]
      exact (if_pos hparents).symm ▸ tfsFsMoveRename_safe hm hrest hparents hT₁ hmade₁ h₁ hstored
        hlen ha hd
    · exact (if_neg hparents).symm ▸ move_between_safe hm hrest hparents hT₁ hmade₁ h₁ hstored hlen
        ha htype
  · intro w₁ T₁ arr err _ h₁ w₂ hs₂ _
    exact (h₁.env hs₂).finished_error

end Setup

end TecnicoFs
