import TecnicoFs.Fs.Calls

/-!
# Two-phase locking

All operations lock in two phases: once an operation has given back a lock, it does not wait
for another one.  This is a property of their texts alone, whatever the memory is and
whatever other threads do.

The search for an empty slot in `tfs_inode_table_add` gives back locks as well, but these it
only tried to take.  It tries for unique access.
-/

namespace TecnicoFs

open Interleaving TfsProg

variable {α β : Type}

/-- What an operation may do; `released` says whether it has given back a lock. -/
def Op.Allowed (released : Bool) : Op → Prop
  | .lock .. => released = false
  | .tryLock _ access => access = .unique
  | _ => True

/-- Whether a lock has been given back after the action. -/
def Op.Releases (released : Bool) : Op → Bool
  | .unlock _ => true
  | _ => released

/-- **The program locks in two phases**, and returns only in `Q`. -/
abbrev TwoPhase (Q : Bool → α → Prop) (released : Bool) (p : TfsProg α) : Prop :=
  p.Keeps Op.Allowed Op.Releases Q released

/-- The program neither waits for a lock nor gives one back. -/
def Quiet (p : TfsProg α) : Prop := ∀ b, TwoPhase (fun b' _ => b' = b) b p

/-- The program waits for no lock. -/
def Lockless (p : TfsProg α) : Prop := ∀ b, TwoPhase (fun _ _ => True) b p

section Rules

variable {Q : Bool → β → Prop} {p : TfsProg α} {f : α → TfsProg β} {b : Bool}

theorem Quiet.bind (h : Quiet p) (hf : ∀ a, TwoPhase Q b (f a)) : TwoPhase Q b (p >>= f) := by
  refine Prog.Keeps.bind ((h b).mono ?_)
  rintro b' a rfl
  exact hf a

theorem Quiet.lockless (h : Quiet p) : Lockless p := fun b => (h b).mono fun _ _ _ => trivial

theorem Lockless.bind (h : Lockless p) (hf : ∀ a, Lockless (f a)) : Lockless (p >>= f) :=
  fun b => Prog.Keeps.bind ((h b).mono fun b' a _ => hf a b')

theorem Lockless.bind_pure {Q : Bool → β → Prop} {g : α → β} (h : Lockless p)
    (hQ : ∀ b a, Q b (g a)) : TwoPhase Q b (p >>= fun a => pure (g a)) :=
  Prog.Keeps.bind ((h b).mono fun b' a _ => hQ b' a)

theorem lockless_pure (a : α) : Lockless (pure a : TfsProg α) := fun _ => trivial

theorem quiet_pure (a : α) : Quiet (pure a : TfsProg α) := fun _ => rfl

theorem quiet_undefined : Quiet (undefined : TfsProg α) := fun _ => ⟨trivial, fun r => r.elim⟩

end Rules

/-! ## The functions of the source -/

section Functions

variable {self : TfsFs} {table : TfsInodeTable} {Q : Bool → TfsLockedInode → Prop}

theorem quiet_assert (site : AssertSite) (holds : Bool) : Quiet (TfsProg.assert site holds) :=
  fun _ => ⟨trivial, fun _ => rfl⟩

theorem quiet_read (i : Nat) : Quiet (TfsProg.read i) := fun _ => ⟨trivial, fun _ => rfl⟩

theorem quiet_write (i : Nat) (node : TfsInode) : Quiet (TfsProg.write i node) :=
  fun _ => ⟨trivial, fun _ => rfl⟩

theorem lockless_unlock (i : Nat) : Lockless (tfsRwLockUnlock i) :=
  fun _ => ⟨trivial, fun _ => trivial⟩

theorem quiet_dir (inode : TfsLockedInode) : Quiet inode.dir := by
  refine fun b => (quiet_read _).bind fun node => ?_
  cases node with
  | none => exact quiet_undefined b
  | file => exact quiet_undefined b
  | dir d => exact quiet_pure d b

theorem quiet_searchByName (inode : TfsLockedInode) (name : List CChar) :
    Quiet (inode.searchByName name) :=
  fun b => (quiet_dir inode).bind fun _ => quiet_pure _ b

theorem quiet_addEntry (inode : TfsLockedInode) (idx : Nat) (name : List CChar) :
    Quiet (inode.addEntry idx name) := by
  refine fun b => (quiet_dir inode).bind fun d => ?_
  cases tfsInodeDirAddEntry d idx name with
  | error err => exact quiet_pure _ b
  | ok d' => exact (quiet_write _ _).bind fun _ => quiet_pure _ b

theorem quiet_rename (inode : TfsLockedInode) (idx : Nat) (name : List CChar) :
    Quiet (inode.rename idx name) := by
  refine fun b => (quiet_dir inode).bind fun d => ?_
  cases tfsInodeDirRename d idx name with
  | error err => exact quiet_pure _ b
  | ok d' => exact (quiet_write _ _).bind fun _ => quiet_pure _ b

theorem quiet_removeEntryByDirIdx (inode : TfsLockedInode) (dirIdx : Nat) :
    Quiet (inode.removeEntryByDirIdx dirIdx) :=
  fun b => (quiet_dir inode).bind fun _ => (quiet_assert _ _).bind fun _ => quiet_write _ _ b

theorem lockless_unlockInode (i : Nat) : Lockless (tfsInodeTableUnlockInode table i) :=
  fun b => (quiet_assert _ _).bind fun _ => (quiet_read i).bind fun _ =>
    (quiet_assert _ _).bind fun _ => lockless_unlock i b

theorem lockless_removeInode (i : Nat) : Lockless (tfsInodeTableRemoveInode table i) :=
  fun b => (quiet_assert _ _).bind fun _ => (quiet_write i _).bind fun _ => lockless_unlock i b

/-- An array access takes no lock. -/
theorem quiet_get (lockedInodes : LockedInodes) (n : Nat) : Quiet (lockedInodes.get n) := by
  rw [LockedInodes.get]
  split
  · exact quiet_pure _
  · exact quiet_undefined

theorem quiet_put (lockedInodes : LockedInodes) (n : Nat) (inode : TfsLockedInode) :
    Quiet (lockedInodes.put n inode) := by
  rw [LockedInodes.put]
  split
  · exact quiet_pure _
  · exact quiet_undefined

theorem lockless_unlockInodes (lockedInodes : LockedInodes) (n len : Nat) :
    Lockless (tfsFsUnlockInodes self lockedInodes n len) := by
  induction len generalizing n with
  | zero => exact lockless_pure ()
  | succ len ih =>
    exact fun b => (quiet_get lockedInodes n).bind fun inode =>
      (lockless_unlockInode _).bind (fun _ => ih (n + 1)) b

theorem lockless_add (type : TfsInodeType) : Lockless (tfsInodeTableAdd table type) := by
  have hloop : ∀ k n, Lockless (tfsInodeTableAdd.loop k n) := by
    intro k
    induction k with
    | zero => exact fun n => lockless_pure none
    | succ k ih =>
      intro n b
      refine ⟨rfl, fun taken => ?_⟩
      cases taken with
      | false => exact ih (n + 1) b
      | true =>
        refine ⟨trivial, fun node => ?_⟩
        show TwoPhase _ b (if node.type = .none then pure (some n)
          else tfsRwLockUnlock n >>= fun _ => tfsInodeTableAdd.loop k (n + 1))
        split
        · exact lockless_pure (some n) b
        · exact (lockless_unlock n).bind (fun _ => ih (n + 1)) b
  refine fun b => (quiet_assert _ _).bind fun _ => (hloop _ _).bind (fun emptyIdx => ?_) b
  refine fun b => (quiet_assert _ _).bind fun _ => ?_
  cases emptyIdx with
  | none => exact quiet_undefined.lockless b
  | some i =>
    exact (quiet_write _ _).bind fun _ => (quiet_write _ _).bind fun _ => lockless_pure i b

theorem twoPhase_lock (i : Nat) (access : TfsRwLockAccess) (hQ : ∀ inode, Q false inode) :
    TwoPhase Q false (tfsInodeTableLock table i access) :=
  (quiet_assert _ _).bind fun _ => ⟨rfl, fun _ => (quiet_read i).bind fun _ =>
    (quiet_assert _ _).bind fun _ => (quiet_read i).bind fun _ => hQ _⟩

/-- A lock has been given back only if the result is an error. -/
def ReleasedOnError {ε : Type} (b : Bool) (result : Except ε α) : Prop :=
  b = false ∨ ∃ err, result = .error err

/-- What follows a walk: nothing is waited for after an error. -/
theorem bind_releasedOnError {ε γ : Type} {p : TfsProg (Except ε α × γ)} {Q : Bool → β → Prop}
    {f : Except ε α × γ → TfsProg β} (h : TwoPhase (fun b x => ReleasedOnError b x.1) false p)
    (herr : ∀ err x b, TwoPhase Q b (f (.error err, x)))
    (hok : ∀ a x, TwoPhase Q false (f (.ok a, x))) : TwoPhase Q false (p >>= f) := by
  refine Prog.Keeps.bind (h.mono ?_)
  rintro b ⟨result, x⟩ hb
  cases result with
  | error err => exact herr err x b
  | ok a =>
    obtain rfl : b = false := hb.resolve_right fun ⟨_, h⟩ => by cases h
    exact hok a x

theorem twoPhase_lockAllFrom (path : TfsPath) (startInode : TfsLockedInode)
    (lockedInodes : LockedInodes) (start : Nat) (access : TfsRwLockAccess) :
    TwoPhase (fun b x => ReleasedOnError b x.1) false
      (tfsFsLockAllFrom self path startInode lockedInodes start access) := by
  rw [tfsFsLockAllFrom]
  generalize tfsPathTrim path = curPath, (0 : Nat) = len
  induction curPath, startInode, lockedInodes, len using tfsFsLockAllFrom.loop.induct start with
  | case1 curPath curInode arr len hlen htype =>
    rw [tfsFsLockAllFrom.loop, dif_pos hlen]
    dsimp only
    rw [if_pos htype]
    exact (lockless_unlockInodes arr start len).bind_pure fun _ _ => Or.inr ⟨_, rfl⟩
  | case2 curPath curInode arr len hlen curPath' htype ih =>
    rw [tfsFsLockAllFrom.loop, dif_pos hlen]
    dsimp only
    rw [if_neg htype]
    refine (quiet_searchByName _ _).bind fun found => ?_
    cases found with
    | none => exact (lockless_unlockInodes arr start len).bind_pure fun _ _ => Or.inr ⟨_, rfl⟩
    | some x =>
      refine Prog.Keeps.bind (twoPhase_lock _ _ fun inode => ?_)
      exact (quiet_put _ _ _).bind fun arr' => ih inode arr'
  | case3 curPath curInode arr len hlen hzero =>
    rw [tfsFsLockAllFrom.loop, dif_neg hlen, hzero]
    exact (quiet_undefined false).mono fun _ _ h => Or.inl h
  | case4 curPath curInode arr len hlen last hlast =>
    rw [tfsFsLockAllFrom.loop, dif_neg hlen, hlast]
    exact (quiet_get _ _).bind fun inode => Or.inl rfl

theorem twoPhase_lockAll (path : TfsPath) (lockedInodes : LockedInodes)
    (access : TfsRwLockAccess) :
    TwoPhase (fun b x => ReleasedOnError b x.1) false
      (tfsFsLockAll self path lockedInodes access) := by
  refine Prog.Keeps.bind (twoPhase_lock _ _ fun root => ?_)
  refine (quiet_put _ _ _).bind fun arr => ?_
  refine bind_releasedOnError (twoPhase_lockAllFrom _ _ _ _ _) (fun err x b => ?_) fun inode x => ?_
  · exact (lockless_unlockInode _).bind_pure fun _ _ => Or.inr ⟨_, rfl⟩
  · exact Or.inl rfl

/-! ## The operations -/

theorem twoPhase_create (path : TfsPath) (type : TfsInodeType) :
    TwoPhase (fun _ _ => True) false (tfsFsCreate self path type) := by
  refine bind_releasedOnError (twoPhase_lockAll _ _ _) (fun err x => lockless_pure _) fun parent x => ?_
  dsimp only
  split
  · exact (lockless_unlockInodes _ _ _).bind (fun _ => lockless_pure _) false
  · refine (lockless_add type).bind (fun idx b => (quiet_addEntry _ _ _).bind fun added => ?_) false
    cases added with
    | error err =>
      exact (lockless_unlockInodes _ _ _).bind (fun _ =>
        (lockless_removeInode _).bind fun _ => lockless_pure _) b
    | ok u => exact (lockless_unlockInodes _ _ _).bind (fun _ => lockless_pure _) b

theorem twoPhase_remove (path : TfsPath) :
    TwoPhase (fun _ _ => True) false (tfsFsRemove self path) := by
  refine bind_releasedOnError (twoPhase_lockAll _ _ _) (fun err x => lockless_pure _) fun parent x => ?_
  dsimp only
  split
  · exact (lockless_unlockInodes _ _ _).bind (fun _ => lockless_pure _) false
  refine (quiet_searchByName _ _).bind fun found => ?_
  cases found with
  | none => exact (lockless_unlockInodes _ _ _).bind (fun _ => lockless_pure _) false
  | some y =>
    refine Prog.Keeps.bind (twoPhase_lock _ _ fun child => ?_)
    have hnonEmpty : Quiet (tfsFsRemove.childNonEmpty child) := by
      rw [tfsFsRemove.childNonEmpty]
      split
      · exact fun b => (quiet_dir child).bind fun _ => quiet_pure _ b
      · exact quiet_pure false
    refine hnonEmpty.bind fun nonEmpty => ?_
    cases nonEmpty with
    | true =>
      exact (lockless_unlockInodes _ _ _).bind (fun _ =>
        (lockless_unlockInode _).bind fun _ => lockless_pure _) false
    | false =>
      exact (quiet_removeEntryByDirIdx _ _).lockless.bind (fun _ =>
        (lockless_removeInode _).bind fun _ => (lockless_unlockInodes _ _ _).bind fun _ =>
          lockless_pure _) false

theorem twoPhase_find (path : TfsPath) (access : TfsRwLockAccess) :
    TwoPhase (fun _ _ => True) false (tfsFsFind self path access) :=
  bind_releasedOnError (twoPhase_lockAll _ _ _) (fun _ _ => lockless_pure _)
    fun _ _ => (lockless_unlockInodes _ _ _).bind (fun _ => lockless_pure _) false

theorem lockless_moveUnlock (common orig dest : LockedChain) :
    Lockless (tfsFsMoveUnlock self common orig dest) :=
  (lockless_unlockInodes _ _ _).bind fun _ => (lockless_unlockInodes _ _ _).bind fun _ =>
    lockless_unlockInodes _ _ _

theorem twoPhase_moveRename (common : LockedChain) (commonAncestor : TfsLockedInode)
    (origPathFilename destPathFilename : TfsPath) :
    TwoPhase (fun _ _ => True) false
      (tfsFsMoveRename self common commonAncestor origPathFilename destPathFilename) := by
  refine (quiet_searchByName _ _).bind fun found => ?_
  cases found with
  | none => exact (lockless_unlockInodes _ _ _).bind (fun _ => lockless_pure _) false
  | some x =>
    refine Prog.Keeps.bind (twoPhase_lock _ _ fun child => ?_)
    refine (quiet_rename _ _ _).bind fun renamed => ?_
    cases renamed with
    | error err =>
      exact (lockless_unlockInodes _ _ _).bind (fun _ =>
        (lockless_unlockInode _).bind fun _ => lockless_pure _) false
    | ok u => exact (lockless_unlockInodes _ _ _).bind (fun _ => lockless_pure _) false

theorem twoPhase_moveLockParents (common : LockedChain) (commonAncestor : TfsLockedInode)
    (firstPath secondPath : TfsPath) (firstErr secondErr : TfsFsMoveError) :
    TwoPhase ReleasedOnError false
      (tfsFsMoveLockParents self common commonAncestor firstPath secondPath firstErr secondErr) := by
  have hparent : ∀ pathParent arr, TwoPhase (fun b x => ReleasedOnError b x.1) false
      (tfsFsMoveLockParent self commonAncestor pathParent arr) := by
    intro pathParent arr
    rw [tfsFsMoveLockParent]
    split
    · exact Or.inl rfl
    · exact twoPhase_lockAllFrom _ _ _ _ _
  refine bind_releasedOnError (hparent _ _) (fun err x b => ?_) fun first x => ?_
  · exact (lockless_unlockInodes _ _ _).bind_pure fun _ _ => Or.inr ⟨_, rfl⟩
  refine bind_releasedOnError (hparent _ _) (fun err y b => ?_) fun second y => Or.inl rfl
  refine Prog.Keeps.bind ((lockless_unlockInodes _ _ _ _).mono fun b' _ _ => ?_)
  exact (lockless_unlockInodes _ _ _).bind_pure fun _ _ => Or.inr ⟨_, rfl⟩

theorem twoPhase_moveEntry (common : LockedChain) (origParent : TfsLockedInode)
    (lockedOrig : LockedChain) (destParent : TfsLockedInode) (lockedDest : LockedChain)
    (origPathFilename destPathFilename : TfsPath) (access : TfsRwLockAccess) :
    TwoPhase (fun _ _ => True) false (tfsFsMoveEntry self common origParent lockedOrig destParent
      lockedDest origPathFilename destPathFilename access) := by
  have hunlock : ∀ (b : Bool) (result : Except TfsFsMoveError TfsLockedInode),
      TwoPhase (fun _ _ => True) b
        (tfsFsMoveUnlock self common lockedOrig lockedDest >>= fun _ => pure result) :=
    fun b _ => (lockless_moveUnlock _ _ _).bind (fun _ => lockless_pure _) b
  rw [tfsFsMoveEntry]
  split
  · exact hunlock _ _
  split
  · exact hunlock _ _
  refine (quiet_searchByName _ _).bind fun found => ?_
  cases found with
  | none => exact hunlock _ _
  | some x =>
    refine Prog.Keeps.bind (twoPhase_lock _ _ fun orig => ?_)
    refine (quiet_addEntry _ _ _).bind fun added => ?_
    cases added with
    | error err => exact hunlock _ _
    | ok u => exact (quiet_removeEntryByDirIdx _ _).bind fun _ => hunlock _ _

theorem twoPhase_move (origPath destPath : TfsPath) (access : TfsRwLockAccess) :
    TwoPhase (fun _ _ => True) false (tfsFsMove self origPath destPath access) := by
  rw [tfsFsMove]
  dsimp only
  split
  · exact lockless_pure _ false
  split
  · exact lockless_pure _ false
  refine bind_releasedOnError (twoPhase_lockAll _ _ _) (fun err x => lockless_pure _) fun common x => ?_
  dsimp only
  split
  · exact (lockless_unlockInodes _ _ _).bind (fun _ => (quiet_get _ _).lockless.bind fun _ =>
      lockless_pure _) false
  split
  · exact (lockless_unlockInodes _ _ _).bind (fun _ => lockless_pure _) false
  split
  · exact twoPhase_moveRename _ _ _ _
  split
  · refine Prog.Keeps.bind ((twoPhase_moveLockParents _ _ _ _ _ _).mono fun b result hb => ?_)
    cases result with
    | error err => exact lockless_pure _ b
    | ok y =>
      obtain rfl : b = false := hb.resolve_right fun ⟨_, h⟩ => by cases h
      exact twoPhase_moveEntry _ _ _ _ _ _ _ _
  · refine Prog.Keeps.bind ((twoPhase_moveLockParents _ _ _ _ _ _).mono fun b result hb => ?_)
    cases result with
    | error err => exact lockless_pure _ b
    | ok y =>
      obtain rfl : b = false := hb.resolve_right fun ⟨_, h⟩ => by cases h
      exact twoPhase_moveEntry _ _ _ _ _ _ _ _

/-- **Every operation locks in two phases.** -/
theorem Call.twoPhase_operation (c : Call) : TwoPhase (fun _ _ => True) false (c.operation self) := by
  cases c with
  | create path type => exact Prog.Keeps.bind ((twoPhase_create _ _).mono fun _ _ _ => trivial)
  | remove path => exact Prog.Keeps.bind ((twoPhase_remove _).mono fun _ _ _ => trivial)
  | find path access => exact Prog.Keeps.bind ((twoPhase_find _ _).mono fun _ _ _ => trivial)
  | move origPath destPath access =>
    exact Prog.Keeps.bind ((twoPhase_move _ _ _).mono fun _ _ _ => trivial)

end Functions

end TecnicoFs
