import TecnicoFs.Fs.Defined
import TecnicoFs.Fs.Calls

/-!
# The arrays of locked inodes

No operation reads an element of an array of locked inodes that it did not write, or
writes past the end of one.  This is a matter of counting.  The array of a path has as many
elements as `tfs_path_components_len` counts from the back, and the loop from the front
writes one for each component that it pops, so it has written all of them when the path is
used up.  If it stops earlier, it goes back over what it wrote, and its caller leaves the
array alone.

The array that starts at the root has one element more, and the loop is given what follows
that one.  So on a path with no components the last element written is the one before its
own part, and it is there.  A move locks its two parents without the root, and does not
lock a parent with no components at all.
-/

namespace TecnicoFs

open Interleaving TfsProg Text

variable {ι : Type} [DecidableEq ι]

/-! ## Arrays of locked inodes -/

/-- The first `n` elements were written. -/
def LockedInodes.Written (arr : LockedInodes) (n : Nat) : Prop :=
  ∀ k < n, ∃ inode, arr[k]? = some (some inode)

theorem LockedInodes.Written.put {arr : LockedInodes} {n : Nat} (h : arr.Written n)
    (hlt : n < arr.length) (inode : TfsLockedInode) :
    Written (arr.set n (some inode)) (n + 1) := by
  intro k hk
  rcases Nat.lt_succ_iff_lt_or_eq.mp hk with hk | rfl
  · rw [List.getElem?_set_ne (Nat.ne_of_gt hk)]
    exact h k hk
  · exact ⟨inode, List.getElem?_set_self hlt⟩

/-- The array was written from start to end. -/
def LockedChain.Written (chain : LockedChain) : Prop := chain.lockedInodes.Written chain.len

namespace Defined

variable {t : ι} {m : Mem ι} {held : List TfsLockedInode} {inode : TfsLockedInode} {fs : TfsFs}
  {path : TfsPath} {access : TfsRwLockAccess} {arr : LockedInodes}

theorem tfsFsUnlockInodes {n len : Nat} (h : arr.Written (n + len)) :
    Defined t (fun _ _ => True) (tfsFsUnlockInodes fs arr n len) m := by
  induction len generalizing n m with
  | zero => exact ret ()
  | succ len ih =>
    obtain ⟨inode, hget⟩ := h n (by omega)
    rw [TecnicoFs.tfsFsUnlockInodes, LockedInodes.get_of_getElem? hget, pure_bind]
    exact tfsInodeTableUnlockInode.andThen fun _ _ => ih (by rwa [Nat.add_right_comm])

/-- **The loop along a path** writes as many elements as there are components left, and
returns the last one that was written. -/
theorem tfsFsLockAllFrom_loop
    {Q : Except TfsFsFindError TfsLockedInode × LockedInodes → Mem ι → Prop} {start n : Nat}
    {cur : TfsPath} {cs : List (List CChar)} (htrim : Trimmed isSlashOrSpace cur.str)
    (hcs : comps cur.str = cs) (h : HoldsAll t held m) (hmem : inode ∈ held)
    (hwritten : arr.Written (start + n)) (hlen : start + n + cs.length = arr.length)
    (hlast : cs = [] → ∃ last, start + n = last + 1 ∧ arr[last]? = some (some inode))
    (hok : ∀ inode arr' m', HoldsAll t (inode :: held) m' → arr'.Written arr.length →
      Q (.ok inode, arr') m')
    (herror : ∀ err arr' m', Q (.error err, arr') m') :
    Defined t Q (tfsFsLockAllFrom.loop fs path start access cur inode arr n) m := by
  induction cs generalizing cur inode arr held n m with
  | nil =>
    obtain ⟨last, hlast, hget⟩ := hlast rfl
    have hzero := (len_eq_zero_iff_of_trimmed htrim).mpr hcs
    rw [tfsFsLockAllFrom.loop, dif_neg (not_not.mpr hzero), hlast]
    dsimp only
    rw [LockedInodes.get_of_getElem? hget, pure_bind]
    refine ret_of_held h fun m' h' => hok inode arr m' (h'.cons (h' inode hmem)) ?_
    rwa [← hlen]
  | cons c cs ih =>
    have hnonzero := len_ne_zero_of_cons hcs
    obtain ⟨-, hrest⟩ := tfsPathPopFirst_of_cons hcs
    have hlt : start + n < arr.length := by
      rw [List.length_cons] at hlen
      omega
    -- what was locked so far is unlocked, and not used again
    have habort : ∀ err m', Defined t Q (do
        TecnicoFs.tfsFsUnlockInodes fs arr start n
        pure (.error err, arr)) m' :=
      fun err _ => (tfsFsUnlockInodes hwritten).andThen fun _ _ =>
        ret_of_held holdsAll_nil fun _ _ => herror err arr _
    rw [tfsFsLockAllFrom.loop, dif_pos hnonzero]
    dsimp only
    split
    · exact habort _ m
    rename_i hdir
    refine bind (searchByName h hmem (not_not.mp hdir) fun found m₁ h₁ => ?_)
    cases found with
    | none => exact habort _ m₁
    | some x =>
      refine bind (tfsInodeTableLock h₁ fun child m₂ h₂ => ?_)
      rw [LockedInodes.put_of_lt hlt, pure_bind]
      refine ih (n := n + 1) (trimmed_tfsPathPopFirst_rest cur) hrest h₂ List.mem_cons_self
        (hwritten.put hlt child) ?_ (fun _ => ⟨start + n, rfl, List.getElem?_set_self hlt⟩) ?_
      · rw [List.length_set, ← hlen, List.length_cons]
        omega
      · intro inode arr' m' h' hwritten'
        rw [List.length_set] at hwritten'
        exact hok inode arr' m' (h'.mono (List.cons_subset_cons _ (List.subset_cons_self _ _)))
          hwritten'

/-- **From the root**, with an array that has an element for it as well. -/
theorem tfsFsLockAll
    {Q : Except TfsFsFindError TfsLockedInode × LockedInodes → Mem ι → Prop}
    (hok : ∀ inode arr m', inode.HeldBy t m' → arr.Written (tfsPathComponentsLen path + 1) →
      Q (.ok inode, arr) m')
    (herror : ∀ err arr m', Q (.error err, arr) m') :
    Defined t Q (tfsFsLockAll fs path (.new (tfsPathComponentsLen path + 1)) access) m := by
  have hlt : 0 < (LockedInodes.new (tfsPathComponentsLen path + 1)).length := by
    simp [LockedInodes.new]
  refine bind (tfsInodeTableLock holdsAll_nil fun root m₁ h₁ => ?_)
  rw [LockedInodes.put_of_lt hlt, pure_bind]
  have hwritten : LockedInodes.Written _ 1 :=
    LockedInodes.Written.put (fun _ hk => absurd hk (Nat.not_lt_zero _)) hlt root
  refine bind (tfsFsLockAllFrom_loop (trimmed_tfsPathTrim path) (comps_tfsPathTrim path) h₁
    List.mem_cons_self hwritten ?_ (fun _ => ⟨0, rfl, List.getElem?_set_self hlt⟩) ?_ ?_)
  · rw [List.length_set, LockedInodes.new, List.length_replicate, tfsPathComponentsLen_eq]
    exact Nat.add_comm 1 _
  · intro inode arr m₂ h₂ hwritten'
    rw [List.length_set, LockedInodes.new, List.length_replicate] at hwritten'
    exact ret_of_held h₂ fun m₃ h₃ => hok inode arr m₃ (h₃ inode List.mem_cons_self) hwritten'
  · exact fun err arr m₂ => tfsInodeTableUnlockInode.andThen fun _ _ =>
      ret_of_held holdsAll_nil fun _ _ => herror err arr _

/-! ## Operations -/

/-- An array that was written is unlocked from its start. -/
theorem unlockAll {len : Nat} (h : arr.Written len) :
    Defined t (fun _ _ => True) (TecnicoFs.tfsFsUnlockInodes fs arr 0 len) m :=
  tfsFsUnlockInodes (by rwa [Nat.zero_add])

theorem tfsFsCreate {type : TfsInodeType} :
    Defined t (fun _ _ => True) (tfsFsCreate fs path type) m := by
  refine bind (tfsFsLockAll (fun parent arr m₁ hparent hwritten => ?_) fun _ _ _ => ret _)
  dsimp only
  split
  · exact (unlockAll hwritten).andThen fun _ _ => ret _
  rename_i hdir
  refine bind (tfsInodeTableAdd (holdsAll_nil.cons hparent) fun idx m₂ h₂ => ?_)
  refine bind (addEntry h₂ List.mem_cons_self (not_not.mp hdir) fun result m₃ _ => ?_)
  cases result with
  | error err =>
    exact (unlockAll hwritten).andThen fun _ _ => tfsInodeTableRemoveInode.andThen fun _ _ => ret _
  | ok u => exact (unlockAll hwritten).andThen fun _ _ => ret _

theorem tfsFsRemove_childNonEmpty {child : TfsLockedInode} {Q : Bool → Mem ι → Prop}
    (h : HoldsAll t held m) (hmem : child ∈ held)
    (hQ : ∀ nonEmpty m', HoldsAll t held m' → Q nonEmpty m') :
    Defined t Q (tfsFsRemove.childNonEmpty child) m := by
  rw [tfsFsRemove.childNonEmpty]
  split
  · rename_i hdir
    exact bind (dir h hmem hdir fun _ _ h₁ => ret_of_held h₁ (hQ _))
  · exact ret_of_held h (hQ false)

theorem tfsFsRemove : Defined t (fun _ _ => True) (tfsFsRemove fs path) m := by
  refine bind (tfsFsLockAll (fun parent arr m₁ hparent hwritten => ?_) fun _ _ _ => ret _)
  dsimp only
  split
  · exact (unlockAll hwritten).andThen fun _ _ => ret _
  rename_i hdir
  replace hdir := not_not.mp hdir
  refine bind (searchByName (holdsAll_nil.cons hparent) List.mem_cons_self hdir
    fun found m₂ h₂ => ?_)
  cases found with
  | none => exact (unlockAll hwritten).andThen fun _ _ => ret _
  | some x =>
    refine bind (tfsInodeTableLock h₂ fun child m₃ h₃ => ?_)
    refine bind (tfsFsRemove_childNonEmpty h₃ List.mem_cons_self fun nonEmpty m₄ h₄ => ?_)
    split
    · exact (unlockAll hwritten).andThen fun _ _ =>
        tfsInodeTableUnlockInode.andThen fun _ _ => ret _
    · refine bind (removeEntryByDirIdx h₄ (List.mem_cons_of_mem _ List.mem_cons_self) hdir
        fun m₅ _ => tfsInodeTableRemoveInode.andThen fun _ _ => ?_)
      exact (unlockAll hwritten).andThen fun _ _ => ret _

theorem tfsFsFind : Defined t (fun _ _ => True) (tfsFsFind fs path access) m := by
  refine bind (tfsFsLockAll (fun inode arr m₁ _ hwritten => ?_) fun _ _ _ => ret _)
  have hinit : arr.Written (tfsPathComponentsLen path + 1 - 1) := fun k hk => hwritten k (by omega)
  exact (unlockAll hinit).andThen fun _ _ => ret _

/-! ## Moving -/

section Move

variable {common orig dest : LockedChain} {commonAncestor origParent destParent : TfsLockedInode}
  {origFilename destFilename : TfsPath}

theorem tfsFsUnlockChain (h : common.Written) :
    Defined t (fun _ _ => True) (tfsFsUnlockChain fs common) m :=
  unlockAll h

theorem tfsFsMoveUnlock (hcommon : common.Written) (horig : orig.Written) (hdest : dest.Written) :
    Defined t (fun _ _ => True) (tfsFsMoveUnlock fs common orig dest) m :=
  (tfsFsUnlockChain hcommon).andThen fun _ _ => (tfsFsUnlockChain horig).andThen fun _ _ =>
    tfsFsUnlockChain hdest

theorem tfsFsMoveRename (h : HoldsAll t held m) (hmem : commonAncestor ∈ held)
    (hdir : commonAncestor.type = .dir) (hcommon : common.Written) :
    Defined t (fun _ _ => True)
      (tfsFsMoveRename fs common commonAncestor origFilename destFilename) m := by
  refine bind (searchByName h hmem hdir fun found m₁ h₁ => ?_)
  cases found with
  | none => exact (tfsFsUnlockChain hcommon).andThen fun _ _ => ret _
  | some x =>
    refine bind (tfsInodeTableLock h₁ fun child m₂ h₂ => ?_)
    refine bind (rename h₂ (List.mem_cons_of_mem _ hmem) hdir fun result m₃ _ => ?_)
    cases result with
    | error err =>
      exact (tfsFsUnlockChain hcommon).andThen fun _ _ =>
        tfsInodeTableUnlockInode.andThen fun _ _ => ret _
    | ok u => exact (tfsFsUnlockChain hcommon).andThen fun _ _ => ret _

/-- **One parent of a move.**  The path has been trimmed, so it is empty if it has no
components. -/
theorem tfsFsMoveLockParent
    {Q : Except TfsFsFindError TfsLockedInode × LockedInodes → Mem ι → Prop}
    (htrim : Trimmed isSlashOrSpace path.str) (h : HoldsAll t held m)
    (hmem : commonAncestor ∈ held)
    (hok : ∀ parent arr m', HoldsAll t (parent :: held) m' →
      arr.Written (tfsPathComponentsLen path) → Q (.ok parent, arr) m')
    (herror : ∀ err arr m', Q (.error err, arr) m') :
    Defined t Q
      (tfsFsMoveLockParent fs commonAncestor path (.new (tfsPathComponentsLen path))) m := by
  rw [TecnicoFs.tfsFsMoveLockParent]
  split
  · rename_i hzero
    have hlen : tfsPathComponentsLen path = 0 := by
      rw [tfsPathComponentsLen_eq, comps_of_len hzero, List.length_nil]
    refine ret_of_held h fun m' h' => hok _ _ m' (h'.cons (h' _ hmem)) ?_
    rw [hlen]
    exact fun _ hk => absurd hk (Nat.not_lt_zero _)
  · rename_i hnonzero
    have hne : comps path.str ≠ [] := fun hnil =>
      hnonzero ((len_eq_zero_iff_of_trimmed htrim).mpr hnil)
    refine tfsFsLockAllFrom_loop (trimmed_tfsPathTrim path) (comps_tfsPathTrim path) h hmem
      (fun _ hk => absurd hk (Nat.not_lt_zero _)) ?_ (fun hnil => absurd hnil hne) ?_ herror
    · rw [LockedInodes.new, List.length_replicate, tfsPathComponentsLen_eq]
      exact Nat.zero_add _
    · intro parent arr m' h' hwritten
      rw [LockedInodes.new, List.length_replicate] at hwritten
      exact hok parent arr m' h' hwritten

theorem tfsFsMoveLockParents {firstPath secondPath : TfsPath} {firstErr secondErr : TfsFsMoveError}
    {Q : Except TfsFsMoveError
      ((TfsLockedInode × LockedChain) × (TfsLockedInode × LockedChain)) → Mem ι → Prop}
    (hfirst : Trimmed isSlashOrSpace firstPath.str)
    (hsecond : Trimmed isSlashOrSpace secondPath.str) (h : HoldsAll t held m)
    (hmem : commonAncestor ∈ held) (hcommon : common.Written)
    (hok : ∀ (first second : TfsLockedInode × LockedChain) m', HoldsAll t [first.1, second.1] m' →
      first.2.Written → second.2.Written → Q (.ok (first, second)) m')
    (herror : ∀ err m', Q (.error err) m') :
    Defined t Q (tfsFsMoveLockParents fs common commonAncestor firstPath secondPath firstErr
      secondErr) m := by
  refine bind (tfsFsMoveLockParent hfirst h hmem (fun first arr m₁ h₁ hwritten => ?_)
    fun _ _ m₁ => ?_)
  swap
  · exact (tfsFsUnlockChain hcommon).andThen fun _ _ =>
      ret_of_held holdsAll_nil fun _ _ => herror _ _
  have hwritten₁ : LockedChain.Written ⟨arr, _⟩ := hwritten
  refine bind (tfsFsMoveLockParent hsecond h₁ (List.mem_cons_of_mem _ hmem)
    (fun second arr' m₂ h₂ hwritten' => ?_) fun _ _ m₂ => ?_)
  swap
  · exact (tfsFsUnlockChain hcommon).andThen fun _ _ => (tfsFsUnlockChain hwritten₁).andThen
      fun _ _ => ret_of_held holdsAll_nil fun _ _ => herror _ _
  have hboth : HoldsAll t [first, second] m₂ := h₂.mono (by simp)
  exact ret_of_held hboth fun m₃ h₃ => hok (first, _) (second, _) m₃ h₃ hwritten₁ hwritten'

theorem tfsFsMoveEntry (h : HoldsAll t held m) (horigMem : origParent ∈ held)
    (hdestMem : destParent ∈ held) (hcommon : common.Written) (horig : orig.Written)
    (hdest : dest.Written) :
    Defined t (fun _ _ => True) (tfsFsMoveEntry fs common origParent orig destParent dest
      origFilename destFilename access) m := by
  have hunlock : ∀ (result : Except TfsFsMoveError TfsLockedInode) m',
      Defined t (fun _ _ => True) (do
        TecnicoFs.tfsFsMoveUnlock fs common orig dest
        pure result) m' :=
    fun _ _ => (tfsFsMoveUnlock hcommon horig hdest).andThen fun _ _ => ret _
  rw [TecnicoFs.tfsFsMoveEntry]
  split
  · exact hunlock _ m
  rename_i horigDir
  split
  · exact hunlock _ m
  rename_i hdestDir
  replace horigDir := not_not.mp horigDir
  replace hdestDir := not_not.mp hdestDir
  refine bind (searchByName h horigMem horigDir fun found m₁ h₁ => ?_)
  cases found with
  | none => exact hunlock _ m₁
  | some x =>
    refine bind (tfsInodeTableLock h₁ fun orig' m₂ h₂ => ?_)
    refine bind (addEntry h₂ (List.mem_cons_of_mem _ hdestMem) hdestDir fun result m₃ h₃ => ?_)
    cases result with
    | error err => exact hunlock _ m₃
    | ok u =>
      exact bind (removeEntryByDirIdx h₃ (List.mem_cons_of_mem _ horigMem) horigDir
        fun m₄ _ => hunlock _ m₄)

theorem tfsFsMove {origPath destPath : TfsPath} :
    Defined t (fun _ _ => True) (tfsFsMove fs origPath destPath access) m := by
  rw [TecnicoFs.tfsFsMove]
  dsimp only
  split
  · exact ret _
  split
  · exact ret _
  refine bind (tfsFsLockAll (fun commonAncestor arr m₁ hheld hwritten => ?_) fun _ _ _ => ret _)
  dsimp only
  have hcommon : LockedChain.Written ⟨arr, _⟩ := hwritten
  have h₁ : HoldsAll t [commonAncestor] m₁ := holdsAll_nil.cons hheld
  split
  · -- one inode moved to itself: the last element is not unlocked but returned
    obtain ⟨inode, hget⟩ := hwritten _ (Nat.lt_succ_self _)
    have hinit : arr.Written (tfsPathComponentsLen (tfsPathCommonAncestor origPath
        destPath).ancestor + 1 - 1) := fun k hk => hwritten k (by omega)
    refine (unlockAll hinit).andThen fun _ m₂ => ?_
    rw [Nat.add_sub_cancel, LockedInodes.get_of_getElem? hget, pure_bind]
    exact ret _
  split
  · exact (tfsFsUnlockChain hcommon).andThen fun _ _ => ret _
  rename_i hdir
  split
  · exact tfsFsMoveRename h₁ List.mem_cons_self (not_not.mp hdir) hcommon
  have htrim : ∀ path, Trimmed isSlashOrSpace (tfsPathPopLast path).2.str :=
    trimmed_tfsPathPopLast_rest
  -- the two orders differ in which of the parents comes first
  split
  · refine bind (tfsFsMoveLockParents (htrim _) (htrim _) h₁ List.mem_cons_self hcommon
      (fun orig dest m₂ h₂ horig hdest => ?_) fun _ _ => ret _)
    exact tfsFsMoveEntry h₂ (by simp) (by simp) hcommon horig hdest
  · refine bind (tfsFsMoveLockParents (htrim _) (htrim _) h₁ List.mem_cons_self hcommon
      (fun dest orig m₂ h₂ hdest horig => ?_) fun _ _ => ret _)
    exact tfsFsMoveEntry h₂ (by simp) (by simp) hcommon horig hdest

end Move

theorem operation (c : Call) : Defined t (fun _ _ => True) (c.operation fs) m := by
  cases c with
  | create path type => exact tfsFsCreate.andThen fun _ _ => ret _
  | remove path => exact tfsFsRemove.andThen fun _ _ => ret _
  | find path access => exact tfsFsFind.andThen fun _ _ => ret _
  | move origPath destPath access => exact tfsFsMove.andThen fun _ _ => ret _

/-- The caller unlocks what is returned. -/
theorem prog (c : Call) : Defined t (fun _ _ => True) (c.prog fs) m := by
  refine (operation c).andThen fun reply m₁ => ?_
  split
  · exact tfsInodeTableUnlockInode.andThen fun _ _ => ret _
  · exact ret _

end Defined

/-! ## Accesses -/

/-- What the program is about to do with an array is in order: if it reads an element, that
one is there and was written, and if it writes one, that one is there. -/
structure InBounds {α : Type} (p : TfsProg α) : Prop where
  get : ∀ (arr : LockedInodes) (n : Nat) (k : TfsLockedInode → TfsProg α),
    p = arr.get n >>= k → ∃ inode, arr[n]? = some (some inode)
  put : ∀ (arr : LockedInodes) (n : Nat) (inode : TfsLockedInode) (k : LockedInodes → TfsProg α),
    p = arr.put n inode >>= k → n < arr.length

/-- Any other access is undefined, and a program that is not about to do what is undefined
is in bounds. -/
theorem inBounds_iff {α : Type} {p : TfsProg α} : InBounds p ↔ ∀ k, p ≠ .act .undefined k := by
  constructor
  · rintro h k rfl
    -- reading the first element of an array that has none
    obtain ⟨inode, hget⟩ := h.get [] 0 (fun _ => undefined) (congrArg _ (funext fun r => r.elim))
    cases hget
  · intro h
    refine ⟨fun arr n k hp => ?_, fun arr n inode k hp => ?_⟩
    · rw [LockedInodes.get] at hp
      split at hp
      · rename_i inode hget
        exact ⟨inode, hget⟩
      · exact absurd hp (h _)
    · by_contra hlt
      rw [LockedInodes.put, if_neg hlt] at hp
      exact h _ hp

variable {t : ι}

theorem Defined.inBounds {α : Type} {Q : α → Mem ι → Prop} {p q : TfsProg α} {m m' : Mem ι}
    (h : Defined t Q p m) (hreach : Reaches (machine ι) t (Mem.KeepsHeld t) p m q m') :
    InBounds q := by
  refine inBounds_iff.mpr fun k hq => ?_
  subst hq
  exact Safe.ok_of_reaches h hreach rfl

/-- **Lock arrays are never overrun, and never read where they were not written.**  From
every memory, with every path and every access, and whatever other threads do that leaves
alone what the call holds: wherever `tfs_fs_create`, `tfs_fs_remove`, `tfs_fs_find` and
`tfs_fs_move` get to, the element of an array that they read next was written in the same
call, and the one that they write next is inside of it. -/
theorem arrays_in_bounds (fs : TfsFs) (c : Call) {m m' : Mem ι} {p : TfsProg Reply}
    (h : Reaches (machine ι) t (Mem.KeepsHeld t) (c.operation fs) m p m') : InBounds p :=
  (Defined.operation c).inBounds h

/-- A search that has locked the root of a new file system. -/
theorem exists_arrays_in_bounds : ∃ (p : TfsProg Reply) (m m' : Mem Nat),
    m.node 0 = .dir tfsInodeDirNew ∧ m'.locks 0 = [(0, .shared)] ∧
    Reaches (machine Nat) 0 (Mem.KeepsHeld 0)
      ((Call.find ⟨0, cstr "/"⟩ .unique).operation ⟨⟨128⟩⟩) m p m' ∧ InBounds p := by
  let m : Mem Nat := (Mem.zero (fun _ => true) fun _ => []).setNode 0 (.dir tfsInodeDirNew)
  let p := (Call.find ⟨0, cstr "/"⟩ .unique).operation ⟨⟨128⟩⟩
  have hstart : Reaches (machine Nat) 0 (Mem.KeepsHeld 0) p m p m := .refl
  have hrange := Reaches.act hstart rfl
  have hlock : Reaches _ _ _ _ _ _ (m.setLocks 0 [(0, .shared)]) := Reaches.act hrange rfl
  exact ⟨_, m, _, rfl, rfl, hlock, arrays_in_bounds _ _ hlock⟩

end TecnicoFs
