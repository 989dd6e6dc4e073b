import TecnicoFs.Sequential.Locks

/-!
# The access of what is returned

The inode that an operation returns is the one that it locked last, and it is locked for the
access of that request: a lock is granted next to holds for the same access only, and what
follows the last request takes no lock.  This is a matter of partial correctness alone, in
every memory.

A search asks for its own access last, and so does a move between two directories.  But
the root is the last inode on a path with no components, and `tfs_fs_lock_all` asks for
shared access to it unless the path is empty.
-/

namespace TecnicoFs

open Interleaving TfsProg Text

variable {ι : Type} [DecidableEq ι]

/-! ## Programs that take no lock -/

/-- All holds of the slot are for the access. -/
def Mem.HeldFor (m : Mem ι) (i : Nat) (a : TfsRwLockAccess) : Prop := ∀ x ∈ m.locks i, x.2 = a

/-- The action can take a lock. -/
def Op.Takes : Op → Bool
  | .lock .. | .tryLock .. => true
  | _ => false

/-- Run alone, the program takes no lock. -/
def TakesNone {α : Type} (t : ι) (p : TfsProg α) : Prop :=
  ∀ m : Mem ι, p.Post (machine ι) t (fun _ m' => ∀ i, m'.locks i ⊆ m.locks i) m

namespace TakesNone

variable {α β : Type} {t : ι} {p : TfsProg α}

theorem pure (a : α) : TakesNone t (Pure.pure a : TfsProg α) :=
  fun _ => Prog.Post.ret fun _ _ h => h

theorem bind {f : α → TfsProg β} (h : TakesNone t p) (hf : ∀ a, TakesNone t (f a)) :
    TakesNone t (p >>= f) :=
  fun m => Prog.Post.bind ((h m).mono fun a m₁ h₁ =>
    (hf a m₁).mono fun _ _ h₂ i _ hx => h₁ i (h₂ i hx))

theorem act {o : Op} {k : o.Resp → TfsProg α} (ho : o.Takes = false)
    (h : ∀ r, TakesNone t (k r)) : TakesNone t (.act o k) := by
  refine fun m => Prog.Post.act fun r m₁ he => (h r m₁).mono fun _ m' h' i x hx => ?_
  have hx := h' i hx
  cases o with
  | lock => cases ho
  | tryLock => cases ho
  | unlock idx =>
    rw [exec_unlock he] at hx
    by_cases hi : i = idx
    · subst hi
      rw [Mem.setLocks_self] at hx
      exact RwLock.release_subset hx
    · rwa [Mem.setLocks_of_ne hi] at hx
  | read => rwa [(exec_read he).2] at hx
  | write => rwa [exec_write he] at hx
  | assert => rwa [(exec_assert he).2] at hx
  | undefined => exact r.elim
  | fopen =>
    rcases exec_fopen he with ⟨-, rfl⟩ | ⟨-, rfl⟩
    · exact hx
    · exact hx
  | fclose =>
    obtain ⟨-, rfl⟩ := exec_fclose he
    exact hx

theorem undefined : TakesNone t (TfsProg.undefined : TfsProg α) :=
  fun _ => Prog.Post.act fun r => r.elim

theorem perform {o : Op} (ho : o.Takes = false) :
    TakesNone t (Prog.perform o : TfsProg o.Resp) :=
  act ho fun _ => pure _

theorem dir (inode : TfsLockedInode) : TakesNone t inode.dir := by
  refine (perform rfl).bind fun node => ?_
  cases node with
  | none => exact undefined
  | file => exact undefined
  | dir d => exact pure d

theorem addEntry (inode : TfsLockedInode) (idx : Nat) (name : List CChar) :
    TakesNone t (inode.addEntry idx name) := by
  refine (dir inode).bind fun d => ?_
  cases tfsInodeDirAddEntry d idx name with
  | error err => exact pure _
  | ok d' => exact (perform rfl).bind fun _ => pure _

theorem removeEntryByDirIdx (inode : TfsLockedInode) (dirIdx : Nat) :
    TakesNone t (inode.removeEntryByDirIdx dirIdx) :=
  (dir inode).bind fun _ => (perform rfl).bind fun _ => perform rfl

theorem unlockInodes (fs : TfsFs) (lockedInodes : LockedInodes) (n len : Nat) :
    TakesNone t (tfsFsUnlockInodes fs lockedInodes n len) := by
  have hget : ∀ n, TakesNone t (lockedInodes.get n) := by
    intro n
    rw [LockedInodes.get]
    split
    · exact pure _
    · exact undefined
  induction len generalizing n with
  | zero => exact pure ()
  | succ len ih =>
    refine (hget n).bind fun inode => bind ?_ fun _ => ih (n + 1)
    exact (perform rfl).bind fun _ => (perform rfl).bind fun _ =>
      (perform rfl).bind fun _ => perform rfl

theorem moveUnlock (fs : TfsFs) (common orig dest : LockedChain) :
    TakesNone t (tfsFsMoveUnlock fs common orig dest) :=
  (unlockInodes fs _ _ _).bind fun _ => (unlockInodes fs _ _ _).bind fun _ =>
    unlockInodes fs _ _ _

/-- What is held for one access stays so. -/
theorem heldFor {R : α → Mem ι → Prop} (h : TakesNone t p) {m : Mem ι} {i : Nat}
    {a : TfsRwLockAccess} (hm : m.HeldFor i a) (hR : ∀ b m', m'.HeldFor i a → R b m') :
    p.Post (machine ι) t R m :=
  (h m).mono fun b m' h' => hR b m' fun x hx => hm x (h' i hx)

end TakesNone

/-! ## The last lock -/

section Held

variable {t : ι} {fs : TfsFs} {p : TfsPath} {access : TfsRwLockAccess}

omit [DecidableEq ι] in
/-- A lock is granted next to holds for the same access only. -/
theorem heldFor_acquire {m : Mem ι} {i : Nat} {a : TfsRwLockAccess}
    (h : RwLock.Admits (m.locks i) a) : (m.setLocks i ((t, a) :: m.locks i)).HeldFor i a := by
  intro x hx
  rw [Mem.setLocks_self] at hx
  rcases List.mem_cons.mp hx with rfl | hmem
  · rfl
  · cases a with
    | shared => exact h x hmem
    | unique =>
      rw [show m.locks i = [] from h] at hmem
      cases hmem

theorem post_tfsInodeTableLock (table : TfsInodeTable) (i : Nat) (a : TfsRwLockAccess) (m : Mem ι) :
    (tfsInodeTableLock table i a).Post (machine ι) t (fun inode m' => inode.idx = i ∧
      m'.HeldFor i a) m := by
  refine Prog.Post.bind (Prog.Post.act fun _ m₁ he₁ => Prog.Post.ret ?_)
  refine Prog.Post.bind (Prog.Post.act fun _ m₂ he₂ => Prog.Post.ret ?_)
  have hheld : m₂.HeldFor i a := (exec_lock he₂).2 ▸ heldFor_acquire (exec_lock he₂).1
  have hread : TakesNone t (TfsProg.read i) := .perform rfl
  refine Prog.Post.bind (hread.heldFor hheld fun node m₃ h₃ => ?_)
  have hassert : TakesNone t (TfsProg.assert (.lockLive i) (node.type ≠ .none)) := .perform rfl
  refine Prog.Post.bind (hassert.heldFor h₃ fun _ m₄ h₄ => ?_)
  exact Prog.Post.bind (hread.heldFor h₄ fun _ _ h₅ => Prog.Post.ret ⟨rfl, h₅⟩)

/-- **The loop along a path** returns the inode that it locked last. -/
theorem post_tfsFsLockAllFrom_loop {start n : Nat} {path cur : TfsPath} {inode : TfsLockedInode}
    {lockedInodes : LockedInodes} {cs : List (List CChar)} {a : TfsRwLockAccess} {m : Mem ι}
    (ht : Trimmed isSlashOrSpace cur.str) (hcs : comps cur.str = cs)
    (ha : cs ≠ [] → a = access) (hheld : cs = [] → m.HeldFor inode.idx a)
    (hlast : ∀ last last', start + n = last + 1 → lockedInodes[last]? = some (some last') →
      last' = inode) :
    (tfsFsLockAllFrom.loop fs path start access cur inode lockedInodes n).Post (machine ι) t
      (fun x m' => ∀ inode', x.1 = .ok inode' → m'.HeldFor inode'.idx a) m := by
  induction cs generalizing cur inode lockedInodes n m with
  | nil =>
    have hzero := (len_eq_zero_iff_of_trimmed ht).mpr hcs
    rw [tfsFsLockAllFrom.loop, dif_neg (not_not.mpr hzero)]
    split
    · exact Prog.Post.act fun r => r.elim
    · rename_i last hlen
      rw [LockedInodes.get]
      split
      · rename_i inode' hget
        obtain rfl := hlast last inode' hlen hget
        refine Prog.Post.ret fun inode'' heq => ?_
        obtain rfl := Except.ok.inj heq
        exact hheld rfl
      · exact Prog.Post.act fun r => r.elim
  | cons c cs ih =>
    have hnonzero := len_ne_zero_of_cons hcs
    obtain ⟨-, hrest⟩ := tfsPathPopFirst_of_cons hcs
    obtain rfl := ha (List.cons_ne_nil c cs)
    rw [tfsFsLockAllFrom.loop, dif_pos hnonzero]
    dsimp only
    split
    · exact Prog.Post.bind fun _ m₁ _ => Prog.Post.ret (by simp)
    refine Prog.Post.bind fun found m₁ _ => ?_
    cases found with
    | none => exact Prog.Post.bind fun _ m₂ _ => Prog.Post.ret (by simp)
    | some x =>
      refine Prog.Post.bind ((post_tfsInodeTableLock _ _ _ m₁).mono fun child m₂ hchild => ?_)
      rw [LockedInodes.put]
      split
      · rename_i hlt
        refine ih (trimmed_tfsPathPopFirst_rest cur) hrest (fun _ => rfl) (fun hnil => ?_) ?_
        · have hzero := (len_eq_zero_iff_of_trimmed (trimmed_tfsPathPopFirst_rest cur)).mpr
            (hrest.trans hnil)
          rw [if_pos hzero] at hchild
          exact hchild.1 ▸ hchild.2
        · intro last last' hlen hget
          obtain rfl : last = start + n := by omega
          rw [List.getElem?_set_self hlt] at hget
          exact (Option.some.inj (Option.some.inj hget)).symm
      · exact Prog.Post.act fun r => r.elim

/-- The access for which the last inode along a path is locked. -/
def TfsPath.lockedFor (path : TfsPath) (access : TfsRwLockAccess) : TfsRwLockAccess :=
  if path.len ≠ 0 ∧ comps path.str = [] then .shared else access

theorem post_tfsFsLockAll (path : TfsPath) (lockedInodes : LockedInodes) (m : Mem ι) :
    (tfsFsLockAll fs path lockedInodes access).Post (machine ι) t
      (fun x m' => ∀ inode, x.1 = .ok inode → m'.HeldFor inode.idx (path.lockedFor access)) m := by
  refine Prog.Post.bind ((post_tfsInodeTableLock _ _ _ m).mono fun root m₁ hroot => ?_)
  rw [LockedInodes.put]
  split
  swap
  · exact Prog.Post.act fun r => r.elim
  rename_i hlt
  have hloop : (tfsFsLockAllFrom fs path root (lockedInodes.set 0 (some root)) 1 access).Post
      (machine ι) t (fun x m' => ∀ inode, x.1 = .ok inode →
        m'.HeldFor inode.idx (path.lockedFor access)) m₁ := by
    refine post_tfsFsLockAllFrom_loop (trimmed_tfsPathTrim path) (comps_tfsPathTrim path)
      (fun hne => if_neg fun h => hne h.2) (fun hnil => ?_) fun last last' hlen hget => ?_
    · have hlock : path.lockedFor access = if path.len = 0 then access else .shared := by
        by_cases hzero : path.len = 0
        · rw [if_pos hzero, TfsPath.lockedFor, if_neg fun h => h.1 hzero]
        · rw [if_neg hzero, TfsPath.lockedFor, if_pos ⟨hzero, hnil⟩]
      rw [hlock]
      exact hroot.1 ▸ hroot.2
    · obtain rfl : last = 0 := by omega
      rw [List.getElem?_set_self hlt] at hget
      exact (Option.some.inj (Option.some.inj hget)).symm
  refine Prog.Post.bind (Prog.Post.ret (Prog.Post.bind (hloop.mono fun x m₂ hx => ?_)))
  obtain ⟨result, arr⟩ := x
  cases result with
  | error err => exact Prog.Post.bind fun _ _ _ => Prog.Post.ret (by simp)
  | ok inode => exact Prog.Post.ret hx

/-- **A search** leaves the inode that it found locked for that access. -/
theorem post_tfsFsFind (path : TfsPath) (m : Mem ι) :
    (tfsFsFind fs path access).Post (machine ι) t
      (fun result m' => ∀ inode, result = .ok inode →
        m'.HeldFor inode.idx (path.lockedFor access)) m := by
  refine Prog.Post.bind ((post_tfsFsLockAll path _ m).mono fun x m₁ hx => ?_)
  obtain ⟨result, arr⟩ := x
  cases result with
  | error err => exact Prog.Post.ret (by simp)
  | ok inode =>
    refine Prog.Post.bind ((TakesNone.unlockInodes fs _ _ _).heldFor (hx inode rfl)
      fun _ m₂ h₂ => Prog.Post.ret ?_)
    rintro _ ⟨⟩
    exact h₂

/-- The last part of a move leaves the inode that it moved locked as asked. -/
theorem post_tfsFsMoveEntry (common orig dest : LockedChain)
    (origParent destParent : TfsLockedInode) (origFilename destFilename : TfsPath) (m : Mem ι) :
    (tfsFsMoveEntry fs common origParent orig destParent dest origFilename destFilename
      access).Post (machine ι) t
      (fun result m' => ∀ inode, result = .ok inode → m'.HeldFor inode.idx access) m := by
  have herror : ∀ (err : TfsFsMoveError) (m₁ : Mem ι),
      (tfsFsMoveUnlock fs common orig dest >>= fun _ => pure (.error err)).Post (machine ι) t
        (fun (result : Except TfsFsMoveError TfsLockedInode) m' => ∀ inode, result = .ok inode →
          m'.HeldFor inode.idx access) m₁ :=
    fun _ _ => Prog.Post.bind fun _ _ _ => Prog.Post.ret (by simp)
  rw [tfsFsMoveEntry]
  split
  · exact herror _ m
  split
  · exact herror _ m
  refine Prog.Post.bind fun found m₁ _ => ?_
  cases found with
  | none => exact herror _ m₁
  | some x =>
    refine Prog.Post.bind ((post_tfsInodeTableLock _ _ _ m₁).mono fun inode m₂ hinode => ?_)
    refine Prog.Post.bind ((TakesNone.addEntry destParent _ _).heldFor hinode.2
      fun added m₃ h₃ => ?_)
    cases added with
    | error err => exact herror _ m₃
    | ok u =>
      refine Prog.Post.bind ((TakesNone.removeEntryByDirIdx origParent _).heldFor h₃
        fun _ m₄ h₄ => ?_)
      refine Prog.Post.bind ((TakesNone.moveUnlock fs common orig dest).heldFor h₄
        fun _ m₅ h₅ => Prog.Post.ret ?_)
      rintro _ ⟨⟩
      exact hinode.1 ▸ h₅

/-- **A move between two directories** leaves the inode that it moved locked as asked. -/
theorem post_tfsFsMove {origPath destPath : TfsPath} (hn : NulFree origPath.str)
    (hparents : ¬((moveSplit origPath destPath).origParent.len = 0 ∧
      (moveSplit origPath destPath).destParent.len = 0)) (m : Mem ι) :
    (tfsFsMove fs origPath destPath access).Post (machine ι) t
      (fun result m' => ∀ inode, result = .ok inode → m'.HeldFor inode.idx access) m := by
  have hrest : ¬((moveSplit origPath destPath).rhsRest.len = 0 ∧
      (moveSplit origPath destPath).lhsRest.len = 0) :=
    fun h => hparents ((MoveSplit.moveSplit_cuts hn destPath).parents_of_rest h)
  rw [tfsFsMove]
  dsimp only
  split
  · exact Prog.Post.ret (by simp)
  split
  · exact Prog.Post.ret (by simp)
  refine Prog.Post.bind fun x m₁ _ => ?_
  obtain ⟨result, arr⟩ := x
  cases result with
  | error err => exact Prog.Post.ret (by simp)
  | ok commonAncestor =>
    dsimp only
    refine (if_neg hrest).symm ▸ ?_
    split
    · exact Prog.Post.bind fun _ _ _ => Prog.Post.ret (by simp)
    refine (if_neg hparents).symm ▸ ?_
    split
    · refine Prog.Post.bind fun locked m₂ _ => ?_
      cases locked with
      | error err => exact Prog.Post.ret (by simp)
      | ok y => exact post_tfsFsMoveEntry _ _ _ _ _ _ _ m₂
    · refine Prog.Post.bind fun locked m₂ _ => ?_
      cases locked with
      | error err => exact Prog.Post.ret (by simp)
      | ok y => exact post_tfsFsMoveEntry _ _ _ _ _ _ _ m₂

end Held

end TecnicoFs
