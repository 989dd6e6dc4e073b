import TecnicoFs.Interleaving.Among
import TecnicoFs.Inode.Table

/-!
# Nothing undefined

A program is `Defined` when it never gets to undefined behaviour.  Nothing is asked of the
memory that it starts with, and of other threads only what a lock is for: what the thread
holds stays held, and a directory stays a directory.

The rules for the inode table and for directories are here.  What is taken for a directory
is one, because it was when it was locked, and no function writes anything but a directory
there while the lock is held.
-/

namespace TecnicoFs

open Interleaving TfsProg

variable {ι : Type}

/-! ## Among other threads -/

/-- What `t` holds stays held, and of its type. -/
structure Mem.KeepsHeld (t : ι) (m m' : Mem ι) : Prop where
  held : ∀ i a, (t, a) ∈ m.locks i → (t, a) ∈ m'.locks i
  type : ∀ i a, (t, a) ∈ m.locks i → (m'.node i).type = (m.node i).type

theorem Mem.KeepsHeld.refl (t : ι) (m : Mem ι) : m.KeepsHeld t m :=
  ⟨fun _ _ h => h, fun _ _ _ => rfl⟩

theorem Mem.KeepsHeld.trans {t : ι} {m₁ m₂ m₃ : Mem ι} (h : m₁.KeepsHeld t m₂)
    (h' : m₂.KeepsHeld t m₃) : m₁.KeepsHeld t m₃ where
  held i a hi := h'.held i a (h.held i a hi)
  type i a hi := (h'.type i a (h.held i a hi)).trans (h.type i a hi)

/-- `t` holds the inode, and it is of the type that it was locked with. -/
structure TfsLockedInode.HeldBy (inode : TfsLockedInode) (t : ι) (m : Mem ι) : Prop where
  held : ∃ a, (t, a) ∈ m.locks inode.idx
  type : (m.node inode.idx).type = inode.type

/-- `t` holds all of the inodes. -/
def HoldsAll (t : ι) (held : List TfsLockedInode) (m : Mem ι) : Prop :=
  ∀ inode ∈ held, inode.HeldBy t m

section Held

variable {t : ι} {held : List TfsLockedInode} {inode : TfsLockedInode} {m m' : Mem ι}

theorem TfsLockedInode.HeldBy.later (h : inode.HeldBy t m) (hm : m.KeepsHeld t m') :
    inode.HeldBy t m' := by
  obtain ⟨a, ha⟩ := h.held
  exact ⟨⟨a, hm.held _ a ha⟩, (hm.type _ a ha).trans h.type⟩

theorem HoldsAll.later (h : HoldsAll t held m) (hm : m.KeepsHeld t m') : HoldsAll t held m' :=
  fun inode hmem => (h inode hmem).later hm

theorem holdsAll_nil : HoldsAll t [] m := by simp [HoldsAll]

theorem HoldsAll.mono {held' : List TfsLockedInode} (h : HoldsAll t held' m)
    (hsub : held ⊆ held') : HoldsAll t held m :=
  fun inode hmem => h inode (hsub hmem)

theorem HoldsAll.cons (h : HoldsAll t held m) (hi : inode.HeldBy t m) :
    HoldsAll t (inode :: held) m := by
  intro x hx
  rcases List.mem_cons.mp hx with rfl | hx
  · exact hi
  · exact h x hx

variable [DecidableEq ι]

/-- An action that neither unlocks the inode nor writes one of another type there. -/
theorem TfsLockedInode.HeldBy.exec {o : Op} {r : o.Resp} (h : inode.HeldBy t m)
    (he : (machine ι).exec t o m = some (r, m')) (hunlock : o ≠ .unlock inode.idx)
    (hwrite : ∀ node, o = .write inode.idx node → node.type = inode.type) :
    inode.HeldBy t m' := by
  obtain ⟨⟨a, ha⟩, htype⟩ := h
  cases o with
  | lock i b =>
    rw [(exec_lock he).2]
    exact ⟨⟨a, Mem.mem_acquire.mpr (Or.inl ha)⟩, htype⟩
  | tryLock i b =>
    rcases exec_tryLock he with ⟨-, -, rfl⟩ | ⟨-, -, rfl⟩
    · exact ⟨⟨a, Mem.mem_acquire.mpr (Or.inl ha)⟩, htype⟩
    · exact ⟨⟨a, ha⟩, htype⟩
  | unlock i =>
    rw [exec_unlock he]
    have hne : inode.idx ≠ i := fun heq => hunlock (heq ▸ rfl)
    exact ⟨⟨a, by rwa [Mem.setLocks_of_ne hne]⟩, htype⟩
  | read i =>
    rw [(exec_read he).2]
    exact ⟨⟨a, ha⟩, htype⟩
  | write i node =>
    rw [exec_write he]
    refine ⟨⟨a, ha⟩, ?_⟩
    by_cases hi : inode.idx = i
    · subst hi
      rw [Mem.setNode_self]
      exact hwrite node rfl
    · rwa [Mem.setNode_of_ne hi]
  | assert site holds =>
    rw [(exec_assert he).2]
    exact ⟨⟨a, ha⟩, htype⟩
  | undefined => exact r.elim
  | fopen name =>
    rcases exec_fopen he with ⟨-, rfl⟩ | ⟨-, rfl⟩
    · exact ⟨⟨a, ha⟩, htype⟩
    · exact ⟨⟨a, ha⟩, htype⟩
  | fclose out =>
    obtain ⟨-, rfl⟩ := exec_fclose he
    exact ⟨⟨a, ha⟩, htype⟩

end Held

/-! ## The judgement -/

variable [DecidableEq ι]

/-- **Nothing undefined.**  While others keep what it holds, thread `t` never gets to
undefined behaviour with the program, and it returns only in `Q`. -/
def Defined {α : Type} (t : ι) (Q : α → Mem ι → Prop) (p : TfsProg α) (m : Mem ι) : Prop :=
  Safe (machine ι)
    (.full (.among t (Mem.KeepsHeld t) (Mem.KeepsHeld.refl t) (fun _ _ _ => Mem.KeepsHeld.trans)
      (· ≠ .undefined)) t)
    (fun a w => Q a w.mem) p ⟨m, ()⟩

namespace Defined

variable {α β : Type} {t : ι} {Q Q' : α → Mem ι → Prop} {p : TfsProg α} {m : Mem ι}
  {held : List TfsLockedInode} {inode : TfsLockedInode}

theorem bind {f : α → TfsProg β} {R : β → Mem ι → Prop}
    (h : Defined t (fun a m => Defined t R (f a) m) p m) : Defined t R (p >>= f) m :=
  Safe.bind h

theorem mono (h : Defined t Q p m) (hQ : ∀ a m, Q a m → Q' a m) : Defined t Q' p m :=
  Safe.mono h fun a w _ => hQ a w.mem

/-- What comes next needs nothing of what was before. -/
theorem andThen {f : α → TfsProg β} {R : β → Mem ι → Prop} (h : Defined t Q p m)
    (hf : ∀ a m, Defined t R (f a) m) : Defined t R (p >>= f) m :=
  bind (h.mono fun a m' _ => hf a m')

theorem ret (a : α) : Defined t (fun _ _ => True) (pure a) m :=
  Safe.among_ret fun _ _ => trivial

theorem ret_of_held {a : α} (h : HoldsAll t held m) (hQ : ∀ m', HoldsAll t held m' → Q a m') :
    Defined t Q (pure a) m :=
  Safe.among_ret fun m' hm => hQ m' (h.later hm)

/-- An action that leaves alone what is held. -/
theorem act_of_held {o : Op} {k : o.Resp → TfsProg α} (h : HoldsAll t held m)
    (ho : o ≠ .undefined) (hunlock : ∀ x ∈ held, o ≠ .unlock x.idx)
    (hwrite : ∀ x ∈ held, ∀ node, o = .write x.idx node → node.type = x.type)
    (hk : ∀ m₁ r m₂, HoldsAll t held m₁ → (machine ι).exec t o m₁ = some (r, m₂) →
      HoldsAll t held m₂ → Defined t Q (k r) m₂) : Defined t Q (.act o k) m := by
  refine Safe.among_act ho fun m₁ r m₂ hm he => hk m₁ r m₂ (h.later hm) he fun x hx => ?_
  exact (h.later hm x hx).exec he (hunlock x hx) (hwrite x hx)

/-! ## Actions -/

section Action

variable {i : Nat} {a : TfsRwLockAccess} (h : HoldsAll t held m)

include h

theorem assert {Q : Unit → Mem ι → Prop} {site : AssertSite} {holds : Bool}
    (hQ : holds = true → ∀ m', HoldsAll t held m' → Q () m') :
    Defined t Q (TfsProg.assert site holds) m :=
  act_of_held h nofun (fun _ _ => nofun) (fun _ _ _ => nofun) fun _ _ _ _ he h₂ =>
    ret_of_held h₂ (hQ (exec_assert he).1)

theorem read {Q : TfsInode → Mem ι → Prop}
    (hQ : ∀ m₁, HoldsAll t held m₁ → ∀ m', HoldsAll t held m' → Q (m₁.node i) m') :
    Defined t Q (TfsProg.read i) m := by
  refine act_of_held h nofun (fun _ _ => nofun) (fun _ _ _ => nofun) fun m₁ r m₂ h₁ he h₂ => ?_
  rw [(exec_read he).1]
  exact ret_of_held h₂ (hQ m₁ h₁)

/-- A lock that is granted keeps the inode as it is then. -/
theorem lock {Q : Unit → Mem ι → Prop}
    (hQ : ∀ type m', HoldsAll t (⟨i, type⟩ :: held) m' → Q () m') :
    Defined t Q (tfsRwLockLock i a) m := by
  refine act_of_held h nofun (fun _ _ => nofun) (fun _ _ _ => nofun) fun m₁ r m₂ _ he h₂ => ?_
  have hi : (⟨i, (m₂.node i).type⟩ : TfsLockedInode).HeldBy t m₂ := by
    refine ⟨⟨a, ?_⟩, rfl⟩
    rw [(exec_lock he).2]
    exact Mem.mem_acquire.mpr (Or.inr ⟨rfl, rfl, rfl⟩)
  exact ret_of_held (h₂.cons hi) (hQ _)

/-- A lock that is tried for unique access is not one that is held already. -/
theorem tryLock {Q : Bool → Mem ι → Prop} (hfalse : ∀ m', HoldsAll t held m' → Q false m')
    (htrue : (∀ x ∈ held, x.idx ≠ i) → ∀ m', HoldsAll t held m' → Q true m') :
    Defined t Q (tfsRwLockTryLock i .unique) m := by
  refine act_of_held h nofun (fun _ _ => nofun) (fun _ _ _ => nofun) fun m₁ r m₂ h₁ he h₂ => ?_
  rcases exec_tryLock he with ⟨rfl, hadmits, -⟩ | ⟨rfl, -, -⟩
  · refine ret_of_held h₂ (htrue fun x hx heq => ?_)
    obtain ⟨b, hb⟩ := (h₁ x hx).held
    rw [heq, show m₁.locks i = [] from hadmits] at hb
    cases hb
  · exact ret_of_held h₂ hfalse

theorem unlock {Q : Unit → Mem ι → Prop} (hi : ∀ x ∈ held, x.idx ≠ i)
    (hQ : ∀ m', HoldsAll t held m' → Q () m') : Defined t Q (tfsRwLockUnlock i) m :=
  act_of_held h nofun (fun x hx heq => hi x hx (Op.unlock.inj heq).symm) (fun _ _ _ => nofun)
    fun _ _ _ _ _ h₂ => ret_of_held h₂ hQ

theorem write {Q : Unit → Mem ι → Prop} {node : TfsInode}
    (hnode : ∀ x ∈ held, x.idx = i → node.type = x.type)
    (hQ : ∀ m', HoldsAll t held m' → Q () m') : Defined t Q (TfsProg.write i node) m := by
  refine act_of_held h nofun (fun _ _ => nofun) (fun x hx node' heq => ?_)
    fun _ _ _ _ _ h₂ => ret_of_held h₂ hQ
  obtain ⟨hi, rfl⟩ := Op.write.inj heq
  exact hnode x hx hi.symm

end Action

/-! ## The inode table -/

section Table

variable {i : Nat} {a : TfsRwLockAccess} {table : TfsInodeTable}

theorem tfsInodeTableLock {Q : TfsLockedInode → Mem ι → Prop} (h : HoldsAll t held m)
    (hQ : ∀ inode m', HoldsAll t (inode :: held) m' → Q inode m') :
    Defined t Q (tfsInodeTableLock table i a) m := by
  refine bind (assert h fun _ m₁ h₁ => bind (lock h₁ fun type m₂ h₂ => ?_))
  refine bind (read h₂ fun _ _ m₃ h₃ => bind (assert h₃ fun _ m₄ h₄ => ?_))
  refine bind (read h₄ fun m₅ h₅ m₆ h₆ => ret_of_held h₆ fun m₇ h₇ => hQ _ m₇ ?_)
  rwa [(h₅ _ List.mem_cons_self).type]

theorem tfsInodeTableUnlockInode :
    Defined t (fun _ _ => True) (tfsInodeTableUnlockInode table i) m := by
  refine bind (assert holdsAll_nil fun _ m₁ h₁ => bind (read h₁ fun _ _ m₂ h₂ => ?_))
  exact bind (assert h₂ fun _ m₃ h₃ => unlock h₃ (by simp) fun _ _ => trivial)

theorem tfsInodeTableRemoveInode :
    Defined t (fun _ _ => True) (tfsInodeTableRemoveInode table i) m := by
  refine bind (assert holdsAll_nil fun _ m₁ h₁ => bind (write h₁ (by simp) fun m₂ h₂ => ?_))
  exact unlock h₂ (by simp) fun _ _ => trivial

/-- The search for an empty slot finds none that is held. -/
theorem tfsInodeTableAdd_loop {Q : Option Nat → Mem ι → Prop} {k n : Nat}
    (h : HoldsAll t held m)
    (hQ : ∀ found, (∀ j ∈ found, ∀ x ∈ held, x.idx ≠ j) → ∀ m', HoldsAll t held m' →
      Q found m') :
    Defined t Q (tfsInodeTableAdd.loop k n) m := by
  induction k generalizing n m with
  | zero => exact ret_of_held h (hQ none (by simp))
  | succ k ih =>
    refine bind (tryLock h (fun m₁ h₁ => ih h₁) fun hn m₁ h₁ => ?_)
    refine bind (read h₁ fun m₂ _ m₃ h₃ => ?_)
    split
    · exact ret_of_held h₃ (hQ (some n) (by simpa using hn))
    · exact bind (unlock h₃ hn fun m₄ h₄ => ih h₄)

theorem tfsInodeTableAdd {Q : Nat → Mem ι → Prop} {type : TfsInodeType} (h : HoldsAll t held m)
    (hQ : ∀ idx m', HoldsAll t held m' → Q idx m') :
    Defined t Q (tfsInodeTableAdd table type) m := by
  refine bind (assert h fun _ m₁ h₁ => bind (tfsInodeTableAdd_loop h₁ fun found hfound m₂ h₂ => ?_))
  refine bind (assert h₂ fun hsome m₃ h₃ => ?_)
  obtain ⟨idx, rfl⟩ := Option.isSome_iff_exists.mp hsome
  have hidx : ∀ x ∈ held, ∀ node : TfsInode, x.idx = idx → node.type = x.type :=
    fun x hx _ heq => absurd heq (hfound idx rfl x hx)
  refine bind (write h₃ (fun x hx => hidx x hx _) fun m₄ h₄ => ?_)
  exact bind (write h₄ (fun x hx => hidx x hx _) fun m₅ h₅ => ret_of_held h₅ (hQ idx))

end Table

/-! ## Directories -/

section Dir

variable (h : HoldsAll t held m) (hmem : inode ∈ held) (hdir : inode.type = .dir)

include h hmem hdir

/-- What is behind an inode that is held as a directory is one. -/
theorem dir {Q : TfsInodeDir → Mem ι → Prop} (hQ : ∀ d m', HoldsAll t held m' → Q d m') :
    Defined t Q inode.dir m := by
  refine bind (read h fun m₁ h₁ m₂ h₂ => ?_)
  obtain ⟨d, hd⟩ := TfsInode.type_eq_dir_iff.mp ((h₁ inode hmem).type.trans hdir)
  rw [hd]
  exact ret_of_held h₂ (hQ d)

theorem searchByName {Q : Option (Nat × Nat) → Mem ι → Prop} {name : List CChar}
    (hQ : ∀ found m', HoldsAll t held m' → Q found m') :
    Defined t Q (inode.searchByName name) m :=
  bind (dir h hmem hdir fun _ _ h₁ => ret_of_held h₁ (hQ _))

/-- Writing a directory where one is. -/
theorem writeDir {Q : Unit → Mem ι → Prop} {d : TfsInodeDir}
    (hQ : ∀ m', HoldsAll t held m' → Q () m') :
    Defined t Q (TfsProg.write inode.idx (.dir d)) m := by
  refine write h (fun x hx hidx => ?_) hQ
  rw [← (h x hx).type, hidx, (h inode hmem).type, hdir]
  rfl

theorem addEntry {Q : Except TfsInodeDirAddEntryError Unit → Mem ι → Prop} {idx : Nat}
    {name : List CChar} (hQ : ∀ result m', HoldsAll t held m' → Q result m') :
    Defined t Q (inode.addEntry idx name) m := by
  refine bind (dir h hmem hdir fun d m₁ h₁ => ?_)
  cases tfsInodeDirAddEntry d idx name with
  | error err => exact ret_of_held h₁ (hQ _)
  | ok d' => exact bind (writeDir h₁ hmem hdir fun m₂ h₂ => ret_of_held h₂ (hQ _))

theorem rename {Q : Except TfsInodeDirRenameError Unit → Mem ι → Prop} {idx : Nat}
    {name : List CChar} (hQ : ∀ result m', HoldsAll t held m' → Q result m') :
    Defined t Q (inode.rename idx name) m := by
  refine bind (dir h hmem hdir fun d m₁ h₁ => ?_)
  cases tfsInodeDirRename d idx name with
  | error err => exact ret_of_held h₁ (hQ _)
  | ok d' => exact bind (writeDir h₁ hmem hdir fun m₂ h₂ => ret_of_held h₂ (hQ _))

theorem removeEntryByDirIdx {Q : Unit → Mem ι → Prop} {dirIdx : Nat}
    (hQ : ∀ m', HoldsAll t held m' → Q () m') :
    Defined t Q (inode.removeEntryByDirIdx dirIdx) m := by
  refine bind (dir h hmem hdir fun d m₁ h₁ => bind (assert h₁ fun _ m₂ h₂ => ?_))
  exact writeDir h₂ hmem hdir hQ

end Dir

end Defined

end TecnicoFs
