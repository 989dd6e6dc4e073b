import TecnicoFs.Inode.Dir
import TecnicoFs.Interleaving.Program
import TecnicoFs.Interleaving.RwLock

/-!
# Inodes and the shared memory

`inode.c`, `rw_lock.c`, and the memory the threads of the file system share: the inode
table, the lock of each of its slots, and the files that listings are written to.

The actions of a thread are the lock operations, the reads and writes of an inode with
all of its directory entries, and the assertions.  An assertion that fails stops the
program for good, and so does anything the C standard leaves undefined, such as reading
an array element that was never written: neither of these actions is ever answered.
A blocking lock request is answered once the lock admits it.

The holders of a lock are labelled with the call that took it, `ι` in the model.  A lock
itself does not look at who its holders are.
-/

namespace TecnicoFs

open Interleaving

/-! ## Inodes -/

/-- Inode types. -/
inductive TfsInodeType where
  | none
  | file
  | dir
  deriving DecidableEq, Repr

/-- An inode: its type together with the data for that type.  The contents of a file are
never set. -/
inductive TfsInode where
  | none
  | file
  | dir (dir : TfsInodeDir)
  deriving DecidableEq, Repr

/-- The tag of an inode. -/
def TfsInode.type : TfsInode → TfsInodeType
  | .none => .none
  | .file => .file
  | .dir _ => .dir

/-- The inode that `tfs_inode_new` makes, and `tfs_inode_empty` leaves. -/
def tfsInodeEmpty : TfsInode := .none

/-- What `tfs_inode_init` sets an inode to. -/
def tfsInodeInit : TfsInodeType → TfsInode
  | .none => .none
  | .file => .file
  | .dir => .dir tfsInodeDirNew

@[simp] theorem type_tfsInodeInit (type : TfsInodeType) : (tfsInodeInit type).type = type := by
  cases type <;> rfl

theorem TfsInode.type_eq_none_iff {node : TfsInode} : node.type = .none ↔ node = .none := by
  cases node <;> simp [type]

theorem TfsInode.type_eq_dir_iff {node : TfsInode} : node.type = .dir ↔ ∃ d, node = .dir d := by
  cases node <;> simp [type]

/-- Access type of a lock. -/
abbrev TfsRwLockAccess := Access

/-- A locked inode.  The source also keeps a pointer to the data, which is that of slot
`idx`. -/
structure TfsLockedInode where
  idx : Nat
  type : TfsInodeType
  deriving DecidableEq, Repr

/-- An open stream: the name of the file and what was written so far. -/
structure TfsStream where
  name : List CChar
  written : List CChar
  deriving DecidableEq

/-! ## Memory -/

/-- What the threads share. -/
structure Mem (ι : Type) where
  /-- The slots of the inode table. -/
  node : Nat → TfsInode
  /-- The holders of the lock of each slot. -/
  locks : Nat → List (ι × TfsRwLockAccess)
  /-- The files that can be opened for writing. -/
  canOpen : List CChar → Bool
  /-- The contents of each file. -/
  file : List CChar → List CChar

/-- The assertions of the source, with the slot they speak of. -/
inductive AssertSite where
  /-- `tfs_inode_table_add`: the type is not the empty one. -/
  | addType
  /-- `tfs_inode_table_add`: an empty slot was found. -/
  | addFull
  | lockRange (idx : Nat)
  | lockLive (idx : Nat)
  | unlockRange (idx : Nat)
  | unlockLive (idx : Nat)
  | removeRange (idx : Nat)
  /-- `tfs_inode_dir_remove_entry_by_dir_idx`: the index is within the capacity. -/
  | removeEntry
  | printRange (idx : Nat)
  | printLive (idx : Nat)
  /-- `tfs_fs_new`: the first slot is the root. -/
  | newRoot
  /-- `tfs_fs_print`: the stream was closed. -/
  | close
  deriving DecidableEq

/-- The actions of a thread. -/
inductive Op where
  | lock (idx : Nat) (access : TfsRwLockAccess)
  | tryLock (idx : Nat) (access : TfsRwLockAccess)
  | unlock (idx : Nat)
  | read (idx : Nat)
  | write (idx : Nat) (node : TfsInode)
  | assert (site : AssertSite) (holds : Bool)
  | undefined
  | fopen (name : List CChar)
  | fclose (out : TfsStream)
  deriving DecidableEq

/-- The answers of the actions. -/
@[reducible] def Op.Resp : Op → Type
  | .lock .. => Unit
  | .tryLock .. => Bool
  | .unlock _ => Unit
  | .read _ => TfsInode
  | .write .. => Unit
  | .assert .. => Unit
  | .undefined => Empty
  | .fopen _ => Bool
  | .fclose _ => Bool

variable {ι : Type} [DecidableEq ι]

/-- The memory with other holders of one lock. -/
def Mem.setLocks (m : Mem ι) (idx : Nat) (h : List (ι × TfsRwLockAccess)) : Mem ι :=
  { m with locks := Function.update m.locks idx h }

/-- The memory with another inode in one slot. -/
def Mem.setNode (m : Mem ι) (idx : Nat) (node : TfsInode) : Mem ι :=
  { m with node := Function.update m.node idx node }

/-- The memory with other contents of one file. -/
def Mem.setFile (m : Mem ι) (name contents : List CChar) : Mem ι :=
  { m with file := Function.update m.file name contents }

section Mem

omit [DecidableEq ι]

variable {m : Mem ι} {i j : Nat} {l : List (ι × TfsRwLockAccess)} {node : TfsInode}

@[simp] theorem Mem.setLocks_self : (m.setLocks i l).locks i = l := Function.update_self ..

theorem Mem.setLocks_of_ne (h : j ≠ i) : (m.setLocks i l).locks j = m.locks j :=
  Function.update_of_ne h ..

@[simp] theorem Mem.setLocks_node : (m.setLocks i l).node = m.node := rfl

@[simp] theorem Mem.setNode_self : (m.setNode i node).node i = node := Function.update_self ..

theorem Mem.setNode_of_ne (h : j ≠ i) : (m.setNode i node).node j = m.node j :=
  Function.update_of_ne h ..

@[simp] theorem Mem.setNode_locks : (m.setNode i node).locks = m.locks := rfl

theorem Mem.mem_acquire {t u : ι} {a b : TfsRwLockAccess} :
    (u, b) ∈ (m.setLocks i ((t, a) :: m.locks i)).locks j ↔
      (u, b) ∈ m.locks j ∨ (j = i ∧ u = t ∧ b = a) := by
  by_cases hj : j = i
  · subst hj
    simp [or_comm]
  · simp [Mem.setLocks_of_ne hj, hj]

@[simp] theorem Mem.setFile_self (m : Mem ι) (name contents : List CChar) :
    (m.setFile name contents).file name = contents := Function.update_self ..

theorem Mem.setFile_of_ne (m : Mem ι) {name name' : List CChar} (h : name' ≠ name)
    (contents : List CChar) : (m.setFile name contents).file name' = m.file name' :=
  Function.update_of_ne h ..

end Mem

/-- The memory before anything runs: all slots are empty, and no lock is held. -/
def Mem.zero (canOpen : List CChar → Bool) (file : List CChar → List CChar) : Mem ι :=
  ⟨fun _ => .none, fun _ => [], canOpen, file⟩

/-- What the actions do.  Opening a file for writing truncates it; what a stream holds
gets into the file when it is closed, from the start of the file on. -/
def exec (t : ι) : (o : Op) → Mem ι → Option (o.Resp × Mem ι)
  | .lock idx access, m =>
      if RwLock.Admits (m.locks idx) access then
        some ((), m.setLocks idx ((t, access) :: m.locks idx))
      else none
  | .tryLock idx access, m =>
      if RwLock.Admits (m.locks idx) access then
        some (true, m.setLocks idx ((t, access) :: m.locks idx))
      else some (false, m)
  | .unlock idx, m =>
      -- unlocking a lock one does not hold is undefined
      if t ∈ (m.locks idx).map Prod.fst then
        some ((), m.setLocks idx (RwLock.release t (m.locks idx)))
      else none
  | .read idx, m => some (m.node idx, m)
  | .write idx node, m => some ((), m.setNode idx node)
  | .assert _ holds, m => if holds then some ((), m) else none
  | .undefined, _ => none
  | .fopen name, m =>
      if m.canOpen name then some (true, m.setFile name []) else some (false, m)
  | .fclose out, m =>
      some (true, m.setFile out.name (out.written ++ (m.file out.name).drop out.written.length))

/-- The machine that runs the file system. -/
def machine (ι : Type) [DecidableEq ι] : Machine Op Op.Resp ι (Mem ι) := ⟨exec⟩

theorem machine_exec (t : ι) (o : Op) (m : Mem ι) : (machine ι).exec t o m = exec t o m := rfl

section Exec

variable {t : ι} {m m' : Mem ι} {idx : Nat} {access : TfsRwLockAccess}

theorem exec_lock {r : (Op.lock idx access).Resp}
    (h : (machine ι).exec t (.lock idx access) m = some (r, m')) :
    RwLock.Admits (m.locks idx) access ∧ m' = m.setLocks idx ((t, access) :: m.locks idx) := by
  change exec t (.lock idx access) m = some (r, m') at h
  by_cases hadm : RwLock.Admits (m.locks idx) access
  · rw [exec, if_pos hadm] at h
    exact ⟨hadm, (Prod.mk.inj (Option.some.inj h)).2.symm⟩
  · rw [exec, if_neg hadm] at h
    cases h

theorem exec_lock_eq_none {u : ι} {b : TfsRwLockAccess} (hb : (u, b) ∈ m.locks idx)
    (hconflict : access.Conflict b) : (machine ι).exec t (.lock idx access) m = none :=
  if_neg (RwLock.not_admits_iff.mpr ⟨(u, b), hb, hconflict⟩)

theorem exec_tryLock {r : (Op.tryLock idx access).Resp}
    (h : (machine ι).exec t (.tryLock idx access) m = some (r, m')) :
    (r = true ∧ RwLock.Admits (m.locks idx) access ∧
      m' = m.setLocks idx ((t, access) :: m.locks idx)) ∨
    (r = false ∧ ¬RwLock.Admits (m.locks idx) access ∧ m' = m) := by
  change exec t (.tryLock idx access) m = some (r, m') at h
  by_cases hadm : RwLock.Admits (m.locks idx) access
  · rw [exec, if_pos hadm] at h
    obtain ⟨hr, hm⟩ := Prod.mk.inj (Option.some.inj h)
    exact Or.inl ⟨hr.symm, hadm, hm.symm⟩
  · rw [exec, if_neg hadm] at h
    obtain ⟨hr, hm⟩ := Prod.mk.inj (Option.some.inj h)
    exact Or.inr ⟨hr.symm, hadm, hm.symm⟩

theorem exec_unlock {r : (Op.unlock idx).Resp}
    (h : (machine ι).exec t (.unlock idx) m = some (r, m')) :
    m' = m.setLocks idx (RwLock.release t (m.locks idx)) := by
  change exec t (.unlock idx) m = some (r, m') at h
  rw [exec] at h
  split at h
  · exact (Prod.mk.inj (Option.some.inj h)).2.symm
  · cases h

theorem exec_read {r : (Op.read idx).Resp} (h : (machine ι).exec t (.read idx) m = some (r, m')) :
    r = m.node idx ∧ m' = m := by
  obtain ⟨hr, hm⟩ := Prod.mk.inj (Option.some.inj h)
  exact ⟨hr.symm, hm.symm⟩

theorem exec_write {node : TfsInode} {r : (Op.write idx node).Resp}
    (h : (machine ι).exec t (.write idx node) m = some (r, m')) :
    m' = m.setNode idx node :=
  (Prod.mk.inj (Option.some.inj h)).2.symm

theorem exec_assert {site : AssertSite} {holds : Bool}
    {r : (Op.assert site holds).Resp}
    (h : (machine ι).exec t (.assert site holds) m = some (r, m')) : holds = true ∧ m' = m := by
  change exec t (.assert site holds) m = some (r, m') at h
  rw [exec] at h
  split at h
  · rename_i hh
    exact ⟨hh, (Prod.mk.inj (Option.some.inj h)).2.symm⟩
  · cases h

theorem exec_fopen {name : List CChar} {r : (Op.fopen name).Resp}
    (h : (machine ι).exec t (.fopen name) m = some (r, m')) :
    (r = true ∧ m' = m.setFile name []) ∨ (r = false ∧ m' = m) := by
  change exec t (.fopen name) m = some (r, m') at h
  rw [exec] at h
  split at h
  · obtain ⟨hr, hm⟩ := Prod.mk.inj (Option.some.inj h)
    exact Or.inl ⟨hr.symm, hm.symm⟩
  · obtain ⟨hr, hm⟩ := Prod.mk.inj (Option.some.inj h)
    exact Or.inr ⟨hr.symm, hm.symm⟩

theorem exec_fclose {out : TfsStream} {r : (Op.fclose out).Resp}
    (h : (machine ι).exec t (.fclose out) m = some (r, m')) :
    r = true ∧ m' = m.setFile out.name
      (out.written ++ (m.file out.name).drop out.written.length) := by
  obtain ⟨hr, hm⟩ := Prod.mk.inj (Option.some.inj h)
  exact ⟨hr.symm, hm.symm⟩

/-- Only writing a slot changes one. -/
theorem exec_node {o : Op} {r : o.Resp} (h : (machine ι).exec t o m = some (r, m')) :
    m'.node = m.node ∨ ∃ i node, o = .write i node ∧ m' = m.setNode i node := by
  cases o with
  | lock => exact Or.inl (by rw [(exec_lock h).2]; rfl)
  | tryLock =>
    rcases exec_tryLock h with ⟨-, -, rfl⟩ | ⟨-, -, rfl⟩
    · exact Or.inl rfl
    · exact Or.inl rfl
  | unlock => exact Or.inl (by rw [exec_unlock h]; rfl)
  | read => exact Or.inl (by rw [(exec_read h).2])
  | write i node => exact Or.inr ⟨i, node, rfl, exec_write h⟩
  | assert => exact Or.inl (by rw [(exec_assert h).2])
  | undefined => exact r.elim
  | fopen =>
    rcases exec_fopen h with ⟨-, rfl⟩ | ⟨-, rfl⟩
    · exact Or.inl rfl
    · exact Or.inl rfl
  | fclose =>
    obtain ⟨-, rfl⟩ := exec_fclose h
    exact Or.inl rfl

/-- Only opening and closing a file changes one. -/
theorem exec_file {o : Op} {r : o.Resp} (h : (machine ι).exec t o m = some (r, m'))
    (hopen : ∀ name, o ≠ .fopen name) (hclose : ∀ out, o ≠ .fclose out) : m'.file = m.file := by
  cases o with
  | lock => rw [(exec_lock h).2]; rfl
  | tryLock =>
    rcases exec_tryLock h with ⟨-, -, rfl⟩ | ⟨-, -, rfl⟩
    · rfl
    · rfl
  | unlock => rw [exec_unlock h]; rfl
  | read => rw [(exec_read h).2]
  | write => rw [exec_write h]; rfl
  | assert => rw [(exec_assert h).2]
  | undefined => exact r.elim
  | fopen name => exact absurd rfl (hopen name)
  | fclose out => exact absurd rfl (hclose out)

end Exec

/-- A program of the file system. -/
abbrev TfsProg := Prog Op Op.Resp

namespace TfsProg

/-- `assert` -/
def assert (site : AssertSite) (holds : Bool) : TfsProg Unit := Prog.perform (Op.assert site holds)

/-- Undefined behaviour. -/
def undefined {α : Type} : TfsProg α := Prog.act Op.undefined fun r : Empty => r.elim

/-- The type and the data of a slot. -/
def read (idx : Nat) : TfsProg TfsInode := Prog.perform (Op.read idx)

def write (idx : Nat) (node : TfsInode) : TfsProg Unit := Prog.perform (Op.write idx node)

def fopen (name : List CChar) : TfsProg Bool := Prog.perform (Op.fopen name)

def fclose (out : TfsStream) : TfsProg Bool := Prog.perform (Op.fclose out)

end TfsProg

/-- `tfs_rw_lock_lock` of the lock of a slot. -/
def tfsRwLockLock (idx : Nat) (access : TfsRwLockAccess) : TfsProg Unit :=
  Prog.perform (Op.lock idx access)

/-- `tfs_rw_lock_try_lock` of the lock of a slot. -/
def tfsRwLockTryLock (idx : Nat) (access : TfsRwLockAccess) : TfsProg Bool :=
  Prog.perform (Op.tryLock idx access)

/-- `tfs_rw_lock_unlock` of the lock of a slot. -/
def tfsRwLockUnlock (idx : Nat) : TfsProg Unit := Prog.perform (Op.unlock idx)

end TecnicoFs
