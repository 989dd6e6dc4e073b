import TecnicoFs.Inode.Table
import TecnicoFs.Path

/-!
# The file system: create, remove, find and print

`fs.c`, as programs.  A call locks the slots along a path from the root down, shared
but for the last one, and remembers them in an array that the caller sized by the number
of components.  The arrays are modelled with the elements that were never written, so
that a read outside of what was written is stuck.
-/

namespace TecnicoFs

open Interleaving TfsProg

/-- Root directory index. -/
def tfsFsRootIdx : Nat := 0

/-- The file system. -/
structure TfsFs where
  inodeTable : TfsInodeTable
  deriving DecidableEq, Repr

/-! ## Arrays of locked inodes -/

/-- A local array of locked inodes; `none` is an element that was never written. -/
abbrev LockedInodes := List (Option TfsLockedInode)

/-- `TfsLockedInode lockedInodes[len];` -/
def LockedInodes.new (len : Nat) : LockedInodes := List.replicate len none

/-- `lockedInodes[n]` -/
def LockedInodes.get (lockedInodes : LockedInodes) (n : Nat) : TfsProg TfsLockedInode :=
  match lockedInodes[n]? with
  | some (some inode) => pure inode
  | _ => undefined

/-- `lockedInodes[n] = inode;` -/
def LockedInodes.put (lockedInodes : LockedInodes) (n : Nat) (inode : TfsLockedInode) :
    TfsProg LockedInodes :=
  if n < lockedInodes.length then pure (lockedInodes.set n (some inode)) else undefined

theorem LockedInodes.get_of_getElem? {lockedInodes : LockedInodes} {n : Nat}
    {inode : TfsLockedInode} (h : lockedInodes[n]? = some (some inode)) :
    lockedInodes.get n = pure inode := by
  rw [LockedInodes.get, h]

theorem LockedInodes.put_of_lt {lockedInodes : LockedInodes} {n : Nat}
    (h : n < lockedInodes.length) (inode : TfsLockedInode) :
    lockedInodes.put n inode = pure (lockedInodes.set n (some inode)) :=
  if_pos h

/-- Unlocks `len` inodes of the array, from position `n` on. -/
def tfsFsUnlockInodes (self : TfsFs) (lockedInodes : LockedInodes) : Nat → Nat → TfsProg Unit
  | _, 0 => pure ()
  | n, len + 1 => do
      let inode ← lockedInodes.get n
      tfsInodeTableUnlockInode self.inodeTable inode.idx
      tfsFsUnlockInodes self lockedInodes (n + 1) len

/-! ## Results -/

inductive TfsFsFindErrorKind where
  | parentsNotDir
  | nameNotFound
  deriving DecidableEq, Repr

/-- Error of `tfs_fs_find`; both kinds carry a path. -/
structure TfsFsFindError where
  kind : TfsFsFindErrorKind
  path : TfsPath
  deriving DecidableEq, Repr

/-- Error of `tfs_fs_create`. -/
inductive TfsFsCreateError where
  | inexistentParentDir (err : TfsFsFindError)
  | parentNotDir
  | addEntry (err : TfsInodeDirAddEntryError)
  deriving DecidableEq, Repr

/-- Error of `tfs_fs_remove`. -/
inductive TfsFsRemoveError where
  | inexistentParentDir (err : TfsFsFindError)
  | parentNotDir
  | nameNotFound
  | removeNonEmptyDir
  deriving DecidableEq, Repr

/-- Error of `tfs_fs_print`. -/
inductive TfsFsPrintError where
  | create
  deriving DecidableEq, Repr

/-! ## Locking along a path -/

/-- Locks all inodes along a path, starting from a locked inode.  The inodes found are
stored in the array from position `start` on. -/
def tfsFsLockAllFrom (self : TfsFs) (path : TfsPath) (startInode : TfsLockedInode)
    (lockedInodes : LockedInodes) (start : Nat) (access : TfsRwLockAccess) :
    TfsProg (Except TfsFsFindError TfsLockedInode × LockedInodes) :=
  loop (tfsPathTrim path) startInode lockedInodes 0
where
  loop (curPath : TfsPath) (curInode : TfsLockedInode) (lockedInodes : LockedInodes)
      (lockedInodesLen : Nat) :
      TfsProg (Except TfsFsFindError TfsLockedInode × LockedInodes) :=
    if _h : curPath.len ≠ 0 then
      let curDir := (tfsPathPopFirst curPath).1
      let curPath' := (tfsPathPopFirst curPath).2
      if curInode.type ≠ .dir then do
        tfsFsUnlockInodes self lockedInodes start lockedInodesLen
        let badDirPath := ⟨path.chars, path.str.take (curDir.chars - path.chars)⟩
        pure (.error ⟨.parentsNotDir, badDirPath⟩, lockedInodes)
      else do
        match ← curInode.searchByName curDir.str with
        | none => do
            tfsFsUnlockInodes self lockedInodes start lockedInodesLen
            let badDirPath :=
              ⟨path.chars, path.str.take (curDir.chars - path.chars + curDir.len)⟩
            pure (.error ⟨.nameNotFound, badDirPath⟩, lockedInodes)
        | some (childIdx, _) => do
            let curInode ← tfsInodeTableLock self.inodeTable childIdx
              (if curPath'.len = 0 then access else .shared)
            let lockedInodes ← lockedInodes.put (start + lockedInodesLen) curInode
            loop curPath' curInode lockedInodes (lockedInodesLen + 1)
    else
      match start + lockedInodesLen with
      | 0 => undefined
      | last + 1 => do
          let inode ← lockedInodes.get last
          pure (.ok inode, lockedInodes)
  termination_by curPath.len
  decreasing_by exact tfsPathPopFirst_rest_len_lt _h

/-- Locks all inodes along a path, starting from the root. -/
def tfsFsLockAll (self : TfsFs) (path : TfsPath) (lockedInodes : LockedInodes)
    (access : TfsRwLockAccess) :
    TfsProg (Except TfsFsFindError TfsLockedInode × LockedInodes) := do
  let root ← tfsInodeTableLock self.inodeTable tfsFsRootIdx
    (if path.len = 0 then access else .shared)
  let lockedInodes ← lockedInodes.put 0 root
  let (result, lockedInodes) ← tfsFsLockAllFrom self path root lockedInodes 1 access
  match result with
  | .error err => do
      tfsInodeTableUnlockInode self.inodeTable tfsFsRootIdx
      pure (.error err, lockedInodes)
  | .ok inode => pure (.ok inode, lockedInodes)

/-! ## Operations -/

/-- Creates a new file system. -/
def tfsFsNew : TfsProg TfsFs := do
  let fs : TfsFs := ⟨tfsInodeTableNew 128⟩
  let idx ← tfsInodeTableAdd fs.inodeTable .dir
  assert .newRoot (idx = tfsFsRootIdx)
  tfsInodeTableUnlockInode fs.inodeTable idx
  pure fs

/-- Creates a new inode.  It is returned locked for unique access. -/
def tfsFsCreate (self : TfsFs) (path : TfsPath) (type : TfsInodeType) :
    TfsProg (Except TfsFsCreateError Nat) := do
  let entryName := (tfsPathPopLast path).1
  let parentPath := (tfsPathPopLast path).2
  let lockedInodesLen := tfsPathComponentsLen parentPath + 1
  let (findParentResult, lockedInodes) ←
    tfsFsLockAll self parentPath (.new lockedInodesLen) .unique
  match findParentResult with
  | .error err => pure (.error (.inexistentParentDir err))
  | .ok parent =>
      if parent.type ≠ .dir then do
        tfsFsUnlockInodes self lockedInodes 0 lockedInodesLen
        pure (.error .parentNotDir)
      else do
        let idx ← tfsInodeTableAdd self.inodeTable type
        match ← parent.addEntry idx entryName.str with
        | .error err => do
            tfsFsUnlockInodes self lockedInodes 0 lockedInodesLen
            tfsInodeTableRemoveInode self.inodeTable idx
            pure (.error (.addEntry err))
        | .ok () => do
            tfsFsUnlockInodes self lockedInodes 0 lockedInodesLen
            pure (.ok idx)

/-- Removes an inode. -/
def tfsFsRemove (self : TfsFs) (path : TfsPath) : TfsProg (Except TfsFsRemoveError Unit) := do
  let entryName := (tfsPathPopLast path).1
  let parentPath := (tfsPathPopLast path).2
  let lockedInodesLen := tfsPathComponentsLen parentPath + 1
  let (findParentResult, lockedInodes) ←
    tfsFsLockAll self parentPath (.new lockedInodesLen) .unique
  match findParentResult with
  | .error err => pure (.error (.inexistentParentDir err))
  | .ok parent =>
      if parent.type ≠ .dir then do
        tfsFsUnlockInodes self lockedInodes 0 lockedInodesLen
        pure (.error .parentNotDir)
      else do
        match ← parent.searchByName entryName.str with
        | none => do
            tfsFsUnlockInodes self lockedInodes 0 lockedInodesLen
            pure (.error .nameNotFound)
        | some (childIdx, dirIdx) => do
            let child ← tfsInodeTableLock self.inodeTable childIdx .unique
            if ← childNonEmpty child then do
              tfsFsUnlockInodes self lockedInodes 0 lockedInodesLen
              tfsInodeTableUnlockInode self.inodeTable child.idx
              pure (.error .removeNonEmptyDir)
            else do
              parent.removeEntryByDirIdx dirIdx
              tfsInodeTableRemoveInode self.inodeTable child.idx
              tfsFsUnlockInodes self lockedInodes 0 lockedInodesLen
              pure (.ok ())
where
  /-- `child.type == TfsInodeTypeDir && !tfs_inode_dir_is_empty(&child.data->dir)` -/
  childNonEmpty (child : TfsLockedInode) : TfsProg Bool := do
    if child.type = .dir then
      let dir ← child.dir
      pure (!tfsInodeDirIsEmpty dir)
    else pure false

/-- Locks and retrieves an inode. -/
def tfsFsFind (self : TfsFs) (path : TfsPath) (access : TfsRwLockAccess) :
    TfsProg (Except TfsFsFindError TfsLockedInode) := do
  let lockedInodesLen := tfsPathComponentsLen path + 1
  let (result, lockedInodes) ← tfsFsLockAll self path (.new lockedInodesLen) access
  match result with
  | .error err => pure (.error err)
  | .ok inode => do
      tfsFsUnlockInodes self lockedInodes 0 (lockedInodesLen - 1)
      pure (.ok inode)

/-- Prints the contents of the file system. -/
def tfsFsPrint (self : TfsFs) (fileName : List CChar) : TfsProg (Except TfsFsPrintError Unit) := do
  if ← fopen fileName then do
    let _ ← tfsInodeTableLock self.inodeTable tfsFsRootIdx .unique
    let out ← tfsInodeTablePrintTree self.inodeTable self.inodeTable.capacity tfsFsRootIdx
      ⟨fileName, []⟩ []
    tfsInodeTableUnlockInode self.inodeTable tfsFsRootIdx
    let closed ← fclose out
    assert .close closed
    pure (.ok ())
  else pure (.error .create)

/-- Unlocks an inode. -/
def tfsFsUnlockInode (self : TfsFs) (idx : Nat) : TfsProg Unit :=
  tfsInodeTableUnlockInode self.inodeTable idx

/-! ## The new file system -/

variable {ι : Type} [DecidableEq ι]

/-- The new file system has a root directory and nothing else. -/
theorem run_tfsFsNew (t : ι) (canOpen : List CChar → Bool) (file : List CChar → List CChar) :
    tfsFsNew.run (machine ι) t (Mem.zero canOpen file) =
      some (⟨⟨128⟩⟩, (Mem.zero canOpen file).setNode 0 (.dir tfsInodeDirNew)) := by
  have hloop : (tfsInodeTableAdd.loop 128 0).run (machine ι) t (Mem.zero canOpen file) =
      some (some 0, (Mem.zero canOpen file).setLocks 0 [(t, .unique)]) := rfl
  have hadd : (tfsInodeTableAdd ⟨128⟩ .dir).run (machine ι) t (Mem.zero canOpen file) =
      some (0, ((Mem.zero canOpen file).setLocks 0 [(t, .unique)]).setNode 0
        (.dir tfsInodeDirNew)) := by
    simp [tfsInodeTableAdd, assert, write, Prog.run_act, Prog.run_bind, hloop, machine_exec, exec,
      tfsInodeInit, tfsInodeEmpty, Mem.setNode]
  rw [tfsFsNew, tfsInodeTableNew, Prog.run_bind, hadd]
  simp [assert, TfsProg.read, tfsFsRootIdx, tfsInodeTableUnlockInode, tfsRwLockUnlock, Prog.run_act,
    machine_exec, exec, RwLock.release, Mem.setLocks, Mem.setNode, TfsInode.type]
  simp [Mem.zero]

end TecnicoFs
