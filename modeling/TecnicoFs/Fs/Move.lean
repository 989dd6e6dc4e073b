import TecnicoFs.Fs.Fs

/-!
# Moving

`tfs_fs_move`, cut where the source is cut by its comments: the guards and the common
ancestor, a rename inside of one directory, locking both parents in the order of their
paths, and the entry itself.
-/

namespace TecnicoFs

open Interleaving TfsProg

/-- Error of `tfs_fs_move`. -/
inductive TfsFsMoveError where
  | inexistentCommonAncestor
  | commonAncestorNotDir
  | originDestinationParent
  | destinationOriginParent
  | inexistentOriginParentDir
  | inexistentDestinationParentDir
  | originParentNotDir
  | destinationParentNotDir
  | originNotFound
  | addEntry (err : TfsInodeDirAddEntryError)
  | renameEntry (err : TfsInodeDirRenameError)
  deriving DecidableEq, Repr

/-- An array together with its length. -/
structure LockedChain where
  lockedInodes : LockedInodes
  len : Nat

/-- Unlocks all inodes of an array. -/
def tfsFsUnlockChain (self : TfsFs) (chain : LockedChain) : TfsProg Unit :=
  tfsFsUnlockInodes self chain.lockedInodes 0 chain.len

/-- Both parents are the same: renames the file in the common ancestor. -/
def tfsFsMoveRename (self : TfsFs) (common : LockedChain) (commonAncestor : TfsLockedInode)
    (origPathFilename destPathFilename : TfsPath) :
    TfsProg (Except TfsFsMoveError TfsLockedInode) := do
  match ← commonAncestor.searchByName origPathFilename.str with
  | none => do
      tfsFsUnlockChain self common
      pure (.error .originNotFound)
  | some (childIdx, _) => do
      let child ← tfsInodeTableLock self.inodeTable childIdx .unique
      match ← commonAncestor.rename child.idx destPathFilename.str with
      | .error err => do
          tfsFsUnlockChain self common
          tfsInodeTableUnlockInode self.inodeTable child.idx
          pure (.error (.renameEntry err))
      | .ok () => do
          tfsFsUnlockChain self common
          pure (.ok child)

/-- Locks one parent, starting from the common ancestor. -/
def tfsFsMoveLockParent (self : TfsFs) (commonAncestor : TfsLockedInode) (pathParent : TfsPath)
    (lockedInodes : LockedInodes) :
    TfsProg (Except TfsFsFindError TfsLockedInode × LockedInodes) :=
  if pathParent.len = 0 then pure (.ok commonAncestor, lockedInodes)
  else tfsFsLockAllFrom self pathParent commonAncestor lockedInodes 0 .unique

/-- Locks both parents, one after the other: the two branches of the source differ in
which parent comes first. -/
def tfsFsMoveLockParents (self : TfsFs) (common : LockedChain) (commonAncestor : TfsLockedInode)
    (firstPath secondPath : TfsPath) (firstErr secondErr : TfsFsMoveError) :
    TfsProg (Except TfsFsMoveError
      ((TfsLockedInode × LockedChain) × (TfsLockedInode × LockedChain))) := do
  let firstLen := tfsPathComponentsLen firstPath
  let secondLen := tfsPathComponentsLen secondPath
  let (firstResult, first) ←
    tfsFsMoveLockParent self commonAncestor firstPath (.new firstLen)
  match firstResult with
  | .error _ => do
      tfsFsUnlockChain self common
      pure (.error firstErr)
  | .ok firstParent => do
      let (secondResult, second) ←
        tfsFsMoveLockParent self commonAncestor secondPath (.new secondLen)
      match secondResult with
      | .error _ => do
          tfsFsUnlockChain self common
          tfsFsUnlockChain self ⟨first, firstLen⟩
          pure (.error secondErr)
      | .ok secondParent =>
          pure (.ok ((firstParent, ⟨first, firstLen⟩), (secondParent, ⟨second, secondLen⟩)))

/-- Unlocks all three arrays. -/
def tfsFsMoveUnlock (self : TfsFs) (common orig dest : LockedChain) : TfsProg Unit := do
  tfsFsUnlockChain self common
  tfsFsUnlockChain self orig
  tfsFsUnlockChain self dest

/-- Both parents are locked: moves the entry from one to the other. -/
def tfsFsMoveEntry (self : TfsFs) (common : LockedChain)
    (origParent : TfsLockedInode) (lockedOrig : LockedChain)
    (destParent : TfsLockedInode) (lockedDest : LockedChain)
    (origPathFilename destPathFilename : TfsPath) (access : TfsRwLockAccess) :
    TfsProg (Except TfsFsMoveError TfsLockedInode) := do
  if origParent.type ≠ .dir then do
    tfsFsMoveUnlock self common lockedOrig lockedDest
    pure (.error .originParentNotDir)
  else if destParent.type ≠ .dir then do
    tfsFsMoveUnlock self common lockedOrig lockedDest
    pure (.error .destinationParentNotDir)
  else do
    match ← origParent.searchByName origPathFilename.str with
    | none => do
        tfsFsMoveUnlock self common lockedOrig lockedDest
        pure (.error .originNotFound)
    | some (origIdx, dirIdx) => do
        let orig ← tfsInodeTableLock self.inodeTable origIdx access
        match ← destParent.addEntry orig.idx destPathFilename.str with
        | .error err => do
            -- `orig` itself stays locked
            tfsFsMoveUnlock self common lockedOrig lockedDest
            pure (.error (.addEntry err))
        | .ok () => do
            origParent.removeEntryByDirIdx dirIdx
            tfsFsMoveUnlock self common lockedOrig lockedDest
            pure (.ok orig)

/-- Moves an inode.  It is returned locked. -/
def tfsFsMove (self : TfsFs) (origPath destPath : TfsPath) (access : TfsRwLockAccess) :
    TfsProg (Except TfsFsMoveError TfsLockedInode) := do
  let split := tfsPathCommonAncestor origPath destPath
  let origPathFilename := (tfsPathPopLast split.lhsRest).1
  let origPathParent := (tfsPathPopLast split.lhsRest).2
  let destPathFilename := (tfsPathPopLast split.rhsRest).1
  let destPathParent := (tfsPathPopLast split.rhsRest).2
  if tfsPathEq origPath destPathParent then pure (.error .originDestinationParent)
  else if tfsPathEq origPathParent destPath then pure (.error .destinationOriginParent)
  else do
    let lockedCommonInodesLen := tfsPathComponentsLen split.ancestor + 1
    let (commonResult, lockedCommonInodes) ←
      tfsFsLockAll self split.ancestor (.new lockedCommonInodesLen)
        (if origPathParent.len = 0 ∨ destPathParent.len = 0 then .unique else .shared)
    match commonResult with
    | .error _ => pure (.error .inexistentCommonAncestor)
    | .ok commonAncestor =>
        let common : LockedChain := ⟨lockedCommonInodes, lockedCommonInodesLen⟩
        if split.rhsRest.len = 0 ∧ split.lhsRest.len = 0 then do
          tfsFsUnlockInodes self lockedCommonInodes 0 (lockedCommonInodesLen - 1)
          let inode ← lockedCommonInodes.get (lockedCommonInodesLen - 1)
          pure (.ok inode)
        else if commonAncestor.type ≠ .dir then do
          tfsFsUnlockChain self common
          pure (.error .commonAncestorNotDir)
        else if origPathParent.len = 0 ∧ destPathParent.len = 0 then
          tfsFsMoveRename self common commonAncestor origPathFilename destPathFilename
        else if tfsStrCmp origPathParent.str destPathParent.str < 0 then do
          match ← tfsFsMoveLockParents self common commonAncestor origPathParent destPathParent
            .inexistentOriginParentDir .inexistentDestinationParentDir with
          | .error err => pure (.error err)
          | .ok (orig, dest) =>
              tfsFsMoveEntry self common orig.1 orig.2 dest.1 dest.2 origPathFilename
                destPathFilename access
        else do
          match ← tfsFsMoveLockParents self common commonAncestor destPathParent origPathParent
            .inexistentDestinationParentDir .inexistentOriginParentDir with
          | .error err => pure (.error err)
          | .ok (dest, orig) =>
              tfsFsMoveEntry self common orig.1 orig.2 dest.1 dest.2 origPathFilename
                destPathFilename access

end TecnicoFs
