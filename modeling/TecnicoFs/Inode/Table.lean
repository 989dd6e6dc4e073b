import TecnicoFs.Machine

/-!
# The inode table

`table.c`, as programs.  Every function of the source is the sequence of its assertions,
its lock operations and its accesses to the slots, in their order.
-/

namespace TecnicoFs

open Interleaving TfsProg

/-- An inode table of some capacity.  The slots are in the shared memory. -/
structure TfsInodeTable where
  capacity : Nat
  deriving DecidableEq, Repr

/-- Creates a new inode table with all inodes empty; the memory starts out that way. -/
def tfsInodeTableNew (size : Nat) : TfsInodeTable := ⟨size⟩

/-- Creates a new inode and returns it, locked for unique access. -/
def tfsInodeTableAdd (self : TfsInodeTable) (type : TfsInodeType) : TfsProg Nat := do
  assert .addType (type ≠ .none)
  let emptyIdx ← loop self.capacity 0
  assert .addFull emptyIdx.isSome
  match emptyIdx with
  | none => undefined
  | some emptyIdx => do
      write emptyIdx tfsInodeEmpty
      write emptyIdx (tfsInodeInit type)
      pure emptyIdx
where
  /-- The search for an empty slot: `k` slots are left, the next one is `n`.  The slot
  that is found stays locked. -/
  loop : Nat → Nat → TfsProg (Option Nat)
    | 0, _ => pure none
    | k + 1, n => do
        if ← tfsRwLockTryLock n .unique then
          if (← read n).type = .none then pure (some n)
          else do
            tfsRwLockUnlock n
            loop k (n + 1)
        else loop k (n + 1)

/-- Locks an inode. -/
def tfsInodeTableLock (self : TfsInodeTable) (idx : Nat) (access : TfsRwLockAccess) :
    TfsProg TfsLockedInode := do
  assert (.lockRange idx) (idx < self.capacity)
  tfsRwLockLock idx access
  assert (.lockLive idx) ((← read idx).type ≠ .none)
  let node ← read idx
  pure ⟨idx, node.type⟩

/-- Unlocks a locked inode. -/
def tfsInodeTableUnlockInode (self : TfsInodeTable) (idx : Nat) : TfsProg Unit := do
  assert (.unlockRange idx) (idx < self.capacity)
  assert (.unlockLive idx) ((← read idx).type ≠ .none)
  tfsRwLockUnlock idx

/-- Removes a locked inode and unlocks it. -/
def tfsInodeTableRemoveInode (self : TfsInodeTable) (idx : Nat) : TfsProg Unit := do
  assert (.removeRange idx) (idx < self.capacity)
  write idx tfsInodeEmpty
  tfsRwLockUnlock idx

/-- What locking an inode does. -/
theorem all_tfsInodeTableLock {ok : Op → Prop} {self : TfsInodeTable} {idx : Nat}
    {access : TfsRwLockAccess} (hlock : ok (.lock idx access)) (hread : ok (.read idx))
    (hrange : ∀ holds, ok (.assert (.lockRange idx) holds))
    (hlive : ∀ holds, ok (.assert (.lockLive idx) holds)) :
    (tfsInodeTableLock self idx access).All ok :=
  (Prog.all_perform (hrange _)).bind fun _ => (Prog.all_perform hlock).bind fun _ =>
    (Prog.all_perform hread).bind fun _ => (Prog.all_perform (hlive _)).bind fun _ =>
      (Prog.all_perform hread).bind fun _ => Prog.all_pure _

/-- What unlocking an inode does. -/
theorem all_tfsInodeTableUnlockInode {ok : Op → Prop} {self : TfsInodeTable} {idx : Nat}
    (hunlock : ok (.unlock idx)) (hread : ok (.read idx))
    (hrange : ∀ holds, ok (.assert (.unlockRange idx) holds))
    (hlive : ∀ holds, ok (.assert (.unlockLive idx) holds)) :
    (tfsInodeTableUnlockInode self idx).All ok :=
  (Prog.all_perform (hrange _)).bind fun _ => (Prog.all_perform hread).bind fun _ =>
    (Prog.all_perform (hlive _)).bind fun _ => Prog.all_perform hunlock

/-! ## Directories behind a locked inode

The source passes `&inode.data->dir` around; what is there must be a directory. -/

/-- `inode.data->dir` -/
def TfsLockedInode.dir (inode : TfsLockedInode) : TfsProg TfsInodeDir := do
  match ← read inode.idx with
  | .dir dir => pure dir
  | _ => undefined

/-- `tfs_inode_dir_search_by_name(&inode.data->dir, ..)` -/
def TfsLockedInode.searchByName (inode : TfsLockedInode) (name : List CChar) :
    TfsProg (Option (Nat × Nat)) := do
  let dir ← inode.dir
  pure (tfsInodeDirSearchByName dir name)

/-- `tfs_inode_dir_add_entry(&inode.data->dir, ..)` -/
def TfsLockedInode.addEntry (inode : TfsLockedInode) (idx : Nat) (name : List CChar) :
    TfsProg (Except TfsInodeDirAddEntryError Unit) := do
  let dir ← inode.dir
  match tfsInodeDirAddEntry dir idx name with
  | .error err => pure (.error err)
  | .ok dir => do
      write inode.idx (.dir dir)
      pure (.ok ())

/-- `tfs_inode_dir_rename(&inode.data->dir, ..)` -/
def TfsLockedInode.rename (inode : TfsLockedInode) (idx : Nat) (newName : List CChar) :
    TfsProg (Except TfsInodeDirRenameError Unit) := do
  let dir ← inode.dir
  match tfsInodeDirRename dir idx newName with
  | .error err => pure (.error err)
  | .ok dir => do
      write inode.idx (.dir dir)
      pure (.ok ())

/-- `tfs_inode_dir_remove_entry_by_dir_idx(&inode.data->dir, ..)` -/
def TfsLockedInode.removeEntryByDirIdx (inode : TfsLockedInode) (dirIdx : Nat) :
    TfsProg Unit := do
  let dir ← inode.dir
  assert .removeEntry (dirIdx < dir.capacity)
  write inode.idx (.dir (tfsInodeDirRemoveEntryByDirIdx dir dirIdx))

/-! ## Printing -/

/-- `fprintf(out, "%s\n", path)` -/
def TfsStream.println (out : TfsStream) (path : List CChar) : TfsStream :=
  { out with written := out.written ++ path ++ [0x0a] }

/-- `"%s/%.*s"` -/
def childPath (path name : List CChar) : List CChar :=
  path ++ 0x2f :: name.takeWhile (· ≠ 0)

/-- Prints an inode's path, along with all of its children's.  The recursion of the source
has no bound; the model lets it run `depth` levels deep and is stuck below. -/
def tfsInodeTablePrintTree (self : TfsInodeTable) :
    Nat → Nat → TfsStream → List CChar → TfsProg TfsStream
  | 0, _, _, _ => undefined
  | depth + 1, idx, out, path => do
      assert (.printRange idx) (idx < self.capacity)
      assert (.printLive idx) ((← read idx).type ≠ .none)
      let out := out.println path
      match ← read idx with
      | .dir dir =>
          dir.entries.foldlM (fun out entry =>
            match entry.inodeIdx with
            | none => pure out
            | some inodeIdx =>
                tfsInodeTablePrintTree self depth inodeIdx out (childPath path entry.name)) out
      | _ => pure out

end TecnicoFs
