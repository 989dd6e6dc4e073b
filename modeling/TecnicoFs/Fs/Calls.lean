import TecnicoFs.Fs.Move

/-!
# Calls

What a worker thread does with the file system: it runs one operation, and if that
returns a locked inode, it unlocks the inode.  Results are compared by their *outcome*,
which keeps the inode that was returned, and of an error only its kind.
-/

namespace TecnicoFs

open Interleaving TfsProg

/-- A call of one of the operations on the tree. -/
inductive Call where
  | create (path : TfsPath) (type : TfsInodeType)
  | remove (path : TfsPath)
  | find (path : TfsPath) (access : TfsRwLockAccess)
  | move (origPath destPath : TfsPath) (access : TfsRwLockAccess)
  deriving DecidableEq

/-- The arguments are C strings, and what is created is a file or a directory. -/
def Call.Valid : Call → Prop
  | .create path type => NulFree path.str ∧ type ≠ .none
  | .remove path => NulFree path.str
  | .find path _ => NulFree path.str
  | .move origPath destPath _ => NulFree origPath.str ∧ NulFree destPath.str

instance : DecidablePred Call.Valid := fun c => by cases c <;> unfold Call.Valid <;> infer_instance

/-- What a worker thread does. -/
inductive Task where
  | call (c : Call)
  | print (fileName : List CChar)

def Task.Valid : Task → Prop
  | .call c => c.Valid
  | .print _ => True

instance : DecidablePred Task.Valid := fun t => by cases t <;> unfold Task.Valid <;> infer_instance

/-- The task is a move. -/
def Task.Moves (task : Task) : Prop :=
  ∃ origPath destPath access, task = .call (.move origPath destPath access)

instance : DecidablePred Task.Moves := fun task =>
  match task with
  | .call (.move origPath destPath access) => isTrue ⟨origPath, destPath, access, rfl⟩
  | .call (.create ..) => isFalse fun ⟨_, _, _, h⟩ => nomatch h
  | .call (.remove _) => isFalse fun ⟨_, _, _, h⟩ => nomatch h
  | .call (.find ..) => isFalse fun ⟨_, _, _, h⟩ => nomatch h
  | .print _ => isFalse fun ⟨_, _, _, h⟩ => nomatch h

/-! ## Outcomes -/

inductive TfsInodeDirAddEntryErrorKind where
  | emptyName
  | duplicateName
  deriving DecidableEq, Repr

inductive TfsInodeDirRenameErrorKind where
  | notFound
  | emptyName
  | duplicateName
  deriving DecidableEq, Repr

/-- The kinds of the errors of all calls. -/
inductive ErrorKind where
  | find (err : TfsFsFindErrorKind)
  | createInexistentParentDir (err : TfsFsFindErrorKind)
  | createParentNotDir
  | createAddEntry (err : TfsInodeDirAddEntryErrorKind)
  | removeInexistentParentDir (err : TfsFsFindErrorKind)
  | removeParentNotDir
  | removeNameNotFound
  | removeNonEmptyDir
  | moveInexistentCommonAncestor
  | moveCommonAncestorNotDir
  | moveOriginDestinationParent
  | moveDestinationOriginParent
  | moveInexistentOriginParentDir
  | moveInexistentDestinationParentDir
  | moveOriginParentNotDir
  | moveDestinationParentNotDir
  | moveOriginNotFound
  | moveAddEntry (err : TfsInodeDirAddEntryErrorKind)
  | moveRenameEntry (err : TfsInodeDirRenameErrorKind)
  | printCreate
  deriving DecidableEq, Repr

/-- Success with the inode that is returned, or the kind of an error. -/
abbrev Outcome := Except ErrorKind (Option Nat)

def TfsInodeDirAddEntryError.kind : TfsInodeDirAddEntryError → TfsInodeDirAddEntryErrorKind
  | .emptyName => .emptyName
  | .duplicateName .. => .duplicateName

def TfsInodeDirRenameError.kind : TfsInodeDirRenameError → TfsInodeDirRenameErrorKind
  | .notFound => .notFound
  | .emptyName => .emptyName
  | .duplicateName .. => .duplicateName

def TfsFsCreateError.kind : TfsFsCreateError → ErrorKind
  | .inexistentParentDir err => .createInexistentParentDir err.kind
  | .parentNotDir => .createParentNotDir
  | .addEntry err => .createAddEntry err.kind

def TfsFsRemoveError.kind : TfsFsRemoveError → ErrorKind
  | .inexistentParentDir err => .removeInexistentParentDir err.kind
  | .parentNotDir => .removeParentNotDir
  | .nameNotFound => .removeNameNotFound
  | .removeNonEmptyDir => .removeNonEmptyDir

def TfsFsMoveError.kind : TfsFsMoveError → ErrorKind
  | .inexistentCommonAncestor => .moveInexistentCommonAncestor
  | .commonAncestorNotDir => .moveCommonAncestorNotDir
  | .originDestinationParent => .moveOriginDestinationParent
  | .destinationOriginParent => .moveDestinationOriginParent
  | .inexistentOriginParentDir => .moveInexistentOriginParentDir
  | .inexistentDestinationParentDir => .moveInexistentDestinationParentDir
  | .originParentNotDir => .moveOriginParentNotDir
  | .destinationParentNotDir => .moveDestinationParentNotDir
  | .originNotFound => .moveOriginNotFound
  | .addEntry err => .moveAddEntry err.kind
  | .renameEntry err => .moveRenameEntry err.kind

/-! ## Results of calls -/

/-- The result of a task. -/
inductive Reply where
  | create (result : Except TfsFsCreateError Nat)
  | remove (result : Except TfsFsRemoveError Unit)
  | find (result : Except TfsFsFindError TfsLockedInode)
  | move (result : Except TfsFsMoveError TfsLockedInode)
  | print (result : Except TfsFsPrintError Unit)

/-- The inode that is returned, or the kind of the error. -/
def Reply.outcome : Reply → Outcome
  | .create (.ok idx) => .ok (some idx)
  | .create (.error err) => .error err.kind
  | .remove (.ok ()) => .ok none
  | .remove (.error err) => .error err.kind
  | .find (.ok inode) => .ok (some inode.idx)
  | .find (.error err) => .error (.find err.kind)
  | .move (.ok inode) => .ok (some inode.idx)
  | .move (.error err) => .error err.kind
  | .print (.ok ()) => .ok none
  | .print (.error .create) => .error .printCreate

/-- The operation itself; the returned inode is still locked. -/
def Call.operation (self : TfsFs) : Call → TfsProg Reply
  | .create path type => do return .create (← tfsFsCreate self path type)
  | .remove path => do return .remove (← tfsFsRemove self path)
  | .find path access => do return .find (← tfsFsFind self path access)
  | .move origPath destPath access => do
      return .move (← tfsFsMove self origPath destPath access)

/-- The operation and the caller's unlocking of what it returned. -/
def Call.prog (self : TfsFs) (c : Call) : TfsProg Reply := do
  let reply ← c.operation self
  match reply.outcome with
  | .ok (some idx) => do
      tfsFsUnlockInode self idx
      pure reply
  | _ => pure reply

/-- The program of a worker thread. -/
def Task.prog (self : TfsFs) : Task → TfsProg Reply
  | .call c => c.prog self
  | .print fileName => do return .print (← tfsFsPrint self fileName)

end TecnicoFs
