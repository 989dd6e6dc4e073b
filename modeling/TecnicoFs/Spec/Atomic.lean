import TecnicoFs.Spec.Tree
import TecnicoFs.Fs.Calls

/-!
# Calls as functions of the tree

What a call means when nothing interferes: a function from the tree before to the outcome
and the tree after.  `atomic` is the source without its locks, with the walk along a path
in terms of components.  A creation is also given the slot it is to use.

One thing about locks is part of the meaning: a move between two directories that fails
to add its entry returns with the lock of the moved inode still held.  That hold is the
`leak` of the call.
-/

namespace TecnicoFs

open Function Graph

/-! ## Walking -/

/-- The walk along components, and why it stops. -/
def locate (T : Tree) : Nat → List (List CChar) → Except TfsFsFindErrorKind Nat
  | i, [] => .ok i
  | i, name :: names =>
      match T i with
      | .dir dir =>
          match tfsInodeDirSearchByName dir name with
          | none => .error .nameNotFound
          | some (j, _) => locate T j names
      | _ => .error .parentsNotDir

@[simp] theorem locate_nil (T : Tree) (i : Nat) : locate T i [] = .ok i := rfl

theorem locate_cons_of_dir {T : Tree} {i : Nat} {dir : TfsInodeDir} (h : T i = .dir dir)
    (name : List CChar) (names : List (List CChar)) :
    locate T i (name :: names) =
      match tfsInodeDirSearchByName dir name with
      | none => .error .nameNotFound
      | some (j, _) => locate T j names := by
  rw [locate, h]

theorem locate_cons_of_not_dir {T : Tree} {i : Nat} (h : (T i).type ≠ .dir)
    (name : List CChar) (names : List (List CChar)) :
    locate T i (name :: names) = .error .parentsNotDir := by
  rw [locate]
  split
  · rename_i hd
    exact absurd (by rw [hd]; rfl) h
  · rfl

theorem locate_append (T : Tree) (i : Nat) (cs ds : List (List CChar)) :
    locate T i (cs ++ ds) = (locate T i cs).bind fun j => locate T j ds := by
  induction cs generalizing i with
  | nil => rfl
  | cons c cs ih =>
    rw [List.cons_append]
    by_cases hi : (T i).type = .dir
    · obtain ⟨d, hd⟩ := TfsInode.type_eq_dir_iff.mp hi
      rw [locate_cons_of_dir hd, locate_cons_of_dir hd]
      cases tfsInodeDirSearchByName d c with
      | none => rfl
      | some x => exact ih x.1
    · rw [locate_cons_of_not_dir hi, locate_cons_of_not_dir hi]
      rfl

theorem locate_append_of_ok {T : Tree} {i j : Nat} {cs : List (List CChar)}
    (h : locate T i cs = .ok j) (ds : List (List CChar)) :
    locate T i (cs ++ ds) = locate T j ds := by
  rw [locate_append, h]
  rfl

/-- One component more. -/
theorem locate_append_singleton {T : Tree} {i j : Nat} {cs : List (List CChar)} {d : TfsInodeDir}
    (h : locate T i cs = .ok j) (hd : T j = .dir d) (name : List CChar) :
    locate T i (cs ++ [name]) =
      match tfsInodeDirSearchByName d name with
      | none => .error .nameNotFound
      | some (k, _) => .ok k := by
  rw [locate_append_of_ok h, locate_cons_of_dir hd]
  rfl

theorem locate_append_of_error {T : Tree} {i : Nat} {cs : List (List CChar)}
    {kind : TfsFsFindErrorKind} (h : locate T i cs = .error kind) (ds : List (List CChar)) :
    locate T i (cs ++ ds) = .error kind := by
  rw [locate_append, h]
  rfl

/-- A walk that succeeds has succeeded on the way. -/
theorem exists_locate_of_append {T : Tree} {i j : Nat} {cs ds : List (List CChar)}
    (h : locate T i (cs ++ ds) = .ok j) :
    ∃ k, locate T i cs = .ok k ∧ locate T k ds = .ok j := by
  rw [locate_append] at h
  cases hk : locate T i cs with
  | error e => rw [hk] at h; cases h
  | ok k => rw [hk] at h; exact ⟨k, rfl, h⟩

theorem locate_cons_eq_ok {T : Tree} {i j : Nat} {c : List CChar} {cs : List (List CChar)}
    (h : locate T i (c :: cs) = .ok j) :
    ∃ d x dirIdx, T i = .dir d ∧ tfsInodeDirSearchByName d c = some (x, dirIdx) ∧
      locate T x cs = .ok j := by
  by_cases hi : (T i).type = .dir
  · obtain ⟨d, hd⟩ := TfsInode.type_eq_dir_iff.mp hi
    rw [locate_cons_of_dir hd] at h
    cases hs : tfsInodeDirSearchByName d c with
    | none => rw [hs] at h; cases h
    | some x => rw [hs] at h; exact ⟨d, x.1, x.2, hd, hs, h⟩
  · rw [locate_cons_of_not_dir hi] at h
    cases h

/-- **A walk depends only on the slots it passes before its last one.** -/
theorem locate_congr {T T' : Tree} {i : Nat} {cs : List (List CChar)}
    (h : ∀ ds c es j, cs = ds ++ c :: es → locate T i ds = .ok j → T' j = T j) :
    locate T' i cs = locate T i cs := by
  induction cs generalizing i with
  | nil => rfl
  | cons c cs ih =>
    have hi : T' i = T i := h [] c cs i rfl rfl
    by_cases hdir : (T i).type = .dir
    · obtain ⟨d, hd⟩ := TfsInode.type_eq_dir_iff.mp hdir
      rw [locate_cons_of_dir hd, locate_cons_of_dir (hi.trans hd)]
      cases hs : tfsInodeDirSearchByName d c with
      | none => rfl
      | some x =>
        refine ih fun ds c' es j hcs hj => h (c :: ds) c' es j (by rw [hcs]; rfl) ?_
        rw [locate_cons_of_dir hd, hs]
        exact hj
    · rw [locate_cons_of_not_dir hdir, locate_cons_of_not_dir (hi ▸ hdir)]

/-- In a tree the walks are the walks of the graph. -/
theorem locate_eq_ok_iff {capacity : Nat} {T : Tree} (hT : TreeInv capacity T) {i j : Nat}
    {cs : List (List CChar)} (hcs : ∀ c ∈ cs, NulFree c) :
    locate T i cs = .ok j ↔ Walk (Child T) i cs j := by
  induction cs generalizing i with
  | nil => simp [Walk.nil_iff]
  | cons c cs ih =>
    rw [List.forall_mem_cons] at hcs
    rw [Walk.cons_iff]
    constructor
    · intro h
      obtain ⟨d, x, dirIdx, hd, hs, hx⟩ := locate_cons_eq_ok h
      exact ⟨x, ⟨d, hd, mem_children_of_search hcs.1 hs⟩, (ih hcs.2).mp hx⟩
    · rintro ⟨x, ⟨d, hd, hmem⟩, w⟩
      obtain ⟨dirIdx, hs⟩ := search_of_mem_children (hT.names hd) hcs.1 hmem
      rw [locate_cons_of_dir hd, hs]
      exact (ih hcs.2).mpr w

/-! ## The calls -/

/-- What a call does to a tree. -/
structure Effect where
  outcome : Outcome
  tree : Tree
  /-- What the call holds for ever. -/
  leak : Option (Nat × TfsRwLockAccess)

/-- The call fails and changes nothing. -/
def Effect.fail (T : Tree) (kind : ErrorKind) : Effect := ⟨.error kind, T, none⟩

/-- `tfs_fs_create` -/
def atomicCreate (T : Tree) (slot : Nat) (path : TfsPath) (type : TfsInodeType) : Effect :=
  match locate T 0 (comps (tfsPathPopLast path).2.str) with
  | .error kind => .fail T (.createInexistentParentDir kind)
  | .ok parent =>
      match T parent with
      | .dir dir =>
          match tfsInodeDirAddEntry dir slot (tfsPathPopLast path).1.str with
          | .error err => .fail T (.createAddEntry err.kind)
          | .ok dir' =>
              ⟨.ok (some slot), update (update T slot (tfsInodeInit type)) parent (.dir dir'),
                none⟩
      | _ => .fail T .createParentNotDir

/-- The inode is a directory with an occupied entry. -/
def nonEmptyDir : TfsInode → Bool
  | .dir dir => !tfsInodeDirIsEmpty dir
  | _ => false

/-- `tfs_fs_remove` -/
def atomicRemove (T : Tree) (path : TfsPath) : Effect :=
  match locate T 0 (comps (tfsPathPopLast path).2.str) with
  | .error kind => .fail T (.removeInexistentParentDir kind)
  | .ok parent =>
      match T parent with
      | .dir dir =>
          match tfsInodeDirSearchByName dir (tfsPathPopLast path).1.str with
          | none => .fail T .removeNameNotFound
          | some (child, dirIdx) =>
              if nonEmptyDir (T child) then .fail T .removeNonEmptyDir
              else
                ⟨.ok none,
                  update (update T parent (.dir (tfsInodeDirRemoveEntryByDirIdx dir dirIdx)))
                    child .none, none⟩
      | _ => .fail T .removeParentNotDir

section Parent

variable {T : Tree} {path : TfsPath} {parent : Nat}
  (hp : locate T 0 (comps (tfsPathPopLast path).2.str) = .ok parent)

include hp

/-- A creation whose parent was found. -/
theorem atomicCreate_of_dir {d : TfsInodeDir} (hd : T parent = .dir d) (slot : Nat)
    (type : TfsInodeType) :
    atomicCreate T slot path type =
      match tfsInodeDirAddEntry d slot (tfsPathPopLast path).1.str with
      | .error err => .fail T (.createAddEntry err.kind)
      | .ok d' => ⟨.ok (some slot), update (update T slot (tfsInodeInit type)) parent (.dir d'),
          none⟩ := by
  rw [atomicCreate, hp]
  simp only [hd]

theorem atomicCreate_of_not_dir (hd : (T parent).type ≠ .dir) (slot : Nat) (type : TfsInodeType) :
    atomicCreate T slot path type = .fail T .createParentNotDir := by
  rw [atomicCreate, hp]
  dsimp only
  split
  · rename_i heq
    exact absurd (by rw [heq]; rfl) hd
  · rfl

/-- A removal whose parent was found. -/
theorem atomicRemove_of_dir {d : TfsInodeDir} (hd : T parent = .dir d) :
    atomicRemove T path =
      match tfsInodeDirSearchByName d (tfsPathPopLast path).1.str with
      | none => .fail T .removeNameNotFound
      | some (child, dirIdx) =>
          if nonEmptyDir (T child) then .fail T .removeNonEmptyDir
          else
            ⟨.ok none, update (update T parent (.dir (tfsInodeDirRemoveEntryByDirIdx d dirIdx)))
              child .none, none⟩ := by
  rw [atomicRemove, hp]
  simp only [hd]

theorem atomicRemove_of_not_dir (hd : (T parent).type ≠ .dir) :
    atomicRemove T path = .fail T .removeParentNotDir := by
  rw [atomicRemove, hp]
  dsimp only
  split
  · rename_i heq
    exact absurd (by rw [heq]; rfl) hd
  · rfl

end Parent

/-- `tfs_fs_find` -/
def atomicFind (T : Tree) (path : TfsPath) : Effect :=
  match locate T 0 (comps path.str) with
  | .error kind => .fail T (.find kind)
  | .ok i => ⟨.ok (some i), T, none⟩

/-- The rename of `tfs_fs_move`, in directory `parent`. -/
def atomicRename (T : Tree) (parent : Nat) (origName destName : List CChar) : Effect :=
  match T parent with
  | .dir dir =>
      match tfsInodeDirSearchByName dir origName with
      | none => .fail T .moveOriginNotFound
      | some (child, _) =>
          match tfsInodeDirRename dir child destName with
          | .error err => .fail T (.moveRenameEntry err.kind)
          | .ok dir' => ⟨.ok (some child), update T parent (.dir dir'), none⟩
  | _ => .fail T .moveCommonAncestorNotDir

/-- The last part of `tfs_fs_move`, with both parents found. -/
def atomicMoveEntry (T : Tree) (origParent destParent : Nat) (origName destName : List CChar)
    (access : TfsRwLockAccess) : Effect :=
  match T origParent with
  | .dir origDir =>
      match T destParent with
      | .dir destDir =>
          match tfsInodeDirSearchByName origDir origName with
          | none => .fail T .moveOriginNotFound
          | some (orig, dirIdx) =>
              match tfsInodeDirAddEntry destDir orig destName with
              | .error err => ⟨.error (.moveAddEntry err.kind), T, some (orig, access)⟩
              | .ok destDir' =>
                  ⟨.ok (some orig),
                    update (update T destParent (.dir destDir')) origParent
                      (.dir (tfsInodeDirRemoveEntryByDirIdx origDir dirIdx)), none⟩
      | _ => .fail T .moveDestinationParentNotDir
  | _ => .fail T .moveOriginParentNotDir

theorem atomicMoveEntry_of_dirs {T : Tree} {p q : Nat} {d e : TfsInodeDir} (hd : T p = .dir d)
    (he : T q = .dir e) (origName destName : List CChar) (access : TfsRwLockAccess) :
    atomicMoveEntry T p q origName destName access =
      match tfsInodeDirSearchByName d origName with
      | none => .fail T .moveOriginNotFound
      | some (orig, dirIdx) =>
          match tfsInodeDirAddEntry e orig destName with
          | .error err => ⟨.error (.moveAddEntry err.kind), T, some (orig, access)⟩
          | .ok e' =>
              ⟨.ok (some orig), update (update T q (.dir e')) p
                (.dir (tfsInodeDirRemoveEntryByDirIdx d dirIdx)), none⟩ := by
  rw [atomicMoveEntry]
  simp only [hd, he]

theorem atomicMoveEntry_of_orig_not_dir {T : Tree} {p : Nat} (hp : (T p).type ≠ .dir) (q : Nat)
    (origName destName : List CChar) (access : TfsRwLockAccess) :
    atomicMoveEntry T p q origName destName access = .fail T .moveOriginParentNotDir := by
  rw [atomicMoveEntry]
  split
  · rename_i heq
    exact absurd (by rw [heq]; rfl) hp
  · rfl

theorem atomicMoveEntry_of_dest_not_dir {T : Tree} {p q : Nat} {d : TfsInodeDir}
    (hd : T p = .dir d) (hq : (T q).type ≠ .dir) (origName destName : List CChar)
    (access : TfsRwLockAccess) :
    atomicMoveEntry T p q origName destName access = .fail T .moveDestinationParentNotDir := by
  rw [atomicMoveEntry]
  simp only [hd]
  split
  · rename_i heq
    exact absurd (by rw [heq]; rfl) hq
  · rfl

/-- The pieces into which `tfs_fs_move` cuts its paths. -/
structure MoveSplit where
  ancestor : TfsPath
  lhsRest : TfsPath
  rhsRest : TfsPath
  origFilename : TfsPath
  origParent : TfsPath
  destFilename : TfsPath
  destParent : TfsPath

def moveSplit (origPath destPath : TfsPath) : MoveSplit :=
  let split := tfsPathCommonAncestor origPath destPath
  { ancestor := split.ancestor
    lhsRest := split.lhsRest
    rhsRest := split.rhsRest
    origFilename := (tfsPathPopLast split.lhsRest).1
    origParent := (tfsPathPopLast split.lhsRest).2
    destFilename := (tfsPathPopLast split.rhsRest).1
    destParent := (tfsPathPopLast split.rhsRest).2 }

/-- The source locks the parent of the origin first. -/
def MoveSplit.OrigFirst (s : MoveSplit) : Prop := tfsStrCmp s.origParent.str s.destParent.str < 0

instance (s : MoveSplit) : Decidable s.OrigFirst :=
  inferInstanceAs (Decidable (tfsStrCmp s.origParent.str s.destParent.str < 0))

/-- `tfs_fs_move` after its guards, with the common ancestor found. -/
def atomicMoveFrom (T : Tree) (ancestor : Nat) (s : MoveSplit) (access : TfsRwLockAccess) :
    Effect :=
  if s.rhsRest.len = 0 ∧ s.lhsRest.len = 0 then ⟨.ok (some ancestor), T, none⟩
  else if (T ancestor).type ≠ .dir then .fail T .moveCommonAncestorNotDir
  else if s.origParent.len = 0 ∧ s.destParent.len = 0 then
    atomicRename T ancestor s.origFilename.str s.destFilename.str
  else
    match locate T ancestor (comps s.origParent.str),
      locate T ancestor (comps s.destParent.str) with
    | .ok origParent, .ok destParent =>
        atomicMoveEntry T origParent destParent s.origFilename.str s.destFilename.str access
    | .error _, .ok _ => .fail T .moveInexistentOriginParentDir
    | .ok _, .error _ => .fail T .moveInexistentDestinationParentDir
    | .error _, .error _ =>
        -- the parent that is locked first decides
        if s.OrigFirst then .fail T .moveInexistentOriginParentDir
        else .fail T .moveInexistentDestinationParentDir

/-- `tfs_fs_move` -/
def atomicMove (T : Tree) (origPath destPath : TfsPath) (access : TfsRwLockAccess) : Effect :=
  let s := moveSplit origPath destPath
  if tfsPathEq origPath s.destParent then .fail T .moveOriginDestinationParent
  else if tfsPathEq s.origParent destPath then .fail T .moveDestinationOriginParent
  else
    match locate T 0 (comps s.ancestor.str) with
    | .error _ => .fail T .moveInexistentCommonAncestor
    | .ok ancestor => atomicMoveFrom T ancestor s access

theorem atomicRename_of_dir {T : Tree} {a : Nat} {d : TfsInodeDir} (hd : T a = .dir d)
    (origName destName : List CChar) :
    atomicRename T a origName destName =
      match tfsInodeDirSearchByName d origName with
      | none => .fail T .moveOriginNotFound
      | some (child, _) =>
          match tfsInodeDirRename d child destName with
          | .error err => .fail T (.moveRenameEntry err.kind)
          | .ok d' => ⟨.ok (some child), update T a (.dir d'), none⟩ := by
  rw [atomicRename]
  simp only [hd]

theorem atomicRename_of_not_dir {T : Tree} {a : Nat} (ha : (T a).type ≠ .dir)
    (origName destName : List CChar) :
    atomicRename T a origName destName = .fail T .moveCommonAncestorNotDir := by
  rw [atomicRename]
  split
  · rename_i heq
    exact absurd (by rw [heq]; rfl) ha
  · rfl

/-- A move that passes the guards and finds the common ancestor. -/
theorem atomicMove_of_ancestor {T : Tree} {origPath destPath : TfsPath}
    (ho : tfsPathEq origPath (moveSplit origPath destPath).destParent = false)
    (hd : tfsPathEq (moveSplit origPath destPath).origParent destPath = false) {a : Nat}
    (ha : locate T 0 (comps (moveSplit origPath destPath).ancestor.str) = .ok a)
    (access : TfsRwLockAccess) :
    atomicMove T origPath destPath access =
      atomicMoveFrom T a (moveSplit origPath destPath) access := by
  simp only [atomicMove, ho, hd, ha, Bool.false_eq_true, if_false]

theorem atomicMove_of_no_ancestor {T : Tree} {origPath destPath : TfsPath}
    (ho : tfsPathEq origPath (moveSplit origPath destPath).destParent = false)
    (hd : tfsPathEq (moveSplit origPath destPath).origParent destPath = false)
    {kind : TfsFsFindErrorKind}
    (ha : locate T 0 (comps (moveSplit origPath destPath).ancestor.str) = .error kind)
    (access : TfsRwLockAccess) :
    atomicMove T origPath destPath access = .fail T .moveInexistentCommonAncestor := by
  simp only [atomicMove, ho, hd, ha, Bool.false_eq_true, if_false]

/-- A move that does not find one of the parents; the one that is locked first decides. -/
theorem atomicMoveFrom_of_no_parent {T : Tree} {a : Nat} {s : MoveSplit}
    (hrest : ¬(s.rhsRest.len = 0 ∧ s.lhsRest.len = 0)) (ha : (T a).type = .dir)
    (hparents : ¬(s.origParent.len = 0 ∧ s.destParent.len = 0)) (access : TfsRwLockAccess) :
    (∀ e, locate T a (comps s.origParent.str) = .error e →
      (s.OrigFirst ∨ ∃ q, locate T a (comps s.destParent.str) = .ok q) →
      atomicMoveFrom T a s access = .fail T .moveInexistentOriginParentDir) ∧
    ∀ e, locate T a (comps s.destParent.str) = .error e →
      (¬s.OrigFirst ∨ ∃ p, locate T a (comps s.origParent.str) = .ok p) →
      atomicMoveFrom T a s access = .fail T .moveInexistentDestinationParentDir := by
  rw [atomicMoveFrom, if_neg hrest, if_neg (not_not.mpr ha), if_neg hparents]
  constructor
  · intro e he hor
    rw [he]
    cases hq : locate T a (comps s.destParent.str) with
    | ok q => rfl
    | error e' =>
      rcases hor with hfirst | ⟨q, hq'⟩
      · exact if_pos hfirst
      · rw [hq] at hq'
        cases hq'
  · intro e he hor
    rw [he]
    cases hp : locate T a (comps s.origParent.str) with
    | ok p => rfl
    | error e' =>
      rcases hor with hfirst | ⟨p, hp'⟩
      · exact if_neg hfirst
      · rw [hp] at hp'
        cases hp'

/-- A move that finds both parents. -/
theorem atomicMoveFrom_of_parents {T : Tree} {a : Nat} {s : MoveSplit}
    (hrest : ¬(s.rhsRest.len = 0 ∧ s.lhsRest.len = 0)) (ha : (T a).type = .dir)
    (hparents : ¬(s.origParent.len = 0 ∧ s.destParent.len = 0)) {p q : Nat}
    (hp : locate T a (comps s.origParent.str) = .ok p)
    (hq : locate T a (comps s.destParent.str) = .ok q) (access : TfsRwLockAccess) :
    atomicMoveFrom T a s access =
      atomicMoveEntry T p q s.origFilename.str s.destFilename.str access := by
  rw [atomicMoveFrom, if_neg hrest, if_neg (not_not.mpr ha), if_neg hparents, hp, hq]

/-- **What a call does.** -/
def atomic (T : Tree) (slot : Nat) : Call → Effect
  | .create path type => atomicCreate T slot path type
  | .remove path => atomicRemove T path
  | .find path _ => atomicFind T path
  | .move origPath destPath access => atomicMove T origPath destPath access

/-- A creation that succeeds is given an empty slot of the table. -/
def Fits (capacity : Nat) (T : Tree) (slot : Nat) (c : Call) : Prop :=
  ∀ path type, c = .create path type → (∃ i, (atomic T slot c).outcome = .ok i) →
    T slot = .none ∧ slot < capacity

end TecnicoFs
