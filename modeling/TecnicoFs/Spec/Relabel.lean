import TecnicoFs.Spec.Plan
import Mathlib.Logic.Equiv.Basic

/-!
# The numbering of the inodes

Which slot of the table an inode is in is of no account: if the inodes of a tree are
numbered in another way, and the root is still the first of them, then all calls do the
same to it, with the other numbers (`Relabels.atomic`).  A creation is the one call that
chooses a number, and it can be given any that is free.
-/

namespace TecnicoFs

open Function Graph

/-- The entry for the inode of another number. -/
def TfsInodeDirEntry.relabel (π : Nat → Nat) (entry : TfsInodeDirEntry) : TfsInodeDirEntry :=
  ⟨entry.name, entry.inodeIdx.map π⟩

def TfsInodeDir.relabel (π : Nat → Nat) (self : TfsInodeDir) : TfsInodeDir :=
  ⟨self.entries.map (TfsInodeDirEntry.relabel π)⟩

/-- The inode with other numbers in its entries. -/
def TfsInode.relabel (π : Nat → Nat) : TfsInode → TfsInode
  | .none => .none
  | .file => .file
  | .dir d => .dir (d.relabel π)

@[simp] theorem TfsInode.relabel_none (π : Nat → Nat) : TfsInode.none.relabel π = .none := rfl

@[simp] theorem TfsInode.relabel_dir (π : Nat → Nat) (d : TfsInodeDir) :
    (TfsInode.dir d).relabel π = .dir (d.relabel π) := rfl

@[simp] theorem TfsInode.type_relabel (π : Nat → Nat) (node : TfsInode) :
    (node.relabel π).type = node.type := by
  cases node <;> rfl

@[simp] theorem relabel_tfsInodeInit (π : Nat → Nat) (type : TfsInodeType) :
    (tfsInodeInit type).relabel π = tfsInodeInit type := by
  cases type <;> rfl

def TfsInodeDirAddEntryError.relabel (π : Nat → Nat) :
    TfsInodeDirAddEntryError → TfsInodeDirAddEntryError
  | .emptyName => .emptyName
  | .duplicateName idx dirIdx => .duplicateName (π idx) dirIdx

def TfsInodeDirRenameError.relabel (π : Nat → Nat) :
    TfsInodeDirRenameError → TfsInodeDirRenameError
  | .notFound => .notFound
  | .emptyName => .emptyName
  | .duplicateName idx dirIdx => .duplicateName (idx.map π) dirIdx

@[simp] theorem TfsInodeDirAddEntryError.kind_relabel (π : Nat → Nat)
    (err : TfsInodeDirAddEntryError) : (err.relabel π).kind = err.kind := by
  cases err <;> rfl

@[simp] theorem TfsInodeDirRenameError.kind_relabel (π : Nat → Nat)
    (err : TfsInodeDirRenameError) : (err.relabel π).kind = err.kind := by
  cases err <;> rfl

/-! ## Directories -/

section Dir

variable {π : Nat → Nat} {d : TfsInodeDir}

/-- Overwriting one entry. -/
theorem relabel_set (entries : List TfsInodeDirEntry) (n : Nat) (entry : TfsInodeDirEntry) :
    (TfsInodeDir.mk (entries.set n entry)).relabel π =
      ⟨(entries.map (TfsInodeDirEntry.relabel π)).set n (entry.relabel π)⟩ := by
  rw [TfsInodeDir.relabel, List.map_set]

theorem search_relabel (d : TfsInodeDir) (name : List CChar) :
    tfsInodeDirSearchByName (d.relabel π) name =
      (tfsInodeDirSearchByName d name).map fun x => (π x.1, x.2) := by
  have hloop : ∀ (entries : List TfsInodeDirEntry) (n : Nat),
      tfsInodeDirSearchByName.loop name (entries.map (TfsInodeDirEntry.relabel π)) n =
        (tfsInodeDirSearchByName.loop name entries n).map fun x => (π x.1, x.2) := by
    intro entries
    induction entries with
    | nil => exact fun _ => rfl
    | cons entry entries ih =>
      intro n
      obtain ⟨ename, idx⟩ := entry
      rw [List.map_cons, TfsInodeDirEntry.relabel, tfsInodeDirSearchByName.loop,
        tfsInodeDirSearchByName.loop]
      cases idx with
      | none => exact ih (n + 1)
      | some idx =>
        dsimp only [Option.map_some]
        split
        · exact ih (n + 1)
        · rfl
  exact hloop d.entries 0

theorem isEmpty_relabel (d : TfsInodeDir) :
    tfsInodeDirIsEmpty (d.relabel π) = tfsInodeDirIsEmpty d := by
  rw [tfsInodeDirIsEmpty, tfsInodeDirIsEmpty, TfsInodeDir.relabel, List.all_map]
  refine congrArg (List.all d.entries) (funext fun entry => ?_)
  simp [TfsInodeDirEntry.relabel]

theorem removeEntry_relabel (d : TfsInodeDir) (dirIdx : Nat) :
    tfsInodeDirRemoveEntryByDirIdx (d.relabel π) dirIdx =
      (tfsInodeDirRemoveEntryByDirIdx d dirIdx).relabel π := by
  rw [tfsInodeDirRemoveEntryByDirIdx, tfsInodeDirRemoveEntryByDirIdx, relabel_set]
  rfl

theorem addEntry_relabel (d : TfsInodeDir) (idx : Nat) (name : List CChar) :
    tfsInodeDirAddEntry (d.relabel π) (π idx) name =
      ((tfsInodeDirAddEntry d idx name).map (TfsInodeDir.relabel π)).mapError
        (TfsInodeDirAddEntryError.relabel π) := by
  have hloop : ∀ (entries : List TfsInodeDirEntry) (n : Nat) (emptyIdx : Option Nat),
      tfsInodeDirAddEntry.loop name (entries.map (TfsInodeDirEntry.relabel π)) n emptyIdx =
        (tfsInodeDirAddEntry.loop name entries n emptyIdx).mapError
          (TfsInodeDirAddEntryError.relabel π) := by
    intro entries
    induction entries with
    | nil => exact fun _ _ => rfl
    | cons entry entries ih =>
      intro n emptyIdx
      obtain ⟨ename, eidx⟩ := entry
      rw [List.map_cons, TfsInodeDirEntry.relabel, tfsInodeDirAddEntry.loop,
        tfsInodeDirAddEntry.loop]
      cases eidx with
      | none => exact ih _ _
      | some eidx =>
        dsimp only [Option.map_some]
        split
        · rfl
        · exact ih _ _
  have hcapacity : (d.relabel π).capacity = d.capacity := List.length_map _
  rw [tfsInodeDirAddEntry, tfsInodeDirAddEntry]
  split
  · rfl
  rw [show (d.relabel π).entries = d.entries.map (TfsInodeDirEntry.relabel π) from rfl, hloop,
    hcapacity]
  cases tfsInodeDirAddEntry.loop name d.entries 0 none with
  | error err => rfl
  | ok found =>
    cases found with
    | some n => exact congrArg Except.ok (relabel_set d.entries n ⟨name, some idx⟩).symm
    | none =>
      refine congrArg Except.ok ?_
      rw [relabel_set, List.map_append, List.map_replicate]
      rfl

theorem rename_relabel (hπ : Injective π) (d : TfsInodeDir) (idx : Nat) (name : List CChar) :
    tfsInodeDirRename (d.relabel π) (π idx) name =
      ((tfsInodeDirRename d idx name).map (TfsInodeDir.relabel π)).mapError
        (TfsInodeDirRenameError.relabel π) := by
  have hloop : ∀ (entries : List TfsInodeDirEntry) (n : Nat) (dirIdx : Option Nat),
      tfsInodeDirRename.loop (d.relabel π) (π idx) name
          (entries.map (TfsInodeDirEntry.relabel π)) n dirIdx =
        ((tfsInodeDirRename.loop d idx name entries n dirIdx).map (TfsInodeDir.relabel π)).mapError
          (TfsInodeDirRenameError.relabel π) := by
    intro entries
    induction entries with
    | nil =>
      intro n dirIdx
      cases dirIdx with
      | none => rfl
      | some k => exact congrArg Except.ok (relabel_set d.entries k ⟨name, some idx⟩).symm
    | cons entry entries ih =>
      intro n dirIdx
      obtain ⟨ename, eidx⟩ := entry
      have hidx : eidx.map π = some (π idx) ↔ eidx = some idx := by
        rw [show some (π idx) = (some idx).map π from rfl, (Option.map_injective hπ).eq_iff]
      rw [List.map_cons, TfsInodeDirEntry.relabel, tfsInodeDirRename.loop, tfsInodeDirRename.loop]
      simp only [hidx]
      split
      · split
        · rfl
        · exact ih _ _
      · split
        · rfl
        · exact ih _ _
  exact hloop d.entries 0 none

end Dir

/-- The numbers in the entries are all that matters. -/
theorem relabel_congr {π ρ : Nat → Nat} {node : TfsInode}
    (h : ∀ d, node = .dir d → ∀ name j, (name, j) ∈ d.children → π j = ρ j) :
    node.relabel π = node.relabel ρ := by
  cases node with
  | none => rfl
  | file => rfl
  | dir d =>
    refine congrArg (fun entries => TfsInode.dir ⟨entries⟩) (List.map_congr_left fun entry he => ?_)
    obtain ⟨name, idx⟩ := entry
    cases idx with
    | none => rfl
    | some j =>
      have hj := h d rfl name j (TfsInodeDir.mem_children_iff.mpr he)
      rw [TfsInodeDirEntry.relabel, TfsInodeDirEntry.relabel, Option.map_some, Option.map_some, hj]

theorem TfsInode.relabel_id (node : TfsInode) : node.relabel id = node := by
  cases node with
  | none => rfl
  | file => rfl
  | dir d =>
    refine congrArg (fun entries => TfsInode.dir ⟨entries⟩) ?_
    conv_rhs => rw [← List.map_id d.entries]
    refine List.map_congr_left fun entry _ => ?_
    rw [TfsInodeDirEntry.relabel, Option.map_id]
    rfl

/-! ## Trees -/

/-- **One tree with two numberings**; the root has the same number in both. -/
structure Relabels (π : Equiv.Perm Nat) (T U : Tree) : Prop where
  root : π 0 = 0
  node : ∀ i, U (π i) = (T i).relabel π

/-- **One effect with two numberings.** -/
structure Effect.Relabels (π : Equiv.Perm Nat) (e f : Effect) : Prop where
  outcome : f.outcome = e.outcome.map (Option.map π)
  tree : TecnicoFs.Relabels π e.tree f.tree
  leak : f.leak = e.leak.map fun x => (π x.1, x.2)

namespace Relabels

variable {π : Equiv.Perm Nat} {T U : Tree} (h : Relabels π T U)

include h

theorem update (i : Nat) (node : TfsInode) :
    Relabels π (update T i node) (update U (π i) (node.relabel π)) where
  root := h.root
  node j := by
    by_cases hj : j = i
    · rw [hj, update_self, update_self]
    · rw [update_of_ne hj, update_of_ne (π.injective.ne hj), h.node]

theorem type_eq (i : Nat) : (U (π i)).type = (T i).type := by
  rw [h.node, TfsInode.type_relabel]

theorem dir_eq {i : Nat} {d : TfsInodeDir} (hd : T i = .dir d) : U (π i) = .dir (d.relabel π) := by
  rw [h.node, hd, TfsInode.relabel_dir]

theorem live_iff (i : Nat) : U (π i) ≠ .none ↔ T i ≠ .none := by
  rw [Ne, ← TfsInode.type_eq_none_iff, h.type_eq, TfsInode.type_eq_none_iff]

theorem locate (i : Nat) (cs : List (List CChar)) :
    locate U (π i) cs = (locate T i cs).map π := by
  induction cs generalizing i with
  | nil => rfl
  | cons c cs ih =>
    by_cases hdir : (T i).type = .dir
    · obtain ⟨d, hd⟩ := TfsInode.type_eq_dir_iff.mp hdir
      rw [locate_cons_of_dir hd, locate_cons_of_dir (h.dir_eq hd), search_relabel]
      cases tfsInodeDirSearchByName d c with
      | none => rfl
      | some x => exact ih x.1
    · rw [locate_cons_of_not_dir hdir, locate_cons_of_not_dir (h.type_eq i ▸ hdir)]
      rfl

theorem locate_root (cs : List (List CChar)) :
    TecnicoFs.locate U 0 cs = (TecnicoFs.locate T 0 cs).map π := by
  have hroot := h.locate 0 cs
  rwa [h.root] at hroot

theorem dirAt_iff (path : List (List CChar)) : DirAt U path ↔ DirAt T path := by
  rw [DirAt, DirAt, h.locate_root]
  cases TecnicoFs.locate T 0 path with
  | error kind =>
    constructor
    · rintro ⟨i, hi, -⟩
      cases hi
    · rintro ⟨i, hi, -⟩
      cases hi
  | ok j =>
    constructor
    · rintro ⟨i, hi, htype⟩
      obtain rfl := Except.ok.inj hi
      exact ⟨j, rfl, h.type_eq j ▸ htype⟩
    · rintro ⟨i, hi, htype⟩
      obtain rfl := Except.ok.inj hi
      exact ⟨π j, rfl, (h.type_eq j).trans htype⟩

/-- The same locks are requested. -/
theorem requests (plan : List Request) :
    requests U plan = (requests T plan).map fun x => (π x.1, x.2) := by
  induction plan with
  | nil => rfl
  | cons r rs ih =>
    rw [TecnicoFs.requests, TecnicoFs.requests, h.locate_root]
    cases TecnicoFs.locate T 0 r.path with
    | error kind => rfl
    | ok i =>
      simp only [Except.map, h.dirAt_iff, ih]
      split
      · rfl
      · rfl

/-! ## Calls -/

theorem fail (kind : ErrorKind) : (Effect.fail T kind).Relabels π (.fail U kind) := ⟨rfl, h, rfl⟩

theorem atomicCreate (slot : Nat) (path : TfsPath) (type : TfsInodeType) :
    (atomicCreate T slot path type).Relabels π (atomicCreate U (π slot) path type) := by
  have hlocate := h.locate_root (comps (tfsPathPopLast path).2.str)
  cases hp : TecnicoFs.locate T 0 (comps (tfsPathPopLast path).2.str) with
  | error kind =>
    rw [hp] at hlocate
    rw [TecnicoFs.atomicCreate, TecnicoFs.atomicCreate, hp, hlocate]
    exact h.fail _
  | ok p =>
    rw [hp] at hlocate
    by_cases hdir : (T p).type = .dir
    · obtain ⟨d, hd⟩ := TfsInode.type_eq_dir_iff.mp hdir
      rw [atomicCreate_of_dir hp hd, atomicCreate_of_dir hlocate (h.dir_eq hd), addEntry_relabel]
      cases tfsInodeDirAddEntry d slot (tfsPathPopLast path).1.str with
      | error err =>
        dsimp only [Except.map, Except.mapError]
        rw [TfsInodeDirAddEntryError.kind_relabel]
        exact h.fail _
      | ok d' =>
        have htree := (h.update slot (tfsInodeInit type)).update p (.dir d')
        rw [relabel_tfsInodeInit] at htree
        exact ⟨rfl, htree, rfl⟩
    · rw [atomicCreate_of_not_dir hp hdir, atomicCreate_of_not_dir hlocate (h.type_eq p ▸ hdir)]
      exact h.fail _

theorem nonEmptyDir (i : Nat) : nonEmptyDir (U (π i)) = nonEmptyDir (T i) := by
  rw [h.node]
  cases T i with
  | none => rfl
  | file => rfl
  | dir d => exact congrArg (!·) (isEmpty_relabel d)

theorem atomicRemove (path : TfsPath) :
    (atomicRemove T path).Relabels π (atomicRemove U path) := by
  have hlocate := h.locate_root (comps (tfsPathPopLast path).2.str)
  cases hp : TecnicoFs.locate T 0 (comps (tfsPathPopLast path).2.str) with
  | error kind =>
    rw [hp] at hlocate
    rw [TecnicoFs.atomicRemove, TecnicoFs.atomicRemove, hp, hlocate]
    exact h.fail _
  | ok p =>
    rw [hp] at hlocate
    by_cases hdir : (T p).type = .dir
    · obtain ⟨d, hd⟩ := TfsInode.type_eq_dir_iff.mp hdir
      rw [atomicRemove_of_dir hp hd, atomicRemove_of_dir hlocate (h.dir_eq hd), search_relabel]
      cases tfsInodeDirSearchByName d (tfsPathPopLast path).1.str with
      | none => exact h.fail _
      | some x =>
        dsimp only [Option.map_some]
        rw [h.nonEmptyDir]
        split
        · exact h.fail _
        · rw [removeEntry_relabel]
          exact ⟨rfl, (h.update p (.dir _)).update x.1 .none, rfl⟩
    · rw [atomicRemove_of_not_dir hp hdir, atomicRemove_of_not_dir hlocate (h.type_eq p ▸ hdir)]
      exact h.fail _

theorem atomicFind (path : TfsPath) : (atomicFind T path).Relabels π (atomicFind U path) := by
  rw [TecnicoFs.atomicFind, TecnicoFs.atomicFind, h.locate_root]
  cases TecnicoFs.locate T 0 (comps path.str) with
  | error kind => exact h.fail _
  | ok i => exact ⟨rfl, h, rfl⟩

theorem atomicRename (p : Nat) (origName destName : List CChar) :
    (atomicRename T p origName destName).Relabels π (atomicRename U (π p) origName destName) := by
  by_cases hdir : (T p).type = .dir
  · obtain ⟨d, hd⟩ := TfsInode.type_eq_dir_iff.mp hdir
    rw [atomicRename_of_dir hd, atomicRename_of_dir (h.dir_eq hd), search_relabel]
    cases tfsInodeDirSearchByName d origName with
    | none => exact h.fail _
    | some x =>
      dsimp only [Option.map_some]
      rw [rename_relabel π.injective]
      cases tfsInodeDirRename d x.1 destName with
      | error err =>
        dsimp only [Except.map, Except.mapError]
        rw [TfsInodeDirRenameError.kind_relabel]
        exact h.fail _
      | ok d' => exact ⟨rfl, h.update p (.dir d'), rfl⟩
  · rw [atomicRename_of_not_dir hdir, atomicRename_of_not_dir (h.type_eq p ▸ hdir)]
    exact h.fail _

theorem atomicMoveEntry (p q : Nat) (origName destName : List CChar) (access : TfsRwLockAccess) :
    (atomicMoveEntry T p q origName destName access).Relabels π
      (atomicMoveEntry U (π p) (π q) origName destName access) := by
  by_cases hp : (T p).type = .dir
  swap
  · rw [atomicMoveEntry_of_orig_not_dir hp, atomicMoveEntry_of_orig_not_dir (h.type_eq p ▸ hp)]
    exact h.fail _
  obtain ⟨d, hd⟩ := TfsInode.type_eq_dir_iff.mp hp
  by_cases hq : (T q).type = .dir
  swap
  · rw [atomicMoveEntry_of_dest_not_dir hd hq,
      atomicMoveEntry_of_dest_not_dir (h.dir_eq hd) (h.type_eq q ▸ hq)]
    exact h.fail _
  obtain ⟨e, he⟩ := TfsInode.type_eq_dir_iff.mp hq
  rw [atomicMoveEntry_of_dirs hd he, atomicMoveEntry_of_dirs (h.dir_eq hd) (h.dir_eq he),
    search_relabel]
  cases tfsInodeDirSearchByName d origName with
  | none => exact h.fail _
  | some x =>
    dsimp only [Option.map_some]
    rw [addEntry_relabel]
    cases tfsInodeDirAddEntry e x.1 destName with
    | error err =>
      dsimp only [Except.map, Except.mapError]
      rw [TfsInodeDirAddEntryError.kind_relabel]
      exact ⟨rfl, h, rfl⟩
    | ok e' =>
      dsimp only [Except.map, Except.mapError]
      rw [removeEntry_relabel]
      exact ⟨rfl, (h.update q (.dir e')).update p (.dir _), rfl⟩

theorem atomicMoveFrom (a : Nat) (s : MoveSplit) (access : TfsRwLockAccess) :
    (atomicMoveFrom T a s access).Relabels π (atomicMoveFrom U (π a) s access) := by
  rw [TecnicoFs.atomicMoveFrom, TecnicoFs.atomicMoveFrom, h.type_eq]
  split
  · exact ⟨rfl, h, rfl⟩
  split
  · exact h.fail _
  split
  · exact h.atomicRename a _ _
  rw [h.locate, h.locate]
  cases TecnicoFs.locate T a (comps s.origParent.str) with
  | ok p =>
    cases TecnicoFs.locate T a (comps s.destParent.str) with
    | ok q => exact h.atomicMoveEntry p q _ _ access
    | error kind => exact h.fail _
  | error kind =>
    cases TecnicoFs.locate T a (comps s.destParent.str) with
    | ok q => exact h.fail _
    | error kind' =>
      dsimp only [Except.map]
      split
      · exact h.fail _
      · exact h.fail _

theorem atomicMove (origPath destPath : TfsPath) (access : TfsRwLockAccess) :
    (atomicMove T origPath destPath access).Relabels π
      (atomicMove U origPath destPath access) := by
  rw [TecnicoFs.atomicMove, TecnicoFs.atomicMove]
  split
  · exact h.fail _
  split
  · exact h.fail _
  rw [h.locate_root]
  cases TecnicoFs.locate T 0 (comps (moveSplit origPath destPath).ancestor.str) with
  | error kind => exact h.fail _
  | ok a => exact h.atomicMoveFrom a _ access

/-- **The numbering is of no account**: all calls do the same. -/
theorem atomic (slot : Nat) (c : Call) :
    (atomic T slot c).Relabels π (atomic U (π slot) c) := by
  cases c with
  | create path type => exact h.atomicCreate slot path type
  | remove path => exact h.atomicRemove path
  | find path access => exact h.atomicFind path
  | move origPath destPath access => exact h.atomicMove origPath destPath access

/-- **A free number can be exchanged for any other one.** -/
theorem swap {capacity : Nat} (hT : TreeInv capacity T) {s s' : Nat} (hs : T s = .none)
    (hs' : U s' = .none) : Relabels (π.trans (Equiv.swap (π s) s')) T U ∧
      (∀ i, T i ≠ .none → (π.trans (Equiv.swap (π s) s')) i = π i) ∧
      (π.trans (Equiv.swap (π s) s')) s = s' := by
  have hlive : ∀ i, T i ≠ .none → Equiv.swap (π s) s' (π i) = π i := by
    intro i hi
    refine Equiv.swap_apply_of_ne_of_ne (π.injective.ne ?_) ?_
    · rintro rfl
      exact hi hs
    · rintro heq
      exact (h.live_iff i).mpr hi (heq ▸ hs')
  refine ⟨⟨?_, fun i => ?_⟩, hlive, Equiv.swap_apply_left ..⟩
  · rw [Equiv.trans_apply, hlive 0 hT.tree.live_root, h.root]
  rw [Equiv.trans_apply]
  by_cases hi : T i = .none
  · have hnone : ∀ j, T j = .none → U (π j) = .none := fun j hj => by
      rw [h.node, hj, TfsInode.relabel_none]
    rw [hi, TfsInode.relabel_none]
    rcases eq_or_ne (π i) (π s) with heq | hne
    · rw [heq, Equiv.swap_apply_left, hs']
    rcases eq_or_ne (π i) s' with heq | hne'
    · rw [heq, Equiv.swap_apply_right, hnone s hs]
    · rw [Equiv.swap_apply_of_ne_of_ne hne hne', hnone i hi]
  · rw [hlive i hi, h.node]
    refine relabel_congr fun d hd name j hj => ?_
    exact (hlive j (hT.live_of_child ⟨d, hd, hj⟩)).symm

end Relabels

end TecnicoFs
