import TecnicoFs.Inode.Dir
import Mathlib.Logic.Function.Basic

/-!
# A directory is a finite map

What a directory is for: it maps names to inodes.  The array of entries `Represents` such a
map if its occupied entries are the pairs of the map, no name and no inode occurs twice, and
its free entries have an empty name.  The last part is what keeps a rename, which looks at
the names of free entries as well, from refusing a name that is not taken.

Every operation keeps this and answers as the operation on the map does
(`DirOp.run_represents`), and so does any sequence of operations on a new directory.
-/

namespace TecnicoFs

open Function

/-- A map from names to inodes. -/
abbrev NameMap := List CChar → Option Nat

/-- The list consists of the pairs of the map.  No name and no inode occurs twice, and no name
is empty. -/
structure Pairs (l : List (List CChar × Nat)) (f : NameMap) : Prop where
  names : (l.map Prod.fst).Nodup
  inodes : (l.map Prod.snd).Nodup
  named : ∀ x ∈ l, x.1 ≠ []
  mem : ∀ name idx, (name, idx) ∈ l ↔ f name = some idx

/-- **The array of entries stands for the map.** -/
structure Represents (dir : TfsInodeDir) (f : NameMap) : Prop extends Pairs dir.children f where
  freeBlank : dir.FreeBlank

/-! ## Operations -/

/-- An operation on a directory.  An entry is removed at the position where the search found
its name. -/
inductive DirOp where
  | addEntry (idx : Nat) (name : List CChar)
  | removeEntry (name : List CChar)
  | rename (idx : Nat) (newName : List CChar)

/-- What the operation does to the array, and whether it succeeds. -/
def DirOp.run (self : TfsInodeDir) : DirOp → Bool × TfsInodeDir
  | .addEntry idx name =>
      match tfsInodeDirAddEntry self idx name with
      | .error _ => (false, self)
      | .ok self' => (true, self')
  | .removeEntry name =>
      match tfsInodeDirSearchByName self name with
      | none => (false, self)
      | some (_, dirIdx) => (true, tfsInodeDirRemoveEntryByDirIdx self dirIdx)
  | .rename idx newName =>
      match tfsInodeDirRename self idx newName with
      | .error _ => (false, self)
      | .ok self' => (true, self')

/-- What the operation is to do to the map. -/
def DirOp.apply (f : NameMap) : DirOp → Bool × NameMap
  | .addEntry idx name =>
      if name = [] ∨ f name ≠ none then (false, f) else (true, update f name (some idx))
  | .removeEntry name => if f name = none then (false, f) else (true, update f name none)
  | .rename idx newName =>
      if f newName ≠ none ∧ f newName ≠ some idx then (false, f)
      else (true, fun name =>
        if name = newName then some idx else if f name = some idx then none else f name)

/-- The operation may be called: what is added is not there yet, and what is renamed is. -/
def DirOp.Allowed (f : NameMap) : DirOp → Prop
  | .addEntry idx name => NulFree name ∧ ∀ name', f name' ≠ some idx
  | .removeEntry name => NulFree name
  | .rename idx newName => NulFree newName ∧ newName ≠ [] ∧ ∃ name, f name = some idx

/-- Operations one after the other, and which of them succeeded. -/
def runDirOps : List DirOp → TfsInodeDir → List Bool × TfsInodeDir
  | [], self => ([], self)
  | op :: ops, self =>
      ((op.run self).1 :: (runDirOps ops (op.run self).2).1, (runDirOps ops (op.run self).2).2)

def applyDirOps : List DirOp → NameMap → List Bool × NameMap
  | [], f => ([], f)
  | op :: ops, f =>
      ((op.apply f).1 :: (applyDirOps ops (op.apply f).2).1, (applyDirOps ops (op.apply f).2).2)

/-- Each operation may be called when it is called. -/
def AllowedDirOps : List DirOp → NameMap → Prop
  | [], _ => True
  | op :: ops, f => op.Allowed f ∧ AllowedDirOps ops (op.apply f).2

/-! ## Lists of pairs -/

namespace Pairs

variable {l l' : List (List CChar × Nat)} {f : NameMap} {name name' : List CChar} {idx : Nat}
  (h : Pairs l f)

include h

theorem perm (hperm : l'.Perm l) : Pairs l' f where
  names := (hperm.map Prod.fst).nodup_iff.mpr h.names
  inodes := (hperm.map Prod.snd).nodup_iff.mpr h.inodes
  named x hx := h.named x (hperm.mem_iff.mp hx)
  mem name idx := hperm.mem_iff.trans (h.mem name idx)

theorem mem_names_iff : name ∈ l.map Prod.fst ↔ f name ≠ none := by
  rw [List.mem_map]
  constructor
  · rintro ⟨⟨name', idx⟩, hmem, rfl⟩
    rw [(h.mem _ _).mp hmem]
    simp
  · intro hne
    obtain ⟨idx, hidx⟩ := Option.ne_none_iff_exists'.mp hne
    exact ⟨(name, idx), (h.mem _ _).mpr hidx, rfl⟩

/-- An inode has one name. -/
theorem name_unique (hidx : f name = some idx) (hidx' : f name' = some idx) : name = name' :=
  (Prod.mk.inj (List.inj_on_of_nodup_map h.inodes ((h.mem _ _).mpr hidx)
    ((h.mem _ _).mpr hidx') rfl)).1

/-- A pair more. -/
theorem cons (hne : name ≠ []) (hname : f name = none) (hidx : ∀ name', f name' ≠ some idx) :
    Pairs ((name, idx) :: l) (update f name (some idx)) where
  names := by
    rw [List.map_cons, List.nodup_cons]
    exact ⟨fun hmem => h.mem_names_iff.mp hmem hname, h.names⟩
  inodes := by
    rw [List.map_cons, List.nodup_cons]
    refine ⟨fun hmem => ?_, h.inodes⟩
    obtain ⟨⟨name', idx'⟩, hx, heq⟩ := List.mem_map.mp hmem
    obtain rfl : idx' = idx := heq
    exact hidx name' ((h.mem _ _).mp hx)
  named := List.forall_mem_cons.mpr ⟨hne, h.named⟩
  mem name' idx' := by
    rw [List.mem_cons, Prod.mk.injEq, h.mem]
    by_cases heq : name' = name
    · subst heq
      simp [hname, eq_comm]
    · simp [heq]

omit h in
/-- A pair less. -/
theorem of_cons (h : Pairs ((name, idx) :: l) f) : Pairs l (update f name none) := by
  have hnames := h.names
  have hinodes := h.inodes
  rw [List.map_cons, List.nodup_cons] at hnames hinodes
  refine ⟨hnames.2, hinodes.2, fun x hx => h.named x (List.mem_cons_of_mem _ hx),
    fun name' idx' => ?_⟩
  by_cases heq : name' = name
  · subst heq
    rw [update_self]
    exact iff_of_false (fun hx => hnames.1 (List.mem_map.mpr ⟨(name', idx'), hx, rfl⟩)) (by simp)
  · rw [update_of_ne heq, ← h.mem, List.mem_cons, Prod.mk.injEq]
    simp [heq]

/-- Another name for an inode. -/
theorem rename (hname : f name = some idx) :
    (fun x => if x = name' then some idx else if f x = some idx then none else f x) =
      update (update f name none) name' (some idx) := by
  funext x
  by_cases heq : x = name'
  · rw [if_pos heq, heq, update_self]
  · rw [if_neg heq, update_of_ne heq]
    by_cases heq' : x = name
    · rw [heq', if_pos hname, update_self]
    · rw [if_neg fun hf => heq' (h.name_unique hf hname), update_of_ne heq']

end Pairs

/-! ## What the array answers -/

theorem represents_tfsInodeDirNew : Represents tfsInodeDirNew fun _ => none where
  names := List.nodup_nil
  inodes := List.nodup_nil
  named := by simp
  mem := by simp
  freeBlank := by simp [TfsInodeDir.FreeBlank, tfsInodeDirNew]

section Search

variable {self : TfsInodeDir} {f : NameMap} {name : List CChar} {idx : Nat}
  (h : Represents self f)

include h

/-- **The search is the map.** -/
theorem Represents.search_iff (hname : NulFree name) :
    (∃ dirIdx, tfsInodeDirSearchByName self name = some (idx, dirIdx)) ↔ f name = some idx := by
  rw [← h.mem]
  exact ⟨fun ⟨_, hs⟩ => mem_children_of_search hname hs, search_of_mem_children h.names hname⟩

theorem Represents.search_eq_none_iff (hname : NulFree name) :
    tfsInodeDirSearchByName self name = none ↔ f name = none := by
  rw [tfsInodeDirSearchByName_eq_none_iff hname, TfsInodeDir.names, h.mem_names_iff, not_not]

theorem Represents.isEmpty_iff : tfsInodeDirIsEmpty self = true ↔ ∀ name, f name = none := by
  rw [tfsInodeDirIsEmpty_iff, List.eq_nil_iff_forall_not_mem]
  constructor
  · intro hno name
    cases hf : f name with
    | none => rfl
    | some idx => exact absurd ((h.mem _ _).mpr hf) (hno _)
  · rintro hno ⟨name, idx⟩ hmem
    have hf := (h.mem _ _).mp hmem
    rw [hno] at hf
    cases hf

end Search

/-! ## Every operation keeps to the map -/

section Run

variable {self : TfsInodeDir} {f : NameMap}

theorem addEntry_represents (h : Represents self f) {idx : Nat} {name : List CChar}
    (hallowed : (DirOp.addEntry idx name).Allowed f) :
    ((DirOp.addEntry idx name).run self).1 = ((DirOp.addEntry idx name).apply f).1 ∧
    Represents ((DirOp.addEntry idx name).run self).2 ((DirOp.addEntry idx name).apply f).2 := by
  obtain ⟨hname, hidx⟩ := hallowed
  rw [DirOp.run, DirOp.apply]
  rcases tfsInodeDirAddEntry_spec self idx hname with ⟨err, herr, hor⟩ |
    ⟨self', hok, hne, hno, hperm, hblank⟩
  · rw [herr, if_pos (hor.imp id h.mem_names_iff.mp)]
    exact ⟨rfl, h⟩
  · have hnone : f name = none := not_not.mp fun hf => hno (h.mem_names_iff.mpr hf)
    rw [hok, if_neg (by simp [hne, hnone])]
    exact ⟨rfl, (h.cons hne hnone hidx).perm hperm, hblank h.freeBlank⟩

theorem removeEntry_represents (h : Represents self f) {name : List CChar} (hname : NulFree name) :
    ((DirOp.removeEntry name).run self).1 = ((DirOp.removeEntry name).apply f).1 ∧
    Represents ((DirOp.removeEntry name).run self).2 ((DirOp.removeEntry name).apply f).2 := by
  rw [DirOp.run, DirOp.apply]
  cases hs : tfsInodeDirSearchByName self name with
  | none =>
    rw [if_pos ((h.search_eq_none_iff hname).mp hs)]
    exact ⟨rfl, h⟩
  | some x =>
    obtain ⟨idx, dirIdx⟩ := x
    have hf := (h.search_iff hname).mp ⟨dirIdx, hs⟩
    rw [if_neg (by simp [hf])]
    have hperm := children_tfsInodeDirRemoveEntryByDirIdx
      (tfsInodeDirSearchByName_eq_some hname hs)
    exact ⟨rfl, (h.perm hperm.symm).of_cons,
      freeBlank_tfsInodeDirRemoveEntryByDirIdx h.freeBlank dirIdx⟩

theorem rename_represents (h : Represents self f) {idx : Nat} {newName : List CChar}
    (hallowed : (DirOp.rename idx newName).Allowed f) :
    ((DirOp.rename idx newName).run self).1 = ((DirOp.rename idx newName).apply f).1 ∧
    Represents ((DirOp.rename idx newName).run self).2 ((DirOp.rename idx newName).apply f).2 := by
  obtain ⟨hnul, hne, oldName, hold⟩ := hallowed
  rw [DirOp.run, DirOp.apply]
  rcases tfsInodeDirRename_spec self hnul ((h.mem _ _).mpr hold)
    (fun name hmem => h.name_unique ((h.mem _ _).mp hmem) hold) with
    ⟨err, herr, entry, hentry, hidx, rfl⟩ | ⟨hok, rfl⟩ |
      ⟨self', hok, hno, ⟨rest, hperm, hperm'⟩, hblank⟩
  · -- an entry that has the name is not free, as free entries have an empty name
    obtain ⟨name, eidx⟩ := entry
    have hsome : eidx ≠ none := fun hnone => hne (h.freeBlank _ hentry hnone)
    obtain ⟨idx', rfl⟩ := Option.ne_none_iff_exists'.mp hsome
    have hf := (h.mem _ _).mp (TfsInodeDir.mem_children_iff.mpr hentry)
    rw [herr, if_pos (by rw [hf]; exact ⟨by simp, hidx⟩)]
    exact ⟨rfl, h⟩
  · rw [hok, if_neg (by simp [hold]), h.rename hold, update_idem, update_eq_self_iff.mpr hold.symm]
    exact ⟨rfl, h⟩
  · have hnone : f newName = none := by
      cases hf : f newName with
      | none => rfl
      | some idx' =>
        exact absurd rfl (hno _ (TfsInodeDir.mem_children_iff.mp ((h.mem _ _).mpr hf)))
    rw [hok, if_neg (by simp [hnone]), h.rename hold]
    -- the pair is taken out and put back under its new name
    have herase := (h.perm hperm.symm).of_cons
    refine ⟨rfl, (herase.cons hne ?_ fun name hf => ?_).perm hperm', hblank h.freeBlank⟩
    · by_cases heq : newName = oldName <;> simp [heq, hnone]
    · by_cases heq : name = oldName
      · simp [heq] at hf
      · rw [update_of_ne heq] at hf
        exact heq (h.name_unique hf hold)

/-- **Every operation answers as the map does and keeps standing for it.** -/
theorem DirOp.run_represents {op : DirOp} (h : Represents self f) (hallowed : op.Allowed f) :
    (op.run self).1 = (op.apply f).1 ∧ Represents (op.run self).2 (op.apply f).2 := by
  cases op with
  | addEntry idx name => exact addEntry_represents h hallowed
  | removeEntry name => exact removeEntry_represents h hallowed
  | rename idx newName => exact rename_represents h hallowed

/-- An operation that fails leaves the array as it is. -/
theorem DirOp.run_of_fail {op : DirOp} (hfail : (op.run self).1 = false) :
    (op.run self).2 = self := by
  cases op with
  | addEntry idx name =>
    rw [DirOp.run] at hfail ⊢
    split at hfail
    · rfl
    · cases hfail
  | removeEntry name =>
    rw [DirOp.run] at hfail ⊢
    split at hfail
    · rfl
    · cases hfail
  | rename idx newName =>
    rw [DirOp.run] at hfail ⊢
    split at hfail
    · rfl
    · cases hfail

theorem runDirOps_represents {ops : List DirOp} (h : Represents self f)
    (hallowed : AllowedDirOps ops f) : (runDirOps ops self).1 = (applyDirOps ops f).1 ∧
      Represents (runDirOps ops self).2 (applyDirOps ops f).2 := by
  induction ops generalizing self f with
  | nil => exact ⟨rfl, h⟩
  | cons op ops ih =>
    obtain ⟨hop, hops⟩ := hallowed
    obtain ⟨hanswer, hrep⟩ := DirOp.run_represents h hop
    obtain ⟨hanswers, hrep'⟩ := ih hrep hops
    exact ⟨congrArg₂ List.cons hanswer hanswers, hrep'⟩

end Run

/-- **A directory is a finite map from names to inodes.**  After any operations on a new
directory, each called when it may be, the array stands for the map that the operations on
the map build, and they have answered alike.  The search finds exactly the names of the map,
with their inode and a position that holds them; the directory is empty exactly when the map
is; and the next operation fails exactly when the one on the map does, and then leaves the
array as it is. -/
theorem directory_is_map {ops : List DirOp} (hallowed : AllowedDirOps ops fun _ => none) :
    (runDirOps ops tfsInodeDirNew).1 = (applyDirOps ops fun _ => none).1 ∧
    Represents (runDirOps ops tfsInodeDirNew).2 (applyDirOps ops fun _ => none).2 ∧
    (∀ name, NulFree name → ∀ idx,
      ((∃ dirIdx, tfsInodeDirSearchByName (runDirOps ops tfsInodeDirNew).2 name =
        some (idx, dirIdx)) ↔ (applyDirOps ops fun _ => none).2 name = some idx) ∧
      ∀ dirIdx, tfsInodeDirSearchByName (runDirOps ops tfsInodeDirNew).2 name =
        some (idx, dirIdx) →
        (runDirOps ops tfsInodeDirNew).2.entries[dirIdx]? = some ⟨name, some idx⟩) ∧
    (tfsInodeDirIsEmpty (runDirOps ops tfsInodeDirNew).2 = true ↔
      ∀ name, (applyDirOps ops fun _ => none).2 name = none) ∧
    ∀ op : DirOp, op.Allowed (applyDirOps ops fun _ => none).2 →
      (op.run (runDirOps ops tfsInodeDirNew).2).1 =
        (op.apply (applyDirOps ops fun _ => none).2).1 ∧
      ((op.run (runDirOps ops tfsInodeDirNew).2).1 = false →
        (op.run (runDirOps ops tfsInodeDirNew).2).2 = (runDirOps ops tfsInodeDirNew).2) := by
  obtain ⟨hanswers, hrep⟩ := runDirOps_represents represents_tfsInodeDirNew hallowed
  exact ⟨hanswers, hrep, fun name hname idx => ⟨hrep.search_iff hname,
    fun dirIdx hs => tfsInodeDirSearchByName_eq_some hname hs⟩, hrep.isEmpty_iff,
    fun op hop => ⟨(DirOp.run_represents hrep hop).1, DirOp.run_of_fail⟩⟩

/-- Two entries, the first of which gives its name to the other. -/
def handoverOps : List DirOp :=
  [.addEntry 1 [97], .addEntry 2 [98], .removeEntry [97], .rename 2 [97]]

theorem directory_is_map_handover :
    AllowedDirOps handoverOps (fun _ => none) ∧
    Represents (runDirOps handoverOps tfsInodeDirNew).2
      (applyDirOps handoverOps fun _ => none).2 := by
  have hallowed : AllowedDirOps handoverOps fun _ => none := by
    have hfirst : ((DirOp.addEntry 1 [97]).apply fun _ => none).2 =
        update (fun _ => none) [97] (some 1) := by simp [DirOp.apply]
    refine ⟨⟨by decide, by simp⟩, ⟨by decide, fun name' => ?_⟩, ?_,
      ⟨by decide, by simp, ?_⟩, trivial⟩
    · rw [hfirst, update_apply]
      split_ifs <;> simp
    · exact show NulFree [97] by decide
    · exact ⟨[98], by simp [DirOp.apply]⟩
  exact ⟨hallowed, (directory_is_map hallowed).2.1⟩

end TecnicoFs
