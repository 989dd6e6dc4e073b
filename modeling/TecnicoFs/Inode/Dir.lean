import TecnicoFs.Util
import Mathlib.Data.List.Perm.Basic
import Mathlib.Data.List.Nodup

/-!
# Directories

`dir.c`.  A directory is an array of entries; an entry whose index is
`TFS_INODE_IDX_NONE` is free, and the model writes that index as `none`.  Entries are
found by scanning the array from its start.

What a directory means is the list of its `children`, the name and the inode of every
occupied entry.  Each operation is described by what it does to that list, up to the
order of its members: the position of an entry in the array is of no account.
-/

namespace TecnicoFs

/-! ## The source -/

/-- A directory entry, a named link to an inode. -/
structure TfsInodeDirEntry where
  name : List CChar
  /-- `none` is `TFS_INODE_IDX_NONE`. -/
  inodeIdx : Option Nat
  deriving DecidableEq, Repr

/-- An inode directory.  The capacity is the length of the list. -/
structure TfsInodeDir where
  entries : List TfsInodeDirEntry
  deriving DecidableEq, Repr

/-- Error of `tfs_inode_dir_add_entry`. -/
inductive TfsInodeDirAddEntryError where
  | emptyName
  | duplicateName (idx : Nat) (dirIdx : Nat)
  deriving DecidableEq, Repr

/-- Error of `tfs_inode_dir_rename`.  The entry with the same name may be a free one. -/
inductive TfsInodeDirRenameError where
  | notFound
  | emptyName
  | duplicateName (idx : Option Nat) (dirIdx : Nat)
  deriving DecidableEq, Repr

/-- What an entry is set to when it is destroyed or first allocated. -/
def TfsInodeDirEntry.free : TfsInodeDirEntry := ⟨[], none⟩

/-- Creates a new, empty, inode directory. -/
def tfsInodeDirNew : TfsInodeDir := ⟨[]⟩

/-- Allocated entries. -/
def TfsInodeDir.capacity (self : TfsInodeDir) : Nat := self.entries.length

/-- Checks if a directory is empty. -/
def tfsInodeDirIsEmpty (self : TfsInodeDir) : Bool :=
  self.entries.all fun entry => entry.inodeIdx.isNone

/-- Searches for an entry with a given name; the inode index and the directory index. -/
def tfsInodeDirSearchByName (self : TfsInodeDir) (name : List CChar) : Option (Nat × Nat) :=
  loop self.entries 0
where
  loop : List TfsInodeDirEntry → Nat → Option (Nat × Nat)
    | [], _ => none
    | entry :: entries, n =>
        match entry.inodeIdx with
        | none => loop entries (n + 1)
        | some idx =>
            if !tfsStrEq name entry.name then loop entries (n + 1) else some (idx, n)

/-- Removes an entry given its directory index. -/
def tfsInodeDirRemoveEntryByDirIdx (self : TfsInodeDir) (dirIdx : Nat) : TfsInodeDir :=
  ⟨self.entries.set dirIdx .free⟩

/-- Renames a file given its inode index. -/
def tfsInodeDirRename (self : TfsInodeDir) (idx : Nat) (newName : List CChar) :
    Except TfsInodeDirRenameError TfsInodeDir :=
  loop self.entries 0 none
where
  loop : List TfsInodeDirEntry → Nat → Option Nat → Except TfsInodeDirRenameError TfsInodeDir
    | [], _, none => .error .notFound
    | [], _, some dirIdx => .ok ⟨self.entries.set dirIdx ⟨newName, some idx⟩⟩
    | entry :: entries, n, dirIdx =>
        if entry.inodeIdx = some idx then
          if tfsStrEq entry.name newName then .ok self
          else loop entries (n + 1) (some n)
        else if tfsStrEq newName entry.name then
          .error (.duplicateName entry.inodeIdx n)
        else loop entries (n + 1) dirIdx

/-- Adds an entry given its index and name. -/
def tfsInodeDirAddEntry (self : TfsInodeDir) (idx : Nat) (name : List CChar) :
    Except TfsInodeDirAddEntryError TfsInodeDir :=
  if name.length = 0 then .error .emptyName
  else
    match loop self.entries 0 none with
    | .error err => .error err
    | .ok (some emptyIdx) => .ok ⟨self.entries.set emptyIdx ⟨name, some idx⟩⟩
    | .ok none =>
        -- the first new entry is the one written below, the others are set as empty
        let newCapacity := tfsMaxSizeT 4 (2 * self.capacity)
        let newEntries :=
          self.entries ++ List.replicate (newCapacity - self.capacity) TfsInodeDirEntry.free
        .ok ⟨newEntries.set self.capacity ⟨name, some idx⟩⟩
where
  loop : List TfsInodeDirEntry → Nat → Option Nat →
      Except TfsInodeDirAddEntryError (Option Nat)
    | [], _, emptyIdx => .ok emptyIdx
    | entry :: entries, n, emptyIdx =>
        match entry.inodeIdx with
        | none => loop entries (n + 1) (if emptyIdx = none then some n else emptyIdx)
        | some entryIdx =>
            if tfsStrEq name entry.name then .error (.duplicateName entryIdx n)
            else loop entries (n + 1) emptyIdx

/-! ## Children -/

/-- The name and the inode of an occupied entry. -/
def TfsInodeDirEntry.child (entry : TfsInodeDirEntry) : Option (List CChar × Nat) :=
  entry.inodeIdx.map fun idx => (entry.name, idx)

/-- The names and inodes of the occupied entries. -/
def TfsInodeDir.children (self : TfsInodeDir) : List (List CChar × Nat) :=
  self.entries.filterMap TfsInodeDirEntry.child

/-- The names of the occupied entries. -/
def TfsInodeDir.names (self : TfsInodeDir) : List (List CChar) := self.children.map Prod.fst

@[simp] theorem children_tfsInodeDirNew : tfsInodeDirNew.children = [] := rfl

theorem TfsInodeDirEntry.child_eq_some_iff {entry : TfsInodeDirEntry} {name : List CChar}
    {idx : Nat} : entry.child = some (name, idx) ↔ entry = ⟨name, some idx⟩ := by
  obtain ⟨name', idx'⟩ := entry
  cases idx' <;> simp [child]

theorem TfsInodeDir.mem_children_iff {self : TfsInodeDir} {name : List CChar} {idx : Nat} :
    (name, idx) ∈ self.children ↔ ⟨name, some idx⟩ ∈ self.entries := by
  simp [children, TfsInodeDirEntry.child_eq_some_iff]

theorem TfsInodeDir.mem_names {self : TfsInodeDir} {name : List CChar} {idx : Nat}
    (h : (name, idx) ∈ self.children) : name ∈ self.names :=
  List.mem_map_of_mem h

theorem tfsInodeDirIsEmpty_iff {self : TfsInodeDir} :
    tfsInodeDirIsEmpty self = true ↔ self.children = [] := by
  rw [tfsInodeDirIsEmpty, TfsInodeDir.children, List.filterMap_eq_nil_iff, List.all_eq_true]
  simp [TfsInodeDirEntry.child]

/-- Overwriting one entry of the array. -/
theorem children_set {entries : List TfsInodeDirEntry} {n : Nat} {old : TfsInodeDirEntry}
    (h : entries[n]? = some old) (new : TfsInodeDirEntry) :
    ∃ rest, (TfsInodeDir.mk entries).children.Perm (old.child.toList ++ rest) ∧
      (TfsInodeDir.mk (entries.set n new)).children.Perm (new.child.toList ++ rest) := by
  obtain ⟨hn, hold⟩ := List.getElem?_eq_some_iff.mp h
  have hsplit : entries = entries.take n ++ old :: entries.drop (n + 1) := by
    rw [← hold, ← List.drop_eq_getElem_cons hn, List.take_append_drop]
  have hperm : ∀ e : TfsInodeDirEntry,
      ((entries.take n ++ e :: entries.drop (n + 1)).filterMap TfsInodeDirEntry.child).Perm
        (e.child.toList ++
          (entries.take n ++ entries.drop (n + 1)).filterMap TfsInodeDirEntry.child) := by
    intro e
    rw [List.filterMap_append, List.filterMap_append, List.filterMap_cons]
    cases e.child with
    | none => exact List.Perm.refl _
    | some c => exact List.perm_middle
  refine ⟨(entries.take n ++ entries.drop (n + 1)).filterMap TfsInodeDirEntry.child, ?_, ?_⟩
  · rw [TfsInodeDir.children]
    conv_lhs => rw [hsplit]
    exact hperm old
  · rw [TfsInodeDir.children, List.set_eq_take_append_cons_drop, if_pos hn]
    exact hperm new

/-! ## What the operations do to the children -/

/-- The free entries of a directory have an empty name. -/
def TfsInodeDir.FreeBlank (self : TfsInodeDir) : Prop :=
  ∀ entry ∈ self.entries, entry.inodeIdx = none → entry.name = []

theorem tfsInodeDirSearchByName_loop {name : List CChar} (hname : NulFree name)
    (entries : List TfsInodeDirEntry) (n : Nat) :
    (tfsInodeDirSearchByName.loop name entries n = none ∧
      ∀ idx, ⟨name, some idx⟩ ∉ entries) ∨
    ∃ idx k, tfsInodeDirSearchByName.loop name entries n = some (idx, n + k) ∧
      entries[k]? = some ⟨name, some idx⟩ := by
  induction entries generalizing n with
  | nil => exact Or.inl ⟨rfl, by simp⟩
  | cons entry entries ih =>
    have hskip : (∀ idx, entry ≠ ⟨name, some idx⟩) →
        tfsInodeDirSearchByName.loop name (entry :: entries) n =
          tfsInodeDirSearchByName.loop name entries (n + 1) →
        (tfsInodeDirSearchByName.loop name (entry :: entries) n = none ∧
          ∀ idx, ⟨name, some idx⟩ ∉ entry :: entries) ∨
        ∃ idx k, tfsInodeDirSearchByName.loop name (entry :: entries) n = some (idx, n + k) ∧
          (entry :: entries)[k]? = some ⟨name, some idx⟩ := by
      intro hne heq
      rw [heq]
      rcases ih (n + 1) with ⟨h, hno⟩ | ⟨idx, k, h, hk⟩
      · refine Or.inl ⟨h, fun idx hmem => ?_⟩
        rcases List.mem_cons.mp hmem with h' | h'
        · exact hne idx h'.symm
        · exact hno idx h'
      · exact Or.inr ⟨idx, k + 1, by rw [h, Nat.add_right_comm, Nat.add_assoc], by simpa using hk⟩
    obtain ⟨ename, eidx⟩ := entry
    cases eidx with
    | none => exact hskip (by simp) rfl
    | some eidx =>
      by_cases heq : name = ename
      · subst heq
        refine Or.inr ⟨eidx, 0, ?_, rfl⟩
        simp [tfsInodeDirSearchByName.loop, (tfsStrEq_iff hname).mpr rfl]
      · refine hskip (by simp [Ne.symm heq]) ?_
        simp [tfsInodeDirSearchByName.loop, (tfsStrEq_eq_false_iff hname).mpr heq]

/-- **`tfs_inode_dir_search_by_name`**, when it finds nothing. -/
theorem tfsInodeDirSearchByName_eq_none_iff {self : TfsInodeDir} {name : List CChar}
    (hname : NulFree name) : tfsInodeDirSearchByName self name = none ↔ name ∉ self.names := by
  have hnames : name ∈ self.names ↔ ∃ idx, ⟨name, some idx⟩ ∈ self.entries := by
    simp [TfsInodeDir.names, TfsInodeDir.mem_children_iff]
  rw [hnames, tfsInodeDirSearchByName]
  rcases tfsInodeDirSearchByName_loop hname self.entries 0 with ⟨h, hno⟩ | ⟨idx, k, h, hk⟩
  · simp [h, hno]
  · simp only [h, reduceCtorEq, not_exists, false_iff, not_forall, not_not]
    exact ⟨idx, List.mem_of_getElem? hk⟩

/-- **`tfs_inode_dir_search_by_name`**, when it finds an entry. -/
theorem tfsInodeDirSearchByName_eq_some {self : TfsInodeDir} {name : List CChar}
    (hname : NulFree name) {idx dirIdx : Nat}
    (h : tfsInodeDirSearchByName self name = some (idx, dirIdx)) :
    self.entries[dirIdx]? = some ⟨name, some idx⟩ := by
  rw [tfsInodeDirSearchByName] at h
  rcases tfsInodeDirSearchByName_loop hname self.entries 0 with ⟨h', -⟩ | ⟨idx', k, h', hk⟩
  · rw [h'] at h
    cases h
  · rw [h', Nat.zero_add, Option.some.injEq, Prod.mk.injEq] at h
    rw [← h.1, ← h.2, hk]

theorem mem_children_of_search {self : TfsInodeDir} {name : List CChar} (hname : NulFree name)
    {idx dirIdx : Nat} (h : tfsInodeDirSearchByName self name = some (idx, dirIdx)) :
    (name, idx) ∈ self.children :=
  TfsInodeDir.mem_children_iff.mpr
    (List.mem_of_getElem? (tfsInodeDirSearchByName_eq_some hname h))

/-- In a directory without duplicate names the search finds every child. -/
theorem search_of_mem_children {self : TfsInodeDir} (hnodup : self.names.Nodup)
    {name : List CChar} (hname : NulFree name) {idx : Nat} (h : (name, idx) ∈ self.children) :
    ∃ dirIdx, tfsInodeDirSearchByName self name = some (idx, dirIdx) := by
  cases hs : tfsInodeDirSearchByName self name with
  | none =>
    exact absurd (TfsInodeDir.mem_names h) ((tfsInodeDirSearchByName_eq_none_iff hname).mp hs)
  | some r =>
    obtain ⟨idx', dirIdx⟩ := r
    have hmem := mem_children_of_search hname hs
    have heq := List.inj_on_of_nodup_map hnodup h hmem rfl
    exact ⟨dirIdx, by rw [(Prod.mk.inj heq).2]⟩

/-- **`tfs_inode_dir_remove_entry_by_dir_idx`** takes one child away. -/
theorem children_tfsInodeDirRemoveEntryByDirIdx {self : TfsInodeDir} {dirIdx idx : Nat}
    {name : List CChar} (h : self.entries[dirIdx]? = some ⟨name, some idx⟩) :
    self.children.Perm
      ((name, idx) :: (tfsInodeDirRemoveEntryByDirIdx self dirIdx).children) := by
  obtain ⟨rest, hold, hnew⟩ := children_set h .free
  exact hold.trans (hnew.symm.cons _)

theorem freeBlank_set {self : TfsInodeDir} (h : self.FreeBlank) (n : Nat)
    {entry : TfsInodeDirEntry} (hentry : entry.inodeIdx = none → entry.name = []) :
    (TfsInodeDir.mk (self.entries.set n entry)).FreeBlank := by
  intro e he
  rcases List.mem_or_eq_of_mem_set he with he | rfl
  · exact h e he
  · exact hentry

theorem freeBlank_tfsInodeDirRemoveEntryByDirIdx {self : TfsInodeDir} (h : self.FreeBlank)
    (dirIdx : Nat) : (tfsInodeDirRemoveEntryByDirIdx self dirIdx).FreeBlank :=
  freeBlank_set h dirIdx fun _ => rfl

theorem tfsInodeDirAddEntry_loop {name : List CChar} (hname : NulFree name)
    (entries : List TfsInodeDirEntry) (n : Nat) (emptyIdx : Option Nat) :
    (∃ idx k, tfsInodeDirAddEntry.loop name entries n emptyIdx = .error (.duplicateName idx k) ∧
      ⟨name, some idx⟩ ∈ entries) ∨
    ∃ found, tfsInodeDirAddEntry.loop name entries n emptyIdx = .ok found ∧
      (∀ idx, ⟨name, some idx⟩ ∉ entries) ∧
      (found = emptyIdx ∨
        ∃ k old, found = some (n + k) ∧ entries[k]? = some old ∧ old.inodeIdx = none) := by
  induction entries generalizing n emptyIdx with
  | nil => exact Or.inr ⟨emptyIdx, rfl, by simp, Or.inl rfl⟩
  | cons entry entries ih =>
    obtain ⟨ename, eidx⟩ := entry
    cases eidx with
    | none =>
      rw [tfsInodeDirAddEntry.loop]
      rcases ih (n + 1) (if emptyIdx = none then some n else emptyIdx) with
        ⟨idx, k, h, hmem⟩ | ⟨found, h, hno, hfound⟩
      · exact Or.inl ⟨idx, k, h, List.mem_cons_of_mem _ hmem⟩
      · refine Or.inr ⟨found, h, by simpa using hno, ?_⟩
        rcases hfound with rfl | ⟨k, old, rfl, hk, hold⟩
        · by_cases he : emptyIdx = none
          · exact Or.inr ⟨0, ⟨ename, none⟩, by simp [he], rfl, rfl⟩
          · exact Or.inl (if_neg he)
        · exact Or.inr ⟨k + 1, old, by rw [Nat.add_right_comm, Nat.add_assoc], by simpa using hk,
            hold⟩
    | some eidx =>
      rw [tfsInodeDirAddEntry.loop]
      by_cases heq : name = ename
      · subst heq
        refine Or.inl ⟨eidx, n, ?_, List.mem_cons_self⟩
        simp [(tfsStrEq_iff hname).mpr rfl]
      · simp only [(tfsStrEq_eq_false_iff hname).mpr heq, Bool.false_eq_true, if_false]
        rcases ih (n + 1) emptyIdx with ⟨idx, k, h, hmem⟩ | ⟨found, h, hno, hfound⟩
        · exact Or.inl ⟨idx, k, h, List.mem_cons_of_mem _ hmem⟩
        · refine Or.inr ⟨found, h, by simpa [heq] using hno, ?_⟩
          rcases hfound with rfl | ⟨k, old, rfl, hk, hold⟩
          · exact Or.inl rfl
          · exact Or.inr ⟨k + 1, old, by rw [Nat.add_right_comm, Nat.add_assoc],
              by simpa using hk, hold⟩

/-- The array after an allocation: the old entries, then only free ones. -/
theorem children_append_free (entries : List TfsInodeDirEntry) (n : Nat) :
    (TfsInodeDir.mk (entries ++ List.replicate n .free)).children =
      (TfsInodeDir.mk entries).children := by
  have hfree : (List.replicate n TfsInodeDirEntry.free).filterMap TfsInodeDirEntry.child = [] := by
    rw [List.filterMap_eq_nil_iff]
    intro e he
    rw [List.eq_of_mem_replicate he]
    rfl
  rw [TfsInodeDir.children, TfsInodeDir.children, List.filterMap_append, hfree, List.append_nil]

/-- **`tfs_inode_dir_add_entry`** adds one child, unless the name is empty or taken. -/
theorem tfsInodeDirAddEntry_spec (self : TfsInodeDir) (idx : Nat) {name : List CChar}
    (hname : NulFree name) :
    (∃ err, tfsInodeDirAddEntry self idx name = .error err ∧
      (name = [] ∨ name ∈ self.names)) ∨
    ∃ self', tfsInodeDirAddEntry self idx name = .ok self' ∧ name ≠ [] ∧ name ∉ self.names ∧
      self'.children.Perm ((name, idx) :: self.children) ∧
      (self.FreeBlank → self'.FreeBlank) := by
  rw [tfsInodeDirAddEntry]
  by_cases hnil : name = []
  · exact Or.inl ⟨_, if_pos (by simp [hnil]), Or.inl hnil⟩
  rw [if_neg (by simpa using hnil)]
  rcases tfsInodeDirAddEntry_loop hname self.entries 0 none with
    ⟨eidx, k, h, hmem⟩ | ⟨found, h, hno, hfound⟩
  · rw [h]
    exact Or.inl ⟨_, rfl, Or.inr (TfsInodeDir.mem_names (TfsInodeDir.mem_children_iff.mpr hmem))⟩
  · have hnames : name ∉ self.names := by
      simpa [TfsInodeDir.names, TfsInodeDir.mem_children_iff] using hno
    rw [h]
    rcases hfound with rfl | ⟨k, old, rfl, hk, hold⟩
    · -- no free entry: the array grows, and its first new entry is taken
      refine Or.inr ⟨_, rfl, hnil, hnames, ?_, fun hblank => ?_⟩
      · have hcap : (self.entries ++ List.replicate (tfsMaxSizeT 4 (2 * self.capacity) -
            self.capacity) TfsInodeDirEntry.free)[self.capacity]? = some .free := by
          rw [TfsInodeDir.capacity, List.getElem?_append_right (Nat.le_refl _), Nat.sub_self,
            List.getElem?_replicate, if_pos]
          rw [tfsMaxSizeT]
          split <;> omega
        obtain ⟨rest, hold, hnew⟩ := children_set hcap ⟨name, some idx⟩
        rw [children_append_free] at hold
        exact hnew.trans (hold.symm.cons _)
      · refine @freeBlank_set ⟨_⟩ (fun e he hnone => ?_) _ ⟨name, some idx⟩ (by simp)
        rcases List.mem_append.mp he with he | he
        · exact hblank e he hnone
        · rw [List.eq_of_mem_replicate he]
          rfl
    · refine Or.inr ⟨_, rfl, hnil, hnames, ?_, fun hblank => freeBlank_set hblank _ (by simp)⟩
      rw [Nat.zero_add]
      obtain ⟨rest, hrest, hnew⟩ := children_set hk ⟨name, some idx⟩
      have hchild : old.child = none := by rw [TfsInodeDirEntry.child, hold]; rfl
      rw [hchild] at hrest
      exact hnew.trans (hrest.symm.cons _)

theorem tfsInodeDirRename_loop (self : TfsInodeDir) (idx : Nat) {newName : List CChar}
    (hnew : NulFree newName) (entries : List TfsInodeDirEntry) (n : Nat) (dirIdx : Option Nat) :
    (⟨newName, some idx⟩ ∈ entries ∧
      tfsInodeDirRename.loop self idx newName entries n dirIdx = .ok self) ∨
    (∃ entry ∈ entries, entry.inodeIdx ≠ some idx ∧ entry.name = newName ∧
      ∃ err, tfsInodeDirRename.loop self idx newName entries n dirIdx = .error err) ∨
    ((∀ entry ∈ entries, entry.name ≠ newName) ∧ ∃ found,
      tfsInodeDirRename.loop self idx newName entries n dirIdx =
        tfsInodeDirRename.loop self idx newName [] (n + entries.length) found ∧
      ((found = dirIdx ∧ ∀ entry ∈ entries, entry.inodeIdx ≠ some idx) ∨
        ∃ k old, found = some (n + k) ∧ entries[k]? = some ⟨old, some idx⟩)) := by
  induction entries generalizing n dirIdx with
  | nil => exact Or.inr (Or.inr ⟨by simp, dirIdx, rfl, Or.inl ⟨rfl, by simp⟩⟩)
  | cons entry entries ih =>
    obtain ⟨ename, eidx⟩ := entry
    rw [tfsInodeDirRename.loop]
    by_cases hidx : eidx = some idx
    · subst hidx
      rw [if_pos rfl]
      by_cases heq : newName = ename
      · subst heq
        exact Or.inl ⟨List.mem_cons_self, if_pos ((tfsStrEq_iff hnew).mpr rfl)⟩
      · rw [if_neg (by simp [tfsStrEq_comm ename, (tfsStrEq_eq_false_iff hnew).mpr heq])]
        rcases ih (n + 1) (some n) with ⟨hmem, h⟩ | ⟨e, he, hne, hen, err, h⟩ |
          ⟨hno, found, h, hfound⟩
        · exact Or.inl ⟨List.mem_cons_of_mem _ hmem, h⟩
        · exact Or.inr (Or.inl ⟨e, List.mem_cons_of_mem _ he, hne, hen, err, h⟩)
        · refine Or.inr (Or.inr ⟨by simpa [Ne.symm heq] using hno, found, ?_, Or.inr ?_⟩)
          · rw [h, List.length_cons, Nat.add_right_comm, Nat.add_assoc]
          · rcases hfound with ⟨rfl, -⟩ | ⟨k, old, rfl, hk⟩
            · exact ⟨0, ename, rfl, rfl⟩
            · exact ⟨k + 1, old, by rw [Nat.add_right_comm, Nat.add_assoc], by simpa using hk⟩
    · rw [if_neg hidx]
      by_cases heq : newName = ename
      · subst heq
        rw [if_pos ((tfsStrEq_iff hnew).mpr rfl)]
        exact Or.inr (Or.inl ⟨⟨newName, eidx⟩, List.mem_cons_self, hidx, rfl, _, rfl⟩)
      · rw [if_neg (by simp [(tfsStrEq_eq_false_iff hnew).mpr heq])]
        rcases ih (n + 1) dirIdx with ⟨hmem, h⟩ | ⟨e, he, hne, hen, err, h⟩ |
          ⟨hno, found, h, hfound⟩
        · exact Or.inl ⟨List.mem_cons_of_mem _ hmem, h⟩
        · exact Or.inr (Or.inl ⟨e, List.mem_cons_of_mem _ he, hne, hen, err, h⟩)
        · refine Or.inr (Or.inr ⟨by simpa [Ne.symm heq] using hno, found, ?_, ?_⟩)
          · rw [h, List.length_cons, Nat.add_right_comm, Nat.add_assoc]
          · rcases hfound with ⟨rfl, hall⟩ | ⟨k, old, rfl, hk⟩
            · exact Or.inl ⟨rfl, by simpa [hidx] using hall⟩
            · exact Or.inr ⟨k + 1, old, by rw [Nat.add_right_comm, Nat.add_assoc],
                by simpa using hk⟩

/-- **`tfs_inode_dir_rename`** of a child.  It changes one name, unless the name is there
already.  Only the new name being there is checked, among the free entries as well. -/
theorem tfsInodeDirRename_spec (self : TfsInodeDir) {idx : Nat} {oldName newName : List CChar}
    (hnew : NulFree newName) (hmem : (oldName, idx) ∈ self.children)
    (honly : ∀ name, (name, idx) ∈ self.children → name = oldName) :
    (∃ err, tfsInodeDirRename self idx newName = .error err ∧
      ∃ entry ∈ self.entries, entry.inodeIdx ≠ some idx ∧ entry.name = newName) ∨
    (tfsInodeDirRename self idx newName = .ok self ∧ newName = oldName) ∨
    ∃ self', tfsInodeDirRename self idx newName = .ok self' ∧
      (∀ entry ∈ self.entries, entry.name ≠ newName) ∧
      (∃ rest, self.children.Perm ((oldName, idx) :: rest) ∧
        self'.children.Perm ((newName, idx) :: rest)) ∧
      (self.FreeBlank → self'.FreeBlank) := by
  have hentry := TfsInodeDir.mem_children_iff.mp hmem
  rw [tfsInodeDirRename]
  rcases tfsInodeDirRename_loop self idx hnew self.entries 0 none with ⟨hin, h⟩ |
    ⟨e, he, hne, hen, err, h⟩ | ⟨hno, found, h, hfound⟩
  · exact Or.inr (Or.inl ⟨h, honly _ (TfsInodeDir.mem_children_iff.mpr hin)⟩)
  · exact Or.inl ⟨err, h, e, he, hne, hen⟩
  · rcases hfound with ⟨-, hall⟩ | ⟨k, old, rfl, hk⟩
    · exact absurd rfl (hall _ hentry)
    · obtain rfl := honly old (TfsInodeDir.mem_children_iff.mpr (List.mem_of_getElem? hk))
      refine Or.inr (Or.inr ⟨_, h, hno, ?_, fun hblank => freeBlank_set hblank _ (by simp)⟩)
      rw [Nat.zero_add]
      exact children_set hk ⟨newName, some idx⟩

end TecnicoFs
