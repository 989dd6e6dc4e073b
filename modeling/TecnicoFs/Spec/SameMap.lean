import TecnicoFs.Spec.MapCalls

/-!
# Trees with the same map

The map of a tree says nothing about the numbers of its inodes, about the order of the
entries of a directory or about the entries that are free.  What a call answers does not
depend on these: on two trees with the same map a plain call succeeds on both or fails on
both with the same error (`sameKind_atomic`).
-/

namespace TecnicoFs

open Function Graph

/-! ## Errors of directories -/

section Dir

variable {d e : TfsInodeDir} {idx idx' : Nat} {name newName oldName : List CChar}

theorem addEntry_loop_error {entries : List TfsInodeDirEntry} {n : Nat} {emptyIdx : Option Nat}
    {err : TfsInodeDirAddEntryError}
    (h : tfsInodeDirAddEntry.loop name entries n emptyIdx = .error err) :
    err.kind = .duplicateName := by
  induction entries generalizing n emptyIdx with
  | nil => cases h
  | cons entry entries ih =>
    rw [tfsInodeDirAddEntry.loop] at h
    split at h
    · exact ih h
    · split at h
      · obtain rfl := Except.error.inj h
        rfl
      · exact ih h

/-- Why an entry cannot be added. -/
theorem addEntry_error_kind {err : TfsInodeDirAddEntryError}
    (h : tfsInodeDirAddEntry d idx name = .error err) :
    err.kind = if name = [] then .emptyName else .duplicateName := by
  unfold tfsInodeDirAddEntry at h
  split at h
  · rename_i hlen
    obtain rfl := Except.error.inj h
    rw [if_pos (List.length_eq_zero_iff.mp hlen)]
    rfl
  · rename_i hlen
    rw [if_neg fun hnil => hlen (List.length_eq_zero_iff.mpr hnil)]
    split at h
    · rename_i err' hloop
      obtain rfl := Except.error.inj h
      exact addEntry_loop_error hloop
    · cases h
    · cases h

/-- In directories with the same names the same entries can be added. -/
theorem addEntry_cases (hname : NulFree name) (hnames : name ∈ d.names ↔ name ∈ e.names)
    (idx idx' : Nat) :
    (∃ err err', tfsInodeDirAddEntry d idx name = .error err ∧
        tfsInodeDirAddEntry e idx' name = .error err' ∧ err.kind = err'.kind) ∨
      ∃ d' e', tfsInodeDirAddEntry d idx name = .ok d' ∧
        tfsInodeDirAddEntry e idx' name = .ok e' := by
  rcases tfsInodeDirAddEntry_spec d idx hname with ⟨err, herr, hwhy⟩ | ⟨d', hok, hne, hnew, -⟩
  · rcases tfsInodeDirAddEntry_spec e idx' hname with ⟨err', herr', -⟩ | ⟨e', -, hne, hnew, -⟩
    · refine Or.inl ⟨err, err', herr, herr', ?_⟩
      rw [addEntry_error_kind herr, addEntry_error_kind herr']
    · exact absurd (hwhy.imp_right hnames.mp) (not_or.mpr ⟨hne, hnew⟩)
  · rcases tfsInodeDirAddEntry_spec e idx' hname with ⟨err', -, hwhy⟩ | ⟨e', hok', -⟩
    · exact absurd (hwhy.imp_right hnames.mpr) (not_or.mpr ⟨hne, hnew⟩)
    · exact Or.inr ⟨d', e', hok, hok'⟩

theorem rename_loop_error {self : TfsInodeDir} {entries : List TfsInodeDirEntry} {n : Nat}
    {found : Option Nat} {err : TfsInodeDirRenameError}
    (h : tfsInodeDirRename.loop self idx newName entries n found = .error err) :
    err.kind = .duplicateName ∨ found = none ∧ ∀ entry ∈ entries, entry.inodeIdx ≠ some idx := by
  induction entries generalizing n found with
  | nil =>
    cases found with
    | none => exact Or.inr ⟨rfl, by simp⟩
    | some k => cases h
  | cons entry entries ih =>
    rw [tfsInodeDirRename.loop] at h
    split at h
    · split at h
      · cases h
      · exact (ih h).imp_right fun hr => by cases hr.1
    · rename_i hidx
      split at h
      · obtain rfl := Except.error.inj h
        exact Or.inl rfl
      · exact (ih h).imp_right fun hr => ⟨hr.1, List.forall_mem_cons.mpr ⟨hidx, hr.2⟩⟩

/-- Why an entry cannot be renamed. -/
theorem rename_error_kind {err : TfsInodeDirRenameError}
    (h : tfsInodeDirRename d idx newName = .error err) (hmem : (oldName, idx) ∈ d.children) :
    err.kind = .duplicateName := by
  refine (rename_loop_error h).resolve_right fun hr => ?_
  exact hr.2 _ (TfsInodeDir.mem_children_iff.mp hmem) rfl

/-- When an entry cannot be renamed, in a directory whose free entries are blank. -/
theorem rename_error_iff (hblank : d.FreeBlank) (hnodup : d.names.Nodup)
    (hnew : NulFree newName) (hne : newName ≠ []) (hmem : (oldName, idx) ∈ d.children)
    (honly : ∀ name, (name, idx) ∈ d.children → name = oldName) :
    (∃ err, tfsInodeDirRename d idx newName = .error err) ↔
      newName ∈ d.names ∧ newName ≠ oldName := by
  rcases tfsInodeDirRename_spec d hnew hmem honly with ⟨err, herr, entry, hentry, hidx, rfl⟩ |
    ⟨hok, heq⟩ | ⟨d', hok, hall, -⟩
  · cases hk : entry.inodeIdx with
    | none => exact absurd (hblank entry hentry hk) hne
    | some k =>
      have hchild : (entry.name, k) ∈ d.children :=
        TfsInodeDir.mem_children_iff.mpr (by rwa [← hk])
      refine iff_of_true ⟨err, herr⟩ ⟨TfsInodeDir.mem_names hchild, fun heq => hidx ?_⟩
      have hsame := List.inj_on_of_nodup_map hnodup hchild hmem heq
      rw [hk, (Prod.mk.inj hsame).2]
  · exact iff_of_false (by simp [hok]) fun h => h.2 heq
  · refine iff_of_false (by simp [hok]) fun h => ?_
    obtain ⟨⟨name, k⟩, hchild, rfl⟩ := List.mem_map.mp h.1
    exact hall _ (TfsInodeDir.mem_children_iff.mp hchild) rfl

end Dir

/-! ## Slots at the same path -/

/-- Slots of two trees that are at the same path. -/
def Matches (T U : Tree) (i j : Nat) : Prop :=
  ∃ cs, Walk (Child T) 0 cs i ∧ Walk (Child U) 0 cs j

namespace Matches

variable {capacity capacity' : Nat} {T U : Tree} {i j : Nat} {name : List CChar}

theorem root : Matches T U 0 0 := ⟨[], .nil, .nil⟩

theorem symm (h : Matches T U i j) : Matches U T j i := by
  obtain ⟨cs, w, w'⟩ := h
  exact ⟨cs, w', w⟩

section

variable (hT : TreeInv capacity T) (hU : TreeInv capacity' U) (hmap : treeMap T = treeMap U)
  (h : Matches T U i j)

include hT hU hmap h

theorem type_eq : (T i).type = (U j).type := by
  obtain ⟨cs, w, w'⟩ := h
  have heq := congrFun hmap cs
  rw [treeMap_of_walk hT w, treeMap_of_walk hU w'] at heq
  exact Option.some.inj heq

/-- The children match. -/
theorem exists_child {x : Nat} (hx : Child T i name x) :
    ∃ y, Child U j name y ∧ Matches T U x y := by
  obtain ⟨cs, w, w'⟩ := h
  have heq := congrFun hmap (cs ++ [name])
  rw [treeMap_of_walk hT (w.snoc hx)] at heq
  obtain ⟨y, wy, -⟩ := exists_walk_of_treeMap heq.symm
  obtain ⟨j', wj, hy⟩ := Walk.snoc_iff.mp wy
  obtain rfl := hU.tree.walk_end wj w'
  exact ⟨y, hy, _, w.snoc hx, wy⟩

variable {d e : TfsInodeDir} (hd : T i = .dir d) (he : U j = .dir e)

include hd he

theorem names_iff : name ∈ d.names ↔ name ∈ e.names := by
  have hone : ∀ {capacity capacity' : Nat} {T U : Tree} {i j : Nat} {d e : TfsInodeDir},
      TreeInv capacity T → TreeInv capacity' U → treeMap T = treeMap U → Matches T U i j →
      T i = .dir d → U j = .dir e → name ∈ d.names → name ∈ e.names := by
    intro _ _ T U i j d e hT hU hmap h hd he hname
    obtain ⟨⟨name, x⟩, hx, rfl⟩ := List.mem_map.mp hname
    obtain ⟨y, ⟨e', he', hy⟩, -⟩ := h.exists_child hT hU hmap ⟨d, hd, hx⟩
    obtain rfl := TfsInode.dir.inj (he.symm.trans he')
    exact TfsInodeDir.mem_names hy
  exact ⟨hone hT hU hmap h hd he, hone hU hT hmap.symm h.symm he hd⟩

/-- Searching finds slots that match. -/
theorem search (hname : NulFree name) :
    (tfsInodeDirSearchByName d name = none ∧ tfsInodeDirSearchByName e name = none) ∨
      ∃ x n y k, tfsInodeDirSearchByName d name = some (x, n) ∧
        tfsInodeDirSearchByName e name = some (y, k) ∧ Matches T U x y := by
  have hnames : name ∈ d.names ↔ name ∈ e.names := h.names_iff hT hU hmap hd he
  cases hs : tfsInodeDirSearchByName d name with
  | none =>
    have hno := (tfsInodeDirSearchByName_eq_none_iff hname).mp hs
    exact Or.inl ⟨rfl, (tfsInodeDirSearchByName_eq_none_iff hname).mpr (hnames.not.mp hno)⟩
  | some x =>
    obtain ⟨x, n⟩ := x
    obtain ⟨y, ⟨e', he', hy⟩, hxy⟩ :=
      h.exists_child hT hU hmap ⟨d, hd, mem_children_of_search hname hs⟩
    obtain rfl := TfsInode.dir.inj (he.symm.trans he')
    obtain ⟨k, hk⟩ := search_of_mem_children (hU.names he) hname hy
    exact Or.inr ⟨x, n, y, k, rfl, hk, hxy⟩

omit hd he in
theorem nonEmptyDir_eq : nonEmptyDir (T i) = nonEmptyDir (U j) := by
  have hone : ∀ {capacity capacity' : Nat} {T U : Tree} {i j : Nat}, TreeInv capacity T →
      TreeInv capacity' U → treeMap T = treeMap U → Matches T U i j →
      nonEmptyDir (U j) = false → nonEmptyDir (T i) = false := by
    intro _ _ T U i j hT hU hmap h hno
    rw [nonEmptyDir_eq_false_iff] at hno ⊢
    intro c x hx
    obtain ⟨y, hy, -⟩ := h.exists_child hT hU hmap hx
    exact hno c y hy
  rw [Bool.eq_iff_iff, ← not_iff_not, Bool.not_eq_true, Bool.not_eq_true]
  exact ⟨hone hU hT hmap.symm h.symm, hone hT hU hmap h⟩

omit hd he in
/-- Walks end in slots that match, or for the same reason. -/
theorem locate {cs : List (List CChar)} (hcs : ∀ c ∈ cs, NulFree c) :
    (∃ kind, TecnicoFs.locate T i cs = .error kind ∧ TecnicoFs.locate U j cs = .error kind) ∨
      ∃ x y, TecnicoFs.locate T i cs = .ok x ∧ TecnicoFs.locate U j cs = .ok y ∧
        Matches T U x y := by
  induction cs generalizing i j with
  | nil => exact Or.inr ⟨i, j, rfl, rfl, h⟩
  | cons c cs ih =>
    rw [List.forall_mem_cons] at hcs
    have htype := h.type_eq hT hU hmap
    by_cases hdir : (T i).type = .dir
    · obtain ⟨d, hd⟩ := TfsInode.type_eq_dir_iff.mp hdir
      obtain ⟨e, he⟩ := TfsInode.type_eq_dir_iff.mp (htype ▸ hdir)
      rw [locate_cons_of_dir hd, locate_cons_of_dir he]
      rcases h.search hT hU hmap hd he hcs.1 with ⟨hs, hs'⟩ | ⟨x, n, y, k, hs, hs', hxy⟩
      · rw [hs, hs']
        exact Or.inl ⟨_, rfl, rfl⟩
      · rw [hs, hs']
        exact ih hxy hcs.2
    · rw [locate_cons_of_not_dir hdir, locate_cons_of_not_dir (htype ▸ hdir)]
      exact Or.inl ⟨_, rfl, rfl⟩

end

end Matches

/-! ## Calls -/

/-- Both calls succeed, or they fail with the same error. -/
def Effect.SameKind (e f : Effect) : Prop :=
  e.outcome.map (fun _ => ()) = f.outcome.map fun _ => ()

theorem Effect.sameKind_fail (T U : Tree) (kind : ErrorKind) :
    (Effect.fail T kind).SameKind (.fail U kind) := rfl

section Calls

variable {capacity capacity' : Nat} {T U : Tree} (hT : TreeInv capacity T)
  (hU : TreeInv capacity' U) (hmap : treeMap T = treeMap U)

include hT hU hmap

theorem sameKind_atomicFind {path : TfsPath} (hn : NulFree path.str) :
    (atomicFind T path).SameKind (atomicFind U path) := by
  rw [atomicFind, atomicFind]
  rcases Matches.root.locate hT hU hmap (nulFree_comps hn) with ⟨kind, h, h'⟩ | ⟨x, y, h, h', -⟩
  · rw [h, h']
    exact Effect.sameKind_fail ..
  · rw [h, h']
    rfl

theorem sameKind_atomicCreate {path : TfsPath} (hn : NulFree path.str) (slot slot' : Nat)
    (type : TfsInodeType) :
    (atomicCreate T slot path type).SameKind (atomicCreate U slot' path type) := by
  rcases Matches.root.locate hT hU hmap (nulFree_comps_popLast_rest hn) with
    ⟨kind, h, h'⟩ | ⟨p, q, h, h', hpq⟩
  · rw [atomicCreate, atomicCreate, h, h']
    exact Effect.sameKind_fail ..
  have htype := hpq.type_eq hT hU hmap
  by_cases hdir : (T p).type = .dir
  · obtain ⟨d, hd⟩ := TfsInode.type_eq_dir_iff.mp hdir
    obtain ⟨e, he⟩ := TfsInode.type_eq_dir_iff.mp (htype ▸ hdir)
    rw [atomicCreate_of_dir h hd, atomicCreate_of_dir h' he]
    rcases addEntry_cases (nulFree_tfsPathPopLast hn) (hpq.names_iff hT hU hmap hd he) slot slot'
      with ⟨err, err', herr, herr', hkind⟩ | ⟨d', e', hok, hok'⟩
    · rw [herr, herr']
      dsimp only
      rw [hkind]
      exact Effect.sameKind_fail ..
    · rw [hok, hok']
      rfl
  · rw [atomicCreate_of_not_dir h hdir, atomicCreate_of_not_dir h' (htype ▸ hdir)]
    exact Effect.sameKind_fail ..

theorem sameKind_atomicRemove {path : TfsPath} (hn : NulFree path.str) :
    (atomicRemove T path).SameKind (atomicRemove U path) := by
  rcases Matches.root.locate hT hU hmap (nulFree_comps_popLast_rest hn) with
    ⟨kind, h, h'⟩ | ⟨p, q, h, h', hpq⟩
  · rw [atomicRemove, atomicRemove, h, h']
    exact Effect.sameKind_fail ..
  have htype := hpq.type_eq hT hU hmap
  by_cases hdir : (T p).type = .dir
  · obtain ⟨d, hd⟩ := TfsInode.type_eq_dir_iff.mp hdir
    obtain ⟨e, he⟩ := TfsInode.type_eq_dir_iff.mp (htype ▸ hdir)
    rw [atomicRemove_of_dir h hd, atomicRemove_of_dir h' he]
    rcases hpq.search hT hU hmap hd he (nulFree_tfsPathPopLast hn) with ⟨hs, hs'⟩ |
      ⟨x, n, y, k, hs, hs', hxy⟩
    · rw [hs, hs']
      exact Effect.sameKind_fail ..
    · rw [hs, hs']
      dsimp only
      rw [hxy.nonEmptyDir_eq hT hU hmap]
      split
      · exact Effect.sameKind_fail ..
      · rfl
  · rw [atomicRemove_of_not_dir h hdir, atomicRemove_of_not_dir h' (htype ▸ hdir)]
    exact Effect.sameKind_fail ..

variable (hblank : BlankFree T) (hblank' : BlankFree U)

include hblank hblank'

theorem sameKind_atomicRename {p q : Nat} (hpq : Matches T U p q) {origName destName : List CChar}
    (hn : NulFree origName) (hm : NulFree destName) (hne : destName ≠ []) :
    (atomicRename T p origName destName).SameKind (atomicRename U q origName destName) := by
  have htype := hpq.type_eq hT hU hmap
  by_cases hdir : (T p).type = .dir
  swap
  · rw [atomicRename_of_not_dir hdir, atomicRename_of_not_dir (htype ▸ hdir)]
    exact Effect.sameKind_fail ..
  obtain ⟨d, hd⟩ := TfsInode.type_eq_dir_iff.mp hdir
  obtain ⟨e, he⟩ := TfsInode.type_eq_dir_iff.mp (htype ▸ hdir)
  rw [atomicRename_of_dir hd, atomicRename_of_dir he]
  rcases hpq.search hT hU hmap hd he hn with ⟨hs, hs'⟩ | ⟨x, n, y, k, hs, hs', -⟩
  · rw [hs, hs']
    exact Effect.sameKind_fail ..
  rw [hs, hs']
  dsimp only
  have hx := mem_children_of_search hn hs
  have hy := mem_children_of_search hn hs'
  have hfails := rename_error_iff (hblank p d hd) (hT.names hd) hm hne hx fun name hname =>
    (hT.tree.parent (⟨d, hd, hname⟩ : Child T p name x) ⟨d, hd, hx⟩).2
  have hfails' := rename_error_iff (hblank' q e he) (hU.names he) hm hne hy fun name hname =>
    (hU.tree.parent (⟨e, he, hname⟩ : Child U q name y) ⟨e, he, hy⟩).2
  rw [← hpq.names_iff hT hU hmap hd he, ← hfails] at hfails'
  cases hr : tfsInodeDirRename d x destName with
  | error err =>
    obtain ⟨err', hr'⟩ := hfails'.mpr ⟨err, hr⟩
    rw [hr']
    dsimp only
    rw [rename_error_kind hr hx, rename_error_kind hr' hy]
    exact Effect.sameKind_fail ..
  | ok d' =>
    cases hr' : tfsInodeDirRename e y destName with
    | error err' =>
      obtain ⟨err, herr⟩ := hfails'.mp ⟨err', hr'⟩
      rw [hr] at herr
      cases herr
    | ok e' => rfl

omit hblank hblank' in
theorem sameKind_atomicMoveEntry {p q p' q' : Nat} (hp : Matches T U p p') (hq : Matches T U q q')
    {origName destName : List CChar} (hn : NulFree origName) (hm : NulFree destName)
    (access : TfsRwLockAccess) :
    (atomicMoveEntry T p q origName destName access).SameKind
      (atomicMoveEntry U p' q' origName destName access) := by
  have htype := hp.type_eq hT hU hmap
  have htype' := hq.type_eq hT hU hmap
  by_cases hdir : (T p).type = .dir
  swap
  · rw [atomicMoveEntry_of_orig_not_dir hdir, atomicMoveEntry_of_orig_not_dir (htype ▸ hdir)]
    exact Effect.sameKind_fail ..
  obtain ⟨d, hd⟩ := TfsInode.type_eq_dir_iff.mp hdir
  obtain ⟨e, he⟩ := TfsInode.type_eq_dir_iff.mp (htype ▸ hdir)
  by_cases hdir' : (T q).type = .dir
  swap
  · rw [atomicMoveEntry_of_dest_not_dir hd hdir',
      atomicMoveEntry_of_dest_not_dir he (htype' ▸ hdir')]
    exact Effect.sameKind_fail ..
  obtain ⟨d', hd'⟩ := TfsInode.type_eq_dir_iff.mp hdir'
  obtain ⟨e', he'⟩ := TfsInode.type_eq_dir_iff.mp (htype' ▸ hdir')
  rw [atomicMoveEntry_of_dirs hd hd', atomicMoveEntry_of_dirs he he']
  rcases hp.search hT hU hmap hd he hn with ⟨hs, hs'⟩ | ⟨x, n, y, k, hs, hs', -⟩
  · rw [hs, hs']
    exact Effect.sameKind_fail ..
  rw [hs, hs']
  dsimp only
  rcases addEntry_cases hm (hq.names_iff hT hU hmap hd' he') x y with
    ⟨err, err', herr, herr', hkind⟩ | ⟨f, f', hok, hok'⟩
  · rw [herr, herr']
    dsimp only
    rw [Effect.SameKind, hkind]
  · rw [hok, hok']
    rfl

theorem sameKind_atomicMove {origPath destPath : TfsPath} (hn : NulFree origPath.str)
    (hm : NulFree destPath.str) (habove : ¬comps destPath.str <+: comps origPath.str)
    (access : TfsRwLockAccess) :
    (atomicMove T origPath destPath access).SameKind (atomicMove U origPath destPath access) := by
  have hcuts := MoveSplit.moveSplit_cuts hn destPath
  have hne : (moveSplit origPath destPath).destFilename.str ≠ [] :=
    (hcuts.swap.orig_eq_of_not_prefix habove).1
  have horig := hcuts.nulFree_origFilename hn
  have hdest := hcuts.nulFree_destFilename hm
  rw [atomicMove, atomicMove]
  split
  · exact Effect.sameKind_fail ..
  split
  · exact Effect.sameKind_fail ..
  rcases Matches.root.locate hT hU hmap (hcuts.nulFree_ancestor hn) with
    ⟨kind, h, h'⟩ | ⟨a, b, h, h', hab⟩
  · rw [h, h']
    exact Effect.sameKind_fail ..
  rw [h, h']
  dsimp only
  rw [atomicMoveFrom, atomicMoveFrom, ← hab.type_eq hT hU hmap]
  split
  · rfl
  split
  · exact Effect.sameKind_fail ..
  split
  · exact sameKind_atomicRename hT hU hmap hblank hblank' hab horig hdest hne
  rcases hab.locate hT hU hmap (hcuts.nulFree_origParent hn) with
    ⟨kind, ho, ho'⟩ | ⟨p, p', ho, ho', hp⟩
  · rcases hab.locate hT hU hmap (hcuts.nulFree_destParent hm) with
      ⟨kind', hd, hd'⟩ | ⟨q, q', hd, hd', hq⟩
    · rw [ho, ho', hd, hd']
      dsimp only
      split
      · exact Effect.sameKind_fail ..
      · exact Effect.sameKind_fail ..
    · rw [ho, ho', hd, hd']
      exact Effect.sameKind_fail ..
  · rcases hab.locate hT hU hmap (hcuts.nulFree_destParent hm) with
      ⟨kind', hd, hd'⟩ | ⟨q, q', hd, hd', hq⟩
    · rw [ho, ho', hd, hd']
      exact Effect.sameKind_fail ..
    · rw [ho, ho', hd, hd']
      exact sameKind_atomicMoveEntry hT hU hmap hp hq horig hdest access

/-- **What a call answers is a matter of the map.** -/
theorem sameKind_atomic {c : Call} (hvalid : c.Valid) (hplain : c.Plain) (slot slot' : Nat) :
    (atomic T slot c).SameKind (atomic U slot' c) := by
  cases c with
  | create path type => exact sameKind_atomicCreate hT hU hmap hvalid.1 slot slot' type
  | remove path => exact sameKind_atomicRemove hT hU hmap hvalid
  | find path access => exact sameKind_atomicFind hT hU hmap hvalid
  | move origPath destPath access =>
    exact sameKind_atomicMove hT hU hmap hblank hblank' hvalid.1 hvalid.2
      (hplain origPath destPath access rfl).notAbove access

end Calls

end TecnicoFs
