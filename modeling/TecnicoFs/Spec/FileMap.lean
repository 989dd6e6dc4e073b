import TecnicoFs.Spec.Names

/-!
# The file system as a map

What a file system is for, without inodes: a partial map from lists of names to files and
directories.  The tree in the inode table is one such map (`treeMap`), and what creating
and removing do to the table is what they should do to the map.
-/

namespace TecnicoFs

open Function Graph

/-- What is at the end of each list of names. -/
abbrev FileMap := List (List CChar) → Option TfsInodeType

namespace FileMap

/-- The parent is a directory, and the name is not taken. -/
def CanCreate (f : FileMap) (cs : List (List CChar)) : Prop :=
  ∃ pre name, cs = pre ++ [name] ∧ f pre = some .dir ∧ f cs = none

/-- There is a file, or a directory without children. -/
def CanRemove (f : FileMap) (cs : List (List CChar)) : Prop :=
  cs ≠ [] ∧ (f cs = some .file ∨ f cs = some .dir ∧ ∀ name, f (cs ++ [name]) = none)

end FileMap

open Classical in
/-- **The map of a tree.** -/
noncomputable def treeMap (T : Tree) : FileMap := fun cs =>
  if h : ∃ i, Walk (Child T) 0 cs i then some (T h.choose).type else none

variable {capacity : Nat} {T T' : Tree} {cs : List (List CChar)}

theorem treeMap_eq_none_iff : treeMap T cs = none ↔ ∀ i, ¬Walk (Child T) 0 cs i := by
  rw [treeMap]
  split
  · rename_i h
    simpa using h
  · rename_i h
    simpa using h

theorem treeMap_of_walk (hT : TreeInv capacity T) {i : Nat} (w : Walk (Child T) 0 cs i) :
    treeMap T cs = some (T i).type := by
  have h : ∃ i, Walk (Child T) 0 cs i := ⟨i, w⟩
  rw [treeMap, dif_pos h, hT.tree.walk_end h.choose_spec w]

theorem exists_walk_of_treeMap {type : TfsInodeType} (h : treeMap T cs = some type) :
    ∃ i, Walk (Child T) 0 cs i ∧ (T i).type = type := by
  rw [treeMap] at h
  split at h
  · rename_i hw
    exact ⟨_, hw.choose_spec, Option.some.inj h⟩
  · cases h

/-- What is right below a path. -/
theorem treeMap_snoc_eq_none_iff (hT : TreeInv capacity T) {x : Nat}
    (w : Walk (Child T) 0 cs x) {name : List CChar} :
    treeMap T (cs ++ [name]) = none ↔ ∀ j, ¬Child T x name j := by
  rw [treeMap_eq_none_iff]
  refine forall_congr' fun j => not_congr ⟨fun h => ?_, w.snoc⟩
  obtain ⟨x', w', hchild⟩ := Walk.snoc_iff.mp h
  exact hT.tree.walk_end w' w ▸ hchild

/-! ## Creating -/

/-- **A creation succeeds exactly when the map allows it.** -/
theorem atomicCreate_ok_iff (hT : TreeInv capacity T) {slot : Nat} {path : TfsPath}
    {type : TfsInodeType} (hvalid : (Call.create path type).Valid)
    (hfit : Fits capacity T slot (.create path type)) :
    (∃ i, (atomicCreate T slot path type).outcome = .ok i) ↔
      (treeMap T).CanCreate (comps path.str) := by
  obtain ⟨hn, htype⟩ := hvalid
  have hrest := nulFree_comps_popLast_rest hn
  constructor
  · rintro ⟨i, hok⟩
    obtain ⟨hs, hcap⟩ := hfit path type rfl ⟨i, hok⟩
    obtain ⟨p, hp, hdir, hne, hno, -⟩ := atomicCreate_ok hT hn htype hok hs hcap
    have wp := (locate_eq_ok_iff hT hrest).mp hp
    rcases tfsPathPopLast_spec path with ⟨hnil, -⟩ | ⟨-, hcomps⟩
    · exact absurd hnil hne
    · refine ⟨_, _, hcomps, by rw [treeMap_of_walk hT wp, hdir], ?_⟩
      rw [treeMap_eq_none_iff, hcomps]
      intro j w
      obtain ⟨p', wp', hchild⟩ := Walk.snoc_iff.mp w
      exact hno j (hT.tree.walk_end wp' wp ▸ hchild)
  · rintro ⟨pre, name, hcs, hpre, hnone⟩
    rcases tfsPathPopLast_spec path with ⟨-, -, hnil⟩ | ⟨hne, hcomps⟩
    · rw [hnil] at hcs
      simp at hcs
    obtain ⟨rfl, hname⟩ := List.append_inj' (hcomps.symm.trans hcs) rfl
    obtain ⟨p, wp, hdir⟩ := exists_walk_of_treeMap hpre
    obtain ⟨d, hd⟩ := TfsInode.type_eq_dir_iff.mp hdir
    rw [atomicCreate_of_dir ((locate_eq_ok_iff hT hrest).mpr wp) hd]
    rcases tfsInodeDirAddEntry_spec d slot (nulFree_tfsPathPopLast hn) with
      ⟨err, -, hnil | hmem⟩ | ⟨d', hok, -⟩
    · exact absurd hnil hne
    · obtain ⟨⟨name', j⟩, hj, rfl⟩ := List.mem_map.mp hmem
      rw [treeMap_eq_none_iff, hcomps] at hnone
      exact absurd (wp.snoc ((child_iff hd).mpr hj)) (hnone j)
    · rw [hok]
      exact ⟨_, rfl⟩

/-- **What a creation does to the map.** -/
theorem treeMap_atomicCreate (hT : TreeInv capacity T) {slot : Nat} {path : TfsPath}
    {type : TfsInodeType} (hvalid : (Call.create path type).Valid)
    (hfit : Fits capacity T slot (.create path type)) {i : Option Nat}
    (hok : (atomicCreate T slot path type).outcome = .ok i) :
    treeMap (atomicCreate T slot path type).tree =
      update (treeMap T) (comps path.str) (some type) := by
  obtain ⟨hn, htype⟩ := hvalid
  obtain ⟨hs, hcap⟩ := hfit path type rfl ⟨i, hok⟩
  obtain ⟨p, hp, hdir, hne, hno, hT', hslot, hother, hchild⟩ :=
    atomicCreate_ok hT hn htype hok hs hcap
  generalize (atomicCreate T slot path type).tree = T' at *
  have wp := (locate_eq_ok_iff hT (nulFree_comps_popLast_rest hn)).mp hp
  have hcomps : comps path.str =
      comps (tfsPathPopLast path).2.str ++ [(tfsPathPopLast path).1.str] := by
    rcases tfsPathPopLast_spec path with ⟨hnil, -⟩ | ⟨-, hcomps⟩
    · exact absurd hnil hne
    · exact hcomps
  have hwalk : ∀ cs j, Walk (Child T') 0 cs j ↔
      Walk (Child T) 0 cs j ∨ (cs = comps path.str ∧ j = slot) := by
    intro cs j
    rw [hcomps, ← hT.tree.walk_link (by simp [hs]) wp]
    exact ⟨fun w => w.mono fun a c b => (hchild a c b).mp,
      fun w => w.mono fun a c b => (hchild a c b).mpr⟩
  funext cs
  by_cases hcs : cs = comps path.str
  · subst hcs
    rw [update_self, treeMap_of_walk hT' ((hwalk _ slot).mpr (Or.inr ⟨rfl, rfl⟩)), hslot,
      type_tfsInodeInit]
  · rw [update_of_ne hcs]
    cases h : treeMap T cs with
    | none =>
      rw [treeMap_eq_none_iff] at h ⊢
      intro j w
      rcases (hwalk cs j).mp w with w | ⟨heq, -⟩
      · exact h j w
      · exact hcs heq
    | some type' =>
      obtain ⟨j, w, rfl⟩ := exists_walk_of_treeMap h
      have hj : j ≠ slot := by
        rintro rfl
        exact hT.tree.walk_live hT.tree.live_root w hs
      rw [treeMap_of_walk hT' ((hwalk cs j).mpr (Or.inl w)), hother j hj]

/-! ## Removing -/

/-- A directory counts as empty exactly when nothing is below it. -/
theorem nonEmptyDir_eq_false_iff {x : Nat} : nonEmptyDir (T x) = false ↔ ∀ c j, ¬Child T x c j := by
  refine ⟨not_child_of_nonEmptyDir, fun h => ?_⟩
  cases hx : T x with
  | none => rfl
  | file => rfl
  | dir d =>
    have hnil : d.children = [] := by
      rw [List.eq_nil_iff_forall_not_mem]
      rintro ⟨name, j⟩ hmem
      exact h name j ⟨d, hx, hmem⟩
    simp [nonEmptyDir, tfsInodeDirIsEmpty_iff.mpr hnil]

/-- What a successful removal finds at the path. -/
theorem walk_of_atomicRemove_ok (hT : TreeInv capacity T) (hnamed : Named T) {path : TfsPath}
    (hn : NulFree path.str) {p x : Nat}
    (hp : locate T 0 (comps (tfsPathPopLast path).2.str) = .ok p)
    (hx : Child T p (tfsPathPopLast path).1.str x) :
    comps path.str ≠ [] ∧ Walk (Child T) 0 (comps path.str) x := by
  have wp := (locate_eq_ok_iff hT (nulFree_comps_popLast_rest hn)).mp hp
  rcases tfsPathPopLast_spec path with ⟨hnil, -⟩ | ⟨-, hcomps⟩
  · exact absurd hnil (hnamed p _ x hx).1.ne_nil
  · rw [hcomps]
    exact ⟨by simp, wp.snoc hx⟩

/-- **A removal succeeds exactly when the map allows it**, if the names are as documented. -/
theorem atomicRemove_ok_iff (hT : TreeInv capacity T) (hnamed : Named T) {path : TfsPath}
    (hn : NulFree path.str) :
    (∃ i, (atomicRemove T path).outcome = .ok i) ↔ (treeMap T).CanRemove (comps path.str) := by
  have hbelow : ∀ {x : Nat}, Walk (Child T) 0 (comps path.str) x →
      ((∀ name, treeMap T (comps path.str ++ [name]) = none) ↔ ∀ c j, ¬Child T x c j) :=
    fun w => forall_congr' fun _ => treeMap_snoc_eq_none_iff hT w
  constructor
  · rintro ⟨i, hok⟩
    obtain ⟨p, x, hp, hx, hempty, -⟩ := atomicRemove_ok hT hn hok
    obtain ⟨hne, w⟩ := walk_of_atomicRemove_ok hT hnamed hn hp hx
    refine ⟨hne, ?_⟩
    rw [treeMap_of_walk hT w, hbelow w]
    cases htype : (T x).type with
    | none => exact absurd (TfsInode.type_eq_none_iff.mp htype) (hT.live_of_child hx)
    | file => exact Or.inl rfl
    | dir => exact Or.inr ⟨rfl, nonEmptyDir_eq_false_iff.mp hempty⟩
  · rintro ⟨hne, h⟩
    rcases tfsPathPopLast_spec path with ⟨-, -, hnil⟩ | ⟨-, hcomps⟩
    · exact absurd hnil hne
    obtain ⟨x, w, hleaf⟩ : ∃ x, Walk (Child T) 0 (comps path.str) x ∧ ∀ c j, ¬Child T x c j := by
      rcases h with h | ⟨h, hno⟩
      · obtain ⟨x, w, htype⟩ := exists_walk_of_treeMap h
        exact ⟨x, w, fun c j => not_child (by rw [htype]; simp)⟩
      · obtain ⟨x, w, -⟩ := exists_walk_of_treeMap h
        exact ⟨x, w, (hbelow w).mp hno⟩
    rw [hcomps] at w
    obtain ⟨p, wp, d, hd, hmem⟩ := Walk.snoc_iff.mp w
    have hname := nulFree_tfsPathPopLast hn
    obtain ⟨dirIdx, hsearch⟩ := search_of_mem_children (hT.names hd) hname hmem
    have hp := (locate_eq_ok_iff hT (nulFree_comps_popLast_rest hn)).mpr wp
    rw [atomicRemove_of_dir hp hd, hsearch]
    dsimp only
    rw [nonEmptyDir_eq_false_iff.mpr hleaf]
    exact ⟨_, rfl⟩

/-- What a removal does to the map, if the path is not that of the root. -/
theorem treeMap_atomicRemove_of_ne_nil (hT : TreeInv capacity T) {path : TfsPath}
    (hn : NulFree path.str) (hne : comps path.str ≠ []) {i : Option Nat}
    (hok : (atomicRemove T path).outcome = .ok i) :
    treeMap (atomicRemove T path).tree = update (treeMap T) (comps path.str) none ∧
      ∀ x, Walk (Child T) 0 (comps path.str) x → (atomicRemove T path).tree x = .none := by
  obtain ⟨p, x, hp, hx, hempty, hT', hnone, hother, hchild⟩ := atomicRemove_ok hT hn hok
  have wx : Walk (Child T) 0 (comps path.str) x := by
    rcases tfsPathPopLast_spec path with ⟨-, -, hnil⟩ | ⟨-, hcomps⟩
    · exact absurd hnil hne
    · rw [hcomps]
      exact ((locate_eq_ok_iff hT (nulFree_comps_popLast_rest hn)).mp hp).snoc hx
  generalize (atomicRemove T path).tree = T' at *
  refine ⟨?_, fun x' w => hT.tree.walk_end w wx ▸ hnone⟩
  have hleaf := nonEmptyDir_eq_false_iff.mp hempty
  have hwalk : ∀ cs j, Walk (Child T') 0 cs j ↔ Walk (Child T) 0 cs j ∧ j ≠ x := by
    intro cs j
    rw [← hT.tree.walk_unlink hx hleaf]
    exact ⟨fun w => w.mono fun a c b => (hchild a c b).mp,
      fun w => w.mono fun a c b => (hchild a c b).mpr⟩
  funext cs
  by_cases hcs : cs = comps path.str
  · subst hcs
    rw [update_self, treeMap_eq_none_iff]
    intro j w
    obtain ⟨w, hj⟩ := (hwalk _ j).mp w
    exact hj (hT.tree.walk_end w wx)
  · rw [update_of_ne hcs]
    cases h : treeMap T cs with
    | none =>
      rw [treeMap_eq_none_iff] at h ⊢
      exact fun j w => h j ((hwalk cs j).mp w).1
    | some type =>
      obtain ⟨j, w, rfl⟩ := exists_walk_of_treeMap h
      have hj : j ≠ x := by
        rintro rfl
        exact hcs (hT.tree.walk_labels w wx)
      rw [treeMap_of_walk hT' ((hwalk cs j).mpr ⟨w, hj⟩), hother j hj]

/-- **What a removal does to the map**: the slot of the path is emptied as well. -/
theorem treeMap_atomicRemove (hT : TreeInv capacity T) (hnamed : Named T) {path : TfsPath}
    (hn : NulFree path.str) {i : Option Nat} (hok : (atomicRemove T path).outcome = .ok i) :
    treeMap (atomicRemove T path).tree = update (treeMap T) (comps path.str) none ∧
      ∀ x, Walk (Child T) 0 (comps path.str) x → (atomicRemove T path).tree x = .none := by
  obtain ⟨p, x, hp, hx, -⟩ := atomicRemove_ok hT hn hok
  exact treeMap_atomicRemove_of_ne_nil hT hn (walk_of_atomicRemove_ok hT hnamed hn hp hx).1 hok

end TecnicoFs
