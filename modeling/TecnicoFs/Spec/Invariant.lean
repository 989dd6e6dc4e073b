import TecnicoFs.Spec.Atomic

/-!
# Calls keep the tree

`atomic_treeInv`: whatever a call does, what it leaves is a tree.  The interesting case is
the move.  Nothing in the source checks that a directory is not moved into itself; that
it cannot happen is a property of how the paths are cut: what is left of both paths after
their common ancestor starts with different components, or one of them is empty.
-/

namespace TecnicoFs

open Function Graph

/-! ## The pieces of a path -/

theorem nulFree_of_mem {cs : List (List CChar)} {str : List CChar} (hs : NulFree str)
    (h : ∀ c ∈ cs, c ∈ comps str) : ∀ c ∈ cs, NulFree c :=
  fun c hc => nulFree_of_mem_comps hs (h c hc)

/-- The last component of a path, or nothing. -/
theorem nulFree_tfsPathPopLast {p : TfsPath} (hp : NulFree p.str) :
    NulFree (tfsPathPopLast p).1.str := by
  rcases tfsPathPopLast_spec p with ⟨h, -⟩ | ⟨-, h⟩
  · rw [h]
    simp [NulFree]
  · exact nulFree_of_mem_comps hp (by rw [h]; simp)

theorem nulFree_comps_popLast_rest {p : TfsPath} (hp : NulFree p.str) :
    ∀ c ∈ comps (tfsPathPopLast p).2.str, NulFree c := by
  rcases tfsPathPopLast_spec p with ⟨-, h, -⟩ | ⟨-, h⟩
  · rw [h]
    simp
  · exact nulFree_of_mem hp fun c hc => by rw [h]; simp [hc]

theorem comps_popLast_rest_eq_nil_iff (p : TfsPath) :
    comps (tfsPathPopLast p).2.str = [] ↔ (tfsPathPopLast p).2.len = 0 := by
  rw [len_eq_zero_iff_of_trimmed (trimmed_tfsPathPopLast_rest p)]

namespace MoveSplit

/-- What the pieces of the two paths of a move have to do with the paths. -/
structure Cuts (s : MoveSplit) (origPath destPath : TfsPath) : Prop where
  orig : comps origPath.str = comps s.ancestor.str ++ comps s.lhsRest.str
  dest : comps destPath.str = comps s.ancestor.str ++ comps s.rhsRest.str
  differ : ∀ c ∈ (comps s.lhsRest.str).head?, c ∉ (comps s.rhsRest.str).head?
  origPop : (s.origFilename.str = [] ∧ comps s.origParent.str = [] ∧ comps s.lhsRest.str = []) ∨
    (s.origFilename.str ≠ [] ∧
      comps s.lhsRest.str = comps s.origParent.str ++ [s.origFilename.str])
  destPop : (s.destFilename.str = [] ∧ comps s.destParent.str = [] ∧ comps s.rhsRest.str = []) ∨
    (s.destFilename.str ≠ [] ∧
      comps s.rhsRest.str = comps s.destParent.str ++ [s.destFilename.str])
  origParent : comps s.origParent.str = [] ↔ s.origParent.len = 0
  destParent : comps s.destParent.str = [] ↔ s.destParent.len = 0
  ancestor : comps s.ancestor.str = [] ↔ s.ancestor.len = 0

theorem popLast_cases (p : TfsPath) :
    ((tfsPathPopLast p).1.str = [] ∧ comps (tfsPathPopLast p).2.str = [] ∧ comps p.str = []) ∨
    ((tfsPathPopLast p).1.str ≠ [] ∧
      comps p.str = comps (tfsPathPopLast p).2.str ++ [(tfsPathPopLast p).1.str]) := by
  rcases tfsPathPopLast_spec p with ⟨h₁, h₂, h₃⟩ | h
  · exact Or.inl ⟨h₁, by rw [h₂, comps_nil], h₃⟩
  · exact Or.inr h

variable {origPath destPath : TfsPath} {s : MoveSplit}

theorem moveSplit_cuts (hn : NulFree origPath.str) (destPath : TfsPath) :
    (moveSplit origPath destPath).Cuts origPath destPath := by
  have h := @tfsPathCommonAncestor_splits origPath destPath hn
  exact
    { orig := h.lhs_rest.comps_eq
      dest := h.rhs_rest.comps_eq
      differ := h.differ
      origPop := popLast_cases _
      destPop := popLast_cases _
      origParent := comps_popLast_rest_eq_nil_iff _
      destParent := comps_popLast_rest_eq_nil_iff _
      ancestor := (len_eq_zero_iff_of_trimmed h.trimmed).symm }

/-- The components from the common ancestor to the origin, an empty name standing for the
ancestor itself. -/
def origNames (s : MoveSplit) : List (List CChar) :=
  comps s.origParent.str ++ [s.origFilename.str]

namespace Cuts

variable (h : s.Cuts origPath destPath)

include h

theorem nulFree_ancestor (hn : NulFree origPath.str) :
    ∀ c ∈ comps s.ancestor.str, NulFree c :=
  nulFree_of_mem hn fun c hc => by rw [h.orig]; simp [hc]

theorem nulFree_origNames (hn : NulFree origPath.str) : ∀ c ∈ s.origNames, NulFree c := by
  intro c hc
  rcases h.origPop with ⟨h₁, h₂, -⟩ | ⟨-, h₂⟩
  · rw [origNames, h₁, h₂] at hc
    rw [List.mem_singleton.mp hc]
    simp [NulFree]
  · exact nulFree_of_mem_comps hn (by rw [h.orig, h₂]; exact List.mem_append_right _ hc)

theorem nulFree_origParent (hn : NulFree origPath.str) :
    ∀ c ∈ comps s.origParent.str, NulFree c :=
  fun c hc => h.nulFree_origNames hn c (List.mem_append_left _ hc)

theorem nulFree_origFilename (hn : NulFree origPath.str) : NulFree s.origFilename.str :=
  h.nulFree_origNames hn _ (by simp [origNames])

theorem nulFree_destParent (hm : NulFree destPath.str) :
    ∀ c ∈ comps s.destParent.str, NulFree c := by
  intro c hc
  rcases h.destPop with ⟨-, h₂, -⟩ | ⟨-, h₂⟩
  · rw [h₂] at hc
    simp at hc
  · exact nulFree_of_mem_comps hm (by rw [h.dest, h₂]; simp [hc])

theorem nulFree_destFilename (hm : NulFree destPath.str) : NulFree s.destFilename.str := by
  rcases h.destPop with ⟨h₁, -⟩ | ⟨-, h₂⟩
  · rw [h₁]
    simp [NulFree]
  · exact nulFree_of_mem_comps hm (by rw [h.dest, h₂]; simp)

/-- **The origin is not above the parent of the destination.** -/
theorem diverge (hne : ¬(s.origParent.len = 0 ∧ s.destParent.len = 0)) :
    (comps s.destParent.str = [] ∧ comps s.origParent.str ≠ []) ∨
    ∃ c c' ds ds', s.origNames = c :: ds ∧ comps s.destParent.str = c' :: ds' ∧ c ≠ c' := by
  cases hd : comps s.destParent.str with
  | nil =>
    exact Or.inl ⟨rfl, fun ho => hne ⟨h.origParent.mp ho, h.destParent.mp hd⟩⟩
  | cons c' ds' =>
    right
    have hhead : (comps s.rhsRest.str).head? = some c' := by
      rcases h.destPop with ⟨-, h', -⟩ | ⟨-, h'⟩
      · rw [h'] at hd
        cases hd
      · rw [h', hd]
        rfl
    rcases h.origPop with ⟨hname, hparent, -⟩ | ⟨hname, hrest⟩
    · refine ⟨[], c', [], ds', by rw [origNames, hname, hparent]; rfl, rfl, ?_⟩
      have hmem : c' ∈ comps s.destParent.str := by rw [hd]; exact List.mem_cons_self
      exact (isName_of_mem_comps hmem).ne_nil.symm
    · cases hs : s.origNames with
      | nil => simp [origNames] at hs
      | cons c ds =>
        refine ⟨c, c', ds, ds', rfl, rfl, ?_⟩
        rintro rfl
        refine h.differ c ?_ hhead
        rw [hrest]
        exact congrArg List.head? hs

end Cuts

end MoveSplit

/-! ## What each edit does -/

variable {capacity : Nat} {T : Tree}

/-- A successful creation. -/
theorem atomicCreate_ok (hT : TreeInv capacity T) {slot : Nat} {path : TfsPath}
    {type : TfsInodeType} (hn : NulFree path.str) (htype : type ≠ .none) {i : Option Nat}
    (hok : (atomicCreate T slot path type).outcome = .ok i) (hs : T slot = .none)
    (hcap : slot < capacity) :
    ∃ p, locate T 0 (comps (tfsPathPopLast path).2.str) = .ok p ∧ (T p).type = .dir ∧
      (tfsPathPopLast path).1.str ≠ [] ∧ (∀ j, ¬Child T p (tfsPathPopLast path).1.str j) ∧
      TreeInv capacity (atomicCreate T slot path type).tree ∧
      (atomicCreate T slot path type).tree slot = tfsInodeInit type ∧
      (∀ j, j ≠ slot → ((atomicCreate T slot path type).tree j).type = (T j).type) ∧
      ∀ a c b, Child (atomicCreate T slot path type).tree a c b ↔
        Child T a c b ∨ (a = p ∧ c = (tfsPathPopLast path).1.str ∧ b = slot) := by
  unfold atomicCreate at hok ⊢
  split at hok
  · cases hok
  rename_i p hp
  split at hok
  swap
  · cases hok
  rename_i dir hdir
  have hname := nulFree_tfsPathPopLast hn
  rcases tfsInodeDirAddEntry_spec dir slot hname with ⟨err, herr, -⟩ |
    ⟨dir', hadd, hne, hnew, hperm, -⟩
  · rw [herr] at hok
    cases hok
  · obtain ⟨hinv, hchild⟩ := hT.create hdir hs hcap htype hnew hperm
    have hps : slot ≠ p := by rintro rfl; rw [hs] at hdir; cases hdir
    simp only [hp, hadd]
    refine ⟨p, rfl, by rw [hdir]; rfl, hne, fun j hj => hnew (TfsInodeDir.mem_names
      ((child_iff hdir).mp hj)), hinv, by rw [update_of_ne hps, update_self], ?_, hchild⟩
    intro j hj
    by_cases hjp : j = p
    · rw [hjp, update_self, hdir]; rfl
    · rw [update_of_ne hjp, update_of_ne hj]

theorem not_child_of_nonEmptyDir {x : Nat} (h : nonEmptyDir (T x) = false) (c : List CChar)
    (j : Nat) : ¬Child T x c j := by
  rintro ⟨d, hd, hmem⟩
  rw [hd] at h
  have hnil := tfsInodeDirIsEmpty_iff.mp (by simpa [nonEmptyDir] using h)
  rw [hnil] at hmem
  simp at hmem

/-- A successful removal. -/
theorem atomicRemove_ok (hT : TreeInv capacity T) {path : TfsPath} (hn : NulFree path.str)
    {i : Option Nat} (hok : (atomicRemove T path).outcome = .ok i) :
    ∃ p x, locate T 0 (comps (tfsPathPopLast path).2.str) = .ok p ∧
      Child T p (tfsPathPopLast path).1.str x ∧ nonEmptyDir (T x) = false ∧
      TreeInv capacity (atomicRemove T path).tree ∧ (atomicRemove T path).tree x = .none ∧
      (∀ j, j ≠ x → ((atomicRemove T path).tree j).type = (T j).type) ∧
      ∀ a c b, Child (atomicRemove T path).tree a c b ↔ Child T a c b ∧ b ≠ x := by
  unfold atomicRemove at hok ⊢
  split at hok
  · cases hok
  rename_i p hp
  split at hok
  swap
  · cases hok
  rename_i dir hdir
  split at hok
  · cases hok
  rename_i x dirIdx hs
  split at hok
  · cases hok
  rename_i hempty
  rw [Bool.not_eq_true] at hempty
  have hentry := tfsInodeDirSearchByName_eq_some (nulFree_tfsPathPopLast hn) hs
  have hleaf := not_child_of_nonEmptyDir hempty
  obtain ⟨hinv, hchild⟩ := hT.remove hdir (children_tfsInodeDirRemoveEntryByDirIdx hentry) hleaf
  simp only [hp, hempty, Bool.false_eq_true, if_false]
  refine ⟨p, x, rfl, (child_iff hdir).mpr (mem_children_of_search (nulFree_tfsPathPopLast hn) hs),
    hempty, hinv, update_self .., ?_, hchild⟩
  intro j hj
  rw [update_of_ne hj]
  by_cases hjp : j = p
  · rw [hjp, update_self, hdir]; rfl
  · rw [update_of_ne hjp]

/-- A successful rename inside of one directory. -/
theorem atomicRename_ok (hT : TreeInv capacity T) {p : Nat} {origName destName : List CChar}
    (hn : NulFree origName) (hm : NulFree destName) {i : Option Nat}
    (hok : (atomicRename T p origName destName).outcome = .ok i) :
    ∃ x d, Child T p origName x ∧ T p = .dir d ∧ i = some x ∧
      (destName = origName ∨ ∀ entry ∈ d.entries, entry.name ≠ destName) ∧
      TreeInv capacity (atomicRename T p origName destName).tree ∧
      (∀ j, ((atomicRename T p origName destName).tree j).type = (T j).type) ∧
      ∀ a c b, Child (atomicRename T p origName destName).tree a c b ↔
        RootedTree.Relink (Child T) x p destName a c b := by
  unfold atomicRename at hok ⊢
  split at hok
  swap
  · cases hok
  rename_i dir hdir
  split at hok
  · cases hok
  rename_i x dirIdx hs
  split at hok
  · cases hok
  rename_i dir' hren
  obtain rfl : some x = i := by simpa using hok
  have hmem := mem_children_of_search hn hs
  have hx : Child T p origName x := (child_iff hdir).mpr hmem
  have honly : ∀ name, (name, x) ∈ dir.children → name = origName := fun name hname =>
    (hT.tree.parent ((child_iff hdir).mpr hname) hx).2
  have htype : ∀ j, ((update T p (.dir dir')) j).type = (T j).type := by
    intro j
    by_cases hj : j = p
    · rw [hj, update_self, hdir]; rfl
    · rw [update_of_ne hj]
  refine ⟨x, dir, hx, hdir, rfl, ?_⟩
  dsimp only
  rcases tfsInodeDirRename_spec dir hm hmem honly with ⟨err, herr, -⟩ | ⟨hok', rfl⟩ |
    ⟨dir'', hok', hno, ⟨rest, hd, hd'⟩, -⟩
  · rw [herr] at hren
    cases hren
  · -- the name is the old one and nothing changes
    obtain rfl : dir = dir' := by rw [hok'] at hren; exact Except.ok.inj hren
    have hsame : update T p (.dir dir) = T := by rw [← hdir, update_eq_self]
    rw [hsame]
    refine ⟨Or.inl rfl, hT, fun _ => rfl, fun a c b => ?_⟩
    rw [RootedTree.Relink]
    constructor
    · intro h
      by_cases hb : b = x
      · subst hb
        obtain ⟨rfl, rfl⟩ := hT.tree.parent h hx
        exact Or.inr ⟨rfl, rfl, rfl⟩
      · exact Or.inl ⟨h, hb⟩
    · rintro (⟨h, -⟩ | ⟨rfl, rfl, rfl⟩)
      · exact h
      · exact hx
  · obtain rfl : dir'' = dir' := by rw [hok'] at hren; exact Except.ok.inj hren
    have hb : destName ∉ rest.map Prod.fst := by
      intro hb
      obtain ⟨⟨name, j⟩, hj, rfl⟩ := List.mem_map.mp hb
      exact hno _ (TfsInodeDir.mem_children_iff.mp (hd.mem_iff.mpr (List.mem_cons_of_mem _ hj)))
        rfl
    obtain ⟨hinv, hchild⟩ := hT.rename hdir hd hd' hb
    exact ⟨Or.inr hno, hinv, htype, hchild⟩

/-- A successful move between two directories. -/
theorem atomicMoveEntry_ok (hT : TreeInv capacity T) {p q : Nat} {origName destName : List CChar}
    {access : TfsRwLockAccess} (hn : NulFree origName) (hm : NulFree destName) (hpq : p ≠ q)
    (hout : ∀ x, Child T p origName x → ∀ ds, ¬Walk (Child T) x ds q) {i : Option Nat}
    (hok : (atomicMoveEntry T p q origName destName access).outcome = .ok i) :
    ∃ x, Child T p origName x ∧ i = some x ∧ destName ≠ [] ∧
      (∀ j, ¬Child T q destName j) ∧
      TreeInv capacity (atomicMoveEntry T p q origName destName access).tree ∧
      (∀ j, ((atomicMoveEntry T p q origName destName access).tree j).type = (T j).type) ∧
      ∀ a c b, Child (atomicMoveEntry T p q origName destName access).tree a c b ↔
        RootedTree.Relink (Child T) x q destName a c b := by
  unfold atomicMoveEntry at hok ⊢
  split at hok
  swap
  · cases hok
  rename_i dir hdir
  split at hok
  swap
  · cases hok
  rename_i dest hdest
  split at hok
  · cases hok
  rename_i x dirIdx hs
  split at hok
  · cases hok
  rename_i dest' hadd'
  obtain rfl : some x = i := by simpa using hok
  have hx : Child T p origName x := (child_iff hdir).mpr (mem_children_of_search hn hs)
  rcases tfsInodeDirAddEntry_spec dest x hm with ⟨err, herr, -⟩ |
    ⟨dest'', hadd, hne, hnew, hperm, -⟩
  · rw [herr] at hadd'
    cases hadd'
  · obtain rfl : dest'' = dest' := by rw [hadd] at hadd'; exact Except.ok.inj hadd'
    have hentry := tfsInodeDirSearchByName_eq_some hn hs
    obtain ⟨hinv, hchild⟩ := hT.move hdir hdest hpq
      (children_tfsInodeDirRemoveEntryByDirIdx hentry) hperm hnew (hout x hx)
    refine ⟨x, hx, rfl, hne, fun j hj => hnew (TfsInodeDir.mem_names ((child_iff hdest).mp hj)),
      hinv, ?_, hchild⟩
    intro j
    dsimp only
    by_cases hjp : j = p
    · rw [hjp, update_self, hdir]; rfl
    · rw [update_of_ne hjp]
      by_cases hjq : j = q
      · rw [hjq, update_self, hdest]; rfl
      · rw [update_of_ne hjq]

/-- The two parents of a move between directories are different, and the origin is not
above the second one. -/
theorem MoveSplit.Cuts.apart {s : MoveSplit} {origPath destPath : TfsPath}
    (h : s.Cuts origPath destPath) (hT : TreeInv capacity T) (hn : NulFree origPath.str)
    (hm : NulFree destPath.str) (hne : ¬(s.origParent.len = 0 ∧ s.destParent.len = 0))
    {a p q : Nat} (ha : locate T 0 (comps s.ancestor.str) = .ok a)
    (hp : locate T a (comps s.origParent.str) = .ok p)
    (hq : locate T a (comps s.destParent.str) = .ok q) :
    p ≠ q ∧ ∀ x, Child T p s.origFilename.str x → ∀ ds, ¬Walk (Child T) x ds q := by
  have wa := (locate_eq_ok_iff hT (h.nulFree_ancestor hn)).mp ha
  have wp := wa.append ((locate_eq_ok_iff hT (h.nulFree_origParent hn)).mp hp)
  have wq := wa.append ((locate_eq_ok_iff hT (h.nulFree_destParent hm)).mp hq)
  have wx : ∀ x, Child T p s.origFilename.str x →
      Walk (Child T) 0 (comps s.ancestor.str ++ s.origNames) x := by
    intro x hx
    rw [MoveSplit.origNames, ← List.append_assoc]
    exact wp.snoc hx
  rcases h.diverge hne with ⟨hd, ho⟩ | ⟨c, c', ds, ds', ho, hd, hcc⟩
  · rw [hd, List.append_nil] at wq
    constructor
    · rintro rfl
      have := hT.tree.walk_labels wp wq
      simp [ho] at this
    · intro x hx es w
      have hlab := hT.tree.walk_labels wq ((wx x hx).append w)
      have hlen := congrArg List.length hlab
      rw [List.length_append, List.length_append, MoveSplit.origNames, List.length_append,
        List.length_singleton] at hlen
      omega
  · rw [hd] at wq
    constructor
    · rintro rfl
      have hlab := hT.tree.walk_labels wp wq
      rw [List.append_cancel_left_eq] at hlab
      rw [MoveSplit.origNames, hlab, List.cons_append, List.cons.injEq] at ho
      exact hcc ho.1.symm
    · intro x hx
      exact hT.tree.not_below_of_labels (ho ▸ wx x hx) wq hcc

/-- If nothing is left of either path, neither has a parent of its own. -/
theorem MoveSplit.Cuts.parents_of_rest {s : MoveSplit} {origPath destPath : TfsPath}
    (h : s.Cuts origPath destPath) (hrest : s.rhsRest.len = 0 ∧ s.lhsRest.len = 0) :
    s.origParent.len = 0 ∧ s.destParent.len = 0 := by
  obtain ⟨hr, hl⟩ := hrest
  rw [len_eq_zero_iff] at hr hl
  constructor
  · rcases h.origPop with ⟨-, hnil, -⟩ | ⟨-, hcomps⟩
    · exact h.origParent.mp hnil
    · rw [hl, comps_nil] at hcomps
      simp at hcomps
  · rcases h.destPop with ⟨-, hnil, -⟩ | ⟨-, hcomps⟩
    · exact h.destParent.mp hnil
    · rw [hr, comps_nil] at hcomps
      simp at hcomps

/-- **A move between two directories that are there.** -/
theorem atomicMove_of_parents {origPath destPath : TfsPath} (hn : NulFree origPath.str)
    (ho : tfsPathEq origPath (moveSplit origPath destPath).destParent = false)
    (hd : tfsPathEq (moveSplit origPath destPath).origParent destPath = false)
    (hne : ¬((moveSplit origPath destPath).origParent.len = 0 ∧
      (moveSplit origPath destPath).destParent.len = 0)) {p q : Nat}
    (hp : locate T 0 (comps (moveSplit origPath destPath).ancestor.str ++
      comps (moveSplit origPath destPath).origParent.str) = .ok p)
    (hq : locate T 0 (comps (moveSplit origPath destPath).ancestor.str ++
      comps (moveSplit origPath destPath).destParent.str) = .ok q)
    (hpd : (T p).type = .dir) (access : TfsRwLockAccess) :
    atomicMove T origPath destPath access =
      atomicMoveEntry T p q (moveSplit origPath destPath).origFilename.str
        (moveSplit origPath destPath).destFilename.str access := by
  have hcuts := MoveSplit.moveSplit_cuts hn destPath
  obtain ⟨a, ha, hap⟩ := exists_locate_of_append hp
  rw [locate_append_of_ok ha] at hq
  have hdir : (T a).type = .dir := by
    cases hcs : comps (moveSplit origPath destPath).origParent.str with
    | nil =>
      rw [hcs, locate_nil, Except.ok.injEq] at hap
      exact hap ▸ hpd
    | cons c cs =>
      rw [hcs] at hap
      obtain ⟨d, -, -, hd, -⟩ := locate_cons_eq_ok hap
      rw [hd]
      rfl
  rw [atomicMove_of_ancestor ho hd ha,
    atomicMoveFrom_of_parents (fun h => hne (hcuts.parents_of_rest h)) hdir hne hap hq]

/-- The ways in which a move can succeed. -/
theorem atomicMove_cases {origPath destPath : TfsPath} {access : TfsRwLockAccess} {i : Option Nat}
    (hok : (atomicMove T origPath destPath access).outcome = .ok i) :
    ∃ s, s = moveSplit origPath destPath ∧ tfsPathEq origPath s.destParent = false ∧
      tfsPathEq s.origParent destPath = false ∧ ∃ a, locate T 0 (comps s.ancestor.str) = .ok a ∧
      ((s.rhsRest.len = 0 ∧ s.lhsRest.len = 0 ∧
          atomicMove T origPath destPath access = ⟨.ok (some a), T, none⟩) ∨
        (¬(s.rhsRest.len = 0 ∧ s.lhsRest.len = 0) ∧ s.origParent.len = 0 ∧ s.destParent.len = 0 ∧
          atomicMove T origPath destPath access =
            atomicRename T a s.origFilename.str s.destFilename.str) ∨
        (¬(s.origParent.len = 0 ∧ s.destParent.len = 0) ∧ ∃ p q,
          locate T a (comps s.origParent.str) = .ok p ∧
          locate T a (comps s.destParent.str) = .ok q ∧
          atomicMove T origPath destPath access =
            atomicMoveEntry T p q s.origFilename.str s.destFilename.str access)) := by
  refine ⟨_, rfl, ?_⟩
  unfold atomicMove at hok ⊢
  generalize moveSplit origPath destPath = s at *
  dsimp only at hok ⊢
  by_cases h₁ : tfsPathEq origPath s.destParent = true
  · rw [if_pos h₁] at hok
    cases hok
  rw [if_neg h₁] at hok ⊢
  by_cases h₂ : tfsPathEq s.origParent destPath = true
  · rw [if_pos h₂] at hok
    cases hok
  rw [if_neg h₂] at hok ⊢
  refine ⟨by simpa using h₁, by simpa using h₂, ?_⟩
  cases ha : locate T 0 (comps s.ancestor.str) with
  | error e => rw [ha] at hok; cases hok
  | ok a =>
    rw [ha] at hok
    refine ⟨a, rfl, ?_⟩
    dsimp only at hok ⊢
    rw [atomicMoveFrom] at hok ⊢
    by_cases h₃ : s.rhsRest.len = 0 ∧ s.lhsRest.len = 0
    · exact Or.inl ⟨h₃.1, h₃.2, if_pos h₃⟩
    rw [if_neg h₃] at hok ⊢
    by_cases h₄ : (T a).type = .dir
    swap
    · rw [if_pos h₄] at hok
      cases hok
    rw [if_neg (not_not.mpr h₄)] at hok ⊢
    by_cases h₅ : s.origParent.len = 0 ∧ s.destParent.len = 0
    · exact Or.inr (Or.inl ⟨h₃, h₅.1, h₅.2, if_pos h₅⟩)
    rw [if_neg h₅] at hok ⊢
    refine Or.inr (Or.inr ⟨h₅, ?_⟩)
    cases hp : locate T a (comps s.origParent.str) with
    | error e =>
      rw [hp] at hok
      cases hq : locate T a (comps s.destParent.str) with
      | error e' => rw [hq] at hok; dsimp only at hok; split at hok <;> cases hok
      | ok q => rw [hq] at hok; cases hok
    | ok p =>
      rw [hp] at hok
      cases hq : locate T a (comps s.destParent.str) with
      | error e => rw [hq] at hok; cases hok
      | ok q => exact ⟨p, q, rfl, rfl, rfl⟩

/-- If the call fails, it leaves the tree as it is. -/
def Effect.FailsClean (T : Tree) (e : Effect) : Prop :=
  ∀ kind, e.outcome = .error kind → e.tree = T

theorem failsClean_fail (kind : ErrorKind) : (Effect.fail T kind).FailsClean T := fun _ _ => rfl

theorem failsClean_ok (i : Option Nat) (T' : Tree) (leak : Option (Nat × TfsRwLockAccess)) :
    (Effect.mk (.ok i) T' leak).FailsClean T := fun _ h => nomatch h

theorem atomicRename_failsClean (p : Nat) (origName destName : List CChar) :
    (atomicRename T p origName destName).FailsClean T := by
  unfold atomicRename
  split
  · split
    · exact failsClean_fail _
    · split
      · exact failsClean_fail _
      · exact failsClean_ok _ _ _
  · exact failsClean_fail _

theorem atomicMoveEntry_failsClean (p q : Nat) (origName destName : List CChar)
    (access : TfsRwLockAccess) :
    (atomicMoveEntry T p q origName destName access).FailsClean T := by
  unfold atomicMoveEntry
  split
  · split
    · split
      · exact failsClean_fail _
      · split
        · exact fun _ _ => rfl
        · exact failsClean_ok _ _ _
    · exact failsClean_fail _
  · exact failsClean_fail _

theorem atomicMove_failsClean (origPath destPath : TfsPath) (access : TfsRwLockAccess) :
    (atomicMove T origPath destPath access).FailsClean T := by
  unfold atomicMove
  generalize moveSplit origPath destPath = s
  dsimp only
  split
  · exact failsClean_fail _
  split
  · exact failsClean_fail _
  split
  · exact failsClean_fail _
  rw [atomicMoveFrom]
  split
  · exact failsClean_ok _ _ _
  split
  · exact failsClean_fail _
  split
  · exact atomicRename_failsClean _ _ _
  split
  · exact atomicMoveEntry_failsClean _ _ _ _ _
  · exact failsClean_fail _
  · exact failsClean_fail _
  · split <;> exact failsClean_fail _

theorem atomicCreate_failsClean (slot : Nat) (path : TfsPath) (type : TfsInodeType) :
    (atomicCreate T slot path type).FailsClean T := by
  unfold atomicCreate
  split
  · exact failsClean_fail _
  · split
    · split
      · exact failsClean_fail _
      · exact failsClean_ok _ _ _
    · exact failsClean_fail _

theorem atomicRemove_failsClean (path : TfsPath) : (atomicRemove T path).FailsClean T := by
  unfold atomicRemove
  split
  · exact failsClean_fail _
  · split
    · split
      · exact failsClean_fail _
      · split
        · exact failsClean_fail _
        · exact failsClean_ok _ _ _
    · exact failsClean_fail _

theorem atomicFind_tree (path : TfsPath) : (atomicFind T path).tree = T := by
  rw [atomicFind]
  split <;> rfl

theorem atomicCreate_leak (T : Tree) (slot : Nat) (path : TfsPath) (type : TfsInodeType) :
    (atomicCreate T slot path type).leak = none := by
  unfold atomicCreate
  split
  · rfl
  split
  · split <;> rfl
  · rfl

theorem atomicRemove_leak (T : Tree) (path : TfsPath) : (atomicRemove T path).leak = none := by
  unfold atomicRemove
  split
  · rfl
  split
  · split
    · rfl
    · split <;> rfl
  · rfl

theorem atomicFind_leak (T : Tree) (path : TfsPath) : (atomicFind T path).leak = none := by
  rw [atomicFind]
  split <;> rfl

/-- Only a move can keep something. -/
theorem atomic_leak {c : Call} (hmove : ¬(Task.call c).Moves) (T : Tree) (slot : Nat) :
    (atomic T slot c).leak = none := by
  cases c with
  | create path type => exact atomicCreate_leak T slot path type
  | remove path => exact atomicRemove_leak T path
  | find path access => exact atomicFind_leak T path
  | move origPath destPath access => exact absurd ⟨_, _, _, rfl⟩ hmove

/-- **A call that fails leaves the tree as it is.** -/
theorem atomic_failsClean (slot : Nat) (c : Call) : (atomic T slot c).FailsClean T := by
  cases c with
  | create path type => exact atomicCreate_failsClean slot path type
  | remove path => exact atomicRemove_failsClean path
  | find path access => exact fun _ _ => atomicFind_tree path
  | move origPath destPath access => exact atomicMove_failsClean origPath destPath access

/-- **Every call keeps the tree.** -/
theorem atomic_treeInv (hT : TreeInv capacity T) {slot : Nat} {c : Call} (hc : c.Valid)
    (hfit : Fits capacity T slot c) : TreeInv capacity (atomic T slot c).tree := by
  cases hok : (atomic T slot c).outcome with
  | error kind => rwa [atomic_failsClean slot c kind hok]
  | ok i =>
    cases c with
    | create path type =>
      obtain ⟨hs, hcap⟩ := hfit path type rfl ⟨i, hok⟩
      obtain ⟨p, -, -, -, -, h, -⟩ := atomicCreate_ok hT hc.1 hc.2 hok hs hcap
      exact h
    | remove path =>
      obtain ⟨p, x, -, -, -, h, -⟩ := atomicRemove_ok hT hc hok
      exact h
    | find path access =>
      exact (atomicFind_tree path).symm ▸ hT
    | move origPath destPath access =>
      obtain ⟨s, rfl, -, -, a, ha, h⟩ := atomicMove_cases hok
      have hcuts := MoveSplit.moveSplit_cuts hc.1 destPath
      change (atomicMove T origPath destPath access).outcome = _ at hok
      show TreeInv capacity (atomicMove T origPath destPath access).tree
      rcases h with ⟨-, -, heq⟩ | ⟨-, -, -, heq⟩ | ⟨hne, p, q, hp, hq, heq⟩
      · rw [heq]
        exact hT
      · rw [heq] at hok ⊢
        obtain ⟨x, d, -, -, -, -, h, -⟩ := atomicRename_ok hT (hcuts.nulFree_origFilename hc.1)
          (hcuts.nulFree_destFilename hc.2) hok
        exact h
      · obtain ⟨hpq, hout⟩ := hcuts.apart hT hc.1 hc.2 hne ha hp hq
        rw [heq] at hok ⊢
        obtain ⟨x, -, -, -, -, h, -⟩ := atomicMoveEntry_ok hT (hcuts.nulFree_origFilename hc.1)
          (hcuts.nulFree_destFilename hc.2) hpq hout hok
        exact h

end TecnicoFs
