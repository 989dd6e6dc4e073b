import TecnicoFs.Machine
import TecnicoFs.Graph.RootedTree

/-!
# The tree in the inode table

What the slots of the inode table mean: slot `i` has the child `j` under some name when
it is a directory with an occupied entry for it.  `TreeInv` says that this is a tree
rooted at slot 0 with all slots that are in use, and that no directory has two entries
of one name.  The names themselves can be anything.

Every change the file system makes is one of three edits of that tree, and each of them
keeps `TreeInv`.
-/

namespace TecnicoFs

open Function Graph

/-- The contents of all slots. -/
abbrev Tree := Nat → TfsInode

/-- Slot `i` is a directory with an occupied entry for `j`. -/
def Child (T : Tree) (i : Nat) (name : List CChar) (j : Nat) : Prop :=
  ∃ d, T i = .dir d ∧ (name, j) ∈ d.children

theorem child_iff {T : Tree} {i : Nat} {d : TfsInodeDir} (h : T i = .dir d) {name : List CChar}
    {j : Nat} : Child T i name j ↔ (name, j) ∈ d.children := by
  constructor
  · rintro ⟨d', hd', hmem⟩
    rw [h, TfsInode.dir.injEq] at hd'
    exact hd' ▸ hmem
  · exact fun hmem => ⟨d, h, hmem⟩

/-- A slot that is no directory has no children. -/
theorem not_child {T : Tree} {i : Nat} (h : (T i).type ≠ .dir) {name : List CChar} {j : Nat} :
    ¬Child T i name j := by
  rintro ⟨d, hd, -⟩
  exact h (by rw [hd]; rfl)

theorem Child.congr {T T' : Tree} {i : Nat} (h : T' i = T i) {name : List CChar} {j : Nat} :
    Child T' i name j ↔ Child T i name j := by
  rw [Child, Child, h]

/-- If nothing below `i` has changed, the walks from `i` are the old ones. -/
theorem walk_congr {T T' : Tree} {i j : Nat} {cs : List (List CChar)}
    (h : ∀ ds k, Walk (Child T) i ds k → T' k = T k) :
    Walk (Child T') i cs j ↔ Walk (Child T) i cs j := by
  induction cs using List.reverseRecOn generalizing j with
  | nil => exact Walk.nil_iff.trans Walk.nil_iff.symm
  | append_singleton ds c ih =>
    rw [Walk.snoc_iff, Walk.snoc_iff]
    refine exists_congr fun k => ?_
    rw [ih]
    exact and_congr_right fun w => Child.congr (h ds k w)

/-- **The tree invariant.** -/
structure TreeInv (capacity : Nat) (T : Tree) : Prop where
  root : (T 0).type = .dir
  bound : ∀ {i}, T i ≠ .none → i < capacity
  names : ∀ {i d}, T i = .dir d → d.names.Nodup
  tree : RootedTree (Child T) 0 fun i => T i ≠ .none

namespace TreeInv

variable {capacity : Nat} {T : Tree}

theorem live_of_child (hT : TreeInv capacity T) {i j : Nat} {name : List CChar}
    (h : Child T i name j) : T j ≠ .none :=
  hT.tree.live_right h

/-- A walk from the root is shorter than the table. -/
theorem walk_length_lt (hT : TreeInv capacity T) {cs : List (List CChar)} {i : Nat}
    (w : Walk (Child T) 0 cs i) : cs.length < capacity := by
  obtain ⟨l, hnodup, hlen, hl⟩ := hT.tree.exists_nodup w
  have hsub : l ⊆ List.range capacity := by
    intro k hk
    obtain ⟨ds, w', -⟩ := hl k hk
    exact List.mem_range.mpr (hT.bound (hT.tree.walk_live hT.tree.live_root w'))
  have hle := List.Nodup.length_le_of_subset hnodup hsub
  rw [hlen, List.length_range] at hle
  exact hle

/-- The single slot with a root directory and nothing else. -/
theorem single (h : 0 < capacity) :
    TreeInv capacity (update (fun _ => .none) 0 (.dir tfsInodeDirNew)) where
  root := by simp [TfsInode.type]
  bound := by
    intro i hi
    by_cases h0 : i = 0
    · exact h0 ▸ h
    · exact absurd (update_of_ne h0 ..) hi
  names := by
    intro i d hd
    by_cases h0 : i = 0
    · subst h0
      obtain rfl : tfsInodeDirNew = d := by simpa using hd
      exact List.nodup_nil
    · rw [update_of_ne h0] at hd
      cases hd
  tree := by
    have hno : ∀ i name j,
        ¬Child (update (fun _ => .none) 0 (.dir tfsInodeDirNew)) i name j := by
      rintro i name j ⟨d, hd, hmem⟩
      by_cases h0 : i = 0
      · subst h0
        obtain rfl : tfsInodeDirNew = d := by simpa using hd
        simp at hmem
      · rw [update_of_ne h0] at hd
        cases hd
    exact
      { label := fun h => absurd h (hno _ _ _)
        parent := fun h => absurd h (hno _ _ _)
        root_fresh := hno _ _ _
        reach := by
          intro i hi
          obtain rfl : i = 0 := by
            by_contra h0
            exact hi (update_of_ne h0 ..)
          exact ⟨[], Walk.nil⟩
        live_left := fun h => absurd h (hno _ _ _)
        live_right := fun h => absurd h (hno _ _ _)
        live_root := by simp }

/-! ## Edits -/

variable {p q s x : Nat} {d d' : TfsInodeDir} {a b : List CChar}

/-- **A new leaf**: slot `s` was empty and becomes a child of `p`. -/
theorem create (hT : TreeInv capacity T) (hp : T p = .dir d) (hs : T s = .none)
    (hcap : s < capacity) {type : TfsInodeType} (htype : type ≠ .none) (hb : b ∉ d.names)
    (hd' : d'.children.Perm ((b, s) :: d.children)) :
    TreeInv capacity (update (update T s (tfsInodeInit type)) p (.dir d')) ∧
      ∀ i c j, Child (update (update T s (tfsInodeInit type)) p (.dir d')) i c j ↔
        Child T i c j ∨ (i = p ∧ c = b ∧ j = s) := by
  have hps : p ≠ s := by rintro rfl; rw [hp] at hs; cases hs
  have hinit : tfsInodeInit type ≠ .none := by
    rw [Ne, ← TfsInode.type_eq_none_iff, type_tfsInodeInit]
    exact htype
  generalize hT' : update (update T s (tfsInodeInit type)) p (.dir d') = T'
  have hTp : T' p = .dir d' := by rw [← hT', update_self]
  have hTs : T' s = tfsInodeInit type := by rw [← hT', update_of_ne hps.symm, update_self]
  have hTo : ∀ i, i ≠ p → i ≠ s → T' i = T i := by
    intro i hip his
    rw [← hT', update_of_ne hip, update_of_ne his]
  have hchild : ∀ i c j, Child T' i c j ↔ Child T i c j ∨ (i = p ∧ c = b ∧ j = s) := by
    intro i c j
    by_cases hip : i = p
    · subst hip
      rw [child_iff hTp, child_iff hp, hd'.mem_iff, List.mem_cons, Prod.mk.injEq]
      constructor
      · rintro (h | h)
        · exact Or.inr ⟨rfl, h⟩
        · exact Or.inl h
      · rintro (h | ⟨-, h⟩)
        · exact Or.inr h
        · exact Or.inl h
    · by_cases his : i = s
      · subst his
        have hno : ¬Child T' i c j := by
          rintro ⟨d₁, h, hmem⟩
          rw [hTs] at h
          cases type <;> simp only [tfsInodeInit, TfsInode.dir.injEq, reduceCtorEq] at h
          simp [← h] at hmem
        simp [hno, not_child (show (T i).type ≠ .dir by rw [hs]; simp [TfsInode.type]), hip]
      · simp [Child.congr (hTo i hip his), hip]
  refine ⟨?_, hchild⟩
  have hlive : ∀ i, T' i ≠ .none ↔ T i ≠ .none ∨ i = s := by
    intro i
    by_cases hip : i = p
    · subst hip
      simp [hTp, hp]
    · by_cases his : i = s
      · subst his
        simp [hTs, hinit]
      · simp [hTo i hip his, his]
  constructor
  · by_cases hp0 : (0 : Nat) = p
    · rw [hp0, hTp]; rfl
    · have hs0 : (0 : Nat) ≠ s := by
        rintro rfl
        have := hT.root
        rw [hs] at this
        cases this
      rw [hTo 0 hp0 hs0]
      exact hT.root
  · intro i hi
    rcases (hlive i).mp hi with h | rfl
    · exact hT.bound h
    · exact hcap
  · intro i d₁ hi
    by_cases hip : i = p
    · subst hip
      rw [hTp, TfsInode.dir.injEq] at hi
      rw [← hi, TfsInodeDir.names, (hd'.map Prod.fst).nodup_iff, List.map_cons, List.nodup_cons]
      exact ⟨hb, hT.names hp⟩
    · by_cases his : i = s
      · subst his
        rw [hTs] at hi
        cases type <;> simp only [tfsInodeInit, TfsInode.dir.injEq, reduceCtorEq] at hi
        rw [← hi]
        exact List.nodup_nil
      · exact hT.names (hTo i hip his ▸ hi)
  · have := hT.tree.link (p := p) (x := s) (b := b) (by simp [hp]) (by simp [hs]) (by
      intro j hj
      exact hb (TfsInodeDir.mem_names ((child_iff hp).mp hj)))
    convert this using 1
    · funext i c j
      exact propext (hchild i c j)
    · funext i
      exact propext (hlive i)

/-- The children that are left when the one entry for `x` is taken away. -/
theorem mem_rest_iff (hT : TreeInv capacity T) (hp : T p = .dir d)
    {rest : List (List CChar × Nat)} (hrest : d.children.Perm ((a, x) :: rest)) (c : List CChar)
    (j : Nat) : (c, j) ∈ rest ↔ (c, j) ∈ d.children ∧ j ≠ x := by
  have hnodup := hT.names hp
  rw [TfsInodeDir.names, (hrest.map Prod.fst).nodup_iff, List.map_cons, List.nodup_cons] at hnodup
  have hmem := hrest.mem_iff (a := (c, j))
  rw [List.mem_cons] at hmem
  constructor
  · intro h
    refine ⟨hmem.mpr (Or.inr h), ?_⟩
    rintro rfl
    have hax : Child T p a j := (child_iff hp).mpr (hrest.mem_iff.mpr List.mem_cons_self)
    have hcx : Child T p c j := (child_iff hp).mpr (hmem.mpr (Or.inr h))
    obtain ⟨-, rfl⟩ := hT.tree.parent hax hcx
    exact hnodup.1 (List.mem_map_of_mem h)
  · rintro ⟨h, hj⟩
    rcases hmem.mp h with heq | h
    · exact absurd (Prod.mk.inj heq).2 hj
    · exact h

/-- **A leaf is cut off**: the entry for `x` is taken out of `p`, and `x` is emptied. -/
theorem remove (hT : TreeInv capacity T) (hp : T p = .dir d)
    (hd' : d.children.Perm ((a, x) :: d'.children)) (hleaf : ∀ c j, ¬Child T x c j) :
    TreeInv capacity (update (update T p (.dir d')) x .none) ∧
      ∀ i c j, Child (update (update T p (.dir d')) x .none) i c j ↔ Child T i c j ∧ j ≠ x := by
  have hx : Child T p a x := (child_iff hp).mpr (hd'.mem_iff.mpr List.mem_cons_self)
  have hpx : p ≠ x := fun h => hleaf a x (h ▸ hx)
  generalize hT' : update (update T p (.dir d')) x .none = T'
  have hTx : T' x = .none := by rw [← hT', update_self]
  have hTp : T' p = .dir d' := by rw [← hT', update_of_ne hpx, update_self]
  have hTo : ∀ i, i ≠ p → i ≠ x → T' i = T i := by
    intro i hip hix
    rw [← hT', update_of_ne hix, update_of_ne hip]
  have hchild : ∀ i c j, Child T' i c j ↔ Child T i c j ∧ j ≠ x := by
    intro i c j
    by_cases hip : i = p
    · subst hip
      rw [child_iff hTp, child_iff hp, hT.mem_rest_iff hp hd']
    · by_cases hix : i = x
      · subst hix
        simp [not_child (show (T' i).type ≠ .dir by rw [hTx]; simp [TfsInode.type]), hleaf]
      · rw [Child.congr (hTo i hip hix)]
        refine ⟨fun h => ⟨h, ?_⟩, fun h => h.1⟩
        rintro rfl
        exact hip (hT.tree.parent h hx).1
  have hlive : ∀ i, T' i ≠ .none ↔ T i ≠ .none ∧ i ≠ x := by
    intro i
    by_cases hix : i = x
    · simp [hix, hTx]
    · by_cases hip : i = p
      · subst hip
        simp [hTp, hp, hpx]
      · simp [hTo i hip hix, hix]
  refine ⟨?_, hchild⟩
  constructor
  · have hx0 : (0 : Nat) ≠ x := fun h => hT.tree.root_fresh (h ▸ hx)
    by_cases hp0 : (0 : Nat) = p
    · rw [hp0, hTp]; rfl
    · rw [hTo 0 hp0 hx0]
      exact hT.root
  · exact fun hi => hT.bound ((hlive _).mp hi).1
  · intro i d₁ hi
    have hix : i ≠ x := by rintro rfl; rw [hTx] at hi; cases hi
    by_cases hip : i = p
    · subst hip
      rw [hTp, TfsInode.dir.injEq] at hi
      have hnodup := hT.names hp
      rw [TfsInodeDir.names, (hd'.map Prod.fst).nodup_iff, List.map_cons,
        List.nodup_cons] at hnodup
      exact hi ▸ hnodup.2
    · exact hT.names (hTo i hip hix ▸ hi)
  · convert hT.tree.unlink hx hleaf using 1
    · funext i c j
      exact propext (hchild i c j)
    · funext i
      exact propext (hlive i)

/-- What is to be checked when the subtree below `x` is moved. -/
theorem of_relink (hT : TreeInv capacity T) {T' : Tree} (hx : Child T p a x)
    (htype : ∀ i, (T' i).type = (T i).type) (hq : T q ≠ .none)
    (hout : ∀ ds, ¬Walk (Child T) x ds q) (hfree : ∀ j, Child T q b j → j = x)
    (hchild : ∀ i c j, Child T' i c j ↔ RootedTree.Relink (Child T) x q b i c j)
    (hnames : ∀ i d, T' i = .dir d → d.names.Nodup) : TreeInv capacity T' := by
  have hlive : ∀ i, T' i ≠ .none ↔ T i ≠ .none := by
    intro i
    rw [Ne, Ne, ← TfsInode.type_eq_none_iff, htype i, TfsInode.type_eq_none_iff]
  constructor
  · rw [htype]
    exact hT.root
  · exact fun hi => hT.bound ((hlive _).mp hi)
  · exact hnames _ _
  · convert hT.tree.relink hx hq hout hfree using 1
    · funext i c j
      exact propext (hchild i c j)
    · funext i
      exact propext (hlive i)

/-- **An entry is renamed.** -/
theorem rename (hT : TreeInv capacity T) (hp : T p = .dir d) {rest : List (List CChar × Nat)}
    (hd : d.children.Perm ((a, x) :: rest)) (hd' : d'.children.Perm ((b, x) :: rest))
    (hb : b ∉ rest.map Prod.fst) :
    TreeInv capacity (update T p (.dir d')) ∧
      ∀ i c j, Child (update T p (.dir d')) i c j ↔
        RootedTree.Relink (Child T) x p b i c j := by
  have hx : Child T p a x := (child_iff hp).mpr (hd.mem_iff.mpr List.mem_cons_self)
  have hmem := hT.mem_rest_iff hp hd
  generalize hT' : update T p (.dir d') = T'
  have hTp : T' p = .dir d' := by rw [← hT', update_self]
  have hTo : ∀ i, i ≠ p → T' i = T i := by
    intro i hip
    rw [← hT', update_of_ne hip]
  have hchild : ∀ i c j, Child T' i c j ↔ RootedTree.Relink (Child T) x p b i c j := by
    intro i c j
    rw [RootedTree.Relink]
    by_cases hip : i = p
    · subst hip
      rw [child_iff hTp, child_iff hp, hd'.mem_iff, List.mem_cons, Prod.mk.injEq, hmem, or_comm]
      simp
    · rw [Child.congr (hTo i hip)]
      constructor
      · refine fun h => Or.inl ⟨h, ?_⟩
        rintro rfl
        exact hip (hT.tree.parent h hx).1
      · rintro (⟨h, -⟩ | ⟨h, -⟩)
        · exact h
        · exact absurd h hip
  refine ⟨hT.of_relink (p := p) (a := a) hx ?_ (by simp [hp]) ?_ ?_ hchild ?_, hchild⟩
  · intro i
    by_cases hip : i = p
    · rw [hip, hTp, hp]; rfl
    · rw [hTo i hip]
  · intro ds w
    have := hT.tree.no_cycle (hT.tree.live_right hx) (w.snoc hx)
    simp at this
  · intro j hj
    by_contra hjx
    have hrest := (hmem b j).mpr ⟨(child_iff hp).mp hj, hjx⟩
    exact hb (List.mem_map_of_mem hrest)
  · intro i d₁ hi
    by_cases hip : i = p
    · subst hip
      rw [hTp, TfsInode.dir.injEq] at hi
      have hnodup := hT.names hp
      rw [TfsInodeDir.names, (hd.map Prod.fst).nodup_iff, List.map_cons,
        List.nodup_cons] at hnodup
      rw [← hi, TfsInodeDir.names, (hd'.map Prod.fst).nodup_iff, List.map_cons, List.nodup_cons]
      exact ⟨hb, hnodup.2⟩
    · exact hT.names (hTo i hip ▸ hi)

/-- **An entry is moved** from `p` to another directory `q` that is not below it. -/
theorem move (hT : TreeInv capacity T) {e e' : TfsInodeDir} (hp : T p = .dir d)
    (hq : T q = .dir e) (hpq : p ≠ q) (hd : d.children.Perm ((a, x) :: d'.children))
    (he : e'.children.Perm ((b, x) :: e.children)) (hb : b ∉ e.names)
    (hout : ∀ ds, ¬Walk (Child T) x ds q) :
    TreeInv capacity (update (update T q (.dir e')) p (.dir d')) ∧
      ∀ i c j, Child (update (update T q (.dir e')) p (.dir d')) i c j ↔
        RootedTree.Relink (Child T) x q b i c j := by
  have hx : Child T p a x := (child_iff hp).mpr (hd.mem_iff.mpr List.mem_cons_self)
  have hmem := hT.mem_rest_iff hp hd
  generalize hT' : update (update T q (.dir e')) p (.dir d') = T'
  have hTp : T' p = .dir d' := by rw [← hT', update_self]
  have hTq : T' q = .dir e' := by rw [← hT', update_of_ne hpq.symm, update_self]
  have hTo : ∀ i, i ≠ p → i ≠ q → T' i = T i := by
    intro i hip hiq
    rw [← hT', update_of_ne hip, update_of_ne hiq]
  have hchild : ∀ i c j, Child T' i c j ↔ RootedTree.Relink (Child T) x q b i c j := by
    intro i c j
    rw [RootedTree.Relink]
    by_cases hip : i = p
    · subst hip
      rw [child_iff hTp, child_iff hp, hmem]
      simp [hpq]
    · have hix : ∀ c, Child T i c j → j ≠ x := by
        rintro c h rfl
        exact hip (hT.tree.parent h hx).1
      by_cases hiq : i = q
      · subst hiq
        rw [child_iff hTq, he.mem_iff, List.mem_cons, Prod.mk.injEq, ← child_iff hq, or_comm]
        simp only [true_and]
        exact or_congr ⟨fun h => ⟨h, hix c h⟩, fun h => h.1⟩ Iff.rfl
      · rw [Child.congr (hTo i hip hiq)]
        simp only [hiq, false_and, or_false]
        exact ⟨fun h => ⟨h, hix c h⟩, fun h => h.1⟩
  refine ⟨hT.of_relink (p := p) (a := a) hx ?_ (by simp [hq]) hout ?_ hchild ?_, hchild⟩
  · intro i
    by_cases hip : i = p
    · rw [hip, hTp, hp]; rfl
    · by_cases hiq : i = q
      · rw [hiq, hTq, hq]; rfl
      · rw [hTo i hip hiq]
  · intro j hj
    exact absurd (TfsInodeDir.mem_names ((child_iff hq).mp hj)) hb
  · intro i d₁ hi
    by_cases hip : i = p
    · subst hip
      rw [hTp, TfsInode.dir.injEq] at hi
      have hnodup := hT.names hp
      rw [TfsInodeDir.names, (hd.map Prod.fst).nodup_iff, List.map_cons,
        List.nodup_cons] at hnodup
      exact hi ▸ hnodup.2
    · by_cases hiq : i = q
      · subst hiq
        rw [hTq, TfsInode.dir.injEq] at hi
        rw [← hi, TfsInodeDir.names, (he.map Prod.fst).nodup_iff, List.map_cons, List.nodup_cons]
        exact ⟨hb, hT.names hq⟩
      · exact hT.names (hTo i hip hiq ▸ hi)

end TreeInv

end TecnicoFs
