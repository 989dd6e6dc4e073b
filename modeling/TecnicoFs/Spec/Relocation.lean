import TecnicoFs.Spec.Invariant

/-!
# Moves as relocations

A move is meant to take what is at one path to another path and to leave everything else
where it is: this is `Relocates`.  Whether a successful move does so can be read off its
paths (`atomicMove_relocates_iff`): it does unless one path is a proper prefix of the other.
Then the shorter one is the common ancestor, what is left of it is empty, and the source
takes the empty piece for the name of an entry.
-/

namespace TecnicoFs

open Function Graph

variable {capacity : Nat} {T T' : Tree}

/-! ## Moving one child -/

/-- The child `x` of `p` was moved to `q`, which is not below it. -/
structure Relinked (capacity : Nat) (T T' : Tree) (p : Nat) (a : List CChar) (x q : Nat)
    (b : List CChar) : Prop where
  child : Child T p a x
  out : ∀ ds, ¬Walk (Child T) x ds q
  inv : TreeInv capacity T'
  type : ∀ j, (T' j).type = (T j).type
  other : ∀ j, j ≠ p → j ≠ q → T' j = T j
  relink : ∀ i c j, Child T' i c j ↔ RootedTree.Relink (Child T) x q b i c j

namespace Relinked

variable {p x q : Nat} {a b : List CChar} (h : Relinked capacity T T' p a x q b)
  (hT : TreeInv capacity T)

include h

theorem walk_iff {i j : Nat} {cs : List (List CChar)} :
    Walk (Child T') i cs j ↔ Walk (RootedTree.Relink (Child T) x q b) i cs j :=
  ⟨fun w => w.mono fun _ _ _ => (h.relink _ _ _).mp,
    fun w => w.mono fun _ _ _ => (h.relink _ _ _).mpr⟩

/-- The new parent is where it was. -/
theorem walk_parent {ds : List (List CChar)} (w : Walk (Child T) 0 ds q) :
    Walk (Child T') 0 ds q :=
  h.walk_iff.mpr (RootedTree.walk_relink_of_not_below h.out w)

/-- The child is at its new place. -/
theorem walk_child {ds : List (List CChar)} (w : Walk (Child T) 0 ds q) :
    Walk (Child T') 0 (ds ++ [b]) x :=
  (h.walk_parent w).snoc ((h.relink _ _ _).mpr (Or.inr ⟨rfl, rfl, rfl⟩))

include hT

theorem ne_parent : x ≠ p := by
  rintro rfl
  have hnil := hT.tree.no_cycle (hT.live_of_child h.child) (Walk.nil.snoc h.child)
  simp at hnil

/-- Nothing below the child has changed. -/
theorem below {cs : List (List CChar)} {j : Nat} (w : Walk (Child T) x cs j) : T' j = T j := by
  refine h.other j ?_ ?_
  · rintro rfl
    have hnil := hT.tree.no_cycle (hT.live_of_child h.child) (w.snoc h.child)
    simp at hnil
  · rintro rfl
    exact h.out cs w

end Relinked

/-! ## Walks -/

/-- **A search that finds the same inodes of the same types ends in the same way.** -/
theorem locate_eq_of_walk_iff (hT : TreeInv capacity T) (hT' : TreeInv capacity T')
    (htype : ∀ j, (T' j).type = (T j).type) {cs : List (List CChar)} (hcs : ∀ c ∈ cs, NulFree c)
    (h : ∀ ds, ds <+: cs → ∀ j, Walk (Child T') 0 ds j ↔ Walk (Child T) 0 ds j) :
    locate T' 0 cs = locate T 0 cs := by
  induction cs using List.reverseRecOn with
  | nil => rfl
  | append_singleton ds c ih =>
    have hds := ih (fun c' hc => hcs c' (List.mem_append_left _ hc))
      fun es hes => h es (hes.trans (List.prefix_append ..))
    cases hk : locate T 0 ds with
    | error kind => rw [locate_append_of_error (hds.trans hk), locate_append_of_error hk]
    | ok k =>
      have heq : ∀ j, locate T' k [c] = .ok j ↔ locate T k [c] = .ok j := by
        intro j
        rw [← locate_append_of_ok (hds.trans hk), ← locate_append_of_ok hk,
          locate_eq_ok_iff hT' hcs, locate_eq_ok_iff hT hcs]
        exact h _ (List.prefix_refl _) j
      rw [locate_append_of_ok (hds.trans hk), locate_append_of_ok hk]
      by_cases hdir : (T k).type = .dir
      · obtain ⟨d, hd⟩ := TfsInode.type_eq_dir_iff.mp hdir
        obtain ⟨d', hd'⟩ := TfsInode.type_eq_dir_iff.mp ((htype k).trans hdir)
        simp only [locate_cons_of_dir hd, locate_cons_of_dir hd', locate_nil] at heq ⊢
        cases hs : tfsInodeDirSearchByName d c with
        | none =>
          cases hs' : tfsInodeDirSearchByName d' c with
          | none => rfl
          | some y => simpa [hs, hs'] using heq y.1
        | some y => exact (heq y.1).mpr (by rw [hs])
      · rw [locate_cons_of_not_dir hdir, locate_cons_of_not_dir (htype k ▸ hdir)]

/-! ## Relocation -/

/-- **What a successful move is to do**: it takes the inode `i`, with everything below it,
from one path to the other.  Every path that leads through neither of the two means what it
meant before. -/
structure Relocates (T T' : Tree) (origPath destPath : TfsPath) (i : Nat) : Prop where
  orig : locate T 0 (comps origPath.str) = .ok i
  dest : locate T' 0 (comps destPath.str) = .ok i
  below : ∀ cs j, Walk (Child T) i cs j → T' j = T j
  walks : ∀ cs j, Walk (Child T') i cs j ↔ Walk (Child T) i cs j
  gone : comps origPath.str ≠ comps destPath.str →
    ∀ j, locate T' 0 (comps origPath.str) ≠ .ok j
  other : ∀ path : TfsPath, NulFree path.str → ¬comps origPath.str <+: comps path.str →
    ¬comps destPath.str <+: comps path.str →
      locate T' 0 (comps path.str) = locate T 0 (comps path.str)

/-- Neither path is a proper prefix of the other. -/
def Apart (origPath destPath : TfsPath) : Prop :=
  comps origPath.str <+: comps destPath.str ∨ comps destPath.str <+: comps origPath.str →
    comps origPath.str = comps destPath.str

/-- A move to the same path, which changes nothing, is a relocation. -/
theorem relocates_self {origPath destPath : TfsPath} {i : Nat}
    (heq : comps origPath.str = comps destPath.str)
    (hi : locate T 0 (comps origPath.str) = .ok i) : Relocates T T origPath destPath i :=
  ⟨hi, heq ▸ hi, fun _ _ _ => rfl, fun _ _ => Iff.rfl, fun hne => absurd heq hne,
    fun _ _ _ _ => rfl⟩

instance (origPath destPath : TfsPath) : Decidable (Apart origPath destPath) :=
  inferInstanceAs (Decidable (_ → _))

section Paths

variable {origPath destPath : TfsPath} (hT : TreeInv capacity T) (hn : NulFree origPath.str)
  (hm : NulFree destPath.str)

include hT hn hm

/-- A move of a child to a place that is not above it is a relocation. -/
theorem Relinked.relocates {p x q : Nat} {a b : List CChar}
    (h : Relinked capacity T T' p a x q b) {ds es : List (List CChar)}
    (horig : comps origPath.str = ds ++ [a]) (hdest : comps destPath.str = es ++ [b])
    (hp : locate T 0 ds = .ok p) (hq : locate T 0 es = .ok q)
    (hapart : ¬comps destPath.str <+: comps origPath.str) :
    Relocates T T' origPath destPath x := by
  have hnul := nulFree_comps hn
  have hnul' := nulFree_comps hm
  have wp : Walk (Child T) 0 ds p := (locate_eq_ok_iff hT fun c hc =>
    hnul c (by rw [horig]; exact List.mem_append_left _ hc)).mp hp
  have wq : Walk (Child T) 0 es q := (locate_eq_ok_iff hT fun c hc =>
    hnul' c (by rw [hdest]; exact List.mem_append_left _ hc)).mp hq
  have hbelow : ∀ cs j, Walk (Child T) x cs j → T' j = T j := fun _ _ => h.below hT
  refine ⟨?_, ?_, hbelow, fun cs j => walk_congr hbelow, fun _ j hj => ?_, fun path hpath ho hd =>
    ?_⟩
  · rw [locate_eq_ok_iff hT hnul, horig]
    exact wp.snoc h.child
  · rw [locate_eq_ok_iff h.inv hnul', hdest]
    exact h.walk_child wq
  · rw [locate_eq_ok_iff h.inv hnul, horig, h.walk_iff] at hj
    rw [horig, hdest] at hapart
    exact hT.tree.not_walk_relink wp h.child wq hapart hj
  · rw [horig] at ho
    rw [hdest] at hd
    refine locate_eq_of_walk_iff hT h.inv h.type
      (fun c hc => nulFree_of_mem_comps hpath hc) fun fs hfs j => ?_
    rw [h.walk_iff]
    exact hT.tree.walk_relink_iff (wp.snoc h.child) wq (fun h' => ho (h'.trans hfs))
      fun h' => hd (h'.trans hfs)

omit hn in
/-- Moving a child of what is at the first path is no relocation. -/
theorem Relinked.not_relocates_of_orig {p x q : Nat} {a b : List CChar}
    (h : Relinked capacity T T' p a x q b) {es : List (List CChar)}
    (hdest : comps destPath.str = es ++ [b]) (hp : locate T 0 (comps origPath.str) = .ok p)
    (hq : locate T 0 es = .ok q) (i : Nat) : ¬Relocates T T' origPath destPath i := by
  have hnul' := nulFree_comps hm
  have wq : Walk (Child T) 0 es q := (locate_eq_ok_iff hT fun c hc =>
    hnul' c (by rw [hdest]; exact List.mem_append_left _ hc)).mp hq
  intro hrel
  have wi := (locate_eq_ok_iff h.inv hnul').mp hrel.dest
  rw [hdest] at wi
  obtain rfl := h.inv.tree.walk_end wi (h.walk_child wq)
  obtain rfl : i = p := Except.ok.inj (hrel.orig.symm.trans hp)
  exact h.ne_parent hT rfl

/-- Moving a child to the root of its own path's prefix is no relocation. -/
theorem Relinked.not_relocates_of_dest {p x q : Nat} {a b : List CChar}
    (h : Relinked capacity T T' p a x q b) {ds : List (List CChar)}
    (horig : comps origPath.str = ds ++ [a]) (hp : locate T 0 ds = .ok p)
    (hq : locate T 0 (comps destPath.str) = .ok q) (i : Nat) :
    ¬Relocates T T' origPath destPath i := by
  have hnul := nulFree_comps hn
  have hnul' := nulFree_comps hm
  have wp : Walk (Child T) 0 ds p := (locate_eq_ok_iff hT fun c hc =>
    hnul c (by rw [horig]; exact List.mem_append_left _ hc)).mp hp
  have wq := h.walk_parent ((locate_eq_ok_iff hT hnul').mp hq)
  intro hrel
  have wi := (locate_eq_ok_iff hT hnul).mp hrel.orig
  rw [horig] at wi
  obtain rfl := hT.tree.walk_end wi (wp.snoc h.child)
  obtain rfl := h.inv.tree.walk_end ((locate_eq_ok_iff h.inv hnul').mp hrel.dest) wq
  exact h.out [] Walk.nil

end Paths

/-! ## Successful moves -/

/-- A rename to the same name changes nothing. -/
theorem atomicRename_same (hT : TreeInv capacity T) {p : Nat} {name : List CChar}
    (hname : NulFree name) {i : Option Nat}
    (hok : (atomicRename T p name name).outcome = .ok i) :
    (atomicRename T p name name).tree = T := by
  unfold atomicRename at hok ⊢
  split at hok
  swap
  · cases hok
  rename_i d hd
  split at hok
  · cases hok
  rename_i x dirIdx hs
  split at hok
  · cases hok
  rename_i d' hren
  have hmem := mem_children_of_search hname hs
  have hchild : Child T p name x := (child_iff hd).mpr hmem
  rcases tfsInodeDirRename_spec d hname hmem fun name' hname' =>
    (hT.tree.parent ((child_iff hd).mpr hname') hchild).2 with
    ⟨err, herr, -⟩ | ⟨hok', -⟩ | ⟨d'', -, hno, -⟩
  · rw [herr] at hren
    cases hren
  · obtain rfl : d = d' := by rw [hok'] at hren; exact Except.ok.inj hren
    show update T p (.dir d) = T
    rw [← hd, update_eq_self]
  · exact absurd rfl (hno _ (TfsInodeDir.mem_children_iff.mp hmem))

theorem atomicRename_of_ne {p j : Nat} (origName destName : List CChar) (hj : j ≠ p) :
    (atomicRename T p origName destName).tree j = T j := by
  unfold atomicRename
  split
  · split
    · rfl
    · split
      · rfl
      · exact update_of_ne hj ..
  · rfl

theorem atomicMoveEntry_of_ne {p q j : Nat} (origName destName : List CChar)
    (access : TfsRwLockAccess) (hp : j ≠ p) (hq : j ≠ q) :
    (atomicMoveEntry T p q origName destName access).tree j = T j := by
  unfold atomicMoveEntry
  split
  · split
    · split
      · rfl
      · split
        · rfl
        · dsimp only
          rw [update_of_ne hp, update_of_ne hq]
    · rfl
  · rfl

/-- **What a successful move does**: nothing, or it moves one child. -/
theorem atomicMove_ok (hT : TreeInv capacity T) {origPath destPath : TfsPath}
    (hn : NulFree origPath.str) (hm : NulFree destPath.str) {access : TfsRwLockAccess}
    {i : Option Nat} (hok : (atomicMove T origPath destPath access).outcome = .ok i) :
    ∃ s, s = moveSplit origPath destPath ∧
      ((comps s.lhsRest.str = [] ∧ comps s.rhsRest.str = [] ∧
          (atomicMove T origPath destPath access).tree = T ∧
          ∃ a, locate T 0 (comps s.ancestor.str) = .ok a) ∨
        ((s.origFilename.str ≠ [] ∨ s.destFilename.str ≠ []) ∧ ∃ p x q,
          locate T 0 (comps s.ancestor.str ++ comps s.origParent.str) = .ok p ∧
          locate T 0 (comps s.ancestor.str ++ comps s.destParent.str) = .ok q ∧
          Relinked capacity T (atomicMove T origPath destPath access).tree p s.origFilename.str
            x q s.destFilename.str)) := by
  obtain ⟨s, rfl, -, -, a, ha, h⟩ := atomicMove_cases hok
  have hcuts := MoveSplit.moveSplit_cuts hn destPath
  have hno := hcuts.nulFree_origFilename hn
  have hnd := hcuts.nulFree_destFilename hm
  generalize moveSplit origPath destPath = s at *
  refine ⟨s, rfl, ?_⟩
  rcases h with ⟨hr, hl, heq⟩ | ⟨-, hop, hdp, heq⟩ | ⟨hne, p, q, hp, hq, heq⟩
  · rw [len_eq_zero_iff] at hr hl
    exact Or.inl ⟨by rw [hl, comps_nil], by rw [hr, comps_nil], by rw [heq], a, ha⟩
  · rw [heq] at hok ⊢
    rw [hcuts.origParent.mpr hop, hcuts.destParent.mpr hdp, List.append_nil]
    by_cases hnames : s.origFilename.str = [] ∧ s.destFilename.str = []
    · left
      rw [hnames.1, hnames.2] at hok ⊢
      refine ⟨?_, ?_, atomicRename_same hT (by simp [NulFree]) hok, a, ha⟩
      · exact (hcuts.origPop.resolve_right fun h => h.1 hnames.1).2.2
      · exact (hcuts.destPop.resolve_right fun h => h.1 hnames.2).2.2
    · right
      obtain ⟨x, d, hx, -, -, -, hinv, htype, hchild⟩ := atomicRename_ok hT hno hnd hok
      refine ⟨not_and_or.mp hnames, a, x, a, ha, ha, hx, fun ds w => ?_, hinv, htype,
        fun j hj _ => atomicRename_of_ne _ _ hj, hchild⟩
      have hnil := hT.tree.no_cycle (hT.live_of_child hx) (w.snoc hx)
      simp at hnil
  · obtain ⟨hpq, hout⟩ := hcuts.apart hT hn hm hne ha hp hq
    rw [heq] at hok ⊢
    obtain ⟨x, hx, -, hnil, -, hinv, htype, hchild⟩ := atomicMoveEntry_ok hT hno hnd hpq hout hok
    rw [locate_append_of_ok ha, locate_append_of_ok ha]
    exact Or.inr ⟨Or.inr hnil, p, x, q, hp, hq, hx, hout x hx, hinv, htype,
      fun j hjp hjq => atomicMoveEntry_of_ne _ _ _ hjp hjq, hchild⟩

/-- What is left of two paths after their common ancestor decides which is a prefix of which. -/
theorem MoveSplit.Cuts.not_prefix {s : MoveSplit} {origPath destPath : TfsPath}
    (h : s.Cuts origPath destPath) (hl : comps s.lhsRest.str ≠ [])
    (hr : comps s.rhsRest.str ≠ []) :
    ¬comps origPath.str <+: comps destPath.str ∧ ¬comps destPath.str <+: comps origPath.str := by
  obtain ⟨c, cs, hcs⟩ := List.exists_cons_of_ne_nil hl
  obtain ⟨d, ds, hds⟩ := List.exists_cons_of_ne_nil hr
  have hdiff : d ≠ c := by
    rintro rfl
    exact h.differ d (by rw [hcs]; rfl) (by rw [hds]; rfl)
  rw [h.orig, h.dest, List.prefix_append_right_inj, List.prefix_append_right_inj, hcs, hds,
    List.cons_prefix_cons, List.cons_prefix_cons]
  exact ⟨fun hp => hdiff hp.1.symm, fun hp => hdiff hp.1⟩

/-- **A successful move is a relocation exactly when neither path is a proper prefix of the
other.** -/
theorem atomicMove_relocates_iff (hT : TreeInv capacity T) {origPath destPath : TfsPath}
    (hn : NulFree origPath.str) (hm : NulFree destPath.str) {access : TfsRwLockAccess}
    {i : Option Nat} (hok : (atomicMove T origPath destPath access).outcome = .ok i) :
    (∃ x, Relocates T (atomicMove T origPath destPath access).tree origPath destPath x) ↔
      Apart origPath destPath := by
  obtain ⟨s, hs, h⟩ := atomicMove_ok hT hn hm hok
  have hcuts := MoveSplit.moveSplit_cuts hn destPath
  rw [← hs] at hcuts
  generalize (atomicMove T origPath destPath access).tree = T' at *
  have horig := hcuts.orig
  have hdest := hcuts.dest
  rcases h with ⟨hl, hr, rfl, a, ha⟩ | ⟨hnames, p, x, q, hp, hq, hmove⟩
  · rw [hl, List.append_nil] at horig
    rw [hr, List.append_nil] at hdest
    have heq := horig.trans hdest.symm
    exact iff_of_true ⟨a, relocates_self heq (horig ▸ ha)⟩ fun _ => heq
  rcases hcuts.origPop with ⟨hnil, hop, hl⟩ | ⟨-, hl⟩
  · -- the origin is the common ancestor, and a child without a name was moved
    obtain ⟨-, hr⟩ := hcuts.destPop.resolve_left fun h => hnames.elim (· hnil) (· h.1)
    rw [hl, List.append_nil] at horig
    rw [hop, List.append_nil, ← horig] at hp
    rw [hr, ← List.append_assoc] at hdest
    refine iff_of_false (fun ⟨y, hy⟩ => hmove.not_relocates_of_orig hT hm hdest hp hq y hy)
      fun hapart => ?_
    have heq := hapart (Or.inl (by rw [hdest, ← horig, List.append_assoc]; exact ⟨_, rfl⟩))
    rw [hdest, ← horig, List.append_assoc] at heq
    simp at heq
  rcases hcuts.destPop with ⟨hnil, hdp, hr⟩ | ⟨-, hr⟩
  · -- the destination is the common ancestor, and the child has lost its name
    rw [hl, ← List.append_assoc] at horig
    rw [hr, List.append_nil] at hdest
    rw [hdp, List.append_nil, ← hdest] at hq
    refine iff_of_false (fun ⟨y, hy⟩ => hmove.not_relocates_of_dest hT hn hm horig hp hq y hy)
      fun hapart => ?_
    have heq := hapart (Or.inr (by rw [horig, ← hdest, List.append_assoc]; exact ⟨_, rfl⟩))
    rw [horig, ← hdest, List.append_assoc] at heq
    simp at heq
  · obtain ⟨hno, hnd⟩ := hcuts.not_prefix (by rw [hl]; simp) (by rw [hr]; simp)
    rw [hl, ← List.append_assoc] at horig
    rw [hr, ← List.append_assoc] at hdest
    exact iff_of_true ⟨x, hmove.relocates hT hn hm horig hdest hp hq hnd⟩
      fun hor => (hor.elim hno hnd).elim

end TecnicoFs
