import Mathlib.Data.List.Basic
import Mathlib.Data.List.Induction

/-!
# Rooted trees with labelled edges

A relation `R i c j`, read as "`i` has the child `j` under the label `c`", is a rooted
tree when labels and parents are unique, nothing points to the root, and every live
vertex is reached from the root.  Then every vertex is reached along one list of labels
only, so there are no cycles.

Three edits are studied: linking a fresh leaf, unlinking a leaf, and moving the subtree
below an edge to another place that is not inside of it.
-/

namespace Graph

variable {V L : Type}

/-- Walks, with the labels along them. -/
inductive Walk (R : V → L → V → Prop) : V → List L → V → Prop where
  | nil {i : V} : Walk R i [] i
  | cons {i k j : V} {c : L} {cs : List L} (h : R i c k) (w : Walk R k cs j) :
      Walk R i (c :: cs) j

namespace Walk

variable {R R' : V → L → V → Prop} {i j k : V} {c : L} {cs ds : List L}

theorem nil_iff : Walk R i [] j ↔ i = j := by
  constructor
  · rintro ⟨⟩; rfl
  · rintro rfl; exact nil

theorem cons_iff : Walk R i (c :: cs) j ↔ ∃ k, R i c k ∧ Walk R k cs j := by
  constructor
  · rintro ⟨⟩
    exact ⟨_, ‹_›, ‹_›⟩
  · rintro ⟨k, h, w⟩
    exact cons h w

theorem append_iff : Walk R i (cs ++ ds) j ↔ ∃ k, Walk R i cs k ∧ Walk R k ds j := by
  induction cs generalizing i with
  | nil => simp [nil_iff]
  | cons c cs ih =>
    rw [List.cons_append, cons_iff]
    constructor
    · rintro ⟨k, h, w⟩
      obtain ⟨k', w₁, w₂⟩ := ih.mp w
      exact ⟨k', cons h w₁, w₂⟩
    · rintro ⟨k', w₁, w₂⟩
      obtain ⟨k, h, w₁⟩ := cons_iff.mp w₁
      exact ⟨k, h, ih.mpr ⟨k', w₁, w₂⟩⟩

theorem append (w : Walk R i cs k) (w' : Walk R k ds j) : Walk R i (cs ++ ds) j :=
  append_iff.mpr ⟨k, w, w'⟩

theorem snoc_iff : Walk R i (cs ++ [c]) j ↔ ∃ k, Walk R i cs k ∧ R k c j := by
  simp [append_iff, cons_iff, nil_iff]

theorem snoc (w : Walk R i cs k) (h : R k c j) : Walk R i (cs ++ [c]) j :=
  snoc_iff.mpr ⟨k, w, h⟩

theorem mono (w : Walk R i cs j) (h : ∀ i c j, R i c j → R' i c j) : Walk R' i cs j := by
  induction w with
  | nil => exact nil
  | cons h' _ ih => exact cons (h _ _ _ h') ih

end Walk

/-- A rooted tree. -/
structure RootedTree (R : V → L → V → Prop) (root : V) (live : V → Prop) : Prop where
  label : ∀ {i c j j'}, R i c j → R i c j' → j = j'
  parent : ∀ {i i' c c' j}, R i c j → R i' c' j → i = i' ∧ c = c'
  root_fresh : ∀ {i c}, ¬R i c root
  reach : ∀ {i}, live i → ∃ cs, Walk R root cs i
  live_left : ∀ {i c j}, R i c j → live i
  live_right : ∀ {i c j}, R i c j → live j
  live_root : live root

namespace RootedTree

variable {R : V → L → V → Prop} {root : V} {live : V → Prop} {i j j' : V} {cs cs' : List L}

/-- A walk ends in one place. -/
theorem walk_end (hT : RootedTree R root live) (w : Walk R i cs j) (w' : Walk R i cs j') :
    j = j' := by
  induction w with
  | nil => exact Walk.nil_iff.mp w'
  | cons h _ ih =>
    obtain ⟨k, h', w'⟩ := Walk.cons_iff.mp w'
    exact ih (hT.label h' h ▸ w')

/-- **A vertex is reached along one list of labels.** -/
theorem walk_labels (hT : RootedTree R root live) (w : Walk R root cs i)
    (w' : Walk R root cs' i) : cs = cs' := by
  induction cs using List.reverseRecOn generalizing cs' i with
  | nil =>
    obtain rfl := Walk.nil_iff.mp w
    rcases List.eq_nil_or_concat' cs' with rfl | ⟨ds, c, rfl⟩
    · rfl
    · obtain ⟨k, -, h⟩ := Walk.snoc_iff.mp w'
      exact absurd h hT.root_fresh
  | append_singleton ds c ih =>
    obtain ⟨k, v, h⟩ := Walk.snoc_iff.mp w
    rcases List.eq_nil_or_concat' cs' with rfl | ⟨ds', c', rfl⟩
    · obtain rfl := Walk.nil_iff.mp w'
      exact absurd h hT.root_fresh
    · obtain ⟨k', v', h'⟩ := Walk.snoc_iff.mp w'
      obtain ⟨rfl, rfl⟩ := hT.parent h h'
      rw [ih v v']

/-- There are no cycles. -/
theorem no_cycle (hT : RootedTree R root live) (hi : live i) (w : Walk R i cs i) : cs = [] := by
  obtain ⟨ds, hds⟩ := hT.reach hi
  have := hT.walk_labels hds (hds.append w)
  simpa using this

theorem walk_live (hT : RootedTree R root live) (hi : live i) (w : Walk R i cs j) : live j := by
  induction w with
  | nil => exact hi
  | cons h _ ih => exact ih (hT.live_right h)

/-- The vertices on a walk from the root are different. -/
theorem exists_nodup (hT : RootedTree R root live) (w : Walk R root cs i) :
    ∃ l : List V, l.Nodup ∧ l.length = cs.length + 1 ∧
      ∀ k ∈ l, ∃ ds, Walk R root ds k ∧ ds.length ≤ cs.length := by
  induction cs using List.reverseRecOn generalizing i with
  | nil =>
    refine ⟨[root], by simp, rfl, fun k hk => ⟨[], ?_, Nat.le_refl _⟩⟩
    rw [List.mem_singleton.mp hk]
    exact Walk.nil
  | append_singleton cs c ih =>
    obtain ⟨k, v, h⟩ := Walk.snoc_iff.mp w
    obtain ⟨l, hnodup, hlen, hl⟩ := ih v
    refine ⟨i :: l, List.nodup_cons.mpr ⟨fun hi => ?_, hnodup⟩, by simp [hlen], ?_⟩
    · obtain ⟨ds, w', hds⟩ := hl i hi
      rw [hT.walk_labels w' w, List.length_append, List.length_singleton] at hds
      omega
    · intro k' hk'
      rcases List.mem_cons.mp hk' with rfl | hk'
      · exact ⟨_, w, Nat.le_refl _⟩
      · obtain ⟨ds, w', hds⟩ := hl k' hk'
        exact ⟨ds, w', by rw [List.length_append]; omega⟩

/-! ## Edits -/

variable {p q x : V} {a b : L}

/-- **Linking a fresh leaf.** -/
theorem link (hT : RootedTree R root live) (hp : live p) (hx : ¬live x)
    (hb : ∀ j, ¬R p b j) :
    RootedTree (fun i c j => R i c j ∨ (i = p ∧ c = b ∧ j = x)) root
      (fun i => live i ∨ i = x) where
  label := by
    rintro i c j j' (h | ⟨rfl, rfl, rfl⟩) (h' | ⟨h₁, h₂, rfl⟩)
    · exact hT.label h h'
    · subst h₁ h₂; exact absurd h (hb _)
    · exact absurd h' (hb _)
    · rfl
  parent := by
    rintro i i' c c' j (h | ⟨rfl, rfl, rfl⟩) (h' | ⟨rfl, rfl, h₃⟩)
    · exact hT.parent h h'
    · subst h₃; exact absurd (hT.live_right h) hx
    · exact absurd (hT.live_right h') hx
    · exact ⟨rfl, rfl⟩
  root_fresh := by
    rintro i c (h | ⟨-, -, h⟩)
    · exact hT.root_fresh h
    · exact hx (h ▸ hT.live_root)
  reach := by
    rintro i (hi | rfl)
    · obtain ⟨cs, w⟩ := hT.reach hi
      exact ⟨cs, w.mono fun _ _ _ => Or.inl⟩
    · obtain ⟨cs, w⟩ := hT.reach hp
      exact ⟨cs ++ [b], (w.mono fun _ _ _ => Or.inl).snoc (Or.inr ⟨rfl, rfl, rfl⟩)⟩
  live_left := by
    rintro i c j (h | ⟨rfl, -, -⟩)
    · exact Or.inl (hT.live_left h)
    · exact Or.inl hp
  live_right := by
    rintro i c j (h | ⟨-, -, rfl⟩)
    · exact Or.inl (hT.live_right h)
    · exact Or.inr rfl
  live_root := Or.inl hT.live_root

/-- The walks after a fresh leaf was linked. -/
theorem walk_link (hT : RootedTree R root live) (hx : ¬live x) (hpx : Walk R root cs p) :
    Walk (fun i c j => R i c j ∨ (i = p ∧ c = b ∧ j = x)) root cs' j ↔
      Walk R root cs' j ∨ (cs' = cs ++ [b] ∧ j = x) := by
  constructor
  · intro w
    induction cs' using List.reverseRecOn generalizing j with
    | nil => exact Or.inl (Walk.nil_iff.mpr (Walk.nil_iff.mp w))
    | append_singleton ds c ih =>
      obtain ⟨k, w, h⟩ := Walk.snoc_iff.mp w
      rcases ih w with w' | ⟨-, rfl⟩
      · rcases h with h | ⟨rfl, rfl, rfl⟩
        · exact Or.inl (w'.snoc h)
        · exact Or.inr ⟨by rw [hT.walk_labels w' hpx], rfl⟩
      · -- the fresh leaf has no children
        rcases h with h | ⟨rfl, -, -⟩
        · exact absurd (hT.live_left h) hx
        · exact absurd (hT.walk_live hT.live_root hpx) hx
  · rintro (w | ⟨rfl, rfl⟩)
    · exact w.mono fun _ _ _ => Or.inl
    · exact (hpx.mono fun _ _ _ => Or.inl).snoc (Or.inr ⟨rfl, rfl, rfl⟩)

/-- The walks after a leaf was unlinked. -/
theorem walk_unlink (hT : RootedTree R root live) (hx : R p a x) (hleaf : ∀ c j, ¬R x c j) :
    Walk (fun i c j => R i c j ∧ j ≠ x) root cs j ↔ Walk R root cs j ∧ j ≠ x := by
  constructor
  · intro w
    refine ⟨w.mono fun _ _ _ h => h.1, ?_⟩
    rcases List.eq_nil_or_concat' cs with rfl | ⟨ds, c, rfl⟩
    · rintro rfl
      obtain rfl := Walk.nil_iff.mp w
      exact hT.root_fresh hx
    · obtain ⟨k, -, h⟩ := Walk.snoc_iff.mp w
      exact h.2
  · rintro ⟨w, hj⟩
    induction cs using List.reverseRecOn generalizing j with
    | nil => exact Walk.nil_iff.mpr (Walk.nil_iff.mp w)
    | append_singleton ds c ih =>
      obtain ⟨k, w, h⟩ := Walk.snoc_iff.mp w
      have hk : k ≠ x := fun hk => hleaf c j (hk ▸ h)
      exact (ih w hk).snoc ⟨h, hj⟩

/-- **Unlinking a leaf.** -/
theorem unlink (hT : RootedTree R root live) (hx : R p a x) (hleaf : ∀ c j, ¬R x c j) :
    RootedTree (fun i c j => R i c j ∧ j ≠ x) root (fun i => live i ∧ i ≠ x) where
  label h h' := hT.label h.1 h'.1
  parent h h' := hT.parent h.1 h'.1
  root_fresh h := hT.root_fresh h.1
  reach := by
    rintro i ⟨hi, hix⟩
    obtain ⟨cs, w⟩ := hT.reach hi
    exact ⟨cs, (hT.walk_unlink hx hleaf).mpr ⟨w, hix⟩⟩
  live_left := by
    rintro i c j ⟨h, -⟩
    exact ⟨hT.live_left h, fun hi => hleaf c j (hi ▸ h)⟩
  live_right h := ⟨hT.live_right h.1, h.2⟩
  live_root := ⟨hT.live_root, fun h => hT.root_fresh (h ▸ hx)⟩

/-- The relation after the subtree below the edge from `p` to `x` was moved below `q`. -/
def Relink (R : V → L → V → Prop) (x q : V) (b : L) : V → L → V → Prop :=
  fun i c j => (R i c j ∧ j ≠ x) ∨ (i = q ∧ c = b ∧ j = x)

/-- A walk that does not end below `x` is not affected by moving `x`. -/
theorem walk_relink_of_not_below (hq : ∀ ds, ¬Walk R x ds j) (w : Walk R i cs j) :
    Walk (Relink R x q b) i cs j := by
  induction w with
  | nil => exact Walk.nil
  | cons h w ih => exact Walk.cons (Or.inl ⟨h, fun hx => hq _ (hx ▸ w)⟩) (ih hq)

/-- The walks inside of the moved subtree stay. -/
theorem walk_relink_below (hT : RootedTree R root live) (hx : live x) (w : Walk R x cs j) :
    Walk (Relink R x q b) x cs j := by
  induction cs using List.reverseRecOn generalizing j with
  | nil => exact Walk.nil_iff.mpr (Walk.nil_iff.mp w)
  | append_singleton ds c ih =>
    obtain ⟨k, w', h⟩ := Walk.snoc_iff.mp w
    refine (ih w').snoc (Or.inl ⟨h, ?_⟩)
    rintro rfl
    have := hT.no_cycle hx w
    simp at this

/-- A walk along labels that lead neither to the old place of `x` nor to its new one is not
affected by moving `x`. -/
theorem walk_relink_iff (hT : RootedTree R root live) {os qs : List L} (hx : Walk R root os x)
    (hq : Walk R root qs q) (hos : ¬os <+: cs) (hqs : ¬qs ++ [b] <+: cs) :
    Walk (Relink R x q b) root cs j ↔ Walk R root cs j := by
  induction cs using List.reverseRecOn generalizing j with
  | nil => exact Walk.nil_iff.trans Walk.nil_iff.symm
  | append_singleton ds c ih =>
    have hds := fun j => @ih j (fun h => hos (h.trans (List.prefix_append ..)))
      fun h => hqs (h.trans (List.prefix_append ..))
    rw [Walk.snoc_iff, Walk.snoc_iff]
    refine exists_congr fun k => ?_
    rw [hds k]
    refine and_congr_right fun w => ?_
    constructor
    · rintro (⟨h, -⟩ | ⟨rfl, rfl, -⟩)
      · exact h
      · obtain rfl := hT.walk_labels w hq
        exact absurd (List.prefix_refl _) hqs
    · refine fun h => Or.inl ⟨h, ?_⟩
      rintro rfl
      obtain rfl := hT.walk_labels hx (w.snoc h)
      exact hos (List.prefix_refl _)

/-- The old place of `x` is empty after moving `x`, unless it is below the new one. -/
theorem not_walk_relink (hT : RootedTree R root live) {ds qs : List L} (hp : Walk R root ds p)
    (hx : R p a x) (hq : Walk R root qs q) (hqs : ¬qs ++ [b] <+: ds ++ [a]) :
    ¬Walk (Relink R x q b) root (ds ++ [a]) j := by
  intro w
  obtain ⟨k, v, h⟩ := Walk.snoc_iff.mp w
  have hos : ¬ds ++ [a] <+: ds := by
    intro h
    have hlen := h.length_le
    rw [List.length_append, List.length_singleton] at hlen
    omega
  replace v := (hT.walk_relink_iff (hp.snoc hx) hq hos
    fun h => hqs (h.trans (List.prefix_append ..))).mp v
  rcases h with ⟨h, hj⟩ | ⟨rfl, rfl, -⟩
  · obtain rfl := hT.walk_end v hp
    exact hj (hT.label h hx)
  · obtain rfl := hT.walk_labels v hq
    exact hqs (List.prefix_refl _)

/-- **Moving a subtree** to a place that is not inside of it. -/
theorem relink (hT : RootedTree R root live) (hx : R p a x) (hq : live q)
    (hout : ∀ ds, ¬Walk R x ds q) (hfree : ∀ j, R q b j → j = x) :
    RootedTree (Relink R x q b) root live where
  label := by
    rintro i c j j' (⟨h, hj⟩ | ⟨rfl, rfl, rfl⟩) (⟨h', hj'⟩ | ⟨h₁, h₂, rfl⟩)
    · exact hT.label h h'
    · subst h₁ h₂; exact hfree _ h
    · exact (hfree _ h').symm
    · rfl
  parent := by
    rintro i i' c c' j (⟨h, hj⟩ | ⟨rfl, rfl, rfl⟩) (⟨h', hj'⟩ | ⟨rfl, rfl, h₃⟩)
    · exact hT.parent h h'
    · exact absurd h₃ hj
    · exact absurd rfl hj'
    · exact ⟨rfl, rfl⟩
  root_fresh := by
    rintro i c (⟨h, -⟩ | ⟨-, -, h⟩)
    · exact hT.root_fresh h
    · exact hT.root_fresh (h ▸ hx)
  reach := by
    intro i hi
    obtain ⟨cs, w⟩ := hT.reach hi
    by_cases hbelow : ∃ ds, Walk R x ds i
    · obtain ⟨ds, wx⟩ := hbelow
      obtain ⟨qs, wq⟩ := hT.reach hq
      exact ⟨qs ++ [b] ++ ds, ((walk_relink_of_not_below hout wq).snoc
        (Or.inr ⟨rfl, rfl, rfl⟩)).append (hT.walk_relink_below (hT.live_right hx) wx)⟩
    · exact ⟨cs, walk_relink_of_not_below (not_exists.mp hbelow) w⟩
  live_left := by
    rintro i c j (⟨h, -⟩ | ⟨rfl, -, -⟩)
    · exact hT.live_left h
    · exact hq
  live_right := by
    rintro i c j (⟨h, -⟩ | ⟨-, -, rfl⟩)
    · exact hT.live_right h
    · exact hT.live_right hx
  live_root := hT.live_root

/-- A vertex that is reached through a label different from the one `x` is under is not
below `x`. -/
theorem not_below_of_labels (hT : RootedTree R root live) {c c' : L} {ds ds' es : List L}
    (hx : Walk R root (ds ++ c :: ds') x) (hj : Walk R root (ds ++ c' :: es) j) (hne : c ≠ c') :
    ∀ fs, ¬Walk R x fs j := by
  intro fs w
  have := hT.walk_labels hj (hx.append w)
  rw [List.append_assoc, List.append_cancel_left_eq, List.cons_append, List.cons.injEq] at this
  exact hne this.1.symm

end RootedTree

end Graph
