import TecnicoFs.Graph.RootedTree

/-!
# A rooted tree in preorder

The vertices below a vertex, each with the labels that lead to it: first the vertex itself,
then what is below its children, one child after the other.  In a rooted tree every vertex
below occurs once, and after everything that is above it.
-/

namespace Graph

variable {V L : Type} {R : V → L → V → Prop} {children : V → List (L × V)}
  {i j root : V} {cs ds : List L} {live : V → Prop}

/-- The vertices up to `depth` levels below a vertex, in preorder. -/
def preorder (children : V → List (L × V)) : Nat → V → List L → List (V × List L)
  | 0, _, _ => []
  | depth + 1, i, cs =>
      (i, cs) :: (children i).flatMap fun x => preorder children depth x.2 (cs ++ [x.1])

/-- **What occurs is what can be reached.** -/
theorem mem_preorder_iff (hR : ∀ i c j, R i c j ↔ (c, j) ∈ children i) {depth : Nat} :
    (j, ds) ∈ preorder children depth i cs ↔
      ∃ es, es.length < depth ∧ ds = cs ++ es ∧ Walk R i es j := by
  induction depth generalizing i cs with
  | zero => simp [preorder]
  | succ depth ih =>
    rw [preorder, List.mem_cons, List.mem_flatMap]
    constructor
    · rintro (heq | ⟨⟨c, k⟩, hck, hmem⟩)
      · obtain ⟨rfl, rfl⟩ := Prod.mk.inj heq
        exact ⟨[], by simp, by simp, Walk.nil⟩
      · obtain ⟨es, hlen, rfl, w⟩ := ih.mp hmem
        exact ⟨c :: es, by simpa using hlen, by simp, Walk.cons ((hR i c k).mpr hck) w⟩
    · rintro ⟨es, hlen, rfl, w⟩
      cases es with
      | nil =>
        obtain rfl := Walk.nil_iff.mp w
        exact Or.inl (by rw [List.append_nil])
      | cons c es =>
        obtain ⟨k, hck, w⟩ := Walk.cons_iff.mp w
        exact Or.inr ⟨(c, k), (hR i c k).mp hck,
          ih.mpr ⟨es, by simpa using hlen, by simp, w⟩⟩

/-- **Nothing occurs after what is below it.** -/
theorem RootedTree.pairwise_preorder (hT : RootedTree R root live)
    (hR : ∀ i c j, R i c j ↔ (c, j) ∈ children i)
    (hnodup : ∀ i, ((children i).map Prod.fst).Nodup) (w : Walk R root cs i) (depth : Nat) :
    (preorder children depth i cs).Pairwise fun x y => ∀ es, ¬Walk R y.1 es x.1 := by
  induction depth generalizing i cs with
  | zero => exact List.Pairwise.nil
  | succ depth ih =>
    rw [preorder, List.pairwise_cons, List.pairwise_flatMap]
    refine ⟨?_, ?_, ?_⟩
    · -- below a child there is no way back
      rintro ⟨j, ds⟩ hmem es w'
      obtain ⟨⟨c, k⟩, hck, hmem⟩ := List.mem_flatMap.mp hmem
      obtain ⟨fs, -, -, wk⟩ := (mem_preorder_iff hR).mp hmem
      have hcycle := hT.no_cycle (hT.walk_live hT.live_root w)
        (Walk.cons ((hR i c k).mpr hck) (wk.append w'))
      cases hcycle
    · rintro ⟨c, k⟩ hck
      exact ih (w.snoc ((hR i c k).mpr hck))
    · -- what is below two children has different labels
      refine (List.pairwise_map.mp (hnodup i)).imp_of_mem ?_
      rintro ⟨c, k⟩ ⟨c', k'⟩ hck hck' hne ⟨j, ds⟩ hj ⟨j', ds'⟩ hj' es w'
      obtain ⟨fs, -, -, wk⟩ := (mem_preorder_iff hR).mp hj
      obtain ⟨fs', -, -, wk'⟩ := (mem_preorder_iff hR).mp hj'
      have heq := hT.walk_labels (w.append (Walk.cons ((hR i c k).mpr hck) wk))
        (w.append (Walk.cons ((hR i c' k').mpr hck') (wk'.append w')))
      exact hne (List.cons.inj (List.append_cancel_left heq)).1

end Graph
