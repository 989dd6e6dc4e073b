import TecnicoFs.Spec.MapCalls

/-!
# Parts of the map

Every path but that of the root begins with the name of a child of the root, so sets of such
names divide the map into parts.  What a call does inside one part depends on that part
alone (`can_within_iff`, `after_within`), and it leaves the others as they are
(`after_within_of_disjoint`).
-/

namespace TecnicoFs

open Function

/-- The path begins with one of the names, or it is that of the root. -/
def Inside (A : Set (List CChar)) (cs : List (List CChar)) : Prop := ∀ name ∈ cs.head?, name ∈ A

variable {A B : Set (List CChar)} {cs ds es : List (List CChar)} {f : FileMap} {c : Call}

theorem inside_nil : Inside A [] := by simp [Inside]

theorem inside_cons {name : List CChar} : Inside A (name :: cs) ↔ name ∈ A := by simp [Inside]

theorem Inside.mono (h : Inside A cs) (hAB : A ⊆ B) : Inside B cs := fun name hname =>
  hAB (h name hname)

/-- What is above a path is in the same part. -/
theorem Inside.of_prefix (h : Inside A ds) (hp : cs <+: ds) : Inside A cs := by
  cases cs with
  | nil => exact inside_nil
  | cons name cs =>
    obtain ⟨rest, rfl⟩ := hp
    exact inside_cons.mpr (inside_cons.mp h)

/-- What is below a path is in the same part. -/
theorem Inside.below (h : Inside A cs) (hne : cs ≠ []) (hp : cs <+: ds) : Inside A ds := by
  obtain ⟨name, cs, rfl⟩ := List.exists_cons_of_ne_nil hne
  obtain ⟨rest, rfl⟩ := hp
  exact inside_cons.mpr (inside_cons.mp h)

/-- A path in one part is in no other. -/
theorem Inside.not_of_disjoint (h : Inside B cs) (hAB : ∀ name ∈ A, name ∉ B) (hne : cs ≠ []) :
    ¬Inside A cs := by
  obtain ⟨name, cs, rfl⟩ := List.exists_cons_of_ne_nil hne
  exact fun hA => hAB _ (inside_cons.mp hA) (inside_cons.mp h)

/-- All paths of the call are in the part. -/
def Call.Within (A : Set (List CChar)) : Call → Prop
  | .create path _ => Inside A (comps path.str)
  | .remove path => Inside A (comps path.str)
  | .find path _ => Inside A (comps path.str)
  | .move origPath destPath _ => Inside A (comps origPath.str) ∧ Inside A (comps destPath.str)

theorem Call.Within.mono (h : c.Within A) (hAB : A ⊆ B) : c.Within B := by
  cases c with
  | create => exact Inside.mono h hAB
  | remove => exact Inside.mono h hAB
  | find => exact Inside.mono h hAB
  | move => exact ⟨h.1.mono hAB, h.2.mono hAB⟩

theorem PlainMove.orig_ne_nil {origPath destPath : TfsPath} (h : PlainMove origPath destPath) :
    comps origPath.str ≠ [] := fun hnil => h.notBelow (hnil ▸ List.nil_prefix)

namespace FileMap

open Classical in
/-- One part of the map, and the root. -/
noncomputable def within (f : FileMap) (A : Set (List CChar)) : FileMap := fun cs =>
  if Inside A cs then f cs else none

theorem within_of_inside (h : Inside A cs) : f.within A cs = f cs := if_pos h

theorem within_of_not_inside (h : ¬Inside A cs) : f.within A cs = none := if_neg h

/-- Nothing but the root is there. -/
theorem within_new : new.within A = new := by
  funext cs
  by_cases h : Inside A cs
  · exact within_of_inside h
  · rw [within_of_not_inside h, new, if_neg]
    rintro rfl
    exact h inside_nil

/-! ## Changes in one part -/

theorem within_update (h : Inside A cs) (x : Option TfsInodeType) :
    within (update f cs x) A = update (f.within A) cs x := by
  funext es
  by_cases hes : es = cs
  · subst hes
    rw [within_of_inside h, update_self, update_self]
  · rw [update_of_ne hes, within, within, update_of_ne hes]

theorem within_relocate (hcs : Inside A cs) (hds : Inside A ds) (hc : cs ≠ []) (hd : ds ≠ []) :
    (f.relocate cs ds).within A = (f.within A).relocate cs ds := by
  funext es
  by_cases hes : Inside A es
  · rw [within_of_inside hes, relocate, relocate, within_of_inside hes,
      within_of_inside (hcs.below hc (List.prefix_append ..))]
  · rw [within_of_not_inside hes, relocate, if_neg fun hp => hes (hds.below hd hp),
      if_neg fun hp => hes (hcs.below hc hp), within_of_not_inside hes]

theorem canCreate_within_iff (h : Inside A cs) : (f.within A).CanCreate cs ↔ f.CanCreate cs := by
  refine exists_congr fun pre => exists_congr fun name => and_congr_right fun hcs => ?_
  rw [within_of_inside h, within_of_inside (h.of_prefix (hcs ▸ List.prefix_append ..))]

/-- **Whether a call is allowed** is decided in its part. -/
theorem can_within_iff (h : c.Within A) : (f.within A).Can c ↔ f.Can c := by
  cases c with
  | create path type => exact canCreate_within_iff h
  | remove path =>
    refine and_congr_right fun hne => ?_
    rw [within_of_inside h]
    refine or_congr_right (and_congr_right fun _ => forall_congr' fun name => ?_)
    rw [within_of_inside (Inside.below h hne (List.prefix_append ..))]
  | find path access =>
    rw [Can, Can, within_of_inside h]
  | move origPath destPath access =>
    rw [Can, Can, CanMove, CanMove, within_of_inside h.1, canCreate_within_iff h.2]

theorem CanCreate.ne_nil (h : f.CanCreate cs) : cs ≠ [] := by
  obtain ⟨pre, name, rfl, -⟩ := h
  simp

/-- **What a call does in its part** it does to that part. -/
theorem after_within (h : c.Within A) (hplain : c.Plain) (hcan : f.Can c) :
    (f.after c).within A = (f.within A).after c := by
  cases c with
  | create path type => exact within_update h _
  | remove path => exact within_update h _
  | find path access => rfl
  | move origPath destPath access =>
    exact within_relocate h.1 h.2 (hplain _ _ _ rfl).orig_ne_nil hcan.2.ne_nil

/-- **The other parts stay as they are.** -/
theorem after_within_of_disjoint (h : c.Within B) (hAB : ∀ name ∈ A, name ∉ B) (hplain : c.Plain)
    (hcan : f.Can c) : (f.after c).within A = f.within A := by
  have hupdate : ∀ {cs : List (List CChar)} (x : Option TfsInodeType), Inside B cs → cs ≠ [] →
      within (update f cs x) A = f.within A := by
    intro cs x hcs hne
    funext es
    by_cases hes : Inside A es
    · rw [within_of_inside hes, within_of_inside hes, update_of_ne]
      rintro rfl
      exact hcs.not_of_disjoint hAB hne hes
    · rw [within_of_not_inside hes, within_of_not_inside hes]
  cases c with
  | create path type => exact hupdate _ h hcan.ne_nil
  | remove path => exact hupdate _ h hcan.1
  | find path access => rfl
  | move origPath destPath access =>
    have hne := (hplain _ _ _ rfl).orig_ne_nil
    funext es
    by_cases hes : Inside A es
    · rw [within_of_inside hes, within_of_inside hes, after, relocate, if_neg, if_neg]
      · exact fun hp => h.1.not_of_disjoint hAB hne (hes.of_prefix hp)
      · exact fun hp => h.2.not_of_disjoint hAB hcan.2.ne_nil (hes.of_prefix hp)
    · rw [within_of_not_inside hes, within_of_not_inside hes]

end FileMap

end TecnicoFs
