import TecnicoFs.Path.Splitting

/-!
# Equal paths

`tfs_path_eq` compares the components, so all it knows of a path is how the path is cut:
two spellings of one list of names are equal.  `Pads` says what a spelling can differ in,
slashes and whitespace at the ends and on both sides of a slash.
-/

namespace TecnicoFs

open Text

/-- A path that is a C string. -/
abbrev CPath := {p : TfsPath // NulFree p.str}

/-- **More slashes and whitespace**, at an end or next to a slash; there may be other
slashes and whitespace in between. -/
def Pads (s s' : List CChar) : Prop :=
  ∃ a b w, s = a ++ b ∧ s' = a ++ w ++ b ∧ (∀ c ∈ w, isSlashOrSpace c = true) ∧
    ((∃ a' u, a = a' ++ u ∧ (∀ c ∈ u, isSlashOrSpace c = true) ∧
        (a' = [] ∨ a'.getLast? = some slash)) ∨
      ∃ u b', b = u ++ b' ∧ (∀ c ∈ u, isSlashOrSpace c = true) ∧
        (b' = [] ∨ b'.head? = some slash))

variable {s s' : List CChar}

/-- What is added after a slash, or at the start. -/
theorem comps_append_slashes {a w : List CChar} (ha : a = [] ∨ a.getLast? = some slash)
    (hw : ∀ c ∈ w, isSlashOrSpace c = true) (b : List CChar) :
    comps (a ++ w ++ b) = comps (a ++ b) := by
  rcases ha with rfl | ha
  · rw [List.nil_append, List.nil_append, comps_append_left hw]
  · obtain ⟨a, rfl⟩ := List.getLast?_eq_some_iff.mp ha
    simp only [List.append_assoc, List.singleton_append]
    rw [List.cons_append, comps_append_slash, comps_append_slash, comps_append_left hw]

/-- What is added before a slash, or at the end. -/
theorem comps_slashes_append {b w : List CChar} (hb : b = [] ∨ b.head? = some slash)
    (hw : ∀ c ∈ w, isSlashOrSpace c = true) (a : List CChar) :
    comps (a ++ w ++ b) = comps (a ++ b) := by
  rcases hb with rfl | hb
  · rw [List.append_nil, List.append_nil, comps_append_right hw]
  · obtain ⟨b, rfl⟩ := List.head?_eq_some_iff.mp hb
    rw [comps_append_slash, comps_append_slash, comps_append_right hw]

/-- **Another spelling has the same components.** -/
theorem Pads.comps_eq (h : Pads s s') : comps s' = comps s := by
  obtain ⟨a, b, w, rfl, rfl, hw, ⟨a', u, rfl, hu, ha'⟩ | ⟨u, b', rfl, hu, hb'⟩⟩ := h
  · have huw : ∀ c ∈ u ++ w, isSlashOrSpace c = true := fun c hc =>
      (List.mem_append.mp hc).elim (hu c) (hw c)
    rw [List.append_assoc a', comps_append_slashes ha' huw, comps_append_slashes ha' hu]
  · have hwu : ∀ c ∈ w ++ u, isSlashOrSpace c = true := fun c hc =>
      (List.mem_append.mp hc).elim (hw c) (hu c)
    rw [← List.append_assoc, List.append_assoc a, comps_slashes_append hb' hwu,
      ← List.append_assoc, comps_slashes_append hb' hu]

theorem tfsPathTrim_of_trimmed {p : TfsPath} (h : Trimmed isSlashOrSpace p.str) :
    tfsPathTrim p = p := by
  have hdrop : p.str.dropWhile isSlashOrSpace = p.str := by
    cases hs : p.str with
    | nil => rfl
    | cons c str => exact List.dropWhile_cons_of_neg (by simp [h.1 c (by rw [hs]; rfl)])
  have hstr : (tfsPathTrim p).str = p.str := h.trim_eq
  have hchars : (tfsPathTrim p).chars = p.chars := by
    show p.chars + (p.str.length - (p.str.dropWhile isSlashOrSpace).length) = p.chars
    rw [hdrop, Nat.sub_self, Nat.add_zero]
  cases p
  exact congrArg₂ TfsPath.mk hchars hstr

/-- **Path equality is equality of components.**  So it is an equivalence, a path is equal to
its trimming, trimming again changes nothing, and another spelling of a path compares with
all paths as the path does. -/
theorem path_eq_components :
    (∀ p q : CPath, tfsPathEq p q = true ↔ comps p.1.str = comps q.1.str) ∧
    Equivalence (fun p q : CPath => tfsPathEq p q = true) ∧
    (∀ p : CPath, tfsPathEq (tfsPathTrim p) p = true ∧
      tfsPathTrim (tfsPathTrim p) = tfsPathTrim p) ∧
    ∀ p p' : CPath, Pads p.1.str p'.1.str → ∀ q : CPath,
      tfsPathEq p' q = tfsPathEq p q ∧ tfsPathEq q p' = tfsPathEq q p := by
  have hiff : ∀ p q : CPath, tfsPathEq p q = true ↔ comps p.1.str = comps q.1.str :=
    fun p q => tfsPathEq_iff p.2
  refine ⟨hiff, ⟨fun p => (hiff p p).mpr rfl, fun {p q} h => ?_, fun {p q r} h h' => ?_⟩,
    fun p => ⟨?_, ?_⟩, fun p p' hpads q => ⟨?_, ?_⟩⟩
  · exact (hiff q p).mpr ((hiff p q).mp h).symm
  · exact (hiff p r).mpr (((hiff p q).mp h).trans ((hiff q r).mp h'))
  · rw [tfsPathEq_iff ((slice_tfsPathTrim p.1).nulFree p.2)]
    exact comps_tfsPathTrim p.1
  · exact tfsPathTrim_of_trimmed (trimmed_tfsPathTrim p.1)
  · rw [Bool.eq_iff_iff, hiff, hiff, hpads.comps_eq]
  · rw [Bool.eq_iff_iff, hiff, hiff, hpads.comps_eq]

end TecnicoFs
