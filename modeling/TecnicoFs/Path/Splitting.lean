import TecnicoFs.Path

/-!
# Splitting paths

A path can be taken apart from the front, from the back, or together with another path.
All parts are *slices* of the path: a stretch of its characters, at the address where it
stands in the path.

Both pops are the same thing in two orders: they take the first of the components, in the
order of the path or in the reverse one, and leave the others (`Pops`).  What any number
of pops yields is said for both at once.
-/

namespace TecnicoFs

open Text

/-! ## Slices -/

/-- **A slice of a path**: a stretch of its characters, at their address. -/
def Slice (p q : TfsPath) : Prop :=
  ∃ a b, p.str = a ++ q.str ++ b ∧ q.chars = p.chars + a.length

section Slices

variable {p q r : TfsPath}

theorem Slice.refl (p : TfsPath) : Slice p p := ⟨[], [], by simp, rfl⟩

theorem Slice.trans (h : Slice p q) (h' : Slice q r) : Slice p r := by
  obtain ⟨a, b, hp, hq⟩ := h
  obtain ⟨c, d, hq', hr⟩ := h'
  refine ⟨a ++ c, d ++ b, by rw [hp, hq']; simp, ?_⟩
  rw [hr, hq, List.length_append, Nat.add_assoc]

theorem Slice.mem (h : Slice p q) {c : CChar} (hc : c ∈ q.str) : c ∈ p.str := by
  obtain ⟨a, b, hp, -⟩ := h
  rw [hp]
  simp [hc]

theorem Slice.nulFree (h : Slice p q) (hp : NulFree p.str) : NulFree q.str :=
  hp.of_subset fun _ => h.mem

theorem slice_tfsPathTrim (p : TfsPath) : Slice p (tfsPathTrim p) := by
  obtain ⟨a, b, hp, -, -, hchars, -⟩ := tfsPathTrim_split p
  exact ⟨a, b, hp, hchars⟩

theorem slice_take (p : TfsPath) (n : Nat) : Slice p ⟨p.chars, p.str.take n⟩ :=
  ⟨[], p.str.drop n, by simp, rfl⟩

theorem slice_drop {n : Nat} (hn : n ≤ p.str.length) : Slice p ⟨p.chars + n, p.str.drop n⟩ :=
  ⟨p.str.take n, [], by simp, by rw [List.length_take, Nat.min_eq_left hn]⟩

/-- The empty slice at the end. -/
theorem slice_end (p : TfsPath) : Slice p ⟨p.chars + p.len, []⟩ := ⟨p.str, [], by simp, rfl⟩

theorem slice_tfsPathPopFirst (p : TfsPath) :
    Slice p (tfsPathPopFirst p).1 ∧ Slice p (tfsPathPopFirst p).2 := by
  have hs := slice_tfsPathTrim p
  rw [tfsPathPopFirst]
  split
  · exact ⟨hs, hs.trans (slice_end _)⟩
  · rename_i n hn
    have hlt := (List.findIdx?_eq_some_iff_getElem.mp hn).1
    exact ⟨(hs.trans (slice_take _ n)).trans (slice_tfsPathTrim _),
      (hs.trans (slice_drop (Nat.le_of_lt hlt))).trans (slice_tfsPathTrim _)⟩

theorem slice_tfsPathPopLast (p : TfsPath) :
    Slice p (tfsPathPopLast p).1 ∧ Slice p (tfsPathPopLast p).2 := by
  have hs := slice_tfsPathTrim p
  rw [tfsPathPopLast]
  split
  · exact ⟨hs, hs.trans (slice_end _)⟩
  · rename_i n hn
    have hlt : n < (tfsPathTrim p).str.length := (lastSepPos_lt hn).1
    exact ⟨(hs.trans (slice_drop (Nat.le_of_lt hlt))).trans (slice_tfsPathTrim _),
      (hs.trans (slice_take _ n)).trans (slice_tfsPathTrim _)⟩

theorem trimmed_tfsPathPopFirst (p : TfsPath) :
    Trimmed isSlashOrSpace (tfsPathPopFirst p).1.str := by
  rw [tfsPathPopFirst]
  split
  · exact trimmed_tfsPathTrim p
  · exact trimmed_tfsPathTrim _

theorem trimmed_tfsPathPopLast (p : TfsPath) :
    Trimmed isSlashOrSpace (tfsPathPopLast p).1.str := by
  rw [tfsPathPopLast]
  split
  · exact trimmed_tfsPathTrim p
  · exact trimmed_tfsPathTrim _

end Slices

/-! ## Popping again and again -/

/-- What is left of a path after `n` pops. -/
def restAfter (pop : TfsPath → TfsPath × TfsPath) (p : TfsPath) : Nat → TfsPath
  | 0 => p
  | n + 1 => (pop (restAfter pop p n)).2

/-- What the pop after the first `n` pops returns. -/
def poppedAfter (pop : TfsPath → TfsPath × TfsPath) (p : TfsPath) (n : Nat) : TfsPath :=
  (pop (restAfter pop p n)).1

/-- **A pop takes the components of a path in some order.** -/
structure Pops (order : List (List CChar) → List (List CChar))
    (pop : TfsPath → TfsPath × TfsPath) : Prop where
  cases : ∀ p, ((pop p).1.str = [] ∧ order (comps p.str) = [] ∧ order (comps (pop p).2.str) = []) ∨
    order (comps p.str) = (pop p).1.str :: order (comps (pop p).2.str)
  length : ∀ cs, (order cs).length = cs.length
  slice : ∀ p, Slice p (pop p).1 ∧ Slice p (pop p).2
  trimmed : ∀ p, Trimmed isSlashOrSpace (pop p).1.str ∧ Trimmed isSlashOrSpace (pop p).2.str

theorem pops_tfsPathPopFirst : Pops id tfsPathPopFirst where
  cases p := by
    rcases tfsPathPopFirst_spec p with ⟨hfirst, hrest, hnil⟩ | ⟨-, hrest⟩
    · exact Or.inl ⟨hfirst, hnil, by rw [hrest, comps_nil, id]⟩
    · exact Or.inr hrest.comps_eq
  length _ := rfl
  slice := slice_tfsPathPopFirst
  trimmed p := ⟨trimmed_tfsPathPopFirst p, trimmed_tfsPathPopFirst_rest p⟩

theorem pops_tfsPathPopLast : Pops List.reverse tfsPathPopLast where
  cases p := by
    rcases tfsPathPopLast_spec p with ⟨hlast, hrest, hnil⟩ | ⟨-, hcomps⟩
    · exact Or.inl ⟨hlast, by rw [hnil, List.reverse_nil],
        by rw [hrest, comps_nil, List.reverse_nil]⟩
    · exact Or.inr (by rw [hcomps, List.reverse_append, List.reverse_singleton]; rfl)
  length _ := List.length_reverse
  slice := slice_tfsPathPopLast
  trimmed p := ⟨trimmed_tfsPathPopLast p, trimmed_tfsPathPopLast_rest p⟩

namespace Pops

variable {order : List (List CChar) → List (List CChar)} {pop : TfsPath → TfsPath × TfsPath}
  (h : Pops order pop) (p : TfsPath)

include h

/-- The components that are left after `n` pops. -/
theorem comps_restAfter (n : Nat) :
    order (comps (restAfter pop p n).str) = (order (comps p.str)).drop n := by
  induction n with
  | zero => rfl
  | succ n ih =>
    rw [← List.drop_drop, ← ih, restAfter]
    rcases h.cases (restAfter pop p n) with ⟨-, hnil, hrest⟩ | hcons
    · rw [hnil, hrest]
      rfl
    · rw [hcons]
      rfl

/-- **The pops yield the components in order**, and then only empty paths. -/
theorem str_poppedAfter (n : Nat) :
    (poppedAfter pop p n).str = (order (comps p.str))[n]?.getD [] := by
  have hrest := h.comps_restAfter p n
  rw [← Nat.add_zero n, ← List.getElem?_drop, ← hrest, Nat.add_zero, poppedAfter]
  rcases h.cases (restAfter pop p n) with ⟨hempty, hnil, -⟩ | hcons
  · rw [hempty, hnil]
    rfl
  · rw [hcons]
    rfl

theorem slice_restAfter (n : Nat) : Slice p (restAfter pop p n) := by
  induction n with
  | zero => exact Slice.refl p
  | succ n ih => exact ih.trans (h.slice _).2

/-- What is left is empty exactly when no component is left. -/
theorem len_restAfter_eq_zero_iff (n : Nat) :
    (restAfter pop p (n + 1)).len = 0 ↔ (comps p.str).length ≤ n + 1 := by
  have htrim := (h.trimmed (restAfter pop p n)).2
  have hrest := congrArg List.length (h.comps_restAfter p (n + 1))
  rw [h.length, List.length_drop, h.length, restAfter] at hrest
  rw [restAfter, len_eq_zero_iff_of_trimmed htrim, ← List.length_eq_zero_iff, hrest]
  omega

end Pops

/-- **Splitting a path from the front and from the back agree.**  The pops from the front
yield the components in order, those from the back in reverse order, and both then only
empty paths.  Each component that is returned and each rest is a trimmed slice of the path,
the rest is empty exactly when no component is left, and `tfs_path_components_len` is the
number of components. -/
theorem pops_agree (p : TfsPath) :
    (∀ n, (poppedAfter tfsPathPopFirst p n).str = (comps p.str)[n]?.getD []) ∧
    (∀ n, (poppedAfter tfsPathPopLast p n).str = (comps p.str).reverse[n]?.getD []) ∧
    (∀ pop ∈ [tfsPathPopFirst, tfsPathPopLast], ∀ n,
      (Slice p (poppedAfter pop p n) ∧ Trimmed isSlashOrSpace (poppedAfter pop p n).str) ∧
      (Slice p (restAfter pop p (n + 1)) ∧
        Trimmed isSlashOrSpace (restAfter pop p (n + 1)).str) ∧
      ((restAfter pop p (n + 1)).len = 0 ↔ (comps p.str).length ≤ n + 1)) ∧
    tfsPathComponentsLen p = (comps p.str).length := by
  have hboth : ∀ {order : List (List CChar) → List (List CChar)}
      {pop : TfsPath → TfsPath × TfsPath}, Pops order pop → ∀ n,
      (Slice p (poppedAfter pop p n) ∧ Trimmed isSlashOrSpace (poppedAfter pop p n).str) ∧
      (Slice p (restAfter pop p (n + 1)) ∧
        Trimmed isSlashOrSpace (restAfter pop p (n + 1)).str) ∧
      ((restAfter pop p (n + 1)).len = 0 ↔ (comps p.str).length ≤ n + 1) := by
    intro order pop h n
    exact ⟨⟨(h.slice_restAfter p n).trans (h.slice _).1, (h.trimmed _).1⟩,
      ⟨h.slice_restAfter p (n + 1), (h.trimmed _).2⟩, h.len_restAfter_eq_zero_iff p n⟩
  refine ⟨pops_tfsPathPopFirst.str_poppedAfter p, pops_tfsPathPopLast.str_poppedAfter p, ?_,
    tfsPathComponentsLen_eq p⟩
  intro pop hpop
  rcases List.mem_pair.mp hpop with rfl | rfl
  · exact hboth pops_tfsPathPopFirst
  · exact hboth pops_tfsPathPopLast

/-! ## The common ancestor -/

/-- Two lists that go on differently have nothing longer in common. -/
theorem prefix_of_differ {α : Type} {ds as bs l : List α} (hdiff : ∀ c ∈ as.head?, c ∉ bs.head?)
    (ha : l <+: ds ++ as) (hb : l <+: ds ++ bs) : l <+: ds := by
  rcases List.prefix_or_prefix_of_prefix ha (List.prefix_append ds as) with h | ⟨es, rfl⟩
  · exact h
  rw [List.prefix_append_right_inj] at ha hb
  cases es with
  | nil => simp
  | cons e es =>
    obtain ⟨as', rfl⟩ := ha
    obtain ⟨bs', rfl⟩ := hb
    exact absurd rfl (hdiff e rfl)

/-- The loop with the two paths exchanged. -/
theorem tfsPathCommonAncestor_loop_swap (lhs rhs p q : TfsPath) :
    (tfsPathCommonAncestor.loop rhs q p).lhsRest = (tfsPathCommonAncestor.loop lhs p q).rhsRest ∧
    (tfsPathCommonAncestor.loop rhs q p).rhsRest =
      (tfsPathCommonAncestor.loop lhs p q).lhsRest := by
  fun_induction tfsPathCommonAncestor.loop lhs p q with
  | case1 p q pFirst qFirst h =>
    rw [tfsPathCommonAncestor.loop, if_pos]
    · exact ⟨rfl, rfl⟩
    · rw [tfsStrEq_comm]
      exact h.imp And.symm id
  | case2 p q pFirst qFirst h ih =>
    rw [tfsPathCommonAncestor.loop, if_neg]
    · exact ih
    · rw [tfsStrEq_comm]
      exact fun h' => h (h'.imp And.symm id)

/-- The ancestor is a slice of the first path. -/
theorem slice_tfsPathCommonAncestor (lhs rhs : TfsPath) :
    Slice lhs (tfsPathCommonAncestor lhs rhs).ancestor := by
  have key : ∀ p q, Slice lhs (tfsPathCommonAncestor.loop lhs p q).ancestor := by
    intro p q
    fun_induction tfsPathCommonAncestor.loop lhs p q with
    | case1 => exact (slice_take lhs _).trans (slice_tfsPathTrim _)
    | case2 p q pFirst qFirst h ih => exact ih
  exact key lhs rhs

/-- **The longest common ancestor of two paths.**  Its components are the longest common
prefix of those of the two paths, and what is left of either path has the components that
are missing.  With the two paths exchanged the ancestor is an equal path, and what is left
is exchanged as well. -/
theorem common_ancestor_longest {lhs rhs : TfsPath} (hl : NulFree lhs.str)
    (hr : NulFree rhs.str) :
    (∀ l, l <+: comps lhs.str ∧ l <+: comps rhs.str ↔
      l <+: comps (tfsPathCommonAncestor lhs rhs).ancestor.str) ∧
    comps lhs.str = comps (tfsPathCommonAncestor lhs rhs).ancestor.str ++
      comps (tfsPathCommonAncestor lhs rhs).lhsRest.str ∧
    comps rhs.str = comps (tfsPathCommonAncestor lhs rhs).ancestor.str ++
      comps (tfsPathCommonAncestor lhs rhs).rhsRest.str ∧
    (∀ c, ¬((comps (tfsPathCommonAncestor lhs rhs).lhsRest.str).head? = some c ∧
      (comps (tfsPathCommonAncestor lhs rhs).rhsRest.str).head? = some c)) ∧
    tfsPathEq (tfsPathCommonAncestor rhs lhs).ancestor
      (tfsPathCommonAncestor lhs rhs).ancestor = true ∧
    (tfsPathCommonAncestor rhs lhs).lhsRest = (tfsPathCommonAncestor lhs rhs).rhsRest ∧
    (tfsPathCommonAncestor rhs lhs).rhsRest = (tfsPathCommonAncestor lhs rhs).lhsRest := by
  have h := @tfsPathCommonAncestor_splits lhs rhs hl
  have h' := @tfsPathCommonAncestor_splits rhs lhs hr
  obtain ⟨hlhs, hrhs⟩ := tfsPathCommonAncestor_loop_swap lhs rhs lhs rhs
  have hcl := h.lhs_rest.comps_eq
  have hcr := h.rhs_rest.comps_eq
  refine ⟨fun l => ⟨fun hl => ?_, fun hl => ?_⟩, hcl, hcr, fun c hc => h.differ c hc.1 hc.2, ?_,
    hlhs, hrhs⟩
  · rw [hcl, hcr] at hl
    exact prefix_of_differ h.differ hl.1 hl.2
  · rw [hcl, hcr]
    exact ⟨hl.trans (List.prefix_append ..), hl.trans (List.prefix_append ..)⟩
  · rw [tfsPathEq_iff ((slice_tfsPathCommonAncestor rhs lhs).nulFree hr)]
    -- both are what is missing of the components of `lhs` before the same rest
    have heq := h'.rhs_rest.comps_eq.symm.trans hcl
    rw [show (tfsPathCommonAncestor rhs lhs).rhsRest = _ from hrhs] at heq
    exact List.append_cancel_right heq

/-- Two paths that share a directory and are spelled differently. -/
theorem common_ancestor_longest_spelled :
    comps (cstr "/a//b") = comps (tfsPathCommonAncestor ⟨0, cstr "/a//b"⟩
      ⟨20, cstr " a/c"⟩).ancestor.str ++ comps (tfsPathCommonAncestor ⟨0, cstr "/a//b"⟩
      ⟨20, cstr " a/c"⟩).lhsRest.str :=
  (@common_ancestor_longest ⟨0, cstr "/a//b"⟩ ⟨20, cstr " a/c"⟩ (by decide) (by decide)).2.1

end TecnicoFs
