import Mathlib.Data.List.DropRight
import Mathlib.Data.List.Basic

/-!
# The pieces of a string

Cut a string at every separator, trim each part, and drop the parts that are then empty.
What is left are its *pieces*.  They do not depend on how the separators and the blanks
between two pieces are arranged: a string has the pieces of its trimming
(`pieces_trim`), and the pieces of a string cut at one separator are those of the two
sides (`pieces_append_cons`).  A scan that looks for the first or for the last separator
can therefore be followed piece by piece.
-/

namespace Text

variable {α : Type*}

/-! ## Trimming -/

/-- Remove the longest prefix and the longest suffix of letters that satisfy `p`. -/
def trim (p : α → Bool) (l : List α) : List α := (l.dropWhile p).rdropWhile p

variable {p : α → Bool} {l : List α}

@[simp] theorem trim_nil : trim p [] = [] := by simp [trim]

theorem trim_cons_of_pos {x : α} (h : p x = true) : trim p (x :: l) = trim p l := by
  rw [trim, List.dropWhile_cons_of_pos h, trim]

theorem trim_eq_nil_iff : trim p l = [] ↔ ∀ x ∈ l, p x = true := by
  rw [trim, List.rdropWhile_eq_nil_iff]
  constructor
  · intro h x hx
    rw [← List.takeWhile_append_dropWhile (p := p) (l := l), List.mem_append] at hx
    rcases hx with hx | hx
    · exact List.mem_takeWhile_imp hx
    · exact h x hx
  · exact fun h x hx => h x (List.dropWhile_subset _ hx)

/-- A string is its trimming between two strings of trimmed letters. -/
theorem exists_eq_append_trim (p : α → Bool) (l : List α) :
    ∃ a b, l = a ++ trim p l ++ b ∧ (∀ x ∈ a, p x = true) ∧ ∀ x ∈ b, p x = true := by
  refine ⟨l.takeWhile p, (l.dropWhile p).rtakeWhile p, ?_, fun x hx => List.mem_takeWhile_imp hx,
    fun x hx => List.mem_rtakeWhile_imp hx⟩
  rw [List.append_assoc, trim, List.rdropWhile_append_rtakeWhile,
    List.takeWhile_append_dropWhile]

/-- Neither end of a trimmed string satisfies `p`. -/
def Trimmed (p : α → Bool) (l : List α) : Prop :=
  (∀ x ∈ l.head?, p x = false) ∧ ∀ x ∈ l.getLast?, p x = false

instance (p : α → Bool) (l : List α) : Decidable (Trimmed p l) :=
  inferInstanceAs (Decidable (_ ∧ _))

theorem trimmed_trim (p : α → Bool) (l : List α) : Trimmed p (trim p l) := by
  constructor
  · intro x hx
    obtain ⟨b, hb⟩ := List.rdropWhile_prefix p (l.dropWhile p)
    have hx' : x ∈ (l.dropWhile p).head? := by
      rw [← hb]
      cases h : (l.dropWhile p).rdropWhile p with
      | nil => rw [trim, h] at hx; simp at hx
      | cons y m => rw [trim, h] at hx; simpa using hx
    have hnot := List.head?_dropWhile_not p l
    rw [Option.mem_def] at hx'
    rw [hx'] at hnot
    simpa using hnot
  · intro x hx
    have hne : (l.dropWhile p).rdropWhile p ≠ [] := by
      rintro h
      rw [trim, h] at hx
      simp at hx
    have hlast := List.rdropWhile_last_not p (l.dropWhile p) hne
    rw [trim, List.getLast?_eq_some_getLast hne] at hx
    obtain rfl : _ = x := by simpa using hx
    simpa using hlast

theorem Trimmed.trim_eq (h : Trimmed p l) : trim p l = l := by
  have hdrop : l.dropWhile p = l := by
    cases l with
    | nil => rfl
    | cons x m => exact List.dropWhile_cons_of_neg (by simp [h.1 x rfl])
  rw [trim, hdrop, List.rdropWhile_eq_self_iff]
  intro hl
  simp [h.2 _ (List.getLast?_eq_some_getLast hl)]

theorem length_trim_le (p : α → Bool) (l : List α) : (trim p l).length ≤ l.length := by
  obtain ⟨a, b, h, -⟩ := exists_eq_append_trim p l
  have hlen := congrArg List.length h
  rw [List.length_append, List.length_append] at hlen
  omega

/-- Two decompositions that agree up to trimmed letters have one trimming. -/
theorem trim_append_append {a m b : List α} (ha : ∀ x ∈ a, p x = true)
    (hb : ∀ x ∈ b, p x = true) : trim p (a ++ m ++ b) = trim p m := by
  induction a with
  | nil =>
    rw [List.nil_append, trim, trim]
    by_cases hm : ∀ x ∈ m, p x = true
    · have hmb : ∀ x ∈ m ++ b, p x = true := by
        intro x hx
        rcases List.mem_append.mp hx with hx | hx
        · exact hm x hx
        · exact hb x hx
      rw [List.dropWhile_eq_nil_iff.mpr hmb, List.dropWhile_eq_nil_iff.mpr hm]
    · have hne : m.dropWhile p ≠ [] := fun h => hm (List.dropWhile_eq_nil_iff.mp h)
      rw [List.dropWhile_append, if_neg (by simpa using hne), List.rdropWhile, List.rdropWhile,
        List.reverse_append,
        List.dropWhile_append_of_pos fun x hx => hb x (List.mem_reverse.mp hx)]
  | cons x a ih =>
    rw [List.cons_append, List.cons_append, trim_cons_of_pos (ha x List.mem_cons_self),
      ih fun y hy => ha y (List.mem_cons_of_mem _ hy)]

/-! ## Pieces -/

section Pieces

variable (sep ws : α → Bool)

/-- The pieces of a string between separators, trimmed, the empty ones dropped. -/
def pieces (l : List α) : List (List α) :=
  ((l.splitOnP sep).map (trim ws)).filter fun m => !m.isEmpty

variable {sep ws}

/-- **Cutting at a separator.** -/
theorem pieces_append_cons {s : α} (hs : sep s = true) (a b : List α) :
    pieces sep ws (a ++ s :: b) = pieces sep ws a ++ pieces sep ws b := by
  rw [pieces, List.splitOnP_append_cons a b hs, List.map_append, List.filter_append]
  rfl

theorem pieces_of_forall (h : ∀ x ∈ l, sep x = false) :
    pieces sep ws l = [trim ws l].filter fun m => !m.isEmpty := by
  rw [pieces, List.splitOnP_eq_singleton h]
  rfl

@[simp] theorem pieces_nil : pieces sep ws [] = [] := by
  rw [pieces_of_forall (by simp)]
  simp

/-- A trimmed string without separators is its own only piece. -/
theorem pieces_eq_singleton (h : ∀ x ∈ l, sep x = false) (ht : Trimmed ws l) (hne : l ≠ []) :
    pieces sep ws l = [l] := by
  rw [pieces_of_forall h, ht.trim_eq]
  simp [hne]

theorem pieces_eq_of_trim_eq {l' : List α} (h : ∀ x ∈ l, sep x = false)
    (h' : ∀ x ∈ l', sep x = false) (ht : trim ws l = trim ws l') :
    pieces sep ws l = pieces sep ws l' := by
  rw [pieces_of_forall h, pieces_of_forall h', ht]

theorem exists_first_sep (sep : α → Bool) (l : List α) : (∀ x ∈ l, sep x = false) ∨
    ∃ a s b, l = a ++ s :: b ∧ sep s = true ∧ ∀ x ∈ a, sep x = false := by
  induction l with
  | nil => exact Or.inl (by simp)
  | cons x l ih =>
    cases hx : sep x with
    | true => exact Or.inr ⟨[], x, l, rfl, hx, by simp⟩
    | false =>
      rcases ih with h | ⟨a, s, b, rfl, hs, ha⟩
      · exact Or.inl (List.forall_mem_cons.mpr ⟨hx, h⟩)
      · exact Or.inr ⟨x :: a, s, b, rfl, hs, List.forall_mem_cons.mpr ⟨hx, ha⟩⟩

theorem exists_last_sep (sep : α → Bool) (l : List α) : (∀ x ∈ l, sep x = false) ∨
    ∃ a s b, l = a ++ s :: b ∧ sep s = true ∧ ∀ x ∈ b, sep x = false := by
  rcases exists_first_sep sep l.reverse with h | ⟨a, s, b, hl, hs, ha⟩
  · exact Or.inl fun x hx => h x (List.mem_reverse.mpr hx)
  · refine Or.inr ⟨b.reverse, s, a.reverse, ?_, hs, fun x hx => ha x (List.mem_reverse.mp hx)⟩
    rw [← List.reverse_reverse l, hl]
    simp

/-- Blanks and separators in front do not matter. -/
theorem pieces_append_left {a : List α} (ha : ∀ x ∈ a, (sep x || ws x) = true) (l : List α) :
    pieces sep ws (a ++ l) = pieces sep ws l := by
  induction a with
  | nil => rfl
  | cons x a ih =>
    rw [List.forall_mem_cons] at ha
    rw [List.cons_append, ← ih ha.2]
    cases hx : sep x with
    | true => simpa using @pieces_append_cons α sep ws x hx [] (a ++ l)
    | false =>
      have hws : ws x = true := by simpa [hx] using ha.1
      rcases exists_first_sep sep (a ++ l) with h | ⟨c, s, d, hcd, hs, hc⟩
      · exact pieces_eq_of_trim_eq (List.forall_mem_cons.mpr ⟨hx, h⟩) h
          (trim_cons_of_pos hws)
      · rw [hcd, ← List.cons_append, pieces_append_cons hs, pieces_append_cons hs,
          pieces_eq_of_trim_eq (List.forall_mem_cons.mpr ⟨hx, hc⟩) hc (trim_cons_of_pos hws)]

/-- Blanks and separators at the end do not matter. -/
theorem pieces_append_right {b : List α} (hb : ∀ x ∈ b, (sep x || ws x) = true) (l : List α) :
    pieces sep ws (l ++ b) = pieces sep ws l := by
  induction b generalizing l with
  | nil => rw [List.append_nil]
  | cons x b ih =>
    rw [List.forall_mem_cons] at hb
    rw [List.append_cons, ih hb.2]
    cases hx : sep x with
    | true => simpa using @pieces_append_cons α sep ws x hx l []
    | false =>
      have hws : ws x = true := by simpa [hx] using hb.1
      have htrim : ∀ m : List α, trim ws (m ++ [x]) = trim ws m := fun m => by
        simpa using trim_append_append (p := ws) (a := []) (m := m) (b := [x]) (by simp)
          (by simpa using hws)
      have hsep : ∀ {m : List α}, (∀ y ∈ m, sep y = false) → ∀ y ∈ m ++ [x], sep y = false := by
        intro m hm y hy
        rcases List.mem_append.mp hy with hy | hy
        · exact hm y hy
        · exact List.mem_singleton.mp hy ▸ hx
      rcases exists_last_sep sep l with h | ⟨c, s, d, rfl, hs, hd⟩
      · exact pieces_eq_of_trim_eq (hsep h) h (htrim l)
      · rw [List.append_assoc, List.cons_append, pieces_append_cons hs, pieces_append_cons hs,
          pieces_eq_of_trim_eq (hsep hd) hd (htrim d)]

/-- **A string has the pieces of its trimming.** -/
theorem pieces_trim (l : List α) :
    pieces sep ws (trim (fun x => sep x || ws x) l) = pieces sep ws l := by
  obtain ⟨a, b, h, ha, hb⟩ := exists_eq_append_trim (fun x => sep x || ws x) l
  conv_rhs => rw [h]
  rw [pieces_append_right hb, pieces_append_left ha]

/-- A string of blanks and separators has no piece, and no other string has none. -/
theorem pieces_eq_nil_iff : pieces sep ws l = [] ↔ ∀ x ∈ l, (sep x || ws x) = true := by
  constructor
  · intro h x hx
    by_contra hne
    obtain ⟨hsx, hwx⟩ : sep x = false ∧ ws x = false := by simpa using hne
    -- the part around `x` is a piece
    obtain ⟨a, b, rfl⟩ := List.append_of_mem hx
    have key : ∀ c d : List α, (∀ y ∈ c, sep y = false) → (∀ y ∈ d, sep y = false) →
        pieces sep ws (c ++ x :: d) ≠ [] := by
      intro c d hc hd hnil
      rw [pieces_of_forall] at hnil
      · have hemp : trim ws (c ++ x :: d) = [] := by simpa using hnil
        exact absurd (trim_eq_nil_iff.mp hemp x (by simp)) (by simp [hwx])
      · intro y hy
        rcases List.mem_append.mp hy with hy | hy
        · exact hc y hy
        · rcases List.mem_cons.mp hy with rfl | hy
          · exact hsx
          · exact hd y hy
    have key' : ∀ c : List α, (∀ y ∈ c, sep y = false) → pieces sep ws (c ++ x :: b) ≠ [] := by
      intro c hc
      rcases exists_first_sep sep b with hb | ⟨d, s, e, rfl, hs, hd⟩
      · exact key c b hc hb
      · rw [← List.cons_append, ← List.append_assoc, pieces_append_cons hs]
        exact fun hnil => key c d hc hd (List.append_eq_nil_iff.mp hnil).1
    rcases exists_last_sep sep a with ha | ⟨e, s, c, rfl, hs, hc⟩
    · exact key' a ha h
    · rw [List.append_assoc, List.cons_append, pieces_append_cons hs] at h
      exact key' c hc (List.append_eq_nil_iff.mp h).2
  · intro h
    simpa using pieces_append_left h []

/-- What a piece looks like. -/
theorem of_mem_pieces {c : List α} (h : c ∈ pieces sep ws l) :
    c ≠ [] ∧ (∀ x ∈ c, sep x = false) ∧ Trimmed ws c ∧ ∀ x ∈ c, x ∈ l := by
  have hsingle : ∀ m : List α, (∀ x ∈ m, sep x = false) → c ∈ pieces sep ws m →
      c ≠ [] ∧ (∀ x ∈ c, sep x = false) ∧ Trimmed ws c ∧ ∀ x ∈ c, x ∈ m := by
    intro m hm hc
    rw [pieces_of_forall hm] at hc
    obtain ⟨rfl, hne⟩ : c = trim ws m ∧ c ≠ [] := by simpa using hc
    obtain ⟨a, b, hab, -⟩ := exists_eq_append_trim ws m
    have hsub : ∀ x ∈ trim ws m, x ∈ m := fun x hx => by rw [hab]; simp [hx]
    exact ⟨hne, fun x hx => hm x (hsub x hx), trimmed_trim ws m, hsub⟩
  induction hn : l.length using Nat.strong_induction_on generalizing l with
  | _ n ih =>
    rcases exists_first_sep sep l with hl | ⟨a, s, b, rfl, hs, ha⟩
    · exact hsingle l hl h
    · rw [pieces_append_cons hs, List.mem_append] at h
      rcases h with h | h
      · obtain ⟨h₁, h₂, h₃, h₄⟩ := hsingle a ha h
        exact ⟨h₁, h₂, h₃, fun x hx => by simp [h₄ x hx]⟩
      · obtain ⟨h₁, h₂, h₃, h₄⟩ := ih b.length (by simp at hn; omega) h rfl
        exact ⟨h₁, h₂, h₃, fun x hx => by simp [h₄ x hx]⟩

end Pieces

end Text
