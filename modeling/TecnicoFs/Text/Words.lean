import TecnicoFs.Text.Pieces

/-!
# The words of a string

The words of a string are its pieces when blanks are the separators: the longest parts
without a blank.  A scanner skips blanks, takes what comes before the next blank, and
goes on behind it; `words_of_not_blank` is one step of such a scanner.
-/

namespace Text

variable {α : Type*} (p : α → Bool)

/-- The longest parts without a blank. -/
def words (l : List α) : List (List α) := pieces p p l

variable {p} {l : List α}

@[simp] theorem words_nil : words p [] = [] := pieces_nil

/-- A string without blanks is its only word. -/
theorem words_of_forall (h : ∀ x ∈ l, p x = false) (hne : l ≠ []) : words p l = [l] := by
  refine pieces_eq_singleton h ⟨fun x hx => h x (List.mem_of_mem_head? hx), fun x hx => h x ?_⟩ hne
  exact List.mem_of_getLast? hx

theorem words_append_cons {s : α} (hs : p s = true) (a b : List α) :
    words p (a ++ s :: b) = words p a ++ words p b :=
  pieces_append_cons hs a b

theorem words_dropWhile (l : List α) : words p (l.dropWhile p) = words p l := by
  conv_rhs => rw [← List.takeWhile_append_dropWhile (p := p) (l := l)]
  exact (pieces_append_left (fun x hx => by simp [List.mem_takeWhile_imp hx]) _).symm

theorem words_append_right {b : List α} (hb : ∀ x ∈ b, p x = true) (l : List α) :
    words p (l ++ b) = words p l :=
  pieces_append_right (fun x hx => by simp [hb x hx]) l

/-- **One step of a scanner.** -/
theorem words_of_not_blank {x : α} (hx : p x = false) (l : List α) :
    words p (x :: l) = (x :: l).takeWhile (fun y => !p y) ::
      words p ((x :: l).dropWhile fun y => !p y) := by
  have hne : (x :: l).takeWhile (fun y => !p y) ≠ [] := by simp [hx]
  have hword : words p ((x :: l).takeWhile fun y => !p y) = [(x :: l).takeWhile fun y => !p y] :=
    words_of_forall (fun y hy => by simpa using List.mem_takeWhile_imp hy) hne
  have hsplit := List.takeWhile_append_dropWhile (p := fun y => !p y) (l := x :: l)
  cases hd : (x :: l).dropWhile fun y => !p y with
  | nil =>
    rw [hd, List.append_nil] at hsplit
    rw [words_nil, ← hword, hsplit]
  | cons s r =>
    have hs : p s = true := by
      have h := List.head?_dropWhile_not (fun y => !p y) (x :: l)
      rw [hd] at h
      simpa using h
    conv_lhs => rw [← hsplit, hd]
    rw [words_append_cons hs, hword, ← List.nil_append (s :: r), words_append_cons hs]
    simp

theorem of_mem_words {w : List α} (h : w ∈ words p l) :
    w ≠ [] ∧ (∀ x ∈ w, p x = false) ∧ ∀ x ∈ w, x ∈ l := by
  obtain ⟨hne, hblank, -, hsub⟩ := of_mem_pieces h
  exact ⟨hne, hblank, hsub⟩

end Text
