import TecnicoFs.Command.Script

/-!
# Line numbers

`process_input` counts the turns of its loop, and calls the count the line in what it says of
a command.  A turn skips any number of blank lines, and then a comment or a command, so the
number of a command is that of its line, less the blank lines above (`reported_lines`).
-/

namespace TecnicoFs

open Text

/-! ## The source -/

/-- Processes all input, with the line number `cur_line` that goes with each call of the
parser. -/
def processInputLines (send : Nat → Bool) (n curLine : Nat) (file : InFile) :
    List (Nat × Attempt) × Ending :=
  let skipped := skipWhitespace file.rest
  let file₁ := ungetc skipped.1 skipped.2
  let peek := fgetc file₁
  if _h : peek.1 = some (cchar '#') then
    processInputLines send n (curLine + 1) (skipLine peek.2.rest)
  else
    let file₂ := ungetc peek.1 peek.2
    if file₂.eof then ([], .endOfInput)
    else
      match _h : tfsCommandParse file₂.rest with
      | (.error _, _) => ([(curLine, ⟨file₂.rest, none⟩)], .parseError)
      | (.ok command, rest) =>
          if send n then
            let run := processInputLines send (n + 1) (curLine + 1)
              ⟨rest, fgetsEof 1023 file₂.rest⟩
            ((curLine, ⟨file₂.rest, some command⟩) :: run.1, run.2)
          else ([(curLine, ⟨file₂.rest, some command⟩)], .sendError)
termination_by file.rest.length
decreasing_by
  all_goals
    have hle : file₁.rest.length ≤ file.rest.length := by
      rw [show file₁.rest = _ from rest_ungetc_skipWhitespace file.rest]
      exact (List.dropWhile_sublist _).length_le
  · have hlt : peek.2.rest.length < file₁.rest.length := by
      show (fgetc file₁).2.rest.length < _
      replace _h : (fgetc file₁).1 = some (cchar '#') := _h
      rw [fgetc] at _h ⊢
      cases hrest : file₁.rest with
      | nil => simp [hrest] at _h
      | cons ch rest => simp
    exact (length_skipLine_le _).trans_lt (hlt.trans_le hle)
  · have hlt := length_lt_of_parse _h
    rw [show file₂.rest = _ from rest_ungetc_fgetc file₁] at hlt
    exact hlt.trans_le hle

/-! ## What the client does -/

section Client

variable {send : Nat → Bool} {n curLine : Nat} {rest line after : List CChar} {eof eof' : Bool}

/-- The client is at the end of the text. -/
theorem processInputLines_of_nil (h : rest.dropWhile isspace = []) :
    processInputLines send n curLine ⟨rest, eof⟩ = ([], .endOfInput) := by
  have hskip : skipWhitespace rest = (none, ⟨[], true⟩) := by rw [skipWhitespace_eq, h]
  rw [processInputLines]
  simp only [hskip, ungetc, fgetc]
  rfl

/-- The client is at a comment. -/
theorem processInputLines_of_comment {str : List CChar}
    (h : rest.dropWhile isspace = cchar '#' :: str) :
    processInputLines send n curLine ⟨rest, eof⟩ =
      processInputLines send n (curLine + 1) (skipLine str) := by
  have hskip : skipWhitespace rest = (some (cchar '#'), ⟨str, false⟩) := by
    rw [skipWhitespace_eq, h]
  rw [processInputLines]
  simp only [hskip, ungetc, fgetc, dif_pos]

/-- The calls of the parser from a line on that is parsed. -/
def attemptedAt (curLine : Nat) (left : List CChar) (sent : Bool)
    (next : List (Nat × Attempt) × Ending) :
    Except TfsCommandParseError TfsCommand → List (Nat × Attempt) × Ending
  | .error _ => ([(curLine, ⟨left, none⟩)], .parseError)
  | .ok command =>
      if sent then ((curLine, ⟨left, some command⟩) :: next.1, next.2)
      else ([(curLine, ⟨left, some command⟩)], .sendError)

/-- The client is at a line that it parses. -/
theorem processInputLines_of_line (h : ¬Skipped (rest.dropWhile isspace)) :
    processInputLines send n curLine ⟨rest, eof⟩ =
      attemptedAt curLine (rest.dropWhile isspace) (send n)
        (processInputLines send (n + 1) (curLine + 1)
          ⟨(fgetsLoop 1023 (rest.dropWhile isspace)).2,
            fgetsEof 1023 (rest.dropWhile isspace)⟩)
        (tfsCommandParse (rest.dropWhile isspace)).1 := by
  have hskip := skipWhitespace_eq rest
  rw [← rest_tfsCommandParse]
  cases hd : rest.dropWhile isspace with
  | nil => exact absurd (Or.inl hd) h
  | cons ch str =>
    have hch : ¬some ch = some (cchar '#') := fun heq => h (Or.inr (by rw [hd, ← heq]; rfl))
    rw [hd] at hskip
    rw [processInputLines]
    simp only [hskip, ungetc, fgetc, dif_neg hch]
    rw [if_neg (by simp)]
    split
    · rename_i hparse
      simp only [hskip] at hparse
      rw [hparse]
      rfl
    · rename_i hparse
      simp only [hskip] at hparse
      rw [hparse]
      rfl

theorem map_attemptedAt {left : List CChar} {sent : Bool} {next : List (Nat × Attempt) × Ending}
    {parsed : Except TfsCommandParseError TfsCommand} :
    Prod.map (List.map Prod.snd) id (attemptedAt curLine left sent next parsed) =
      attempted left sent (Prod.map (List.map Prod.snd) id next) parsed := by
  cases parsed with
  | error err => rfl
  | ok command => cases sent <;> rfl

/-- **The line numbers are for messages only.** -/
theorem processInput_eq_map_lines (send : Nat → Bool) (n curLine : Nat) (file : InFile) :
    processInput send n file =
      Prod.map (List.map Prod.snd) id (processInputLines send n curLine file) := by
  obtain ⟨text, eof⟩ := file
  induction hlen : text.length using Nat.strong_induction_on generalizing text n curLine eof with
  | _ len ih =>
    have hsub := (List.dropWhile_sublist isspace (l := text)).length_le
    by_cases hs : Skipped (text.dropWhile isspace)
    · rcases hs with hnil | hcomment
      · rw [processInput_of_nil hnil, processInputLines_of_nil hnil]
        rfl
      · obtain ⟨str, hstr⟩ := List.head?_eq_some_iff.mp hcomment
        rw [processInput_of_comment hstr, processInputLines_of_comment hstr]
        rw [hstr, List.length_cons] at hsub
        exact ih _ (by have := length_skipLine_le str; omega) _ _ _ _ rfl
    · rw [processInput_of_line hs, processInputLines_of_line hs, map_attemptedAt]
      congr 1
      refine ih _ ?_ _ _ _ _ rfl
      cases hd : text.dropWhile isspace with
      | nil => exact absurd (Or.inl hd) hs
      | cons ch str =>
        rw [hd, hlen] at hsub
        exact (length_fgetsLoop_rest_lt 1022 ch str).trans_le hsub

/-- The client does not see blanks at the start, nor whether the end was seen. -/
theorem processInputLines_dropWhile (text : List CChar) (eof eof' : Bool) :
    processInputLines send n curLine ⟨text, eof⟩ =
      processInputLines send n curLine ⟨text.dropWhile isspace, eof'⟩ := by
  have htwice : (text.dropWhile isspace).dropWhile isspace = text.dropWhile isspace :=
    List.dropWhile_idempotent ..
  by_cases hs : Skipped (text.dropWhile isspace)
  · rcases hs with hnil | hcomment
    · rw [processInputLines_of_nil hnil, processInputLines_of_nil (htwice.trans hnil)]
    · obtain ⟨str, hstr⟩ := List.head?_eq_some_iff.mp hcomment
      rw [processInputLines_of_comment hstr, processInputLines_of_comment (htwice.trans hstr)]
  · have hline := @processInputLines_of_line send n curLine (text.dropWhile isspace) eof'
      (by rwa [htwice])
    rw [htwice] at hline
    rw [hline, processInputLines_of_line hs]

theorem processInputLines_of_blanks {lead text : List CChar}
    (hlead : ∀ ch ∈ lead, isspace ch = true) (eof eof' : Bool) :
    processInputLines send n curLine ⟨lead ++ text, eof⟩ =
      processInputLines send n curLine ⟨text, eof'⟩ := by
  rw [processInputLines_dropWhile _ eof false, processInputLines_dropWhile text eof' false,
    List.dropWhile_append_of_pos hlead]

/-- The text with these lines. -/
def unlines (lines : List (List CChar)) : List CChar := lines.flatMap (· ++ [newline])

theorem unlines_cons (line : List CChar) (lines : List (List CChar)) :
    unlines (line :: lines) = line ++ newline :: unlines lines := by
  simp [unlines]

/-- The line is blank. -/
def isBlank (line : List CChar) : Bool := line.all isspace

theorem isBlank_iff : isBlank line = true ↔ line.dropWhile isspace = [] := by
  rw [isBlank, List.all_eq_true, List.dropWhile_eq_nil_iff]

theorem dropWhile_unlines_cons (h : line.dropWhile isspace ≠ []) (lines : List (List CChar)) :
    (unlines (line :: lines)).dropWhile isspace =
      line.dropWhile isspace ++ newline :: unlines lines := by
  rw [unlines_cons, List.dropWhile_append, List.isEmpty_eq_false_iff.mpr h]
  rfl

theorem mem_attemptedAt {left : List CChar} {sent : Bool} {next : List (Nat × Attempt) × Ending}
    {parsed : Except TfsCommandParseError TfsCommand} {x : Nat × Attempt}
    (h : x ∈ (attemptedAt curLine left sent next parsed).1) :
    (x.1 = curLine ∧ x.2.left = left) ∨ x ∈ next.1 := by
  cases parsed with
  | error err => exact Or.inl (by rw [List.mem_singleton.mp h]; exact ⟨rfl, rfl⟩)
  | ok command =>
    rw [attemptedAt] at h
    split at h
    · exact (List.mem_cons.mp h).imp (fun h => by rw [h]; exact ⟨rfl, rfl⟩) id
    · exact Or.inl (by rw [List.mem_singleton.mp h]; exact ⟨rfl, rfl⟩)

/-- Behind a line that `fgets` reads as a whole come the other lines. -/
theorem processInputLines_of_fgets {body text : List CChar} (hbody : newline ∉ body)
    (hfit : body.length ≤ 1023) (eof eof' : Bool) :
    processInputLines send n curLine ⟨(fgetsLoop 1023 (body ++ newline :: text)).2, eof⟩ =
      processInputLines send n curLine ⟨text, eof'⟩ := by
  have hafter : newline :: text = [] ∨ (newline :: text).head? = some newline := Or.inr rfl
  rcases fgetsLoop_rest hbody hafter with heq | ⟨-, heq⟩
  · rw [heq, List.drop_eq_nil_of_le hfit, List.nil_append, ← List.singleton_append]
    exact processInputLines_of_blanks (by simp [isspace_newline]) eof eof'
  · rw [heq]
    exact (processInputLines_dropWhile _ _ false).trans
      (processInputLines_dropWhile _ eof' false).symm

/-- **What the calls of the parser are given, and the numbers that go with them**, if no line
is longer than what `fgets` reads. -/
theorem exists_line_of_mem_lines {lines : List (List CChar)}
    (hline : ∀ line ∈ lines, newline ∉ line)
    (hfit : ∀ line ∈ lines, ¬Skipped (line.dropWhile isspace) →
      (line.dropWhile isspace).length ≤ 1023) {x : Nat × Attempt}
    (hx : x ∈ (processInputLines send n curLine ⟨unlines lines, eof⟩).1) :
    ∃ i line, lines[i]? = some line ∧ ¬Skipped (line.dropWhile isspace) ∧
      x.2.left = line.dropWhile isspace ++ newline :: unlines (lines.drop (i + 1)) ∧
      x.1 + (lines.take i).countP isBlank = curLine + i := by
  induction lines generalizing n curLine eof with
  | nil =>
    rw [processInputLines_of_nil rfl] at hx
    cases hx
  | cons line lines ih =>
    rw [List.forall_mem_cons] at hline hfit
    -- what is said of the other lines, when this one takes so many turns
    have hnext : ∀ (n turns : Nat), turns + (if isBlank line then 1 else 0) = 1 →
        x ∈ (processInputLines send n (curLine + turns) ⟨unlines lines, false⟩).1 →
        ∃ i line', (line :: lines)[i]? = some line' ∧ ¬Skipped (line'.dropWhile isspace) ∧
          x.2.left = line'.dropWhile isspace ++
            newline :: unlines ((line :: lines).drop (i + 1)) ∧
          x.1 + ((line :: lines).take i).countP isBlank = curLine + i := by
      intro n turns hturns hx
      obtain ⟨i, line', hi, hs, hleft, hnumber⟩ := ih hline.2 hfit.2 hx
      refine ⟨i + 1, line', hi, hs, hleft, ?_⟩
      rw [List.take_succ_cons, List.countP_cons]
      omega
    by_cases hnil : line.dropWhile isspace = []
    · rw [unlines_cons, processInputLines_of_blanks (List.dropWhile_eq_nil_iff.mp hnil) eof eof,
        ← List.singleton_append, processInputLines_of_blanks (by simp [isspace_newline]) eof false]
        at hx
      exact hnext n 0 (by rw [if_pos (isBlank_iff.mpr hnil)]) hx
    have hturn : 1 + (if isBlank line then 1 else 0) = 1 := by
      rw [if_neg fun h => hnil (isBlank_iff.mp h)]
    have hdrop := dropWhile_unlines_cons hnil lines
    have hnot : newline ∉ line.dropWhile isspace := fun hmem =>
      hline.1 ((List.dropWhile_sublist isspace).subset hmem)
    by_cases hs : Skipped (line.dropWhile isspace)
    · obtain ⟨str, hstr⟩ := List.head?_eq_some_iff.mp (hs.resolve_left hnil)
      rw [hstr, List.mem_cons, not_or] at hnot
      rw [hstr, List.cons_append] at hdrop
      have hrest : (skipLine (str ++ newline :: unlines lines)).rest = unlines lines := by
        rw [rest_skipLine, (firstLine_append hnot.2 (Or.inr rfl)).2]
        rfl
      rw [processInputLines_of_comment hdrop, processInputLines_dropWhile _ _ false, hrest,
        ← processInputLines_dropWhile _ false] at hx
      exact hnext n 1 hturn hx
    · have hs' : ¬Skipped ((unlines (line :: lines)).dropWhile isspace) := by
        rw [hdrop]
        rintro (h | h)
        · exact hnil (List.append_eq_nil_iff.mp h).1
        · rw [List.head?_append_of_ne_nil _ hnil] at h
          exact hs (Or.inr h)
      rw [processInputLines_of_line hs', hdrop,
        processInputLines_of_fgets hnot (hfit.1 hs) _ false] at hx
      rcases mem_attemptedAt hx with ⟨hnumber, hleft⟩ | hx
      · exact ⟨0, line, rfl, hs, hleft, hnumber⟩
      · exact hnext (n + 1) 1 hturn hx

end Client

end TecnicoFs
