import TecnicoFs.Command.Grammar

/-!
# The input of a client

`process_input` reads a text with commands: it skips blanks, and with a `#` the rest of the
line, and has the parser read a command from what is left.  The parser reads at most 1023
characters, so what is left of a longer line is read as if it were a line of its own.

`lineCommands` is what a text means, line by line.  `processInput_eq_iff` says for which
texts the client does that.
-/

namespace TecnicoFs

open Text

/-! ## The source -/

/-- A file that is read: what is left of it, and whether its end was seen. -/
structure InFile where
  rest : List CChar
  eof : Bool

/-- `fgetc`; there is no character at the end. -/
def fgetc (file : InFile) : Option CChar × InFile :=
  match file.rest with
  | [] => (none, ⟨[], true⟩)
  | ch :: rest => (some ch, ⟨rest, file.eof⟩)

/-- `ungetc`, which does nothing at the end. -/
def ungetc (ch : Option CChar) (file : InFile) : InFile :=
  match ch with
  | none => file
  | some ch => ⟨ch :: file.rest, false⟩

/-- `while (last_char = fgetc(in), isspace(last_char)) {}`, with the last character. -/
def skipWhitespace : List CChar → Option CChar × InFile
  | [] => (none, ⟨[], true⟩)
  | ch :: rest => if isspace ch then skipWhitespace rest else (some ch, ⟨rest, false⟩)

/-- `while (fgetc(in) != '\n' && !feof(in)) {}` -/
def skipLine : List CChar → InFile
  | [] => ⟨[], true⟩
  | ch :: rest => if ch = newline then ⟨rest, false⟩ else skipLine rest

/-- `fgets` has seen the end of the file. -/
def fgetsEof : Nat → List CChar → Bool
  | 0, _ => false
  | _ + 1, [] => true
  | n + 1, ch :: rest => if ch = newline then false else fgetsEof n rest

/-- A call of the parser: what was left of the text, and the command, if it was one.  A command
is sent. -/
structure Attempt where
  left : List CChar
  command : Option TfsCommand
  deriving DecidableEq

/-- Why the loop stopped. -/
inductive Ending where
  | endOfInput
  | parseError
  | sendError
  deriving DecidableEq

/-- The calls of the parser and the ending, with one more call in front. -/
def prepend (attempt : Attempt) (run : List Attempt × Ending) : List Attempt × Ending :=
  (attempt :: run.1, run.2)

theorem skipWhitespace_eq (rest : List CChar) :
    skipWhitespace rest = match rest.dropWhile isspace with
      | [] => (none, ⟨[], true⟩)
      | ch :: str => (some ch, ⟨str, false⟩) := by
  induction rest with
  | nil => rfl
  | cons ch rest ih =>
    rw [skipWhitespace]
    by_cases hch : isspace ch = true
    · rw [if_pos hch, ih, List.dropWhile_cons_of_pos hch]
    · rw [if_neg hch, List.dropWhile_cons_of_neg hch]

theorem rest_ungetc_skipWhitespace (rest : List CChar) :
    (ungetc (skipWhitespace rest).1 (skipWhitespace rest).2).rest = rest.dropWhile isspace := by
  rw [skipWhitespace_eq]
  cases rest.dropWhile isspace <;> rfl

theorem rest_ungetc_fgetc (file : InFile) :
    (ungetc (fgetc file).1 (fgetc file).2).rest = file.rest := by
  rw [fgetc]
  cases file.rest <;> rfl

theorem rest_skipLine (rest : List CChar) :
    (skipLine rest).rest = (rest.dropWhile (· ≠ newline)).drop 1 := by
  induction rest with
  | nil => rfl
  | cons ch rest ih =>
    rw [skipLine]
    by_cases hch : ch = newline
    · rw [if_pos hch, List.dropWhile_cons_of_neg (by simpa using hch)]
      rfl
    · rw [if_neg hch, ih, List.dropWhile_cons_of_pos (by simpa using hch)]

theorem length_skipLine_le (rest : List CChar) : (skipLine rest).rest.length ≤ rest.length := by
  rw [rest_skipLine]
  exact ((List.drop_sublist 1 _).trans (List.dropWhile_sublist _)).length_le

theorem length_fgetsLoop_rest_le (n : Nat) (inp : List CChar) :
    (fgetsLoop n inp).2.length ≤ inp.length := by
  induction n generalizing inp with
  | zero => exact Nat.le_refl _
  | succ n ih =>
    cases inp with
    | nil => exact Nat.le_refl 0
    | cons ch inp =>
      rw [fgetsLoop]
      split
      · exact Nat.le_succ _
      · exact (ih inp).trans (Nat.le_succ _)

theorem rest_tfsCommandParse (inp : List CChar) :
    (tfsCommandParse inp).2 = (fgetsLoop 1023 inp).2 := by
  by_cases hne : inp = []
  · subst hne
    rfl
  · have hfgets : fgets 1024 inp = some (fgetsLoop 1023 inp) := if_neg hne
    rw [tfsCommandParse, hfgets]
    dsimp only
    cases sscanf (cString (fgetsLoop 1023 inp).1) <;> rfl

theorem length_fgetsLoop_rest_lt (n : Nat) (ch : CChar) (inp : List CChar) :
    (fgetsLoop (n + 1) (ch :: inp)).2.length < (ch :: inp).length := by
  rw [fgetsLoop, List.length_cons, Nat.lt_succ_iff]
  split
  · exact Nat.le_refl _
  · exact length_fgetsLoop_rest_le _ _

/-- A command takes something off the input. -/
theorem length_lt_of_parse {inp rest : List CChar} {c : TfsCommand}
    (h : tfsCommandParse inp = (.ok c, rest)) : rest.length < inp.length := by
  have hrest : (fgetsLoop 1023 inp).2 = rest := by rw [← rest_tfsCommandParse, h]
  cases inp with
  | nil => cases h
  | cons ch inp => exact hrest ▸ length_fgetsLoop_rest_lt 1022 ch inp

/-- Processes all input; `send n` says whether sending the command with number `n` succeeds. -/
def processInput (send : Nat → Bool) (n : Nat) (file : InFile) : List Attempt × Ending :=
  let skipped := skipWhitespace file.rest
  let file₁ := ungetc skipped.1 skipped.2
  let peek := fgetc file₁
  if _h : peek.1 = some (cchar '#') then processInput send n (skipLine peek.2.rest)
  else
    let file₂ := ungetc peek.1 peek.2
    if file₂.eof then ([], .endOfInput)
    else
      match _h : tfsCommandParse file₂.rest with
      | (.error _, _) => ([⟨file₂.rest, none⟩], .parseError)
      | (.ok command, rest) =>
          if send n then
            prepend ⟨file₂.rest, some command⟩
              (processInput send (n + 1) ⟨rest, fgetsEof 1023 file₂.rest⟩)
          else ([⟨file₂.rest, some command⟩], .sendError)
termination_by file.rest.length
decreasing_by
  all_goals
    have hle : file₁.rest.length ≤ file.rest.length := by
      rw [show file₁.rest = _ from rest_ungetc_skipWhitespace file.rest]
      exact (List.dropWhile_sublist _).length_le
  · have hlt : peek.2.rest.length < file₁.rest.length := by
      show (fgetc file₁).2.rest.length < _
      replace _h : (fgetc file₁).1 = some (cchar '#') := _h
      rw [fgetc] at _h ⊢
      cases hrest : file₁.rest with
      | nil => simp [hrest] at _h
      | cons ch rest => simp
    exact (length_skipLine_le _).trans_lt (hlt.trans_le hle)
  · have hlt := length_lt_of_parse _h
    rw [show file₂.rest = _ from rest_ungetc_fgetc file₁] at hlt
    exact hlt.trans_le hle

/-! ## Lines -/

/-- The line is blank, or it is a comment. -/
def Skipped (body : List CChar) : Prop := body = [] ∨ body.head? = some (cchar '#')

instance (body : List CChar) : Decidable (Skipped body) := inferInstanceAs (Decidable (_ ∨ _))

theorem skipped_nil : Skipped [] := Or.inl rfl

/-- The lines that are neither blank nor comments, from their first character that is no blank
on, each with what follows it. -/
def significantLines (text : List CChar) : List (List CChar × List CChar) :=
  if _h : text = [] then []
  else
    let body := (firstLine text).dropWhile isspace
    let after := text.dropWhile (· ≠ newline)
    if Skipped body then significantLines (after.drop 1)
    else (body, after) :: significantLines (after.drop 1)
termination_by text.length
decreasing_by
  all_goals
    rw [List.length_drop]
    have hle := (List.dropWhile_sublist (fun ch => decide (ch ≠ newline)) (l := text)).length_le
    have hpos := List.length_pos_of_ne_nil _h
    show (text.dropWhile fun ch => decide (ch ≠ newline)).length - 1 < text.length
    omega

theorem significantLines_nil : significantLines [] = [] := by
  rw [significantLines, dif_pos rfl]

/-- What comes of a call of the parser: a command is sent, and if that succeeds, `next` follows. -/
def attempted (left : List CChar) (sent : Bool) (next : List Attempt × Ending) :
    Except TfsCommandParseError TfsCommand → List Attempt × Ending
  | .error _ => ([⟨left, none⟩], .parseError)
  | .ok command =>
      if sent then prepend ⟨left, some command⟩ next else ([⟨left, some command⟩], .sendError)

/-- What the lines mean: each is parsed once, and the command is sent. -/
def lineCommands (send : Nat → Bool) : Nat → List (List CChar × List CChar) →
    List Attempt × Ending
  | _, [] => ([], .endOfInput)
  | n, (body, after) :: lines =>
      attempted (body ++ after) (send n) (lineCommands send (n + 1) lines) (parseLine body)

/-- Of every line that is parsed the first 1023 characters are the same command as the whole
line, and if it is sent, the others are blank or a comment. -/
def ReadsLines (send : Nat → Bool) : Nat → List (List CChar × List CChar) → Prop
  | _, [] => True
  | n, (body, _) :: lines =>
      (parseLine (body.take 1023)).toOption = (parseLine body).toOption ∧
      ∀ c, parseLine body = .ok c → send n = true →
        Skipped ((body.drop 1023).dropWhile isspace) ∧ ReadsLines send (n + 1) lines

section Attempts

variable {left : List CChar} {sent : Bool} {next next' : List Attempt × Ending}
  {parsed parsed' : Except TfsCommandParseError TfsCommand}

theorem mem_attempted {attempt : Attempt} (h : attempt ∈ (attempted left sent next parsed).1) :
    attempt.left = left ∨ attempt ∈ next.1 := by
  cases parsed with
  | error err => exact Or.inl (by rw [List.mem_singleton.mp h])
  | ok command =>
    rw [attempted] at h
    split at h
    · exact (List.mem_cons.mp h).imp (fun h => by rw [h]) id
    · exact Or.inl (by rw [List.mem_singleton.mp h])

theorem exists_mem_attempted : ∃ attempt ∈ (attempted left sent next parsed).1,
    attempt.left = left := by
  cases parsed with
  | error err => exact ⟨_, List.mem_cons_self, rfl⟩
  | ok command =>
    rw [attempted]
    split
    · exact ⟨_, List.mem_cons_self, rfl⟩
    · exact ⟨_, List.mem_cons_self, rfl⟩

/-- **The same comes of two calls exactly if both see the same command, or none, and the same
follows if it is sent.** -/
theorem attempted_eq_iff :
    attempted left sent next parsed = attempted left sent next' parsed' ↔
      parsed.toOption = parsed'.toOption ∧
        ∀ c, parsed' = .ok c → sent = true → next = next' := by
  obtain ⟨attempts, ending⟩ := next
  obtain ⟨attempts', ending'⟩ := next'
  cases parsed with
  | error err =>
    cases parsed' with
    | error err' => simp [attempted, Except.toOption]
    | ok command' => cases sent <;> simp [attempted, prepend, Except.toOption]
  | ok command =>
    cases parsed' with
    | error err' => cases sent <;> simp [attempted, prepend, Except.toOption]
    | ok command' => cases sent <;> simp [attempted, prepend, Except.toOption, and_assoc]

end Attempts

section Lines

variable {text line after : List CChar}

/-- The lines of a text, the first one and the others. -/
theorem significantLines_line (hline : newline ∉ line)
    (hafter : after = [] ∨ after.head? = some newline) :
    significantLines (line ++ after) =
      if Skipped (line.dropWhile isspace) then significantLines (after.drop 1)
      else (line.dropWhile isspace, after) :: significantLines (after.drop 1) := by
  have hfirst := firstLine_append hline hafter
  by_cases hnil : line ++ after = []
  · obtain ⟨rfl, rfl⟩ := List.append_eq_nil_iff.mp hnil
    rw [List.dropWhile_nil, if_pos skipped_nil]
    rfl
  · rw [significantLines, dif_neg hnil]
    dsimp only
    rw [hfirst.1, hfirst.2]

theorem newline_notMem_firstLine (text : List CChar) : newline ∉ firstLine text := fun hmem => by
  simpa using List.mem_takeWhile_imp hmem

/-- A text is its first line and what follows. -/
theorem exists_line (text : List CChar) : ∃ line after, text = line ++ after ∧ newline ∉ line ∧
    (after = [] ∨ after.head? = some newline) := by
  refine ⟨firstLine text, text.dropWhile (· ≠ newline), List.takeWhile_append_dropWhile.symm,
    newline_notMem_firstLine text, ?_⟩
  rcases dropWhile_line_cases text with hd | ⟨rest, hd⟩
  · exact Or.inl hd
  · exact Or.inr (by rw [hd]; rfl)

/-- Blanks at the start of a text, newlines or not, are not seen. -/
theorem significantLines_dropWhile (text : List CChar) :
    significantLines (text.dropWhile isspace) = significantLines text := by
  induction text with
  | nil => rfl
  | cons ch text ih =>
    by_cases hch : isspace ch = true
    · rw [List.dropWhile_cons_of_pos hch, ih]
      by_cases hnl : ch = newline
      · have h := @significantLines_line [] (ch :: text) (by simp) (Or.inr (by rw [hnl]; rfl))
        rw [List.nil_append, List.dropWhile_nil, if_pos skipped_nil] at h
        exact h.symm
      · obtain ⟨line, after, rfl, hline, hafter⟩ := exists_line text
        have hline' : newline ∉ ch :: line := by simpa [Ne.symm hnl] using hline
        rw [← List.cons_append, significantLines_line hline hafter,
          significantLines_line hline' hafter, List.dropWhile_cons_of_pos hch]
    · rw [List.dropWhile_cons_of_neg hch]

/-- What is parsed is part of the text. -/
theorem length_le_of_mem_significantLines {x : List CChar × List CChar}
    (h : x ∈ significantLines text) : (x.1 ++ x.2).length ≤ text.length := by
  induction hn : text.length using Nat.strong_induction_on generalizing text with
  | _ n ih =>
    obtain ⟨line, after, rfl, hline, hafter⟩ := exists_line text
    rw [significantLines_line hline hafter] at h
    have hbody := (List.dropWhile_sublist isspace (l := line)).length_le
    have hrest : x ∈ significantLines (after.drop 1) → (x.1 ++ x.2).length ≤ n := by
      intro hx
      rcases hafter with rfl | hafter
      · simp [significantLines_nil] at hx
      · obtain ⟨rest, rfl⟩ := List.head?_eq_some_iff.mp hafter
        rw [List.length_append, List.length_cons] at hn
        exact (ih _ (by rw [List.drop_one, List.tail_cons]; omega) hx rfl).trans
          (by rw [List.drop_one, List.tail_cons]; omega)
    rw [List.length_append] at hn
    split at h
    · exact hrest h
    · rcases List.mem_cons.mp h with rfl | h
      · rw [List.length_append]
        show (line.dropWhile isspace).length + after.length ≤ n
        omega
      · exact hrest h

/-- What is parsed is what is left at one of the lines. -/
theorem exists_line_of_mem_lineCommands {send : Nat → Bool} {n : Nat}
    {lines : List (List CChar × List CChar)} {attempt : Attempt}
    (h : attempt ∈ (lineCommands send n lines).1) : ∃ x ∈ lines, attempt.left = x.1 ++ x.2 := by
  induction lines generalizing n with
  | nil => cases h
  | cons x lines ih =>
    obtain ⟨body, after⟩ := x
    rcases mem_attempted h with hleft | hmem
    · exact ⟨(body, after), List.mem_cons_self, hleft⟩
    · obtain ⟨x, hx, hleft⟩ := ih hmem
      exact ⟨x, List.mem_cons_of_mem _ hx, hleft⟩

end Lines

/-! ## What the client does -/

section Client

variable {send : Nat → Bool} {n : Nat} {rest line after : List CChar} {eof : Bool} {ch : CChar}

/-- The client is at the end of the text. -/
theorem processInput_of_nil (h : rest.dropWhile isspace = []) :
    processInput send n ⟨rest, eof⟩ = ([], .endOfInput) := by
  have hskip : skipWhitespace rest = (none, ⟨[], true⟩) := by rw [skipWhitespace_eq, h]
  rw [processInput]
  simp only [hskip, ungetc, fgetc]
  rfl

/-- The client is at a comment. -/
theorem processInput_of_comment {str : List CChar}
    (h : rest.dropWhile isspace = cchar '#' :: str) :
    processInput send n ⟨rest, eof⟩ = processInput send n (skipLine str) := by
  have hskip : skipWhitespace rest = (some (cchar '#'), ⟨str, false⟩) := by
    rw [skipWhitespace_eq, h]
  rw [processInput]
  simp only [hskip, ungetc, fgetc, dif_pos]

/-- The client is at a line that it parses. -/
theorem processInput_of_line (h : ¬Skipped (rest.dropWhile isspace)) :
    processInput send n ⟨rest, eof⟩ =
      attempted (rest.dropWhile isspace) (send n) (processInput send (n + 1)
        ⟨(fgetsLoop 1023 (rest.dropWhile isspace)).2,
          fgetsEof 1023 (rest.dropWhile isspace)⟩)
        (tfsCommandParse (rest.dropWhile isspace)).1 := by
  have hskip := skipWhitespace_eq rest
  rw [← rest_tfsCommandParse]
  cases hd : rest.dropWhile isspace with
  | nil => exact absurd (Or.inl hd) h
  | cons ch str =>
    have hch : ¬some ch = some (cchar '#') := fun heq => h (Or.inr (by rw [hd, ← heq]; rfl))
    rw [hd] at hskip
    rw [processInput]
    simp only [hskip, ungetc, fgetc, dif_neg hch]
    rw [if_neg (by simp)]
    split
    · rename_i hparse
      simp only [hskip] at hparse
      rw [hparse]
      rfl
    · rename_i hparse
      simp only [hskip] at hparse
      rw [hparse]
      rfl

/-- What the client parses first is what comes first in the text. -/
theorem exists_mem_processInput (h : ¬Skipped (rest.dropWhile isspace)) :
    ∃ attempt ∈ (processInput send n ⟨rest, eof⟩).1, attempt.left = rest.dropWhile isspace := by
  rw [processInput_of_line h]
  exact exists_mem_attempted

/-- What the parser leaves of a line and what follows it. -/
theorem fgetsLoop_rest (hline : newline ∉ line) (hafter : after = [] ∨ after.head? = some newline) :
    (fgetsLoop 1023 (line ++ after)).2 = line.drop 1023 ++ after ∨
      line.drop 1023 = [] ∧ (fgetsLoop 1023 (line ++ after)).2 = after.drop 1 := by
  obtain ⟨hfirst, hrest⟩ := firstLine_append hline hafter
  rw [fgetsLoop_line, hfirst, hrest]
  by_cases hlen : line.length < 1023
  · rw [if_pos hlen]
    exact Or.inr ⟨List.drop_eq_nil_of_le (Nat.le_of_lt hlen), rfl⟩
  · rw [if_neg hlen]
    exact Or.inl (List.drop_append_of_le_length (Nat.le_of_not_lt hlen))

/-- What is left of a line does not matter if it is blank or a comment. -/
theorem significantLines_rest (hline : newline ∉ line)
    (hafter : after = [] ∨ after.head? = some newline)
    (hs : Skipped ((line.drop 1023).dropWhile isspace)) :
    significantLines (fgetsLoop 1023 (line ++ after)).2 = significantLines (after.drop 1) := by
  rcases fgetsLoop_rest hline hafter with hrest | ⟨-, hrest⟩
  · have hline' : newline ∉ line.drop 1023 := fun hmem => hline (List.mem_of_mem_drop hmem)
    rw [hrest, significantLines_line hline' hafter, if_pos hs]
  · rw [hrest]

/-- Otherwise it is parsed, and that is not what the next lines mean. -/
theorem processInput_rest_ne (hline : newline ∉ line)
    (hafter : after = [] ∨ after.head? = some newline)
    (hs : ¬Skipped ((line.drop 1023).dropWhile isspace)) :
    processInput send n ⟨(fgetsLoop 1023 (line ++ after)).2, eof⟩ ≠
      lineCommands send n (significantLines (after.drop 1)) := by
  intro heq
  obtain ⟨ch, str, hd⟩ := List.exists_cons_of_ne_nil fun h => hs (Or.inl h)
  have hrest : (fgetsLoop 1023 (line ++ after)).2 = line.drop 1023 ++ after :=
    (fgetsLoop_rest hline hafter).resolve_right fun h => by simp [h.1] at hd
  have hdrop : (line.drop 1023 ++ after).dropWhile isspace = ch :: str ++ after := by
    rw [List.dropWhile_append, hd]
    rfl
  have hs' : ¬Skipped ((line.drop 1023 ++ after).dropWhile isspace) := by
    rw [hdrop]
    rw [hd] at hs
    rintro (h | h)
    · cases h
    · exact hs (Or.inr h)
  -- the next lines are shorter than what is left
  obtain ⟨attempt, hmem, hleft⟩ :
      ∃ attempt ∈ (processInput send n ⟨line.drop 1023 ++ after, eof⟩).1, _ :=
    exists_mem_processInput hs'
  rw [← hrest, heq] at hmem
  obtain ⟨x, hx, hxleft⟩ := exists_line_of_mem_lineCommands hmem
  have hle := length_le_of_mem_significantLines hx
  rw [← hxleft, hleft, hdrop, List.length_append, List.length_drop, List.length_cons] at hle
  omega

/-- **The client does what the lines mean exactly if it reads them as lines.** -/
theorem processInput_eq_iff {text : List CChar} (hnul : NulFree text) :
    processInput send n ⟨text, eof⟩ = lineCommands send n (significantLines text) ↔
      ReadsLines send n (significantLines text) := by
  induction hlen : text.length using Nat.strong_induction_on generalizing text n eof with
  | _ len ih =>
    have hsub := (List.dropWhile_sublist isspace (l := text)).length_le
    have hblank : ∀ ch ∈ (text.dropWhile isspace).head?, isspace ch = false := fun ch hch => by
      have h := List.head?_dropWhile_not isspace text
      rw [Option.mem_def.mp hch] at h
      simpa using h
    rw [← significantLines_dropWhile text]
    obtain ⟨line, after, htext, hline, hafter⟩ := exists_line (text.dropWhile isspace)
    have hnul' : NulFree line := fun ch hch =>
      hnul ch ((List.dropWhile_sublist isspace).subset (htext ▸ List.mem_append_left _ hch))
    have hnulAfter : NulFree after := fun ch hch =>
      hnul ch ((List.dropWhile_sublist isspace).subset (htext ▸ List.mem_append_right _ hch))
    have hfirst := (firstLine_append hline hafter).1
    cases line with
    | nil =>
      -- the text does not go on with a newline
      obtain rfl : after = [] := hafter.resolve_right fun h => by
        have h' := hblank newline (by rw [htext]; exact h)
        cases h'
      rw [processInput_of_nil htext, htext]
      simp [significantLines_nil, lineCommands, ReadsLines]
    | cons ch str =>
      have hch : isspace ch = false := hblank ch (by rw [htext]; rfl)
      have hbody : (ch :: str).dropWhile isspace = ch :: str :=
        List.dropWhile_cons_of_neg (by simp [hch])
      have hlt : (after.drop 1).length < len := by
        rw [htext, List.cons_append, List.length_cons, List.length_append] at hsub
        rw [List.length_drop]
        omega
      have hlines := significantLines_line hline hafter
      rw [hbody] at hlines
      rw [htext, hlines]
      by_cases hcomment : ch = cchar '#'
      · subst hcomment
        have hskipped : (skipLine (str ++ after)).rest = after.drop 1 := by
          rw [rest_skipLine,
            (firstLine_append (fun h => hline (List.mem_cons_of_mem _ h)) hafter).2]
        have hs : Skipped (cchar '#' :: str) := Or.inr rfl
        rw [if_pos hs, processInput_of_comment htext, ← hskipped]
        exact ih _ (hskipped ▸ hlt)
          (hskipped ▸ hnulAfter.of_subset fun _ => List.mem_of_mem_drop) rfl
      · have hs : ¬Skipped (ch :: str) := by
          rintro (h | h)
          · cases h
          · exact hcomment (Option.some.inj h)
        have hs' : ¬Skipped (text.dropWhile isspace) := by
          rw [htext]
          rintro (h | h)
          · cases h
          · exact hcomment (Option.some.inj h)
        have hparse := @parse_eq (ch :: str ++ after) (by simp) (hfirst.symm ▸ hnul')
        rw [hfirst] at hparse
        rw [if_neg hs, processInput_of_line hs', htext, hparse, lineCommands, ReadsLines,
          attempted_eq_iff]
        dsimp only
        refine and_congr_right fun _ => forall_congr' fun c => imp_congr_right fun _ =>
          imp_congr_right fun _ => ?_
        by_cases hleft : Skipped (((ch :: str).drop 1023).dropWhile isspace)
        swap
        · exact iff_of_false (processInput_rest_ne hline hafter hleft) fun h => hleft h.1
        rw [and_iff_right hleft, ← significantLines_rest hline hafter hleft]
        have hlt' := length_fgetsLoop_rest_lt 1022 ch (str ++ after)
        rw [← List.cons_append, ← htext] at hlt'
        refine ih _ (hlen ▸ hlt'.trans_le hsub) (fun c hc => ?_) (by rw [htext])
        rcases fgetsLoop_rest hline hafter with hrest | ⟨-, hrest⟩
        · rw [hrest] at hc
          rcases List.mem_append.mp hc with hc | hc
          · exact hnul' c (List.mem_of_mem_drop hc)
          · exact hnulAfter c hc
        · rw [hrest] at hc
          exact hnulAfter c (List.mem_of_mem_drop hc)

end Client

/-- **One command per line, up to the size of the buffer.**  The client takes every text to its
end or to what does not parse or cannot be sent.  For a text without NUL it does what the
lines mean, each parsed once and none in parts, if and only if of every line that it comes
to the first 1023 characters are the same command as the whole line, and what is left of the
line behind a command that it sent is blank or a comment. -/
theorem one_command_per_line_iff {text : List CChar} (hnul : NulFree text) (send : Nat → Bool) :
    processInput send 0 ⟨text, false⟩ = lineCommands send 0 (significantLines text) ↔
      ReadsLines send 0 (significantLines text) :=
  processInput_eq_iff hnul

/-- A text of two lines. -/
theorem one_command_per_line_two :
    processInput (fun _ => true) 0 ⟨cstr "l /a\n#\nd /b", false⟩ =
      lineCommands (fun _ => true) 0 (significantLines (cstr "l /a\n#\nd /b")) ↔
    ReadsLines (fun _ => true) 0 (significantLines (cstr "l /a\n#\nd /b")) :=
  one_command_per_line_iff (by decide) _

/-- A line with a second command behind 1023 characters. -/
def longLine : List CChar := cstr "l /a" ++ List.replicate 1019 (cchar ' ') ++ cstr "l /b"

/-- The long line is read as two commands. -/
theorem not_one_command_per_line : ¬∀ (text : List CChar) (send : Nat → Bool), NulFree text →
    processInput send 0 ⟨text, false⟩ = lineCommands send 0 (significantLines text) := by
  intro hall
  have hnul : NulFree longLine := by decide +kernel
  have hread := (processInput_eq_iff hnul).mp (hall longLine (fun _ => true) hnul)
  have hlines : significantLines longLine = [(longLine, [])] := by
    have h := @significantLines_line longLine [] (by decide +kernel) (Or.inl rfl)
    have hbody : longLine.dropWhile isspace = longLine := by decide +kernel
    rw [List.append_nil, hbody, if_neg (by decide)] at h
    rw [h, List.drop_nil, significantLines_nil]
  rw [hlines] at hread
  exact absurd hread.1 (by decide +kernel)

end TecnicoFs
