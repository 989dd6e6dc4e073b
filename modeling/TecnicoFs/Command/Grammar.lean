import TecnicoFs.Command.Command

/-!
# Which lines are commands

A command is documented as a letter and its arguments, with blanks between them.  The parser
reads at most 1023 characters of a line and converts the first character that is not blank
and up to two words after it.  It does not look for a blank behind the letter, and not for a
third word.  With one argument that makes a difference only to the letter, as a second word
is converted and counted; with two arguments it makes a difference to both.

`parseLine` is what the parser makes of a line without looking at its length, and
`parse_eq` says that this is what it makes of the first 1023 characters.
-/

namespace TecnicoFs

open Text

/-! ## Lines -/

section Reading

variable {n : Nat} {inp : List CChar}

/-- What `fgets` reads and what it leaves: a line that fits goes with its newline. -/
theorem fgetsLoop_line (n : Nat) (inp : List CChar) :
    fgetsLoop n inp =
      if (firstLine inp).length < n then
        (firstLine inp ++ (inp.dropWhile (· ≠ newline)).take 1,
          (inp.dropWhile (· ≠ newline)).drop 1)
      else ((firstLine inp).take n, inp.drop n) := by
  induction n generalizing inp with
  | zero => simp [fgetsLoop]
  | succ n ih =>
    cases inp with
    | nil => simp [fgetsLoop, firstLine]
    | cons ch inp =>
      rw [fgetsLoop]
      by_cases hch : ch = newline
      · simp [hch, firstLine]
      · have hline : firstLine (ch :: inp) = ch :: firstLine inp :=
          List.takeWhile_cons_of_pos (by simpa using hch)
        rw [if_neg hch, ih, hline, List.dropWhile_cons_of_pos (by simpa using hch)]
        by_cases hlen : (firstLine inp).length < n
        · rw [if_pos hlen, if_pos (by simpa using hlen)]
          rfl
        · rw [if_neg hlen, if_neg (by simpa using hlen)]
          rfl

/-- The first line of a text, and what follows it. -/
theorem firstLine_append {line after : List CChar} (hline : newline ∉ line)
    (hafter : after = [] ∨ after.head? = some newline) :
    firstLine (line ++ after) = line ∧ (line ++ after).dropWhile (· ≠ newline) = after := by
  have hall : ∀ ch ∈ line, decide (ch ≠ newline) = true := fun ch hch =>
    decide_eq_true (ne_of_mem_of_not_mem hch hline)
  rw [firstLine, List.takeWhile_append_of_pos hall, List.dropWhile_append_of_pos hall]
  rcases hafter with rfl | hafter
  · exact ⟨List.append_nil _, rfl⟩
  · obtain ⟨rest, rfl⟩ := List.head?_eq_some_iff.mp hafter
    exact ⟨by simp, by simp⟩

/-- What follows the first line starts with its newline. -/
theorem dropWhile_line_cases (inp : List CChar) :
    inp.dropWhile (· ≠ newline) = [] ∨ ∃ rest, inp.dropWhile (· ≠ newline) = newline :: rest := by
  cases hd : inp.dropWhile (· ≠ newline) with
  | nil => exact Or.inl rfl
  | cons ch rest =>
    have hch := List.head?_dropWhile_not (fun ch => decide (ch ≠ newline)) inp
    rw [hd] at hch
    obtain rfl : ch = newline := by simpa using hch
    exact Or.inr ⟨rest, rfl⟩

/-- The newline that is read is a blank. -/
theorem exists_fgetsLoop_eq (n : Nat) (inp : List CChar) :
    ∃ w, (∀ ch ∈ w, isspace ch = true) ∧ NulFree w ∧
      (fgetsLoop n inp).1 = (firstLine inp).take n ++ w := by
  rw [fgetsLoop_line]
  by_cases hlen : (firstLine inp).length < n
  · rw [if_pos hlen, List.take_of_length_le (Nat.le_of_lt hlen)]
    rcases dropWhile_line_cases inp with hd | ⟨rest, hd⟩
    · exact ⟨[], by simp, by simp [NulFree], by rw [hd]; rfl⟩
    · exact ⟨[newline], List.all_eq_true.mp rfl, by decide, by rw [hd]; rfl⟩
  · rw [if_neg hlen]
    exact ⟨[], by simp, by simp [NulFree], (List.append_nil _).symm⟩

end Reading

/-! ## Parsing a line -/

/-- What the parser makes of a line that it reads as a whole. -/
def parseLine (line : List CChar) : Except TfsCommandParseError TfsCommand :=
  match line.dropWhile isspace with
  | [] => .error .noCommand
  | ch :: str => tfsCommandParseArgs ch ((words isspace str).take 2)

theorem isspace_eq_false_of_dropWhile {line str : List CChar} {ch : CChar}
    (h : line.dropWhile isspace = ch :: str) : isspace ch = false := by
  have h' := List.head?_dropWhile_not isspace line
  rw [h] at h'
  simpa using h'

/-- The scanner does not look at blanks at the end. -/
theorem sscanf_append_blanks {x w : List CChar} (hw : ∀ ch ∈ w, isspace ch = true)
    (hlen : (x ++ w).length ≤ 1023) :
    sscanf (x ++ w) = match x.dropWhile isspace with
      | [] => none
      | ch :: str => some (ch, (words isspace str).take 2) := by
  cases hx : x.dropWhile isspace with
  | nil =>
    have hall : ∀ ch ∈ x, isspace ch = true := List.dropWhile_eq_nil_iff.mp hx
    have hnil : (x ++ w).dropWhile isspace = [] := by
      rw [List.dropWhile_append_of_pos hall, List.dropWhile_eq_nil_iff.mpr hw]
    rw [sscanf, hnil]
  | cons ch str =>
    have hsplit : (x ++ w).dropWhile isspace = ch :: (str ++ w) := by
      rw [List.dropWhile_append, hx]
      rfl
    have hle := (List.dropWhile_sublist isspace (l := x ++ w)).length_le
    rw [hsplit, List.length_cons] at hle
    rw [sscanf, hsplit]
    dsimp only
    rw [scanWords_eq (by omega), words_append_right hw]

/-- **The parser parses the first 1023 characters of a line.** -/
theorem parse_eq {inp : List CChar} (hne : inp ≠ []) (hnul : NulFree (firstLine inp)) :
    tfsCommandParse inp = (parseLine ((firstLine inp).take 1023), (fgetsLoop 1023 inp).2) := by
  obtain ⟨w, hw, hwnul, hline⟩ := exists_fgetsLoop_eq 1023 inp
  have hfgets : fgets 1024 inp = some (fgetsLoop 1023 inp) := if_neg hne
  have hlen := length_fgetsLoop_le 1023 inp
  rw [hline] at hlen
  have hstr : cString (fgetsLoop 1023 inp).1 = (firstLine inp).take 1023 ++ w := by
    rw [hline]
    refine cString_of_nulFree fun ch hch => ?_
    rcases List.mem_append.mp hch with hch | hch
    · exact hnul ch (List.mem_of_mem_take hch)
    · exact hwnul ch hch
  rw [tfsCommandParse, hfgets]
  dsimp only
  rw [hstr, sscanf_append_blanks hw hlen, parseLine]
  cases ((firstLine inp).take 1023).dropWhile isspace <;> rfl

/-! ## Tokens -/

/-- The words behind the first character. -/
def argWords (glued : List CChar) (tokens : List (List CChar)) : List (List CChar) :=
  if glued = [] then tokens else glued :: tokens

theorem words_eq_argWords (str : List CChar) :
    words isspace str = argWords (str.takeWhile fun ch => !isspace ch)
      (words isspace (str.dropWhile fun ch => !isspace ch)) := by
  cases str with
  | nil => rfl
  | cons ch str =>
    by_cases hch : isspace ch = true
    · simp [argWords, hch]
    · have hch : isspace ch = false := by simpa using hch
      rw [words_of_not_blank hch, argWords, if_neg (by simp [hch])]

/-- **What is accepted, by tokens.** -/
theorem parseLine_eq_ok_iff {line : List CChar} {c : TfsCommand} :
    parseLine line = .ok c ↔ c.Typed ∧ ∃ glued tokens,
      words isspace line = (c.commandChar :: glued) :: tokens ∧
        (argWords glued tokens).take 2 = c.args := by
  rw [parseLine, ← words_dropWhile]
  cases hline : line.dropWhile isspace with
  | nil => simp
  | cons ch str =>
    have hch := isspace_eq_false_of_dropWhile hline
    have hwords : words isspace (ch :: str) = (ch :: str.takeWhile fun ch => !isspace ch) ::
        words isspace (str.dropWhile fun ch => !isspace ch) := by
      rw [words_of_not_blank hch, List.takeWhile_cons_of_pos (by simp [hch]),
        List.dropWhile_cons_of_pos (by simp [hch])]
    dsimp only
    rw [parseArgs_eq_ok_iff, words_eq_argWords, hwords]
    constructor
    · rintro ⟨rfl, hargs, htyped⟩
      exact ⟨htyped, _, _, rfl, hargs⟩
    · rintro ⟨htyped, glued, tokens, heq, hargs⟩
      obtain ⟨hfirst, rfl⟩ := List.cons.inj heq
      obtain ⟨rfl, rfl⟩ := List.cons.inj hfirst
      exact ⟨rfl, hargs, htyped⟩

/-- A line that is accepted although it is no command: something is glued to the letter and
reads as an argument, or something follows the second argument. -/
def Overlooked (tokens : List (List CChar)) : Prop :=
  ∃ c : TfsCommand, c.Typed ∧ ∃ glued rest, tokens = (c.commandChar :: glued) :: rest ∧
    (argWords glued rest).take 2 = c.args ∧ (glued ≠ [] ∨ 2 < rest.length)

/-- **The parser accepts exactly the documented commands, up to what it overlooks.**  A line
that fits into the buffer is accepted as a command exactly if its tokens are the letter of
the command and its arguments, and this for all commands, if and only if the letter has
nothing glued to it that reads as an argument, and no command with two arguments is followed
by more tokens. -/
theorem accepts_documented_iff {line rest : List CChar} (hnul : NulFree line)
    (hline : newline ∉ line) (hlen : line.length ≤ 1023)
    (hrest : rest = [] ∨ rest.head? = some newline) :
    (∀ c, (tfsCommandParse (line ++ rest)).1 = .ok c ↔
      words isspace line = [c.commandChar] :: c.args ∧ c.Typed) ↔
    ¬Overlooked (words isspace line) := by
  have hfirst := (firstLine_append hline hrest).1
  have hparse : ∀ c, (tfsCommandParse (line ++ rest)).1 = .ok c ↔ parseLine line = .ok c := by
    intro c
    by_cases hnil : line ++ rest = []
    · obtain ⟨rfl, rfl⟩ := List.append_eq_nil_iff.mp hnil
      exact iff_of_false nofun nofun
    · rw [parse_eq hnil (hfirst.symm ▸ hnul), hfirst, List.take_of_length_le hlen]
  have hargs : ∀ c : TfsCommand, c.args.length ≤ 2 := fun c => by cases c <;> simp [TfsCommand.args]
  simp only [hparse, parseLine_eq_ok_iff]
  constructor
  · rintro hall ⟨c, htyped, glued, tokens, hwords, htake, hor⟩
    obtain ⟨heq, -⟩ := (hall c).mp ⟨htyped, glued, tokens, hwords, htake⟩
    rw [hwords] at heq
    obtain ⟨hletter, rfl⟩ := List.cons.inj heq
    obtain rfl : glued = [] := (List.cons.inj hletter).2
    have := hargs c
    rcases hor with h | h
    · exact h rfl
    · omega
  · intro hno c
    constructor
    · rintro ⟨htyped, glued, tokens, hwords, htake⟩
      obtain ⟨rfl, hle⟩ : glued = [] ∧ tokens.length ≤ 2 := by
        constructor
        · by_contra hglued
          exact hno ⟨c, htyped, glued, tokens, hwords, htake, Or.inl hglued⟩
        · by_contra hlt
          exact hno ⟨c, htyped, glued, tokens, hwords, htake, Or.inr (by omega)⟩
      rw [argWords, if_pos rfl, List.take_of_length_le hle] at htake
      exact ⟨by rw [hwords, htake], htyped⟩
    · rintro ⟨hwords, htyped⟩
      exact ⟨htyped, [], c.args, hwords, List.take_of_length_le (hargs c)⟩

/-- A search, in the first of two lines. -/
theorem accepts_documented_search :
    (∀ c, (tfsCommandParse (cstr "l  /a" ++ cstr "\nc /b f")).1 = .ok c ↔
      words isspace (cstr "l  /a") = [c.commandChar] :: c.args ∧ c.Typed) ↔
    ¬Overlooked (words isspace (cstr "l  /a")) :=
  accepts_documented_iff (by decide) (by decide) (by decide) (Or.inr (by decide))

/-- A line with four tokens, accepted as a command with two arguments. -/
theorem not_accepts_documented : ¬∀ line : List CChar, NulFree line → newline ∉ line →
    line.length < 1024 → ∀ c, (tfsCommandParse line).1 = .ok c ↔
      words isspace line = [c.commandChar] :: c.args ∧ c.Typed := by
  intro hall
  have hparse : (tfsCommandParse (cstr "c /a f junk")).1 = .ok (.create (cstr "/a") .file) := by
    decide
  obtain ⟨hwords, -⟩ :=
    (hall (cstr "c /a f junk") (by decide) (by decide) (by decide) _).mp hparse
  exact absurd hwords (by decide)

end TecnicoFs
