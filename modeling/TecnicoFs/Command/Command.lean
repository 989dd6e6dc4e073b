import TecnicoFs.Fs.Calls
import TecnicoFs.Text.Words

/-!
# Commands

`command.c`, with the functions of the C library that it rests on.  A stream is the list
of the bytes that are left to read.

The parser reads one line and scans it for a character and two words.  `tfs_command_parse`
goes by the number of conversions alone, so what follows the second word is not looked at.
Of an accepted command the paths are words: they are not empty and have neither blanks nor
NUL (`TfsCommand.Parsed`).
-/

namespace TecnicoFs

open Interleaving Text

/-! ## The C library -/

/-- `\n` -/
def newline : CChar := 0x0a

/-- What is before the first newline. -/
def firstLine (str : List CChar) : List CChar := str.takeWhile (· ≠ newline)

/-- The string that starts a buffer, which ends before the first NUL. -/
def cString (buffer : List CChar) : List CChar := buffer.takeWhile (· ≠ 0)

/-- The loop of `fgets`: at most `n` characters, up to and with the first newline. -/
def fgetsLoop : Nat → List CChar → List CChar × List CChar
  | 0, inp => ([], inp)
  | _ + 1, [] => ([], [])
  | n + 1, ch :: inp =>
      if ch = newline then ([ch], inp)
      else (ch :: (fgetsLoop n inp).1, (fgetsLoop n inp).2)

/-- `fgets` into a buffer of `size`: the characters that were read, and what is left. -/
def fgets (size : Nat) (inp : List CChar) : Option (List CChar × List CChar) :=
  if inp = [] then none else some (fgetsLoop (size - 1) inp)

/-- The directives ` %1023s`, `n` of them: the words that were converted. -/
def scanWords : Nat → List CChar → List (List CChar)
  | 0, _ => []
  | n + 1, str =>
      match str.dropWhile isspace with
      | [] => []
      | ch :: str =>
          let arg := ((ch :: str).takeWhile fun ch => !isspace ch).take 1023
          arg :: scanWords n ((ch :: str).drop arg.length)

/-- `sscanf` with the format ` %c %1023s %1023s`: what was converted, unless not even the
first directive was. -/
def sscanf (str : List CChar) : Option (CChar × List (List CChar)) :=
  match str.dropWhile isspace with
  | [] => none
  | commandChar :: str => some (commandChar, scanWords 2 str)

/-! ## Parsing -/

/-- An owned path: a copy of the characters. -/
abbrev TfsPathOwned := List CChar

def tfsPathToOwned (self : TfsPath) : TfsPathOwned := self.str

/-- All executable commands. -/
inductive TfsCommand where
  | create (path : TfsPathOwned) (type : TfsInodeType)
  | search (path : TfsPathOwned)
  | remove (path : TfsPathOwned)
  | move (source dest : TfsPathOwned)
  | print (path : List CChar)
  deriving DecidableEq

/-- Errors of `tfs_command_parse`.  No result has the kind for invalid commands. -/
inductive TfsCommandParseError where
  | readLine
  | noCommand
  | missingCreateArgs
  | invalidType (type : CChar) (len : Nat)
  | missingSearchArgs
  | missingRemoveArgs
  | missingMoveArgs
  | missingPrintArgs
  deriving DecidableEq

/-- The switch of `tfs_command_parse`.  The number of tokens that were read is one more than
the number of arguments. -/
def tfsCommandParseArgs (commandChar : CChar) (args : List (List CChar)) :
    Except TfsCommandParseError TfsCommand :=
  if commandChar = cchar 'c' then
    match args with
    | [arg₀, arg₁] =>
        match arg₁ with
        | [ch] =>
            if ch = cchar 'f' then .ok (.create (tfsPathToOwned (tfsPathFromCstr 0 arg₀)) .file)
            else if ch = cchar 'd' then
              .ok (.create (tfsPathToOwned (tfsPathFromCstr 0 arg₀)) .dir)
            else .error (.invalidType ch 1)
        | _ => .error (.invalidType 0 arg₁.length)
    | _ => .error .missingCreateArgs
  else if commandChar = cchar 'l' then
    match args with
    | [arg₀] => .ok (.search (tfsPathToOwned (tfsPathFromCstr 0 arg₀)))
    | _ => .error .missingSearchArgs
  else if commandChar = cchar 'd' then
    match args with
    | [arg₀] => .ok (.remove (tfsPathToOwned (tfsPathFromCstr 0 arg₀)))
    | _ => .error .missingRemoveArgs
  else if commandChar = cchar 'm' then
    match args with
    | [arg₀, arg₁] =>
        .ok (.move (tfsPathToOwned (tfsPathFromCstr 0 arg₀))
          (tfsPathToOwned (tfsPathFromCstr 0 arg₁)))
    | _ => .error .missingMoveArgs
  else if commandChar = cchar 'p' then
    match args with
    | [arg₀] => .ok (.print arg₀)
    | _ => .error .missingPrintArgs
  else
    -- the initializer of `data.err` discards the kind that is set through `data.command`,
    -- and a kind of 0 is that of a line that could not be read
    .error .readLine

/-- Parses a command from the next line of `inp`; the second value is what is left of it. -/
def tfsCommandParse (inp : List CChar) : Except TfsCommandParseError TfsCommand × List CChar :=
  match fgets 1024 inp with
  | none => (.error .readLine, inp)
  | some (line, inp') =>
      match sscanf (cString line) with
      | none => (.error .noCommand, inp')
      | some (commandChar, args) => (tfsCommandParseArgs commandChar args, inp')

/-! ## Printing -/

def typeChar (type : TfsInodeType) : CChar := if type = .file then cchar 'f' else cchar 'd'

/-- What `snprintf` prints into a buffer that is large enough.  Both `%s` and `%.*s` stop at a
NUL. -/
def TfsCommand.format : TfsCommand → List CChar
  | .create path type => cstr "c " ++ cString path ++ cstr " " ++ [typeChar type]
  | .search path => cstr "l " ++ cString path
  | .remove path => cstr "d " ++ cString path
  | .move source dest => cstr "m " ++ cString source ++ cstr " " ++ cString dest
  | .print path => cstr "p " ++ cString path

/-- The string that `tfs_command_to_string` leaves in a buffer. -/
def tfsCommandToString (command : TfsCommand) (bufferLen : Nat) : List CChar :=
  command.format.take (bufferLen - 1)

/-! ## What the parser accepts -/

/-- The character of a command. -/
def TfsCommand.commandChar : TfsCommand → CChar
  | .create .. => cchar 'c'
  | .search _ => cchar 'l'
  | .remove _ => cchar 'd'
  | .move .. => cchar 'm'
  | .print _ => cchar 'p'

/-- The arguments of a command. -/
def TfsCommand.args : TfsCommand → List (List CChar)
  | .create path type => [path, [typeChar type]]
  | .search path => [path]
  | .remove path => [path]
  | .move source dest => [source, dest]
  | .print path => [path]

/-- What is created is a file or a directory. -/
def TfsCommand.Typed (c : TfsCommand) : Prop := ∀ path type, c = .create path type → type ≠ .none

/-- **The parser accepts the arguments of a command and nothing else.** -/
theorem parseArgs_eq_ok_iff {commandChar : CChar} {args : List (List CChar)} {c : TfsCommand} :
    tfsCommandParseArgs commandChar args = .ok c ↔
      commandChar = c.commandChar ∧ args = c.args ∧ c.Typed := by
  constructor
  · intro h
    have hone : ∀ {f : List CChar → TfsCommand} {err : TfsCommandParseError},
        (match args with | [arg] => .ok (f arg) | _ => .error err) = Except.ok c →
        ∃ arg, args = [arg] ∧ c = f arg := by
      intro f err h
      split at h
      · exact ⟨_, rfl, (Except.ok.inj h).symm⟩
      · cases h
    have htyped : ∀ path type, type ≠ .none → (TfsCommand.create path type).Typed := by
      rintro path type htype path' type' heq
      obtain ⟨-, rfl⟩ := TfsCommand.create.inj heq
      exact htype
    unfold tfsCommandParseArgs at h
    split at h
    · rename_i hc
      split at h
      · split at h
        · split at h
          · rename_i hch
            obtain rfl := Except.ok.inj h
            exact ⟨hc, by rw [hch]; rfl, htyped _ _ (by simp)⟩
          · split at h
            · rename_i hch
              obtain rfl := Except.ok.inj h
              exact ⟨hc, by rw [hch]; rfl, htyped _ _ (by simp)⟩
            · cases h
        · cases h
      · cases h
    split at h
    · rename_i hc
      obtain ⟨arg, rfl, rfl⟩ := hone (f := .search) h
      exact ⟨hc, rfl, fun _ _ heq => nomatch heq⟩
    split at h
    · rename_i hc
      obtain ⟨arg, rfl, rfl⟩ := hone (f := .remove) h
      exact ⟨hc, rfl, fun _ _ heq => nomatch heq⟩
    split at h
    · rename_i hc
      split at h
      · obtain rfl := Except.ok.inj h
        exact ⟨hc, rfl, fun _ _ heq => nomatch heq⟩
      · cases h
    split at h
    · rename_i hc
      obtain ⟨arg, rfl, rfl⟩ := hone (f := .print) h
      exact ⟨hc, rfl, fun _ _ heq => nomatch heq⟩
    · cases h
  · rintro ⟨rfl, rfl, htyped⟩
    cases c with
    | create path type =>
      cases type with
      | none => exact absurd rfl (htyped path _ rfl)
      | file => rfl
      | dir => rfl
    | search path => rfl
    | remove path => rfl
    | move source dest => rfl
    | print path => rfl

/-- A command is what its character and its arguments say. -/
theorem eq_of_args {c c' : TfsCommand} (hc : c.Typed) (hc' : c'.Typed)
    (hchar : c.commandChar = c'.commandChar) (hargs : c.args = c'.args) : c = c' := by
  have h := parseArgs_eq_ok_iff.mpr ⟨hchar, hargs, hc'⟩
  rw [parseArgs_eq_ok_iff.mpr ⟨rfl, rfl, hc⟩] at h
  exact Except.ok.inj h

/-! ## Reading a line -/

section Reading

variable {inp str : List CChar} {n : Nat}

theorem length_fgetsLoop_le (n : Nat) (inp : List CChar) : (fgetsLoop n inp).1.length ≤ n := by
  induction n generalizing inp with
  | zero => rfl
  | succ n ih =>
    cases inp with
    | nil => simp [fgetsLoop]
    | cons ch inp =>
      rw [fgetsLoop]
      split
      · simp
      · simpa using ih inp

/-- A buffer that is large enough gets the line, with its newline if it has one. -/
theorem fgetsLoop_eq (h : inp.length ≤ n) : (fgetsLoop n inp).1 =
    inp.takeWhile (· ≠ newline) ++ (inp.dropWhile (· ≠ newline)).take 1 := by
  induction n generalizing inp with
  | zero => simp [List.length_eq_zero_iff.mp (Nat.le_zero.mp h), fgetsLoop]
  | succ n ih =>
    cases inp with
    | nil => simp [fgetsLoop]
    | cons ch inp =>
      rw [fgetsLoop]
      by_cases hch : ch = newline
      · simp [hch]
      · rw [if_neg hch, ih (by simpa using h)]
        simp [hch]

theorem nulFree_cString (buffer : List CChar) : NulFree (cString buffer) := fun ch hch => by
  simpa using List.mem_takeWhile_imp hch

theorem cString_of_nulFree (h : NulFree str) : cString str = str :=
  List.takeWhile_eq_self_iff.mpr fun ch hch => by simpa using h ch hch

/-- The words that are converted are the first words of the string. -/
theorem scanWords_eq (h : str.length ≤ 1023) : scanWords n str = (words isspace str).take n := by
  induction n generalizing str with
  | zero => simp [scanWords]
  | succ n ih =>
    rw [scanWords, ← words_dropWhile]
    have hlen := (List.dropWhile_sublist isspace (l := str)).length_le
    cases hd : str.dropWhile isspace with
    | nil => simp
    | cons ch str' =>
      have hch : isspace ch = false := by
        have h' := List.head?_dropWhile_not isspace str
        rw [hd] at h'
        simpa using h'
      rw [hd] at hlen
      have htake := (List.takeWhile_sublist (fun ch => !isspace ch) (l := ch :: str')).length_le
      have hdrop := (List.dropWhile_sublist (fun ch => !isspace ch) (l := ch :: str')).length_le
      have hrest := @List.drop_left _ ((ch :: str').takeWhile fun ch => !isspace ch)
        ((ch :: str').dropWhile fun ch => !isspace ch)
      rw [List.takeWhile_append_dropWhile] at hrest
      dsimp only
      rw [List.take_of_length_le (by omega), hrest, words_of_not_blank hch, List.take_succ_cons,
        ih (by omega)]

/-- What the converted words look like. -/
theorem of_mem_scanWords {arg : List CChar} (h : arg ∈ scanWords n str) :
    arg ≠ [] ∧ ∀ ch ∈ arg, isspace ch = false ∧ ch ∈ str := by
  induction n generalizing str with
  | zero => simp [scanWords] at h
  | succ n ih =>
    rw [scanWords] at h
    cases hd : str.dropWhile isspace with
    | nil => simp [hd] at h
    | cons ch str' =>
      have hsub : ∀ x ∈ ch :: str', x ∈ str := fun x hx =>
        (List.dropWhile_sublist isspace).subset (hd ▸ hx)
      have hch : isspace ch = false := by
        have h' := List.head?_dropWhile_not isspace str
        rw [hd] at h'
        simpa using h'
      simp only [hd, List.mem_cons] at h
      rcases h with rfl | h
      · refine ⟨by simp [hch], fun x hx => ?_⟩
        have hx' := List.mem_of_mem_take hx
        exact ⟨by simpa using List.mem_takeWhile_imp hx',
          hsub x ((List.takeWhile_sublist _).subset hx')⟩
      · obtain ⟨hne, hall⟩ := ih h
        exact ⟨hne, fun x hx => ⟨(hall x hx).1, hsub x (List.mem_of_mem_drop (hall x hx).2)⟩⟩

end Reading

/-! ## What the parser returns -/

/-- A word: not empty, and without blanks and NUL. -/
structure IsWord (s : List CChar) : Prop where
  ne_nil : s ≠ []
  not_isspace : ∀ ch ∈ s, isspace ch = false
  nulFree : NulFree s

/-- What an accepted command looks like. -/
structure TfsCommand.Parsed (c : TfsCommand) : Prop where
  isWord : ∀ arg ∈ c.args, IsWord arg
  typed : c.Typed

/-- **The paths of an accepted command are words.** -/
theorem parsed_of_parse {inp rest : List CChar} {c : TfsCommand}
    (h : tfsCommandParse inp = (.ok c, rest)) : c.Parsed := by
  unfold tfsCommandParse at h
  cases hline : fgets 1024 inp with
  | none =>
    rw [hline] at h
    cases h
  | some x =>
    cases hscan : sscanf (cString x.1) with
    | none =>
      simp only [hline, hscan] at h
      cases h
    | some y =>
      simp only [hline, hscan] at h
      obtain ⟨-, hargs, htyped⟩ := parseArgs_eq_ok_iff.mp (Prod.mk.inj h).1
      refine ⟨fun arg harg => ?_, htyped⟩
      rw [← hargs] at harg
      unfold sscanf at hscan
      split at hscan
      · cases hscan
      rename_i ch str hd
      obtain rfl := Option.some.inj hscan
      obtain ⟨hne, hall⟩ := of_mem_scanWords harg
      refine ⟨hne, fun ch' hch' => (hall ch' hch').1, fun ch' hch' => ?_⟩
      have hmem : ch' ∈ (cString x.1).dropWhile isspace :=
        hd ▸ List.mem_cons_of_mem _ (hall ch' hch').2
      exact nulFree_cString x.1 ch' ((List.dropWhile_sublist isspace).subset hmem)

/-! ## Parsing what was printed -/

theorem isspace_newline : isspace newline = true := rfl

/-- The line that the parser looks at: what is before the first newline, and a blank at most. -/
theorem exists_cString_line {x z : List CChar} (hx : NulFree x) (hz : z = [] ∨ z = [0]) :
    ∃ w, (∀ ch ∈ w, isspace ch = true) ∧
      cString ((x ++ z).takeWhile (· ≠ newline) ++ ((x ++ z).dropWhile (· ≠ newline)).take 1) =
        x.takeWhile (· ≠ newline) ++ w := by
  have hsplit := List.takeWhile_append_dropWhile (p := fun ch => decide (ch ≠ newline)) (l := x)
  cases hd : x.dropWhile (· ≠ newline) with
  | nil =>
    -- the whole string is one line
    have hall : ∀ ch ∈ x, decide (ch ≠ newline) = true := List.dropWhile_eq_nil_iff.mp hd
    have hall' : ∀ ch ∈ x ++ z, decide (ch ≠ newline) = true := by
      intro ch hch
      rcases List.mem_append.mp hch with hch | hch
      · exact hall ch hch
      · rcases hz with rfl | rfl
        · cases hch
        · rw [List.mem_singleton.mp hch]
          decide
    refine ⟨[], by simp, ?_⟩
    rw [List.takeWhile_eq_self_iff.mpr hall', List.dropWhile_eq_nil_iff.mpr hall',
      List.takeWhile_eq_self_iff.mpr hall, List.take_nil, List.append_nil, List.append_nil, cString]
    rcases hz with rfl | rfl
    · rw [List.append_nil]
      exact cString_of_nulFree hx
    · rw [List.takeWhile_append_of_pos fun ch hch => by simpa using hx ch hch]
      simp
  | cons n b =>
    obtain rfl : n = newline := by
      have h := List.head?_dropWhile_not (fun ch => decide (ch ≠ newline)) x
      rw [hd] at h
      simpa using h
    refine ⟨[newline], by simp [isspace_newline], ?_⟩
    rw [hd] at hsplit
    have hbefore : ∀ ch ∈ x.takeWhile (· ≠ newline), decide (ch ≠ newline) = true := fun ch hch =>
      List.mem_takeWhile_imp (p := fun ch => decide (ch ≠ newline)) hch
    have htake : (x ++ z).takeWhile (· ≠ newline) = x.takeWhile (· ≠ newline) := by
      conv_lhs => rw [← hsplit, List.append_assoc]
      rw [List.takeWhile_append_of_pos hbefore]
      simp
    have hdrop : (x ++ z).dropWhile (· ≠ newline) = newline :: (b ++ z) := by
      conv_lhs => rw [← hsplit, List.append_assoc]
      rw [List.dropWhile_append_of_pos hbefore]
      simp
    rw [htake, hdrop]
    refine cString_of_nulFree fun ch hch => hx ch ?_
    rw [← hsplit]
    simp only [List.take_succ_cons, List.take_zero, List.mem_append, List.mem_singleton] at hch
    simp only [List.mem_append, List.mem_cons]
    tauto

/-- **What the parser makes of a character, a blank, and some text.** -/
theorem parse_words {ch : CChar} {s z : List CChar} (hch : isspace ch = false) (hnul : ch ≠ 0)
    (hs : NulFree s) (hz : z = [] ∨ z = [0]) (hlen : s.length ≤ 1020) :
    (tfsCommandParse (ch :: cchar ' ' :: s ++ z)).1 =
      tfsCommandParseArgs ch ((words isspace (firstLine s)).take 2) := by
  have hnewline : ch ≠ newline := by
    rintro rfl
    cases hch
  have hx : NulFree (ch :: cchar ' ' :: s) := by
    intro c hc
    rcases List.mem_cons.mp hc with rfl | hc
    · exact hnul
    rcases List.mem_cons.mp hc with rfl | hc
    · decide
    · exact hs c hc
  have hle : (ch :: cchar ' ' :: s ++ z).length ≤ 1023 := by
    rcases hz with rfl | rfl
    · simp
      omega
    · simp
      omega
  obtain ⟨w, hw, hline⟩ := exists_cString_line hx hz
  rw [← fgetsLoop_eq hle] at hline
  have htake : (ch :: cchar ' ' :: s).takeWhile (· ≠ newline) =
      ch :: cchar ' ' :: firstLine s := by
    rw [List.takeWhile_cons_of_pos (by simpa using hnewline),
      List.takeWhile_cons_of_pos (by decide), firstLine]
  have hscan : sscanf (cString (fgetsLoop 1023 (ch :: cchar ' ' :: s ++ z)).1) =
      some (ch, (words isspace (firstLine s)).take 2) := by
    have hlen' : (cString (fgetsLoop 1023 (ch :: cchar ' ' :: s ++ z)).1).length ≤ 1023 :=
      (List.takeWhile_sublist _).length_le.trans (length_fgetsLoop_le _ _)
    rw [hline, htake, List.cons_append, List.cons_append] at hlen'
    rw [hline, htake, List.cons_append, List.cons_append, sscanf,
      List.dropWhile_cons_of_neg (by simp [hch])]
    dsimp only
    rw [scanWords_eq (Nat.le_of_succ_le hlen'), ← List.nil_append (cchar ' ' :: _),
      words_append_cons rfl, words_nil, List.nil_append, words_append_right hw]
  have hfgets : fgets 1024 (ch :: cchar ' ' :: s ++ z) =
      some (fgetsLoop 1023 (ch :: cchar ' ' :: s ++ z)) := if_neg (by simp)
  rw [tfsCommandParse, hfgets]
  dsimp only
  rw [hscan]

end TecnicoFs
