import TecnicoFs.Command.Codec
import TecnicoFs.Command.Input

/-!
# Scripts

A script is a text with commands as they are printed, one on a line, among blank lines and
comments.  The client reads it as these commands, in their order (`Script.processInput_eq`), and
what the client has sent for any text can be written down as a script and sent again
(`printed_commands_resent`).
-/

namespace TecnicoFs

open Text

/-- **A text with these commands.**  A line is blank or a comment, or it has a printed command
between blanks. -/
inductive Script : List CChar → List TfsCommand → Prop where
  | nil : Script [] []
  | skip {line after : List CChar} {commands : List TfsCommand} (hline : newline ∉ line)
      (hskip : Skipped (line.dropWhile isspace))
      (hafter : after = [] ∨ after.head? = some newline) (h : Script (after.drop 1) commands) :
      Script (line ++ after) commands
  | command {lead trail after : List CChar} {c : TfsCommand} {commands : List TfsCommand}
      (hlead : ∀ ch ∈ lead, isspace ch = true) (htrail : ∀ ch ∈ trail, isspace ch = true)
      (hline : newline ∉ trail) (hc : c.Parsed) (hlen : c.argText.length ≤ 1021)
      (hafter : after = [] ∨ after.head? = some newline) (h : Script (after.drop 1) commands) :
      Script (lead ++ (tfsCommandToString c 1024 ++ trail) ++ after) (c :: commands)

/-- The commands that are sent, and the ending: the first that cannot be sent is the last. -/
def sentFirst (send : Nat → Bool) : Nat → List TfsCommand → List TfsCommand × Ending
  | _, [] => ([], .endOfInput)
  | n, c :: commands =>
      if send n then
        (c :: (sentFirst send (n + 1) commands).1, (sentFirst send (n + 1) commands).2)
      else ([c], .sendError)

/-- What the client sends. -/
def sentCommands (run : List Attempt × Ending) : List TfsCommand := run.1.filterMap Attempt.command

/-! ## Printed commands -/

section Printed

variable {c : TfsCommand} {trail after : List CChar}

theorem TfsCommand.Parsed.toString_eq (h : c.Parsed) (hlen : c.argText.length ≤ 1021) :
    tfsCommandToString c 1024 = c.commandChar :: cchar ' ' :: c.argText := by
  rw [tfsCommandToString, TfsCommand.format_eq h.nulFree, List.take_of_length_le]
  rw [List.length_cons, List.length_cons]
  omega

/-- A printed command is found again, with blanks behind it. -/
theorem TfsCommand.Parsed.parseLine_printed (h : c.Parsed) {w : List CChar}
    (hw : ∀ ch ∈ w, isspace ch = true) :
    parseLine (c.commandChar :: cchar ' ' :: c.argText ++ w) = .ok c := by
  have hargs : words isspace c.argText = c.args := by
    have hwords := h.blankFree.words_eq
    rw [firstLine_of_not_mem h.blankFree.newline_not_mem] at hwords
    rw [hwords, List.filter_eq_self]
    intro arg harg
    simpa using (h.isWord arg harg).ne_nil
  have hchar := c.commandChar_spec.1
  refine parseLine_eq_ok_iff.mpr ⟨h.typed, [], c.args, ?_, List.take_of_length_le c.length_args_le⟩
  have hletter : words isspace [c.commandChar] = [[c.commandChar]] :=
    words_of_forall (by simpa using hchar) (by simp)
  have hsplit := words_append_cons (p := isspace) (s := cchar ' ') rfl [c.commandChar]
    (c.argText ++ w)
  rw [words_append_right hw, hargs, hletter] at hsplit
  exact hsplit

end Printed

/-! ## What the client does -/

section Client

variable {send : Nat → Bool} {n : Nat} {eof eof' : Bool} {c : TfsCommand}
  {text rest line lead trail after : List CChar}

/-- The client does not see blanks at the start, nor whether the end was seen. -/
theorem processInput_dropWhile (text : List CChar) (eof eof' : Bool) :
    processInput send n ⟨text, eof⟩ = processInput send n ⟨text.dropWhile isspace, eof'⟩ := by
  have htwice : (text.dropWhile isspace).dropWhile isspace = text.dropWhile isspace :=
    List.dropWhile_idempotent ..
  by_cases hs : Skipped (text.dropWhile isspace)
  · rcases hs with hnil | hcomment
    · rw [processInput_of_nil hnil, processInput_of_nil (htwice.trans hnil)]
    · obtain ⟨str, hstr⟩ := List.head?_eq_some_iff.mp hcomment
      rw [processInput_of_comment hstr, processInput_of_comment (htwice.trans hstr)]
  · have hline := @processInput_of_line send n (text.dropWhile isspace) eof' (by rwa [htwice])
    rw [htwice] at hline
    rw [hline, processInput_of_line hs]

theorem processInput_of_blanks (hlead : ∀ ch ∈ lead, isspace ch = true) (eof eof' : Bool) :
    processInput send n ⟨lead ++ text, eof⟩ = processInput send n ⟨text, eof'⟩ := by
  rw [processInput_dropWhile _ eof false, processInput_dropWhile text eof' false,
    List.dropWhile_append_of_pos hlead]

/-- What follows a line, and the end of the line. -/
theorem processInput_after (hafter : after = [] ∨ after.head? = some newline) :
    processInput send n ⟨after, eof⟩ = processInput send n ⟨after.drop 1, eof'⟩ := by
  rcases hafter with rfl | hafter
  · rw [List.drop_nil, processInput_of_nil rfl, processInput_of_nil rfl]
  · obtain ⟨rest, rfl⟩ := List.head?_eq_some_iff.mp hafter
    have hlead : ∀ ch ∈ [newline], isspace ch = true := by simp [isspace_newline]
    exact processInput_of_blanks hlead eof eof'

/-- The client is at a line that it skips. -/
theorem processInput_of_skipped (hline : newline ∉ line) (hskip : Skipped (line.dropWhile isspace))
    (hafter : after = [] ∨ after.head? = some newline) (eof eof' : Bool) :
    processInput send n ⟨line ++ after, eof⟩ = processInput send n ⟨after.drop 1, eof'⟩ := by
  rcases hskip with hnil | hcomment
  · rw [processInput_of_blanks (List.dropWhile_eq_nil_iff.mp hnil) eof eof]
    exact processInput_after hafter
  · obtain ⟨str, hstr⟩ := List.head?_eq_some_iff.mp hcomment
    have hnot : newline ∉ str := fun hmem =>
      hline ((List.dropWhile_sublist isspace).subset (hstr ▸ List.mem_cons_of_mem _ hmem))
    have hdrop : (line ++ after).dropWhile isspace = cchar '#' :: (str ++ after) := by
      rw [List.dropWhile_append, hstr]
      rfl
    rw [processInput_of_comment hdrop]
    have hrest : (skipLine (str ++ after)).rest = after.drop 1 := by
      rw [rest_skipLine, (firstLine_append hnot hafter).2]
    rw [← hrest]
    exact (processInput_dropWhile _ _ false).trans (processInput_dropWhile _ eof' false).symm

/-- The client is at a printed command. -/
theorem processInput_of_command (hlead : ∀ ch ∈ lead, isspace ch = true)
    (htrail : ∀ ch ∈ trail, isspace ch = true) (hline : newline ∉ trail) (hc : c.Parsed)
    (hlen : c.argText.length ≤ 1021) (hafter : after = [] ∨ after.head? = some newline) :
    ∃ left, processInput send n ⟨lead ++ (tfsCommandToString c 1024 ++ trail) ++ after, eof⟩ =
      if send n then
        prepend ⟨left, some c⟩ (processInput send (n + 1) ⟨after.drop 1, false⟩)
      else ([⟨left, some c⟩], .sendError) := by
  rw [hc.toString_eq hlen]
  generalize hbody : c.commandChar :: cchar ' ' :: c.argText ++ trail = body
  have hhead : body = c.commandChar :: (cchar ' ' :: c.argText ++ trail) := hbody.symm
  have hchar := c.commandChar_spec
  have hnot : newline ∉ body := by
    rw [← hbody, List.mem_append, not_or, List.mem_cons, List.mem_cons, not_or, not_or]
    refine ⟨⟨fun heq => ?_, by decide, hc.blankFree.newline_not_mem⟩, hline⟩
    rw [← heq] at hchar
    cases hchar.1
  have hnul : NulFree body := by
    rw [← hbody]
    intro ch hch
    rcases List.mem_append.mp hch with hch | hch
    · rcases List.mem_cons.mp hch with rfl | hch
      · exact hchar.2
      rcases List.mem_cons.mp hch with rfl | hch
      · decide
      · exact TfsCommand.nulFree_argText hc.nulFree ch hch
    · rintro rfl
      cases htrail 0 hch
  have hdrop : (body ++ after).dropWhile isspace = body ++ after := by
    rw [hhead, List.cons_append, List.dropWhile_cons_of_neg (by simp [hchar.1])]
  have hs : ¬Skipped (body ++ after) := by
    rw [hhead, List.cons_append]
    rintro (h | h)
    · cases h
    · have heq := Option.some.inj h
      cases c <;> exact absurd heq (by simp only [TfsCommand.commandChar]; decide)
  have hfirst := (firstLine_append hnot hafter).1
  have hparse := @parse_eq (body ++ after) (by simp [hhead]) (hfirst.symm ▸ hnul)
  have htake : body.take 1023 =
      c.commandChar :: cchar ' ' :: c.argText ++ trail.take (1021 - c.argText.length) := by
    rw [← hbody, List.take_append, List.take_of_length_le (by simp; omega)]
    exact congrArg (fun k => _ ++ trail.take k) (by simp)
  rw [hfirst, htake,
    hc.parseLine_printed fun ch hch => htrail ch (List.mem_of_mem_take hch)] at hparse
  have hrest : processInput send (n + 1) ⟨(fgetsLoop 1023 (body ++ after)).2,
      fgetsEof 1023 (body ++ after)⟩ = processInput send (n + 1) ⟨after.drop 1, false⟩ := by
    rcases fgetsLoop_rest hnot hafter with heq | ⟨-, heq⟩
    · have hblank : ∀ ch ∈ body.drop 1023, isspace ch = true := by
        intro ch hch
        rw [← hbody, List.drop_append, List.drop_eq_nil_of_le (by simp; omega),
          List.nil_append] at hch
        exact htrail ch (List.mem_of_mem_drop hch)
      rw [heq, processInput_of_blanks hblank _ false]
      exact processInput_after hafter
    · rw [heq]
      exact (processInput_dropWhile _ _ false).trans (processInput_dropWhile _ false false).symm
  refine ⟨body ++ after, ?_⟩
  rw [List.append_assoc, processInput_of_blanks hlead eof false,
    processInput_of_line (by rwa [hdrop]), hdrop, hparse, attempted, hrest]

end Client

/-! ## Scripts -/

/-- **Scripts are read as their commands**, in their order, up to the first that cannot be
sent.  The parser is called for nothing else. -/
theorem Script.processInput_eq {text : List CChar} {commands : List TfsCommand}
    (h : Script text commands) (send : Nat → Bool) (n : Nat) (eof : Bool) :
    (processInput send n ⟨text, eof⟩).1.map Attempt.command =
        (sentFirst send n commands).1.map some ∧
      (processInput send n ⟨text, eof⟩).2 = (sentFirst send n commands).2 := by
  induction h generalizing n eof with
  | nil =>
    rw [processInput_of_nil rfl]
    exact ⟨rfl, rfl⟩
  | skip hline hskip hafter _ ih =>
    rw [processInput_of_skipped hline hskip hafter eof false]
    exact ih n false
  | @command lead trail after c commands hlead htrail hline hc hlen hafter _ ih =>
    obtain ⟨left, heq⟩ := @processInput_of_command send n eof c lead trail after hlead htrail hline
      hc hlen hafter
    rw [heq, sentFirst]
    split
    · obtain ⟨hcommands, hending⟩ := ih (n + 1) false
      refine ⟨?_, hending⟩
      rw [prepend, List.map_cons, List.map_cons, hcommands]
    · exact ⟨rfl, rfl⟩

theorem Script.sentCommands_eq {text : List CChar} {commands : List TfsCommand}
    (h : Script text commands) (send : Nat → Bool) (n : Nat) (eof : Bool) :
    sentCommands (processInput send n ⟨text, eof⟩) = (sentFirst send n commands).1 := by
  have hmap : ∀ attempts : List Attempt,
      attempts.filterMap Attempt.command = (attempts.map Attempt.command).filterMap id := by
    intro attempts
    rw [List.filterMap_map]
    rfl
  rw [sentCommands, hmap, (h.processInput_eq send n eof).1, List.filterMap_map]
  exact List.filterMap_some

/-- If all commands can be sent, all are. -/
theorem sentFirst_of_forall {send : Nat → Bool} (h : ∀ n, send n = true) (n : Nat)
    (commands : List TfsCommand) : sentFirst send n commands = (commands, .endOfInput) := by
  induction commands generalizing n with
  | nil => rfl
  | cons c commands ih => rw [sentFirst, if_pos (h n), ih]

/-- The commands, one on a line. -/
def printScript (commands : List TfsCommand) : List CChar :=
  commands.flatMap fun c => tfsCommandToString c 1024 ++ [newline]

theorem script_printScript {commands : List TfsCommand}
    (h : ∀ c ∈ commands, c.Parsed ∧ c.argText.length ≤ 1021) :
    Script (printScript commands) commands := by
  induction commands with
  | nil => exact .nil
  | cons c commands ih =>
    rw [List.forall_mem_cons] at h
    have hscript := @Script.command [] [] (newline :: printScript commands) _ _ (by simp) (by simp)
      (by simp) h.1.1 h.1.2 (Or.inr rfl) (ih h.2)
    rw [List.nil_append, List.append_nil, List.append_cons] at hscript
    exact hscript

/-- **What a client sends was parsed.** -/
theorem parsed_of_mem_sentCommands {send : Nat → Bool} {n : Nat} {text : List CChar} {eof : Bool}
    {c : TfsCommand} (h : c ∈ sentCommands (processInput send n ⟨text, eof⟩)) : c.Parsed := by
  induction hlen : text.length using Nat.strong_induction_on generalizing text n eof with
  | _ len ih =>
    have hsub := (List.dropWhile_sublist isspace (l := text)).length_le
    by_cases hs : Skipped (text.dropWhile isspace)
    · rcases hs with hnil | hcomment
      · rw [processInput_of_nil hnil] at h
        cases h
      · obtain ⟨str, hstr⟩ := List.head?_eq_some_iff.mp hcomment
        rw [processInput_of_comment hstr] at h
        rw [hstr, List.length_cons] at hsub
        exact ih _ (by have := length_skipLine_le str; omega) h rfl
    · rw [processInput_of_line hs] at h
      obtain ⟨attempt, hattempt, hcommand⟩ := List.mem_filterMap.mp h
      cases hparse : (tfsCommandParse (text.dropWhile isspace)).1 with
      | error err =>
        rw [hparse] at hattempt
        rw [List.mem_singleton.mp hattempt] at hcommand
        cases hcommand
      | ok command =>
        have hok : tfsCommandParse (text.dropWhile isspace) =
            (.ok command, (tfsCommandParse (text.dropWhile isspace)).2) := Prod.ext hparse rfl
        rw [hparse, attempted] at hattempt
        split at hattempt
        · rcases List.mem_cons.mp hattempt with rfl | hattempt
          · obtain rfl := Option.some.inj hcommand
            exact parsed_of_parse hok
          · have hlt := length_lt_of_parse hok
            rw [rest_tfsCommandParse] at hlt
            exact ih _ (by omega) (List.mem_filterMap.mpr ⟨attempt, hattempt, hcommand⟩) rfl
        · rw [List.mem_singleton.mp hattempt] at hcommand
          obtain rfl := Option.some.inj hcommand
          exact parsed_of_parse hok

/-- **What was sent can be written down and sent again.**  Whatever a client has sent for a
text, if each command fits on a line, the commands printed one on a line are a script, and
for every script with these commands, whatever its comments and blanks are, a client sends
the same commands in the same order, up to the first that cannot be sent. -/
theorem printed_commands_resent (text : List CChar) (send : Nat → Bool)
    (hlen : ∀ c ∈ sentCommands (processInput send 0 ⟨text, false⟩), c.argText.length ≤ 1021) :
    Script (printScript (sentCommands (processInput send 0 ⟨text, false⟩)))
        (sentCommands (processInput send 0 ⟨text, false⟩)) ∧
      ∀ text', Script text' (sentCommands (processInput send 0 ⟨text, false⟩)) → ∀ send',
        sentCommands (processInput send' 0 ⟨text', false⟩) =
            (sentFirst send' 0 (sentCommands (processInput send 0 ⟨text, false⟩))).1 ∧
          (processInput send' 0 ⟨text', false⟩).2 =
            (sentFirst send' 0 (sentCommands (processInput send 0 ⟨text, false⟩))).2 :=
  ⟨script_printScript fun c hc => ⟨parsed_of_mem_sentCommands hc, hlen c hc⟩,
    fun _ h send' => ⟨h.sentCommands_eq send' 0 false, (h.processInput_eq send' 0 false).2⟩⟩

/-- A script with a comment, a blank line and superfluous blanks. -/
theorem script_two : Script (cstr "# two\n\n  c /a d\t\nl /a/f")
    [.create (cstr "/a") .dir, .search (cstr "/a/f")] := by
  have hcreate : (TfsCommand.create (cstr "/a") .dir).Parsed :=
    @parsed_of_parse (cstr "c /a d") [] _ (by decide)
  have hsearch : (TfsCommand.search (cstr "/a/f")).Parsed :=
    @parsed_of_parse (cstr "l /a/f") [] _ (by decide)
  have hlast : Script (cstr "l /a/f") [.search (cstr "/a/f")] := by
    have h := @Script.command [] [] [] _ _ (by simp) (by simp) (by simp) hsearch
      (by decide) (Or.inl rfl) .nil
    rwa [show [] ++ (tfsCommandToString (.search (cstr "/a/f")) 1024 ++ []) ++ [] =
      cstr "l /a/f" by decide] at h
  have hboth : Script (cstr "  c /a d\t\nl /a/f")
      [.create (cstr "/a") .dir, .search (cstr "/a/f")] := by
    have h := @Script.command (cstr "  ") (cstr "\t") (newline :: cstr "l /a/f") _ _
      (List.all_eq_true.mp rfl) (List.all_eq_true.mp rfl) (by decide) hcreate (by decide)
      (Or.inr rfl) hlast
    rwa [show cstr "  " ++ (tfsCommandToString (.create (cstr "/a") .dir) 1024 ++ cstr "\t") ++
      newline :: cstr "l /a/f" = cstr "  c /a d\t\nl /a/f" by decide] at h
  exact @Script.skip (cstr "# two") _ _ (by decide) (Or.inr (by decide))
    (Or.inr rfl) (@Script.skip [] _ _ (by simp) (Or.inl rfl) (Or.inr rfl) hboth)

theorem printed_commands_resent_two : ∃ commands,
    sentCommands (processInput (fun _ => true) 0 ⟨cstr "# two\n\n  c /a d\t\nl /a/f", false⟩) =
      commands ∧ commands = [.create (cstr "/a") .dir, .search (cstr "/a/f")] ∧
    sentCommands (processInput (fun _ => true) 0 ⟨printScript commands, false⟩) = commands := by
  have hsent := script_two.sentCommands_eq (fun _ => true) 0 false
  rw [sentFirst_of_forall fun _ => rfl] at hsent
  obtain ⟨hscript, hall⟩ := printed_commands_resent (cstr "# two\n\n  c /a d\t\nl /a/f")
    (fun _ => true) (by rw [hsent]; decide)
  have hagain := (hall _ hscript fun _ => true).1
  rw [sentFirst_of_forall fun _ => rfl, hsent] at hagain
  exact ⟨_, hsent, rfl, hagain⟩

end TecnicoFs
