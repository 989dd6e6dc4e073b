import TecnicoFs.Command.Command

/-!
# Commands between client and server

A client prints a command and sends the string with its NUL as one datagram; a worker
receives at most 511 bytes of it and parses them.  What the worker makes of a command is
what the parser makes of the first 509 bytes of its arguments, with blanks between them
(`parse_sent`).
-/

namespace TecnicoFs

open Text

/-! ## The source -/

/-- `tfs_client_server_connection_send_command`: the datagram that is sent. -/
def tfsClientServerConnectionSendCommand (command : TfsCommand) : List CChar :=
  cString (tfsCommandToString command 1024) ++ [0]

/-- `worker_thread_fn` up to the command, with a buffer of 512 characters of which the last
is for a NUL. -/
def workerThreadFnParse (datagram : List CChar) : Except TfsCommandParseError TfsCommand :=
  (tfsCommandParse (datagram.take (512 - 1))).1

/-- What the worker runs for a command, with its paths at some addresses. -/
def TfsCommand.task (chars chars' : Nat) : TfsCommand → Task
  | .create path type => .call (.create ⟨chars, path⟩ type)
  | .search path => .call (.find ⟨chars, path⟩ .shared)
  | .remove path => .call (.remove ⟨chars, path⟩)
  | .move source dest => .call (.move ⟨chars, source⟩ ⟨chars', dest⟩ .unique)
  | .print path => .print path

/-- A call of the client API. -/
inductive ApiCall where
  | tfsCreate (path : List CChar) (type : CChar)
  | tfsDelete (path : List CChar)
  | tfsLookup (path : List CChar)
  | tfsMove (src dest : List CChar)
  | tfsPrint (path : List CChar)

/-- The arguments are C strings. -/
def ApiCall.Valid : ApiCall → Prop
  | .tfsCreate path _ => NulFree path
  | .tfsDelete path => NulFree path
  | .tfsLookup path => NulFree path
  | .tfsMove src dest => NulFree src ∧ NulFree dest
  | .tfsPrint path => NulFree path

/-- The command that a call sends; there is none for another type than `f` and `d`. -/
def ApiCall.command : ApiCall → Option TfsCommand
  | .tfsCreate path type =>
      if type = cchar 'f' then some (.create (tfsPathToOwned (tfsPathFromCstr 0 path)) .file)
      else if type = cchar 'd' then some (.create (tfsPathToOwned (tfsPathFromCstr 0 path)) .dir)
      else none
  | .tfsDelete path => some (.remove (tfsPathToOwned (tfsPathFromCstr 0 path)))
  | .tfsLookup path => some (.search (tfsPathToOwned (tfsPathFromCstr 0 path)))
  | .tfsMove src dest =>
      some (.move (tfsPathToOwned (tfsPathFromCstr 0 src)) (tfsPathToOwned (tfsPathFromCstr 0 dest)))
  | .tfsPrint path => some (.print path)

/-! ## What the worker parses -/

/-- The arguments of a command, with blanks between them. -/
def TfsCommand.argText (c : TfsCommand) : List CChar := [cchar ' '].intercalate c.args

/-- No argument has a NUL. -/
def TfsCommand.NulFree (c : TfsCommand) : Prop := ∀ arg ∈ c.args, TecnicoFs.NulFree arg

variable {c c' : TfsCommand}

theorem TfsCommand.format_eq (h : c.NulFree) :
    c.format = c.commandChar :: cchar ' ' :: c.argText := by
  have hstr : ∀ arg ∈ c.args, cString arg = arg := fun arg harg => cString_of_nulFree (h arg harg)
  cases c with
  | create path type =>
    rw [format, hstr path (by simp [args])]
    simp [argText, args, commandChar, List.intercalate, cstr]
  | move source dest =>
    rw [format, hstr source (by simp [args]), hstr dest (by simp [args])]
    simp [argText, args, commandChar, List.intercalate, cstr]
  | search path =>
    rw [format, hstr path (by simp [args])]
    simp [argText, args, commandChar, List.intercalate, cstr]
  | remove path =>
    rw [format, hstr path (by simp [args])]
    simp [argText, args, commandChar, List.intercalate, cstr]
  | print path =>
    rw [format, hstr path (by simp [args])]
    simp [argText, args, commandChar, List.intercalate, cstr]

/-- There are one or two arguments. -/
theorem TfsCommand.args_cases (c : TfsCommand) :
    (∃ a, c.args = [a] ∧ c.argText = a) ∨
      ∃ a b, c.args = [a, b] ∧ c.argText = a ++ cchar ' ' :: b := by
  cases c with
  | create path type => exact Or.inr ⟨_, _, rfl, by simp [argText, args, List.intercalate]⟩
  | move source dest => exact Or.inr ⟨_, _, rfl, by simp [argText, args, List.intercalate]⟩
  | search path => exact Or.inl ⟨_, rfl, by simp [argText, args, List.intercalate]⟩
  | remove path => exact Or.inl ⟨_, rfl, by simp [argText, args, List.intercalate]⟩
  | print path => exact Or.inl ⟨_, rfl, by simp [argText, args, List.intercalate]⟩

/-- What a command is made of. -/
theorem TfsCommand.mem_argText {ch : CChar} (h : ch ∈ c.argText) :
    ch = cchar ' ' ∨ ∃ arg ∈ c.args, ch ∈ arg := by
  rcases c.args_cases with ⟨a, ha, htext⟩ | ⟨a, b, ha, htext⟩
  · rw [htext] at h
    exact Or.inr ⟨a, by simp [ha], h⟩
  · rw [htext, List.mem_append, List.mem_cons] at h
    rcases h with h | h | h
    · exact Or.inr ⟨a, by simp [ha], h⟩
    · exact Or.inl h
    · exact Or.inr ⟨b, by simp [ha], h⟩

theorem TfsCommand.nulFree_argText (h : c.NulFree) : TecnicoFs.NulFree c.argText := by
  intro ch hch
  rcases mem_argText hch with rfl | ⟨arg, harg, hch⟩
  · decide
  · exact h arg harg ch hch

theorem TfsCommand.commandChar_spec (c : TfsCommand) :
    isspace c.commandChar = false ∧ c.commandChar ≠ 0 := by
  cases c <;> simp only [commandChar] <;> decide

/-- **What the worker makes of a command.** -/
theorem parse_sent (h : c.NulFree) :
    workerThreadFnParse (tfsClientServerConnectionSendCommand c) =
      tfsCommandParseArgs c.commandChar
        ((words isspace (firstLine (c.argText.take 509))).take 2) := by
  obtain ⟨hspace, hnul⟩ := c.commandChar_spec
  have htext := TfsCommand.nulFree_argText h
  have hstr : cString (tfsCommandToString c 1024) =
      c.commandChar :: cchar ' ' :: c.argText.take 1021 := by
    rw [tfsCommandToString, TfsCommand.format_eq h]
    refine cString_of_nulFree fun ch hch => ?_
    rcases List.mem_cons.mp hch with rfl | hch
    · exact hnul
    rcases List.mem_cons.mp hch with rfl | hch
    · decide
    · exact htext ch (List.mem_of_mem_take hch)
  -- the NUL is received if there is room for it
  obtain ⟨z, hz, hreceived⟩ : ∃ z, (z = [] ∨ z = [0]) ∧
      (tfsClientServerConnectionSendCommand c).take 511 =
        c.commandChar :: cchar ' ' :: c.argText.take 509 ++ z := by
    rw [tfsClientServerConnectionSendCommand, hstr]
    refine ⟨([0] : List CChar).take (509 - (c.argText.take 1021).length), ?_, ?_⟩
    · cases 509 - (c.argText.take 1021).length <;> simp
    · simp [List.take_append, List.take_take]
  have hlen : (c.argText.take 509).length ≤ 1020 :=
    (List.length_take_le _ _).trans (by decide)
  rw [workerThreadFnParse, hreceived]
  exact parse_words hspace hnul (fun ch hch => htext ch (List.mem_of_mem_take hch)) hz hlen

/-- **The commands that the worker takes for `c`.** -/
theorem parse_sent_eq_ok_iff (h : c.NulFree) :
    workerThreadFnParse (tfsClientServerConnectionSendCommand c) = .ok c' ↔
      c.commandChar = c'.commandChar ∧
        (words isspace (firstLine (c.argText.take 509))).take 2 = c'.args ∧ c'.Typed := by
  rw [parse_sent h, parseArgs_eq_ok_iff]

end TecnicoFs
