import TecnicoFs.Command.Connection

/-!
# Which commands reach the server

For the commands that a client has parsed itself the only danger is the limit of what a
worker receives, which can cut the last path short.  Below that limit they are what the
worker parses.  The functions of the client API take any string, and there a blank in a
path can move the boundaries of the arguments.
-/

namespace TecnicoFs

open Text

variable {c c' : TfsCommand}

/-! ## The round trip -/

theorem firstLine_of_not_mem {str : List CChar} (h : newline ∉ str) : firstLine str = str :=
  List.takeWhile_eq_self_iff.mpr fun ch hch => by
    simp only [ne_eq, decide_not, Bool.not_eq_true', decide_eq_false_iff_not]
    rintro rfl
    exact h hch

/-- No argument has a blank. -/
def TfsCommand.BlankFree (c : TfsCommand) : Prop := ∀ arg ∈ c.args, ∀ ch ∈ arg, isspace ch = false

theorem TfsCommand.BlankFree.newline_not_mem (h : c.BlankFree) : newline ∉ c.argText := by
  intro hmem
  rcases mem_argText hmem with heq | ⟨arg, harg, hmem⟩
  · cases heq
  · cases (h arg harg newline hmem).symm.trans isspace_newline

theorem words_eq_filter {str : List CChar} (h : ∀ ch ∈ str, isspace ch = false) :
    words isspace str = [str].filter fun arg => !arg.isEmpty := by
  cases str with
  | nil => simp
  | cons ch str => simp [words_of_forall h]

/-- Arguments without blanks are found again, but for the empty ones. -/
theorem TfsCommand.BlankFree.words_eq (h : c.BlankFree) :
    words isspace (firstLine c.argText) = c.args.filter fun arg => !arg.isEmpty := by
  rw [firstLine_of_not_mem h.newline_not_mem]
  rcases c.args_cases with ⟨a, ha, htext⟩ | ⟨a, b, ha, htext⟩
  · rw [htext, ha]
    exact words_eq_filter (h a (by simp [ha]))
  · rw [htext, ha, words_append_cons rfl, words_eq_filter (h a (by simp [ha])),
      words_eq_filter (h b (by simp [ha])), ← List.filter_append]
    rfl

theorem TfsCommand.length_args_le (c : TfsCommand) : c.args.length ≤ 2 := by
  rcases c.args_cases with ⟨a, ha, -⟩ | ⟨a, b, ha, -⟩ <;> simp [ha]

/-- Commands of one character have equally many arguments. -/
theorem TfsCommand.length_args_eq (h : c.commandChar = c'.commandChar) :
    c.args.length = c'.args.length := by
  cases c <;> cases c' <;> first | rfl | exact absurd h (by simp only [commandChar]; decide)

/-- A command without blanks that fits is not taken for another one. -/
theorem TfsCommand.BlankFree.eq_of_parse (h : c.BlankFree) (hnul : c.NulFree) (htyped : c.Typed)
    (hlen : c.argText.length ≤ 509)
    (hparse : workerThreadFnParse (tfsClientServerConnectionSendCommand c) = .ok c') : c' = c := by
  obtain ⟨hchar, hargs, htyped'⟩ := (parse_sent_eq_ok_iff hnul).mp hparse
  rw [List.take_of_length_le hlen, h.words_eq,
    List.take_of_length_le ((List.length_filter_le _ _).trans c.length_args_le)] at hargs
  -- as no argument got lost, none is empty
  have hall : c.args.filter (fun arg => !arg.isEmpty) = c.args := by
    refine List.filter_sublist.eq_of_length ?_
    rw [hargs, TfsCommand.length_args_eq hchar]
  exact (eq_of_args htyped htyped' hchar (hall.symm.trans hargs)).symm

theorem TfsCommand.Parsed.nulFree (h : c.Parsed) : c.NulFree := fun arg harg =>
  (h.isWord arg harg).nulFree

theorem TfsCommand.Parsed.blankFree (h : c.Parsed) : c.BlankFree := fun arg harg =>
  (h.isWord arg harg).not_isspace

/-- The tasks that commands from a client start are in order. -/
theorem TfsCommand.Parsed.valid (h : c.Parsed) (chars chars' : Nat) :
    (c.task chars chars').Valid := by
  have hnul : ∀ arg ∈ c.args, TecnicoFs.NulFree arg := h.nulFree
  cases c with
  | create path type => exact ⟨hnul path (by simp [args]), h.typed path type rfl⟩
  | search path => exact hnul path (by simp [args])
  | remove path => exact hnul path (by simp [args])
  | move source dest => exact ⟨hnul source (by simp [args]), hnul dest (by simp [args])⟩
  | print path => trivial

/-- An accepted command that fits is found again. -/
theorem TfsCommand.Parsed.parse_sent (h : c.Parsed) (hlen : c.argText.length ≤ 509) :
    workerThreadFnParse (tfsClientServerConnectionSendCommand c) = .ok c := by
  refine (parse_sent_eq_ok_iff h.nulFree).mpr ⟨rfl, ?_, h.typed⟩
  have hall : c.args.filter (fun arg => !arg.isEmpty) = c.args := by
    rw [List.filter_eq_self]
    intro arg harg
    simpa using (h.isWord arg harg).ne_nil
  rw [List.take_of_length_le hlen, h.blankFree.words_eq, hall,
    List.take_of_length_le c.length_args_le]

/-- The printed form is at most 511 bytes when its arguments are at most 509. -/
theorem length_toString_le_iff (h : c.NulFree) :
    (tfsCommandToString c 1024).length ≤ 511 ↔ c.argText.length ≤ 509 := by
  rw [tfsCommandToString, TfsCommand.format_eq h, List.length_take, List.length_cons,
    List.length_cons]
  omega

/-- **The command codec.**  A command that the parser returned and whose printed form has at
most 511 bytes is what the worker parses. -/
theorem codec_round_trip {inp rest : List CChar} {c : TfsCommand}
    (h : tfsCommandParse inp = (.ok c, rest)) (hlen : (tfsCommandToString c 1024).length ≤ 511) :
    workerThreadFnParse (tfsClientServerConnectionSendCommand c) = .ok c := by
  have hparsed := parsed_of_parse h
  exact hparsed.parse_sent ((length_toString_le_iff hparsed.nulFree).mp hlen)

theorem codec_round_trip_move :
    workerThreadFnParse (tfsClientServerConnectionSendCommand (.move (cstr "/a") (cstr "/b"))) =
      .ok (.move (cstr "/a") (cstr "/b")) :=
  @codec_round_trip (cstr "  m /a \t/b rest\nl /c\n") (cstr "l /c\n") _ (by decide) (by decide)

/-! ## The limits -/

/-- The lengths for which a command that a client parsed reaches the worker as it is, or not
at all. -/
def TfsCommand.Fits : TfsCommand → Prop
  | .create .. => True
  | .search path => path.length ≤ 509
  | .remove path => path.length ≤ 509
  | .move source dest => source.length + dest.length ≤ 508 ∨ 508 ≤ source.length
  | .print path => path.length ≤ 509

theorem firstLine_take (h : newline ∉ c.argText) (n : Nat) :
    firstLine (c.argText.take n) = c.argText.take n :=
  firstLine_of_not_mem fun hmem => h (List.mem_of_mem_take hmem)

/-- A word stays a word when it is cut. -/
theorem IsWord.words_take {s : List CChar} (h : IsWord s) {n : Nat} (hn : n ≠ 0) :
    words isspace (s.take n) = [s.take n] :=
  words_of_forall (fun ch hch => h.not_isspace ch (List.mem_of_mem_take hch))
    (by simpa [hn] using h.ne_nil)

/-- What is left of two words when they are cut. -/
theorem IsWord.words_take_two {a b : List CChar} (ha : IsWord a) (hb : IsWord b) {n : Nat}
    (hn : n ≠ 0) : words isspace ((a ++ cchar ' ' :: b).take n) =
      if n ≤ a.length + 1 then [a.take n] else [a, b.take (n - a.length - 1)] := by
  rw [List.take_append]
  rcases Nat.lt_trichotomy n (a.length + 1) with hlt | rfl | hgt
  · rw [if_pos hlt.le, Nat.sub_eq_zero_of_le (by omega), List.take_zero, List.append_nil,
      ha.words_take hn]
  · rw [if_pos le_rfl, Nat.add_sub_cancel_left, List.take_succ_cons, List.take_zero,
      words_append_right (by simp; decide), ha.words_take hn]
  · -- the blank is left, and a character behind it
    obtain ⟨k, hk⟩ : ∃ k, n - a.length = k + 1 + 1 := ⟨n - a.length - 2, by omega⟩
    rw [if_neg (by omega), hk, List.take_succ_cons, words_append_cons rfl, ha.words_take hn,
      hb.words_take k.succ_ne_zero, List.take_of_length_le (by omega)]
    rfl

/-- The only argument of a command is cut to 509 bytes. -/
theorem parsed_sent_one_iff {f : List CChar → TfsCommand} {path : List CChar}
    (hargs : ∀ a, (f a).args = [a]) (hchar : ∀ a, (f path).commandChar = (f a).commandChar)
    (htyped : ∀ a, (f a).Typed) (h : (f path).Parsed) :
    (∀ c', workerThreadFnParse (tfsClientServerConnectionSendCommand (f path)) = .ok c' →
      c' = f path) ↔ path.length ≤ 509 := by
  have htext : (f path).argText = path := by simp [TfsCommand.argText, hargs, List.intercalate]
  have hword : IsWord path := h.isWord path (by simp [hargs])
  constructor
  · intro hall
    have hcut := hall (f (path.take 509)) ((parse_sent_eq_ok_iff h.nulFree).mpr
      ⟨hchar _, by rw [firstLine_take h.blankFree.newline_not_mem, htext,
        hword.words_take (by decide), hargs]; rfl, htyped _⟩)
    have heq : path.take 509 = path := by
      have hargs' := congrArg TfsCommand.args hcut
      rw [hargs, hargs] at hargs'
      exact (List.cons.inj hargs').1
    rw [← heq]
    exact List.length_take_le _ _
  · exact fun hlen c' hparse =>
      h.blankFree.eq_of_parse h.nulFree h.typed (by rwa [htext]) hparse

/-- When the first of two arguments fills what is received, the command is refused. -/
theorem not_parse_of_long {c : TfsCommand} (h : c.Parsed) {a b : List CChar}
    (hargs : c.args = [a, b]) (hlen : 508 ≤ a.length) (c' : TfsCommand) :
    workerThreadFnParse (tfsClientServerConnectionSendCommand c) ≠ .ok c' := by
  intro hparse
  obtain ⟨hchar, hwords, -⟩ := (parse_sent_eq_ok_iff h.nulFree).mp hparse
  have htext : c.argText = a ++ cchar ' ' :: b := by
    simp [TfsCommand.argText, hargs, List.intercalate]
  rw [firstLine_take h.blankFree.newline_not_mem, htext,
    IsWord.words_take_two (h.isWord a (by simp [hargs])) (h.isWord b (by simp [hargs])) (by decide),
    if_pos (by omega)] at hwords
  have hcount := TfsCommand.length_args_eq hchar
  rw [← hwords, hargs] at hcount
  simp at hcount

/-- **A client's command can be cut short.**  Whatever the client parsed, the worker runs that
command or none if and only if the command `Fits`. -/
theorem parsed_sent_iff {inp rest : List CChar} {c : TfsCommand}
    (h : tfsCommandParse inp = (.ok c, rest)) :
    (∀ c', workerThreadFnParse (tfsClientServerConnectionSendCommand c) = .ok c' → c' = c) ↔
      c.Fits := by
  have hp := parsed_of_parse h
  cases c with
  | search path =>
    exact parsed_sent_one_iff (fun _ => rfl) (fun _ => rfl) (by simp [TfsCommand.Typed]) hp
  | remove path =>
    exact parsed_sent_one_iff (fun _ => rfl) (fun _ => rfl) (by simp [TfsCommand.Typed]) hp
  | print path =>
    exact parsed_sent_one_iff (fun _ => rfl) (fun _ => rfl) (by simp [TfsCommand.Typed]) hp
  | create path type =>
    refine ⟨fun _ => trivial, fun _ c' hparse => ?_⟩
    rcases Nat.lt_or_ge path.length 508 with hlt | hge
    · refine hp.blankFree.eq_of_parse hp.nulFree hp.typed ?_ hparse
      simp [TfsCommand.argText, TfsCommand.args, List.intercalate]
      omega
    · exact absurd hparse (not_parse_of_long hp rfl hge c')
  | move source dest =>
    have hsource : IsWord source := hp.isWord source (by simp [TfsCommand.args])
    have hdest : IsWord dest := hp.isWord dest (by simp [TfsCommand.args])
    have htext : (TfsCommand.move source dest).argText = source ++ cchar ' ' :: dest := by
      simp [TfsCommand.argText, TfsCommand.args, List.intercalate]
    constructor
    · intro hall
      by_contra hfits
      simp only [TfsCommand.Fits, not_or, not_le] at hfits
      have hcut := hall (.move source (dest.take (509 - source.length - 1)))
        ((parse_sent_eq_ok_iff hp.nulFree).mpr ⟨rfl, by
          rw [firstLine_take hp.blankFree.newline_not_mem, htext,
            hsource.words_take_two hdest (by decide), if_neg (by omega)]
          rfl, by simp [TfsCommand.Typed]⟩)
      have heq := (TfsCommand.move.inj hcut).2
      have hlen := List.length_take_le (509 - source.length - 1) dest
      rw [heq] at hlen
      omega
    · rintro (hlen | hlen) c' hparse
      · refine hp.blankFree.eq_of_parse hp.nulFree hp.typed ?_ hparse
        rw [htext, List.length_append, List.length_cons]
        omega
      · exact absurd hparse (not_parse_of_long hp rfl hlen c')

theorem parsed_sent_iff_remove : (TfsCommand.remove (cstr "/a")).Fits :=
  (@parsed_sent_iff (cstr "d /a\n") [] _ (by decide)).mp fun c' hparse => by
    have hok : workerThreadFnParse (tfsClientServerConnectionSendCommand (.remove (cstr "/a"))) =
        .ok (.remove (cstr "/a")) := by decide
    exact Except.ok.inj (hparse.symm.trans hok)

/-- **The last characters of a path can get lost.**  A client parses the removal of a path of
510 characters, and the worker removes what the first 509 of them say. -/
theorem exists_cut_remove : ∃ (inp : List CChar) (c c' : TfsCommand),
    (tfsCommandParse inp).1 = .ok c ∧
    workerThreadFnParse (tfsClientServerConnectionSendCommand c) = .ok c' ∧
    c = .remove (List.replicate 510 (cchar 'a')) ∧ c' = .remove (List.replicate 509 (cchar 'a')) :=
  ⟨cstr "d " ++ List.replicate 510 (cchar 'a') ++ [newline], _, _, by decide +kernel,
    by decide +kernel, rfl, rfl⟩

/-! ## Paths with blanks -/

/-- The worker refuses the command: the first line of its arguments is not as many words as
the command has, and for a creation the second of them is no type. -/
def TfsCommand.Refused : TfsCommand → Prop
  | .create path type =>
      ∀ word ∈ (words isspace (firstLine (path ++ cchar ' ' :: [typeChar type])))[1]?,
        word ≠ [cchar 'f'] ∧ word ≠ [cchar 'd']
  | .search path => (words isspace (firstLine path)).length ≠ 1
  | .remove path => (words isspace (firstLine path)).length ≠ 1
  | .move source dest =>
      (words isspace (firstLine (source ++ cchar ' ' :: dest))).length < 2
  | .print path => (words isspace (firstLine path)).length ≠ 1

theorem take_two_eq_singleton {α : Type} {l : List α} {a : α} : l.take 2 = [a] ↔ l = [a] := by
  match l with
  | [] => simp
  | [_] => simp
  | _ :: _ :: _ => simp

theorem take_two_eq_pair {α : Type} {l : List α} {a b : α} :
    l.take 2 = [a, b] ↔ ∃ l', l = a :: b :: l' := by
  match l with
  | [] => simp
  | [_] => simp
  | _ :: _ :: _ => simp

/-- A command with one argument is refused unless that is a word. -/
theorem refused_one_iff {f : List CChar → TfsCommand} {path : List CChar}
    (hargs : ∀ a, (f a).args = [a]) (hchar : ∀ a, (f path).commandChar = (f a).commandChar)
    (htyped : ∀ a, (f a).Typed) (hnul : (f path).NulFree) (hlen : (f path).argText.length ≤ 509) :
    (words isspace (firstLine path)).length ≠ 1 ↔
      ∀ c', workerThreadFnParse (tfsClientServerConnectionSendCommand (f path)) ≠ .ok c' := by
  have htext : (f path).argText = path := by simp [TfsCommand.argText, hargs, List.intercalate]
  have hiff := fun c' => @parse_sent_eq_ok_iff _ c' hnul
  rw [List.take_of_length_le hlen, htext] at hiff
  constructor
  · intro hne c' hparse
    obtain ⟨hc, hwords, -⟩ := (hiff c').mp hparse
    have hone := TfsCommand.length_args_eq hc
    rw [hargs, List.length_singleton] at hone
    obtain ⟨a, ha⟩ := List.length_eq_one_iff.mp hone.symm
    rw [ha, take_two_eq_singleton] at hwords
    exact hne (by rw [hwords]; rfl)
  · intro hno hlen'
    obtain ⟨w, hw⟩ := List.length_eq_one_iff.mp hlen'
    exact hno (f w) ((hiff _).mpr ⟨hchar w, by rw [hw, hargs]; rfl, htyped w⟩)

/-- **What is refused.** -/
theorem refused_iff (hnul : c.NulFree) (hlen : c.argText.length ≤ 509) :
    c.Refused ↔ ∀ c', workerThreadFnParse (tfsClientServerConnectionSendCommand c) ≠ .ok c' := by
  cases c with
  | search path =>
    exact refused_one_iff (fun _ => rfl) (fun _ => rfl) (by simp [TfsCommand.Typed]) hnul hlen
  | remove path =>
    exact refused_one_iff (fun _ => rfl) (fun _ => rfl) (by simp [TfsCommand.Typed]) hnul hlen
  | print path =>
    exact refused_one_iff (fun _ => rfl) (fun _ => rfl) (by simp [TfsCommand.Typed]) hnul hlen
  | move source dest =>
    have htext : (TfsCommand.move source dest).argText = source ++ cchar ' ' :: dest := by
      simp [TfsCommand.argText, TfsCommand.args, List.intercalate]
    have hiff := fun c' => @parse_sent_eq_ok_iff _ c' hnul
    rw [List.take_of_length_le hlen, htext] at hiff
    rw [TfsCommand.Refused]
    constructor
    · intro hlt c' hparse
      obtain ⟨hc, hwords, -⟩ := (hiff c').mp hparse
      have htwo := TfsCommand.length_args_eq hc
      rw [← hwords, List.length_take] at htwo
      simp only [TfsCommand.args, List.length_cons, List.length_nil] at htwo
      omega
    · intro hno
      by_contra hge
      obtain ⟨a, b, l, hl⟩ : ∃ a b l,
          words isspace (firstLine (source ++ cchar ' ' :: dest)) = a :: b :: l := by
        rcases hws : words isspace (firstLine (source ++ cchar ' ' :: dest)) with _ | ⟨a, _ | ⟨b, l⟩⟩
        · simp [hws] at hge
        · simp [hws] at hge
        · exact ⟨a, b, l, rfl⟩
      exact hno (.move a b) ((hiff _).mpr ⟨rfl, by rw [hl]; rfl, by simp [TfsCommand.Typed]⟩)
  | create path type =>
    have htext : (TfsCommand.create path type).argText = path ++ cchar ' ' :: [typeChar type] := by
      simp [TfsCommand.argText, TfsCommand.args, List.intercalate]
    have hiff := fun c' => @parse_sent_eq_ok_iff _ c' hnul
    rw [List.take_of_length_le hlen, htext] at hiff
    rw [TfsCommand.Refused]
    generalize words isspace (firstLine (path ++ cchar ' ' :: [typeChar type])) = ws at hiff ⊢
    constructor
    · intro hnotype c' hparse
      obtain ⟨hc, hwords, htyped⟩ := (hiff c').mp hparse
      cases c' with
      | create path' type' =>
        obtain ⟨l, rfl⟩ := take_two_eq_pair.mp hwords
        obtain ⟨hf, hd⟩ := hnotype [typeChar type'] rfl
        have htype := htyped path' type' rfl
        cases type' with
        | none => exact htype rfl
        | file => exact hf rfl
        | dir => exact hd rfl
      | search | remove | move | print =>
        exact absurd hc (by simp only [TfsCommand.commandChar]; decide)
    · intro hno word hword
      have hcreate : ∀ type', type' ≠ .none → word ≠ [typeChar type'] := by
        rintro type' htype' rfl
        obtain ⟨a, l, rfl⟩ : ∃ a l, ws = a :: [typeChar type'] :: l := by
          rcases ws with _ | ⟨a, _ | ⟨b, l⟩⟩
          · simp at hword
          · simp at hword
          · obtain rfl : b = [typeChar type'] := by simpa using hword
            exact ⟨a, l, rfl⟩
        refine hno (.create a type') ((hiff _).mpr ⟨rfl, rfl, ?_⟩)
        rintro path₀ type₀ heq
        obtain ⟨-, rfl⟩ := TfsCommand.create.inj heq
        exact htype'
      exact ⟨hcreate .file (by simp), hcreate .dir (by simp)⟩

theorem ApiCall.nulFree_of_command {call : ApiCall} (hvalid : call.Valid)
    (hc : call.command = some c) : c.NulFree ∧ c.Typed := by
  have hone : ∀ {arg : List CChar}, TecnicoFs.NulFree arg →
      ∀ arg' ∈ [arg], TecnicoFs.NulFree arg' := fun h arg' harg' =>
    List.mem_singleton.mp harg' ▸ h
  cases call with
  | tfsCreate path type =>
    have hnul : ∀ type', ∀ arg ∈ (TfsCommand.create path type').args, TecnicoFs.NulFree arg := by
      intro type' arg harg
      rcases List.mem_cons.mp harg with rfl | harg
      · exact hvalid
      · rw [List.mem_singleton.mp harg]
        cases type' <;> decide
    have htyped : ∀ type', type' ≠ .none → (TfsCommand.create path type').Typed := by
      rintro type' htype' path₀ type₀ heq
      obtain ⟨-, rfl⟩ := TfsCommand.create.inj heq
      exact htype'
    rw [command] at hc
    split at hc
    · obtain rfl := Option.some.inj hc
      exact ⟨hnul .file, htyped .file (by simp)⟩
    · split at hc
      · obtain rfl := Option.some.inj hc
        exact ⟨hnul .dir, htyped .dir (by simp)⟩
      · cases hc
  | tfsDelete path =>
    obtain rfl := Option.some.inj hc
    exact ⟨hone hvalid, fun _ _ heq => nomatch heq⟩
  | tfsLookup path =>
    obtain rfl := Option.some.inj hc
    exact ⟨hone hvalid, fun _ _ heq => nomatch heq⟩
  | tfsPrint path =>
    obtain rfl := Option.some.inj hc
    exact ⟨hone hvalid, fun _ _ heq => nomatch heq⟩
  | tfsMove src dest =>
    obtain rfl := Option.some.inj hc
    refine ⟨fun arg harg => ?_, fun _ _ heq => nomatch heq⟩
    rcases List.mem_cons.mp harg with rfl | harg
    · exact hvalid.1
    · exact hone hvalid.2 arg harg

/-- **The API can be made to send another command.**  For a call with a printed form of at most
511 bytes, the worker runs the command of the call or none if and only if no argument has
a blank or the command is `Refused`. -/
theorem api_sent_iff {call : ApiCall} (hvalid : call.Valid) {c : TfsCommand}
    (hc : call.command = some c) (hlen : (tfsCommandToString c 1024).length ≤ 511) :
    (∀ c', workerThreadFnParse (tfsClientServerConnectionSendCommand c) = .ok c' → c' = c) ↔
      c.BlankFree ∨ c.Refused := by
  obtain ⟨hnul, htyped⟩ := ApiCall.nulFree_of_command hvalid hc
  replace hlen := (length_toString_le_iff hnul).mp hlen
  rw [refused_iff hnul hlen]
  constructor
  · intro hall
    by_contra hnot
    rw [not_or, not_forall] at hnot
    obtain ⟨hblank, c', hparse⟩ := hnot
    rw [not_not] at hparse
    -- what is parsed has no blanks, and it is `c`
    obtain rfl := hall c' hparse
    obtain ⟨-, hwords, -⟩ := (parse_sent_eq_ok_iff hnul).mp hparse
    refine hblank fun arg harg => ?_
    rw [← hwords] at harg
    exact (of_mem_words (List.mem_of_mem_take harg)).2.1
  · rintro (hblank | hno) c' hparse
    · exact hblank.eq_of_parse hnul htyped hlen hparse
    · exact absurd hparse (hno c')

theorem api_sent_iff_lookup : (TfsCommand.search (cstr "/a b")).BlankFree ∨
    (TfsCommand.search (cstr "/a b")).Refused :=
  (@api_sent_iff (.tfsLookup (cstr "/a b")) (by unfold ApiCall.Valid; decide) _ rfl
    (by decide)).mp fun c' hparse => by
      have herr : workerThreadFnParse (tfsClientServerConnectionSendCommand
          (.search (cstr "/a b"))) = .error .missingSearchArgs := by decide
      exact absurd (hparse.symm.trans herr) (by simp)

/-- **A blank moves the boundaries of the arguments.**  The call `tfsMove("/a b", "/c")` makes
the server move `/a` to `b`. -/
theorem exists_shifted_move : ∃ (call : ApiCall) (c c' : TfsCommand), call.Valid ∧
    call = .tfsMove (cstr "/a b") (cstr "/c") ∧ call.command = some c ∧
    (tfsCommandToString c 1024).length ≤ 511 ∧
    workerThreadFnParse (tfsClientServerConnectionSendCommand c) = .ok c' ∧
    c' = .move (cstr "/a") (cstr "b") ∧ c' ≠ c :=
  ⟨.tfsMove (cstr "/a b") (cstr "/c"), _, _, ⟨by decide, by decide⟩, rfl, rfl,
    by decide, by decide, rfl, by decide⟩

end TecnicoFs
