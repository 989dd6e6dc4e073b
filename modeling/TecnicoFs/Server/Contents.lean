import TecnicoFs.Server.Linearizable
import TecnicoFs.Spec.MapCalls

/-!
# What clients see

To its clients the server is a map from paths to files and directories.  If what they send
fits into a datagram and all moves are plain, every call returns what it would have
returned had the calls been made one after the other on the map (`server_refines_map`), and
once no call is under way the tree of the server is that map.
-/

namespace TecnicoFs

open Interleaving Function Graph

/-! ## Histories of the map -/

/-- Calls that are made one after the other on a map, and whether they succeed. -/
inductive MapHistory {ι : Type} (task : ι → Option Task) (f₀ : FileMap) :
    List (ι × Bool) → FileMap → Prop where
  | nil : MapHistory task f₀ [] f₀
  | done {history : List (ι × Bool)} {f : FileMap} {r : ι} {c : Call}
      (h : MapHistory task f₀ history f) (hc : task r = some (.call c)) (hcan : f.Can c) :
      MapHistory task f₀ (history ++ [(r, true)]) (f.after c)
  | refused {history : List (ι × Bool)} {f : FileMap} {r : ι} {c : Call}
      (h : MapHistory task f₀ history f) (hc : task r = some (.call c)) (hcan : ¬f.Can c) :
      MapHistory task f₀ (history ++ [(r, false)]) f

/-- In a history there are calls only. -/
theorem MapHistory.exists_call_of_mem {ι : Type} {task : ι → Option Task} {f₀ f : FileMap}
    {history : List (ι × Bool)} (h : MapHistory task f₀ history f) {r : ι}
    (hr : r ∈ history.map Prod.fst) : ∃ c, task r = some (.call c) := by
  have hsnoc : ∀ {history : List (ι × Bool)} {r' : ι} {ok : Bool} {c : Call},
      task r' = some (.call c) →
      (r ∈ history.map Prod.fst → ∃ c, task r = some (.call c)) →
      r ∈ (history ++ [(r', ok)]).map Prod.fst → ∃ c, task r = some (.call c) := by
    intro history r' ok c hc ih hr
    rw [List.map_append, List.mem_append] at hr
    rcases hr with hr | hr
    · exact ih hr
    · rw [List.mem_singleton.mp hr]
      exact ⟨c, hc⟩
  induction h with
  | nil => cases hr
  | done _ hc _ ih => exact hsnoc hc ih hr
  | refused _ hc _ ih => exact hsnoc hc ih hr

/-- **A history of the tree is one of its map.** -/
theorem AtomicHistory.mapHistory {ι : Type} {capacity : Nat} {task : ι → Option Task}
    {T₀ T : Tree} {history : List (ι × Outcome)} (h : AtomicHistory capacity task T₀ history T)
    (hT : TreeInv capacity T₀) (hnamed : Named T₀) (hblank : BlankFree T₀)
    (htask : ∀ r c, task r = some (.call c) → c.Valid ∧ c.Plain) :
    MapHistory task (treeMap T₀) (history.map fun x => (x.1, x.2.isOk)) (treeMap T) ∧
      TreeInv capacity T ∧ Named T ∧ BlankFree T := by
  induction h with
  | nil => exact ⟨.nil, hT, hnamed, hblank⟩
  | @snoc history T r slot c _ hc hfit ih =>
    obtain ⟨hmap, hT, hnamed, hblank⟩ := ih
    obtain ⟨hvalid, hplain⟩ := htask r c hc
    refine ⟨?_, atomic_treeInv hT hvalid hfit,
      atomic_named hT hnamed hblank hvalid hfit hplain.not_renamesToBlank,
      atomic_blankFree hblank hvalid⟩
    have hiff := atomic_ok_iff_can hT hvalid hfit hplain hnamed hblank
    rw [List.map_append, List.map_singleton]
    cases hout : (atomic T slot c).outcome with
    | error kind =>
      rw [atomic_failsClean slot c kind hout]
      refine hmap.refused hc fun hcan => ?_
      obtain ⟨i, hi⟩ := hiff.mpr hcan
      rw [hout] at hi
      cases hi
    | ok i =>
      rw [treeMap_atomic hT hvalid hfit hplain hnamed hout]
      exact hmap.done hc (hiff.mp ⟨i, hout⟩)

/-! ## Clients that are understood -/

/-- What is sent for the command fits into a datagram, and a move is plain. -/
structure TfsCommand.Proper (c : TfsCommand) : Prop where
  parsed : c.Parsed
  length_le : c.argText.length ≤ 509
  plain : ∀ source dest, c = .move source dest → PlainMove ⟨0, source⟩ ⟨0, dest⟩

variable {κ ω : Type} {fs : TfsFs} {limit : Nat} {address : κ × Nat → Nat × Nat}
  {clients : Clients κ}

/-- The task of the command of a call. -/
def Clients.asked (clients : Clients κ) (address : κ × Nat → Nat × Nat) (r : κ × Nat) :
    Option Task :=
  (clients.command r).map fun command => command.task (address r).1 (address r).2

theorem mem_of_command {r : κ × Nat} {command : TfsCommand}
    (h : clients.command r = some command) : some command ∈ clients r.1 := by
  rw [Clients.command, Option.join_eq_some_iff] at h
  exact List.mem_of_getElem? h

theorem length_sent {k : κ} : (clients.datagrams.sent k).length = (clients k).length :=
  List.length_map ..

theorem lt_of_asked {r : κ × Nat} {task : Task} (h : clients.asked address r = some task) :
    r.2 < (clients r.1).length := by
  obtain ⟨command, hcommand, -⟩ := Option.map_eq_some_iff.mp h
  exact (List.getElem?_eq_some_iff.mp (Option.join_eq_some_iff.mp hcommand)).1

/-- The server runs the commands that it is sent. -/
theorem served_eq_asked (hproper : ∀ k, ∀ command, some command ∈ clients k → command.Proper) :
    clients.datagrams.served address = clients.asked address := by
  funext r
  rw [Datagrams.served, request_datagrams, Clients.asked]
  cases h : clients.command r with
  | none => rfl
  | some command =>
    have hcommand := hproper _ _ (mem_of_command h)
    rw [Option.map_some, Option.map_some, Option.map_some,
      hcommand.parsed.parse_sent hcommand.length_le]

theorem plain_of_asked (hproper : ∀ k, ∀ command, some command ∈ clients k → command.Proper)
    {r : κ × Nat} {c : Call} (h : clients.asked address r = some (.call c)) :
    c.Valid ∧ c.Plain := by
  obtain ⟨command, hcommand, htask⟩ := Option.map_eq_some_iff.mp h
  have hp := hproper _ _ (mem_of_command hcommand)
  refine ⟨?_, ?_⟩
  · have hvalid := hp.parsed.valid (address r).1 (address r).2
    rwa [htask] at hvalid
  · rintro origPath destPath access rfl
    cases command with
    | move source dest =>
      obtain ⟨rfl, rfl, -⟩ := Call.move.inj (Task.call.inj htask)
      have hmove := hp.plain source dest rfl
      exact ⟨hmove.notBelow, hmove.notAbove, hmove.orig, hmove.dest⟩
    | create path type => cases htask
    | search path => cases htask
    | remove path => cases htask
    | print path => cases htask

/-! ## The server -/

/-- The calls on a new server are calls on the map of a new file system. -/
theorem AtomicHistory.mapHistory_of_new [DecidableEq κ] {m : Mem (κ × Nat)}
    {history : List ((κ × Nat) × Outcome)} {T : Tree}
    (h : AtomicHistory fs.inodeTable.capacity (clients.datagrams.served address) m.node history T)
    (hproper : ∀ k, ∀ command, some command ∈ clients k → command.Proper) {t : κ × Nat}
    {canOpen : List CChar → Bool} {file : List CChar → List CChar}
    (hnew : tfsFsNew.run (machine (κ × Nat)) t (Mem.zero canOpen file) = some (fs, m)) :
    MapHistory (clients.asked address) .new (history.map fun x => (x.1, x.2.isOk)) (treeMap T) ∧
      TreeInv fs.inodeTable.capacity T ∧ Named T := by
  have hserved := @served_eq_asked _ address _ hproper
  obtain ⟨hT, -⟩ := tree_of_new hnew
  obtain ⟨-, rfl⟩ := Prod.mk.inj (Option.some.inj ((run_tfsFsNew ..).symm.trans hnew))
  obtain ⟨hmap, hT', hnamed, -⟩ := h.mapHistory hT named_single blankFree_single
    fun r c hc => plain_of_asked hproper (hserved ▸ hc)
  rw [← treeMap_single, ← hserved]
  exact ⟨hmap, hT', hnamed⟩

/-- What a client is told of a call on the tree. -/
theorem Linearization.exists_ok {m : Mem (κ × Nat)} {tr : List (Service.Event κ)}
    {s : ServerState κ ω} {history : List ((κ × Nat) × Outcome)} {T : Tree}
    (hlin : Linearization fs address clients.datagrams m tr s history T)
    (hproper : ∀ k, ∀ command, some command ∈ clients k → command.Proper) {k : κ} {n : Nat}
    {a : CChar} {c : Call} (ha : (s.results k)[n]? = some (.answered a))
    (hlost : .lost ∉ (s.results k).take n)
    (hc : clients.asked address (k, n) = some (.call c)) :
    ∃ ok, ((k, n), ok) ∈ history.map (fun x => (x.1, x.2.isOk)) ∧
      apiReturn (.answered a) = if ok then 0 else 2 := by
  have hanswer := hlin.answers k n a ha hlost
  rw [Datagrams.AnswersTo, served_eq_asked hproper, hc] at hanswer
  obtain ⟨outcome, hmem, rfl⟩ := hanswer
  refine ⟨outcome.isOk, List.mem_map_of_mem (f := fun x => (x.1, x.2.isOk)) hmem, ?_⟩
  cases outcome.isOk <;> rfl

theorem map_fst_isOk {ι : Type} (history : List (ι × Outcome)) :
    (history.map fun x => (x.1, x.2.isOk)).map Prod.fst = history.map Prod.fst := by
  rw [List.map_map]
  rfl

variable [DecidableEq κ] [DecidableEq ω] {m : Mem (κ × Nat)} {tr : List (Service.Event κ)}
  {s : ServerState κ ω}

/-- **The calls of clients that were all answered**, in an order in which they succeed on the
map as the clients were told. -/
theorem exists_history_of_answered
    (hproper : ∀ k, ∀ command, some command ∈ clients k → command.Proper) {t : κ × Nat}
    {canOpen : List CChar → Bool} {file : List CChar → List CChar}
    (hnew : tfsFsNew.run (machine (κ × Nat)) t (Mem.zero canOpen file) = some (fs, m))
    (h : ServerRun fs limit address clients.datagrams m tr s)
    (hcomplete : s.Complete clients.datagrams.sent)
    (hanswered : ∀ k, ∀ x ∈ s.results k, ∃ a, x = .answered a) :
    ∃ history, MapHistory (clients.asked address) .new history (treeMap s.mem.node) ∧
      (history.map Prod.fst).Nodup ∧
      (∀ r, r ∈ history.map Prod.fst ↔ ∃ c, clients.asked address r = some (.call c)) ∧
      (∀ k n n' l₁ l₂, history.map Prod.fst = l₁ ++ (k, n') :: l₂ → n < n' →
        (∃ c, clients.asked address (k, n) = some (.call c)) → (k, n) ∈ l₁) ∧
      ∀ r ok, (r, ok) ∈ history →
        (s.results r.1)[r.2]? = some (.answered (if ok then 1 else 0)) := by
  obtain ⟨hT, hlocks⟩ := tree_of_new hnew
  obtain ⟨history, T, hlin⟩ := exists_linearization_of_run hT hlocks h
  have hserved := @served_eq_asked _ address _ hproper
  have hmap := (hlin.atomic.mapHistory_of_new hproper hnew).1
  rw [← hlin.idle hcomplete.idle] at hmap
  have hfst := map_fst_isOk history
  -- every call was answered, as the history says
  have hresult : ∀ r c, clients.asked address r = some (.call c) → ∃ a,
      (s.results r.1)[r.2]? = some (.answered a) ∧
        ∃ outcome, (r, outcome) ∈ history ∧ a = if outcome.isOk then 1 else 0 := by
    intro r c hc
    have hlt : r.2 < (s.results r.1).length := by
      rw [hcomplete.ended, length_sent]
      exact lt_of_asked hc
    obtain ⟨a, ha⟩ := hanswered r.1 _ (List.getElem_mem hlt)
    have hget : (s.results r.1)[r.2]? = some (.answered a) := by
      rw [List.getElem?_eq_getElem hlt, ha]
    have hanswer := hlin.answers r.1 r.2 a hget fun hmem => by
      obtain ⟨b, hb⟩ := hanswered r.1 _ (List.mem_of_mem_take hmem)
      cases hb
    rw [Datagrams.AnswersTo, hserved, hc] at hanswer
    exact ⟨a, hget, hanswer⟩
  refine ⟨_, hmap, hfst ▸ hlin.nodup, fun r => ⟨hmap.exists_call_of_mem, ?_⟩,
    fun k n n' l₁ l₂ hl hlt hc => ?_, fun r ok hmem => ?_⟩
  · rintro ⟨c, hc⟩
    obtain ⟨a, -, outcome, hmem, -⟩ := hresult r c hc
    rw [hfst]
    exact List.mem_map_of_mem hmem
  · obtain ⟨c, hc⟩ := hc
    obtain ⟨a, -, outcome, hmem, -⟩ := hresult (k, n) c hc
    refine hlin.client_order h (fun i hi => ?_) (List.mem_map_of_mem hmem) hlt (hfst ▸ hl)
    obtain ⟨b, hb⟩ := hanswered k _ (List.mem_of_getElem? ((h.results_iff k i).2.mp hi))
    cases hb
  · obtain ⟨⟨r', outcome⟩, hdone, heq⟩ := List.mem_map.mp hmem
    obtain ⟨rfl, rfl⟩ := Prod.mk.inj heq
    obtain ⟨c, hc⟩ := hmap.exists_call_of_mem (List.mem_map_of_mem (f := Prod.fst) hmem)
    obtain ⟨a, ha, outcome', hdone', rfl⟩ := hresult r' c hc
    obtain rfl := (Prod.mk.inj (List.inj_on_of_nodup_map hlin.nodup hdone hdone' rfl)).2
    exact ha

/-- A command other than a move that was parsed and is short is proper. -/
theorem proper_of_parse {inp rest : List CChar} {command : TfsCommand}
    (h : tfsCommandParse inp = (.ok command, rest)) (hlen : command.argText.length ≤ 509)
    (hmove : ∀ source dest, command ≠ .move source dest) : command.Proper :=
  ⟨parsed_of_parse h, hlen, fun source dest heq => absurd heq (hmove source dest)⟩

theorem proper_sharingClients (k : Bool) (command : TfsCommand)
    (h : some command ∈ sharingClients k) : command.Proper := by
  cases k with
  | true =>
    rcases List.mem_cons.mp h with h | h
    · obtain rfl := Option.some.inj h
      exact @proper_of_parse (cstr "c /a d\n") [] _ (by decide) (by decide)
        (by simp)
    · obtain rfl := Option.some.inj (List.mem_singleton.mp h)
      exact @proper_of_parse (cstr "l /a/f\n") [] _ (by decide) (by decide)
        (by simp)
  | false =>
    obtain rfl := Option.some.inj (List.mem_singleton.mp h)
    exact @proper_of_parse (cstr "c /a/f f\n") [] _ (by decide) (by decide)
      (by simp)

end TecnicoFs
