import TecnicoFs.Concurrent.Contract
import TecnicoFs.Fs.Arrays

/-!
# Safety

Two things that hold in every reachable configuration, whatever the order of the steps.
No call touches an inode that is not there: what is locked is in range and in use, what
is unlocked is held, and a slot whose number a call has read from a directory stays what
it was until the call has its lock.  And while a listing holds the root, no step of any
other thread changes an inode that can be reached from the root.
-/

namespace TecnicoFs

open Interleaving Function Graph

variable {ι : Type} [DecidableEq ι]

/-- Thread `t` has read the number of slot `idx` from a directory, or knows it as the root,
and has not locked the slot yet. -/
def Pending (t : ι) (idx : Nat) (c : Config Op Op.Resp ι (Mem ι) Reply) : Prop :=
  (∃ holds, c.At t (.assert (.lockRange idx) holds)) ∨ ∃ access, c.At t (.lock idx access)

namespace Setup

variable {S : Setup ι} {t u : ι} {w : FsWorld ι} {i idx : Nat} {a : TfsRwLockAccess}
  {c c' : Config Op Op.Resp ι (Mem ι) Reply}

omit [DecidableEq ι] in
/-- A slot of the tree has the type that the tree says. -/
theorem Inv.type_eq (hi : S.Inv w) (hlive : w.ghost.tree i ≠ .none) :
    (w.mem.node i).type = (w.ghost.tree i).type := by
  rcases hi.node i with h | ⟨u, -, -, h | ⟨-, h⟩⟩
  · rw [h]
  · exact absurd h hlive
  · exact h

/-- What an action in order does to a slot of the tree: it keeps its type. -/
theorem Inv.type_step (hi : S.Inv w) {o : Op} {r : o.Resp} {s : Mem ι} (hpre : S.Pre u o w)
    (he : (machine ι).exec u o w.mem = some (r, s)) (hlive : w.ghost.tree i ≠ .none) :
    (s.node i).type = (w.mem.node i).type := by
  rcases exec_node he with h | ⟨j, node, rfl, rfl⟩
  · rw [h]
  · by_cases hj : i = j
    · subst hj
      obtain ⟨-, -, hnone | ⟨-, htype⟩⟩ := hpre
      · exact absurd hnone hlive
      · rw [Mem.setNode_self, htype, hi.type_eq hlive]
    · rw [Mem.setNode_of_ne hj]

omit [DecidableEq ι] in
/-- What can be reached from the root is part of the tree, while a listing holds it. -/
theorem Inv.live_of_walk (hi : S.Inv w) (hroot : (t, .unique) ∈ w.mem.locks 0)
    (hcalls : ¬S.Calls t) {cs : List (List CChar)} (hwalk : Walk (Child w.mem.node) 0 cs i) :
    w.ghost.tree i ≠ .none := by
  induction cs using List.reverseRecOn generalizing i with
  | nil =>
    rw [← Walk.nil_iff.mp hwalk]
    exact hi.treeInv.tree.live_root
  | append_singleton cs c ih =>
    obtain ⟨k, wk, h⟩ := Walk.snoc_iff.mp hwalk
    exact hi.treeInv.live_of_child ((Child.congr (hi.node_eq_of_root hroot hcalls (ih wk))).mp h)

/-- The request that a thread is about to make. -/
theorem exists_asks (hg : S.contract.Good c w) (h : Pending t idx c) :
    ∃ access, S.Asks t idx access w := by
  rcases h with ⟨holds, hat⟩ | ⟨access, hat⟩
  · exact (hg.pre hat).2
  · exact ⟨access, hg.pre hat⟩

omit [DecidableEq ι] in
/-- The slot that is asked for is the root, or in a directory that is held. -/
theorem Asks.linked (h : S.Asks t idx a w) (hi : S.Inv w) :
    idx = 0 ∨ ∃ p b d name, (t, b) ∈ w.mem.locks p ∧ w.mem.node p = .dir d ∧
      (name, idx) ∈ d.children := by
  obtain ⟨done, r, todo, held, hplan, hmade, hr, -, howns, hnode, -⟩ := h
  have hfollows := (S.task t).extends_plan (S.valid t) done r todo hplan
  have w₀ := (locate_eq_ok_iff hi.treeInv hfollows.nulFree).mp hr.1
  rcases List.eq_nil_or_concat' r.path with hnil | ⟨pre, name, hpath⟩
  · rw [hnil, Walk.nil_iff] at w₀
    exact Or.inl w₀.symm
  · -- the directory above it was asked for before
    obtain ⟨r', hr', rfl⟩ := hfollows.covered pre name [] hpath
    obtain ⟨p, hp, hmem⟩ := hmade.exists_held (by simpa using hr')
    rw [hpath] at w₀
    obtain ⟨k, wk, d, hd, hchild⟩ := Walk.snoc_iff.mp w₀
    have hnul : ∀ c ∈ r'.path, NulFree c := fun c hc =>
      hfollows.nulFree c (hpath ▸ List.mem_append_left _ hc)
    obtain rfl : p = k := hi.treeInv.tree.walk_end ((locate_eq_ok_iff hi.treeInv hnul).mp hp) wk
    exact Or.inr ⟨p, _, d, name, (howns p _).mpr hmem, (hnode _ hmem).trans hd, hchild⟩

theorem pending_type (hg : S.contract.Good c w) (h : Pending t idx c) {e : Event ι}
    (hs : Step (machine ι) (fun t => (S.task t).prog S.fs) c e c') :
    (c'.mem.node idx).type = (c.mem.node idx).type := by
  obtain ⟨access, hasks⟩ := exists_asks hg h
  have hlive := hasks.live hg.inv
  cases hs with
  | invoke => rfl
  | respond => rfl
  | @action u o k r s hu he =>
    have hpre := hg.pre ⟨k, hu⟩
    rw [← hg.mem] at he ⊢
    exact hg.inv.type_step hpre he hlive

/-- A thread can rely on the steps of the others. -/
theorem exists_rely (hg : S.contract.Good c w) {e : Event ι} (he : e.thread ≠ t)
    (hs : Step (machine ι) (fun t => (S.task t).prog S.fs) c e c') :
    ∃ w', S.contract.Good c' w' ∧ Rely t w w' := by
  obtain ⟨w', hg', hmoves⟩ := hg.step hs
  refine ⟨w', hg', ?_⟩
  cases hs with
  | invoke => exact (show w' = w from hmoves) ▸ Rely.refl t w
  | action => exact hmoves.rely t he.symm
  | respond => exact hmoves.rely t he.symm

/-- **No step of another thread changes what a listing that holds the root can reach.** -/
theorem node_step (hg : S.contract.Good c w) (ht : S.Prints t)
    (hroot : (t, .unique) ∈ c.mem.locks 0) {e : Event ι} (he : e.thread ≠ t)
    (hs : Step (machine ι) (fun t => (S.task t).prog S.fs) c e c') {cs : List (List CChar)}
    (hwalk : Walk (Child c.mem.node) 0 cs i) : c'.mem.node i = c.mem.node i := by
  obtain ⟨w', hg', hrely⟩ := exists_rely hg he hs
  rw [← hg.mem] at hroot hwalk ⊢
  rw [← hg'.mem]
  have hcalls : ¬S.Calls t := by
    rintro ⟨call, hcall⟩
    obtain ⟨fileName, ht⟩ := ht
    rw [ht] at hcall
    cases hcall
  exact hrely.rootNode hroot i (hg.inv.live_of_walk hroot hcalls hwalk)

end Setup

/-! ## Arrays -/

omit [DecidableEq ι] in
/-- What the others do leaves alone what a call holds. -/
theorem Setup.Rely.keepsHeld {t : ι} {w w' : FsWorld ι} (h : Setup.Rely t w w') :
    w.mem.KeepsHeld t w'.mem :=
  ⟨fun i a => (h.locks i a).mpr, fun i a hi => congrArg TfsInode.type (h.node i a hi)⟩

/-- **In every interleaving** of calls and listings the arrays of every call are in bounds. -/
theorem call_inBounds {fs : TfsFs} {task : ι → Task} (hvalid : ∀ t, (task t).Valid)
    {m : Mem ι} (hT : TreeInv fs.inodeTable.capacity m.node) (hlocks : ∀ i, m.locks i = [])
    {tr : List (Event ι)} {c : Config Op Op.Resp ι (Mem ι) Reply}
    (hrun : Run (machine ι) (fun t => (task t).prog fs) (.initial m) tr c) {t : ι} {call : Call}
    (ht : task t = .call call) {p : TfsProg Reply} (hp : c.thread t = .running p) :
    InBounds p := by
  have henv : ∀ tr' c₁ e c₂, Run (machine ι) (fun t => (task t).prog fs) (.initial m) tr' c₁ →
      Step (machine ι) (fun t => (task t).prog fs) c₁ e c₂ → e.thread ≠ t →
      c₁.mem.KeepsHeld t c₂.mem := by
    intro tr' c₁ e c₂ hrun' hs hne
    obtain ⟨w₁, hg₁⟩ := exists_good_of_run hvalid hT hlocks hrun'
    obtain ⟨w₂, hg₂, hrely⟩ := Setup.exists_rely hg₁ hne hs
    rw [← hg₁.mem, ← hg₂.mem]
    exact hrely.keepsHeld
  obtain ⟨m₀, hreach⟩ := hrun.exists_reaches henv hp
  rw [ht] at hreach
  exact (Defined.prog call).inBounds hreach

/-! ## Dead inodes -/

/-- **No call ever touches a dead inode.**  In whatever order the steps of the calls on a
new file system come: a slot that was just locked is in range, in use, and locked; a slot
that is about to be unlocked is in range, in use, and locked by the caller; no assertion
fails, but for the one that a slot is left; and as long as a call has the number of a
slot and not yet its lock, the slot is the root or is still in a directory the call
holds, and it is not emptied and keeps its type. -/
theorem never_dead {call : ι → Call} (hvalid : ∀ t, (call t).Valid) {t₀ : ι}
    {canOpen : List CChar → Bool} {file : List CChar → List CChar} {fs : TfsFs} {m : Mem ι}
    (hnew : tfsFsNew.run (machine ι) t₀ (Mem.zero canOpen file) = some (fs, m))
    {tr : List (Event ι)} {c : Config Op Op.Resp ι (Mem ι) Reply}
    (hrun : Run (machine ι) (fun t => (call t).prog fs) (.initial m) tr c) (t : ι) :
    (∀ idx access k m', c.thread t = .running (.act (.lock idx access) k) →
      (machine ι).exec t (.lock idx access) c.mem = some ((), m') →
      idx < fs.inodeTable.capacity ∧ m'.node idx ≠ .none ∧ (t, access) ∈ m'.locks idx) ∧
    (∀ idx holds, c.At t (.assert (.unlockRange idx) holds) →
      idx < fs.inodeTable.capacity ∧ c.mem.node idx ≠ .none ∧ ∃ a, (t, a) ∈ c.mem.locks idx) ∧
    (∀ site holds, c.At t (.assert site holds) → site ≠ .addFull → holds = true) ∧
    ∀ idx, Pending t idx c →
      (idx = 0 ∨ ∃ p a d name, (t, a) ∈ c.mem.locks p ∧ c.mem.node p = .dir d ∧
        (name, idx) ∈ d.children) ∧
      ∀ c', RunWhile (machine ι) (fun t => (call t).prog fs) (Pending t idx) c c' →
        c'.mem.node idx ≠ .none ∧ (c'.mem.node idx).type = (c.mem.node idx).type := by
  obtain ⟨hT, hlocks⟩ := tree_of_new hnew
  have hgood : ∀ {tr' : List (Event ι)} {c' : Config Op Op.Resp ι (Mem ι) Reply},
      Run (machine ι) (fun t => (call t).prog fs) (.initial m) tr' c' →
      ∃ w, (Setup.ofMem fs (fun t => .call (call t)) hvalid m hT).contract.Good c' w :=
    fun hrun' => @exists_good_of_run ι _ fs (fun t => .call (call t)) hvalid m hT hlocks _ _ hrun'
  have hlive : ∀ {tr' : List (Event ι)} {c' : Config Op Op.Resp ι (Mem ι) Reply} {idx : Nat},
      Run (machine ι) (fun t => (call t).prog fs) (.initial m) tr' c' → Pending t idx c' →
      c'.mem.node idx ≠ .none := by
    intro tr' c' idx hrun' hpend
    obtain ⟨w, hg⟩ := hgood hrun'
    obtain ⟨access, hasks⟩ := Setup.exists_asks hg hpend
    exact hg.mem ▸ hg.inv.node_ne_none (hasks.live hg.inv)
  obtain ⟨w, hg⟩ := hgood hrun
  have hmem := hg.mem
  refine ⟨fun idx access k m' hthread he => ?_, fun idx holds hat => ?_,
    fun site holds hat hsite => ?_, fun idx hpend => ⟨?_, fun c' hwhile => ?_⟩⟩
  · obtain ⟨-, rfl⟩ := exec_lock he
    have hasks : (Setup.ofMem fs (fun t => .call (call t)) hvalid m hT).Asks t idx access w :=
      hg.pre ⟨k, hthread⟩
    have hnode := hg.inv.treeInv.bound (hasks.live hg.inv)
    exact ⟨hnode, hlive hrun (Or.inr ⟨access, k, hthread⟩), by simp⟩
  · exact hmem ▸ (hg.pre hat).2
  · exact Setup.holds_of_pre (hg.pre hat) hsite
  · obtain ⟨access, hasks⟩ := Setup.exists_asks hg hpend
    exact hmem ▸ hasks.linked hg.inv
  · refine ⟨?_, ?_⟩
    · obtain ⟨tr', hrun'⟩ := hwhile.exists_run hrun
      exact hlive hrun' hwhile.last
    · induction hwhile with
      | nil => rfl
      | snoc h hs _ ih =>
        obtain ⟨tr', hrun'⟩ := h.exists_run hrun
        obtain ⟨w', hg'⟩ := hgood hrun'
        exact (Setup.pending_type hg' h.last hs).trans ih

/-- A call that has locked the root. -/
theorem exists_never_dead : ∃ (fs : TfsFs) (m m' : Mem Nat) (tr : List (Event Nat))
    (c : Config Op Op.Resp Nat (Mem Nat) Reply) (k : Unit → TfsProg Reply),
    tfsFsNew.run (machine Nat) 0 (Mem.zero (fun _ => true) fun _ => []) = some (fs, m) ∧
    Run (machine Nat) (fun _ => (Call.remove ⟨0, cstr "/a"⟩).prog fs) (.initial m) tr c ∧
    c.thread 0 = .running (.act (.lock 0 .unique) k) ∧
    (machine Nat).exec 0 (.lock 0 .unique) c.mem = some ((), m') ∧ m'.node 0 ≠ .none := by
  have hnew := run_tfsFsNew (0 : Nat) (fun _ => true) fun _ => []
  generalize hm : (Mem.zero (fun _ => true) fun _ => []).setNode 0 (.dir tfsInodeDirNew) = m at hnew
  have hafter : ((Config.initial m).after (machine Nat)
      (fun _ => (Call.remove ⟨0, cstr "/a"⟩).prog ⟨⟨128⟩⟩) [0, 0]).map
        (fun c => (c.op 0, c.mem.locks 0)) = some (some (.lock 0 .unique), []) := by
    subst hm
    decide
  obtain ⟨c, hc, hop⟩ := Option.map_eq_some_iff.mp hafter
  obtain ⟨hop, hlocks⟩ := Prod.mk.inj hop
  obtain ⟨tr, -, hrun⟩ := Run.nil.exists_after hc
  obtain ⟨k, hk⟩ := Config.at_of_op hop
  have hexec : (machine Nat).exec 0 (.lock 0 .unique) c.mem =
      some ((), c.mem.setLocks 0 ((0, .unique) :: c.mem.locks 0)) := if_pos hlocks
  have hdead := @never_dead Nat _ (fun _ => Call.remove ⟨0, cstr "/a"⟩)
    (fun _ => by decide) _ _ _ _ _ hnew _ _ hrun 0
  exact ⟨_, m, _, tr, c, k, hnew, hrun, hk, hexec, (hdead.1 0 .unique k _ hk hexec).2.1⟩

/-! ## Listings -/

/-- **A listing walks a frozen tree.**  From the step with which `tfs_fs_print` locked the
root to the step with which it unlocks it, no step of another thread changes an inode
that can be reached from the root. -/
theorem print_frozen {fs : TfsFs} {task : ι → Task} (hvalid : ∀ t, (task t).Valid)
    {m : Mem ι} (hT : TreeInv fs.inodeTable.capacity m.node) (hlocks : ∀ i, m.locks i = [])
    {tr : List (Event ι)} {c c' : Config Op Op.Resp ι (Mem ι) Reply}
    (hrun : Run (machine ι) (fun t => (task t).prog fs) (.initial m) tr c) {t : ι}
    {fileName : List CChar} (ht : task t = .print fileName)
    (hroot : (t, .unique) ∈ c.mem.locks 0) {e : Event ι} (he : e ≠ .action t)
    (hs : Step (machine ι) (fun t => (task t).prog fs) c e c') {cs : List (List CChar)} {i : Nat}
    (hi : Walk (Child c.mem.node) 0 cs i) : c'.mem.node i = c.mem.node i := by
  obtain ⟨w, hg⟩ := exists_good_of_run hvalid hT hlocks hrun
  cases hs with
  | invoke => rfl
  | respond => rfl
  | @action u o k r s hu hexec =>
    have hne : (Event.action u).thread ≠ t := fun (heq : u = t) => he (by rw [heq])
    exact Setup.node_step hg ⟨fileName, ht⟩ hroot hne (.action hu hexec) hi

/-- A listing that holds the root, and a thread that starts to look for the root. -/
theorem exists_print_frozen : ∃ (fs : TfsFs) (m : Mem Nat) (task : Nat → Task)
    (tr : List (Event Nat)) (c c' : Config Op Op.Resp Nat (Mem Nat) Reply),
    tfsFsNew.run (machine Nat) 0 (Mem.zero (fun _ => true) fun _ => []) = some (fs, m) ∧
    Run (machine Nat) (fun t => (task t).prog fs) (.initial m) tr c ∧
    (0, .unique) ∈ c.mem.locks 0 ∧ c'.mem.node 0 = c.mem.node 0 := by
  have hnew := run_tfsFsNew (0 : Nat) (fun _ => true) fun _ => []
  obtain ⟨hT, hfree⟩ := tree_of_new hnew
  generalize hm : (Mem.zero (fun _ => true) fun _ => []).setNode 0 (.dir tfsInodeDirNew) = m
    at hnew hT hfree
  let task : Nat → Task := fun t =>
    if t = 0 then .print (cstr "out") else .call (.find ⟨0, cstr "/"⟩ .shared)
  have hafter : ((Config.initial m).after (machine Nat) (fun t => (task t).prog ⟨⟨128⟩⟩)
      [0, 0, 0, 0, 0, 1]).map (fun c => (c.mem.locks 0, c.op 1)) =
      some ([(0, .unique)], some (.assert (.lockRange 0) true)) := by
    subst hm
    decide
  obtain ⟨c, hc, hview⟩ := Option.map_eq_some_iff.mp hafter
  obtain ⟨hlocks, hop⟩ := Prod.mk.inj hview
  obtain ⟨tr, -, hrun⟩ := Run.nil.exists_after hc
  obtain ⟨k, hk⟩ := Config.at_of_op hop
  have hroot : (0, .unique) ∈ c.mem.locks 0 := by simp [hlocks]
  have hs : Step (machine Nat) (fun t => (task t).prog ⟨⟨128⟩⟩) c (.action 1) _ :=
    Step.action hk rfl
  exact ⟨_, m, task, tr, c, _, hnew, hrun, hroot, print_frozen (fun t => by
    unfold task; split
    · trivial
    · decide) hT hfree hrun (t := 0) rfl hroot (by simp) hs Walk.nil⟩

end TecnicoFs
