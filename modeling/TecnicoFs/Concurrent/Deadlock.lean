import TecnicoFs.Concurrent.Contract
import TecnicoFs.Sequential.Calls
import TecnicoFs.Spec.Order
import Mathlib.Logic.Relation

/-!
# Deadlocks

A call waits for another one when it asks for a lock that the other holds in a
conflicting mode.  In a cycle of such calls none has a unique lock above its request,
since the next call would have had to get past that.  So every wait either goes down the
tree, or is for a move that holds the chain to its first parent; the waits of the first
kind alone cannot be a cycle, and with one of the second kind the moves of the cycle
cross each other in a cycle.

The order that `tfs_fs_move` chooses does not exclude that, and two crossing moves
deadlock.
-/

namespace TecnicoFs

open Interleaving Graph Relation

/-! ## Cycles of two kinds of steps -/

section Cycle

variable {α : Type} {r s : α → α → Prop}

/-- In a path either all steps are of the first kind, or one is of the second kind. -/
theorem transGen_or {a b : α} (h : TransGen (fun x y => r x y ∨ s x y) a b) :
    TransGen r a b ∨ ∃ x y, ReflTransGen (fun x y => r x y ∨ s x y) a x ∧ s x y ∧
      ReflTransGen (fun x y => r x y ∨ s x y) y b := by
  induction h with
  | single h =>
    rcases h with h | h
    · exact Or.inl (.single h)
    · exact Or.inr ⟨_, _, .refl, h, .refl⟩
  | tail hab h ih =>
    rcases ih with ih | ⟨x, y, hx, hxy, hy⟩
    · rcases h with h | h
      · exact Or.inl (ih.tail h)
      · exact Or.inr ⟨_, _, hab.to_reflTransGen, h, .refl⟩
    · exact Or.inr ⟨x, y, hx, hxy, hy.tail h⟩

/-- A cycle of steps of the first kind, or one that begins after a step of the second. -/
theorem cycle_or {a : α} (h : TransGen (fun x y => r x y ∨ s x y) a a) :
    TransGen r a a ∨ ∃ x y, s x y ∧ ReflTransGen (fun x y => r x y ∨ s x y) y x := by
  rcases transGen_or h with h | ⟨x, y, hx, hxy, hy⟩
  · exact Or.inl h
  · exact Or.inr ⟨x, y, hxy, hy.trans hx⟩

/-- Everything on a cycle has a next one. -/
theorem cycle_next {a : α} (h : TransGen r a a) :
    TransGen (fun x y => r x y ∧ ∃ z, r y z) a a := by
  obtain ⟨b, hab⟩ : ∃ b, r a b := (TransGen.head'_iff.mp h).imp fun _ hb => hb.1
  have key : ∀ {c}, TransGen r a c → (∃ z, r c z) →
      TransGen (fun x y => r x y ∧ ∃ z, r y z) a c := by
    intro c hc
    induction hc with
    | single h => exact fun hz => .single ⟨h, hz⟩
    | tail _ h ih => exact fun hz => (ih ⟨_, h⟩).tail ⟨h, hz⟩
  exact key h ⟨b, hab⟩

end Cycle

/-! ## Waiting -/

section Standing

variable {ι : Type} {call : ι → Call} {done : ι → List Request} {r : ι → Request}
  {waits : ι → ι → Prop} {t u : ι}

/-- The wait of `t` for `u` goes down the tree. -/
def Down (r : ι → Request) (t u : ι) : Prop :=
  Above (r t).path (r u).path ∧ (r t).access = .unique

/-- Thread `u` is on the way to the second of its parents `x`. -/
def OnSecond (call : ι → Call) (done : ι → List Request) (r : ι → Request) (u : ι)
    (x : List (List CChar) × List (List CChar)) : Prop :=
  x ∈ (call u).lockedParents ∧ Second x.1 x.2 (done u) (r u)

/-- Thread `t` waits for the chain of `u` to its first parent. -/
def ForFirst (call : ι → Call) (done : ι → List Request) (r : ι → Request) (t u : ι) : Prop :=
  ∃ x, OnSecond call done r u x ∧ (r t).path <+: x.1 ∧
    ((r t).access = .unique ∨ (r t).path = x.1)

/-- What a wait is for. -/
theorem down_or_forFirst (hheld : ∃ q ∈ done u, q.path = (r t).path ∧ (r t).access.Conflict q.access)
    (hstand : Single (done u) (r u) ∨ ∃ x, OnSecond call done r u x) :
    Down r t u ∨ ForFirst call done r t u := by
  obtain ⟨q, hq, hpath, hconflict⟩ := hheld
  have hdown : q.access = .shared → Above q.path (r u).path → Down r t u := by
    intro hshared habove
    refine ⟨hpath ▸ habove, hconflict.resolve_right ?_⟩
    rw [hshared]
    simp
  rcases hstand with hsingle | ⟨x, hx⟩
  · exact Or.inl (hdown (hsingle q hq).1 (hsingle q hq).2)
  · rcases hx.2.held q hq with ⟨hshared, habove⟩ | ⟨hpre, hunique⟩
    · exact Or.inl (hdown hshared habove)
    · exact Or.inr ⟨x, hx, hpath ▸ hpre, hconflict.imp id fun h => hpath ▸ hunique h⟩

/-- Waits that go down the tree lead down the tree. -/
theorem lt_of_down (h : TransGen (Down r) t u) : (r t).path.length < (r u).path.length := by
  induction h with
  | single h => exact h.1.length_lt
  | tail _ h ih => exact ih.trans h.1.length_lt

/-- From a move on the way to its second parent, down the tree, and to the chain of another
move: these two cross. -/
theorem crosses_of_down {v : ι} {x : List (List CChar) × List (List CChar)}
    (hx : OnSecond call done r t x) (hdown : ReflTransGen (Down r) t u)
    (hfirst : ForFirst call done r u v) : (call t).Crosses (call v) := by
  obtain ⟨y, hy, hpre, hor⟩ := hfirst
  refine ⟨x, hx.1, y, hy.1, ?_⟩
  rcases hdown.cases_head with rfl | ⟨k, hk, hrest⟩
  · rcases hor with hunique | heq
    · exact Or.inl (hx.2.last hunique ▸ hpre)
    · exact Or.inr (heq ▸ hx.2.next)
  · have hle : ∀ {v}, ReflTransGen (Down r) k v → Above (r t).path (r v).path := by
      intro v hkv
      induction hkv with
      | refl => exact hk.1
      | tail _ h ih => exact Above.of_prefix ih.isPrefix h.1
    exact Or.inl (hx.2.last hk.2 ▸ (hle hrest).isPrefix.trans hpre)

/-- Along any waits from a move on the way to its second parent, the moves cross. -/
theorem exists_crosses {x : List (List CChar) × List (List CChar)}
    (hx : OnSecond call done r t x)
    (h : ReflTransGen (fun t u => Down r t u ∨ ForFirst call done r t u) t u) :
    ∃ v y, ReflTransGen (fun t u => (call t).Crosses (call u)) t v ∧ OnSecond call done r v y ∧
      ReflTransGen (Down r) v u := by
  induction h with
  | refl => exact ⟨t, x, .refl, hx, .refl⟩
  | @tail u' u _ h ih =>
    obtain ⟨v, y, hcross, hy, hdown⟩ := ih
    rcases h with h | h
    · exact ⟨v, y, hcross, hy, hdown.tail h⟩
    · obtain ⟨y', hy', -⟩ := id h
      exact ⟨u, y', hcross.tail (crosses_of_down hy hdown h), hy', .refl⟩

/-- **Calls that wait in a cycle cross in a cycle.** -/
theorem no_cycle_of_standing
    (hheld : ∀ t u, waits t u → ∃ q ∈ done u, q.path = (r t).path ∧ (r t).access.Conflict q.access)
    (hstand : ∀ t u, waits t u → Single (done u) (r u) ∨ ∃ x, OnSecond call done r u x)
    (hcross : ∀ t, ¬TransGen (fun t u => (call t).Crosses (call u)) t t) (t : ι) :
    ¬TransGen waits t t := by
  intro h
  have hkinds : TransGen (fun t u => Down r t u ∨ ForFirst call done r t u) t t :=
    TransGen.mono (fun t u htu => down_or_forFirst (hheld t u htu) (hstand t u htu)) _ _ h
  rcases cycle_or hkinds with hdown | ⟨u, v, huv, hvu⟩
  · exact lt_irrefl _ (lt_of_down hdown)
  · obtain ⟨x, hx, -⟩ := id huv
    obtain ⟨k, y, hvk, hy, hku⟩ := exists_crosses hx hvu
    exact hcross v (TransGen.tail' hvk (crosses_of_down hy hku huv))

end Standing

/-! ## Positions of threads -/

variable {ι : Type} [DecidableEq ι]

/-- Thread `t` asks for a lock that `u` holds in a conflicting mode. -/
def WaitsFor (c : Config Op Op.Resp ι (Mem ι) Reply) (t u : ι) : Prop :=
  ∃ idx access b, c.At t (.lock idx access) ∧ (u, b) ∈ c.mem.locks idx ∧ access.Conflict b

namespace Setup

variable {S : Setup ι} {w : FsWorld ι} {t u : ι} {idx idx' : Nat} {done done' : List Request}
  {r r' : Request} {b : TfsRwLockAccess}

variable (S) in
/-- Thread `t` holds what it asked for with `done`, and asks for slot `idx` with `r`. -/
structure Position (w : FsWorld ι) (t : ι) (idx : Nat) (done : List Request) (r : Request) :
    Prop where
  plan : ∃ todo, (S.task t).plan = done ++ r :: todo
  made : ∃ held, Made w.ghost.tree done held ∧ Owns t held w.mem
  names : r.Names w.ghost.tree idx

omit [DecidableEq ι] in
theorem Asks.exists_position {a : TfsRwLockAccess} (h : S.Asks t idx a w) :
    ∃ done r, S.Position w t idx done r ∧ r.access = a := by
  obtain ⟨done, r, todo, held, hplan, hmade, hr, hacc, howns, -, -⟩ := h
  exact ⟨done, r, ⟨⟨todo, hplan⟩, ⟨held, hmade, howns⟩, hr⟩, hacc⟩

omit [DecidableEq ι] in
/-- The paths of the requests lead to their slots. -/
theorem Position.walk (hi : S.Inv w) (hu : S.Position w u idx' done' r') {q : Request}
    (hq : q ∈ done' ++ [r']) {i : Nat} (hnames : q.Names w.ghost.tree i) :
    Walk (Child w.ghost.tree) 0 q.path i := by
  obtain ⟨todo, hplan⟩ := hu.plan
  obtain ⟨pre, post, heq⟩ := List.append_of_mem hq
  have hplan' : (S.task u).plan = pre ++ q :: (post ++ todo) := by
    rw [hplan, ← List.singleton_append, ← List.append_assoc, heq]
    simp
  exact Made.walk hi.treeInv ((S.task u).extends_plan (S.valid u)) hplan' hnames

section Positions

variable (hi : S.Inv w) (ht : S.Position w t idx done r) (hu : S.Position w u idx' done' r')
  (hb : (u, b) ∈ w.mem.locks idx)

include hi ht hu hb

omit [DecidableEq ι] in
/-- What `t` asks for and `u` holds is on the same path for both. -/
theorem Position.exists_held : ∃ q ∈ done', q.path = r.path ∧ q.access = b := by
  obtain ⟨held, hmade, howns⟩ := hu.made
  obtain ⟨q, hq, hnames, hacc⟩ := hmade.exists_request ((howns idx b).mp hb)
  have wq := hu.walk hi (List.mem_append_left _ hq) hnames
  have wr := ht.walk hi (by simp) ht.names
  exact ⟨q, hq, hi.treeInv.tree.walk_labels wq wr, hacc⟩

omit [DecidableEq ι] in
/-- Nobody gets past a slot that is held for unique access. -/
theorem Position.not_guarded : ¬Guarded done r := by
  rintro ⟨g, hg, hunique, c, cs, habove⟩
  obtain ⟨q, hq, hpath, -⟩ := ht.exists_held hi hu hb
  obtain ⟨todo', hplan'⟩ := hu.plan
  obtain ⟨pre, post, rfl⟩ := List.append_of_mem hq
  -- `u` has locked what is above `q`
  have hfollows := (S.task u).extends_plan (S.valid u) pre q (post ++ r' :: todo')
    (by rw [hplan', List.append_assoc]; rfl)
  obtain ⟨g', hg', hpath'⟩ := hfollows.covered g.path c cs (hpath.trans habove)
  obtain ⟨held, hmade, howns⟩ := ht.made
  obtain ⟨held', hmade', howns'⟩ := hu.made
  obtain ⟨i, hi₁, hmem⟩ := hmade.exists_held hg
  obtain ⟨j, hj, hmem'⟩ := hmade'.exists_held (by simpa using Or.inl hg')
  obtain rfl : i = j := by
    rw [hpath', hi₁] at hj
    exact Except.ok.inj hj
  rw [hunique] at hmem
  obtain ⟨rfl, -⟩ := (hi.locks i).eq_of_unique ((howns i _).mpr hmem) ((howns' i _).mpr hmem')
  obtain ⟨todo, hplan⟩ := ht.plan
  exact hmade.not_held hi.treeInv ((S.task u).extends_plan (S.valid u)) hplan ht.names b
    ((howns idx b).mp hb)

end Positions

end Setup

/-! ## Deadlocks -/

/-- No wait is on a cycle, if the tasks of those that wait lock what calls lock of which no
moves cross in a cycle. -/
theorem not_transGen_waitsFor {fs : TfsFs} {task : ι → Task} (hvalid : ∀ t, (task t).Valid)
    {m : Mem ι} (hT : TreeInv fs.inodeTable.capacity m.node) (hlocks : ∀ i, m.locks i = [])
    {tr : List (Event ι)} {c : Config Op Op.Resp ι (Mem ι) Reply}
    (hrun : Run (machine ι) (fun t => (task t).prog fs) (.initial m) tr c) {call : ι → Call}
    (hcall : ∀ t u, WaitsFor c t u → (call t).Valid ∧ (call t).plan = (task t).plan)
    (hcross : ∀ t, ¬TransGen (fun t u => (call t).Crosses (call u)) t t) (t : ι) :
    ¬TransGen (WaitsFor c) t t := by
  obtain ⟨w, hg⟩ := exists_good_of_run hvalid hT hlocks hrun
  generalize hS : Setup.ofMem fs task hvalid m hT = S at hg
  have hplan : ∀ t, (S.task t).plan = (task t).plan := fun t => hS ▸ rfl
  have hpos : ∀ t, (∃ u, WaitsFor c t u) → ∃ done r idx, S.Position w t idx done r ∧
      ∀ idx' access, c.At t (.lock idx' access) → idx' = idx ∧ access = r.access := by
    rintro t ⟨u, idx, access, b, hat, -⟩
    obtain ⟨done, r, hpos, rfl⟩ := Setup.Asks.exists_position (hg.pre hat)
    exact ⟨done, r, idx, hpos, fun idx' access h => by simpa using h.eq hat⟩
  choose! done r idx hpos hat using hpos
  have hwait : ∀ {t u}, WaitsFor c t u → (∃ v, WaitsFor c u v) →
      ∃ b, (u, b) ∈ w.mem.locks (idx t) ∧ (r t).access.Conflict b := by
    rintro t u ⟨i, access, b, hi, hb, hconflict⟩ -
    obtain ⟨rfl, rfl⟩ := hat t ⟨u, i, access, b, hi, hb, hconflict⟩ i access hi
    exact ⟨b, hg.mem ▸ hb, hconflict⟩
  intro hcycle
  refine @no_cycle_of_standing ι call done r _ ?_ ?_ hcross t (cycle_next (cycle_next hcycle))
  · rintro t u ⟨⟨htu, hu⟩, -⟩
    obtain ⟨b, hb, hconflict⟩ := hwait htu hu
    obtain ⟨q, hq, hpath, rfl⟩ := (hpos t ⟨u, htu⟩).exists_held hg.inv (hpos u hu) hb
    exact ⟨q, hq, hpath, hconflict⟩
  · rintro t u ⟨⟨-, hu⟩, v, huv, hv⟩
    obtain ⟨b, hb, -⟩ := hwait huv hv
    obtain ⟨todo, hplan'⟩ := (hpos u hu).plan
    obtain ⟨hvalidu, hplanu⟩ := hcall u v huv
    rcases (call u).standing hvalidu ((hplanu.trans (hplan u).symm).trans hplan') with
      hs | ⟨x, hx, hs⟩ | hs
    · exact Or.inl hs
    · exact Or.inr ⟨x, hx, hs⟩
    · exact absurd hs ((hpos u hu).not_guarded hg.inv (hpos v hv) hb)

/-- **Calls of which no moves cross in a cycle never wait in a cycle.** -/
theorem no_deadlock {fs : TfsFs} {call : ι → Call} (hvalid : ∀ t, (call t).Valid) {m : Mem ι}
    (hT : TreeInv fs.inodeTable.capacity m.node) (hlocks : ∀ i, m.locks i = [])
    (hcross : ∀ t, ¬TransGen (fun t u => (call t).Crosses (call u)) t t)
    {tr : List (Event ι)} {c : Config Op Op.Resp ι (Mem ι) Reply}
    (hrun : Run (machine ι) (fun t => (call t).prog fs) (.initial m) tr c) (t : ι) :
    ¬TransGen (WaitsFor c) t t :=
  @not_transGen_waitsFor ι _ fs (fun t => .call (call t)) hvalid m hT hlocks _ _ hrun call
    (fun t _ _ => ⟨hvalid t, rfl⟩) hcross t

/-- The directories of the two moves that follow. -/
def crossingDirs : List Call :=
  [.create ⟨0, cstr "/aaa"⟩ .dir, .create ⟨0, cstr "/b"⟩ .dir, .create ⟨0, cstr "/b/longname"⟩ .dir]

/-- Any number of moves of one file to one place. -/
theorem exists_no_deadlock : ∃ (fs : TfsFs) (m : Mem Nat) (call : Nat → Call)
    (tr : List (Event Nat)) (c : Config Op Op.Resp Nat (Mem Nat) Reply),
    call 0 = .move ⟨0, cstr "/aaa/f"⟩ ⟨100, cstr "/b/longname/g"⟩ .unique ∧
    Run (machine Nat) (fun t => (call t).prog fs) (.initial m) tr c ∧
    ∀ t, ¬TransGen (WaitsFor c) t t := by
  obtain ⟨hT, hlocks⟩ := tree_of_new (run_tfsFsNew (0 : Nat) (fun _ => true) fun _ => [])
  generalize hc : Call.move ⟨0, cstr "/aaa/f"⟩ ⟨100, cstr "/b/longname/g"⟩ .unique = c
  have hvalid : c.Valid := hc ▸ (by decide)
  have hparents : c.lockedParents = some ([cstr "aaa"], [cstr "b", cstr "longname"]) :=
    hc ▸ (by decide +kernel)
  have hcross : ¬c.Crosses c := by
    rintro ⟨x, hx, y, hy, hline⟩
    rw [hparents, Option.mem_some_iff] at hx hy
    subst hx hy
    exact absurd hline (by decide)
  have hs : Step (machine Nat) (fun _ => c.prog ⟨⟨128⟩⟩) (.initial ((Mem.zero (fun _ => true)
      fun _ => []).setNode 0 (.dir tfsInodeDirNew))) (.invoke 0) _ := Step.invoke rfl
  exact ⟨_, _, fun _ => c, _, _, rfl, Run.nil.snoc hs, @no_deadlock Nat _ _ (fun _ => c)
    (fun _ => hvalid) _ hT hlocks (fun t h => hcross (TransGen.head'_iff.mp h).choose_spec.1)
    _ _ (Run.nil.snoc hs)⟩

/-- Two moves between `/aaa` and directories on one line. -/
def crossingMoves : Nat → Call
  | 0 => .move ⟨0, cstr "/aaa/f"⟩ ⟨100, cstr "/b/longname/g"⟩ .unique
  | _ => .move ⟨0, cstr "/b/h"⟩ ⟨100, cstr "/aaa/k"⟩ .unique

/-- **Two moves can deadlock.**  The parents of the first move are `aaa` and `b/longname`,
those of the second are `b` and `aaa`, and each move locks the shorter one first. -/
theorem exists_deadlock : ∃ (fs : TfsFs) (m : Mem Nat) (tr : List (Event Nat))
    (c : Config Op Op.Resp Nat (Mem Nat) Reply),
    TreeInv fs.inodeTable.capacity m.node ∧ (∀ i, m.locks i = []) ∧
    (∀ t, (crossingMoves t).Valid) ∧
    Run (machine Nat) (fun t => (crossingMoves t).prog fs) (.initial m) tr c ∧
    WaitsFor c 0 1 ∧ WaitsFor c 1 0 := by
  have hnew := run_tfsFsNew (0 : Nat) (fun _ => true) fun _ => []
  generalize hm : (Mem.zero (fun _ => true) fun _ => []).setNode 0 (.dir tfsInodeDirNew) = m at hnew
  -- the first move locks `aaa`, the second one `b`, and then each asks for what is left
  have hview : ((runCalls ⟨⟨128⟩⟩ crossingDirs.zipIdx m).bind fun x =>
      (Config.initial { x.2 with locks := fun _ => [] }).after (machine Nat)
        (fun t => (crossingMoves t).prog ⟨⟨128⟩⟩)
        (List.replicate 14 0 ++ List.replicate 14 1)).map
      (fun c => (c.op 0, c.mem.locks 1, c.op 1, c.mem.locks 2)) =
      some (some (.lock 2 .shared), [(0, .unique)], some (.lock 1 .unique), [(1, .unique)]) := by
    subst hm
    decide +kernel
  obtain ⟨c, hc, hview⟩ := Option.map_eq_some_iff.mp hview
  obtain ⟨⟨replies, m'⟩, hcalls, hc⟩ := Option.bind_eq_some_iff.mp hc
  simp only [Prod.mk.injEq] at hview
  obtain ⟨hop₀, hlocks₁, hop₁, hlocks₂⟩ := hview
  obtain ⟨hT, -⟩ := new_induction (P := fun _ => True) (C := fun _ _ => True)
    (fun _ _ _ _ _ _ _ _ => trivial) (by decide) hnew trivial
    (callsMeet_of_forall fun _ _ _ => trivial) hcalls
  obtain ⟨tr, -, hrun⟩ := Run.nil.exists_after hc
  refine ⟨_, { m' with locks := fun _ => [] }, tr, c, hT, fun _ => rfl, fun t => ?_, hrun,
    ⟨2, .shared, .unique, Config.at_of_op hop₀, by simp [hlocks₂], by decide⟩,
    ⟨1, .unique, .unique, Config.at_of_op hop₁, by simp [hlocks₁], by decide⟩⟩
  cases t with
  | zero => decide
  | succ t => exact (show (crossingMoves 1).Valid by decide)

/-! ## One move at a time -/

/-- Thread `t` was invoked and has not returned. -/
def InFlight (c : Config Op Op.Resp ι (Mem ι) Reply) (t : ι) : Prop :=
  ∃ p, c.thread t = .running p

omit [DecidableEq ι] in
theorem WaitsFor.inFlight {c : Config Op Op.Resp ι (Mem ι) Reply} {t u : ι}
    (h : WaitsFor c t u) : InFlight c t := by
  obtain ⟨idx, access, b, ⟨k, hk⟩, -⟩ := h
  exact ⟨_, hk⟩

/-- A call that locks what the task locks: a listing locks what a search for the root does. -/
def Task.lockingCall : Task → Call
  | .call c => c
  | .print _ => .find ⟨0, []⟩ .unique

theorem Task.plan_lockingCall (task : Task) : task.lockingCall.plan = task.plan := by
  cases task with
  | call c => rfl
  | print fileName => rfl

theorem Task.valid_lockingCall {task : Task} (h : task.Valid) : task.lockingCall.Valid := by
  cases task with
  | call c => exact h
  | print fileName =>
    show NulFree []
    simp [NulFree]

/-- Only a move locks two parents. -/
theorem Task.moves_of_lockedParents {task : Task} {x : List (List CChar) × List (List CChar)}
    (h : x ∈ task.lockingCall.lockedParents) : task.Moves := by
  cases task with
  | print fileName => cases h
  | call c =>
    cases c with
    | move origPath destPath access => exact ⟨origPath, destPath, access, rfl⟩
    | create path type => cases h
    | remove path => cases h
    | find path access => cases h

/-- No wait is on a cycle if no moves that are in flight cross in a cycle. -/
theorem not_transGen_waitsFor_of_inFlight {fs : TfsFs} {task : ι → Task}
    (hvalid : ∀ t, (task t).Valid) {m : Mem ι} (hT : TreeInv fs.inodeTable.capacity m.node)
    (hlocks : ∀ i, m.locks i = []) {tr : List (Event ι)} {c : Config Op Op.Resp ι (Mem ι) Reply}
    (hrun : Run (machine ι) (fun t => (task t).prog fs) (.initial m) tr c)
    (hcross : ∀ t, ¬TransGen (fun t u => InFlight c t ∧ InFlight c u ∧
      (task t).lockingCall.Crosses (task u).lockingCall) t t) (t : ι) :
    ¬TransGen (WaitsFor c) t t := by
  classical
  -- a call that is not in flight waits for nothing, and may as well not be there
  let call : ι → Call := fun t =>
    if InFlight c t then (task t).lockingCall else .find ⟨0, []⟩ .unique
  have hflight : ∀ {t x}, x ∈ (call t).lockedParents → InFlight c t := by
    intro t x hx
    by_contra ht
    simp only [call, if_neg ht] at hx
    cases hx
  have hcall : ∀ t u, WaitsFor c t u → (call t).Valid ∧ (call t).plan = (task t).plan := by
    intro t u htu
    simp only [call, if_pos htu.inFlight]
    exact ⟨Task.valid_lockingCall (hvalid t), (task t).plan_lockingCall⟩
  refine not_transGen_waitsFor hvalid hT hlocks hrun hcall (fun u hcycle => hcross u ?_) t
  refine TransGen.mono (fun t u hcross => ?_) _ _ hcycle
  obtain ⟨x, hx, y, hy, -⟩ := id hcross
  have ht := hflight hx
  have hu := hflight hy
  simp only [call, if_pos ht, if_pos hu] at hcross
  exact ⟨ht, hu, hcross⟩

/-- **With one move at a time no calls wait in a cycle.**  Any number of creations, removals,
searches and listings may be in flight besides it. -/
theorem no_deadlock_of_one_move {fs : TfsFs} {task : ι → Task} (hvalid : ∀ t, (task t).Valid)
    {m : Mem ι} (hT : TreeInv fs.inodeTable.capacity m.node) (hlocks : ∀ i, m.locks i = [])
    {tr : List (Event ι)} {c : Config Op Op.Resp ι (Mem ι) Reply}
    (hrun : Run (machine ι) (fun t => (task t).prog fs) (.initial m) tr c)
    (hone : ∀ t u, InFlight c t → InFlight c u → (task t).Moves → (task u).Moves → t = u)
    (t : ι) : ¬TransGen (WaitsFor c) t t := by
  refine not_transGen_waitsFor_of_inFlight hvalid hT hlocks hrun (fun u hcycle => ?_) t
  obtain ⟨v, ⟨hu, hv, hcross⟩, -⟩ := TransGen.head'_iff.mp hcycle
  obtain ⟨x, hx, y, hy, -⟩ := id hcross
  obtain rfl := hone u v hu hv (Task.moves_of_lockedParents hx) (Task.moves_of_lockedParents hy)
  exact not_crosses_self (Task.valid_lockingCall (hvalid u)) hcross

/-- A move besides a listing and any number of removals of what it moves. -/
def oneMove : Nat → Task
  | 0 => .call (.move ⟨0, cstr "/aaa/f"⟩ ⟨100, cstr "/b/longname/g"⟩ .unique)
  | 1 => .print (cstr "out")
  | _ => .call (.remove ⟨0, cstr "/aaa/f"⟩)

theorem exists_no_deadlock_of_one_move : ∃ (fs : TfsFs) (m : Mem Nat) (tr : List (Event Nat))
    (c : Config Op Op.Resp Nat (Mem Nat) Reply),
    TreeInv fs.inodeTable.capacity m.node ∧
    Run (machine Nat) (fun t => (oneMove t).prog fs) (.initial m) tr c ∧
    InFlight c 0 ∧ InFlight c 1 ∧ ∀ t, ¬TransGen (WaitsFor c) t t := by
  obtain ⟨hT, hlocks⟩ := tree_of_new (run_tfsFsNew (0 : Nat) (fun _ => true) fun _ => [])
  generalize hm : (Mem.zero (fun _ => true) fun _ => []).setNode 0 (.dir tfsInodeDirNew) = m
    at hT hlocks
  have hvalid : ∀ t, (oneMove t).Valid
    | 0 => by decide
    | 1 => trivial
    | t + 2 => show (oneMove 2).Valid by decide
  have hmoves : ∀ t, (oneMove t).Moves → t = 0
    | 0, _ => rfl
    | 1, h => by obtain ⟨_, _, _, h⟩ := h; cases h
    | t + 2, h => by obtain ⟨_, _, _, h⟩ := h; cases h
  have h₀ : Step (machine Nat) (fun t => (oneMove t).prog ⟨⟨128⟩⟩) (.initial m) (.invoke 0) _ :=
    Step.invoke rfl
  have h₁ : Step (machine Nat) (fun t => (oneMove t).prog ⟨⟨128⟩⟩) _ (.invoke 1) _ :=
    Step.invoke (c := (Config.initial m).set 0 m (.running ((oneMove 0).prog ⟨⟨128⟩⟩))) rfl
  have hrun := (Run.nil.snoc h₀).snoc h₁
  refine ⟨_, m, _, _, hT, hrun, ⟨_, rfl⟩, ⟨_, rfl⟩, ?_⟩
  exact no_deadlock_of_one_move hvalid hT hlocks hrun fun t u _ _ ht hu =>
    (hmoves t ht).trans (hmoves u hu).symm

end TecnicoFs
