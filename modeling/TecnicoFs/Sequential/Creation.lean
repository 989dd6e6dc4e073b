import TecnicoFs.Sequential.Calls

/-!
# When a creation succeeds

Calls that run one after the other are also a run of the system of all threads, so what is
known of its configurations holds between two of them: the only locks that are held are
those that failed moves keep, and a call that returns was granted all its requests.

A creation needs one more thing, an empty slot.  The table has a fixed number of them and
does not grow, and the source asserts that one was found.
-/

namespace TecnicoFs

open Interleaving Function Graph

variable {ι : Type} [DecidableEq ι]

/-! ## Calls as a run -/

/-- The tasks of the calls of a list; the other threads do nothing of interest. -/
def taskOf (calls : List (Call × ι)) (t : ι) : Task :=
  match calls.find? fun x => x.2 = t with
  | some x => .call x.1
  | none => .print []

section TaskOf

variable {calls : List (Call × ι)} {c : Call} {t : ι}

theorem taskOf_of_mem (hnodup : (calls.map Prod.snd).Nodup) (h : (c, t) ∈ calls) :
    taskOf calls t = .call c := by
  have hfind : calls.find? (fun x => x.2 = t) = some (c, t) := by
    cases hx : calls.find? fun x => x.2 = t with
    | none => exact absurd (List.find?_eq_none.mp hx (c, t) h) (by simp)
    | some x =>
      have heq : x.2 = t := by simpa using List.find?_some hx
      exact congrArg some (List.inj_on_of_nodup_map hnodup (List.mem_of_find?_eq_some hx) h heq)
  rw [taskOf, hfind]

theorem valid_taskOf (hvalid : ∀ x ∈ calls, x.1.Valid) (t : ι) : (taskOf calls t).Valid := by
  unfold taskOf
  split
  · rename_i x hx
    exact hvalid x (List.mem_of_find?_eq_some hx)
  · trivial

end TaskOf

section Run

variable {fs : TfsFs} {task : ι → Task} {calls : List (Call × ι)}
  {c₀ cfg : Config Op Op.Resp ι (Mem ι) Reply} {tr : List (Event ι)}

/-- **Calls one after the other are a run of the system.** -/
theorem exists_run_of_calls (htask : ∀ x ∈ calls, task x.2 = .call x.1)
    (hnodup : (calls.map Prod.snd).Nodup)
    (hrun : Run (machine ι) (fun t => (task t).prog fs) c₀ tr cfg)
    (hwait : ∀ x ∈ calls, cfg.thread x.2 = .waiting) {replies : List Reply} {m' : Mem ι}
    (hcalls : runCalls fs calls cfg.mem = some (replies, m')) :
    ∃ tr' cfg', Run (machine ι) (fun t => (task t).prog fs) c₀ tr' cfg' ∧ cfg'.mem = m' ∧
      (∀ u, u ∉ calls.map Prod.snd → cfg'.thread u = cfg.thread u) ∧
      ∀ x ∈ calls, ∃ reply, cfg'.thread x.2 = .returned reply := by
  induction calls generalizing cfg tr replies with
  | nil =>
    obtain ⟨-, rfl⟩ := Prod.mk.inj (Option.some.inj hcalls)
    exact ⟨tr, cfg, hrun, rfl, fun _ _ => rfl, by simp⟩
  | cons x calls ih =>
    obtain ⟨c, t⟩ := x
    rw [List.forall_mem_cons] at htask hwait
    rw [List.map_cons, List.nodup_cons] at hnodup
    obtain ⟨reply, m₁, replies', hcall, hcalls, -⟩ := runCalls_cons hcalls
    have hprog : ((task t).prog fs).run (machine ι) t cfg.mem = some (reply, m₁) := by
      rw [htask.1]
      exact hcall
    obtain ⟨tr₁, hrun₁⟩ := hrun.exists_alone hwait.1 hprog
    have hne : ∀ y ∈ calls, y.2 ≠ t := by
      rintro y hy rfl
      exact hnodup.1 (List.mem_map.mpr ⟨y, hy, rfl⟩)
    obtain ⟨tr', cfg', hrun', hmem, hother, hret⟩ := ih htask.2 hnodup.2 hrun₁
      (fun y hy => by rw [Config.set_thread_of_ne _ (hne y hy)]; exact hwait.2 y hy) hcalls
    refine ⟨tr', cfg', hrun', hmem, fun u hu => ?_, ?_⟩
    · rw [List.map_cons, List.mem_cons, not_or] at hu
      rw [hother u hu.2, Config.set_thread_of_ne _ hu.1]
    · rw [List.forall_mem_cons]
      refine ⟨⟨reply, ?_⟩, hret⟩
      rw [hother t hnodup.1, Config.set_thread_self]

/-- **When no thread is running**, what is locked was kept by a call on the log, and the table
is the committed tree. -/
theorem quiet_of_good {S : Setup ι} {w : FsWorld ι} (hg : S.contract.Good cfg w)
    (hquiet : ∀ u, cfg.thread u = .waiting ∨ ∃ reply, cfg.thread u = .returned reply) :
    (∀ i u a, (u, a) ∈ w.mem.locks i → ∃ e ∈ w.ghost.log, (i, a) ∈ e.leak) ∧
      ∀ i, w.mem.node i = w.ghost.tree i := by
  have hheld : ∀ i u a, (u, a) ∈ w.mem.locks i →
      (∃ e ∈ w.ghost.log, (i, a) ∈ e.leak) ∧ w.mem.node i = w.ghost.tree i := by
    intro i u a hmem
    have hknows := hg.knows u
    have hnot : ¬S.Fresh u w := fun h => by simpa using (h.owns i a).mp hmem
    rcases hquiet u with hu | ⟨reply, hu⟩
    · rw [hu] at hknows
      exact absurd hknows hnot
    · rw [hu] at hknows
      change S.Final u reply w at hknows
      rw [Setup.Final] at hknows
      split at hknows
      · obtain ⟨e, T, slot, -, hlocal⟩ := hknows
        have hleak := (hlocal.owns i a).mp hmem
        have he := (hlocal.mem_mine_iff.mp (List.mem_singleton_self e)).1
        exact ⟨⟨e, he, by simpa using hleak⟩, by rw [hlocal.node _ hleak, hlocal.tree _ hleak]⟩
      · exact absurd hknows hnot
  refine ⟨fun i u a hmem => (hheld i u a hmem).1, fun i => ?_⟩
  rcases hg.inv.node i with h | ⟨u, -, hu, -⟩
  · exact h
  · exact (hheld i u _ hu).2

/-- **A call that returns was granted all its requests**, after any calls on a tree with no
locks. -/
theorem admits_of_returned {m₀ m m' : Mem ι} (hvalid : ∀ x ∈ calls, x.1.Valid)
    (hnodup : (calls.map Prod.snd).Nodup) (hT : TreeInv fs.inodeTable.capacity m₀.node)
    (hnil : ∀ i, m₀.locks i = []) {replies : List Reply}
    (hcalls : runCalls fs calls m₀ = some (replies, m)) {c : Call} (hc : c.Valid) {t : ι}
    (ht : t ∉ calls.map Prod.snd) {reply : Reply}
    (hrun : (c.operation fs).run (machine ι) t m = some (reply, m')) :
    ∀ x ∈ requests m.node c.plan, RwLock.Admits (m.locks x.1) x.2 := by
  have hnodup' : (((c, t) :: calls).map Prod.snd).Nodup := List.nodup_cons.mpr ⟨ht, hnodup⟩
  have hvalid' : ∀ x ∈ (c, t) :: calls, x.1.Valid := List.forall_mem_cons.mpr ⟨hc, hvalid⟩
  obtain ⟨tr, cfg, hsys, rfl, hother, hret⟩ := @exists_run_of_calls ι _ fs _ calls
    (.initial m₀) (.initial m₀) []
    (fun x hx => taskOf_of_mem hnodup' (List.mem_cons_of_mem (c, t) hx)) hnodup .nil
    (fun _ _ => rfl) _ _ hcalls
  obtain ⟨w, hg⟩ := exists_good_of_run (valid_taskOf hvalid') hT hnil hsys
  obtain ⟨hlocks, hnode⟩ := quiet_of_good hg fun u => by
    by_cases hu : u ∈ calls.map Prod.snd
    · obtain ⟨x, hx, rfl⟩ := List.mem_map.mp hu
      exact Or.inr (hret x hx)
    · exact Or.inl (hother u hu)
  generalize hS : Setup.ofMem fs (taskOf ((c, t) :: calls)) (valid_taskOf hvalid') m₀ hT = S at hg
  have htask : S.task t = .call c := by
    rw [← hS]
    exact taskOf_of_mem hnodup' List.mem_cons_self
  have hfs : S.fs = fs := by rw [← hS]; rfl
  have hfresh : S.Fresh t w := by
    have hknows := hg.knows t
    rw [hother t ht] at hknows
    exact hknows
  have hsafe := Setup.operation_safe (E := Protocol.Env.alone S.protocol t) htask hfresh
  rw [hfs] at hsafe
  rw [← hg.mem] at hrun ⊢
  obtain ⟨slot, leak, held, hran, -⟩ := Setup.run_alone hg.inv hfresh htask
    (hsafe.mono fun _ _ _ hfin => hfin.leaves) hrun
  rw [show w.mem.node = w.ghost.tree from funext hnode]
  intro x hx
  by_contra hadm
  obtain ⟨⟨u, a⟩, hmem, hconflict⟩ := RwLock.not_admits_iff.mp hadm
  obtain ⟨e, he, hleak⟩ := hlocks x.1 u a hmem
  exact hran.legal x hx e he (x.1, a) hleak rfl hconflict

end Run

/-! ## Creations -/

section Creation

variable {t₀ : Nat} {canOpen : List CChar → Bool} {file : List CChar → List CChar} {fs : TfsFs}
  {m₀ m m' : Mem Nat} {calls : List Call} {replies : List Reply} {path : TfsPath}
  {type : TfsInodeType} {p : Nat}

/-- A creation in a directory that has no entry of the name. -/
theorem atomicCreate_ok_of_dir {T : Tree} (hn : NulFree path.str)
    (hp : locate T 0 (comps path.str).dropLast = .ok p) (hdir : (T p).type = .dir)
    (hchild : ∀ name ∈ (comps path.str).getLast?, ∀ j, ¬Child T p name j)
    (hne : comps path.str ≠ []) (slot : Nat) :
    (atomicCreate T slot path type).outcome = .ok (some slot) := by
  obtain ⟨d, hd⟩ := TfsInode.type_eq_dir_iff.mp hdir
  rcases tfsPathPopLast_spec path with ⟨-, -, hnil⟩ | ⟨hname, hcomps⟩
  · exact absurd hnil hne
  rw [hcomps, List.dropLast_concat] at hp
  rw [atomicCreate_of_dir hp hd]
  rcases tfsInodeDirAddEntry_spec d slot (nulFree_tfsPathPopLast hn) with ⟨err, -, hbad⟩ |
    ⟨d', hok, -⟩
  · rcases hbad with hnil | hmem
    · exact absurd hnil hname
    · obtain ⟨⟨name, j⟩, hj, heq⟩ := List.mem_map.mp hmem
      exact absurd ((child_iff hd).mpr hj) (hchild name (by rw [hcomps]; simpa using heq.symm) j)
  · rw [hok]

/-- What calls on a new file system lead to.  Every lock is held for an inode that is there. -/
theorem reached_of_new (hcalls : ∀ c ∈ calls, c.Valid)
    (hnew : tfsFsNew.run (machine Nat) t₀ (Mem.zero canOpen file) = some (fs, m₀))
    (hrun : runCalls fs calls.zipIdx m₀ = some (replies, m)) :
    TreeInv fs.inodeTable.capacity m.node ∧ (∀ i, RwLock.Ok (m.locks i)) ∧
      (∀ i u a, (u, a) ∈ m.locks i → u < calls.length) ∧
      ∀ i, m.locks i ≠ [] → m.node i ≠ .none := by
  obtain ⟨hT, hnil⟩ := tree_of_new hnew
  obtain ⟨hT', hlocks, hold, hlive⟩ := runCalls_mem_induction
    (P := fun m => ∀ i, m.locks i ≠ [] → m.node i ≠ .none) (C := fun _ _ => True)
    (fun m c t reply m' hT hlocks hfree hc _ hcall hlive =>
      live_of_run_call hc hT hlocks hfree hcall hlive)
    (forall_zipIdx hcalls) (nodup_zipIdx calls) hT (fun i => by rw [hnil i]; exact RwLock.ok_nil)
    (by simp [hnil])
    (callsMeet_of_forall fun _ _ _ => trivial) (by simp [hnil]) hrun
  refine ⟨hT', hlocks, fun i u a hu => ?_, hlive⟩
  have hmem := (hold i u a hu).resolve_left (by simp [hnil])
  rw [List.zipIdx_map_snd, List.mem_range'_1] at hmem
  omega

/-- **When a creation succeeds**, after any calls on a new file system: if its path has a
name, some slot of the table is not in use, and no lock that an earlier call has kept is in
the way to the parent. -/
theorem create_succeeds_iff (hcalls : ∀ c ∈ calls, c.Valid)
    (hnew : tfsFsNew.run (machine Nat) t₀ (Mem.zero canOpen file) = some (fs, m₀))
    (hrun : runCalls fs calls.zipIdx m₀ = some (replies, m))
    (hvalid : (Call.create path type).Valid)
    (hp : locate m.node 0 (comps path.str).dropLast = .ok p) (hdir : (m.node p).type = .dir)
    (hchild : ∀ name ∈ (comps path.str).getLast?, ∀ j, ¬Child m.node p name j) {t : Nat}
    (ht : calls.length ≤ t) :
    (∃ reply m' i, ((Call.create path type).operation fs).run (machine Nat) t m =
        some (reply, m') ∧ reply.outcome = .ok i) ↔
      comps path.str ≠ [] ∧ (∃ i < fs.inodeTable.capacity, m.node i = .none) ∧
        ∀ x ∈ requests m.node (Call.create path type).plan, RwLock.Admits (m.locks x.1) x.2 := by
  obtain ⟨hT, hlocks, hold, hlive⟩ := reached_of_new hcalls hnew hrun
  have hfree : ∀ i a, (t, a) ∉ m.locks i := fun i a h => absurd (hold i t a h) (by omega)
  constructor
  · rintro ⟨reply, m', i, hcreate, hok⟩
    obtain ⟨slot, leak, held, hfit, hatomic, -⟩ := run_operation hvalid hT hlocks hfree hcreate
    have hok' : (atomicCreate m.node slot path type).outcome = .ok i :=
      (congrArg Effect.outcome hatomic).trans hok
    obtain ⟨hempty, hlt⟩ := hfit path type rfl ⟨i, hok'⟩
    obtain ⟨-, -, -, hname, -⟩ := atomicCreate_ok hT hvalid.1 hvalid.2 hok' hempty hlt
    refine ⟨fun hnil => ?_, ⟨slot, hlt, hempty⟩, ?_⟩
    · rcases tfsPathPopLast_spec path with ⟨hnil', -⟩ | ⟨-, hcomps⟩
      · exact hname hnil'
      · rw [hcomps] at hnil
        simp at hnil
    · obtain ⟨hT₀, hnil⟩ := tree_of_new hnew
      refine admits_of_returned (forall_zipIdx hcalls) (nodup_zipIdx calls) hT₀ hnil hrun hvalid ?_
        hcreate
      rw [List.zipIdx_map_snd, List.mem_range'_1]
      omega
  · rintro ⟨hne, ⟨i, hlt, hempty⟩, hadmits⟩
    have hunlocked : m.locks i = [] := by
      by_contra hheld
      exact hlive i hheld hempty
    obtain ⟨reply, m', hcreate⟩ := exists_run_operation hvalid hT hlocks hfree hadmits
      fun _ _ _ => ⟨i, hlt, hempty, hunlocked⟩
    obtain ⟨slot, leak, held, -, hatomic, -⟩ := run_operation hvalid hT hlocks hfree hcreate
    refine ⟨reply, m', some slot, hcreate, (congrArg Effect.outcome hatomic).symm.trans ?_⟩
    exact atomicCreate_ok_of_dir hvalid.1 hp hdir hchild hne slot

/-- The first creation. -/
theorem exists_create_succeeds : ∃ reply m' i,
    ((Call.create ⟨0, cstr "/a"⟩ .dir).operation ⟨⟨128⟩⟩).run (machine Nat) 0 newMem =
      some (reply, m') ∧ reply.outcome = .ok i :=
  (@create_succeeds_iff _ _ _ _ _ newMem [] [] ⟨0, cstr "/a"⟩ .dir 0 (by simp) run_newMem rfl
    (by decide) (by decide) rfl
    (fun name _ j h => by simpa [newMem] using (child_iff rfl).mp h) 0 (Nat.le_refl 0)).mpr
    (by decide +kernel)

end Creation

/-! ## A full table -/

/-- Names that are all different. -/
def fillName (n : Nat) : List CChar := List.replicate (n + 1) (cchar 'a')

/-- Files in the root. -/
def fillCalls (n : Nat) : List Call :=
  (List.range n).map fun k => .create ⟨0, fillName k⟩ .file

section Full

theorem fillName_inj {k n : Nat} (h : fillName k = fillName n) : k = n := by
  have hlen := congrArg List.length h
  rw [fillName, fillName, List.length_replicate, List.length_replicate] at hlen
  omega

theorem nulFree_fillName (n : Nat) : NulFree (fillName n) := by
  intro c hc
  rw [List.eq_of_mem_replicate hc]
  decide

theorem comps_fillName (n : Nat) : comps (fillName n) = [fillName n] := by
  refine comps_of_isName ⟨by simp [fillName], fun c hc => ?_, ?_, ?_⟩
  · rw [List.eq_of_mem_replicate hc]
    decide
  · intro c hc
    rw [fillName, List.head?_replicate] at hc
    obtain rfl : cchar 'a' = c := by simpa using hc
    decide
  · intro c hc
    rw [fillName, List.getLast?_replicate] at hc
    obtain rfl : cchar 'a' = c := by simpa using hc
    decide

/-- One more call at the end. -/
theorem runCalls_concat {fs : TfsFs} {calls : List (Call × ι)} {m m₁ m' : Mem ι}
    {replies : List Reply} (h : runCalls fs calls m = some (replies, m₁)) {c : Call} {t : ι}
    {reply : Reply} (hcall : (c.prog fs).run (machine ι) t m₁ = some (reply, m')) :
    runCalls fs (calls ++ [(c, t)]) m = some (replies ++ [reply], m') := by
  induction calls generalizing m replies with
  | nil =>
    obtain ⟨rfl, rfl⟩ := Prod.mk.inj (Option.some.inj h)
    rw [List.nil_append, runCalls, hcall]
    rfl
  | cons x calls ih =>
    obtain ⟨c', t'⟩ := x
    obtain ⟨reply', m₂, replies', hcall', hcalls, rfl⟩ := runCalls_cons h
    rw [List.cons_append, runCalls, hcall']
    dsimp only
    rw [ih hcalls]
    rfl

/-- The slots in use. -/
def liveSlots (capacity : Nat) (T : Tree) : Finset Nat :=
  (Finset.range capacity).filter fun i => T i ≠ .none

theorem mem_liveSlots {capacity : Nat} {T : Tree} {i : Nat} :
    i ∈ liveSlots capacity T ↔ i < capacity ∧ T i ≠ .none := by
  rw [liveSlots, Finset.mem_filter, Finset.mem_range]

/-- A successful creation uses one slot more. -/
theorem liveSlots_atomicCreate {capacity : Nat} {T : Tree} (hT : TreeInv capacity T)
    {path : TfsPath} {type : TfsInodeType} (hn : NulFree path.str) (htype : type ≠ .none)
    {slot : Nat} {i : Option Nat} (hok : (atomicCreate T slot path type).outcome = .ok i)
    (hempty : T slot = .none) (hlt : slot < capacity) :
    (liveSlots capacity (atomicCreate T slot path type).tree).card =
      (liveSlots capacity T).card + 1 := by
  obtain ⟨p, -, -, -, -, -, hslot, hother, -⟩ := atomicCreate_ok hT hn htype hok hempty hlt
  have hnew : slot ∉ liveSlots capacity T := fun h => (mem_liveSlots.mp h).2 hempty
  rw [← Finset.card_insert_of_notMem hnew]
  congr 1
  ext j
  rw [Finset.mem_insert, mem_liveSlots, mem_liveSlots]
  by_cases hj : j = slot
  · subst hj
    simp only [true_or, iff_true, hslot]
    refine ⟨hlt, fun h => htype ?_⟩
    rw [← type_tfsInodeInit type, h]
    rfl
  · simp only [hj, false_or, and_congr_right_iff]
    intro _
    rw [Ne, ← TfsInode.type_eq_none_iff, hother j hj, TfsInode.type_eq_none_iff]

theorem fillCalls_succ (n : Nat) :
    (fillCalls (n + 1)).zipIdx =
      (fillCalls n).zipIdx ++ [(.create ⟨0, fillName n⟩ .file, n)] := by
  rw [fillCalls, List.range_succ, List.map_append, List.zipIdx_append, ← fillCalls]
  simp [fillCalls]

theorem valid_fillCalls {n : Nat} : ∀ c ∈ fillCalls n, c.Valid := by
  intro c hc
  obtain ⟨k, -, rfl⟩ := List.mem_map.mp hc
  exact ⟨nulFree_fillName k, by simp⟩

/-- What the root is like after files were created in it. -/
structure Filled (n : Nat) (m : Mem Nat) : Prop where
  tree : TreeInv 128 m.node
  locks : ∀ i, m.locks i = []
  names : ∀ name j, Child m.node 0 name j → ∃ k < n, name = fillName k
  card : (liveSlots 128 m.node).card = n + 1

theorem filled_newMem : Filled 0 newMem where
  tree := (tree_of_new run_newMem).1
  locks := (tree_of_new run_newMem).2
  names name j h := by simpa [newMem] using (child_iff (d := tfsInodeDirNew) rfl).mp h
  card := by
    rw [Finset.card_eq_one]
    refine ⟨0, ?_⟩
    ext i
    rw [mem_liveSlots, Finset.mem_singleton]
    constructor
    · rintro ⟨-, hi⟩
      by_contra h0
      exact hi (Mem.setNode_of_ne h0)
    · rintro rfl
      exact ⟨by decide, by simp [newMem]⟩

variable {n : Nat} {m : Mem Nat}

/-- The next name is free. -/
theorem Filled.create (h : Filled n m) (slot : Nat) :
    (atomicCreate m.node slot ⟨0, fillName n⟩ .file).outcome = .ok (some slot) := by
  refine atomicCreate_ok_of_dir (p := 0) (nulFree_fillName n) ?_ h.tree.root ?_ ?_ slot
  · rw [comps_fillName]
    rfl
  · intro name hname j hj
    rw [comps_fillName] at hname
    obtain ⟨k, hk, rfl⟩ := h.names name j hj
    have hkn := fillName_inj (Option.some.inj hname)
    omega
  · rw [comps_fillName]
    simp

/-- **As long as there is room, one more file can be created.** -/
theorem Filled.succ (h : Filled n m) (hn : n + 1 < 128) :
    ∃ reply m', ((Call.create ⟨0, fillName n⟩ .file).prog ⟨⟨128⟩⟩).run (machine Nat) n m =
      some (reply, m') ∧ Filled (n + 1) m' := by
  have hvalid : (Call.create ⟨0, fillName n⟩ .file).Valid := ⟨nulFree_fillName n, by simp⟩
  have hok : ∀ i, RwLock.Ok (m.locks i) := fun i => by rw [h.locks i]; exact RwLock.ok_nil
  have hfree : ∀ i a, (n, a) ∉ m.locks i := fun i a => by simp [h.locks i]
  obtain ⟨i, hi⟩ : ∃ i, i ∈ Finset.range 128 \ liveSlots 128 m.node := by
    rw [← Finset.Nonempty, ← Finset.card_pos]
    have hle := Finset.le_card_sdiff (liveSlots 128 m.node) (Finset.range 128)
    rw [h.card, Finset.card_range] at hle
    omega
  rw [Finset.mem_sdiff, Finset.mem_range, mem_liveSlots, not_and, not_not] at hi
  obtain ⟨reply, m', hrun⟩ := @exists_run_call Nat _ ⟨⟨128⟩⟩ n _ m hvalid h.tree hok hfree
    (fun x _ => by cases x.2 <;> simp [h.locks, RwLock.Admits])
    fun _ _ _ => ⟨i, hi.1, hi.2 hi.1, h.locks i⟩
  obtain ⟨slot, leak, hfit, hatomic, -, hholders⟩ := run_call hvalid h.tree hok hfree hrun
  change atomicCreate m.node slot ⟨0, fillName n⟩ .file = _ at hatomic
  have hcreate := h.create slot
  obtain ⟨hempty, hlt⟩ := hfit _ _ rfl ⟨_, hcreate⟩
  obtain ⟨p, hp, -, -, -, hinv, -, -, hchild⟩ :=
    atomicCreate_ok h.tree hvalid.1 hvalid.2 hcreate hempty hlt
  have hcard := liveSlots_atomicCreate h.tree hvalid.1 hvalid.2 hcreate hempty hlt
  obtain rfl : leak = none := by
    rw [← atomicCreate_leak m.node slot ⟨0, fillName n⟩ .file, hatomic]
  rw [hatomic] at hinv hchild hcard
  refine ⟨reply, m', hrun, hinv, fun i => ?_, fun name j hj => ?_, by rw [hcard, h.card]⟩
  · exact List.eq_nil_iff_forall_not_mem.mpr fun y hy => by
      simpa [h.locks] using (hholders i y.1 y.2).mp hy
  · rcases (hchild 0 name j).mp hj with hold | ⟨-, rfl, -⟩
    · obtain ⟨k, hk, rfl⟩ := h.names name j hold
      exact ⟨k, by omega, rfl⟩
    · refine ⟨n, by omega, ?_⟩
      rcases tfsPathPopLast_spec ⟨0, fillName n⟩ with ⟨-, -, hnil⟩ | ⟨-, hcomps⟩
      · rw [comps_fillName] at hnil
        cases hnil
      · rw [comps_fillName] at hcomps
        exact (List.append_inj' (hcomps.symm.trans (List.nil_append _).symm) rfl).2 |>
          List.singleton_inj.mp

theorem exists_filled (n : Nat) (hn : n < 128) : ∃ replies m,
    runCalls ⟨⟨128⟩⟩ (fillCalls n).zipIdx newMem = some (replies, m) ∧ Filled n m := by
  induction n with
  | zero => exact ⟨[], newMem, rfl, filled_newMem⟩
  | succ n ih =>
    obtain ⟨replies, m, hrun, hfilled⟩ := ih (by omega)
    obtain ⟨reply, m', hcall, hfilled'⟩ := hfilled.succ hn
    refine ⟨replies ++ [reply], m', ?_, hfilled'⟩
    rw [fillCalls_succ]
    exact runCalls_concat hrun hcall

/-- **A creation can abort.**  After 127 files were created in the root, a creation with a new
name does not return. -/
theorem exists_full_table : ∃ (fs : TfsFs) (m₀ m : Mem Nat) (replies : List Reply),
    tfsFsNew.run (machine Nat) 0 (Mem.zero (fun _ => true) fun _ => []) = some (fs, m₀) ∧
    (∀ c ∈ fillCalls 127, c.Valid) ∧
    runCalls fs (fillCalls 127).zipIdx m₀ = some (replies, m) ∧
    locate m.node 0 (comps (fillName 127)).dropLast = .ok 0 ∧ (m.node 0).type = .dir ∧
    (∀ j, ¬Child m.node 0 (fillName 127) j) ∧
    ((Call.create ⟨0, fillName 127⟩ .file).operation fs).run (machine Nat) 127 m = none := by
  obtain ⟨replies, m, hrun, h⟩ := exists_filled 127 (by decide)
  refine ⟨_, _, m, replies, run_newMem, valid_fillCalls, hrun, ?_,
    h.tree.root, fun j hj => ?_, ?_⟩
  · rw [comps_fillName]
    rfl
  · obtain ⟨k, hk, hname⟩ := h.names _ j hj
    have hkn := fillName_inj hname
    omega
  · refine Option.eq_none_iff_forall_ne_some.mpr ?_
    rintro ⟨reply, m'⟩ hcreate
    have hvalid : (Call.create ⟨0, fillName 127⟩ .file).Valid := ⟨nulFree_fillName 127, by simp⟩
    obtain ⟨slot, leak, held, hfit, -⟩ := run_operation hvalid h.tree
      (fun i => by rw [h.locks i]; exact RwLock.ok_nil) (fun i a => by simp [h.locks i]) hcreate
    obtain ⟨hempty, hlt⟩ := hfit _ _ rfl ⟨_, h.create slot⟩
    -- all 128 slots are in use
    have hall : liveSlots 128 m.node = Finset.range 128 :=
      Finset.eq_of_subset_of_card_le (Finset.filter_subset _ _)
        (by rw [h.card, Finset.card_range])
    have hmem : slot ∈ liveSlots 128 m.node := by
      rw [hall]
      exact Finset.mem_range.mpr hlt
    exact (mem_liveSlots.mp hmem).2 hempty

end Full

end TecnicoFs
