import TecnicoFs.Sequential.Moves
import TecnicoFs.Sequential.Serial
import TecnicoFs.Spec.SameMap

/-!
# The map is all there is to see

Plain calls, one after the other, on trees as such calls leave them.  What they answer is a
matter of the map alone, and no two maps give the same answers (`map_fully_abstract`).
Calls that have succeeded can be taken back, in the opposite order, and then the map is
what it was (`undo_restores`).
-/

namespace TecnicoFs

open Interleaving Function Graph

variable {ι : Type} [DecidableEq ι]

/-! ## Calls that succeed -/

section Ok

variable {T : Tree}

theorem atomicMoveEntry_leak_of_ok {p q : Nat} {origName destName : List CChar}
    {access : TfsRwLockAccess} {i : Option Nat}
    (h : (atomicMoveEntry T p q origName destName access).outcome = .ok i) :
    (atomicMoveEntry T p q origName destName access).leak = none := by
  unfold atomicMoveEntry at h ⊢
  split at h
  swap
  · cases h
  split at h
  swap
  · cases h
  split at h
  · cases h
  split at h
  · cases h
  · rfl

/-- **Only a call that fails keeps a lock.** -/
theorem atomic_leak_of_ok {slot : Nat} {c : Call} {i : Option Nat}
    (h : (atomic T slot c).outcome = .ok i) : (atomic T slot c).leak = none := by
  cases c with
  | create path type => exact atomicCreate_leak ..
  | remove path => exact atomicRemove_leak ..
  | find path access => exact atomicFind_leak ..
  | move origPath destPath access =>
    change (atomicMove T origPath destPath access).outcome = .ok i at h
    change (atomicMove T origPath destPath access).leak = none
    obtain ⟨s, -, -, -, a, -, ⟨-, -, heq⟩ | ⟨-, -, -, heq⟩ | ⟨-, p, q, -, -, heq⟩⟩ :=
      atomicMove_cases h
    · rw [heq]
    · rw [heq]
      exact atomicRename_leak ..
    · rw [heq] at h ⊢
      exact atomicMoveEntry_leak_of_ok h

/-- The call is a removal. -/
def Call.removes : Call → Bool
  | .remove _ => true
  | _ => false

/-- **What a call that succeeds does to the number of slots in use.** -/
theorem card_liveSlots_of_ok {capacity : Nat} (hT : TreeInv capacity T) {slot : Nat}
    {c : Call} (hc : c.Valid) (hfit : Fits capacity T slot c) {i : Option Nat}
    (hok : (atomic T slot c).outcome = .ok i) :
    (liveSlots capacity (atomic T slot c).tree).card + (if c.removes then 1 else 0) =
      (liveSlots capacity T).card + if c.creates then 1 else 0 := by
  cases c with
  | create path type =>
    obtain ⟨hs, hlt⟩ := hfit path type rfl ⟨i, hok⟩
    exact liveSlots_atomicCreate hT hc.1 hc.2 hok hs hlt
  | remove path =>
    obtain ⟨p, x, -, hx, -, -, hnone, htype, -⟩ := atomicRemove_ok hT hc hok
    have hlive : x ∈ liveSlots capacity T :=
      mem_liveSlots.mpr ⟨hT.bound (hT.live_of_child hx), hT.live_of_child hx⟩
    have herase :
        liveSlots capacity (atomicRemove T path).tree = (liveSlots capacity T).erase x := by
      ext j
      rw [Finset.mem_erase, mem_liveSlots, mem_liveSlots]
      by_cases hj : j = x
      · simp [hj, hnone]
      · rw [Ne, ← TfsInode.type_eq_none_iff, htype j hj, TfsInode.type_eq_none_iff]
        simp [hj]
    show (liveSlots capacity (atomicRemove T path).tree).card + 1 = _
    rw [herase]
    exact Finset.card_erase_add_one hlive
  | find path access =>
    rw [show (atomic T slot (.find path access)).tree = T from atomicFind_tree path]
    rfl
  | move origPath destPath access =>
    have hsame : liveSlots capacity (atomicMove T origPath destPath access).tree =
        liveSlots capacity T := by
      ext j
      rw [mem_liveSlots, mem_liveSlots, Ne, ← TfsInode.type_eq_none_iff, atomicMove_type j,
        TfsInode.type_eq_none_iff]
    exact congrArg Finset.card hsame

end Ok

/-! ## Plain calls -/

/-- **A tree as plain calls leave it.** -/
structure Settled (capacity : Nat) (T : Tree) : Prop where
  inv : TreeInv capacity T
  named : Named T
  blank : BlankFree T

theorem Settled.after_call {capacity : Nat} {T : Tree} (h : Settled capacity T) {slot : Nat}
    {c : Call}
    (hc : c.Valid) (hplain : c.Plain) (hfit : Fits capacity T slot c) :
    Settled capacity (atomic T slot c).tree :=
  ⟨atomic_treeInv h.inv hc hfit,
    atomic_named h.inv h.named h.blank hc hfit hplain.not_renamesToBlank,
    atomic_blankFree h.blank hc⟩

/-- Plain calls of different threads, and a memory where they can be made. -/
structure Ready (fs : TfsFs) (calls : List (Call × ι)) (m : Mem ι) : Prop where
  settled : Settled fs.inodeTable.capacity m.node
  ok : ∀ i, RwLock.Ok (m.locks i)
  free : ∀ x ∈ calls, ∀ i a, (x.2, a) ∉ m.locks i
  valid : ∀ x ∈ calls, x.1.Valid
  plain : ∀ x ∈ calls, x.1.Plain
  nodup : (calls.map Prod.snd).Nodup

section Ready

variable {fs fs' : TfsFs} {calls : List (Call × ι)} {m m' : Mem ι}

/-- **After the first call the others can be made.** -/
theorem Ready.run {c : Call} {t : ι} (h : Ready fs ((c, t) :: calls) m) {reply : Reply}
    {m₁ : Mem ι} (hrun : (c.prog fs).run (machine ι) t m = some (reply, m₁)) :
    ∃ slot leak, Fits fs.inodeTable.capacity m.node slot c ∧
      atomic m.node slot c = ⟨reply.outcome, m₁.node, leak⟩ ∧ Ready fs calls m₁ := by
  have hfree := List.forall_mem_cons.mp h.free
  have hvalid := List.forall_mem_cons.mp h.valid
  have hplain := List.forall_mem_cons.mp h.plain
  have hnodup := List.nodup_cons.mp h.nodup
  obtain ⟨slot, leak, hfit, hatomic, hok, hholders⟩ :=
    run_call hvalid.1 h.settled.inv h.ok hfree.1 hrun
  have hsettled := h.settled.after_call hvalid.1 hplain.1 hfit
  rw [hatomic] at hsettled
  refine ⟨slot, leak, hfit, hatomic, hsettled, hok, fun x hx i a hmem => ?_, hvalid.2, hplain.2,
    hnodup.2⟩
  rcases (hholders i x.2 a).mp hmem with hold | ⟨heq, -⟩
  · exact hfree.2 x hx i a hold
  · exact hnodup.1 (heq ▸ List.mem_map_of_mem hx)

/-- **On the same map the same calls give the same answers.** -/
theorem sameKind_runCalls {m₁ m₁' : Mem ι} {replies replies' : List Reply}
    (h : Ready fs calls m) (h' : Ready fs' calls m') (hmap : treeMap m.node = treeMap m'.node)
    (hrun : runCalls fs calls m = some (replies, m₁))
    (hrun' : runCalls fs' calls m' = some (replies', m₁')) :
    replies.map (fun reply => outcomeKind reply.outcome) =
        replies'.map (fun reply => outcomeKind reply.outcome) ∧
      treeMap m₁.node = treeMap m₁'.node := by
  induction calls generalizing m m' replies replies' with
  | nil =>
    obtain ⟨rfl, rfl⟩ := Prod.mk.inj (Option.some.inj hrun)
    obtain ⟨rfl, rfl⟩ := Prod.mk.inj (Option.some.inj hrun')
    exact ⟨rfl, hmap⟩
  | cons x calls ih =>
    obtain ⟨c, t⟩ := x
    obtain ⟨reply, m₂, replies, hcall, hcalls, rfl⟩ := runCalls_cons hrun
    obtain ⟨reply', m₂', replies', hcall', hcalls', rfl⟩ := runCalls_cons hrun'
    obtain ⟨slot, leak, hfit, hatomic, hready⟩ := h.run hcall
    obtain ⟨slot', leak', hfit', hatomic', hready'⟩ := h'.run hcall'
    have hvalid := (List.forall_mem_cons.mp h.valid).1
    have hplain := (List.forall_mem_cons.mp h.plain).1
    have hkind := sameKind_atomic h.settled.inv h'.settled.inv hmap h.settled.blank
      h'.settled.blank hvalid hplain slot slot'
    have hafter : ∀ i, reply.outcome = .ok i → treeMap m₂.node = (treeMap m.node).after c := by
      intro i hi
      have hmap := treeMap_atomic h.settled.inv hvalid hfit hplain h.settled.named
        (i := i) (by rw [hatomic, hi])
      rwa [hatomic] at hmap
    have hafter' : ∀ i, reply'.outcome = .ok i → treeMap m₂'.node = (treeMap m'.node).after c := by
      intro i hi
      have hmap := treeMap_atomic h'.settled.inv hvalid hfit' hplain h'.settled.named
        (i := i) (by rw [hatomic', hi])
      rwa [hatomic'] at hmap
    have hclean := atomic_failsClean (T := m.node) slot c
    have hclean' := atomic_failsClean (T := m'.node) slot' c
    rw [hatomic] at hclean
    rw [hatomic'] at hclean'
    rw [Effect.SameKind, hatomic, hatomic'] at hkind
    have hnext : treeMap m₂.node = treeMap m₂'.node := by
      cases hout : reply.outcome with
      | error kind =>
        rw [hout] at hkind
        cases hout' : reply'.outcome with
        | error kind' => rw [show m₂.node = m.node from hclean kind hout,
            show m₂'.node = m'.node from hclean' kind' hout', hmap]
        | ok i => rw [hout'] at hkind; cases hkind
      | ok i =>
        rw [hout] at hkind
        cases hout' : reply'.outcome with
        | error kind' => rw [hout'] at hkind; cases hkind
        | ok j => rw [hafter i hout, hafter' j hout', hmap]
    obtain ⟨hkinds, hlast⟩ := ih hready hready' hnext hcalls hcalls'
    refine ⟨?_, hlast⟩
    rw [List.map_cons, List.map_cons, hkinds]
    exact congrArg (· :: _) hkind

end Ready

/-! ## Calls in a state with no lock held -/

section Unlocked

variable {fs : TfsFs} {m m' : Mem ι} {c : Call} {t : ι}

/-- **A plain call that succeeds**, in a state with no lock held. -/
theorem Settled.of_run (h : Settled fs.inodeTable.capacity m.node) (hlocks : ∀ i, m.locks i = [])
    (hc : c.Valid) (hplain : c.Plain) {reply : Reply}
    (hrun : (c.prog fs).run (machine ι) t m = some (reply, m')) {i : Option Nat}
    (hok : reply.outcome = .ok i) :
    (treeMap m.node).Can c ∧ Settled fs.inodeTable.capacity m'.node ∧ (∀ i, m'.locks i = []) ∧
      treeMap m'.node = (treeMap m.node).after c ∧
      (liveSlots fs.inodeTable.capacity m'.node).card + (if c.removes then 1 else 0) =
        (liveSlots fs.inodeTable.capacity m.node).card + if c.creates then 1 else 0 := by
  obtain ⟨slot, leak, hfit, hatomic, hnil⟩ := run_call_of_unlocked hc h.inv hlocks hrun
  have hout : (atomic m.node slot c).outcome = .ok i := by rw [hatomic, hok]
  have hleak := atomic_leak_of_ok hout
  have hsettled := h.after_call hc hplain hfit
  have hmap := treeMap_atomic h.inv hc hfit hplain h.named hout
  have hcard := card_liveSlots_of_ok h.inv hc hfit hout
  rw [hatomic] at hleak hsettled hmap hcard
  exact ⟨(atomic_ok_iff_can h.inv hc hfit hplain h.named h.blank).mp ⟨i, hout⟩, hsettled,
    hnil hleak, hmap, hcard⟩

/-- A plain call that the map does not allow fails and, if it is no move, changes nothing. -/
theorem Settled.of_refused (h : Settled fs.inodeTable.capacity m.node)
    (hlocks : ∀ i, m.locks i = []) (hc : c.Valid) (hplain : c.Plain)
    (hmove : ¬(Task.call c).Moves) (hcan : ¬(treeMap m.node).Can c) {reply : Reply}
    (hrun : (c.prog fs).run (machine ι) t m = some (reply, m')) :
    reply.outcome.isOk = false ∧ m'.node = m.node ∧ ∀ i, m'.locks i = [] := by
  obtain ⟨slot, leak, hfit, hatomic, hnil⟩ := run_call_of_unlocked hc h.inv hlocks hrun
  have hleak := atomic_leak hmove m.node slot
  have hclean := atomic_failsClean (T := m.node) slot c
  have hiff := atomic_ok_iff_can h.inv hc hfit hplain h.named h.blank
  rw [hatomic] at hleak hclean hiff
  cases hout : reply.outcome with
  | ok i => exact absurd (hiff.mp ⟨i, hout⟩) hcan
  | error kind => exact ⟨rfl, hclean kind hout, hnil hleak⟩

/-- **A plain call returns**, if there is a slot for it. -/
theorem Settled.exists_reply (h : Settled fs.inodeTable.capacity m.node)
    (hlocks : ∀ i, m.locks i = []) (hc : c.Valid)
    (hroom : c.creates = true →
      (liveSlots fs.inodeTable.capacity m.node).card < fs.inodeTable.capacity) (t : ι) :
    ∃ reply m', (c.prog fs).run (machine ι) t m = some (reply, m') :=
  exists_run_call hc h.inv (fun i => by rw [hlocks i]; exact RwLock.ok_nil) (by simp [hlocks])
    (fun x _ => by rw [hlocks]; cases x.2 <;> simp [RwLock.Admits])
    fun path type hcreate => (serial_nil h.inv hlocks).exists_slot (hroom (by rw [hcreate]; rfl))

/-- **A plain call that the map allows returns and succeeds**, if there is a slot for it. -/
theorem Settled.exists_run (h : Settled fs.inodeTable.capacity m.node)
    (hlocks : ∀ i, m.locks i = []) (hc : c.Valid) (hplain : c.Plain) (hcan : (treeMap m.node).Can c)
    (hroom : c.creates = true →
      (liveSlots fs.inodeTable.capacity m.node).card < fs.inodeTable.capacity) (t : ι) :
    ∃ reply m' i, (c.prog fs).run (machine ι) t m = some (reply, m') ∧ reply.outcome = .ok i := by
  obtain ⟨reply, m', hrun⟩ := h.exists_reply hlocks hc hroom t
  obtain ⟨slot, leak, hfit, hatomic, -⟩ := run_call_of_unlocked hc h.inv hlocks hrun
  obtain ⟨i, hi⟩ := (atomic_ok_iff_can h.inv hc hfit hplain h.named h.blank).mpr hcan
  rw [hatomic] at hi
  exact ⟨reply, m', i, hrun, hi⟩

/-- **Calls that succeed do to the map what they should.** -/
theorem Settled.of_runCalls {calls : List (Call × ι)} {replies : List Reply}
    (h : Settled fs.inodeTable.capacity m.node) (hlocks : ∀ i, m.locks i = [])
    (hcalls : ∀ x ∈ calls, x.1.Valid ∧ x.1.Plain)
    (hrun : runCalls fs calls m = some (replies, m'))
    (hok : ∀ reply ∈ replies, ∃ i, reply.outcome = .ok i) :
    Settled fs.inodeTable.capacity m'.node ∧ (∀ i, m'.locks i = []) ∧
      treeMap m'.node = (calls.map Prod.fst).foldl FileMap.after (treeMap m.node) := by
  induction calls generalizing m replies with
  | nil =>
    obtain ⟨-, rfl⟩ := Prod.mk.inj (Option.some.inj hrun)
    exact ⟨h, hlocks, rfl⟩
  | cons x calls ih =>
    obtain ⟨c, t⟩ := x
    obtain ⟨hfirst, hrest⟩ := List.forall_mem_cons.mp hcalls
    obtain ⟨reply, m₁, replies, hcall, hlater, rfl⟩ := runCalls_cons hrun
    obtain ⟨⟨i, hi⟩, hlast⟩ := List.forall_mem_cons.mp hok
    obtain ⟨-, hsettled, hunlocked, hmap, -⟩ := h.of_run hlocks hfirst.1 hfirst.2 hcall hi
    obtain ⟨hsettled', hunlocked', hmap'⟩ := ih hsettled hunlocked hrest hlater hlast
    exact ⟨hsettled', hunlocked', by rw [hmap', hmap, List.map_cons, List.foldl_cons]⟩

end Unlocked

/-! ## What searches tell -/

section Tell

variable {T U : Tree} {cs : List (List CChar)}

/-- Searching below something tells whether it is a directory. -/
theorem locate_snoc_eq_parentsNotDir_iff {i : Nat} (h : locate T 0 cs = .ok i)
    (name : List CChar) :
    locate T 0 (cs ++ [name]) = .error .parentsNotDir ↔ (T i).type ≠ .dir := by
  by_cases hdir : (T i).type = .dir
  · obtain ⟨d, hd⟩ := TfsInode.type_eq_dir_iff.mp hdir
    rw [locate_append_singleton h hd]
    refine iff_of_false ?_ (not_not_intro hdir)
    cases tfsInodeDirSearchByName d name with
    | none => simp
    | some x => simp
  · rw [locate_append_of_ok h, locate_cons_of_not_dir hdir]
    exact iff_of_true rfl hdir

/-- Searches that agree agree on why they fail. -/
theorem locate_of_sameKind (hcs : ∀ c ∈ cs, IsName c)
    (h : (atomicFind T ⟨0, pathStr cs⟩).SameKind (atomicFind U ⟨0, pathStr cs⟩)) :
    (∃ kind, locate T 0 cs = .error kind ∧ locate U 0 cs = .error kind) ∨
      ∃ i j, locate T 0 cs = .ok i ∧ locate U 0 cs = .ok j := by
  rw [Effect.SameKind, atomicFind, atomicFind, comps_pathStr hcs] at h
  cases hT : locate T 0 cs with
  | error kind =>
    cases hU : locate U 0 cs with
    | error kind' =>
      rw [hT, hU] at h
      obtain rfl : kind = kind' := ErrorKind.find.inj (Except.error.inj h)
      exact Or.inl ⟨kind, rfl, rfl⟩
    | ok j => rw [hT, hU] at h; cases h
  | ok i =>
    cases hU : locate U 0 cs with
    | error kind => rw [hT, hU] at h; cases h
    | ok j => exact Or.inr ⟨i, j, rfl, rfl⟩

/-- **Searches tell the whole map.** -/
theorem treeMap_eq_of_find {capacity capacity' : Nat} (h : Settled capacity T)
    (h' : Settled capacity' U) (hfind : ∀ path : TfsPath, NulFree path.str →
      (atomicFind T path).SameKind (atomicFind U path)) : treeMap T = treeMap U := by
  have hlocate : ∀ cs : List (List CChar), (∀ c ∈ cs, IsName c ∧ NulFree c) →
      (∃ kind, locate T 0 cs = .error kind ∧ locate U 0 cs = .error kind) ∨
        ∃ i j, locate T 0 cs = .ok i ∧ locate U 0 cs = .ok j := fun cs hcs =>
    locate_of_sameKind (fun c hc => (hcs c hc).1)
      (hfind _ (nulFree_pathStr fun c hc => (hcs c hc).2))
  funext cs
  by_cases hcs : ∀ c ∈ cs, IsName c ∧ NulFree c
  swap
  · have hno : treeMap T cs = none := treeMap_eq_none_iff.mpr fun i w => hcs (h.named.of_walk w)
    rw [hno]
    exact (treeMap_eq_none_iff.mpr fun i w => hcs (h'.named.of_walk w)).symm
  have hnul : ∀ c ∈ cs, NulFree c := fun c hc => (hcs c hc).2
  rcases hlocate cs hcs with ⟨kind, hT, hU⟩ | ⟨i, j, hT, hU⟩
  · have hno : treeMap T cs = none := treeMap_eq_none_iff.mpr fun i w => by
      rw [(locate_eq_ok_iff h.inv hnul).mpr w] at hT
      cases hT
    rw [hno]
    refine (treeMap_eq_none_iff.mpr fun i w => ?_).symm
    rw [(locate_eq_ok_iff h'.inv hnul).mpr w] at hU
    cases hU
  · have wi := (locate_eq_ok_iff h.inv hnul).mp hT
    have wj := (locate_eq_ok_iff h'.inv hnul).mp hU
    rw [treeMap_of_walk h.inv wi, treeMap_of_walk h'.inv wj]
    -- a name that is looked up below tells a directory from a file
    have hname : ∀ c ∈ cs ++ [cstr "a"], IsName c ∧ NulFree c := by
      intro c hc
      rcases List.mem_append.mp hc with hc | hc
      · exact hcs c hc
      · rw [List.mem_singleton.mp hc]
        exact ⟨@isName_of_mem_comps (cstr "a") _ (by decide), by decide⟩
    have hdir : (T i).type ≠ .dir ↔ (U j).type ≠ .dir := by
      rw [← locate_snoc_eq_parentsNotDir_iff hT (cstr "a"),
        ← locate_snoc_eq_parentsNotDir_iff hU (cstr "a")]
      rcases hlocate _ hname with ⟨kind, hT', hU'⟩ | ⟨x, y, hT', hU'⟩
      · rw [hT', hU']
      · rw [hT', hU']
        simp
    have hlive := h.inv.tree.walk_live h.inv.tree.live_root wi
    have hlive' := h'.inv.tree.walk_live h'.inv.tree.live_root wj
    rw [Ne, ← TfsInode.type_eq_none_iff] at hlive hlive'
    cases htype : (T i).type <;> cases htype' : (U j).type <;> simp_all

end Tell

section Abstract

variable {fs fs' : TfsFs} {m m' : Mem ι}

/-- A search in a state with no lock held. -/
theorem exists_run_find (h : Settled fs.inodeTable.capacity m.node) (hlocks : ∀ i, m.locks i = [])
    {path : TfsPath} (hn : NulFree path.str) (t : ι) :
    ∃ reply m₁, runCalls fs [(.find path .shared, t)] m = some ([reply], m₁) ∧
      outcomeKind reply.outcome = outcomeKind (atomicFind m.node path).outcome := by
  have hok : ∀ i, RwLock.Ok (m.locks i) := fun i => by rw [hlocks i]; exact RwLock.ok_nil
  have hfree : ∀ i a, (t, a) ∉ m.locks i := by simp [hlocks]
  obtain ⟨reply, m₁, hrun⟩ := exists_run_call (c := .find path .shared) hn h.inv hok hfree
    (fun x _ => by rw [hlocks]; cases x.2 <;> simp [RwLock.Admits]) (by simp)
  obtain ⟨slot, leak, -, hatomic, -⟩ := run_call (c := .find path .shared) hn h.inv hok hfree hrun
  refine ⟨reply, m₁, by simp [runCalls, hrun], congrArg outcomeKind ?_⟩
  exact (congrArg Effect.outcome hatomic).symm

end Abstract

/-- **The map is all there is to see.**  Two file systems, as plain calls leave them and
with no lock held, have the same map if and only if every sequence of plain calls is
answered in the same way by both, with the same errors. -/
theorem map_fully_abstract {fs fs' : TfsFs} {m m' : Mem Nat}
    (h : Settled fs.inodeTable.capacity m.node) (h' : Settled fs'.inodeTable.capacity m'.node)
    (hlocks : ∀ i, m.locks i = []) (hlocks' : ∀ i, m'.locks i = []) :
    treeMap m.node = treeMap m'.node ↔
      ∀ calls : List Call, (∀ c ∈ calls, c.Valid ∧ c.Plain) → ∀ replies m₁ replies' m₁',
        runCalls fs calls.zipIdx m = some (replies, m₁) →
        runCalls fs' calls.zipIdx m' = some (replies', m₁') →
        replies.map (fun reply => outcomeKind reply.outcome) =
          replies'.map (fun reply => outcomeKind reply.outcome) := by
  have hready : ∀ {fs : TfsFs} {m : Mem Nat} {calls : List Call},
      Settled fs.inodeTable.capacity m.node → (∀ i, m.locks i = []) →
      (∀ c ∈ calls, c.Valid ∧ c.Plain) → Ready fs calls.zipIdx m := by
    intro fs m calls h hlocks hcalls
    exact ⟨h, fun i => by rw [hlocks i]; exact RwLock.ok_nil, by simp [hlocks],
      forall_zipIdx fun c hc => (hcalls c hc).1, forall_zipIdx fun c hc => (hcalls c hc).2,
      nodup_zipIdx calls⟩
  constructor
  · intro hmap calls hcalls replies m₁ replies' m₁' hrun hrun'
    exact (sameKind_runCalls (hready h hlocks hcalls) (hready h' hlocks' hcalls) hmap hrun hrun').1
  · intro hsame
    refine treeMap_eq_of_find h h' fun path hn => ?_
    obtain ⟨reply, m₁, hrun, hkind⟩ := exists_run_find h hlocks hn 0
    obtain ⟨reply', m₁', hrun', hkind'⟩ := exists_run_find h' hlocks' hn 0
    have heq := hsame [.find path .shared] (fun c hc => by
      rw [List.mem_singleton.mp hc]
      exact ⟨hn, fun _ _ _ heq => by cases heq⟩) [reply] m₁ [reply'] m₁' hrun hrun'
    rw [List.map_singleton, List.map_singleton, hkind, hkind'] at heq
    exact List.singleton_inj.mp heq

/-- Two directories and a file in one of them, created in two different orders. -/
def sameMapCalls : Bool → List Call
  | true => [.create ⟨0, cstr "/a"⟩ .dir, .create ⟨0, cstr "/a/c"⟩ .file,
      .create ⟨0, cstr "/b"⟩ .dir]
  | false => [.create ⟨0, cstr "/b"⟩ .dir, .create ⟨0, cstr "/a"⟩ .dir,
      .create ⟨0, cstr "/a/c"⟩ .file]

/-- Calls on a new file system that all succeed. -/
theorem exists_settled_of_calls {calls : List Call} (hcalls : ∀ c ∈ calls, c.Valid ∧ c.Plain)
    {m : Mem Nat} (hm : (Mem.zero (fun _ => true) fun _ => []).setNode 0 (.dir tfsInodeDirNew) = m)
    (hok : ((runCalls ⟨⟨128⟩⟩ calls.zipIdx m).map fun x =>
      x.1.all fun reply => reply.outcome.isOk) = some true) :
    ∃ replies m', runCalls ⟨⟨128⟩⟩ calls.zipIdx m = some (replies, m') ∧
      (∀ reply ∈ replies, ∃ i, reply.outcome = .ok i) ∧ Settled 128 m.node ∧
      (∀ i, m.locks i = []) ∧ Settled 128 m'.node ∧ (∀ i, m'.locks i = []) ∧
      treeMap m'.node = calls.foldl FileMap.after (treeMap m.node) := by
  obtain ⟨⟨replies, m'⟩, hrun, hall⟩ := Option.map_eq_some_iff.mp hok
  have hok : ∀ reply ∈ replies, ∃ i, reply.outcome = .ok i := fun reply hr => by
    have hone := List.all_eq_true.mp hall reply hr
    cases hout : reply.outcome with
    | error kind => rw [hout] at hone; cases hone
    | ok i => exact ⟨i, rfl⟩
  obtain ⟨hT, hlocks⟩ := tree_of_new (hm ▸ run_tfsFsNew (0 : Nat) (fun _ => true) fun _ => [])
  have hsettled : Settled 128 m.node := by
    refine ⟨hT, ?_, ?_⟩
    · rw [← hm]
      exact named_single
    · rw [← hm]
      exact blankFree_single
  have hafter := @Settled.of_runCalls _ _ ⟨⟨128⟩⟩ _ _ _ _ hsettled hlocks (forall_zipIdx hcalls)
    hrun hok
  rw [List.zipIdx_map_fst] at hafter
  exact ⟨replies, m', hrun, hok, hsettled, hlocks, hafter⟩

/-- The inodes have other numbers, but the map is the same. -/
theorem exists_map_fully_abstract :
    ∃ (fs : TfsFs) (m₀ m m' : Mem Nat) (replies replies' : List Reply),
    tfsFsNew.run (machine Nat) 0 (Mem.zero (fun _ => true) fun _ => []) = some (fs, m₀) ∧
    runCalls fs (sameMapCalls true).zipIdx m₀ = some (replies, m) ∧
    runCalls fs (sameMapCalls false).zipIdx m₀ = some (replies', m') ∧
    (m.node 2).type ≠ (m'.node 2).type ∧
    ∀ calls : List Call, (∀ c ∈ calls, c.Valid ∧ c.Plain) → ∀ replies m₁ replies' m₁',
      runCalls fs calls.zipIdx m = some (replies, m₁) →
      runCalls fs calls.zipIdx m' = some (replies', m₁') →
      replies.map (fun reply => outcomeKind reply.outcome) =
        replies'.map (fun reply => outcomeKind reply.outcome) := by
  have hnew := run_tfsFsNew (0 : Nat) (fun _ => true) fun _ => []
  generalize hm : (Mem.zero (fun _ => true) fun _ => []).setNode 0 (.dir tfsInodeDirNew) = m₀ at hnew
  have hcreate : ∀ {path : TfsPath} {type : TfsInodeType}, (Call.create path type).Plain :=
    fun _ _ _ heq => by cases heq
  have hcalls : ∀ b, ∀ c ∈ sameMapCalls b, c.Valid ∧ c.Plain := by
    intro b c hc
    have hvalid : ∀ b, ∀ c ∈ sameMapCalls b, c.Valid := by decide
    refine ⟨hvalid b c hc, ?_⟩
    cases b <;> simp only [sameMapCalls, List.mem_cons, List.not_mem_nil, or_false] at hc <;>
      rcases hc with rfl | rfl | rfl <;> exact hcreate
  obtain ⟨replies, m, hrun, -, -, -, h, hlocks, hmap⟩ := exists_settled_of_calls (hcalls true) hm
    (by subst hm; decide +kernel)
  obtain ⟨replies', m', hrun', -, -, -, h', hlocks', hmap'⟩ :=
    exists_settled_of_calls (hcalls false)
    hm (by subst hm; decide +kernel)
  have hsame : treeMap m.node = treeMap m'.node := by
    rw [hmap, hmap']
    simp only [sameMapCalls, List.foldl_cons, List.foldl_nil, FileMap.after]
    rw [update_comm (a := comps (cstr "/a/c")) (b := comps (cstr "/b")) (by decide),
      update_comm (a := comps (cstr "/a")) (b := comps (cstr "/b")) (by decide)]
  have htypes : ((runCalls ⟨⟨128⟩⟩ (sameMapCalls true).zipIdx m₀).map fun x => (x.2.node 2).type) =
      some .file ∧
      ((runCalls ⟨⟨128⟩⟩ (sameMapCalls false).zipIdx m₀).map fun x => (x.2.node 2).type) =
        some .dir := by
    subst hm
    decide +kernel
  rw [hrun, hrun'] at htypes
  refine ⟨_, m₀, m, m', replies, replies', hnew, hrun, hrun', ?_, ?_⟩
  · rw [show (m.node 2).type = .file from Option.some.inj htypes.1,
      show (m'.node 2).type = .dir from Option.some.inj htypes.2]
    decide
  · exact (map_fully_abstract h h' hlocks hlocks').mp hsame

/-! ## Taking calls back -/

/-- The calls that take others back, on the map before them: the last one comes first. -/
def undoCalls (f : FileMap) : List Call → List Call
  | [] => []
  | c :: calls => undoCalls (f.after c) calls ++ [f.undo c]

/-- **Calls that have succeeded can be taken back.**  When plain calls have all succeeded, in
a state with no lock held, the calls that take them back can be made one after the other,
by any thread and whatever the capacity is.  All of them succeed, no lock is held, the map
is what it was, and as many slots are in use. -/
theorem undo_restores {fs : TfsFs} {calls : List (Call × ι)} {m m₁ : Mem ι}
    {replies : List Reply} (h : Settled fs.inodeTable.capacity m.node)
    (hlocks : ∀ i, m.locks i = []) (hcalls : ∀ x ∈ calls, x.1.Valid ∧ x.1.Plain)
    (hrun : runCalls fs calls m = some (replies, m₁))
    (hok : ∀ reply ∈ replies, ∃ i, reply.outcome = .ok i) (t : ι) :
    ∃ replies' m₂,
      runCalls fs ((undoCalls (treeMap m.node) (calls.map Prod.fst)).map (·, t)) m₁ =
        some (replies', m₂) ∧
      (∀ reply ∈ replies', ∃ i, reply.outcome = .ok i) ∧
      Settled fs.inodeTable.capacity m₂.node ∧ (∀ i, m₂.locks i = []) ∧
      treeMap m₂.node = treeMap m.node ∧
      (liveSlots fs.inodeTable.capacity m₂.node).card =
        (liveSlots fs.inodeTable.capacity m.node).card := by
  induction calls generalizing m replies with
  | nil =>
    obtain ⟨-, rfl⟩ := Prod.mk.inj (Option.some.inj hrun)
    exact ⟨[], m, rfl, by simp, h, hlocks, rfl, rfl⟩
  | cons x calls ih =>
    obtain ⟨c, u⟩ := x
    obtain ⟨hfirst, hrest⟩ := List.forall_mem_cons.mp hcalls
    obtain ⟨hc, hplain⟩ : c.Valid ∧ c.Plain := hfirst
    obtain ⟨reply, m', replies, hcall, hlater, rfl⟩ := runCalls_cons hrun
    obtain ⟨⟨i, hi⟩, hlast⟩ := List.forall_mem_cons.mp hok
    obtain ⟨hcan, hsettled, hunlocked, hmap, hcard⟩ := h.of_run hlocks hc hplain hcall hi
    obtain ⟨replies', m₂, hback, hok', hsettled₂, hlocks₂, hmap₂, hcard₂⟩ :=
      ih hsettled hunlocked hrest hlater hlast
    -- what is left is to take the first call back
    have hnested := treeMap_nested h.inv
    have hvalid' := FileMap.valid_undo hc hcan
    have hplain' := FileMap.plain_undo (treeMap m.node) hplain
    have hbefore : treeMap m₂.node = (treeMap m.node).after c := hmap₂.trans hmap
    have hle : (liveSlots fs.inodeTable.capacity m.node).card ≤ fs.inodeTable.capacity :=
      (Finset.card_filter_le ..).trans_eq (Finset.card_range _)
    have hflip : ((treeMap m.node).undo c).creates = c.removes ∧
        ((treeMap m.node).undo c).removes = c.creates := by cases c <;> exact ⟨rfl, rfl⟩
    obtain ⟨reply', m₃, j, hundo, hj⟩ := hsettled₂.exists_run hlocks₂ hvalid' hplain'
      (hbefore ▸ FileMap.can_undo hnested hc hplain hcan) (fun hcreates => by
        rw [hflip.1] at hcreates
        have hnot : c.creates = false := by cases c <;> first | rfl | cases hcreates
        rw [hcreates, hnot] at hcard
        simp only [if_true, Bool.false_eq_true, if_false] at hcard
        omega) t
    obtain ⟨-, hsettled₃, hlocks₃, hmap₃, hcard₃⟩ :=
      hsettled₂.of_run hlocks₂ hvalid' hplain' hundo hj
    refine ⟨replies' ++ [reply'], m₃, ?_, ?_, hsettled₃, hlocks₃, ?_, ?_⟩
    · rw [List.map_cons, undoCalls, List.map_append, ← hmap]
      exact runCalls_concat hback hundo
    · intro r hr
      rcases List.mem_append.mp hr with hr | hr
      · exact hok' r hr
      · rw [List.mem_singleton.mp hr]
        exact ⟨j, hj⟩
    · rw [hmap₃, hbefore, FileMap.after_undo hnested hcan]
    · rw [hflip.1, hflip.2] at hcard₃
      omega

/-- A file that is moved into a directory and removed there. -/
def tidyCalls : List Call :=
  [.create ⟨0, cstr "/a"⟩ .dir, .create ⟨0, cstr "/b"⟩ .file,
    .move ⟨0, cstr "/b"⟩ ⟨100, cstr "/a/c"⟩
    .unique, .remove ⟨0, cstr "/a/c"⟩]

theorem exists_undo_restores : ∃ (fs : TfsFs) (m m₁ m₂ : Mem Nat) (replies replies' : List Reply),
    tfsFsNew.run (machine Nat) 0 (Mem.zero (fun _ => true) fun _ => []) = some (fs, m) ∧
    runCalls fs tidyCalls.zipIdx m = some (replies, m₁) ∧
    runCalls fs ((undoCalls (treeMap m.node) tidyCalls).map (·, 0)) m₁ = some (replies', m₂) ∧
    treeMap m₁.node ≠ treeMap m.node ∧ treeMap m₂.node = treeMap m.node := by
  have hnew := run_tfsFsNew (0 : Nat) (fun _ => true) fun _ => []
  generalize hm : (Mem.zero (fun _ => true) fun _ => []).setNode 0 (.dir tfsInodeDirNew) = m at hnew
  have hvalid : ∀ c ∈ tidyCalls, c.Valid := by decide
  have hplain : ∀ c ∈ tidyCalls, c.Plain := by
    rintro c hc origPath destPath access rfl
    simp only [tidyCalls, List.mem_cons, List.not_mem_nil, reduceCtorEq, or_false, false_or,
      Call.move.injEq] at hc
    obtain ⟨rfl, rfl, -⟩ := hc
    refine ⟨by decide, by decide, fun h => ?_, fun h => ?_⟩
    · exact absurd h.length_le (by decide)
    · exact absurd h.length_le (by decide)
  obtain ⟨replies, m₁, hrun, hok, h, hlocks, -, -, hmap⟩ := exists_settled_of_calls
    (fun c hc => ⟨hvalid c hc, hplain c hc⟩) hm (by subst hm; decide +kernel)
  obtain ⟨replies', m₂, hback, -, -, -, hsame, -⟩ := @undo_restores _ _ ⟨⟨128⟩⟩ _ _ _ _
    h hlocks
    (forall_zipIdx (P := fun c => c.Valid ∧ c.Plain) fun c hc => ⟨hvalid c hc, hplain c hc⟩)
    hrun hok 0
  rw [List.zipIdx_map_fst] at hback
  refine ⟨_, m, m₁, m₂, replies, replies', hnew, hrun, hback, fun heq => ?_, hsame⟩
  have hone := congrFun heq (comps (cstr "/a"))
  rw [hmap, ← hm, show treeMap (((Mem.zero (fun _ => true) fun _ => []).setNode 0
    (.dir tfsInodeDirNew) : Mem Nat).node) = FileMap.new from treeMap_single] at hone
  revert hone
  decide

end TecnicoFs
