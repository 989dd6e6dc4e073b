import TecnicoFs.Sequential.Creation
import TecnicoFs.Spec.Relabel
import Mathlib.Data.Fintype.Basic

/-!
# Serializability

The calls that threads make at the same time can be put in an order, one after the other,
in which they do the same.  The order is that of the log, so a call that returned before
another one was invoked comes first.

The calls that are run again find the tree that the log says, but for the numbers of the
inodes: a creation takes the first slot that is free, and which one that is depends on the
others.  What they find locked is what the calls before them keep, and the log says that
they do not ask for that.
-/

namespace TecnicoFs

open Interleaving Function Graph

variable {ι : Type} [DecidableEq ι]

/-- Success, or the kind of the error. -/
def outcomeKind (r : Outcome) : Except ErrorKind Unit := r.map fun _ => ()

/-- The call is a creation. -/
def Call.creates : Call → Bool
  | .create .. => true
  | _ => false

/-! ## Slots -/

theorem addEntry_error {d : TfsInodeDir} {idx : Nat} {name : List CChar}
    {err : TfsInodeDirAddEntryError} (h : tfsInodeDirAddEntry d idx name = .error err)
    (idx' : Nat) : tfsInodeDirAddEntry d idx' name = .error err := by
  unfold tfsInodeDirAddEntry at h ⊢
  split at h
  · rename_i hlen
    rw [if_pos hlen]
    exact h
  · rename_i hlen
    rw [if_neg hlen]
    split at h
    · exact h
    · cases h
    · cases h

/-- Only a creation that succeeds depends on its slot. -/
theorem atomic_slot {T : Tree} {slot : Nat} {c : Call}
    (h : c.creates = true → ∀ i, (atomic T slot c).outcome ≠ .ok i) (slot' : Nat) :
    atomic T slot' c = atomic T slot c := by
  cases c with
  | create path type =>
    have hfail := h rfl
    change ∀ i, (atomicCreate T slot path type).outcome ≠ .ok i at hfail
    show atomicCreate T slot' path type = atomicCreate T slot path type
    cases hp : locate T 0 (comps (tfsPathPopLast path).2.str) with
    | error kind => rw [atomicCreate, atomicCreate, hp]
    | ok p =>
      by_cases hdir : (T p).type = .dir
      · obtain ⟨d, hd⟩ := TfsInode.type_eq_dir_iff.mp hdir
        rw [atomicCreate_of_dir hp hd] at hfail
        rw [atomicCreate_of_dir hp hd, atomicCreate_of_dir hp hd]
        cases hadd : tfsInodeDirAddEntry d slot (tfsPathPopLast path).1.str with
        | error err => rw [addEntry_error hadd]
        | ok d' =>
          rw [hadd] at hfail
          exact absurd rfl (hfail (some slot))
      · rw [atomicCreate_of_not_dir hp hdir, atomicCreate_of_not_dir hp hdir]
  | remove path => rfl
  | find path access => rfl
  | move origPath destPath access => rfl

/-- Another directory in the place of a directory. -/
theorem type_update_dir {T : Tree} {p : Nat} (hp : (T p).type = .dir) (d : TfsInodeDir) (j : Nat) :
    (update T p (.dir d) j).type = (T j).type := by
  by_cases hj : j = p
  · rw [hj, update_self, hp]
    rfl
  · rw [update_of_ne hj]

theorem atomicRename_type {T : Tree} {p : Nat} (origName destName : List CChar) (j : Nat) :
    ((atomicRename T p origName destName).tree j).type = (T j).type := by
  by_cases hp : (T p).type = .dir
  · obtain ⟨d, hd⟩ := TfsInode.type_eq_dir_iff.mp hp
    rw [atomicRename_of_dir hd]
    split
    · rfl
    · split
      · rfl
      · exact type_update_dir hp _ j
  · rw [atomicRename_of_not_dir hp]
    rfl

theorem atomicMoveEntry_type {T : Tree} {p q : Nat} (origName destName : List CChar)
    (access : TfsRwLockAccess) (j : Nat) :
    ((atomicMoveEntry T p q origName destName access).tree j).type = (T j).type := by
  by_cases hp : (T p).type = .dir
  swap
  · rw [atomicMoveEntry_of_orig_not_dir hp]
    rfl
  obtain ⟨d, hd⟩ := TfsInode.type_eq_dir_iff.mp hp
  by_cases hq : (T q).type = .dir
  swap
  · rw [atomicMoveEntry_of_dest_not_dir hd hq]
    rfl
  obtain ⟨e, he⟩ := TfsInode.type_eq_dir_iff.mp hq
  rw [atomicMoveEntry_of_dirs hd he]
  split
  · rfl
  · split
    · rfl
    · rw [type_update_dir ((type_update_dir hq _ p).trans hp), type_update_dir hq]

/-- A move keeps the type of every slot. -/
theorem atomicMove_type {T : Tree} {origPath destPath : TfsPath} {access : TfsRwLockAccess}
    (j : Nat) : ((atomicMove T origPath destPath access).tree j).type = (T j).type := by
  cases hout : (atomicMove T origPath destPath access).outcome with
  | error kind => rw [atomicMove_failsClean origPath destPath access kind hout]
  | ok i =>
    obtain ⟨s, -, -, -, a, -, ⟨-, -, heq⟩ | ⟨-, -, -, heq⟩ | ⟨-, p, q, -, -, heq⟩⟩ :=
      atomicMove_cases hout
    · rw [heq]
    · rw [heq]
      exact atomicRename_type _ _ j
    · rw [heq]
      exact atomicMoveEntry_type _ _ access j

/-- **What a call uses.**  A creation uses one slot more at most, and no other call does. -/
theorem card_liveSlots_atomic {capacity : Nat} {T : Tree} (hT : TreeInv capacity T) {slot : Nat}
    {c : Call} (hc : c.Valid) (hfit : Fits capacity T slot c) :
    (liveSlots capacity (atomic T slot c).tree).card ≤
      (liveSlots capacity T).card + if c.creates then 1 else 0 := by
  have hsub : ∀ {T' : Tree}, (∀ j, T' j ≠ .none → T j ≠ .none) →
      (liveSlots capacity T').card ≤ (liveSlots capacity T).card := by
    intro T' hlive
    refine Finset.card_le_card fun j hj => ?_
    rw [mem_liveSlots] at hj ⊢
    exact ⟨hj.1, hlive j hj.2⟩
  cases hout : (atomic T slot c).outcome with
  | error kind =>
    rw [atomic_failsClean slot c kind hout]
    omega
  | ok i =>
    cases c with
    | create path type =>
      obtain ⟨hs, hlt⟩ := hfit path type rfl ⟨i, hout⟩
      exact (liveSlots_atomicCreate hT hc.1 hc.2 hout hs hlt).le
    | remove path =>
      obtain ⟨p, x, -, -, -, -, hx, htype, -⟩ := atomicRemove_ok hT hc hout
      refine hsub fun j hj hnone => hj ?_
      by_cases hjx : j = x
      · rw [hjx]
        exact hx
      · exact TfsInode.type_eq_none_iff.mp ((htype j hjx).trans (by rw [hnone]; rfl))
    | find path access =>
      rw [show (atomic T slot (.find path access)).tree = T from atomicFind_tree path]
      omega
    | move origPath destPath access =>
      refine hsub fun j hj hnone => hj (TfsInode.type_eq_none_iff.mp ?_)
      exact (atomicMove_type j).trans (by rw [hnone]; rfl)

/-! ## Running the log again -/

/-- **The memory after the calls of the log were run again**: what the log says, with other
numbers. -/
structure Serial (capacity : Nat) (π : Equiv.Perm Nat) (log : List (Entry ι)) (T : Tree)
    (m : Mem ι) : Prop where
  tree : TreeInv capacity m.node
  ok : ∀ i, RwLock.Ok (m.locks i)
  relabels : Relabels π T m.node
  holders : ∀ i u a, (u, a) ∈ m.locks (π i) ↔ ∃ e ∈ log, e.tid = u ∧ (i, a) ∈ e.leak
  live : ∀ i, m.locks i ≠ [] → m.node i ≠ .none

section Serial

variable {capacity : Nat} {π ρ : Equiv.Perm Nat} {log : List (Entry ι)} {T : Tree} {m : Mem ι}

omit [DecidableEq ι] in
/-- What is kept is part of the tree. -/
theorem Serial.live_of_leak (h : Serial capacity π log T m) {e : Entry ι} (he : e ∈ log) {i : Nat}
    {a : TfsRwLockAccess} (hi : (i, a) ∈ e.leak) : T i ≠ .none := by
  have hmem := (h.holders i e.tid a).mpr ⟨e, he, rfl, hi⟩
  exact (h.relabels.live_iff i).mp (h.live _ (List.ne_nil_of_mem hmem))

omit [DecidableEq ι] in
/-- The numbers of what is in use are all that matters. -/
theorem Serial.relabel (h : Serial capacity π log T m) (hρ : Relabels ρ T m.node)
    (hagree : ∀ i, T i ≠ .none → ρ i = π i) : Serial capacity ρ log T m where
  tree := h.tree
  ok := h.ok
  relabels := hρ
  holders i u a := by
    by_cases hi : T i = .none
    · constructor
      · intro hmem
        exact absurd hi ((hρ.live_iff i).mp (h.live _ (List.ne_nil_of_mem hmem)))
      · rintro ⟨e, he, -, hleak⟩
        exact absurd hi (h.live_of_leak he hleak)
    · rw [hagree i hi, h.holders]
  live := h.live

omit [DecidableEq ι] in
/-- **The requests of the next call are granted.** -/
theorem Serial.admits (h : Serial capacity π log T m) {plan : List Request}
    (hlegal : ∀ x ∈ requests T plan, ∀ e ∈ log, ∀ y ∈ e.leak, y.1 = x.1 → ¬x.2.Conflict y.2) :
    ∀ x ∈ requests m.node plan, RwLock.Admits (m.locks x.1) x.2 := by
  intro x hx
  rw [h.relabels.requests] at hx
  obtain ⟨⟨i, a⟩, hi, rfl⟩ := List.mem_map.mp hx
  by_contra hadm
  obtain ⟨⟨u, b⟩, hmem, hconflict⟩ := RwLock.not_admits_iff.mp hadm
  obtain ⟨e, he, -, hleak⟩ := (h.holders i u b).mp hmem
  exact hlegal (i, a) hi e he (i, b) hleak rfl hconflict

omit [DecidableEq ι] in
/-- There is a slot for the next call. -/
theorem Serial.exists_slot (h : Serial capacity π log T m)
    (hroom : (liveSlots capacity m.node).card < capacity) :
    ∃ i < capacity, m.node i = .none ∧ m.locks i = [] := by
  obtain ⟨i, hi⟩ : ∃ i, i ∈ Finset.range capacity \ liveSlots capacity m.node := by
    rw [← Finset.Nonempty, ← Finset.card_pos]
    have hle := Finset.le_card_sdiff (liveSlots capacity m.node) (Finset.range capacity)
    rw [Finset.card_range] at hle
    omega
  rw [Finset.mem_sdiff, Finset.mem_range, mem_liveSlots, not_and, not_not] at hi
  have hnone := hi.2 hi.1
  exact ⟨i, hi.1, hnone, by_contra fun hlocked => h.live i hlocked hnone⟩

omit [DecidableEq ι] in
/-- The slot of a creation that is run again can be given the number it had. -/
theorem Serial.exists_relabel (h : Serial capacity π log T m) (hT : TreeInv capacity T)
    {slot slot' : Nat} {c : Call} (hfit : Fits capacity T slot c)
    (hfit' : Fits capacity m.node slot' c) :
    ∃ ρ : Equiv.Perm Nat, Serial capacity ρ log T m ∧
      (atomic T slot c).Relabels ρ (atomic m.node slot' c) := by
  by_cases hok : c.creates = true ∧ ∃ i, (atomic T slot c).outcome = .ok i
  · obtain ⟨hcreates, hok⟩ := hok
    obtain ⟨path, type, rfl⟩ : ∃ path type, c = .create path type := by
      cases c with
      | create path type => exact ⟨path, type, rfl⟩
      | _ => cases hcreates
    -- the creation succeeds with any slot
    have hok' : ∃ i, (atomic m.node slot' (.create path type)).outcome = .ok i := by
      by_contra hno
      have hsame := atomic_slot (fun _ i hi => hno ⟨i, hi⟩) (π slot)
      obtain ⟨i, hi⟩ := hok
      refine hno ⟨i.map π, ?_⟩
      rw [← hsame, (h.relabels.atomic slot _).outcome, hi]
      rfl
    obtain ⟨hs, -⟩ := hfit path type rfl hok
    obtain ⟨hs', -⟩ := hfit' path type rfl hok'
    obtain ⟨hρ, hagree, hslot⟩ := h.relabels.swap hT hs hs'
    have heffect := hρ.atomic slot (.create path type)
    rw [hslot] at heffect
    exact ⟨_, h.relabel hρ hagree, heffect⟩
  · refine ⟨π, h, ?_⟩
    have heffect := h.relabels.atomic slot c
    rw [@atomic_slot m.node (π slot) c (fun hcreates i hi => ?_) slot']
    · exact heffect
    rw [heffect.outcome] at hi
    cases hout : (atomic T slot c).outcome with
    | error kind => rw [hout] at hi; cases hi
    | ok j => exact hok ⟨hcreates, j, hout⟩

/-- **One more call of the log.** -/
theorem Serial.step {fs : TfsFs} (h : Serial fs.inodeTable.capacity π log T m)
    (hT : TreeInv fs.inodeTable.capacity T) {e : Entry ι} {c : Call} (hc : c.Valid)
    (hfit : Fits fs.inodeTable.capacity T e.slot c)
    (houtcome : (atomic T e.slot c).outcome = e.outcome)
    (hleak : (atomic T e.slot c).leak = e.leak)
    (hlegal : ∀ x ∈ requests T c.plan, ∀ e' ∈ log, ∀ y ∈ e'.leak, y.1 = x.1 → ¬x.2.Conflict y.2)
    (htid : e.tid ∉ log.map Entry.tid)
    (hroom : c.creates = true →
      (liveSlots fs.inodeTable.capacity m.node).card < fs.inodeTable.capacity) :
    ∃ (ρ : Equiv.Perm Nat) (reply : Reply) (m' : Mem ι),
      (c.prog fs).run (machine ι) e.tid m = some (reply, m') ∧
      outcomeKind reply.outcome = outcomeKind e.outcome ∧
      Serial fs.inodeTable.capacity ρ (log ++ [e]) (atomic T e.slot c).tree m' ∧
      (liveSlots fs.inodeTable.capacity m'.node).card ≤
        (liveSlots fs.inodeTable.capacity m.node).card + if c.creates then 1 else 0 := by
  have hfree : ∀ i a, (e.tid, a) ∉ m.locks i := by
    intro i a hmem
    rw [← π.apply_symm_apply i, h.holders] at hmem
    obtain ⟨e', he', heq, -⟩ := hmem
    exact htid (heq ▸ List.mem_map_of_mem he')
  obtain ⟨reply, m', hrun⟩ := exists_run_call hc h.tree h.ok hfree (h.admits hlegal)
    fun path type hcreate => h.exists_slot (hroom (by rw [hcreate]; rfl))
  obtain ⟨slot', leak', hfit', hatomic, hok', hholders⟩ := run_call hc h.tree h.ok hfree hrun
  obtain ⟨ρ, hρ, heffect⟩ := h.exists_relabel hT hfit hfit'
  have hinv := atomic_treeInv h.tree hc hfit'
  have hcard := card_liveSlots_atomic h.tree hc hfit'
  rw [hatomic] at heffect hinv hcard
  have hleak' := heffect.leak
  have hkind := heffect.outcome
  rw [hleak] at hleak'
  rw [houtcome] at hkind
  dsimp only at hleak' hkind
  refine ⟨ρ, reply, m', hrun, ?_, ⟨hinv, hok', heffect.tree, fun i u a => ?_,
    live_of_run_call hc h.tree h.ok hfree hrun h.live⟩, hcard⟩
  · rw [hkind]
    cases e.outcome <;> rfl
  · rw [hholders, hρ.holders, hleak']
    have hmem : (ρ i, a) ∈ e.leak.map (fun x => (ρ x.1, x.2)) ↔ (i, a) ∈ e.leak := by
      simp [Option.mem_def, Option.map_eq_some_iff]
    rw [hmem]
    constructor
    · rintro (⟨e', he', hu, hi⟩ | ⟨rfl, hi⟩)
      · exact ⟨e', List.mem_append_left _ he', hu, hi⟩
      · exact ⟨e, by simp, rfl, hi⟩
    · rintro ⟨e', he', rfl, hi⟩
      rcases List.mem_append.mp he' with he' | he'
      · exact Or.inl ⟨e', he', rfl, hi⟩
      · obtain rfl := List.mem_singleton.mp he'
        exact Or.inr ⟨rfl, hi⟩

end Serial

section Run

variable {fs : TfsFs} {call : ι → Call} {m : Mem ι}

omit [DecidableEq ι] in
/-- Nothing was run again. -/
theorem serial_nil (hT : TreeInv fs.inodeTable.capacity m.node) (hlocks : ∀ i, m.locks i = []) :
    Serial fs.inodeTable.capacity (Equiv.refl Nat) [] m.node m where
  tree := hT
  ok i := by rw [hlocks i]; exact RwLock.ok_nil
  relabels := ⟨rfl, fun i => (TfsInode.relabel_id (m.node i)).symm⟩
  holders i u a := by simp [hlocks]
  live i hi := absurd (hlocks i) hi

/-- **All calls of the log can be run again**, in that order. -/
theorem exists_serial (hvalid : ∀ t, (call t).Valid) (hT : TreeInv fs.inodeTable.capacity m.node)
    (hlocks : ∀ i, m.locks i = []) {log : List (Entry ι)} {T : Tree}
    (h : (Setup.ofMem fs (fun t => .call (call t)) hvalid m hT).Replay log T)
    (hnodup : (log.map Entry.tid).Nodup)
    (hroom : (liveSlots fs.inodeTable.capacity m.node).card +
      (log.map Entry.tid).countP (fun t => (call t).creates) ≤ fs.inodeTable.capacity) :
    ∃ (π : Equiv.Perm Nat) (replies : List Reply) (m' : Mem ι),
      runCalls fs (log.map fun e => (call e.tid, e.tid)) m = some (replies, m') ∧
      replies.map (fun reply => outcomeKind reply.outcome) =
        log.map (fun e => outcomeKind e.outcome) ∧
      Serial fs.inodeTable.capacity π log T m' ∧
      (liveSlots fs.inodeTable.capacity m'.node).card ≤
        (liveSlots fs.inodeTable.capacity m.node).card +
          (log.map Entry.tid).countP fun t => (call t).creates := by
  induction h with
  | nil => exact ⟨_, [], m, rfl, rfl, serial_nil hT hlocks, le_rfl⟩
  | @snoc log T e c h hc hfit houtcome hleak hlegal ih =>
    obtain rfl : c = call e.tid := (Task.call.inj hc).symm
    rw [List.map_append, List.nodup_append] at hnodup
    have htid : e.tid ∉ log.map Entry.tid := fun hmem =>
      hnodup.2.2 _ hmem _ (List.mem_singleton_self _) rfl
    have hcount : ((log ++ [e]).map Entry.tid).countP (fun t => (call t).creates) =
        (log.map Entry.tid).countP (fun t => (call t).creates) +
          if (call e.tid).creates then 1 else 0 := by
      rw [List.map_append, List.countP_append, List.map_singleton, List.countP_singleton]
    rw [hcount] at hroom ⊢
    obtain ⟨π, replies, m₁, hrun, hkinds, hserial, hcard⟩ := ih hnodup.1 (by omega)
    obtain ⟨ρ, reply, m', hcall, hkind, hserial', hcard'⟩ :=
      hserial.step h.treeInv (hvalid e.tid) hfit houtcome hleak hlegal htid fun hcreates => by
        rw [if_pos hcreates] at hroom
        omega
    refine ⟨ρ, replies ++ [reply], m', ?_, ?_, hserial', by omega⟩
    · rw [List.map_append]
      exact runCalls_concat hrun hcall
    · rw [List.map_append, List.map_append, hkinds]
      exact congrArg _ (congrArg (· :: []) hkind)

end Run

/-! ## All threads together -/

namespace Setup

variable {S : Setup ι} {w : FsWorld ι} {t : ι}

/-- A call that has returned is on the log, with its outcome and no other. -/
theorem Final.exists_entry {reply : Reply} {c : Call} (hc : S.task t = .call c)
    (h : S.Final t reply w) : (∃ e ∈ w.ghost.log, e.tid = t) ∧
      ∀ e ∈ w.ghost.log, e.tid = t → e.outcome = reply.outcome := by
  rw [Final, hc] at h
  obtain ⟨e, T, slot, hr, hlocal⟩ := h
  refine ⟨⟨e, hlocal.mem_mine_iff.mp (List.mem_singleton_self e)⟩, fun e' he' htid => ?_⟩
  rw [List.mem_singleton.mp (hlocal.mem_mine_iff.mpr ⟨he', htid⟩), hr]

/-- A thread that has not been invoked is not on the log. -/
theorem Fresh.not_mem (h : S.Fresh t w) : t ∉ w.ghost.log.map Entry.tid := by
  intro hmem
  obtain ⟨e, he, htid⟩ := List.mem_map.mp hmem
  exact Local.fresh h e he htid

/-- **The log respects real time**, if all tasks are calls. -/
theorem Starts.exists_good_ordered {m : Mem ι} (h : S.Starts m)
    (hfree : ∀ t i a, (t, a) ∉ m.locks i) (hcalls : ∀ t, S.Calls t) {tr : List (Event ι)}
    {c : Config Op Op.Resp ι (Mem ι) Reply} (hrun : S.Run m tr c) :
    ∃ w, S.contract.Good c w ∧ ∀ t u, Precedes tr t u →
      ∃ l₁ l₂, w.ghost.log.map Entry.tid = l₁ ++ l₂ ∧ t ∈ l₁ ∧ u ∉ l₁ := by
  refine @Contract.exists_good_ordered _ _ _ _ _ _ _ _ _ S.contract _
    (fun g : Ghost ι => g.log.map Entry.tid) (fun t w w' hguar => ?_) (fun t a w _ hfinal => ?_)
    (fun t w _ hfresh => hfresh.not_mem) m ⟨S.tree, [], fun _ => none⟩ h.inv
    (fun t => fresh_start (hfree t)) tr c hrun
  · obtain ⟨l, hl, -⟩ := hguar.own
    rw [hl, List.map_append]
    exact List.prefix_append _ _
  · obtain ⟨call, hcall⟩ := hcalls t
    obtain ⟨⟨e, he, rfl⟩, -⟩ := hfinal.exists_entry hcall
    exact List.mem_map_of_mem he

end Setup

/-- **The calls are serializable.**  Threads have made their calls on a tree with an empty
slot for each creation, and all of them have returned.  Then the calls can be run one
after the other, in an order in which a call that returned before another one was invoked
comes first, so that each of them succeeds, or fails with the same kind of error, as it
did, and the tree in the end is the same, but for the numbers of the inodes. -/
theorem serializable [Fintype ι] {fs : TfsFs} {call : ι → Call} (hvalid : ∀ t, (call t).Valid)
    {m : Mem ι} (hT : TreeInv fs.inodeTable.capacity m.node) (hlocks : ∀ i, m.locks i = [])
    (hroom : (liveSlots fs.inodeTable.capacity m.node).card +
      (Finset.univ.filter fun t => (call t).creates).card ≤ fs.inodeTable.capacity)
    {tr : List (Event ι)} {c : Config Op Op.Resp ι (Mem ι) Reply}
    (hrun : Run (machine ι) (fun t => (call t).prog fs) (.initial m) tr c) {reply : ι → Reply}
    (hret : ∀ t, c.thread t = .returned (reply t)) :
    ∃ (order : List ι) (replies : List Reply) (m' : Mem ι) (π : Equiv.Perm Nat),
      order.Nodup ∧ (∀ t, t ∈ order) ∧
      (∀ t u, Precedes tr t u → order.idxOf t < order.idxOf u) ∧
      runCalls fs (order.map fun t => (call t, t)) m = some (replies, m') ∧
      replies.map (fun reply => outcomeKind reply.outcome) =
        order.map (fun t => outcomeKind (reply t).outcome) ∧
      π 0 = 0 ∧ ∀ i, m'.node (π i) = (c.mem.node i).relabel π := by
  have hstarts := @Setup.starts_ofMem ι fs (fun t => .call (call t)) hvalid m hT fun i => by
    rw [hlocks i]
    exact RwLock.ok_nil
  obtain ⟨w, hg, horder⟩ := hstarts.exists_good_ordered (by simp [hlocks]) (fun t => ⟨_, rfl⟩) hrun
  have hfinal : ∀ t, (Setup.ofMem fs (fun t => .call (call t)) hvalid m hT).Final t (reply t) w := by
    intro t
    have hknows := hg.knows t
    rw [hret t] at hknows
    exact hknows
  have hmem : ∀ t, t ∈ w.ghost.log.map Entry.tid := fun t => by
    obtain ⟨⟨e, he, rfl⟩, -⟩ := Setup.Final.exists_entry rfl (hfinal t)
    exact List.mem_map_of_mem he
  have hcount : (w.ghost.log.map Entry.tid).countP (fun t => (call t).creates) ≤
      (Finset.univ.filter fun t => (call t).creates).card := by
    rw [List.countP_eq_length_filter, ← List.toFinset_card_of_nodup (hg.inv.tids.filter _)]
    refine Finset.card_le_card fun t ht => ?_
    rw [List.mem_toFinset, List.mem_filter] at ht
    exact Finset.mem_filter.mpr ⟨Finset.mem_univ t, ht.2⟩
  obtain ⟨π, replies, m', hcalls, hkinds, hserial, -⟩ :=
    exists_serial hvalid hT hlocks hg.inv.replay hg.inv.tids (by omega)
  obtain ⟨-, hnode⟩ := quiet_of_good hg fun t => Or.inr ⟨_, hret t⟩
  refine ⟨w.ghost.log.map Entry.tid, replies, m', π, hg.inv.tids, hmem, fun t u htu => ?_, ?_, ?_,
    hserial.relabels.root, fun i => ?_⟩
  · obtain ⟨l₁, l₂, heq, ht, hu⟩ := horder t u htu
    rw [heq, List.idxOf_append_of_mem ht, List.idxOf_append_of_notMem hu]
    exact Nat.lt_add_right _ (List.idxOf_lt_length_of_mem ht)
  · rw [List.map_map]
    exact hcalls
  · rw [hkinds, List.map_map]
    refine List.map_congr_left fun e he => congrArg outcomeKind ?_
    exact (Setup.Final.exists_entry rfl (hfinal e.tid)).2 e he rfl
  · rw [← hg.mem, hnode, hserial.relabels.node]

/-- Two threads that create the same thing; the second to come is the first to lock. -/
def sameCreations : Bool → Call
  | true => .create ⟨0, cstr "/a"⟩ .dir
  | false => .create ⟨0, cstr "/a"⟩ .file

theorem exists_serializable : ∃ (fs : TfsFs) (m : Mem Bool) (tr : List (Event Bool))
    (c : Config Op Op.Resp Bool (Mem Bool) Reply) (reply : Bool → Reply),
    tfsFsNew.run (machine Bool) true (Mem.zero (fun _ => true) fun _ => []) = some (fs, m) ∧
    Run (machine Bool) (fun t => (sameCreations t).prog fs) (.initial m) tr c ∧
    (∀ t, c.thread t = .returned (reply t)) ∧
    ∃ (order : List Bool) (replies : List Reply) (m' : Mem Bool) (π : Equiv.Perm Nat),
      runCalls fs (order.map fun t => (sameCreations t, t)) m = some (replies, m') ∧
      replies.map (fun reply => outcomeKind reply.outcome) =
        order.map (fun t => outcomeKind (reply t).outcome) ∧
      ∀ i, m'.node (π i) = (c.mem.node i).relabel π := by
  have hnew := run_tfsFsNew true (fun _ => true) fun _ => []
  obtain ⟨hT, hfree⟩ := tree_of_new hnew
  generalize hm : (Mem.zero (fun _ => true) fun _ => []).setNode 0 (.dir tfsInodeDirNew) = m
    at hnew hT hfree
  have hafter : ((Config.initial m).after (machine Bool) (fun t => (sameCreations t).prog ⟨⟨128⟩⟩)
      (.replicate 2 true ++ .replicate 24 false ++ .replicate 23 true)).map
        (fun c => [true, false].all fun t => (c.result t).isSome) = some true := by
    subst hm
    decide +kernel
  have hroom : (liveSlots 128 m.node).card +
      (Finset.univ.filter fun t => (sameCreations t).creates).card ≤ 128 := by
    subst hm
    decide
  obtain ⟨c, hc, hresult⟩ := Option.map_eq_some_iff.mp hafter
  obtain ⟨tr, -, hrun⟩ := Run.nil.exists_after hc
  have hsome : ∀ t, ∃ reply, c.thread t = .returned reply := fun t => by
    have hsome := List.all_eq_true.mp hresult t (by cases t <;> simp)
    obtain ⟨reply, hreply⟩ := Option.isSome_iff_exists.mp hsome
    exact ⟨reply, Config.thread_of_result hreply⟩
  choose reply hret using hsome
  have hvalid : ∀ t, (sameCreations t).Valid := fun t => by cases t <;> decide
  obtain ⟨order, replies, m', π, -, -, -, hcalls, hkinds, -, hnode⟩ :=
    serializable hvalid hT hfree hroom hrun hret
  exact ⟨_, m, _, c, reply, hnew, hrun, hret, order, replies, m', π, hcalls, hkinds, hnode⟩

end TecnicoFs
