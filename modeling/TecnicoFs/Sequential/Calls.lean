import TecnicoFs.Concurrent.Alone
import TecnicoFs.Spec.Names
import Mathlib.Logic.Relation

/-!
# Calls one after the other

A finite sequence of calls on a new file system, each run to its end before the next one
starts.  Every call has a thread of its own, so that a lock which a call keeps is not
taken for a lock of a later call.

What every call keeps holds in the end (`runCalls_induction`): the inode table is a tree,
and its entries have the names that are documented, unless some call moves an entry of a
full directory to the path of that directory.
-/

namespace TecnicoFs

open Interleaving Function Graph

variable {ι : Type} [DecidableEq ι]

/-- Runs calls one after the other. -/
def runCalls (fs : TfsFs) : List (Call × ι) → Mem ι → Option (List Reply × Mem ι)
  | [], m => some ([], m)
  | (c, t) :: calls, m =>
      match (c.prog fs).run (machine ι) t m with
      | none => none
      | some (reply, m') =>
          match runCalls fs calls m' with
          | none => none
          | some (replies, m'') => some (reply :: replies, m'')

/-- Every call starts in a tree with the property that `C` asks of it. -/
def CallsMeet (C : Tree → Call → Prop) (fs : TfsFs) : List (Call × ι) → Mem ι → Prop
  | [], _ => True
  | (c, t) :: calls, m =>
      C m.node c ∧ ∀ reply m', (c.prog fs).run (machine ι) t m = some (reply, m') →
        CallsMeet C fs calls m'

section Induction

variable {fs : TfsFs} {calls : List (Call × ι)} {m m' : Mem ι} {replies : List Reply}

theorem runCalls_cons {c : Call} {t : ι}
    (h : runCalls fs ((c, t) :: calls) m = some (replies, m')) :
    ∃ reply m₁ replies', (c.prog fs).run (machine ι) t m = some (reply, m₁) ∧
      runCalls fs calls m₁ = some (replies', m') ∧ replies = reply :: replies' := by
  rw [runCalls] at h
  split at h
  · cases h
  rename_i reply m₁ hrun
  split at h
  · cases h
  rename_i replies' m₂ hcalls
  obtain ⟨rfl, rfl⟩ := Prod.mk.inj (Option.some.inj h)
  exact ⟨reply, m₁, replies', hrun, hcalls, rfl⟩

/-- **What every call keeps of the memory holds after all of them.** -/
theorem runCalls_mem_induction {P : Mem ι → Prop} {C : Tree → Call → Prop}
    (hP : ∀ m c t reply m', TreeInv fs.inodeTable.capacity m.node → (∀ i, RwLock.Ok (m.locks i)) →
      (∀ i a, (t, a) ∉ m.locks i) → c.Valid → C m.node c →
      (c.prog fs).run (machine ι) t m = some (reply, m') → P m → P m')
    (hvalid : ∀ x ∈ calls, x.1.Valid) (hnodup : (calls.map Prod.snd).Nodup)
    (hT : TreeInv fs.inodeTable.capacity m.node) (hlocks : ∀ i, RwLock.Ok (m.locks i))
    (hfree : ∀ x ∈ calls, ∀ i a, (x.2, a) ∉ m.locks i) (hC : CallsMeet C fs calls m)
    (hm : P m) (hrun : runCalls fs calls m = some (replies, m')) :
    TreeInv fs.inodeTable.capacity m'.node ∧ (∀ i, RwLock.Ok (m'.locks i)) ∧
      (∀ i u a, (u, a) ∈ m'.locks i → (u, a) ∈ m.locks i ∨ u ∈ calls.map Prod.snd) ∧ P m' := by
  induction calls generalizing m replies with
  | nil =>
    obtain ⟨-, rfl⟩ := Prod.mk.inj (Option.some.inj hrun)
    exact ⟨hT, hlocks, fun _ _ _ => Or.inl, hm⟩
  | cons x calls ih =>
    obtain ⟨c, t⟩ := x
    rw [List.forall_mem_cons] at hvalid hfree
    rw [List.map_cons, List.nodup_cons] at hnodup
    obtain ⟨reply, m₁, replies', hcall, hcalls, -⟩ := runCalls_cons hrun
    obtain ⟨slot, leak, hfit, hatomic, hlocks₁, hholders⟩ :=
      run_call hvalid.1 hT hlocks hfree.1 hcall
    have htree : (atomic m.node slot c).tree = m₁.node := by rw [hatomic]
    have hfree₁ : ∀ x ∈ calls, ∀ i a, (x.2, a) ∉ m₁.locks i := by
      intro y hy i a hya
      rcases (hholders i y.2 a).mp hya with h | ⟨h, -⟩
      · exact hfree.2 y hy i a h
      · exact hnodup.1 (h ▸ List.mem_map_of_mem hy)
    obtain ⟨hT', hlocks', hold, hm'⟩ := ih hvalid.2 hnodup.2
      (htree ▸ atomic_treeInv hT hvalid.1 hfit) hlocks₁ hfree₁ (hC.2 reply m₁ hcall)
      (hP m c t reply m₁ hT hlocks hfree.1 hvalid.1 hC.1 hcall hm) hcalls
    refine ⟨hT', hlocks', fun i u a hu => ?_, hm'⟩
    rw [List.map_cons, List.mem_cons]
    rcases hold i u a hu with h | h
    · exact ((hholders i u a).mp h).imp id fun h => Or.inl h.1
    · exact Or.inr (Or.inr h)

/-- **What every call keeps of the tree holds after all of them.** -/
theorem runCalls_induction {P : Tree → Prop} {C : Tree → Call → Prop}
    (hP : ∀ T slot c, TreeInv fs.inodeTable.capacity T → P T → c.Valid → C T c →
      Fits fs.inodeTable.capacity T slot c → P (atomic T slot c).tree)
    (hvalid : ∀ x ∈ calls, x.1.Valid) (hnodup : (calls.map Prod.snd).Nodup)
    (hT : TreeInv fs.inodeTable.capacity m.node) (hlocks : ∀ i, RwLock.Ok (m.locks i))
    (hfree : ∀ x ∈ calls, ∀ i a, (x.2, a) ∉ m.locks i) (hC : CallsMeet C fs calls m)
    (hm : P m.node) (hrun : runCalls fs calls m = some (replies, m')) :
    TreeInv fs.inodeTable.capacity m'.node ∧ P m'.node := by
  obtain ⟨hT', -, -, hm'⟩ := runCalls_mem_induction (P := fun m => P m.node) (C := C)
    (fun m c t reply m' hT hlocks hfree hc hC hcall hm => by
      obtain ⟨slot, leak, hfit, hatomic, -, -⟩ := run_call hc hT hlocks hfree hcall
      have hkeep := hP m.node slot c hT hm hc hC hfit
      rwa [hatomic] at hkeep) hvalid hnodup hT hlocks hfree hC hm hrun
  exact ⟨hT', hm'⟩

theorem callsMeet_of_forall {C : Tree → Call → Prop} (h : ∀ x ∈ calls, ∀ T, C T x.1) :
    CallsMeet C fs calls m := by
  induction calls generalizing m with
  | nil => trivial
  | cons x calls ih =>
    rw [List.forall_mem_cons] at h
    exact ⟨h.1 _, fun _ _ _ => ih h.2⟩

/-- Calls other than moves leave nothing locked. -/
theorem runCalls_unlocked (hvalid : ∀ x ∈ calls, x.1.Valid)
    (hnodup : (calls.map Prod.snd).Nodup) (hmove : ∀ x ∈ calls, ¬(Task.call x.1).Moves)
    (hT : TreeInv fs.inodeTable.capacity m.node) (hlocks : ∀ i, m.locks i = [])
    (hrun : runCalls fs calls m = some (replies, m')) :
    TreeInv fs.inodeTable.capacity m'.node ∧ ∀ i, m'.locks i = [] := by
  obtain ⟨hT', -, -, hm'⟩ := runCalls_mem_induction (P := fun m => ∀ i, m.locks i = [])
    (C := fun _ c => ¬(Task.call c).Moves)
    (fun m c t reply m' hT hok hfree hc hmove hcall hm i => by
      obtain ⟨slot, leak, -, hatomic, -, hholders⟩ := run_call hc hT hok hfree hcall
      obtain rfl : leak = none := by rw [← atomic_leak hmove m.node slot, hatomic]
      exact List.eq_nil_iff_forall_not_mem.mpr fun y hy => by
        simpa [hm] using (hholders i y.1 y.2).mp hy)
    hvalid hnodup hT (fun i => by rw [hlocks i]; exact RwLock.ok_nil) (by simp [hlocks])
    (callsMeet_of_forall fun x hx _ => hmove x hx) hlocks hrun
  exact ⟨hT', hm'⟩

end Induction

/-! ## The tree -/

/-- Entry `n` of directory `p` is occupied and refers to `idx`. -/
def Refers (T : Tree) (p n idx : Nat) : Prop :=
  ∃ d entry, T p = .dir d ∧ d.entries[n]? = some entry ∧ entry.inodeIdx = some idx

/-- **The shape of a tree.**  The root is a directory.  What an entry refers to is in range,
in use, and not the root.  Everything else that is in use is referred to by one entry, and
following these from anywhere leads to the root. -/
structure TreeShape (capacity : Nat) (T : Tree) : Prop where
  root : (T 0).type = .dir
  entry : ∀ p n idx, Refers T p n idx → idx < capacity ∧ T idx ≠ .none ∧ idx ≠ 0
  unique : ∀ idx, T idx ≠ .none → idx ≠ 0 → ∃! x : Nat × Nat, Refers T x.1 x.2 idx
  reach : ∀ idx, T idx ≠ .none →
    Relation.ReflTransGen (fun i p => ∃ n, Refers T p n i) idx 0

section Shape

variable {capacity : Nat} {T : Tree}

theorem Refers.child {p n idx : Nat} (h : Refers T p n idx) : ∃ name, Child T p name idx := by
  obtain ⟨d, ⟨name, inodeIdx⟩, hd, hentry, rfl⟩ := h
  exact ⟨name, d, hd, TfsInodeDir.mem_children_iff.mpr (List.mem_of_getElem? hentry)⟩

theorem exists_refers {p idx : Nat} {name : List CChar} (h : Child T p name idx) :
    ∃ n, Refers T p n idx := by
  obtain ⟨d, hd, hmem⟩ := h
  obtain ⟨n, hn⟩ := List.mem_iff_getElem?.mp (TfsInodeDir.mem_children_iff.mp hmem)
  exact ⟨n, d, _, hd, hn, rfl⟩

/-- Two occupied entries of one name are the same one. -/
theorem eq_of_nodup_names {d : TfsInodeDir} (h : d.names.Nodup) {n n' idx idx' : Nat}
    {name : List CChar} (hn : d.entries[n]? = some ⟨name, some idx⟩)
    (hn' : d.entries[n']? = some ⟨name, some idx'⟩) : n = n' := by
  have hpair : d.entries.Pairwise fun e e' => ∀ x ∈ e.child, ∀ x' ∈ e'.child, x.1 ≠ x'.1 := by
    rw [TfsInodeDir.names, TfsInodeDir.children, List.Nodup, List.pairwise_map,
      List.pairwise_filterMap] at h
    exact h
  obtain ⟨hlt, hget⟩ := List.getElem?_eq_some_iff.mp hn
  obtain ⟨hlt', hget'⟩ := List.getElem?_eq_some_iff.mp hn'
  rcases Nat.lt_trichotomy n n' with hlt'' | heq | hlt''
  · have := List.pairwise_iff_getElem.mp hpair n n' hlt hlt' hlt'' (name, idx)
      (by rw [hget]; rfl) (name, idx') (by rw [hget']; rfl)
    exact absurd rfl this
  · exact heq
  · have := List.pairwise_iff_getElem.mp hpair n' n hlt' hlt hlt'' (name, idx')
      (by rw [hget']; rfl) (name, idx) (by rw [hget]; rfl)
    exact absurd rfl this

theorem TreeInv.shape (hT : TreeInv capacity T) : TreeShape capacity T where
  root := hT.root
  entry p n idx h := by
    obtain ⟨name, hchild⟩ := h.child
    have hlive := hT.live_of_child hchild
    exact ⟨hT.bound hlive, hlive, fun h0 => hT.tree.root_fresh (h0 ▸ hchild)⟩
  unique idx hlive h0 := by
    obtain ⟨cs, w⟩ := hT.tree.reach hlive
    rcases List.eq_nil_or_concat' cs with rfl | ⟨ds, name, rfl⟩
    · exact absurd (Walk.nil_iff.mp w).symm h0
    obtain ⟨p, -, hchild⟩ := Walk.snoc_iff.mp w
    obtain ⟨n, hn⟩ := exists_refers hchild
    refine ⟨(p, n), hn, ?_⟩
    rintro ⟨p', n'⟩ hn'
    dsimp only at hn'
    obtain ⟨d, ⟨name₁, _⟩, hd, hentry, rfl⟩ := hn
    obtain ⟨d', ⟨name₂, _⟩, hd', hentry', rfl⟩ := hn'
    have hchild₁ : Child T p name₁ idx :=
      ⟨d, hd, TfsInodeDir.mem_children_iff.mpr (List.mem_of_getElem? hentry)⟩
    have hchild₂ : Child T p' name₂ idx :=
      ⟨d', hd', TfsInodeDir.mem_children_iff.mpr (List.mem_of_getElem? hentry')⟩
    obtain ⟨rfl, rfl⟩ := hT.tree.parent hchild₁ hchild₂
    obtain rfl : d = d' := TfsInode.dir.inj (hd.symm.trans hd')
    rw [eq_of_nodup_names (hT.names hd) hentry hentry']
  reach idx hlive := by
    obtain ⟨cs, w⟩ := hT.tree.reach hlive
    clear hlive
    induction cs using List.reverseRecOn generalizing idx with
    | nil => rw [Walk.nil_iff.mp w]
    | append_singleton ds name ih =>
      obtain ⟨p, wp, hchild⟩ := Walk.snoc_iff.mp w
      exact Relation.ReflTransGen.head (exists_refers hchild) (ih p wp)

end Shape

/-! ## On a new file system -/

section New

variable {t₀ : Nat} {canOpen : List CChar → Bool} {file : List CChar → List CChar} {fs : TfsFs}
  {m m' : Mem Nat} {calls : List Call} {replies : List Reply}

theorem forall_zipIdx {P : Call → Prop} (h : ∀ c ∈ calls, P c) : ∀ x ∈ calls.zipIdx, P x.1 :=
  fun x hx => h x.1 (List.fst_mem_of_mem_zipIdx hx)

/-- The threads that make the calls of a run are distinct. -/
theorem nodup_zipIdx (calls : List Call) : (calls.zipIdx.map Prod.snd).Nodup := by
  rw [List.zipIdx_map_snd]
  exact List.nodup_range'

/-- What every call keeps holds after any calls on a new file system. -/
theorem new_induction {P : Tree → Prop} {C : Tree → Call → Prop}
    (hP : ∀ T slot c, TreeInv fs.inodeTable.capacity T → P T → c.Valid → C T c →
      Fits fs.inodeTable.capacity T slot c → P (atomic T slot c).tree)
    (hvalid : ∀ c ∈ calls, c.Valid)
    (hnew : tfsFsNew.run (machine Nat) t₀ (Mem.zero canOpen file) = some (fs, m))
    (hm : P m.node) (hC : CallsMeet C fs calls.zipIdx m)
    (hrun : runCalls fs calls.zipIdx m = some (replies, m')) :
    TreeInv fs.inodeTable.capacity m'.node ∧ P m'.node := by
  obtain ⟨hT, hlocks⟩ := tree_of_new hnew
  exact runCalls_induction hP (forall_zipIdx hvalid) (nodup_zipIdx calls) hT
    (fun i => by rw [hlocks i]; exact RwLock.ok_nil) (by simp [hlocks]) hC hm hrun

/-- **After any calls on a new file system the inode table is a tree.** -/
theorem tree_of_calls (hvalid : ∀ c ∈ calls, c.Valid)
    (hnew : tfsFsNew.run (machine Nat) t₀ (Mem.zero canOpen file) = some (fs, m))
    (hrun : runCalls fs calls.zipIdx m = some (replies, m')) :
    TreeShape fs.inodeTable.capacity m'.node :=
  (new_induction (P := fun _ => True) (C := fun _ _ => True) (fun _ _ _ _ _ _ _ _ => trivial)
    hvalid hnew trivial (callsMeet_of_forall fun _ _ _ => trivial) hrun).1.shape

/-- A directory whose four entries are occupied, and a move of one of them to the path of the
directory. -/
def blankingCalls : List Call :=
  [.create ⟨0, cstr "/a"⟩ .dir, .create ⟨0, cstr "/a/b"⟩ .file, .create ⟨0, cstr "/a/c"⟩ .file,
    .create ⟨0, cstr "/a/d"⟩ .file, .create ⟨0, cstr "/a/e"⟩ .file,
    .move ⟨0, cstr "/a/b"⟩ ⟨20, cstr "/a"⟩ .unique]

theorem exists_tree_of_calls : ∃ (fs : TfsFs) (m m' : Mem Nat) (replies : List Reply),
    tfsFsNew.run (machine Nat) 0 (Mem.zero (fun _ => true) fun _ => []) = some (fs, m) ∧
    runCalls fs blankingCalls.zipIdx m = some (replies, m') ∧
    TreeShape fs.inodeTable.capacity m'.node := by
  have hnew := run_tfsFsNew (0 : Nat) (fun _ => true) fun _ => []
  obtain ⟨⟨replies, m'⟩, hrun⟩ := Option.isSome_iff_exists.mp (show (runCalls ⟨⟨128⟩⟩
    blankingCalls.zipIdx ((Mem.zero (fun _ => true) fun _ => []).setNode 0
      (.dir tfsInodeDirNew))).isSome = true by decide +kernel)
  exact ⟨_, _, m', replies, hnew, hrun, tree_of_calls (by decide) hnew hrun⟩

/-- A move that leaves the names as documented. -/
def renamingCalls : List Call :=
  [.create ⟨0, cstr "/a"⟩ .dir, .create ⟨0, cstr "/a/b"⟩ .file,
    .move ⟨0, cstr "/a/b"⟩ ⟨20, cstr "c"⟩ .unique]

/-- The memory of the new file system. -/
def newMem : Mem Nat := (Mem.zero (fun _ => true) fun _ => []).setNode 0 (.dir tfsInodeDirNew)

theorem run_newMem :
    tfsFsNew.run (machine Nat) 0 (Mem.zero (fun _ => true) fun _ => []) = some (⟨⟨128⟩⟩, newMem) :=
  run_tfsFsNew 0 (fun _ => true) fun _ => []

/-- A state that some calls other than moves lead to, with what is seen of it. -/
theorem exists_unlocked_of_calls {β : Type} {calls : List Call} (hvalid : ∀ c ∈ calls, c.Valid)
    (hmove : ∀ c ∈ calls, ¬(Task.call c).Moves) {view : Mem Nat → β} {b : β}
    (h : (runCalls ⟨⟨128⟩⟩ calls.zipIdx newMem).map (fun x => view x.2) = some b) :
    ∃ m' replies, runCalls ⟨⟨128⟩⟩ calls.zipIdx newMem = some (replies, m') ∧
      TreeInv 128 m'.node ∧ (∀ i, m'.locks i = []) ∧ view m' = b := by
  obtain ⟨⟨replies, m'⟩, hrun, hview⟩ := Option.map_eq_some_iff.mp h
  obtain ⟨hT, hlocks⟩ := tree_of_new run_newMem
  obtain ⟨hT', hlocks'⟩ := runCalls_unlocked (forall_zipIdx hvalid) (nodup_zipIdx calls)
    (forall_zipIdx hmove) hT hlocks hrun
  exact ⟨m', replies, hrun, hT', hlocks', hview⟩

end New

end TecnicoFs
