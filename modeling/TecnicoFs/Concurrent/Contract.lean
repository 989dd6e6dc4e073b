import TecnicoFs.Concurrent.Listing

/-!
# All threads together

The judgements about the single operations, as the contract of every thread.  A thread
that has not been invoked holds nothing and is not on the log; a call that returned is on
it once, with the outcome it returned, and holds at most what a failed move keeps.

What follows is said of every reachable configuration of the whole system.
-/

namespace TecnicoFs

open Interleaving Function

variable {ι : Type} [DecidableEq ι]

namespace Setup

variable {S : Setup ι} {t : ι} {E : S.protocol.Env t} {T : Tree} {slot : Option Nat}
  {w w' : FsWorld ι} {i : Nat} {r : Outcome}

/-! ## A whole call -/

variable (S) in
/-- The call of `t` has the outcome `r`, and `t` holds at most what it keeps. -/
def Ended (t : ι) (r : Outcome) (w : FsWorld ι) : Prop :=
  ∃ T N leak, S.Done t leak.toList T N r leak w ∧ ∀ x ∈ leak, T x.1 ≠ .none

theorem Ended.env (h : S.Ended t r w) (hs : E.step w w') : S.Ended t r w' := by
  obtain ⟨T, N, leak, hdone, hlive⟩ := h
  exact ⟨T, N, leak, hdone.env hs, hlive⟩

theorem operation_safe {c : Call} (hc : S.task t = .call c) (h : Local t [] T T [] none w) :
    S.Safe E (fun reply w' => S.Finished t reply.outcome w') (c.operation S.fs) w := by
  cases c with
  | create path type =>
    exact Safe.bind ((tfsFsCreate_safe hc h).mono fun _ _ _ hfin _ hs _ => hfin.env hs)
  | remove path =>
    exact Safe.bind ((tfsFsRemove_safe hc h).mono fun _ _ _ hfin _ hs _ => hfin.env hs)
  | find path access =>
    exact Safe.bind ((tfsFsFind_safe hc h).mono fun _ _ _ hfin _ hs _ => hfin.env hs)
  | move origPath destPath access =>
    exact Safe.bind ((tfsFsMove_safe hc h).mono fun _ _ _ hfin _ hs _ => hfin.env hs)

/-- The caller unlocks what the operation returned. -/
theorem Finished.unlock_safe {reply : Reply} (h : S.Finished t reply.outcome w) :
    S.Safe E (fun reply w' => S.Ended t reply.outcome w')
      (match reply.outcome with
        | .ok (some idx) => do
            tfsFsUnlockInode S.fs idx
            pure reply
        | _ => pure reply) w := by
  obtain ⟨T, N, leak, held, hdone, ⟨i, a, hr, rfl, hlive, rfl⟩ | ⟨hr, rfl, hlive⟩⟩ := h
  · rw [hr]
    refine Safe.bind (tfsInodeTableUnlockInode_safe hdone hlive (by simp) (by simp)
      fun w₁ _ h₁ w₂ hs₂ _ => ?_)
    exact ⟨T, N, none, h₁.env hs₂, by simp⟩
  · have hended : S.Ended t reply.outcome w := ⟨T, N, leak, hdone, by simpa using hlive⟩
    split
    · rename_i idx heq
      exact absurd heq (hr idx)
    · exact fun w₁ hs₁ _ => hended.env hs₁

/-- **A call does what the tree says**, and returns with nothing but its leak. -/
theorem call_safe {c : Call} (hc : S.task t = .call c) (h : Local t [] T T [] none w) :
    S.Safe E (fun reply w' => S.Ended t reply.outcome w') (c.prog S.fs) w :=
  Safe.bind ((operation_safe hc h).mono fun _ _ _ hfin => hfin.unlock_safe)

/-! ## The contract -/

variable (S) in
/-- What is known of a thread before it is invoked. -/
def Fresh (t : ι) (w : FsWorld ι) : Prop := Local t [] S.tree S.tree [] none w

variable (S) in
/-- What is known of a thread that returned. -/
def Final (t : ι) (reply : Reply) (w : FsWorld ι) : Prop :=
  match S.task t with
  | .call _ => ∃ e T slot, e.outcome = reply.outcome ∧ Local t e.leak.toList T T [e] slot w
  | .print _ => S.Fresh t w

theorem Fresh.rely (hw : Rely t w w') (h : S.Fresh t w) : S.Fresh t w' := h.later hw

theorem Final.rely {reply : Reply} (hw : Rely t w w') (h : S.Final t reply w) :
    S.Final t reply w' := by
  rw [Final] at h ⊢
  split at h
  · obtain ⟨e, T, slot, hr, hlocal⟩ := h
    exact ⟨e, T, slot, hr, hlocal.later hw⟩
  · exact h.later hw

/-- A call commits at its end at the latest. -/
theorem Ended.final {reply : Reply} {c : Call} (hc : S.task t = .call c)
    (h : S.Ended t reply.outcome w) (hi : S.Inv w) :
    ∃ g, S.protocol.Guar t w ⟨w.mem, g⟩ ∧ S.Final t reply ⟨w.mem, g⟩ := by
  obtain ⟨T, N, leak, hdone, hlive⟩ := h
  obtain ⟨g, e, slot, hg, hr, rfl, hlocal⟩ := hdone.settle hi
  refine ⟨g, hg, ?_⟩
  rw [Final, hc]
  refine ⟨e, T, slot, hr, hlocal.congr (fun _ => Iff.rfl) (fun _ _ => rfl) fun x hx => ?_⟩
  exact ((hdone.agree x hx).resolve_left (hlive x (by simpa using hx))).symm

variable (S) in
/-- **Every thread keeps to the protocol.** -/
def contract : Contract (machine ι) S.protocol fun t => (S.task t).prog S.fs where
  fresh := S.Fresh
  final := S.Final
  fresh_of_rely := Fresh.rely
  final_of_rely := Final.rely
  safe {t w} _ h := by
    cases hc : S.task t with
    | call c => exact (call_safe hc h).mono fun _ _ hi hended => hended.final hc hi
    | print fileName =>
      refine Safe.bind ((tfsFsPrint_safe hc h).mono fun result w₁ _ h₁ w₂ hs₂ hi₂ => ?_)
      refine ⟨w₂.ghost, Guar.refl hi₂ t, ?_⟩
      rw [Final, hc]
      exact h₁.env hs₂

/-! ## Starting -/

variable (S) in
/-- A memory to start with. -/
structure Starts (m : Mem ι) : Prop where
  node : m.node = S.tree
  locks : ∀ i, RwLock.Ok (m.locks i)
  used : ∀ i, m.locks i ≠ [] ∨ m.node i ≠ .none → S.used i

variable (S) in
/-- Nothing has been committed. -/
def start (m : Mem ι) : FsWorld ι := ⟨m, ⟨S.tree, [], fun _ => none⟩⟩

omit [DecidableEq ι] in
theorem Starts.inv {m : Mem ι} (h : S.Starts m) : S.Inv (S.start m) where
  locks := h.locks
  node i := Or.inl (congrFun h.node i)
  replay := Replay.nil
  tids := List.nodup_nil
  leaks := by simp [start]
  used i hi := Or.inl (h.used i hi)
  slots := by simp [start]

theorem fresh_start {m : Mem ι} (hfree : ∀ i a, (t, a) ∉ m.locks i) : S.Fresh t (S.start m) where
  owns i a := by simpa [start] using hfree i a
  tree := by simp
  node := by simp
  mine := rfl
  slot := rfl

variable (S) in
/-- The runs of all threads from a memory. -/
abbrev Run (m : Mem ι) :=
  @Interleaving.Run Op Op.Resp ι (Mem ι) Reply _ (machine ι) (fun t => (S.task t).prog S.fs) (.initial m)

/-- **Every reachable configuration keeps to the protocol.** -/
theorem Starts.exists_good {m : Mem ι} (h : S.Starts m) (hfree : ∀ t i a, (t, a) ∉ m.locks i)
    {tr : List (Event ι)} {c : Config Op Op.Resp ι (Mem ι) Reply} (hrun : S.Run m tr c) :
    ∃ w, S.contract.Good c w :=
  Contract.exists_good (g := ⟨S.tree, [], fun _ => none⟩) h.inv (fun t => fresh_start (hfree t)) hrun

/-- The setup that starts with a memory. -/
def ofMem (fs : TfsFs) (task : ι → Task) (hvalid : ∀ t, (task t).Valid) (m : Mem ι)
    (hT : TreeInv fs.inodeTable.capacity m.node) : Setup ι where
  fs := fs
  task := task
  valid := hvalid
  tree := m.node
  treeInv := hT
  used i := m.locks i ≠ [] ∨ m.node i ≠ .none

omit [DecidableEq ι] in
theorem starts_ofMem {fs : TfsFs} {task : ι → Task} {hvalid : ∀ t, (task t).Valid} {m : Mem ι}
    {hT : TreeInv fs.inodeTable.capacity m.node} (hlocks : ∀ i, RwLock.Ok (m.locks i)) :
    (ofMem fs task hvalid m hT).Starts m :=
  ⟨rfl, hlocks, fun _ h => h⟩

end Setup

/-! ## Runs -/

/-- **Every configuration that threads reach from a tree with no locks is explained.** -/
theorem exists_good_of_run {fs : TfsFs} {task : ι → Task} (hvalid : ∀ t, (task t).Valid)
    {m : Mem ι} (hT : TreeInv fs.inodeTable.capacity m.node) (hlocks : ∀ i, m.locks i = [])
    {tr : List (Event ι)} {c : Config Op Op.Resp ι (Mem ι) Reply}
    (hrun : Run (machine ι) (fun t => (task t).prog fs) (.initial m) tr c) :
    ∃ w, (Setup.ofMem fs task hvalid m hT).contract.Good c w :=
  (Setup.starts_ofMem fun i => by rw [hlocks i]; exact RwLock.ok_nil).exists_good
    (by simp [hlocks]) hrun

/-- What `tfs_fs_new` leaves. -/
theorem tree_of_new {t : ι} {canOpen : List CChar → Bool} {file : List CChar → List CChar}
    {fs : TfsFs} {m : Mem ι}
    (hnew : tfsFsNew.run (machine ι) t (Mem.zero canOpen file) = some (fs, m)) :
    TreeInv fs.inodeTable.capacity m.node ∧ ∀ i, m.locks i = [] := by
  rw [run_tfsFsNew] at hnew
  obtain ⟨rfl, rfl⟩ := Prod.mk.inj (Option.some.inj hnew)
  exact ⟨TreeInv.single (by decide), fun _ => rfl⟩

end TecnicoFs
