import TecnicoFs.Interleaving.Safe
import TecnicoFs.Spec.Plan
import Mathlib.Data.Finset.Card

/-!
# How the calls share the inode table

The protocol that all calls follow, for `Interleaving.Safe`.

The ghost value is a tree that changes only when a call *commits*: its last change of a
directory in a call that changes something, and otherwise any point between its last
lock request and its first release.  Committed calls are on a log, in that order, and the
tree is what they do one after the other (`Replay`).

The table differs from the committed tree only in slots that someone holds for unique
access.  Such a slot is either none of the tree, so that no other call ever gets there,
or a directory in the middle of a move, and then its holder holds the root as well.

A call relies on this: what it holds, stays held, and does not change.
-/

namespace TecnicoFs

open Interleaving Function

variable {ι : Type}

/-- A call that committed. -/
structure Entry (ι : Type) where
  tid : ι
  /-- The slot it was given, for a creation. -/
  slot : Nat
  outcome : Outcome
  leak : Option (Nat × TfsRwLockAccess)

/-- The ghost value. -/
structure Ghost (ι : Type) where
  /-- The committed tree. -/
  tree : Tree
  /-- The calls that committed, oldest first. -/
  log : List (Entry ι)
  /-- The slots that creations found empty and took. -/
  slots : ι → Option Nat

abbrev FsWorld (ι : Type) := World (Mem ι) (Ghost ι)

/-- The tasks of all threads, and the tree they start with. -/
structure Setup (ι : Type) where
  fs : TfsFs
  task : ι → Task
  valid : ∀ t, (task t).Valid
  tree : Tree
  treeInv : TreeInv fs.inodeTable.capacity tree
  /-- The slots that are not empty, or not unlocked, at the start. -/
  used : Nat → Prop

namespace Setup

variable (S : Setup ι)

def capacity : Nat := S.fs.inodeTable.capacity

/-- The task of `t` is not a listing. -/
def Calls (t : ι) : Prop := ∃ c, S.task t = .call c

/-- The task of `t` is a listing. -/
def Prints (t : ι) : Prop := ∃ fileName, S.task t = .print fileName

/-- The task of `t` is a creation. -/
def Creates (t : ι) : Prop := ∃ path type, S.task t = .call (.create path type)

/-- There are enough empty slots for all creations. -/
def Room : Prop :=
  ∃ (U : Finset Nat) (C : Finset ι), (∀ i < S.capacity, S.used i → i ∈ U) ∧
    (∀ t, S.Creates t → t ∈ C) ∧ U.card + C.card ≤ S.capacity

/-- **What the log means.**  Each call did what it does to the tree the ones before it
left, and its lock requests were compatible with what those hold for ever. -/
inductive Replay : List (Entry ι) → Tree → Prop where
  | nil : Replay [] S.tree
  | snoc {log : List (Entry ι)} {T : Tree} {e : Entry ι} {c : Call} (h : Replay log T)
      (hc : S.task e.tid = .call c) (hfit : Fits S.capacity T e.slot c)
      (houtcome : (atomic T e.slot c).outcome = e.outcome)
      (hleak : (atomic T e.slot c).leak = e.leak)
      (hlegal : ∀ x ∈ requests T c.plan, ∀ e' ∈ log, ∀ y ∈ e'.leak, y.1 = x.1 →
        ¬x.2.Conflict y.2) :
      Replay (log ++ [e]) (atomic T e.slot c).tree

theorem Replay.treeInv {S : Setup ι} {log : List (Entry ι)} {T : Tree} (h : S.Replay log T) :
    TreeInv S.capacity T := by
  induction h with
  | nil => exact S.treeInv
  | @snoc log T e c h hc hfit _ _ _ ih =>
    have hvalid := S.valid e.tid
    rw [hc] at hvalid
    exact atomic_treeInv ih hvalid hfit

/-! ## The protocol -/

/-- The slots `t` holds. -/
def Owns (t : ι) (held : List (Nat × TfsRwLockAccess)) (m : Mem ι) : Prop :=
  ∀ i a, (t, a) ∈ m.locks i ↔ (i, a) ∈ held

/-- What holds between any two actions. -/
structure Inv (w : FsWorld ι) : Prop where
  locks : ∀ i, RwLock.Ok (w.mem.locks i)
  node : ∀ i, w.mem.node i = w.ghost.tree i ∨ ∃ t, S.Calls t ∧ (t, .unique) ∈ w.mem.locks i ∧
    (w.ghost.tree i = .none ∨
      (∃ a, (t, a) ∈ w.mem.locks 0) ∧ (w.mem.node i).type = (w.ghost.tree i).type)
  replay : S.Replay w.ghost.log w.ghost.tree
  tids : (w.ghost.log.map Entry.tid).Nodup
  leaks : ∀ e ∈ w.ghost.log, ∀ x ∈ e.leak, (e.tid, x.2) ∈ w.mem.locks x.1
  used : ∀ i, w.mem.locks i ≠ [] ∨ w.mem.node i ≠ .none →
    S.used i ∨ ∃ t, w.ghost.slots t = some i
  slots : ∀ t i, w.ghost.slots t = some i → S.Creates t

/-- What `t` can rely on. -/
structure Rely (t : ι) (w w' : FsWorld ι) : Prop where
  locks : ∀ i a, (t, a) ∈ w'.mem.locks i ↔ (t, a) ∈ w.mem.locks i
  node : ∀ i a, (t, a) ∈ w.mem.locks i → w'.mem.node i = w.mem.node i
  tree : ∀ i a, (t, a) ∈ w.mem.locks i → w'.ghost.tree i = w.ghost.tree i
  log : ∃ l, w'.ghost.log = w.ghost.log ++ l ∧ ∀ e ∈ l, e.tid ≠ t
  slot : w'.ghost.slots t = w.ghost.slots t
  slots : ∀ u i, w.ghost.slots u = some i → w'.ghost.slots u = some i
  rootTree : (t, .unique) ∈ w.mem.locks 0 → w'.ghost.tree = w.ghost.tree
  rootNode : (t, .unique) ∈ w.mem.locks 0 → ∀ i, w.ghost.tree i ≠ .none →
    w'.mem.node i = w.mem.node i

/-- What a step of `t` can do to the log. -/
def Own (t : ι) (w w' : FsWorld ι) : Prop :=
  ∃ l, w'.ghost.log = w.ghost.log ++ l ∧ ∀ e ∈ l, e.tid = t

/-- `t` is about to make a request of its plan, and holds what it asked for before. -/
def Asks (t : ι) (idx : Nat) (access : TfsRwLockAccess) (w : FsWorld ι) : Prop :=
  ∃ done r todo held, (S.task t).plan = done ++ r :: todo ∧ Made w.ghost.tree done held ∧
    r.Names w.ghost.tree idx ∧ r.access = access ∧ Owns t held w.mem ∧
    (∀ x ∈ held, w.mem.node x.1 = w.ghost.tree x.1) ∧ ∀ e ∈ w.ghost.log, e.tid ≠ t

/-- `t` holds a slot that is in range and not empty. -/
def HoldsLive (t : ι) (idx : Nat) (w : FsWorld ι) : Prop :=
  idx < S.capacity ∧ w.mem.node idx ≠ .none ∧ ∃ a, (t, a) ∈ w.mem.locks idx

/-- What holds when `t` is at an assertion, besides that it does not fail. -/
def AtAssert (t : ι) : AssertSite → FsWorld ι → Prop
  | .lockRange idx, w => ∃ access, S.Asks t idx access w
  | .lockLive idx, w => S.HoldsLive t idx w
  | .unlockRange idx, w => S.HoldsLive t idx w
  | .unlockLive idx, w => S.HoldsLive t idx w
  | .removeRange idx, w => idx < S.capacity ∧ (t, .unique) ∈ w.mem.locks idx
  | _, _ => True

/-- What holds when `t` is about to perform an action. -/
def Pre (t : ι) : Op → FsWorld ι → Prop
  | .lock idx access, w => S.Asks t idx access w
  | .tryLock .., _ => True
  | .unlock idx, w => ∃ a, (t, a) ∈ w.mem.locks idx
  | .read idx, w => (∃ a, (t, a) ∈ w.mem.locks idx) ∨
      (t, .unique) ∈ w.mem.locks 0 ∧ w.ghost.tree idx ≠ .none
  | .write idx node, w => S.Calls t ∧ (t, .unique) ∈ w.mem.locks idx ∧
      (w.ghost.tree idx = .none ∨
        (∃ a, (t, a) ∈ w.mem.locks 0) ∧ node.type = (w.ghost.tree idx).type)
  | .assert .addFull holds, _ => holds = true ∨ ¬S.Room
  | .assert site holds, w => holds = true ∧ S.AtAssert t site w
  | .undefined, _ => False
  | .fopen _, _ => S.Prints t
  | .fclose _, _ => S.Prints t

variable {S}

theorem Rely.refl (t : ι) (w : FsWorld ι) : Rely t w w where
  locks _ _ := Iff.rfl
  node _ _ _ := rfl
  tree _ _ _ := rfl
  log := ⟨[], by simp, by simp⟩
  slot := rfl
  slots _ _ h := h
  rootTree _ := rfl
  rootNode _ _ _ := rfl

theorem Rely.trans {t : ι} {w w' w'' : FsWorld ι} (h : Rely t w w') (h' : Rely t w' w'') :
    Rely t w w'' where
  locks i a := (h'.locks i a).trans (h.locks i a)
  node i a hi := (h'.node i a ((h.locks i a).mpr hi)).trans (h.node i a hi)
  tree i a hi := (h'.tree i a ((h.locks i a).mpr hi)).trans (h.tree i a hi)
  log := by
    obtain ⟨l, hl, hn⟩ := h.log
    obtain ⟨l', hl', hn'⟩ := h'.log
    refine ⟨l ++ l', by rw [hl', hl, List.append_assoc], fun e he => ?_⟩
    rcases List.mem_append.mp he with he | he
    · exact hn e he
    · exact hn' e he
  slot := h'.slot.trans h.slot
  slots u i hi := h'.slots u i (h.slots u i hi)
  rootTree hr := (h'.rootTree ((h.locks 0 _).mpr hr)).trans (h.rootTree hr)
  rootNode hr i hi := by
    have hi' : w'.ghost.tree i ≠ .none := by rw [h.rootTree hr]; exact hi
    exact (h'.rootNode ((h.locks 0 _).mpr hr) i hi').trans (h.rootNode hr i hi)

variable (S)

/-- **The protocol of the file system.** -/
def protocol : Protocol Op ι (Mem ι) (Ghost ι) where
  inv := S.Inv
  rely := Rely
  own := Own
  pre := S.Pre
  rely_refl := Rely.refl
  rely_trans _ _ _ _ := Rely.trans

variable {S}

theorem Guar.refl {w : FsWorld ι} (h : S.Inv w) (t : ι) : S.protocol.Guar t w w where
  inv := h
  own := ⟨[], by simp, by simp⟩
  rely u _ := Rely.refl u w

theorem Guar.trans {t : ι} {w w' w'' : FsWorld ι} (h : S.protocol.Guar t w w')
    (h' : S.protocol.Guar t w' w'') : S.protocol.Guar t w w'' where
  inv := h'.inv
  own := by
    obtain ⟨l, hl, hn⟩ := h.own
    obtain ⟨l', hl', hn'⟩ := h'.own
    refine ⟨l ++ l', by rw [hl', hl, List.append_assoc], fun e he => ?_⟩
    rcases List.mem_append.mp he with he | he
    · exact hn e he
    · exact hn' e he
  rely u hu := (h.rely u hu).trans (h'.rely u hu)

theorem Inv.treeInv {w : FsWorld ι} (h : S.Inv w) : TreeInv S.capacity w.ghost.tree :=
  h.replay.treeInv

/-- Only the holder of a slot sees it differ from the committed tree. -/
theorem Inv.node_eq {w : FsWorld ι} (h : S.Inv w) {i : Nat}
    (hfree : ∀ t, (t, .unique) ∉ w.mem.locks i) : w.mem.node i = w.ghost.tree i := by
  rcases h.node i with h | ⟨t, -, ht, -⟩
  · exact h
  · exact absurd ht (hfree t)

/-- A slot of the tree is never empty. -/
theorem Inv.node_ne_none {w : FsWorld ι} (h : S.Inv w) {i : Nat} (hi : w.ghost.tree i ≠ .none) :
    w.mem.node i ≠ .none := by
  rcases h.node i with h | ⟨t, -, -, h | ⟨-, h⟩⟩
  · rwa [h]
  · exact absurd h hi
  · rwa [Ne, ← TfsInode.type_eq_none_iff, h, TfsInode.type_eq_none_iff]

/-! ## What one call knows -/

variable [DecidableEq ι]

/-- **What `t` knows of the world.**  It holds exactly `held`; of these slots the tree is
`T` and the table is `N`; `mine` are its entries of the log. -/
structure Local (t : ι) (held : List (Nat × TfsRwLockAccess)) (T N : Tree)
    (mine : List (Entry ι)) (slot : Option Nat) (w : FsWorld ι) : Prop where
  owns : Owns t held w.mem
  tree : ∀ x ∈ held, w.ghost.tree x.1 = T x.1
  node : ∀ x ∈ held, w.mem.node x.1 = N x.1
  mine : w.ghost.log.filter (fun e => e.tid = t) = mine
  slot : w.ghost.slots t = slot

variable {t : ι} {held : List (Nat × TfsRwLockAccess)} {T N : Tree} {mine : List (Entry ι)}
  {slot : Option Nat} {w w' : FsWorld ι}

/-- What a call knows stays true. -/
theorem Local.later (h : Local t held T N mine slot w) (hw : Rely t w w') :
    Local t held T N mine slot w' where
  owns i a := (hw.locks i a).trans (h.owns i a)
  tree x hx := (hw.tree x.1 x.2 ((h.owns x.1 x.2).mpr hx)).trans (h.tree x hx)
  node x hx := (hw.node x.1 x.2 ((h.owns x.1 x.2).mpr hx)).trans (h.node x hx)
  mine := by
    obtain ⟨l, hl, hn⟩ := hw.log
    have hfilter : l.filter (fun e => e.tid = t) = [] := by
      rw [List.filter_eq_nil_iff]
      exact fun e he => by simpa using hn e he
    rw [hl, List.filter_append, hfilter, List.append_nil, h.mine]
  slot := hw.slot.trans h.slot

/-- Only the slots that are held count. -/
theorem Local.congr (h : Local t held T N mine slot w)
    {held' : List (Nat × TfsRwLockAccess)} (hheld : ∀ x, x ∈ held' ↔ x ∈ held) {T' N' : Tree}
    (hT : ∀ x ∈ held, T' x.1 = T x.1) (hN : ∀ x ∈ held, N' x.1 = N x.1) :
    Local t held' T' N' mine slot w where
  owns i a := (h.owns i a).trans (hheld (i, a)).symm
  tree x hx := (h.tree x ((hheld x).mp hx)).trans (hT x ((hheld x).mp hx)).symm
  node x hx := (h.node x ((hheld x).mp hx)).trans (hN x ((hheld x).mp hx)).symm
  mine := h.mine
  slot := h.slot

theorem Local.mem_mine_iff (h : Local t held T N mine slot w) {e : Entry ι} :
    e ∈ mine ↔ e ∈ w.ghost.log ∧ e.tid = t := by
  rw [← h.mine, List.mem_filter, decide_eq_true_eq]

theorem Local.fresh (h : Local t held T N [] slot w) : ∀ e ∈ w.ghost.log, e.tid ≠ t :=
  fun _ he htid => List.not_mem_nil (h.mem_mine_iff.mpr ⟨he, htid⟩)

end Setup

end TecnicoFs
