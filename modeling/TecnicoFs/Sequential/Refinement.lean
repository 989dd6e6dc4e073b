import TecnicoFs.Sequential.Calls
import TecnicoFs.Spec.FileMap

/-!
# Creating and removing refine the map

`tfs_fs_create` and `tfs_fs_remove` in a state with no lock held: both return, they
succeed exactly when the map of the file system allows it, and the map afterwards is the
one before with a single change.
-/

namespace TecnicoFs

open Interleaving Function Graph

variable {ι : Type} [DecidableEq ι]

section Single

variable {fs : TfsFs} {m : Mem ι} {c : Call}

/-- A call in a state with no lock held, that keeps no lock. -/
theorem exists_run_of_unlocked (hvalid : c.Valid) (hT : TreeInv fs.inodeTable.capacity m.node)
    (hlocks : ∀ i, m.locks i = []) (hfree : ∃ i < fs.inodeTable.capacity, m.node i = .none)
    (hleak : ∀ slot, (atomic m.node slot c).leak = none) (t : ι) :
    ∃ reply m' slot, (c.prog fs).run (machine ι) t m = some (reply, m') ∧
      Fits fs.inodeTable.capacity m.node slot c ∧
      atomic m.node slot c = ⟨reply.outcome, m'.node, none⟩ ∧ ∀ i, m'.locks i = [] := by
  have hok : ∀ i, RwLock.Ok (m.locks i) := fun i => by rw [hlocks i]; exact RwLock.ok_nil
  have hnone : ∀ i a, (t, a) ∉ m.locks i := by simp [hlocks]
  obtain ⟨i, hi, hnode⟩ := hfree
  obtain ⟨reply, m', hrun⟩ := exists_run_call hvalid hT hok hnone
    (fun x _ => by rw [hlocks]; cases x.2 <;> simp [RwLock.Admits])
    (fun _ _ _ => ⟨i, hi, hnode, hlocks i⟩)
  obtain ⟨slot, leak, hfit, hatomic, hnil⟩ := run_call_of_unlocked hvalid hT hlocks hrun
  obtain rfl : leak = none := by rw [← hleak slot, hatomic]
  exact ⟨reply, m', slot, hrun, hfit, hatomic, hnil rfl⟩

end Single

/-- **Create and remove refine the map of the file system.**  In a tree with the documented
names, with no lock held and an empty slot, both return for every path.  A creation
succeeds if and only if the map allows it, and then the map gains the path and nothing
else changes.  A removal succeeds if and only if the map allows it, and then the map loses
the path and nothing else changes, and the slot is empty and not locked.  If they fail,
the table is what it was. -/
theorem create_remove_refine {fs : TfsFs} {m : Mem ι}
    (hT : TreeInv fs.inodeTable.capacity m.node) (hnamed : Named m.node)
    (hlocks : ∀ i, m.locks i = []) (hfree : ∃ i < fs.inodeTable.capacity, m.node i = .none)
    {path : TfsPath} (hpath : NulFree path.str) (t : ι) :
    (∀ type, type ≠ .none → ∃ reply m',
      ((Call.create path type).prog fs).run (machine ι) t m = some (reply, m') ∧
      ((∃ i, reply.outcome = .ok i) ↔ (treeMap m.node).CanCreate (comps path.str)) ∧
      (∀ i, reply.outcome = .ok i →
        treeMap m'.node = update (treeMap m.node) (comps path.str) (some type)) ∧
      ∀ kind, reply.outcome = .error kind → m'.node = m.node) ∧
    ∃ reply m', ((Call.remove path).prog fs).run (machine ι) t m = some (reply, m') ∧
      ((∃ i, reply.outcome = .ok i) ↔ (treeMap m.node).CanRemove (comps path.str)) ∧
      (∀ i, reply.outcome = .ok i →
        treeMap m'.node = update (treeMap m.node) (comps path.str) none ∧
        ∀ x, Walk (Child m.node) 0 (comps path.str) x → m'.node x = .none ∧ m'.locks x = []) ∧
      ∀ kind, reply.outcome = .error kind → m'.node = m.node := by
  constructor
  · intro type htype
    have hvalid : (Call.create path type).Valid := ⟨hpath, htype⟩
    obtain ⟨reply, m', slot, hrun, hfit, hatomic, -⟩ := exists_run_of_unlocked hvalid hT hlocks hfree
      (fun slot => atomicCreate_leak m.node slot path type) t
    have houtcome : (atomicCreate m.node slot path type).outcome = reply.outcome :=
      congrArg Effect.outcome hatomic
    have htree : (atomicCreate m.node slot path type).tree = m'.node :=
      congrArg Effect.tree hatomic
    refine ⟨reply, m', hrun, ?_, fun i hi => ?_, fun kind hkind => ?_⟩
    · rw [← houtcome]
      exact atomicCreate_ok_iff hT hvalid hfit
    · rw [← htree]
      exact treeMap_atomicCreate hT hvalid hfit (houtcome.trans hi)
    · rw [← htree]
      exact atomicCreate_failsClean slot path type kind (houtcome.trans hkind)
  · obtain ⟨reply, m', slot, hrun, -, hatomic, hlocks'⟩ := exists_run_of_unlocked (c := .remove path)
      hpath hT hlocks hfree (fun _ => atomicRemove_leak m.node path) t
    have houtcome : (atomicRemove m.node path).outcome = reply.outcome :=
      congrArg Effect.outcome hatomic
    have htree : (atomicRemove m.node path).tree = m'.node := congrArg Effect.tree hatomic
    refine ⟨reply, m', hrun, ?_, fun i hi => ?_, fun kind hkind => ?_⟩
    · rw [← houtcome]
      exact atomicRemove_ok_iff hT hnamed hpath
    · rw [← htree]
      obtain ⟨hmap, hslot⟩ := treeMap_atomicRemove hT hnamed hpath (houtcome.trans hi)
      exact ⟨hmap, fun x hx => ⟨hslot x hx, hlocks' x⟩⟩
    · rw [← htree]
      exact atomicRemove_failsClean path kind (houtcome.trans hkind)

/-- Creating and removing in a new file system. -/
theorem exists_create_remove : ∃ (fs : TfsFs) (m : Mem Nat),
    tfsFsNew.run (machine Nat) 0 (Mem.zero (fun _ => true) fun _ => []) = some (fs, m) ∧
    ∃ reply m', ((Call.create ⟨0, cstr "/a"⟩ .dir).prog fs).run (machine Nat) 0 m =
      some (reply, m') ∧
      ((∃ i, reply.outcome = .ok i) ↔ (treeMap m.node).CanCreate (comps (cstr "/a"))) := by
  have hnew := run_tfsFsNew (0 : Nat) (fun _ => true) fun _ => []
  obtain ⟨hT, hlocks⟩ := tree_of_new hnew
  obtain ⟨hcreate, -⟩ := @create_remove_refine Nat _ _ _ hT named_single hlocks
    ⟨1, by decide, rfl⟩ ⟨0, cstr "/a"⟩ (by decide) 0
  obtain ⟨reply, m', hrun, hok, -⟩ := hcreate .dir (by decide)
  exact ⟨_, _, hnew, reply, m', hrun, hok⟩

end TecnicoFs
