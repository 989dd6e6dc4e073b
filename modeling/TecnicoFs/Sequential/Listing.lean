import TecnicoFs.Graph.Preorder
import TecnicoFs.Sequential.Lookup

/-!
# What a listing prints

`tfs_inode_table_print_tree` prints the inodes of the tree in preorder.  It makes a path for
each of them by joining names with slashes, and `tfs_fs_find` takes it apart again: with the
documented names the components of the path are the names that were joined, so it finds the
inode for which the path was printed.
-/

namespace TecnicoFs

open Interleaving Graph

/-- The children of a slot, in the order of the entries. -/
def childrenOf (T : Tree) (i : Nat) : List (List CChar × Nat) :=
  match T i with
  | .dir dir => dir.children
  | _ => []

section Children

variable {capacity : Nat} {T : Tree} {i j : Nat} {name : List CChar}

theorem child_iff_mem_childrenOf (i : Nat) (name : List CChar) (j : Nat) :
    Child T i name j ↔ (name, j) ∈ childrenOf T i := by
  rw [childrenOf]
  split
  · exact child_iff ‹_›
  · rename_i hdir
    refine iff_of_false ?_ (by simp)
    rintro ⟨d, hd, -⟩
    exact hdir d hd

theorem TreeInv.nodup_childrenOf (hT : TreeInv capacity T) (i : Nat) :
    ((childrenOf T i).map Prod.fst).Nodup := by
  rw [childrenOf]
  split
  · exact hT.names ‹_›
  · exact List.nodup_nil

end Children

/-- The inodes of the tree below a slot, each with the names that lead to it. -/
def inodesBelow (T : Tree) (depth i : Nat) (cs : List (List CChar)) :
    List (Nat × List (List CChar)) :=
  preorder (childrenOf T) depth i cs

/-- The lines of a listing. -/
def lines (l : List (List CChar)) : List CChar := l.flatMap fun path => path ++ [0x0a]

theorem lines_append (l l' : List (List CChar)) : lines (l ++ l') = lines l ++ lines l' :=
  List.flatMap_append ..

theorem pathStr_append_singleton (names : List (List CChar)) {name : List CChar}
    (h : NulFree name) : pathStr (names ++ [name]) = childPath (pathStr names) name := by
  have hname : name.takeWhile (· ≠ 0) = name :=
    List.takeWhile_eq_self_iff.mpr fun c hc => by simpa using h c hc
  rw [childPath, hname]
  induction names with
  | nil => simp [pathStr, slash]
  | cons first names ih => simp [pathStr, ih]

/-! ## The run -/

variable {ι : Type} [DecidableEq ι]

/-- The slot that is about to be printed. -/
def printOf : (o : Op) × Option o.Resp → Option Nat
  | ⟨.assert (.printRange idx) _, some _⟩ => some idx
  | _ => none

/-- Run alone, the program returns `a`, leaves the memory alone and prints the slots `l`. -/
def Visits {α : Type} (t : ι) (m : Mem ι) (p : TfsProg α) (a : α) (l : List Nat) : Prop :=
  p.run (machine ι) t m = some (a, m) ∧ (p.trace (machine ι) t m).filterMap printOf = l

namespace Visits

variable {α β : Type} {t : ι} {m : Mem ι} {p : TfsProg α} {a : α} {l l' : List Nat}

theorem pure (a : α) : Visits t m (Pure.pure a : TfsProg α) a [] := ⟨rfl, rfl⟩

theorem bind {f : α → TfsProg β} {b : β} (h : Visits t m p a l) (h' : Visits t m (f a) b l') :
    Visits t m (p >>= f) b (l ++ l') := by
  refine ⟨?_, ?_⟩
  · rw [Prog.run_bind, h.1]
    exact h'.1
  · rw [Prog.trace_bind h.1, List.filterMap_append, h.2, h'.2]

/-- A part that prints nothing. -/
theorem andThen {f : α → TfsProg β} {b : β} (h : Visits t m p a []) (h' : Visits t m (f a) b l') :
    Visits t m (p >>= f) b l' :=
  h.bind h'

theorem read (i : Nat) : Visits t m (TfsProg.read i) (m.node i) [] := ⟨rfl, rfl⟩

theorem assertRange {i : Nat} {holds : Bool} (h : holds = true) :
    Visits t m (TfsProg.assert (.printRange i) holds) () [i] := by
  subst h
  exact ⟨rfl, rfl⟩

theorem assertLive {i : Nat} {holds : Bool} (h : holds = true) :
    Visits t m (TfsProg.assert (.printLive i) holds) () [] := by
  subst h
  exact ⟨rfl, rfl⟩

end Visits

section Run

variable {fs : TfsFs} {m : Mem ι} {t : ι}

/-- The entries of a directory, one after the other. -/
theorem visits_entries (hnamed : Named m.node) {depth i : Nat} {cs : List (List CChar)}
    (hbelow : ∀ name j (out : TfsStream), Child m.node i name j →
      Visits t m (tfsInodeTablePrintTree fs.inodeTable depth j out (pathStr (cs ++ [name])))
        ⟨out.name, out.written ++ lines ((inodesBelow m.node depth j (cs ++ [name])).map
          fun x => pathStr x.2)⟩
        ((inodesBelow m.node depth j (cs ++ [name])).map Prod.fst))
    (entries : List TfsInodeDirEntry) (out : TfsStream)
    (hchild : ∀ x ∈ entries.filterMap TfsInodeDirEntry.child, Child m.node i x.1 x.2) :
    Visits t m (entries.foldlM (fun out entry =>
      match entry.inodeIdx with
      | none => Pure.pure out
      | some inodeIdx => tfsInodeTablePrintTree fs.inodeTable depth inodeIdx out
          (childPath (pathStr cs) entry.name)) out)
      ⟨out.name, out.written ++ lines (((entries.filterMap TfsInodeDirEntry.child).flatMap
        fun x => inodesBelow m.node depth x.2 (cs ++ [x.1])).map fun x => pathStr x.2)⟩
      (((entries.filterMap TfsInodeDirEntry.child).flatMap
        fun x => inodesBelow m.node depth x.2 (cs ++ [x.1])).map Prod.fst) := by
  induction entries generalizing out with
  | nil => simpa [lines] using Visits.pure (t := t) (m := m) out
  | cons entry entries ih =>
    rw [List.foldlM_cons]
    cases hidx : entry.inodeIdx with
    | none =>
      have hnone : entry.child = none := by rw [TfsInodeDirEntry.child, hidx]; rfl
      rw [List.filterMap_cons, hnone] at hchild ⊢
      exact (Visits.pure out).andThen (ih out hchild)
    | some j =>
      have hsome : entry.child = some (entry.name, j) :=
        TfsInodeDirEntry.child_eq_some_iff.mpr (by rw [← hidx])
      rw [List.filterMap_cons, hsome] at hchild ⊢
      rw [List.forall_mem_cons] at hchild
      obtain ⟨hj, hrest⟩ := hchild
      have hfirst := hbelow entry.name j out hj
      rw [pathStr_append_singleton cs (hnamed _ _ _ hj).2] at hfirst
      rw [List.flatMap_cons, List.map_append, List.map_append, lines_append, ← List.append_assoc]
      exact hfirst.bind (ih _ hrest)

/-- **`tfs_inode_table_print_tree` prints what is below, in preorder**, if it may recurse deep
enough. -/
theorem visits_tfsInodeTablePrintTree (hT : TreeInv fs.inodeTable.capacity m.node)
    (hnamed : Named m.node) {depth i : Nat} {cs : List (List CChar)} {out : TfsStream}
    (w : Walk (Child m.node) 0 cs i) (hdepth : fs.inodeTable.capacity ≤ cs.length + depth) :
    Visits t m (tfsInodeTablePrintTree fs.inodeTable depth i out (pathStr cs))
      ⟨out.name, out.written ++ lines ((inodesBelow m.node depth i cs).map fun x => pathStr x.2)⟩
      ((inodesBelow m.node depth i cs).map Prod.fst) := by
  induction depth generalizing i cs out with
  | zero => exact absurd (hT.walk_length_lt w) (by omega)
  | succ depth ih =>
    have hlive : m.node i ≠ .none := hT.tree.walk_live hT.tree.live_root w
    have htype : (m.node i).type ≠ .none := mt TfsInode.type_eq_none_iff.mp hlive
    have hroot : inodesBelow m.node (depth + 1) i cs = (i, cs) ::
        (childrenOf m.node i).flatMap fun x => inodesBelow m.node depth x.2 (cs ++ [x.1]) := rfl
    have hlines : out.written ++ lines (((i, cs) :: (childrenOf m.node i).flatMap fun x =>
          inodesBelow m.node depth x.2 (cs ++ [x.1])).map fun x => pathStr x.2) =
        (out.println (pathStr cs)).written ++ lines (((childrenOf m.node i).flatMap fun x =>
          inodesBelow m.node depth x.2 (cs ++ [x.1])).map fun x => pathStr x.2) := by
      simp [lines, TfsStream.println]
    rw [tfsInodeTablePrintTree, hroot, hlines, List.map_cons, ← List.singleton_append]
    refine (Visits.assertRange (decide_eq_true (hT.bound hlive))).bind ?_
    refine (Visits.read i).andThen ((Visits.assertLive (decide_eq_true htype)).andThen ?_)
    refine (Visits.read i).andThen ?_
    cases hd : m.node i with
    | none => exact absurd hd hlive
    | file =>
      rw [childrenOf, hd, List.flatMap_nil, List.map_nil, List.map_nil, lines, List.flatMap_nil,
        List.append_nil]
      exact Visits.pure _
    | dir d =>
      rw [childrenOf, hd]
      refine visits_entries hnamed (fun name j out hj => ih (w.snoc hj) ?_) d.entries _
        fun x hx => ⟨d, hd, hx⟩
      rw [List.length_append, List.length_singleton]
      omega

end Run

/-! ## The tree -/

section Below

variable {capacity : Nat} {T : Tree} {depth : Nat} {x : Nat × List (List CChar)}

/-- Everything that is below the root is reached by the names it is listed with. -/
theorem mem_inodesBelow_iff (hT : TreeInv capacity T) (hdepth : capacity ≤ depth) :
    x ∈ inodesBelow T depth 0 [] ↔ Walk (Child T) 0 x.2 x.1 := by
  rw [inodesBelow, mem_preorder_iff (child_iff_mem_childrenOf (T := T))]
  constructor
  · rintro ⟨es, -, hes, w⟩
    rwa [hes, List.nil_append]
  · intro w
    exact ⟨x.2, (hT.walk_length_lt w).trans_le hdepth, rfl, w⟩

/-- Nothing is listed after what is below it. -/
theorem pairwise_inodesBelow (hT : TreeInv capacity T) (depth : Nat) :
    (inodesBelow T depth 0 []).Pairwise fun x y => ∀ cs, ¬Walk (Child T) y.1 cs x.1 :=
  hT.tree.pairwise_preorder child_iff_mem_childrenOf hT.nodup_childrenOf Walk.nil depth

theorem Named.comps_pathStr_of_walk (hnamed : Named T) {i : Nat} {cs : List (List CChar)}
    (w : Walk (Child T) 0 cs i) : comps (pathStr cs) = cs :=
  comps_pathStr fun c hc => (hnamed.of_walk w c hc).1

end Below

/-- **A listing is exactly the tree.**  With the documented names, a listing that starts at
the root with the empty path comes to an end and prints one path for each inode of the tree:
first the empty path for the root, and nothing after what is below it.  A search for the
path, in any state with this table and no lock held, finds the inode for which it was
printed; so no two of the paths are the same. -/
theorem listing_is_tree {fs : TfsFs} {m : Mem ι} (hT : TreeInv fs.inodeTable.capacity m.node)
    (hnamed : Named m.node) {depth : Nat} (hdepth : fs.inodeTable.capacity ≤ depth)
    (out : TfsStream) (t : ι) :
    ∃ printed : List (Nat × List CChar),
      (tfsInodeTablePrintTree fs.inodeTable depth tfsFsRootIdx out []).run (machine ι) t m =
        some (⟨out.name, out.written ++ lines (printed.map Prod.snd)⟩, m) ∧
      ((tfsInodeTablePrintTree fs.inodeTable depth tfsFsRootIdx out []).trace
        (machine ι) t m).filterMap printOf = printed.map Prod.fst ∧
      printed.head? = some (tfsFsRootIdx, []) ∧
      (printed.map Prod.fst).Nodup ∧ (∀ i, i ∈ printed.map Prod.fst ↔ m.node i ≠ .none) ∧
      (printed.Pairwise fun x y => ∀ cs, ¬Walk (Child m.node) y.1 cs x.1) ∧
      (∀ x ∈ printed, ∀ (m₁ : Mem ι) (chars : Nat) (access : TfsRwLockAccess),
        m₁.node = m.node → (∀ i, m₁.locks i = []) → ∃ m₂,
          (tfsFsFind fs ⟨chars, x.2⟩ access).run (machine ι) t m₁ =
            some (.ok ⟨x.1, (m.node x.1).type⟩, m₂)) ∧
      (printed.map Prod.snd).Nodup := by
  obtain ⟨hrun, htrace⟩ : Visits t m
      (tfsInodeTablePrintTree fs.inodeTable depth tfsFsRootIdx out (pathStr [])) _ _ :=
    visits_tfsInodeTablePrintTree hT hnamed Walk.nil (by simpa using hdepth)
  have hpairwise := pairwise_inodesBelow hT depth
  have hmem : ∀ x ∈ inodesBelow m.node depth 0 [], Walk (Child m.node) 0 x.2 x.1 :=
    fun x => (mem_inodesBelow_iff hT hdepth).mp
  have hinodes : ((inodesBelow m.node depth 0 []).map Prod.fst).Nodup :=
    List.pairwise_map.mpr (hpairwise.imp fun hno heq => hno [] (Walk.nil_iff.mpr (Eq.symm heq)))
  have hfst : ((inodesBelow m.node depth 0 []).map fun x => (x.1, pathStr x.2)).map Prod.fst =
      (inodesBelow m.node depth 0 []).map Prod.fst := List.map_map
  have hsnd : ((inodesBelow m.node depth 0 []).map fun x => (x.1, pathStr x.2)).map Prod.snd =
      (inodesBelow m.node depth 0 []).map fun x => pathStr x.2 := List.map_map
  refine ⟨(inodesBelow m.node depth 0 []).map fun x => (x.1, pathStr x.2), ?_, ?_, ?_, ?_, ?_, ?_,
    ?_, ?_⟩
  · rw [hsnd]
    exact hrun
  · rw [hfst]
    exact htrace
  · have hpos : 0 < depth := (hT.bound hT.tree.live_root).trans_le hdepth
    obtain ⟨d, rfl⟩ := Nat.exists_eq_add_one.mpr hpos
    rfl
  · rw [hfst]
    exact hinodes
  · intro i
    rw [hfst, List.mem_map]
    constructor
    · rintro ⟨x, hx, rfl⟩
      exact hT.tree.walk_live hT.tree.live_root (hmem x hx)
    · intro hi
      obtain ⟨cs, w⟩ := hT.tree.reach hi
      exact ⟨(i, cs), (mem_inodesBelow_iff hT hdepth).mpr w, rfl⟩
  · exact List.pairwise_map.mpr hpairwise
  · rintro x' hx' m₁ chars access hnode hlocks
    obtain ⟨x, hx, rfl⟩ := List.mem_map.mp hx'
    have w := hmem x hx
    have hnul : NulFree (pathStr x.2) := nulFree_pathStr fun c hc => (hnamed.of_walk w c hc).2
    rw [← hnode] at hT hnamed w ⊢
    have w' : Walk (Child m₁.node) 0 (comps (pathStr x.2)) x.1 := by
      rwa [hnamed.comps_pathStr_of_walk w]
    exact run_tfsFsFind_of_walk hT hnul hlocks w' access t
  · -- with the same path the inodes would be the same
    rw [hsnd]
    refine List.pairwise_map.mpr ((List.pairwise_map.mp hinodes).imp_of_mem ?_)
    intro x y hx hy hne heq
    have hx := hmem x hx
    have hy := hmem y hy
    have hcs := congrArg comps heq
    rw [hnamed.comps_pathStr_of_walk hx, hnamed.comps_pathStr_of_walk hy] at hcs
    exact hne (hT.tree.walk_end (hcs ▸ hx) hy)

/-- The listing of a new file system. -/
theorem exists_listing_is_tree : ∃ printed : List (Nat × List CChar),
    (tfsInodeTablePrintTree ⟨128⟩ 128 tfsFsRootIdx ⟨cstr "out", []⟩ []).run (machine Nat) 0 newMem =
      some (⟨cstr "out", lines (printed.map Prod.snd)⟩, newMem) ∧
    printed.head? = some (tfsFsRootIdx, []) := by
  obtain ⟨hT, -⟩ := tree_of_new run_newMem
  obtain ⟨printed, hrun, -, hhead, -⟩ := @listing_is_tree Nat _ ⟨⟨128⟩⟩ newMem hT
    named_single 128 (Nat.le_refl 128) ⟨cstr "out", []⟩ 0
  exact ⟨printed, by simpa using hrun, hhead⟩

end TecnicoFs
