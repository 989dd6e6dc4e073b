import TecnicoFs.Sequential.Refinement
import TecnicoFs.Sequential.Serial

/-!
# Creations and removals as edits of the map

What a creation or a removal answers, and with which error, is a function of the map of the
file system, and of a small part of it: of what is at the path and above it, and for a
removal of what is right below it.  All that it writes is what is at the path.  So two edits
at paths that are not above each other do not see each other, and commute.

The tree in the inode table refines this: `atomic` answers as the edit does and leaves a
tree with the edited map, wherever it puts things.
-/

namespace TecnicoFs

open Interleaving Function Graph

/-! ## Edits -/

/-- A call that changes what is at one path. -/
inductive Edit where
  | create (path : TfsPath) (type : TfsInodeType)
  | remove (path : TfsPath)

def Edit.call : Edit → Call
  | .create path type => .create path type
  | .remove path => .remove path

/-- The components of the path. -/
def Edit.target : Edit → List (List CChar)
  | .create path _ => comps path.str
  | .remove path => comps path.str

/-- What is at the path afterwards. -/
def Edit.result : Edit → Option TfsInodeType
  | .create _ type => some type
  | .remove _ => none

namespace FileMap

/-- Why the walk along names from a path stops, if it does. -/
def stop (f : FileMap) : List (List CChar) → List (List CChar) → Option TfsFsFindErrorKind
  | _, [] => none
  | pre, name :: names =>
      if f pre ≠ some .dir then some .parentsNotDir
      else if f (pre ++ [name]) = none then some .nameNotFound
      else stop f (pre ++ [name]) names

/-- There is a directory with something in it. -/
def NonEmptyDir (f : FileMap) (cs : List (List CChar)) : Prop :=
  f cs = some .dir ∧ ∃ name, f (cs ++ [name]) ≠ none

open Classical in
/-- What an edit answers. -/
noncomputable def answer (f : FileMap) : Edit → Except ErrorKind Unit
  | .create path _ =>
      match f.stop [] (comps path.str).dropLast with
      | some kind => .error (.createInexistentParentDir kind)
      | none =>
          if f (comps path.str).dropLast ≠ some .dir then .error .createParentNotDir
          else if f (comps path.str) ≠ none then .error (.createAddEntry .duplicateName)
          else .ok ()
  | .remove path =>
      match f.stop [] (comps path.str).dropLast with
      | some kind => .error (.removeInexistentParentDir kind)
      | none =>
          if f (comps path.str).dropLast ≠ some .dir then .error .removeParentNotDir
          else if f (comps path.str) = none then .error .removeNameNotFound
          else if f.NonEmptyDir (comps path.str) then .error .removeNonEmptyDir
          else .ok ()

/-- What an edit leaves. -/
noncomputable def edit (f : FileMap) (e : Edit) : FileMap :=
  match f.answer e with
  | .ok _ => update f e.target e.result
  | .error _ => f

section Commute

variable {f g : FileMap} {pre cs : List (List CChar)}

/-- A walk depends on what is at the paths that it passes. -/
theorem stop_congr (h : ∀ ds, ds <+: pre ++ cs → g ds = f ds) : g.stop pre cs = f.stop pre cs := by
  induction cs generalizing pre with
  | nil => rfl
  | cons name names ih =>
    have hassoc : pre ++ [name] ++ names = pre ++ name :: names := by simp
    rw [stop, stop, h pre (List.prefix_append ..), h (pre ++ [name]) ⟨names, hassoc⟩,
      ih fun ds hds => h ds (hassoc ▸ hds)]

/-- **An answer depends on the path, on what is above it and on what is right below it.** -/
theorem answer_congr {e : Edit} (h : ∀ ds, ds <+: e.target → g ds = f ds)
    (hbelow : ∀ name, g (e.target ++ [name]) = f (e.target ++ [name])) :
    g.answer e = f.answer e := by
  have hstop : g.stop [] e.target.dropLast = f.stop [] e.target.dropLast :=
    stop_congr fun ds hds => h ds (hds.trans (List.dropLast_prefix _))
  have hdrop := h _ (List.dropLast_prefix _)
  have hself := h _ List.prefix_rfl
  have hnonempty : g.NonEmptyDir e.target = f.NonEmptyDir e.target := by
    simp only [NonEmptyDir, hself, hbelow]
  cases e with
  | create path type =>
    rw [Edit.target] at hstop hdrop hself
    rw [answer, answer, hstop, hdrop, hself]
  | remove path =>
    rw [Edit.target] at hstop hdrop hself hnonempty
    rw [answer, answer, hstop, hdrop, hself, hnonempty]

/-- An edit changes nothing but what is at its path. -/
theorem edit_of_ne {e : Edit} {ds : List (List CChar)} (h : ds ≠ e.target) :
    f.edit e ds = f ds := by
  rw [edit]
  cases f.answer e with
  | error kind => rfl
  | ok _ => exact update_of_ne h ..

/-- An edit at another path that is not above and not below does not change the answer. -/
theorem answer_edit {e e' : Edit} (h : ¬e.target <+: e'.target) (h' : ¬e'.target <+: e.target) :
    (f.edit e').answer e = f.answer e := by
  refine answer_congr (fun ds hds => edit_of_ne ?_) fun name => edit_of_ne ?_
  · rintro rfl
    exact h' hds
  · rintro heq
    exact h (heq ▸ List.prefix_append ..)

/-- **Edits at paths that are not above each other commute.** -/
theorem edit_comm {e e' : Edit} (h : ¬e.target <+: e'.target) (h' : ¬e'.target <+: e.target) :
    (f.edit e).edit e' = (f.edit e').edit e := by
  have hne : e.target ≠ e'.target := fun heq => h (heq ▸ List.prefix_rfl)
  rw [edit, answer_edit h' h, edit.eq_1 (f.edit e'), answer_edit h h', edit, edit]
  cases f.answer e with
  | error kind => cases f.answer e' <;> rfl
  | ok _ =>
    cases f.answer e' with
    | error kind => rfl
    | ok _ => exact update_comm hne ..

end Commute

end FileMap

/-! ## The tree refines the map -/

section Refine

variable {capacity : Nat} {T : Tree} {path : TfsPath}

/-- A walk through the table stops as the one through the map does. -/
theorem stop_treeMap (hT : TreeInv capacity T) {pre cs : List (List CChar)} {i : Nat}
    (hcs : ∀ c ∈ cs, NulFree c) (w : Walk (Child T) 0 pre i) :
    (treeMap T).stop pre cs = match locate T i cs with
      | .error kind => some kind
      | .ok _ => none := by
  induction cs generalizing pre i with
  | nil => rfl
  | cons name names ih =>
    rw [List.forall_mem_cons] at hcs
    rw [FileMap.stop, treeMap_of_walk hT w]
    by_cases hdir : (T i).type = .dir
    · obtain ⟨d, hd⟩ := TfsInode.type_eq_dir_iff.mp hdir
      rw [locate_cons_of_dir hd, if_neg (by rw [hdir, not_not])]
      cases hs : tfsInodeDirSearchByName d name with
      | none =>
        rw [if_pos ((treeMap_snoc_eq_none_iff hT w).mpr fun j hchild => ?_)]
        exact (tfsInodeDirSearchByName_eq_none_iff hcs.1).mp hs
          (List.mem_map_of_mem ((child_iff hd).mp hchild))
      | some x =>
        have wx := w.snoc ⟨d, hd, mem_children_of_search hcs.1 hs⟩
        rw [if_neg (by rw [treeMap_of_walk hT wx]; simp)]
        exact ih hcs.2 wx
    · rw [locate_cons_of_not_dir hdir, if_pos (by simpa using hdir)]

variable (hn : NulFree path.str) (hne : comps path.str ≠ [])

include hne in
/-- The last component and the others. -/
theorem comps_popLast_of_ne_nil : (tfsPathPopLast path).1.str ≠ [] ∧
    comps path.str = comps (tfsPathPopLast path).2.str ++ [(tfsPathPopLast path).1.str] := by
  rcases tfsPathPopLast_spec path with ⟨-, -, hnil⟩ | h
  · exact absurd hnil hne
  · exact h

include hn hne

/-- The parent of a path, in the table and in the map. -/
theorem stop_parent (hT : TreeInv capacity T) :
    (treeMap T).stop [] (comps path.str).dropLast =
      match locate T 0 (comps (tfsPathPopLast path).2.str) with
      | .error kind => some kind
      | .ok _ => none := by
  rw [(comps_popLast_of_ne_nil hne).2, List.dropLast_concat]
  exact stop_treeMap hT (nulFree_comps_popLast_rest hn) Walk.nil

section Parent

variable (hT : TreeInv capacity T) {p : Nat}
  (hp : locate T 0 (comps (tfsPathPopLast path).2.str) = .ok p)

include hT hp

theorem treeMap_parent : (treeMap T) (comps path.str).dropLast = some (T p).type := by
  rw [(comps_popLast_of_ne_nil hne).2, List.dropLast_concat]
  exact treeMap_of_walk hT ((locate_eq_ok_iff hT (nulFree_comps_popLast_rest hn)).mp hp)

/-- What is at a path whose parent is a directory. -/
theorem treeMap_eq_none_iff_of_dir {d : TfsInodeDir} (hd : T p = .dir d) :
    treeMap T (comps path.str) = none ↔ (tfsPathPopLast path).1.str ∉ d.names := by
  have wp := (locate_eq_ok_iff hT (nulFree_comps_popLast_rest hn)).mp hp
  rw [(comps_popLast_of_ne_nil hne).2, treeMap_snoc_eq_none_iff hT wp, TfsInodeDir.names,
    List.mem_map]
  constructor
  · rintro hno ⟨⟨name, j⟩, hmem, rfl⟩
    exact hno j ((child_iff hd).mpr hmem)
  · exact fun hno j hchild => hno ⟨_, (child_iff hd).mp hchild, rfl⟩

end Parent

end Refine

/-- A directory with something in it, in the table and in the map. -/
theorem nonEmptyDir_treeMap_iff {capacity : Nat} {T : Tree} (hT : TreeInv capacity T)
    {cs : List (List CChar)} {x : Nat} (w : Walk (Child T) 0 cs x) :
    (treeMap T).NonEmptyDir cs ↔ nonEmptyDir (T x) = true := by
  rw [← Bool.not_eq_false, nonEmptyDir_eq_false_iff, FileMap.NonEmptyDir, treeMap_of_walk hT w]
  simp only [ne_eq, treeMap_snoc_eq_none_iff hT w, ← not_forall]
  refine and_iff_right_of_imp fun h => ?_
  by_contra htype
  exact h fun c j => not_child (by simpa using htype)

/-- What is refused with a name is refused because it is taken. -/
theorem kind_of_addEntry_error {d : TfsInodeDir} {idx : Nat} {name : List CChar}
    {err : TfsInodeDirAddEntryError} (hname : NulFree name) (hne : name ≠ [])
    (h : tfsInodeDirAddEntry d idx name = .error err) : err.kind = .duplicateName := by
  rw [tfsInodeDirAddEntry, if_neg (by simpa using hne)] at h
  rcases tfsInodeDirAddEntry_loop hname d.entries 0 none with ⟨eidx, k, hloop, -⟩ |
    ⟨found, hloop, -⟩
  · rw [hloop] at h
    obtain rfl := Except.error.inj h
    rfl
  · rw [hloop] at h
    cases found <;> cases h

section Call

variable {capacity : Nat} {T : Tree} (hT : TreeInv capacity T)

include hT

theorem answer_create {path : TfsPath} {type : TfsInodeType} {slot : Nat} (hn : NulFree path.str)
    (hne : comps path.str ≠ []) : (treeMap T).answer (.create path type) =
      outcomeKind (atomicCreate T slot path type).outcome := by
  rw [FileMap.answer, stop_parent hn hne hT]
  cases hp : locate T 0 (comps (tfsPathPopLast path).2.str) with
  | error kind =>
    rw [atomicCreate, hp]
    rfl
  | ok p =>
    have hparent := treeMap_parent hn hne hT hp
    by_cases hdir : (T p).type = .dir
    · obtain ⟨d, hd⟩ := TfsInode.type_eq_dir_iff.mp hdir
      have hfree := treeMap_eq_none_iff_of_dir hn hne hT hp hd
      obtain ⟨hname, -⟩ := comps_popLast_of_ne_nil hne
      rw [atomicCreate_of_dir hp hd]
      dsimp only
      rw [hparent, if_neg (by rw [hdir, not_not])]
      rcases tfsInodeDirAddEntry_spec d slot (nulFree_tfsPathPopLast hn) with
        ⟨err, herr, hor⟩ | ⟨d', hok, -, hno, -⟩
      · rw [herr, if_pos (mt hfree.mp (not_not.mpr (hor.resolve_left hname)))]
        rw [← kind_of_addEntry_error (nulFree_tfsPathPopLast hn) hname herr]
        rfl
      · rw [hok, if_neg (not_not.mpr (hfree.mpr hno))]
        rfl
    · rw [atomicCreate_of_not_dir hp hdir]
      dsimp only
      rw [hparent, if_pos (by simpa using hdir)]
      rfl

theorem answer_remove {path : TfsPath} (hn : NulFree path.str) (hne : comps path.str ≠ []) :
    (treeMap T).answer (.remove path) = outcomeKind (atomicRemove T path).outcome := by
  rw [FileMap.answer, stop_parent hn hne hT]
  cases hp : locate T 0 (comps (tfsPathPopLast path).2.str) with
  | error kind =>
    rw [atomicRemove, hp]
    rfl
  | ok p =>
    have hparent := treeMap_parent hn hne hT hp
    by_cases hdir : (T p).type = .dir
    · obtain ⟨d, hd⟩ := TfsInode.type_eq_dir_iff.mp hdir
      have hfree := treeMap_eq_none_iff_of_dir hn hne hT hp hd
      have hname := nulFree_tfsPathPopLast hn
      rw [atomicRemove_of_dir hp hd]
      dsimp only
      rw [hparent, if_neg (by rw [hdir, not_not])]
      cases hs : tfsInodeDirSearchByName d (tfsPathPopLast path).1.str with
      | none =>
        rw [if_pos (hfree.mpr ((tfsInodeDirSearchByName_eq_none_iff hname).mp hs))]
        rfl
      | some x =>
        obtain ⟨child, dirIdx⟩ := x
        have w : Walk (Child T) 0 (comps path.str) child := by
          rw [(comps_popLast_of_ne_nil hne).2]
          exact ((locate_eq_ok_iff hT (nulFree_comps_popLast_rest hn)).mp hp).snoc
            ⟨d, hd, mem_children_of_search hname hs⟩
        have hnonempty := nonEmptyDir_treeMap_iff hT w
        rw [if_neg (by rw [treeMap_of_walk hT w]; simp)]
        by_cases h : nonEmptyDir (T child) = true
        · rw [if_pos (hnonempty.mpr h)]
          dsimp only
          rw [if_pos h]
          rfl
        · rw [if_neg (mt hnonempty.mp h)]
          dsimp only
          rw [if_neg h]
          rfl
    · rw [atomicRemove_of_not_dir hp hdir]
      dsimp only
      rw [hparent, if_pos (by simpa using hdir)]
      rfl

/-- **A call answers as the edit of the map.** -/
theorem answer_treeMap {e : Edit} {slot : Nat} (hvalid : e.call.Valid) (hne : e.target ≠ []) :
    (treeMap T).answer e = outcomeKind (atomic T slot e.call).outcome := by
  cases e with
  | create path type => exact answer_create hT hvalid.1 hne
  | remove path => exact answer_remove hT hvalid hne

/-- **A call leaves the edited map.** -/
theorem treeMap_edit {e : Edit} {slot : Nat} (hvalid : e.call.Valid) (hne : e.target ≠ [])
    (hfit : Fits capacity T slot e.call) :
    treeMap (atomic T slot e.call).tree = (treeMap T).edit e := by
  have hanswer : (treeMap T).answer e = outcomeKind (atomic T slot e.call).outcome :=
    answer_treeMap hT hvalid hne
  rw [FileMap.edit, hanswer]
  cases hok : (atomic T slot e.call).outcome with
  | error kind =>
    rw [atomic_failsClean slot e.call kind hok]
    rfl
  | ok i =>
    cases e with
    | create path type => exact treeMap_atomicCreate hT hvalid hfit hok
    | remove path => exact (treeMap_atomicRemove_of_ne_nil hT hvalid hne hok).1

/-- An edit takes no slot but the one it is given. -/
theorem free_of_edit {e : Edit} {slot : Nat} (hvalid : e.call.Valid)
    (hfit : Fits capacity T slot e.call) {i : Nat} (hi : T i = .none) (hne : i ≠ slot) :
    (atomic T slot e.call).tree i = .none := by
  cases hok : (atomic T slot e.call).outcome with
  | error kind => rwa [atomic_failsClean slot e.call kind hok]
  | ok j =>
    cases e with
    | create path type =>
      obtain ⟨hs, hcap⟩ := hfit path type rfl ⟨j, hok⟩
      obtain ⟨-, -, -, -, -, -, -, hother, -⟩ := atomicCreate_ok hT hvalid.1 hvalid.2 hok hs hcap
      exact TfsInode.type_eq_none_iff.mp ((hother i hne).trans (by rw [hi]; rfl))
    | remove path =>
      obtain ⟨p, x, -, -, -, -, hx, hother, -⟩ := atomicRemove_ok hT hvalid hok
      by_cases hix : i = x
      · exact hix ▸ hx
      · exact TfsInode.type_eq_none_iff.mp ((hother i hix).trans (by rw [hi]; rfl))

end Call

/-! ## Two edits, in either order -/

variable {ι : Type} [DecidableEq ι]

section Run

variable {fs : TfsFs} {m : Mem ι} (hT : TreeInv fs.inodeTable.capacity m.node)
  (hlocks : ∀ i, m.locks i = []) {e e' : Edit} (hvalid : e.call.Valid) (hne : e.target ≠ [])

include hT hlocks hvalid hne

/-- An edit in a state with no lock held. -/
theorem exists_run_edit (hfree : ∃ i < fs.inodeTable.capacity, m.node i = .none) (t : ι) :
    ∃ reply m' slot, (e.call.prog fs).run (machine ι) t m = some (reply, m') ∧
      TreeInv fs.inodeTable.capacity m'.node ∧ (∀ i, m'.locks i = []) ∧
      outcomeKind reply.outcome = (treeMap m.node).answer e ∧
      treeMap m'.node = (treeMap m.node).edit e ∧
      ∀ i, i ≠ slot → m.node i = .none → m'.node i = .none := by
  have hmove : ¬(Task.call e.call).Moves := by cases e <;> rintro ⟨_, _, _, h⟩ <;> cases h
  obtain ⟨reply, m', slot, hrun, hfit, hatomic, hlocks'⟩ :=
    exists_run_of_unlocked hvalid hT hlocks hfree (atomic_leak hmove m.node) t
  have houtcome : (atomic m.node slot e.call).outcome = reply.outcome :=
    congrArg Effect.outcome hatomic
  have htree : (atomic m.node slot e.call).tree = m'.node := congrArg Effect.tree hatomic
  refine ⟨reply, m', slot, hrun, ?_, hlocks', ?_, ?_, fun i hi hnone => ?_⟩
  · rw [← htree]
    exact atomic_treeInv hT hvalid hfit
  · rw [← houtcome, answer_treeMap hT hvalid hne]
  · rw [← htree]
    exact treeMap_edit hT hvalid hne hfit
  · rw [← htree]
    exact free_of_edit hT hvalid hfit hnone hi

/-- Two edits, one after the other. -/
theorem exists_runCalls_edits (hvalid' : e'.call.Valid) (hne' : e'.target ≠ [])
    (hfree : ∃ i < fs.inodeTable.capacity, ∃ j < fs.inodeTable.capacity, i ≠ j ∧
      m.node i = .none ∧ m.node j = .none) (t t' : ι) :
    ∃ reply reply' m', runCalls fs [(e.call, t), (e'.call, t')] m = some ([reply, reply'], m') ∧
      outcomeKind reply.outcome = (treeMap m.node).answer e ∧
      outcomeKind reply'.outcome = ((treeMap m.node).edit e).answer e' ∧
      treeMap m'.node = ((treeMap m.node).edit e).edit e' := by
  obtain ⟨i, hi, j, hj, hij, hinone, hjnone⟩ := hfree
  obtain ⟨reply, m₁, slot, hrun, hT₁, hlocks₁, hanswer, hmap, hkept⟩ :=
    exists_run_edit hT hlocks hvalid hne ⟨i, hi, hinone⟩ t
  -- the first edit has taken at most one of the two slots
  have hfree₁ : ∃ i < fs.inodeTable.capacity, m₁.node i = .none := by
    by_cases his : i = slot
    · exact ⟨j, hj, hkept j (fun hjs => hij (his.trans hjs.symm)) hjnone⟩
    · exact ⟨i, hi, hkept i his hinone⟩
  obtain ⟨reply', m', -, hrun', -, -, hanswer', hmap', -⟩ :=
    exists_run_edit hT₁ hlocks₁ hvalid' hne' hfree₁ t'
  rw [hmap] at hanswer' hmap'
  refine ⟨reply, reply', m', ?_, hanswer, hanswer', hmap'⟩
  rw [runCalls, hrun]
  dsimp only
  rw [runCalls, hrun']
  rfl

end Run

/-- **Independent creations and removals commute.**  In a tree with no lock held and two empty
slots, two of them at paths that are not above each other can run in either order: each
answers the same, with the same error if it fails, and the same paths lead to inodes of the
same types afterwards. -/
theorem edits_commute {fs : TfsFs} {m : Mem ι} (hT : TreeInv fs.inodeTable.capacity m.node)
    (hlocks : ∀ i, m.locks i = [])
    (hfree : ∃ i < fs.inodeTable.capacity, ∃ j < fs.inodeTable.capacity, i ≠ j ∧
      m.node i = .none ∧ m.node j = .none)
    {e e' : Edit} (hvalid : e.call.Valid) (hvalid' : e'.call.Valid)
    (h : ¬e.target <+: e'.target) (h' : ¬e'.target <+: e.target) (t t' : ι) :
    ∃ reply₁ reply₁' m₁ reply₂' reply₂ m₂,
      runCalls fs [(e.call, t), (e'.call, t')] m = some ([reply₁, reply₁'], m₁) ∧
      runCalls fs [(e'.call, t'), (e.call, t)] m = some ([reply₂', reply₂], m₂) ∧
      outcomeKind reply₁.outcome = outcomeKind reply₂.outcome ∧
      outcomeKind reply₁'.outcome = outcomeKind reply₂'.outcome ∧
      treeMap m₁.node = treeMap m₂.node := by
  have hne : e.target ≠ [] := fun hnil => h (hnil ▸ List.nil_prefix)
  have hne' : e'.target ≠ [] := fun hnil => h' (hnil ▸ List.nil_prefix)
  obtain ⟨reply₁, reply₁', m₁, hrun₁, hanswer₁, hanswer₁', hmap₁⟩ :=
    exists_runCalls_edits hT hlocks hvalid hne hvalid' hne' hfree t t'
  obtain ⟨reply₂', reply₂, m₂, hrun₂, hanswer₂', hanswer₂, hmap₂⟩ :=
    exists_runCalls_edits hT hlocks hvalid' hne' hvalid hne hfree t' t
  refine ⟨reply₁, reply₁', m₁, reply₂', reply₂, m₂, hrun₁, hrun₂, ?_, ?_, ?_⟩
  · rw [hanswer₁, hanswer₂, FileMap.answer_edit h h']
  · rw [hanswer₁', hanswer₂', FileMap.answer_edit h' h]
  · rw [hmap₁, hmap₂, FileMap.edit_comm h h']

/-- A creation and a removal in the root of a new file system. -/
theorem exists_edits_commute : ∃ reply₁ reply₁' m₁ reply₂' reply₂ m₂,
    runCalls ⟨⟨128⟩⟩ [(.create ⟨0, cstr "/a"⟩ .dir, 0), (.remove ⟨0, cstr "/b"⟩, 1)] newMem =
      some ([reply₁, reply₁'], m₁) ∧
    runCalls ⟨⟨128⟩⟩ [(.remove ⟨0, cstr "/b"⟩, 1), (.create ⟨0, cstr "/a"⟩ .dir, 0)] newMem =
      some ([reply₂', reply₂], m₂) ∧
    outcomeKind reply₁.outcome = outcomeKind reply₂.outcome ∧
    treeMap m₁.node = treeMap m₂.node := by
  obtain ⟨hT, hlocks⟩ := tree_of_new run_newMem
  obtain ⟨reply₁, reply₁', m₁, reply₂', reply₂, m₂, hrun₁, hrun₂, hkind, -, hmap⟩ :=
    @edits_commute Nat _ ⟨⟨128⟩⟩ newMem hT hlocks ⟨1, by decide, 2, by decide, by decide, rfl, rfl⟩
      (.create ⟨0, cstr "/a"⟩ .dir) (.remove ⟨0, cstr "/b"⟩) (by decide) (by decide)
      (by decide) (by decide) 0 1
  exact ⟨reply₁, reply₁', m₁, reply₂', reply₂, m₂, hrun₁, hrun₂, hkind, hmap⟩

end TecnicoFs
