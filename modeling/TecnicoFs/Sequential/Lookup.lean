import TecnicoFs.Sequential.Locks
import TecnicoFs.Path.Equality
import TecnicoFs.Path.Splitting

/-!
# What a search finds

`tfs_fs_find` follows the components of a path from the root.  Either they lead to an inode,
or the walk stops: at an inode that is no directory, or at a component that a directory has
no entry for.  An error tells how far the walk came by a path, which the source cuts out of
its argument with differences of pointers: it is the start of the argument, up to where the
walk stopped.

The search only reads the table, so its result is followed through the program by partial
correctness alone (`Reads`), whatever the locks are.
-/

namespace TecnicoFs

open Interleaving Graph Text

/-! ## Where a walk stops -/

/-- Along the components one gets as far as the first `k` of them. -/
def Stops (T : Tree) (cs : List (List CChar)) (kind : TfsFsFindErrorKind) (k : Nat) : Prop :=
  ∃ i name, Walk (Child T) 0 (cs.take k) i ∧ cs[k]? = some name ∧
    match kind with
    | .parentsNotDir => (T i).type ≠ .dir
    | .nameNotFound => (T i).type = .dir ∧ ∀ j, ¬Child T i name j

/-- How many components the path in the error has, if the walk stops after `k`: what is no
directory is named, and so is what is not there. -/
def TfsFsFindErrorKind.reported : TfsFsFindErrorKind → Nat → Nat
  | .parentsNotDir, k => k
  | .nameNotFound, k => k + 1

section Stops

variable {capacity : Nat} {T : Tree} {cs : List (List CChar)} {kind kind' : TfsFsFindErrorKind}
  {k k' l j : Nat}

/-- A walk passes its own beginnings. -/
theorem walk_take (w : Walk (Child T) 0 (cs.take l) j) (hk : k ≤ l) :
    ∃ i, Walk (Child T) 0 (cs.take k) i := by
  rw [← Nat.add_sub_cancel' hk, List.take_add] at w
  obtain ⟨i, hi, -⟩ := Walk.append_iff.mp w
  exact ⟨i, hi⟩

theorem Stops.lt_length (h : Stops T cs kind k) : k < cs.length := by
  obtain ⟨i, name, -, hname, -⟩ := h
  exact (List.getElem?_eq_some_iff.mp hname).1

/-- There is no way on. -/
theorem Stops.not_walk (hT : TreeInv capacity T) (h : Stops T cs kind k) (hk : k < l) :
    ¬Walk (Child T) 0 (cs.take l) j := by
  intro w
  obtain ⟨i, name, hi, hname, hkind⟩ := h
  obtain ⟨j', w'⟩ := walk_take w (k := k + 1) hk
  rw [List.take_add_one, hname, Option.toList_some] at w'
  obtain ⟨i', hi', hchild⟩ := Walk.snoc_iff.mp w'
  obtain rfl := hT.tree.walk_end hi hi'
  cases kind with
  | parentsNotDir => exact not_child hkind hchild
  | nameNotFound => exact hkind.2 j' hchild

/-- **A walk stops in one place, for one reason.** -/
theorem Stops.unique (hT : TreeInv capacity T) (h : Stops T cs kind k) (h' : Stops T cs kind' k') :
    kind = kind' ∧ k = k' := by
  have hle : ∀ {kind kind' k k'}, Stops T cs kind k → Stops T cs kind' k' → k' ≤ k := by
    intro kind kind' k k' h h'
    by_contra hlt
    obtain ⟨i, -, w, -⟩ := h'
    exact h.not_walk hT (by omega) w
  obtain rfl : k = k' := Nat.le_antisymm (hle h' h) (hle h h')
  obtain ⟨i, name, w, -, hkind⟩ := h
  obtain ⟨i', name', w', -, hkind'⟩ := h'
  obtain rfl := hT.tree.walk_end w w'
  refine ⟨?_, rfl⟩
  cases kind <;> cases kind'
  · rfl
  · exact absurd hkind'.1 hkind
  · exact absurd hkind.1 hkind'
  · rfl

end Stops

/-! ## Programs that only read -/

variable {ι : Type} [DecidableEq ι]

/-- Run in a memory with the table `T`, the program leaves the table alone and returns only
in `Q`. -/
def Reads {α : Type} (t : ι) (T : Tree) (Q : α → Prop) (p : TfsProg α) : Prop :=
  ∀ m : Mem ι, m.node = T → p.Post (machine ι) t (fun a m' => m'.node = T ∧ Q a) m

namespace Reads

variable {α β : Type} {t : ι} {T : Tree} {Q : α → Prop} {p : TfsProg α}

theorem pure {a : α} (h : Q a) : Reads t T Q (Pure.pure a : TfsProg α) :=
  fun _ hm => Prog.Post.ret ⟨hm, h⟩

theorem bind {f : α → TfsProg β} {R : β → Prop} (h : Reads t T (fun a => Reads t T R (f a)) p) :
    Reads t T R (p >>= f) :=
  fun m hm => Prog.Post.bind ((h m hm).mono fun _ _ hf => hf.2 _ hf.1)

theorem mono {Q' : α → Prop} (h : Reads t T Q p) (hQ : ∀ a, Q a → Q' a) : Reads t T Q' p :=
  fun m hm => (h m hm).mono fun a _ ha => ⟨ha.1, hQ a ha.2⟩

theorem undefined : Reads t T Q TfsProg.undefined := fun _ _ => Prog.Post.act fun r => r.elim

/-- An action that leaves the table alone. -/
theorem act {o : Op} {k : o.Resp → TfsProg α} (hwrite : ∀ i node, o ≠ .write i node)
    (h : ∀ r, Reads t T Q (k r)) : Reads t T Q (.act o k) := by
  refine fun m hm => Prog.Post.act fun r m' he => h r m' ?_
  rcases exec_node he with hnode | ⟨i, node, rfl, -⟩
  · exact hnode.trans hm
  · exact absurd rfl (hwrite i node)

theorem read {Q : TfsInode → Prop} {i : Nat} (h : Q (T i)) : Reads t T Q (TfsProg.read i) := by
  refine fun m hm => Prog.Post.act fun r m' he => ?_
  obtain ⟨rfl, rfl⟩ := exec_read he
  exact Prog.Post.ret ⟨hm, hm ▸ h⟩

theorem assert {site : AssertSite} {holds : Bool} {Q : Unit → Prop} (h : Q ()) :
    Reads t T Q (TfsProg.assert site holds) :=
  act (fun _ _ => nofun) fun _ => pure h

/-- **`tfs_inode_table_lock`** returns the inode with its type. -/
theorem tfsInodeTableLock {table : TfsInodeTable} {i : Nat} {access : TfsRwLockAccess}
    {Q : TfsLockedInode → Prop} (h : Q ⟨i, (T i).type⟩) :
    Reads t T Q (TecnicoFs.tfsInodeTableLock table i access) := by
  refine bind (assert (act (fun _ _ => nofun) fun _ => bind (pure ?_)))
  refine bind (read (bind (assert ?_)))
  exact bind (read (pure h))

theorem tfsInodeTableUnlockInode {table : TfsInodeTable} {i : Nat} {Q : Unit → Prop} (h : Q ()) :
    Reads t T Q (TecnicoFs.tfsInodeTableUnlockInode table i) :=
  bind (assert (bind (read (bind (assert (act (fun _ _ => nofun) fun _ => pure h))))))

/-- A search in a directory that is locked. -/
theorem searchByName {i : Nat} {d : TfsInodeDir} (hd : T i = .dir d) {type : TfsInodeType}
    {name : List CChar} {Q : Option (Nat × Nat) → Prop} (h : Q (tfsInodeDirSearchByName d name)) :
    Reads t T Q ((⟨i, type⟩ : TfsLockedInode).searchByName name) := by
  refine bind (bind (read ?_))
  rw [hd]
  exact pure (pure h)

theorem get {lockedInodes : LockedInodes} {n : Nat} {Q : TfsLockedInode → Prop}
    (h : ∀ inode, lockedInodes[n]? = some (some inode) → Q inode) :
    Reads t T Q (lockedInodes.get n) := by
  rw [LockedInodes.get]
  split
  · exact pure (h _ ‹_›)
  · exact undefined

theorem put {lockedInodes : LockedInodes} {n : Nat} {inode : TfsLockedInode}
    {Q : LockedInodes → Prop} (h : n < lockedInodes.length → Q (lockedInodes.set n (some inode))) :
    Reads t T Q (lockedInodes.put n inode) := by
  rw [LockedInodes.put]
  split
  · exact pure (h ‹_›)
  · exact undefined

theorem tfsFsUnlockInodes {fs : TfsFs} {lockedInodes : LockedInodes} {Q : Unit → Prop} (h : Q ())
    (n len : Nat) : Reads t T Q (TecnicoFs.tfsFsUnlockInodes fs lockedInodes n len) := by
  induction len generalizing n with
  | zero => exact pure h
  | succ len ih => exact bind (get fun inode _ => bind (tfsInodeTableUnlockInode (ih (n + 1))))

end Reads

/-! ## The cut of the argument -/

/-- Trimming a path pops nothing. -/
theorem rest_tfsPathTrim (p : TfsPath) : Rest p [] (tfsPathTrim p) := by
  obtain ⟨a, b, hp, ha, hb, hchars, -⟩ := tfsPathTrim_split p
  refine ⟨a, b, hp, hchars, hb, ?_, fun _ m => comps_append_left ha m⟩
  rw [← List.append_nil a, comps_append_left ha, comps_nil]

/-- The first component of a trimmed path is its beginning. -/
theorem tfsPathPopFirst_of_trimmed {p : TfsPath} (h : Trimmed isSlashOrSpace p.str) :
    (tfsPathPopFirst p).1.chars = p.chars ∧ (tfsPathPopFirst p).1.str <+: p.str := by
  rw [tfsPathPopFirst, tfsPathTrim_of_trimmed h]
  split
  · exact ⟨rfl, List.prefix_rfl⟩
  · rename_i n hn
    have hdrop : (p.str.take n).dropWhile isSlashOrSpace = p.str.take n := by
      rw [List.dropWhile_eq_self_iff]
      intro hlen
      have hpos : 0 < p.str.length := by rw [List.length_take] at hlen; omega
      have hhead : p.str.head? = some p.str[0] := by
        rw [List.head?_eq_getElem?, List.getElem?_eq_getElem hpos]
      rw [List.getElem_take, h.1 _ hhead]
      simp
    constructor
    · show p.chars + ((p.str.take n).length - _) = p.chars
      rw [hdrop, Nat.sub_self, Nat.add_zero]
    · show ((p.str.take n).dropWhile isSlashOrSpace).rdropWhile isSlashOrSpace <+: p.str
      rw [hdrop]
      exact (List.rdropWhile_prefix _ _).trans (List.take_prefix n _)

/-- The argument up to the end of the next component, by differences of addresses. -/
theorem Rest.comps_take_first {p q : TfsPath} {ds : List (List CChar)} (h : Rest p ds q)
    (htrim : Trimmed isSlashOrSpace q.str) {name : List CChar} {cs : List (List CChar)}
    (hq : comps q.str = name :: cs) :
    comps (p.str.take ((tfsPathPopFirst q).1.chars - p.chars)) = ds ∧
    comps (p.str.take ((tfsPathPopFirst q).1.chars - p.chars + (tfsPathPopFirst q).1.len)) =
      ds ++ [name] := by
  obtain ⟨hchars, rest, hrest⟩ := tfsPathPopFirst_of_trimmed htrim
  rw [hchars]
  refine ⟨h.comps_take, ?_⟩
  obtain ⟨a, b, hp, hc, -, -, hm⟩ := h
  have hne : q.str ≠ [] := mt len_eq_zero_iff.mpr (len_ne_zero_of_cons hq)
  obtain ⟨hfirst, -⟩ := tfsPathPopFirst_of_cons hq
  have hname : IsName name := @isName_of_mem_comps q.str name (by simp [hq])
  rw [hc, Nat.add_sub_cancel_left, hp, ← hrest, TfsPath.len, hfirst, List.append_assoc,
    List.append_assoc, ← List.append_assoc a, ← List.length_append, List.take_left, hm hne,
    comps_of_isName hname]

/-! ## The search -/

/-- What a search may return: the inode that the path leads to, or where the walk stops, with
the start of the path. -/
def Resolves (T : Tree) (path : TfsPath) : Except TfsFsFindError TfsLockedInode → Prop
  | .ok inode => Walk (Child T) 0 (comps path.str) inode.idx ∧ inode.type = (T inode.idx).type
  | .error err => ∃ k, Stops T (comps path.str) err.kind k ∧
      comps err.path.str = (comps path.str).take (err.kind.reported k) ∧
      err.path.chars = path.chars ∧ err.path.str <+: path.str

section Search

variable {t : ι} {capacity : Nat} {T : Tree} {fs : TfsFs} {path : TfsPath}
  {access : TfsRwLockAccess}

/-- **The loop of the search.**  It is at what the components so far lead to, and that is also
what it stored last. -/
theorem reads_tfsFsLockAllFrom_loop (hpath : NulFree path.str)
    {start n : Nat} {curPath : TfsPath} {cur : TfsLockedInode} {arr : LockedInodes}
    {ds cs : List (List CChar)} (hrest : Rest path ds curPath)
    (htrim : Trimmed isSlashOrSpace curPath.str) (hcs : comps curPath.str = cs)
    (hcur : Walk (Child T) 0 ds cur.idx) (htype : cur.type = (T cur.idx).type)
    (hlast : ∀ last inode, start + n = last + 1 → arr[last]? = some (some inode) → inode = cur) :
    Reads t T (fun x => Resolves T path x.1)
      (tfsFsLockAllFrom.loop fs path start access curPath cur arr n) := by
  have hcomps := hrest.comps_eq
  rw [hcs] at hcomps
  induction cs generalizing ds curPath cur arr n with
  | nil =>
    have hzero := (len_eq_zero_iff_of_trimmed htrim).mpr hcs
    rw [tfsFsLockAllFrom.loop, dif_neg (not_not.mpr hzero)]
    split
    · exact Reads.undefined
    · rename_i last hlen
      refine Reads.bind (Reads.get fun inode hinode => Reads.pure ?_)
      obtain rfl := hlast last inode hlen hinode
      exact ⟨by rwa [hcomps, List.append_nil], htype⟩
  | cons name cs ih =>
    have hnonzero := len_ne_zero_of_cons hcs
    obtain ⟨hfirst, hnext⟩ := tfsPathPopFirst_of_cons hcs
    obtain ⟨htake, htake'⟩ := hrest.comps_take_first htrim hcs
    have hnul : NulFree name := nulFree_of_mem_comps hpath (by simp [hcomps])
    have hname : (comps path.str)[ds.length]? = some name := by simp [hcomps]
    have hds : (comps path.str).take ds.length = ds := by rw [hcomps, List.take_left]
    have hds' : (comps path.str).take (ds.length + 1) = ds ++ [name] := by
      rw [List.take_add_one, hds, hname]
      rfl
    rw [tfsFsLockAllFrom.loop, dif_pos hnonzero]
    dsimp only
    by_cases hdir : (T cur.idx).type = .dir
    swap
    · rw [if_pos (by rwa [htype])]
      refine Reads.bind (Reads.tfsFsUnlockInodes (Reads.pure ?_) start n)
      exact ⟨ds.length, ⟨cur.idx, name, by rwa [hds], hname, hdir⟩, htake.trans hds.symm, rfl,
        List.take_prefix _ _⟩
    rw [if_neg (by rwa [htype, not_not])]
    obtain ⟨d, hd⟩ := TfsInode.type_eq_dir_iff.mp hdir
    refine Reads.bind (Reads.searchByName hd ?_)
    rw [hfirst]
    cases hsearch : tfsInodeDirSearchByName d name with
    | none =>
      refine Reads.bind (Reads.tfsFsUnlockInodes (Reads.pure ?_) start n)
      refine ⟨ds.length, ⟨cur.idx, name, by rwa [hds], hname, hdir, fun j hj => ?_⟩,
        htake'.trans hds'.symm, rfl, List.take_prefix _ _⟩
      rw [tfsInodeDirSearchByName_eq_none_iff hnul] at hsearch
      exact hsearch (List.mem_map_of_mem ((child_iff hd).mp hj))
    | some x =>
      obtain ⟨child, dirIdx⟩ := x
      refine Reads.bind (Reads.tfsInodeTableLock (Reads.bind (Reads.put fun hlt => ?_)))
      have hpop := tfsPathPopFirst_spec curPath
      rw [hfirst] at hpop
      obtain ⟨-, hpop⟩ := hpop.resolve_left fun h => by simp [hcs] at h
      refine ih (hrest.trans hpop (by simp)) (trimmed_tfsPathPopFirst_rest curPath) hnext
        (hcur.snoc ⟨d, hd, mem_children_of_search hnul hsearch⟩) rfl ?_ (by simp [hcomps])
      intro last inode hlen hinode
      obtain rfl : last = start + n := by omega
      rw [List.getElem?_set_self hlt] at hinode
      exact (Option.some.inj (Option.some.inj hinode)).symm

theorem reads_tfsFsLockAll (hpath : NulFree path.str) (arr : LockedInodes) :
    Reads t T (fun x => Resolves T path x.1) (tfsFsLockAll fs path arr access) := by
  refine Reads.bind (Reads.tfsInodeTableLock (Reads.bind (Reads.put fun hlt => Reads.bind ?_)))
  refine Reads.mono (reads_tfsFsLockAllFrom_loop hpath (rest_tfsPathTrim path)
    (trimmed_tfsPathTrim path) rfl (Walk.nil_iff.mpr rfl) rfl ?_) ?_
  · intro last inode hlen hinode
    obtain rfl : last = 0 := by omega
    rw [List.getElem?_set_self hlt] at hinode
    exact (Option.some.inj (Option.some.inj hinode)).symm
  · rintro ⟨result, arr'⟩ h
    cases result with
    | error err => exact Reads.bind (Reads.tfsInodeTableUnlockInode (Reads.pure h))
    | ok inode => exact Reads.pure h

/-- **What `tfs_fs_find` returns.** -/
theorem reads_tfsFsFind (hpath : NulFree path.str) :
    Reads t T (Resolves T path) (tfsFsFind fs path access) := by
  refine Reads.bind (Reads.mono (reads_tfsFsLockAll hpath _) ?_)
  rintro ⟨result, arr'⟩ h
  cases result with
  | error err => exact Reads.pure h
  | ok inode => exact Reads.bind (Reads.tfsFsUnlockInodes (Reads.pure h) _ _)

/-- A search that starts with no lock held returns. -/
theorem exists_run_tfsFsFind {m : Mem ι} (hT : TreeInv fs.inodeTable.capacity m.node)
    (hpath : NulFree path.str) (hnil : ∀ i, m.locks i = []) (access : TfsRwLockAccess) (t : ι) :
    ∃ result m', (tfsFsFind fs path access).run (machine ι) t m = some (result, m') := by
  obtain ⟨reply, m', hrun⟩ := exists_run_unlocked (c := .find path access) hpath hT hnil t
    fun _ _ h => nomatch h
  obtain ⟨result, m₁, hfind, -⟩ := Prog.exists_of_run_bind hrun
  exact ⟨result, m₁, hfind⟩

/-- A search for a path that leads somewhere. -/
theorem run_tfsFsFind_of_walk {m : Mem ι} (hT : TreeInv fs.inodeTable.capacity m.node)
    (hpath : NulFree path.str) (hnil : ∀ i, m.locks i = []) {i : Nat}
    (w : Walk (Child m.node) 0 (comps path.str) i) (access : TfsRwLockAccess) (t : ι) :
    ∃ m', (tfsFsFind fs path access).run (machine ι) t m =
      some (.ok ⟨i, (m.node i).type⟩, m') := by
  obtain ⟨result, m', hrun⟩ := exists_run_tfsFsFind hT hpath hnil access t
  obtain ⟨-, hresult⟩ := reads_tfsFsFind hpath m rfl result m' hrun
  cases result with
  | ok inode =>
    obtain ⟨j, type⟩ := inode
    obtain ⟨w', htype⟩ := hresult
    obtain rfl : i = j := hT.tree.walk_end w w'
    obtain rfl : type = (m.node i).type := htype
    exact ⟨m', hrun⟩
  | error err =>
    obtain ⟨k, hstop, -⟩ := hresult
    rw [← List.take_length (l := comps path.str)] at w
    exact absurd w (hstop.not_walk hT hstop.lt_length)

end Search

/-- **A search resolves the path component by component, and its error tells exactly how far
that goes.**  In every tree and whatever the locks are, a search that returns has found an
inode exactly if the components of the path lead there from the root through directories.
Where they stop after `k` components, at something that is no directory or at a directory
without the next one, it returns that error, with a start of its argument that has the
first `k` or the first `k + 1` components; and it returns no other error.  With no lock held
it does return. -/
theorem find_resolves {fs : TfsFs} {m : Mem ι} (hT : TreeInv fs.inodeTable.capacity m.node)
    {path : TfsPath} (hpath : NulFree path.str) (access : TfsRwLockAccess) (t : ι) :
    (∀ result m', (tfsFsFind fs path access).run (machine ι) t m = some (result, m') →
      (∀ i, (∃ type, result = .ok ⟨i, type⟩) ↔ Walk (Child m.node) 0 (comps path.str) i) ∧
      (∀ kind k, Stops m.node (comps path.str) kind k → ∃ reported,
        result = .error ⟨kind, reported⟩ ∧
        comps reported.str = (comps path.str).take (kind.reported k) ∧
        reported.chars = path.chars ∧ reported.str <+: path.str) ∧
      ∀ err, result = .error err → ∃ k, Stops m.node (comps path.str) err.kind k) ∧
    ((∀ i, m.locks i = []) →
      ∃ result m', (tfsFsFind fs path access).run (machine ι) t m = some (result, m')) := by
  refine ⟨fun result m' hrun => ?_, fun hnil => exists_run_tfsFsFind hT hpath hnil access t⟩
  obtain ⟨-, hresult⟩ := reads_tfsFsFind hpath m rfl result m' hrun
  cases result with
  | ok inode =>
    obtain ⟨hwalk, -⟩ := hresult
    refine ⟨fun i => ⟨?_, fun w => ?_⟩, fun kind k hstop => ?_, fun err h => nomatch h⟩
    · rintro ⟨type, heq⟩
      obtain rfl := Except.ok.inj heq
      exact hwalk
    · obtain rfl := hT.tree.walk_end hwalk w
      exact ⟨inode.type, rfl⟩
    · rw [← List.take_length (l := comps path.str)] at hwalk
      exact absurd hwalk (hstop.not_walk hT hstop.lt_length)
  | error err =>
    obtain ⟨k, hstop, hcomps, hchars, hprefix⟩ := hresult
    refine ⟨fun i => ⟨fun ⟨_, h⟩ => (nomatch h), fun w => ?_⟩, fun kind k' hstop' => ?_, ?_⟩
    · rw [← List.take_length (l := comps path.str)] at w
      exact absurd w (hstop.not_walk hT hstop.lt_length)
    · obtain ⟨rfl, rfl⟩ := hstop.unique hT hstop'
      exact ⟨err.path, rfl, hcomps, hchars, hprefix⟩
    · rintro err' heq
      obtain rfl := Except.error.inj heq
      exact ⟨k, hstop⟩

/-- A search in a new file system. -/
theorem exists_find_resolves : ∃ result m',
    (tfsFsFind ⟨⟨128⟩⟩ ⟨0, cstr "/ a //b"⟩ .shared).run (machine Nat) 0 newMem = some (result, m') ∧
    ∃ reported, result = .error ⟨.nameNotFound, reported⟩ ∧ comps reported.str = [cstr "a"] := by
  obtain ⟨hT, hlocks⟩ := tree_of_new run_newMem
  obtain ⟨hall, hreturns⟩ := @find_resolves Nat _ ⟨⟨128⟩⟩ newMem hT ⟨0, cstr "/ a //b"⟩
    (by decide) .shared 0
  obtain ⟨result, m', hrun⟩ := hreturns hlocks
  obtain ⟨-, hstops, -⟩ := hall result m' hrun
  have hcomps : comps (cstr "/ a //b") = [cstr "a", cstr "b"] := by decide
  have hroot : newMem.node 0 = .dir tfsInodeDirNew := rfl
  obtain ⟨reported, hresult, htake, -⟩ := hstops .nameNotFound 0 ⟨0, cstr "a", Walk.nil_iff.mpr rfl,
    by rw [hcomps]; rfl, by rw [hroot]; rfl, fun j hj => by
      have hmem := (child_iff hroot).mp hj
      cases hmem⟩
  exact ⟨result, m', hrun, reported, hresult, by rw [htake, hcomps]; rfl⟩

end TecnicoFs
