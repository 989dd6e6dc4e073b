import TecnicoFs.Spec.Invariant

/-!
# The names of entries

The source says of the entries of a directory that their names are not empty, contain no
`/`, and neither start nor end with whitespace.  Adding an entry checks that the name is
not empty, and the rest is a property of the components of a path.  Renaming checks only
that no entry of the array has the new name, occupied or not; as free entries have an
empty name, an empty name is refused as long as there is a free entry.

`atomic_named` says when a call keeps the names: unless it moves an entry of a directory
without a free entry to the path of that directory (`RenamesToBlank`).
-/

namespace TecnicoFs

open Function Graph

/-- The name of an entry, as it is documented. -/
def Named (T : Tree) : Prop := ∀ i name j, Child T i name j → IsName name ∧ NulFree name

/-- The free entries of all directories have an empty name. -/
def BlankFree (T : Tree) : Prop := ∀ i d, T i = .dir d → d.FreeBlank

/-- The call moves an entry of a directory to the path of that directory, and the array of
the directory has no free entry. -/
def RenamesToBlank (T : Tree) (c : Call) : Prop :=
  ∃ origPath destPath access name p d, c = .move origPath destPath access ∧
    comps origPath.str = comps destPath.str ++ [name] ∧ comps destPath.str ≠ [] ∧
    locate T 0 (comps destPath.str) = .ok p ∧ T p = .dir d ∧ name ∈ d.names ∧
    ∀ entry ∈ d.entries, entry.inodeIdx ≠ none

variable {capacity : Nat} {T : Tree}

/-! ## Free entries -/

theorem BlankFree.update (h : BlankFree T) (i : Nat) {node : TfsInode}
    (hnode : ∀ d, node = .dir d → d.FreeBlank) : BlankFree (update T i node) := by
  intro j d hd
  by_cases hj : j = i
  · subst hj
    rw [update_self] at hd
    exact hnode d hd
  · rw [update_of_ne hj] at hd
    exact h j d hd

theorem freeBlank_of_tfsInodeInit {type : TfsInodeType} {d : TfsInodeDir}
    (h : tfsInodeInit type = .dir d) : d.FreeBlank := by
  cases type <;> simp only [tfsInodeInit, TfsInode.dir.injEq, reduceCtorEq] at h
  rw [← h]
  simp [TfsInodeDir.FreeBlank, tfsInodeDirNew]

theorem freeBlank_of_tfsInodeDirAddEntry {d d' : TfsInodeDir} {idx : Nat} {name : List CChar}
    (hname : NulFree name) (h : tfsInodeDirAddEntry d idx name = .ok d') (hd : d.FreeBlank) :
    d'.FreeBlank := by
  rcases tfsInodeDirAddEntry_spec d idx hname with ⟨err, herr, -⟩ | ⟨d'', hok, -, -, -, hblank⟩
  · rw [herr] at h
    cases h
  · rw [hok, Except.ok.injEq] at h
    exact h ▸ hblank hd

theorem freeBlank_of_tfsInodeDirRename {d d' : TfsInodeDir} {idx : Nat} {name : List CChar}
    (hname : NulFree name) (h : tfsInodeDirRename d idx name = .ok d') (hd : d.FreeBlank) :
    d'.FreeBlank := by
  rw [tfsInodeDirRename] at h
  rcases tfsInodeDirRename_loop d idx hname d.entries 0 none with ⟨-, h'⟩ |
    ⟨-, -, -, -, err, h'⟩ | ⟨-, found, h', -⟩
  · rw [h', Except.ok.injEq] at h
    exact h ▸ hd
  · rw [h'] at h
    cases h
  · rw [h'] at h
    cases found with
    | none => cases h
    | some k =>
      rw [tfsInodeDirRename.loop, Except.ok.injEq] at h
      exact h ▸ freeBlank_set hd k (by simp)

theorem atomicCreate_blankFree (h : BlankFree T) {slot : Nat} {path : TfsPath}
    {type : TfsInodeType} (hn : NulFree path.str) :
    BlankFree (atomicCreate T slot path type).tree := by
  unfold atomicCreate
  split
  · exact h
  split
  · rename_i hd
    split
    · exact h
    · rename_i hadd
      refine (h.update slot fun _ => freeBlank_of_tfsInodeInit).update _ fun d' hd' => ?_
      rw [← TfsInode.dir.inj hd']
      exact freeBlank_of_tfsInodeDirAddEntry (nulFree_tfsPathPopLast hn) hadd (h _ _ hd)
  · exact h

theorem atomicRemove_blankFree (h : BlankFree T) (path : TfsPath) :
    BlankFree (atomicRemove T path).tree := by
  unfold atomicRemove
  split
  · exact h
  split
  · rename_i hd
    split
    · exact h
    split
    · exact h
    · refine (h.update _ fun d' hd' => ?_).update _ fun _ hnone => by cases hnone
      rw [← TfsInode.dir.inj hd']
      exact freeBlank_tfsInodeDirRemoveEntryByDirIdx (h _ _ hd) _
  · exact h

theorem atomicRename_blankFree (h : BlankFree T) (p : Nat) (origName : List CChar)
    {destName : List CChar} (hm : NulFree destName) :
    BlankFree (atomicRename T p origName destName).tree := by
  unfold atomicRename
  split
  · rename_i hd
    split
    · exact h
    split
    · exact h
    · rename_i hren
      refine h.update _ fun d' hd' => ?_
      rw [← TfsInode.dir.inj hd']
      exact freeBlank_of_tfsInodeDirRename hm hren (h _ _ hd)
  · exact h

theorem atomicMoveEntry_blankFree (h : BlankFree T) (p q : Nat) (origName : List CChar)
    {destName : List CChar} (hm : NulFree destName) (access : TfsRwLockAccess) :
    BlankFree (atomicMoveEntry T p q origName destName access).tree := by
  unfold atomicMoveEntry
  split
  · rename_i hd
    split
    · rename_i he
      split
      · exact h
      split
      · exact h
      · rename_i hadd
        refine (h.update _ fun e' he' => ?_).update _ fun d' hd' => ?_
        · rw [← TfsInode.dir.inj he']
          exact freeBlank_of_tfsInodeDirAddEntry hm hadd (h _ _ he)
        · rw [← TfsInode.dir.inj hd']
          exact freeBlank_tfsInodeDirRemoveEntryByDirIdx (h _ _ hd) _
    · exact h
  · exact h

/-- **Free entries keep their empty names.** -/
theorem atomic_blankFree (h : BlankFree T) {slot : Nat} {c : Call} (hc : c.Valid) :
    BlankFree (atomic T slot c).tree := by
  cases hok : (atomic T slot c).outcome with
  | error kind => rwa [atomic_failsClean slot c kind hok]
  | ok i =>
    cases c with
    | create path type => exact atomicCreate_blankFree h hc.1
    | remove path => exact atomicRemove_blankFree h path
    | find path access => exact (atomicFind_tree path).symm ▸ h
    | move origPath destPath access =>
      obtain ⟨s, rfl, -, -, a, -, heq⟩ := atomicMove_cases hok
      have hm := (MoveSplit.moveSplit_cuts hc.1 destPath).nulFree_destFilename hc.2
      show BlankFree (atomicMove T origPath destPath access).tree
      rcases heq with ⟨-, -, heq⟩ | ⟨-, -, -, heq⟩ | ⟨-, p, q, -, -, heq⟩
      · rw [heq]
        exact h
      · rw [heq]
        exact atomicRename_blankFree h _ _ hm
      · rw [heq]
        exact atomicMoveEntry_blankFree h _ _ _ hm _

/-! ## Names -/

/-- The name of a new entry. -/
theorem isName_tfsPathPopLast {p : TfsPath} (h : (tfsPathPopLast p).1.str ≠ []) :
    IsName (tfsPathPopLast p).1.str := by
  rcases tfsPathPopLast_spec p with ⟨hnil, -⟩ | ⟨-, hcomps⟩
  · exact absurd hnil h
  · exact @isName_of_mem_comps p.str _ (by rw [hcomps]; simp)

theorem MoveSplit.Cuts.isName_destFilename {s : MoveSplit} {origPath destPath : TfsPath}
    (h : s.Cuts origPath destPath) (hne : s.destFilename.str ≠ []) :
    IsName s.destFilename.str := by
  rcases h.destPop with ⟨hnil, -⟩ | ⟨-, hcomps⟩
  · exact absurd hnil hne
  · exact @isName_of_mem_comps s.rhsRest.str _ (by rw [hcomps]; simp)

/-- Moving a child keeps the names, if the new one is good. -/
theorem Named.relink (h : Named T) {T' : Tree} {x q : Nat} {b : List CChar}
    (hb : IsName b ∧ NulFree b)
    (hchild : ∀ i c j, Child T' i c j ↔ RootedTree.Relink (Child T) x q b i c j) : Named T' := by
  intro i c j hc
  rcases (hchild i c j).mp hc with ⟨hc, -⟩ | ⟨-, rfl, -⟩
  · exact h i c j hc
  · exact hb

/-- The new file system has no names. -/
theorem named_single : Named (update (fun _ => .none) 0 (.dir tfsInodeDirNew)) := by
  rintro i name j ⟨d, hd, hmem⟩
  by_cases hi : i = 0
  · subst hi
    rw [update_self, TfsInode.dir.injEq] at hd
    rw [← hd] at hmem
    cases hmem
  · rw [update_of_ne hi] at hd
    cases hd

theorem blankFree_single : BlankFree (update (fun _ => .none) 0 (.dir tfsInodeDirNew)) :=
  BlankFree.update (fun _ _ h => by cases h) 0 fun _ hd =>
    @freeBlank_of_tfsInodeInit .dir _ hd

/-- **A rename gives a good name, or the call moves an entry to the path of its directory.** -/
theorem MoveSplit.Cuts.destFilename_ne_nil {s : MoveSplit} {origPath destPath : TfsPath}
    {access : TfsRwLockAccess} (h : s.Cuts origPath destPath)
    (hnamed : Named T) (hblank : BlankFree T)
    (hdest : tfsPathEq s.origParent destPath = false) (horig : s.origParent.len = 0)
    {a x : Nat} {d : TfsInodeDir} (ha : locate T 0 (comps s.ancestor.str) = .ok a)
    (hx : Child T a s.origFilename.str x) (hd : T a = .dir d)
    (hno : s.destFilename.str = s.origFilename.str ∨
      ∀ entry ∈ d.entries, entry.name ≠ s.destFilename.str)
    (hc : ¬RenamesToBlank T (.move origPath destPath access)) : s.destFilename.str ≠ [] := by
  intro hnil
  obtain ⟨hname, -⟩ := hnamed _ _ _ hx
  have horigNil := h.origParent.mpr horig
  have hrest : comps s.lhsRest.str = [s.origFilename.str] := by
    rcases h.origPop with ⟨hnil', -⟩ | ⟨-, hcomps⟩
    · exact absurd hnil' hname.ne_nil
    · rw [hcomps, horigNil]
      rfl
  have hcomps : comps destPath.str = comps s.ancestor.str := by
    rcases h.destPop with ⟨-, -, hnil'⟩ | ⟨hne, -⟩
    · rw [h.dest, hnil', List.append_nil]
    · exact absurd hnil hne
  refine hc ⟨_, _, access, s.origFilename.str, a, d, rfl, ?_, ?_, by rw [hcomps, ha], hd,
    TfsInodeDir.mem_names ((child_iff hd).mp hx), ?_⟩
  · rw [h.orig, hrest, hcomps]
  · intro hroot
    have hnul : NulFree s.origParent.str := by
      rw [len_eq_zero_iff.mp horig]
      simp [NulFree]
    have heq := (tfsPathEq_iff hnul).mpr (horigNil.trans hroot.symm)
    rw [heq] at hdest
    cases hdest
  · rintro e he hfree
    rcases hno with heq | hno
    · exact hname.ne_nil (heq.symm.trans hnil)
    · exact hno e he ((hblank a d hd e he hfree).trans hnil.symm)

/-- **When a call keeps the names.** -/
theorem atomic_named (hT : TreeInv capacity T) (hnamed : Named T) (hblank : BlankFree T)
    {slot : Nat} {c : Call} (hc : c.Valid) (hfit : Fits capacity T slot c)
    (hnot : ¬RenamesToBlank T c) : Named (atomic T slot c).tree := by
  cases hok : (atomic T slot c).outcome with
  | error kind => rwa [atomic_failsClean slot c kind hok]
  | ok i =>
    cases c with
    | create path type =>
      obtain ⟨hs, hcap⟩ := hfit path type rfl ⟨i, hok⟩
      obtain ⟨p, -, -, hne, -, -, -, -, hchild⟩ := atomicCreate_ok hT hc.1 hc.2 hok hs hcap
      intro j name k hk
      rcases (hchild j name k).mp hk with hk | ⟨-, rfl, -⟩
      · exact hnamed j name k hk
      · exact ⟨isName_tfsPathPopLast hne, nulFree_tfsPathPopLast hc.1⟩
    | remove path =>
      obtain ⟨p, x, -, -, -, -, -, -, hchild⟩ := atomicRemove_ok hT hc hok
      exact fun j name k hk => hnamed j name k ((hchild j name k).mp hk).1
    | find path access => exact (atomicFind_tree path).symm ▸ hnamed
    | move origPath destPath access =>
      obtain ⟨s, rfl, -, hdest, a, ha, h⟩ := atomicMove_cases hok
      have hcuts := MoveSplit.moveSplit_cuts hc.1 destPath
      have hn := hcuts.nulFree_origFilename hc.1
      have hm := hcuts.nulFree_destFilename hc.2
      change (atomicMove T origPath destPath access).outcome = _ at hok
      show Named (atomicMove T origPath destPath access).tree
      rcases h with ⟨-, -, heq⟩ | ⟨-, horig, -, heq⟩ | ⟨hne, p, q, hp, hq, heq⟩
      · rw [heq]
        exact hnamed
      · rw [heq] at hok ⊢
        obtain ⟨x, d, hx, hd, -, hno, -, -, hchild⟩ := atomicRename_ok hT hn hm hok
        have hname := hcuts.isName_destFilename
          (hcuts.destFilename_ne_nil hnamed hblank hdest horig ha hx hd hno hnot)
        exact hnamed.relink ⟨hname, hm⟩ hchild
      · obtain ⟨hpq, hout⟩ := hcuts.apart hT hc.1 hc.2 hne ha hp hq
        rw [heq] at hok ⊢
        obtain ⟨x, -, -, hdne, -, -, -, hchild⟩ := atomicMoveEntry_ok hT hn hm hpq hout hok
        exact hnamed.relink ⟨hcuts.isName_destFilename hdne, hm⟩ hchild

/-! ## Paths of names -/

/-- The path of a list of names. -/
def pathStr : List (List CChar) → List CChar
  | [] => []
  | name :: names => slash :: (name ++ pathStr names)

theorem comps_of_isName {name : List CChar} (h : IsName name) : comps name = [name] :=
  Text.pieces_eq_singleton (fun c hc => by simpa using h.noSlash c hc) h.trimmed h.ne_nil

/-- **The components of a path of names are the names.** -/
theorem comps_pathStr {names : List (List CChar)} (h : ∀ name ∈ names, IsName name) :
    comps (pathStr names) = names := by
  induction names with
  | nil => rfl
  | cons name names ih =>
    rw [List.forall_mem_cons] at h
    have hfirst : comps (pathStr (name :: names)) = comps (name ++ pathStr names) :=
      (comps_append_slash [] _).trans (by rw [comps_nil, List.nil_append])
    rw [hfirst]
    cases names with
    | nil => rw [pathStr, List.append_nil, comps_of_isName h.1]
    | cons name' names =>
      have hrest : comps (name' ++ pathStr names) = name' :: names := by
        rw [← ih h.2]
        exact ((comps_append_slash [] _).trans (by rw [comps_nil, List.nil_append])).symm
      rw [pathStr, comps_append_slash, hrest, comps_of_isName h.1]
      rfl

theorem nulFree_pathStr {names : List (List CChar)} (h : ∀ name ∈ names, NulFree name) :
    NulFree (pathStr names) := by
  induction names with
  | nil => simp [pathStr, NulFree]
  | cons name names ih =>
    rw [List.forall_mem_cons] at h
    intro c hc
    rw [pathStr, List.mem_cons, List.mem_append] at hc
    rcases hc with rfl | hc | hc
    · decide
    · exact h.1 c hc
    · exact ih h.2 c hc

/-- The names on a walk. -/
theorem Named.of_walk (h : Named T) {i j : Nat} {cs : List (List CChar)}
    (w : Walk (Child T) i cs j) : ∀ c ∈ cs, IsName c ∧ NulFree c := by
  induction w with
  | nil => simp
  | cons hc _ ih => exact List.forall_mem_cons.mpr ⟨h _ _ _ hc, ih⟩

/-- **Every inode has a path**, if the names are as documented. -/
theorem Named.exists_path (h : Named T) (hT : TreeInv capacity T) {i : Nat} (hi : T i ≠ .none) :
    ∃ str, NulFree str ∧ locate T 0 (comps str) = .ok i := by
  obtain ⟨cs, w⟩ := hT.tree.reach hi
  have hcs := h.of_walk w
  refine ⟨pathStr cs, nulFree_pathStr fun c hc => (hcs c hc).2, ?_⟩
  rw [comps_pathStr fun c hc => (hcs c hc).1]
  exact (locate_eq_ok_iff hT fun c hc => (hcs c hc).2).mpr w

end TecnicoFs
