import TecnicoFs.Sequential.Locks
import TecnicoFs.Spec.LegalMove

/-!
# Moves

What `tfs_fs_move` does when it runs alone: to locks, and to the tree.

A move between two directories that does not add its entry, since the name is empty or
taken, returns with the moved inode still locked.
-/

namespace TecnicoFs

open Interleaving Function Graph

variable {ι : Type} [DecidableEq ι]

/-! ## Locks -/

/-- The move finds two different parents and its origin in the first of them, and the name it
is to add to the second one is empty or taken. -/
def KeepsOrigin (T : Tree) (origPath destPath : TfsPath) : Prop :=
  let s := moveSplit origPath destPath
  tfsPathEq origPath s.destParent = false ∧ tfsPathEq s.origParent destPath = false ∧
    ¬(s.origParent.len = 0 ∧ s.destParent.len = 0) ∧
    ∃ p q d e, locate T 0 (comps s.ancestor.str ++ comps s.origParent.str) = .ok p ∧
      T p = .dir d ∧ locate T 0 (comps s.ancestor.str ++ comps s.destParent.str) = .ok q ∧
      T q = .dir e ∧ (tfsInodeDirSearchByName d s.origFilename.str).isSome ∧
      (s.destFilename.str = [] ∨ s.destFilename.str ∈ e.names)

section Leak

variable {T : Tree} {origPath destPath : TfsPath}

theorem atomicRename_leak (p : Nat) (origName destName : List CChar) :
    (atomicRename T p origName destName).leak = none := by
  unfold atomicRename
  split
  · split
    · rfl
    · split <;> rfl
  · rfl

/-- What the last part of a move keeps. -/
theorem atomicMoveEntry_leak (p q : Nat) (origName : List CChar) {destName : List CChar}
    (hm : NulFree destName) (access : TfsRwLockAccess) :
    (atomicMoveEntry T p q origName destName access).leak = none ∨
      ∃ d e, T p = .dir d ∧ T q = .dir e ∧ (tfsInodeDirSearchByName d origName).isSome ∧
        (destName = [] ∨ destName ∈ e.names) := by
  unfold atomicMoveEntry
  split
  swap
  · exact Or.inl rfl
  rename_i d hd
  split
  swap
  · exact Or.inl rfl
  rename_i e he
  split
  · exact Or.inl rfl
  rename_i orig dirIdx hs
  rcases tfsInodeDirAddEntry_spec e orig hm with ⟨err, herr, hname⟩ | ⟨e', hok, -⟩
  · exact Or.inr ⟨d, e, hd, he, by rw [hs]; rfl, hname⟩
  · rw [hok]
    exact Or.inl rfl

/-- **What a move keeps for ever.** -/
theorem atomicMove_leak (hn : NulFree origPath.str) (hm : NulFree destPath.str)
    (access : TfsRwLockAccess) :
    (KeepsOrigin T origPath destPath ∧
      ∃ orig, (atomicMove T origPath destPath access).leak = some (orig, access)) ∨
    (¬KeepsOrigin T origPath destPath ∧ (atomicMove T origPath destPath access).leak = none) := by
  have hcuts := MoveSplit.moveSplit_cuts hn destPath
  by_cases hkeeps : KeepsOrigin T origPath destPath
  · refine Or.inl ⟨hkeeps, ?_⟩
    obtain ⟨ho, hd, hne, p, q, d, e, hp, hpd, hq, hqe, hfound, hname⟩ := hkeeps
    obtain ⟨⟨orig, dirIdx⟩, hs⟩ := Option.isSome_iff_exists.mp hfound
    refine ⟨orig, ?_⟩
    rw [atomicMove_of_parents hn ho hd hne hp hq (by rw [hpd]; rfl),
      atomicMoveEntry_of_dirs hpd hqe, hs]
    dsimp only
    rcases tfsInodeDirAddEntry_spec e orig (hcuts.nulFree_destFilename hm) with ⟨err, herr, -⟩ |
      ⟨e', -, hnil, hnew, -⟩
    · rw [herr]
    · exact absurd hname (not_or.mpr ⟨hnil, hnew⟩)
  · refine Or.inr ⟨hkeeps, ?_⟩
    unfold atomicMove
    dsimp only
    split
    · rfl
    rename_i ho
    split
    · rfl
    rename_i hd
    split
    · rfl
    rename_i a ha
    rw [atomicMoveFrom]
    split
    · rfl
    split
    · rfl
    split
    · exact atomicRename_leak _ _ _
    rename_i hne
    split
    · rename_i p q hp hq
      refine (atomicMoveEntry_leak p q _ (hcuts.nulFree_destFilename hm) access).resolve_right ?_
      rintro ⟨d, e, hpd, hqe, hfound, hname⟩
      refine hkeeps ⟨by simpa using ho, by simpa using hd, hne, p, q, d, e, ?_, hpd, ?_, hqe,
        hfound, hname⟩
      · rw [locate_append_of_ok ha, hp]
      · rw [locate_append_of_ok ha, hq]
    · rfl
    · rfl
    · split <;> rfl

end Leak

/-- **When a move balances its locks.**  It always returns; and it balances its locks unless it
keeps its origin. -/
theorem move_locks_balanced_iff {fs : TfsFs} {m : Mem ι} {origPath destPath : TfsPath}
    {access : TfsRwLockAccess} (hvalid : (Call.move origPath destPath access).Valid)
    (hT : TreeInv fs.inodeTable.capacity m.node) (hnil : ∀ i, m.locks i = []) (t : ι) :
    ((∃ reply m', ((Call.move origPath destPath access).operation fs).run (machine ι) t m =
        some (reply, m')) ∧
      LocksBalanced fs t (.move origPath destPath access) m) ↔
    ¬KeepsOrigin m.node origPath destPath := by
  obtain ⟨reply, m', hrun⟩ := exists_run_unlocked (c := .move origPath destPath access) hvalid hT
    hnil t (fun _ _ h => by cases h)
  rcases atomicMove_leak (T := m.node) hvalid.1 hvalid.2 access with
    ⟨hkeeps, orig, hleak⟩ | ⟨hkeeps, hleak⟩
  · have hnot := not_locksBalanced_of_leak hvalid hT hnil hrun fun _ => hleak
    exact iff_of_false (fun h => hnot h.2) (not_not.mpr hkeeps)
  · exact iff_of_true ⟨⟨reply, m', hrun⟩, locksBalanced_of_leak hvalid hT hnil fun _ => hleak⟩ hkeeps

theorem move_locks_balanced_rename :
    LocksBalanced ⟨⟨128⟩⟩ 0 (.move ⟨0, cstr "/x"⟩ ⟨20, cstr "/y"⟩ .unique) newMem :=
  ((move_locks_balanced_iff (by decide) (tree_of_new run_newMem).1
    (tree_of_new run_newMem).2 0).mpr fun h => h.2.2.1 (by decide +kernel)).2

/-- A file in a directory, and another one next to the directory. -/
def siblingCalls : List Call :=
  [.create ⟨0, cstr "/a"⟩ .dir, .create ⟨0, cstr "/a/x"⟩ .file, .create ⟨0, cstr "/b"⟩ .file]

/-- **A move can leave an inode locked for ever.** -/
theorem exists_kept_origin : ∃ (fs : TfsFs) (m m' m'' : Mem Nat) (replies : List Reply)
    (reply : Reply),
    tfsFsNew.run (machine Nat) 0 (Mem.zero (fun _ => true) fun _ => []) = some (fs, m) ∧
    runCalls fs siblingCalls.zipIdx m = some (replies, m') ∧ (∀ i, m'.locks i = []) ∧
    ((Call.move ⟨0, cstr "/a/x"⟩ ⟨20, cstr "/b"⟩ .unique).operation fs).run (machine Nat) 3 m' =
      some (reply, m'') ∧
    reply.outcome = .error (.moveAddEntry .duplicateName) ∧ m''.locks 2 = [(3, .unique)] := by
  obtain ⟨m', replies, hrun, -, hlocks, hview⟩ := @exists_unlocked_of_calls _ siblingCalls
    (by decide) (by decide) (fun m' =>
      (((Call.move ⟨0, cstr "/a/x"⟩ ⟨20, cstr "/b"⟩ .unique).operation ⟨⟨128⟩⟩).run (machine Nat) 3
        m').map fun x => (x.1.outcome, x.2.locks 2))
    (some (.error (.moveAddEntry .duplicateName), [(3, .unique)])) (by decide +kernel)
  obtain ⟨⟨reply, m''⟩, hmove, hview⟩ := Option.map_eq_some_iff.mp hview
  obtain ⟨houtcome, hkept⟩ := Prod.mk.inj hview
  exact ⟨_, _, m', m'', replies, reply, run_newMem, hrun, hlocks, hmove, houtcome, hkept⟩

/-! ## Relocation -/

/-- A move that runs alone does what `atomicMove` says. -/
theorem atomicMove_of_run {fs : TfsFs} {m m' : Mem ι} {origPath destPath : TfsPath}
    {access : TfsRwLockAccess} (hvalid : (Call.move origPath destPath access).Valid)
    (hT : TreeInv fs.inodeTable.capacity m.node) (hlocks : ∀ i, RwLock.Ok (m.locks i)) {t : ι}
    (hfree : ∀ i a, (t, a) ∉ m.locks i) {reply : Reply}
    (hrun : ((Call.move origPath destPath access).operation fs).run (machine ι) t m =
      some (reply, m')) :
    (atomicMove m.node origPath destPath access).outcome = reply.outcome ∧
      (atomicMove m.node origPath destPath access).tree = m'.node := by
  obtain ⟨slot, leak, held, -, hatomic, -⟩ := run_operation hvalid hT hlocks hfree hrun
  exact ⟨congrArg Effect.outcome hatomic, congrArg Effect.tree hatomic⟩

/-- **When a move is an exact relocation.**  A move that succeeds takes the inode of the first
path, with all that is below it, to the second one and leaves every other path as it is,
exactly when neither path is a proper prefix of the other. -/
theorem move_relocates_iff {fs : TfsFs} {m m' : Mem ι} {origPath destPath : TfsPath}
    {access : TfsRwLockAccess} (hvalid : (Call.move origPath destPath access).Valid)
    (hT : TreeInv fs.inodeTable.capacity m.node) (hlocks : ∀ i, RwLock.Ok (m.locks i)) {t : ι}
    (hfree : ∀ i a, (t, a) ∉ m.locks i) {reply : Reply}
    (hrun : ((Call.move origPath destPath access).operation fs).run (machine ι) t m =
      some (reply, m')) {returned : Option Nat} (hok : reply.outcome = .ok returned) :
    (∃ i, Relocates m.node m'.node origPath destPath i) ↔ Apart origPath destPath := by
  obtain ⟨houtcome, htree⟩ := atomicMove_of_run hvalid hT hlocks hfree hrun
  rw [← htree]
  exact atomicMove_relocates_iff hT hvalid.1 hvalid.2 (houtcome.trans hok)

/-- A move out of a directory. -/
theorem exists_relocation : ∃ (m m' : Mem Nat) (replies : List Reply) (reply : Reply),
    runCalls ⟨⟨128⟩⟩ (siblingCalls.zipIdx) newMem = some (replies, m) ∧
    ((Call.move ⟨0, cstr "/a/x"⟩ ⟨20, cstr "/c"⟩ .unique).operation ⟨⟨128⟩⟩).run (machine Nat) 3 m =
      some (reply, m') ∧
    ∃ i, Relocates m.node m'.node ⟨0, cstr "/a/x"⟩ ⟨20, cstr "/c"⟩ i := by
  obtain ⟨m, replies, hrun, hT, hlocks, hview⟩ := @exists_unlocked_of_calls _ siblingCalls
    (by decide) (by decide) (fun m =>
      (((Call.move ⟨0, cstr "/a/x"⟩ ⟨20, cstr "/c"⟩ .unique).operation ⟨⟨128⟩⟩).run (machine Nat) 3
        m).map fun x => x.1.outcome)
    (some (.ok (some 2))) (by decide +kernel)
  obtain ⟨⟨reply, m'⟩, hmove, hok⟩ := Option.map_eq_some_iff.mp hview
  exact ⟨m, m', replies, reply, hrun, hmove, (@move_relocates_iff Nat _ ⟨⟨128⟩⟩ m m' _ _ _
    (by decide) hT (fun i => by rw [hlocks i]; exact RwLock.ok_nil) 3
    (fun i a => by simp [hlocks i]) reply hmove _ hok).mpr (by decide)⟩

/-- **A move can take the name from an entry**: an entry of a full directory is moved to the
path of the directory. -/
theorem exists_no_relocation : ∃ (fs : TfsFs) (m₀ m m' : Mem Nat) (replies : List Reply)
    (reply : Reply),
    tfsFsNew.run (machine Nat) 0 (Mem.zero (fun _ => true) fun _ => []) = some (fs, m₀) ∧
    runCalls fs (blankingCalls.take 5).zipIdx m₀ = some (replies, m) ∧
    ((Call.move ⟨0, cstr "/a/b"⟩ ⟨20, cstr "/a"⟩ .unique).operation fs).run (machine Nat) 5 m =
      some (reply, m') ∧
    (∃ returned, reply.outcome = .ok returned) ∧
    ¬∃ i, Relocates m.node m'.node ⟨0, cstr "/a/b"⟩ ⟨20, cstr "/a"⟩ i := by
  obtain ⟨m, replies, hrun, hT, hlocks, hview⟩ := @exists_unlocked_of_calls _ (blankingCalls.take 5)
    (by decide) (by decide) (fun m =>
      (((Call.move ⟨0, cstr "/a/b"⟩ ⟨20, cstr "/a"⟩ .unique).operation ⟨⟨128⟩⟩).run (machine Nat) 5
        m).map fun x => x.1.outcome)
    (some (.ok (some 2))) (by decide +kernel)
  obtain ⟨⟨reply, m'⟩, hmove, hok⟩ := Option.map_eq_some_iff.mp hview
  obtain ⟨houtcome, htree⟩ := @atomicMove_of_run Nat _ ⟨⟨128⟩⟩ m m' _ _ _ (by decide) hT
    (fun i => by rw [hlocks i]; exact RwLock.ok_nil) 5 (fun i a => by simp [hlocks i]) reply hmove
  refine ⟨_, _, m, m', replies, reply, run_newMem, hrun, hmove, ⟨_, hok⟩, ?_⟩
  rw [← htree, atomicMove_relocates_iff hT (by decide) (by decide)
    (houtcome.trans hok)]
  decide

/-! ## Legal moves -/

/-- **The move does right by legal moves.**  If it is legal it succeeds; and it blames one of
its paths for being the parent of the other one only when that is so. -/
structure AcceptsLegal (fs : TfsFs) (t : ι) (origPath destPath : TfsPath)
    (access : TfsRwLockAccess) (m : Mem ι) : Prop where
  succeeds : LegalMove m.node origPath destPath → ∃ reply m' i,
    ((Call.move origPath destPath access).operation fs).run (machine ι) t m = some (reply, m') ∧
      reply.outcome = .ok i
  orig : ∀ reply m',
    ((Call.move origPath destPath access).operation fs).run (machine ι) t m = some (reply, m') →
      reply.outcome = .error .moveOriginDestinationParent →
        comps origPath.str = (comps destPath.str).dropLast
  dest : ∀ reply m',
    ((Call.move origPath destPath access).operation fs).run (machine ι) t m = some (reply, m') →
      reply.outcome = .error .moveDestinationOriginParent →
        comps destPath.str = (comps origPath.str).dropLast

section Legal

variable {t₀ : Nat} {canOpen : List CChar → Bool} {file : List CChar → List CChar} {fs : TfsFs}
  {m₀ m : Mem Nat} {calls : List Call} {replies : List Reply}

/-- **When a move does right by legal moves**: in every state that calls on a new file system
lead to, unless the components of one of the paths are those of the common ancestor, then all
those of the other path, then one more. -/
theorem accepts_legal_iff (hcalls : ∀ c ∈ calls, c.Valid)
    (hnew : tfsFsNew.run (machine Nat) t₀ (Mem.zero canOpen file) = some (fs, m₀))
    (hrun : runCalls fs calls.zipIdx m₀ = some (replies, m)) (hnil : ∀ i, m.locks i = [])
    {origPath destPath : TfsPath} {access : TfsRwLockAccess}
    (hvalid : (Call.move origPath destPath access).Valid) (t : Nat) :
    AcceptsLegal fs t origPath destPath access m ↔
      ¬Repeats (comps origPath.str) (comps destPath.str) ∧
        ¬Repeats (comps destPath.str) (comps origPath.str) := by
  have hblank₀ : BlankFree m₀.node := by
    obtain ⟨-, rfl⟩ := Prod.mk.inj (Option.some.inj ((run_tfsFsNew ..).symm.trans hnew))
    exact blankFree_single
  obtain ⟨hT, hblank⟩ := new_induction (P := BlankFree) (C := fun _ _ => True)
    (fun T slot c _ h hc _ _ => atomic_blankFree h hc) hcalls hnew hblank₀
    (callsMeet_of_forall fun _ _ _ => trivial) hrun
  obtain ⟨reply, m', hmove⟩ := exists_run_unlocked (c := .move origPath destPath access) hvalid hT
    hnil t (fun _ _ h => by cases h)
  obtain ⟨houtcome, -⟩ := atomicMove_of_run hvalid hT
    (fun i => by rw [hnil i]; exact RwLock.ok_nil) (fun i a => by simp [hnil]) hmove
  rw [← @atomicMove_legal_iff _ _ _ _ access hT hblank hvalid.1 hvalid.2, houtcome]
  have hdet : ∀ {reply' m''}, ((Call.move origPath destPath access).operation fs).run (machine Nat)
      t m = some (reply', m'') → reply' = reply := by
    intro reply' m'' h
    rw [hmove] at h
    exact (Prod.mk.inj (Option.some.inj h)).1.symm
  constructor
  · rintro ⟨hok, ho, hd⟩
    refine ⟨fun hlegal => ?_, ho reply m' hmove, hd reply m' hmove⟩
    obtain ⟨reply', m'', i, hmove', hi⟩ := hok hlegal
    exact ⟨i, hdet hmove' ▸ hi⟩
  · rintro ⟨hok, ho, hd⟩
    refine ⟨fun hlegal => ?_, fun reply' m'' hmove' => hdet hmove' ▸ ho,
      fun reply' m'' hmove' => hdet hmove' ▸ hd⟩
    obtain ⟨i, hi⟩ := hok hlegal
    exact ⟨reply, m', i, hmove, hi⟩

/-- A legal move out of a directory. -/
theorem exists_accepts_legal : ∃ (m : Mem Nat) (replies : List Reply),
    runCalls ⟨⟨128⟩⟩ siblingCalls.zipIdx newMem = some (replies, m) ∧
    AcceptsLegal ⟨⟨128⟩⟩ 3 ⟨0, cstr "/a/x"⟩ ⟨20, cstr "/c"⟩ .unique m := by
  obtain ⟨m, replies, hrun, -, hlocks, -⟩ := @exists_unlocked_of_calls _ siblingCalls
    (by decide +kernel) (by decide +kernel) (fun _ => ()) () (by decide +kernel)
  refine ⟨m, replies, hrun, (accepts_legal_iff (by decide) run_newMem hrun hlocks
    (by decide) 3).mpr ⟨fun h => ?_, fun h => ?_⟩⟩
  · exact absurd h.length_le (by decide)
  · exact absurd h.length_le (by decide)

/-- Directories, the names of which are all that of the first one. -/
def repeatingCalls : List Call :=
  [.create ⟨0, cstr "/a"⟩ .dir, .create ⟨0, cstr "/a/b"⟩ .file, .create ⟨0, cstr "/a/a"⟩ .dir,
    .create ⟨0, cstr "/a/a/b"⟩ .dir]

/-- **A legal move can be refused.**  The file /a/b is to be moved into the directory /a/a/b,
and the move blames /a/b for being that directory. -/
theorem exists_refused_move : ∃ (fs : TfsFs) (m₀ m m' : Mem Nat) (replies : List Reply)
    (reply : Reply),
    tfsFsNew.run (machine Nat) 0 (Mem.zero (fun _ => true) fun _ => []) = some (fs, m₀) ∧
    runCalls fs repeatingCalls.zipIdx m₀ = some (replies, m) ∧ (∀ i, m.locks i = []) ∧
    LegalMove m.node ⟨0, cstr "/a/b"⟩ ⟨20, cstr "/a/a/b/y"⟩ ∧
    ((Call.move ⟨0, cstr "/a/b"⟩ ⟨20, cstr "/a/a/b/y"⟩ .unique).operation fs).run (machine Nat) 4 m =
      some (reply, m') ∧
    reply.outcome = .error .moveOriginDestinationParent ∧
    comps (cstr "/a/b") ≠ (comps (cstr "/a/a/b/y")).dropLast := by
  obtain ⟨m, replies, hrun, -, hlocks, hview⟩ := @exists_unlocked_of_calls _ repeatingCalls
    (by decide) (by decide) (fun m =>
      ([comps (cstr "/a/b"), (comps (cstr "/a/a/b/y")).dropLast, comps (cstr "/a/a/b/y")].map
        (locate m.node 0), (m.node 4).type,
        (((Call.move ⟨0, cstr "/a/b"⟩ ⟨20, cstr "/a/a/b/y"⟩ .unique).operation ⟨⟨128⟩⟩).run
          (machine Nat) 4 m).map fun x => x.1.outcome))
    ([.ok 2, .ok 4, .error .nameNotFound], .dir, some (.error .moveOriginDestinationParent))
    (by decide +kernel)
  simp only [Prod.mk.injEq, List.map_cons, List.cons.injEq] at hview
  obtain ⟨⟨horig, hparent, hdest, -⟩, hdir, hview⟩ := hview
  obtain ⟨⟨reply, m'⟩, hmove, herr⟩ := Option.map_eq_some_iff.mp hview
  refine ⟨_, _, m, m', replies, reply, run_newMem, hrun, hlocks,
    ⟨⟨2, horig⟩, ⟨4, hparent, hdir⟩, fun i => ?_, by decide, by decide⟩, hmove, herr,
    by decide⟩
  show locate m.node 0 (comps (cstr "/a/a/b/y")) ≠ _
  rw [hdest]
  simp

end Legal

end TecnicoFs
