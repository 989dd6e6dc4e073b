import TecnicoFs.Server.Progress

/-!
# No data races

An inode is read and written with its lock held, except that a listing holds no lock but
that of the root.  Nobody changes an inode that somebody else looks at, all the same
(`server_race_free`): a call that is to change an inode of the tree has locked the root, and
a listing looks at no others.
-/

namespace TecnicoFs

open Interleaving

/-- The action reads or writes the inode in the slot. -/
def Op.Accesses (i : Nat) : Op → Prop
  | .read idx => idx = i
  | .write idx _ => idx = i
  | _ => False

section Setup

variable {ι : Type} {S : Setup ι} {t u : ι} {w : FsWorld ι} {i : Nat} {node : TfsInode} {o : Op}

/-- Who is about to write an inode holds its lock alone. -/
theorem Setup.Inv.eq_of_write (hi : S.Inv w) (hu : S.Pre u (.write i node) w)
    {a : TfsRwLockAccess} (ht : (t, a) ∈ w.mem.locks i) : t = u :=
  ((hi.locks i).eq_of_unique hu.2.1 ht).1

/-- Nobody is about to read or write an inode that somebody else is about to write. -/
theorem Setup.Inv.not_accesses (hi : S.Inv w) (hne : t ≠ u) (hu : S.Pre u (.write i node) w)
    (ht : S.Pre t o w) : ¬o.Accesses i := by
  intro ho
  cases o with
  | read idx =>
    obtain rfl : idx = i := ho
    rcases ht with ⟨a, ha⟩ | ⟨hroot, hlive⟩
    · exact hne (hi.eq_of_write hu ha)
    · -- a listing holds the root, and so does who changes the tree
      rcases hu.2.2 with hnone | ⟨⟨a, ha⟩, -⟩
      · exact hlive hnone
      · exact hne ((hi.locks 0).eq_of_unique hroot ha).1.symm
  | write idx node' =>
    obtain rfl : idx = i := ho
    exact hne (hi.eq_of_write hu ht.2.1)
  | _ => exact ho

end Setup

section Server

variable {κ ω : Type} [DecidableEq κ] [DecidableEq ω] {fs : TfsFs} {limit : Nat}
  {address : κ × Nat → Nat × Nat} {datagrams : Datagrams κ} {m : Mem (κ × Nat)}
  {tr : List (Service.Event κ)} {s : ServerState κ ω}

/-- **The server has no data race.**  Whatever its clients send, and in whatever order all of
them act: while a worker is about to write an inode, no other worker is about to read or to
write the same. -/
theorem server_race_free {t : κ × Nat} {canOpen : List CChar → Bool}
    {file : List CChar → List CChar}
    (hnew : tfsFsNew.run (machine (κ × Nat)) t (Mem.zero canOpen file) = some (fs, m))
    (h : ServerRun fs limit address datagrams m tr s) {w w' : ω} (hne : w ≠ w')
    {r r' : κ × Nat} {i : Nat} {node : TfsInode} {o : Op}
    (hw : (s.worker w).action = some (r, .write i node))
    (hw' : (s.worker w').action = some (r', o)) : ¬o.Accesses i := by
  obtain ⟨hT, hlocks⟩ := tree_of_new hnew
  obtain ⟨stage, c, world, -, htracks, -, hg⟩ := exists_good_of_serverRun hT hlocks h
  refine hg.inv.not_accesses (fun heq => hne ?_) (hg.pre (at_of_action htracks hw))
    (hg.pre (at_of_action htracks hw'))
  -- a call is served by one worker
  have hcall : ∀ {w : ω} {r : κ × Nat} {o : Op}, (s.worker w).action = some (r, o) →
      stage r = .served w := fun hw => by
    obtain ⟨f, hf⟩ := Service.Worker.action_eq_some_iff.mp hw
    exact (htracks.places.served _ _).mp (by rw [hf]; rfl)
  exact Service.Stage.served.inj ((hcall hw).symm.trans (heq ▸ hcall hw'))

/-- The file `/a/f` is made while the root is read to search it. -/
theorem exists_server_race_free : ∃ (fs : TfsFs) (m : Mem (Bool × Nat))
    (tr : List (Service.Event Bool)) (s : ServerState Bool Bool),
    ServerRun fs 10 (fun _ => (0, 0)) sharingClients.datagrams m tr s ∧
    (s.worker false).action = some ((false, 0), .write 2 .file) ∧
    (s.worker true).action = some ((true, 1), .read 0) ∧ ¬(Op.read 0).Accesses 2 := by
  have hnew := run_tfsFsNew ((true, 0) : Bool × Nat) (fun _ => true) fun _ => []
  generalize hm : (Mem.zero (fun _ => true) fun _ => []).setNode 0 (.dir tfsInodeDirNew) = m at hnew
  have hafter : ((Service.State.start m).after (machine (Bool × Nat))
      (workerThreads ⟨⟨128⟩⟩ 10 fun _ => (0, 0)) sharingClients.datagrams.sent
      (sharingTurns.take 36 ++ .replicate 12 (.worker false) ++ .replicate 2 (.worker true))).map
        (fun s => ((s.worker false).action, (s.worker true).action)) =
      some (some ((false, 0), .write 2 .file), some ((true, 1), .read 0)) := by
    subst hm
    decide +kernel
  obtain ⟨tr, s, hrun, hactions⟩ := Service.Run.nil.exists_seen hafter
  obtain ⟨hfalse, htrue⟩ := Prod.mk.inj hactions
  exact ⟨_, m, tr, s, hrun, hfalse, htrue,
    server_race_free hnew hrun Bool.false_ne_true hfalse htrue⟩

end Server

end TecnicoFs
