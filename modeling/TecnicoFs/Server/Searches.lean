import TecnicoFs.Interleaving.Among
import TecnicoFs.Server.Progress

/-!
# Searches

A search locks all that it locks for shared access and takes no other lock
(`sharing_find`).  So searches never wait for each other: a worker that is busy with a
search goes on, unless a call of another kind holds what comes next on the path
(`server_searches_parallel`).
-/

namespace TecnicoFs

open Interleaving

/-! ## What a search does -/

/-- An action of a search. -/
def Op.Shares : Op → Prop
  | .lock _ access => access = .shared
  | .tryLock .. => False
  | .assert site _ => site ≠ .addFull
  | _ => True

/-- **The program locks for shared access only**, and adds no inode. -/
abbrev Sharing {α : Type} (p : TfsProg α) : Prop := p.All Op.Shares

section Sharing

variable {α : Type} {self : TfsFs} {table : TfsInodeTable}

theorem sharing_undefined : Sharing (TfsProg.undefined : TfsProg α) := ⟨trivial, fun r => r.elim⟩

theorem sharing_searchByName (inode : TfsLockedInode) (name : List CChar) :
    Sharing (inode.searchByName name) := by
  have hdir : Sharing inode.dir := (Prog.all_perform trivial).bind fun node => by
    cases node with
    | none => exact sharing_undefined
    | file => exact sharing_undefined
    | dir d => exact Prog.all_pure d
  exact hdir.bind fun _ => Prog.all_pure _

theorem sharing_lock (i : Nat) : Sharing (tfsInodeTableLock table i .shared) :=
  all_tfsInodeTableLock rfl trivial (by simp [Op.Shares]) (by simp [Op.Shares])

theorem sharing_unlockInode (i : Nat) : Sharing (tfsInodeTableUnlockInode table i) :=
  all_tfsInodeTableUnlockInode trivial trivial (by simp [Op.Shares]) (by simp [Op.Shares])

theorem sharing_get (lockedInodes : LockedInodes) (n : Nat) : Sharing (lockedInodes.get n) := by
  rw [LockedInodes.get]
  split
  · exact Prog.all_pure _
  · exact sharing_undefined

theorem sharing_put (lockedInodes : LockedInodes) (n : Nat) (inode : TfsLockedInode) :
    Sharing (lockedInodes.put n inode) := by
  rw [LockedInodes.put]
  split
  · exact Prog.all_pure _
  · exact sharing_undefined

theorem sharing_unlockInodes (lockedInodes : LockedInodes) (n len : Nat) :
    Sharing (tfsFsUnlockInodes self lockedInodes n len) := by
  induction len generalizing n with
  | zero => exact Prog.all_pure ()
  | succ len ih =>
    exact (sharing_get lockedInodes n).bind fun inode =>
      (sharing_unlockInode _).bind fun _ => ih (n + 1)

theorem sharing_lockAllFrom (path : TfsPath) (startInode : TfsLockedInode)
    (lockedInodes : LockedInodes) (start : Nat) :
    Sharing (tfsFsLockAllFrom self path startInode lockedInodes start .shared) := by
  rw [tfsFsLockAllFrom]
  generalize tfsPathTrim path = curPath, (0 : Nat) = len
  induction curPath, startInode, lockedInodes, len using tfsFsLockAllFrom.loop.induct start with
  | case1 curPath curInode arr len hlen htype =>
    rw [tfsFsLockAllFrom.loop, dif_pos hlen]
    dsimp only
    rw [if_pos htype]
    exact (sharing_unlockInodes arr start len).bind fun _ => Prog.all_pure _
  | case2 curPath curInode arr len hlen curPath' htype ih =>
    rw [tfsFsLockAllFrom.loop, dif_pos hlen]
    dsimp only
    rw [if_neg htype]
    refine (sharing_searchByName _ _).bind fun found => ?_
    cases found with
    | none => exact (sharing_unlockInodes arr start len).bind fun _ => Prog.all_pure _
    | some x =>
      dsimp only
      rw [ite_self]
      exact (sharing_lock _).bind fun inode => (sharing_put _ _ _).bind fun arr' => ih inode arr'
  | case3 curPath curInode arr len hlen hzero =>
    rw [tfsFsLockAllFrom.loop, dif_neg hlen, hzero]
    exact sharing_undefined
  | case4 curPath curInode arr len hlen last hlast =>
    rw [tfsFsLockAllFrom.loop, dif_neg hlen, hlast]
    exact (sharing_get _ _).bind fun inode => Prog.all_pure _

theorem sharing_lockAll (path : TfsPath) (lockedInodes : LockedInodes) :
    Sharing (tfsFsLockAll self path lockedInodes .shared) := by
  rw [tfsFsLockAll, ite_self]
  refine (sharing_lock _).bind fun root => (sharing_put _ _ _).bind fun arr => ?_
  refine (sharing_lockAllFrom _ _ _ _).bind fun x => ?_
  obtain ⟨result, arr'⟩ := x
  cases result with
  | error err => exact (sharing_unlockInode _).bind fun _ => Prog.all_pure _
  | ok inode => exact Prog.all_pure _

theorem sharing_find (path : TfsPath) : Sharing (tfsFsFind self path .shared) := by
  refine (sharing_lockAll _ _).bind fun x => ?_
  obtain ⟨result, arr⟩ := x
  cases result with
  | error err => exact Prog.all_pure _
  | ok inode => exact (sharing_unlockInodes _ _ _).bind fun _ => Prog.all_pure _

/-- What a worker does for a search. -/
theorem sharing_prog (path : TfsPath) : Sharing ((Task.call (.find path .shared)).prog self) := by
  refine Prog.All.bind ((sharing_find path).bind fun _ => Prog.all_pure _) fun reply => ?_
  split
  · exact (sharing_unlockInode _).bind fun _ => Prog.all_pure _
  · exact Prog.all_pure _

end Sharing

/-! ## Locks of searches -/

section Locks

variable {ι : Type} [DecidableEq ι] {Searches : ι → Prop}

/-- What threads of which some share lock. -/
def SharedBy (Searches : ι → Prop) (m : Mem ι) : Prop :=
  ∀ i u b, (u, b) ∈ m.locks i → Searches u → b = .shared

omit [DecidableEq ι] in
theorem SharedBy.acquire {m : Mem ι} (h : SharedBy Searches m) {t : ι} {idx : Nat}
    {access : TfsRwLockAccess} (ht : Searches t → access = .shared) :
    SharedBy Searches (m.setLocks idx ((t, access) :: m.locks idx)) := by
  intro i u b hu hsearches
  by_cases hi : i = idx
  · subst hi
    rw [Mem.setLocks_self, List.mem_cons] at hu
    rcases hu with heq | hu
    · obtain ⟨rfl, rfl⟩ := Prod.mk.inj heq
      exact ht hsearches
    · exact h i u b hu hsearches
  · rw [Mem.setLocks_of_ne hi] at hu
    exact h i u b hu hsearches

/-- Actions that searches take for shared access only keep that. -/
theorem SharedBy.exec {t : ι} {o : Op} {m m' : Mem ι} {r : o.Resp}
    (ht : Searches t → o.Shares) (he : (machine ι).exec t o m = some (r, m'))
    (h : SharedBy Searches m) : SharedBy Searches m' := by
  cases o with
  | lock idx access =>
    rw [(exec_lock he).2]
    exact h.acquire ht
  | tryLock idx access =>
    rcases exec_tryLock he with ⟨-, -, rfl⟩ | ⟨-, -, rfl⟩
    · exact h.acquire fun hs => (ht hs).elim
    · exact h
  | unlock idx =>
    rw [exec_unlock he]
    intro i u b hu hs
    by_cases hi : i = idx
    · subst hi
      rw [Mem.setLocks_self] at hu
      exact h i u b (RwLock.release_subset hu) hs
    · rw [Mem.setLocks_of_ne hi] at hu
      exact h i u b hu hs
  | read => rwa [(exec_read he).2]
  | write => rw [exec_write he]; exact h
  | assert => rwa [(exec_assert he).2]
  | undefined => exact r.elim
  | fopen =>
    rcases exec_fopen he with ⟨-, rfl⟩ | ⟨-, rfl⟩
    · exact h
    · exact h
  | fclose =>
    obtain ⟨-, rfl⟩ := exec_fclose he
    exact h

end Locks

section Server

variable {κ ω : Type} {fs : TfsFs} {limit : Nat} {address : κ × Nat → Nat × Nat}
  {datagrams : Datagrams κ} {m : Mem (κ × Nat)} {tr : List (Service.Event κ)}
  {s : ServerState κ ω}

/-- What is done for the call is a search. -/
def Datagrams.Searches (datagrams : Datagrams κ) (address : κ × Nat → Nat × Nat) (r : κ × Nat) :
    Prop :=
  ∃ path, datagrams.served address r = some (.call (.find path .shared))

/-- **Searches are done side by side.**  Whatever else goes on in the server, a worker that is
busy with a search can do its next action, unless that is to get a lock that a call holds
which is no search. -/
theorem server_searches_parallel [DecidableEq κ] [DecidableEq ω] {t : κ × Nat}
    {canOpen : List CChar → Bool} {file : List CChar → List CChar}
    (hnew : tfsFsNew.run (machine (κ × Nat)) t (Mem.zero canOpen file) = some (fs, m))
    (h : ServerRun fs limit address datagrams m tr s) {w : ω} {r : κ × Nat} {o : Op}
    (hw : (s.worker w).action = some (r, o)) (hr : datagrams.Searches address r) :
    (∃ x, (machine (κ × Nat)).exec r o s.mem = some x) ∨
      ∃ u, WaitsOn s r u ∧ ¬datagrams.Searches address u := by
  obtain ⟨hT, hlocks⟩ := tree_of_new hnew
  obtain ⟨stage, c, world, tr', htracks, hrun, hg⟩ := exists_good_of_serverRun hT hlocks h
  have hprog : ∀ r, ((datagrams.task address r).prog fs).All
      fun o => datagrams.Searches address r → o.Shares := by
    intro r
    by_cases hr : datagrams.Searches address r
    · obtain ⟨path, hserved⟩ := id hr
      rw [task_eq_call_iff.mpr hserved]
      exact (sharing_prog path).mono fun _ h _ => h
    · exact Prog.all_of_forall (fun _ h => absurd h hr) _
  obtain ⟨hshared, hok⟩ := Run.of_discipline
    (I := SharedBy (datagrams.Searches address)) (fun t o m r m' ht he h => h.exec ht he) hprog
    (by simp [SharedBy, hlocks]) hrun
  have hat := at_of_action htracks hw
  have hshares := hok r o hat hr
  have hmem : world.mem = s.mem := hg.mem.trans htracks.threads.mem
  rw [← hmem]
  rcases Setup.exec_cases_of_pre (hg.pre hat) with hx | ⟨idx, access, rfl, u, b, hb, hconflict⟩ |
    ⟨rfl, -⟩
  · exact Or.inl hx
  · refine Or.inr ⟨u, ⟨w, idx, access, b, hw, hmem ▸ hb, hconflict⟩, fun hu => ?_⟩
    obtain rfl := hshared idx u b (hg.mem ▸ hb) hu
    obtain rfl : access = .shared := hshares
    rcases hconflict with h | h <;> cases h
  · exact absurd rfl hshares

/-- The search of `/a/f` has to wait for the creation of `/a/f`, which has locked `/a`. -/
theorem exists_server_searches_parallel : ∃ (fs : TfsFs) (m : Mem (Bool × Nat))
    (tr : List (Service.Event Bool)) (s : ServerState Bool Bool),
    ServerRun fs 10 (fun _ => (0, 0)) sharingClients.datagrams m tr s ∧
    (s.worker true).action = some ((true, 1), .lock 1 .shared) ∧
    ((∃ x, (machine (Bool × Nat)).exec (true, 1) (.lock 1 .shared) s.mem = some x) ∨
      ∃ u, WaitsOn s (true, 1) u ∧
        ¬sharingClients.datagrams.Searches (fun _ => (0, 0)) u) := by
  have hnew := run_tfsFsNew ((true, 0) : Bool × Nat) (fun _ => true) fun _ => []
  generalize hm : (Mem.zero (fun _ => true) fun _ => []).setNode 0 (.dir tfsInodeDirNew) = m at hnew
  have hafter : ((Service.State.start m).after (machine (Bool × Nat))
      (workerThreads ⟨⟨128⟩⟩ 10 fun _ => (0, 0)) sharingClients.datagrams.sent
      (sharingTurns.take 36 ++ .replicate 7 (.worker false) ++ .replicate 7 (.worker true))).map
        (fun s => (s.worker true).action) = some (some ((true, 1), .lock 1 .shared)) := by
    subst hm
    decide +kernel
  obtain ⟨tr, s, hrun, haction⟩ := Service.Run.nil.exists_seen hafter
  refine ⟨_, m, tr, s, hrun, haction, server_searches_parallel hnew hrun haction
    ⟨⟨0, cstr "/a/f"⟩, ?_⟩⟩
  rw [served_eq_asked proper_sharingClients]
  rfl

end Server

end TecnicoFs
