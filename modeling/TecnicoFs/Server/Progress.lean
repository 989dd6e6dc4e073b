import TecnicoFs.Interleaving.Progress
import TecnicoFs.Concurrent.Deadlock
import TecnicoFs.Server.Contents

/-!
# The server goes on

What can stop a worker.  As long as there is a slot for each creation, no assertion fails,
and whatever a worker is about to do can be done, unless it is to get a lock that another
call holds (`server_never_aborts`).

A server with nothing left to do but to wait has answered all calls, or the inode table is
full, or some call waits for a lock that a move kept when it failed, or the calls wait for
each other in a cycle (`server_hangs_only`).  Without moves it answers all calls
(`server_answers_all`).
-/

namespace TecnicoFs

open Interleaving Function Relation

/-! ## The next action -/

/-- **What can come of the next action.** -/
theorem Setup.exec_cases_of_pre {ι : Type} [DecidableEq ι] {S : Setup ι} {w : FsWorld ι} {t : ι}
    {o : Op} (hpre : S.Pre t o w) : (∃ x, (machine ι).exec t o w.mem = some x) ∨
      (∃ idx access, o = .lock idx access ∧ ∃ u b, (u, b) ∈ w.mem.locks idx ∧ access.Conflict b) ∨
      o = .assert .addFull false ∧ ¬S.Room := by
  cases o with
  | lock idx access =>
    by_cases hadm : RwLock.Admits (w.mem.locks idx) access
    · exact Or.inl ⟨((), _), if_pos hadm⟩
    · obtain ⟨⟨u, b⟩, hmem, hconflict⟩ := RwLock.not_admits_iff.mp hadm
      exact Or.inr (Or.inl ⟨idx, access, rfl, u, b, hmem, hconflict⟩)
  | tryLock idx access =>
    by_cases hadm : RwLock.Admits (w.mem.locks idx) access
    · exact Or.inl ⟨(true, _), if_pos hadm⟩
    · exact Or.inl ⟨(false, _), if_neg hadm⟩
  | unlock idx =>
    obtain ⟨b, hb⟩ := hpre
    exact Or.inl ⟨((), _), if_pos (List.mem_map_of_mem hb)⟩
  | read idx => exact Or.inl ⟨_, rfl⟩
  | write idx node => exact Or.inl ⟨_, rfl⟩
  | assert site holds =>
    by_cases hholds : holds = true
    · subst hholds
      exact Or.inl ⟨_, rfl⟩
    by_cases hsite : site = .addFull
    · subst hsite
      refine Or.inr (Or.inr ⟨?_, hpre.resolve_left hholds⟩)
      rw [Bool.eq_false_iff.mpr hholds]
    · exact absurd (holds_of_pre hpre hsite) hholds
  | undefined => exact hpre.elim
  | fopen name =>
    by_cases hopen : w.mem.canOpen name = true
    · exact Or.inl ⟨(true, _), if_pos hopen⟩
    · exact Or.inl ⟨(false, _), if_neg hopen⟩
  | fclose out => exact Or.inl ⟨_, rfl⟩

/-- What an entry of the log says of its call. -/
theorem Setup.Replay.exists_atomic {ι : Type} {S : Setup ι} {log : List (Entry ι)} {T : Tree}
    (h : S.Replay log T) {e : Entry ι} (he : e ∈ log) :
    ∃ T₀ c, S.task e.tid = .call c ∧ (atomic T₀ e.slot c).outcome = e.outcome ∧
      (atomic T₀ e.slot c).leak = e.leak := by
  induction h with
  | nil => cases he
  | @snoc log T e' c _ hc _ houtcome hleak _ ih =>
    rcases List.mem_append.mp he with he | he
    · exact ih he
    · obtain rfl := List.mem_singleton.mp he
      exact ⟨T, c, hc, houtcome, hleak⟩

/-- What is kept was kept by a move. -/
theorem Setup.Replay.moves_of_leak {ι : Type} {S : Setup ι} {log : List (Entry ι)} {T : Tree}
    (h : S.Replay log T) {e : Entry ι} (he : e ∈ log) (hleak : e.leak ≠ none) :
    (S.task e.tid).Moves := by
  obtain ⟨T₀, c, hc, -, hl⟩ := h.exists_atomic he
  rw [hc]
  by_contra hmove
  exact hleak (hl ▸ atomic_leak hmove T₀ e.slot)

/-- A lock is held by a call in flight, or kept by one that is over. -/
theorem Setup.inFlight_or_kept {ι : Type} [DecidableEq ι] {S : Setup ι}
    {c : Config Op Op.Resp ι (Mem ι) Reply} {w : FsWorld ι} (hg : S.contract.Good c w) {u : ι}
    {i : Nat} {b : TfsRwLockAccess} (hb : (u, b) ∈ w.mem.locks i) :
    InFlight c u ∨ (∃ reply, c.thread u = .returned reply) ∧
      ∃ e ∈ w.ghost.log, e.tid = u ∧ (i, b) ∈ e.leak := by
  have hknows := hg.knows u
  have hnot : ¬S.Fresh u w := fun h => by simpa using (h.owns i b).mp hb
  cases hu : c.thread u with
  | waiting =>
    rw [hu] at hknows
    exact absurd hknows hnot
  | running p => exact Or.inl ⟨p, hu⟩
  | returned reply =>
    rw [hu] at hknows
    change S.Final u reply w at hknows
    rw [Setup.Final] at hknows
    split at hknows
    · obtain ⟨e, T, slot, -, hlocal⟩ := hknows
      obtain ⟨he, htid⟩ := hlocal.mem_mine_iff.mp (List.mem_singleton_self e)
      exact Or.inr ⟨⟨reply, rfl⟩, e, he, htid, Option.mem_toList.mp ((hlocal.owns i b).mp hb)⟩
    · exact absurd hknows hnot

/-- A lock is held by a call in flight, or by a move. -/
theorem Setup.inFlight_or_moves {ι : Type} [DecidableEq ι] {S : Setup ι}
    {c : Config Op Op.Resp ι (Mem ι) Reply} {w : FsWorld ι} (hg : S.contract.Good c w) {u : ι}
    {i : Nat} {b : TfsRwLockAccess} (hb : (u, b) ∈ w.mem.locks i) :
    InFlight c u ∨ (S.task u).Moves := by
  refine (S.inFlight_or_kept hg hb).imp_right ?_
  rintro ⟨-, e, he, rfl, hleak⟩
  exact hg.inv.replay.moves_of_leak he (Option.ne_none_iff_exists'.mpr ⟨_, hleak⟩)

variable {κ ω : Type} {fs : TfsFs} {limit : Nat} {address : κ × Nat → Nat × Nat}
  {datagrams : Datagrams κ} {m : Mem (κ × Nat)} {tr : List (Service.Event κ)}
  {s : ServerState κ ω}

/-- What is done for the call creates something. -/
def Datagrams.Creates (datagrams : Datagrams κ) (address : κ × Nat → Nat × Nat)
    (r : κ × Nat) : Prop :=
  ∃ path type, datagrams.served address r = some (.call (.create path type))

/-- What is done for the call is a move. -/
def Datagrams.Moves (datagrams : Datagrams κ) (address : κ × Nat → Nat × Nat)
    (r : κ × Nat) : Prop :=
  ∃ origPath destPath access,
    datagrams.served address r = some (.call (.move origPath destPath access))

theorem moves_task_iff {r : κ × Nat} :
    (datagrams.task address r).Moves ↔ datagrams.Moves address r :=
  exists_congr fun _ => exists_congr fun _ => exists_congr fun _ => task_eq_call_iff

/-- Whatever call each client is at, no moves of theirs cross in a cycle. -/
def Datagrams.Uncrossed (datagrams : Datagrams κ) (address : κ × Nat → Nat × Nat) : Prop :=
  ∀ (n : κ → Nat) (k : κ), ¬TransGen (fun k k' =>
    (datagrams.task address (k, n k)).lockingCall.Crosses
      (datagrams.task address (k', n k')).lockingCall) k k

theorem uncrossed_of_not_moves (hmoves : ∀ r, ¬datagrams.Moves address r) :
    datagrams.Uncrossed address := fun n k hcycle => by
  obtain ⟨k', ⟨x, hx, -⟩, -⟩ := TransGen.head'_iff.mp hcycle
  exact hmoves _ (moves_task_iff.mp (Task.moves_of_lockedParents hx))

/-- The moves of one client are never under way at the same time. -/
theorem uncrossed_of_subsingleton [Subsingleton κ] : datagrams.Uncrossed address :=
    fun n k hcycle => by
  obtain ⟨k', hcross, -⟩ := TransGen.head'_iff.mp hcycle
  obtain rfl := Subsingleton.elim k k'
  exact not_crosses_self (Task.valid_lockingCall (valid_task _)) hcross

theorem card_liveSlots_single :
    (liveSlots 128 (update (fun _ => .none) 0 (.dir tfsInodeDirNew))).card = 1 := by
  decide

/-- There are slots for all creations. -/
theorem room_of_creates {hT : TreeInv fs.inodeTable.capacity m.node} (hlocks : ∀ i, m.locks i = [])
    {C : Finset (κ × Nat)} (hC : ∀ r, datagrams.Creates address r → r ∈ C)
    (hroom : (liveSlots fs.inodeTable.capacity m.node).card + C.card ≤ fs.inodeTable.capacity) :
    (serverSetup fs address datagrams m hT).Room := by
  refine ⟨_, C, fun i hi hused => mem_liveSlots.mpr ⟨hi, ?_⟩, fun r hr => hC r ?_, hroom⟩
  · exact hused.resolve_left (not_not.mpr (hlocks i))
  · obtain ⟨path, type, hr⟩ := hr
    exact ⟨path, type, task_eq_call_iff.mp hr⟩

/-- Some worker is busy with the call. -/
def Busy (s : ServerState κ ω) (r : κ × Nat) : Prop := ∃ w, (s.worker w).call = some r

/-- Call `r` is to get a lock that `u` holds in a conflicting mode. -/
def WaitsOn (s : ServerState κ ω) (r u : κ × Nat) : Prop :=
  ∃ w idx access b, (s.worker w).action = some (r, .lock idx access) ∧
    (u, b) ∈ s.mem.locks idx ∧ access.Conflict b

theorem room_of_new [DecidableEq κ] {t : κ × Nat} {canOpen : List CChar → Bool}
    {file : List CChar → List CChar} {hT : TreeInv fs.inodeTable.capacity m.node}
    (hnew : tfsFsNew.run (machine (κ × Nat)) t (Mem.zero canOpen file) = some (fs, m))
    {C : Finset (κ × Nat)} (hC : ∀ r, datagrams.Creates address r → r ∈ C)
    (hroom : C.card < fs.inodeTable.capacity) :
    (serverSetup fs address datagrams m hT).Room := by
  refine room_of_creates (tree_of_new hnew).2 hC ?_
  obtain ⟨rfl, rfl⟩ := Prod.mk.inj (Option.some.inj ((run_tfsFsNew ..).symm.trans hnew))
  show (liveSlots 128 (update (fun _ => .none) 0 (.dir tfsInodeDirNew))).card + _ ≤ _
  rw [card_liveSlots_single]
  omega

section Run

variable [DecidableEq κ] [DecidableEq ω]

/-- The threads of a run of the server, and what explains them. -/
theorem exists_good_of_serverRun (hT : TreeInv fs.inodeTable.capacity m.node)
    (hlocks : ∀ i, m.locks i = []) (h : ServerRun fs limit address datagrams m tr s) :
    ∃ (stage : κ × Nat → Service.Stage ω) (c : Config Op Op.Resp (κ × Nat) (Mem (κ × Nat)) Reply)
      (w : FsWorld (κ × Nat)) (tr' : List (Event (κ × Nat))),
      Service.Tracks (workerThreads fs limit address) datagrams.sent s stage c ∧
      Run (machine (κ × Nat)) (fun r => (datagrams.task address r).prog fs) (.initial m) tr' c ∧
      (serverSetup fs address datagrams m hT).contract.Good c w := by
  obtain ⟨stage, c, htracks, hrun⟩ := h.exists_tracks fun _ _ => prog_task
  obtain ⟨w, hg⟩ := exists_good_of_run valid_task hT hlocks hrun
  exact ⟨stage, c, w, _, htracks, hrun, hg⟩

omit [DecidableEq κ] [DecidableEq ω] in
theorem at_of_action {stage : κ × Nat → Service.Stage ω}
    {c : Config Op Op.Resp (κ × Nat) (Mem (κ × Nat)) Reply}
    (htracks : Service.Tracks (workerThreads fs limit address) datagrams.sent s stage c)
    {w : ω} {r : κ × Nat} {o : Op} (hw : (s.worker w).action = some (r, o)) : c.At r o := by
  obtain ⟨f, hf⟩ := Service.Worker.action_eq_some_iff.mp hw
  exact ⟨f, (htracks.threads.running w r _ hf).1⟩

/-- What the clients of `sharingClients` create is done for the first call of each. -/
theorem creates_sharingClients {r : Bool × Nat}
    (h : sharingClients.datagrams.Creates (fun _ => (0, 0)) r) :
    r ∈ ({(true, 0), (false, 0)} : Finset _) := by
  obtain ⟨path, type, h⟩ := h
  rw [served_eq_asked proper_sharingClients] at h
  obtain ⟨command, hcommand, htask⟩ := Option.map_eq_some_iff.mp h
  obtain ⟨k, n⟩ := r
  cases n with
  | zero => cases k <;> simp
  | succ n =>
    cases k with
    | false => cases hcommand
    | true =>
      cases n with
      | zero =>
        obtain rfl := Option.some.inj hcommand
        cases htask
      | succ n => cases hcommand

theorem not_moves_sharingClients (r : Bool × Nat) :
    ¬sharingClients.datagrams.Moves (fun _ => (0, 0)) r := by
  rintro ⟨origPath, destPath, access, h⟩
  rw [served_eq_asked proper_sharingClients] at h
  obtain ⟨command, hcommand, htask⟩ := Option.map_eq_some_iff.mp h
  have hmem := mem_of_command hcommand
  cases hr : r.1 <;> rw [hr] at hmem
  · obtain rfl := Option.some.inj (List.mem_singleton.mp hmem)
    cases htask
  · rcases List.mem_cons.mp hmem with hmem | hmem
    · obtain rfl := Option.some.inj hmem
      cases htask
    · obtain rfl := Option.some.inj (List.mem_singleton.mp hmem)
      cases htask

section Stuck

variable {stage : κ × Nat → Service.Stage ω} {tr' : List (Event (κ × Nat))}
  {c : Config Op Op.Resp (κ × Nat) (Mem (κ × Nat)) Reply} {world : FsWorld (κ × Nat)}
  {hT : TreeInv fs.inodeTable.capacity m.node}
  (htracks : Service.Tracks (workerThreads fs limit address) datagrams.sent s stage c)
  (hg : (serverSetup fs address datagrams m hT).contract.Good c world)

include htracks

omit [DecidableEq κ] [DecidableEq ω] in
theorem busy_of_inFlight {r : κ × Nat} (h : InFlight c r) : Busy s r := by
  obtain ⟨p, hp⟩ := h
  by_contra hno
  rw [Busy, not_exists] at hno
  rcases htracks.threads.rest r fun w hw => hno w ((htracks.places.served w r).mpr hw) with
    hr | ⟨x, hr⟩
  · rw [hp] at hr
    cases hr
  · rw [hp] at hr
    cases hr

omit [DecidableEq κ] [DecidableEq ω] in
theorem waitsFor_of_waitsOn {r u : κ × Nat} (h : WaitsOn s r u) : WaitsFor c r u := by
  obtain ⟨w, idx, access, b, hw, hb, hconflict⟩ := h
  exact ⟨idx, access, b, at_of_action htracks hw, htracks.threads.mem ▸ hb, hconflict⟩

omit [DecidableEq ω] in
/-- **Calls do not wait for each other** if their moves do not cross. -/
theorem not_transGen_waitsOn (hT : TreeInv fs.inodeTable.capacity m.node)
    (hlocks : ∀ i, m.locks i = [])
    (hrun : Run (machine (κ × Nat)) (fun r => (datagrams.task address r).prog fs) (.initial m)
      tr' c) (hm : ∀ k, s.Matched k) (hcross : datagrams.Uncrossed address) (r : κ × Nat) :
    ¬TransGen (WaitsOn s) r r := by
  intro hcycle
  have hcurrent : ∀ {r}, InFlight c r → (r.1, (s.results r.1).length) = r := fun {r} hr => by
    obtain ⟨w, hw⟩ := busy_of_inFlight htracks hr
    exact (htracks.places.eq_current_of_call (hm r.1) hw).symm
  refine not_transGen_waitsFor_of_inFlight valid_task hT hlocks hrun (fun u hu => ?_) r
    (TransGen.mono (fun _ _ => waitsFor_of_waitsOn htracks) _ _ hcycle)
  refine hcross (fun k => (s.results k).length) u.1 (TransGen.lift Prod.fst ?_ _ _ hu)
  rintro r u ⟨hr, hu, hcross⟩
  show (datagrams.task address (r.1, (s.results r.1).length)).lockingCall.Crosses
    (datagrams.task address (u.1, (s.results u.1).length)).lockingCall
  rwa [hcurrent hr, hcurrent hu]

include hg

/-- **What holds up a worker.** -/
theorem worker_of_stuck (hm : ∀ k, s.Matched k) (hlimit : 0 < limit)
    (hstuck : s.Stuck (machine (κ × Nat)) (workerThreads fs limit address) datagrams.sent)
    (w : ω) : s.worker w = .idle ∨
      (∃ r, (s.worker w).action = some (r, .assert .addFull false)) ∨
      ∃ r u, (s.worker w).call = some r ∧ WaitsOn s r u ∧
        (Busy s u ∨ datagrams.Moves address u) := by
  rcases htracks.places.worker_of_stuck hstuck hm hlimit w with hidle | ⟨r, o, f, hw, hnone⟩
  · exact Or.inl hidle
  have haction := Service.Worker.action_eq_some_iff.mpr ⟨f, hw⟩
  have hat := at_of_action htracks haction
  have hmem : world.mem = s.mem := hg.mem.trans htracks.threads.mem
  rcases Setup.exec_cases_of_pre (hg.pre hat) with ⟨x, hx⟩ | ⟨idx, access, rfl, u, b, hb, hc⟩ |
    ⟨rfl, -⟩
  · rw [hmem, hnone] at hx
    cases hx
  · refine Or.inr (Or.inr ⟨r, u, by rw [hw]; rfl, ⟨w, idx, access, b, haction, hmem ▸ hb, hc⟩, ?_⟩)
    exact (Setup.inFlight_or_moves hg hb).imp (busy_of_inFlight htracks) moves_task_iff.mp
  · exact Or.inr (Or.inl ⟨r, haction⟩)

end Stuck

omit [DecidableEq κ] [DecidableEq ω] in
theorem finite_busy [Finite ω] : {r | Busy s r}.Finite := by
  refine ((Set.finite_range fun w => (s.worker w).call).preimage
    (Option.some_injective _).injOn).subset fun r hr => ?_
  exact hr

/-- A client that gave up on no answer lost none. -/
theorem matched_of_trace {M : Machine Op Op.Resp (κ × Nat) (Mem (κ × Nat))}
    {S : Service Op Op.Resp κ Reply (List CChar) CChar} {script : κ → List (Option (List CChar))}
    (h : Service.Run M S script (.start m) tr s) (hlose : ∀ r, .lose r ∉ tr) (k : κ) :
    s.Matched k := by
  intro hmem
  obtain ⟨n, hn⟩ := List.mem_iff_getElem?.mp hmem
  exact hlose (k, n) ((h.results_iff k n).2.mpr hn)

theorem lose_notMem_of_matched {M : Machine Op Op.Resp (κ × Nat) (Mem (κ × Nat))}
    {S : Service Op Op.Resp κ Reply (List CChar) CChar} {script : κ → List (Option (List CChar))}
    (h : Service.Run M S script (.start m) tr s) (hm : ∀ k, s.Matched k) (r : κ × Nat) :
    .lose r ∉ tr :=
  fun hr => hm r.1 (List.mem_of_getElem? ((h.results_iff r.1 r.2).2.mp hr))

/-- The ways in which a server can come to rest. -/
theorem stuck_cases [Finite ω] [Nonempty ω] {stage : κ × Nat → Service.Stage ω}
    {c : Config Op Op.Resp (κ × Nat) (Mem (κ × Nat)) Reply} {world : FsWorld (κ × Nat)}
    {hT : TreeInv fs.inodeTable.capacity m.node}
    (htracks : Service.Tracks (workerThreads fs limit address) datagrams.sent s stage c)
    (hg : (serverSetup fs address datagrams m hT).contract.Good c world)
    (h : ServerRun fs limit address datagrams m tr s) (hlose : ∀ r, .lose r ∉ tr)
    (hlimit : 0 < limit)
    (hstuck : s.Stuck (machine (κ × Nat)) (workerThreads fs limit address) datagrams.sent) :
    s.Complete datagrams.sent ∨
      (∃ w r, (s.worker w).action = some (r, .assert .addFull false)) ∨
      (∃ r u, WaitsOn s r u ∧ datagrams.Moves address u ∧ ¬Busy s u) ∨
      ∃ r, TransGen (WaitsOn s) r r := by
  have hm := matched_of_trace h hlose
  by_cases hidle : ∀ w, s.worker w = .idle
  · exact Or.inl (htracks.places.complete_of_idle hstuck hm h.begun_le hidle)
  by_contra hno
  rw [not_or, not_or, not_or] at hno
  obtain ⟨-, hfull, hkept, hcycle⟩ := hno
  rw [not_forall] at hidle
  obtain ⟨w, hw⟩ := hidle
  have hwaits : ∀ r, Busy s r → ∃ u, Busy s u ∧ WaitsOn s r u := by
    rintro r ⟨w, hr⟩
    rcases worker_of_stuck htracks hg hm hlimit hstuck w with hidle | hx | ⟨r', u, hr', hru, hu⟩
    · rw [hidle] at hr
      cases hr
    · exact absurd ⟨w, hx⟩ hfull
    · obtain rfl : r = r' := Option.some.inj (hr.symm.trans hr')
      refine ⟨u, ?_, hru⟩
      by_contra hbusy
      exact hkept ⟨r, u, hru, hu.resolve_left hbusy, hbusy⟩
  refine hcycle (exists_transGen_self finite_busy hwaits ?_)
  cases hx : s.worker w with
  | idle => exact absurd hx hw
  | running r p => exact ⟨r, w, by rw [hx]; rfl⟩
  | refusing r => exact ⟨r, w, by rw [hx]; rfl⟩

variable {t : κ × Nat} {canOpen : List CChar → Bool} {file : List CChar → List CChar}

/-- A client whose move fails, for there is a file `/b`, and keeps the lock of `/a/x`. -/
def hangingClients : Clients Unit := fun _ =>
  [some (.create (cstr "/a") .dir), some (.create (cstr "/a/x") .file),
    some (.create (cstr "/b") .file), some (.move (cstr "/a/x") (cstr "/b")),
    some (.search (cstr "/a/x"))]

open Service.Turn in
/-- The search waits. -/
def hangingTurns : List (Service.Turn Unit Unit) :=
  (([24, 35, 30, 28].map fun n => send () :: List.replicate n (worker ()) ++ [take ()]).flatten) ++
    send () :: List.replicate 14 (worker ())

set_option synthInstance.maxSize 256 in
/-- A run of the client on a new file system, to where nothing goes on. -/
theorem exists_hanging_run {m : Mem (Unit × Nat)}
    (hm : (Mem.zero (fun _ => true) fun _ => []).setNode 0 (.dir tfsInodeDirNew) = m) :
    ∃ (tr : List (Service.Event Unit)) (s : ServerState Unit Unit),
      ServerRun ⟨⟨128⟩⟩ 10 (fun _ => (0, 0)) hangingClients.datagrams m tr s ∧
        s.results () = [.answered 1, .answered 1, .answered 1, .answered 0] ∧
        (s.worker ()).action = some (((), 4), .lock 2 .shared) ∧
        s.mem.locks 2 = [(((), 3), .unique)] ∧
        s.Stuck (machine (Unit × Nat)) (workerThreads ⟨⟨128⟩⟩ 10 fun _ => (0, 0))
          hangingClients.datagrams.sent := by
  have hafter : ((Service.State.start m).after (machine (Unit × Nat))
      (workerThreads ⟨⟨128⟩⟩ 10 fun _ => (0, 0)) hangingClients.datagrams.sent hangingTurns).map
        (fun s => ((s.results (), (s.worker ()).action), s.mem.locks 2,
          [.send (), .unsent (), .worker (), .take ()].all fun turn =>
            (s.next (machine (Unit × Nat)) (workerThreads ⟨⟨128⟩⟩ 10 fun _ => (0, 0))
              hangingClients.datagrams.sent turn).isNone)) =
      some (([.answered 1, .answered 1, .answered 1, .answered 0],
        some (((), 4), .lock 2 .shared)), [(((), 3), .unique)], true) := by
    subst hm
    decide +kernel
  obtain ⟨tr, s, hrun, hseen⟩ := Service.Run.nil.exists_seen hafter
  simp only [Prod.mk.injEq, List.all_cons, List.all_nil, Bool.and_eq_true,
    Option.isNone_iff_eq_none, and_true] at hseen
  obtain ⟨⟨hresults, haction⟩, hlocks, hsend, hunsent, hworker, htake⟩ := hseen
  refine ⟨tr, s, hrun, hresults, haction, hlocks, Service.State.stuck_of_next fun turn hturn => ?_⟩
  cases turn with
  | send => exact hsend
  | unsent => exact hunsent
  | worker => exact hworker
  | take => exact htake
  | lose k => exact absurd rfl (hturn k)

/-- If moves do not cross, only a lock that one of them kept holds up the server. -/
theorem kept_of_stuck [Finite ω] [Nonempty ω]
    (hnew : tfsFsNew.run (machine (κ × Nat)) t (Mem.zero canOpen file) = some (fs, m))
    {C : Finset (κ × Nat)} (hC : ∀ r, datagrams.Creates address r → r ∈ C)
    (hroom : C.card < fs.inodeTable.capacity) (hcross : datagrams.Uncrossed address)
    (h : ServerRun fs limit address datagrams m tr s) (hlose : ∀ r, .lose r ∉ tr)
    (hlimit : 0 < limit)
    (hstuck : s.Stuck (machine (κ × Nat)) (workerThreads fs limit address) datagrams.sent) :
    s.Complete datagrams.sent ∨
      ∃ r u, WaitsOn s r u ∧ datagrams.Moves address u ∧ ¬Busy s u := by
  obtain ⟨hT, hlocks⟩ := tree_of_new hnew
  obtain ⟨stage, c, world, tr', htracks, hrun, hg⟩ := exists_good_of_serverRun hT hlocks h
  rcases stuck_cases htracks hg h hlose hlimit hstuck with h' | ⟨w, r, hw⟩ | hkept | ⟨r, hr⟩
  · exact Or.inl h'
  · rcases hg.pre (at_of_action htracks hw) with hholds | hfull
    · cases hholds
    · exact absurd (room_of_new hnew hC hroom) hfull
  · exact Or.inr hkept
  · have hm := matched_of_trace h hlose
    exact absurd hr (not_transGen_waitsOn htracks hT hlocks hrun hm hcross r)

/-- Without moves, nothing but the end can come. -/
theorem complete_of_stuck [Finite ω] [Nonempty ω]
    (hnew : tfsFsNew.run (machine (κ × Nat)) t (Mem.zero canOpen file) = some (fs, m))
    {C : Finset (κ × Nat)} (hC : ∀ r, datagrams.Creates address r → r ∈ C)
    (hroom : C.card < fs.inodeTable.capacity) (hmoves : ∀ r, ¬datagrams.Moves address r)
    (h : ServerRun fs limit address datagrams m tr s) (hlose : ∀ r, .lose r ∉ tr)
    (hlimit : 0 < limit)
    (hstuck : s.Stuck (machine (κ × Nat)) (workerThreads fs limit address) datagrams.sent) :
    s.Complete datagrams.sent := by
  have hcross := uncrossed_of_not_moves hmoves
  refine (kept_of_stuck hnew hC hroom hcross h hlose hlimit hstuck).resolve_right ?_
  rintro ⟨r, u, -, hu, -⟩
  exact hmoves u hu

/-- A server and finitely many clients do not go on for ever. -/
theorem not_exists_states [Finite κ] [Finite ω] : ¬∃ states : Nat → ServerState κ ω,
    states 0 = s ∧ ∀ n, ∃ e, Service.Step (machine (κ × Nat)) (workerThreads fs limit address)
      datagrams.sent (states n) e (states (n + 1)) := by
  rintro ⟨states, -, hsteps⟩
  exact (wellFounded_iff_isEmpty_descending_chain.mp (Service.wellFounded_step
    (machine (κ × Nat)) (workerThreads fs limit address) datagrams.sent)).elim ⟨states, hsteps⟩

end Run

end TecnicoFs
