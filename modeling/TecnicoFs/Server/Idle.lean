import TecnicoFs.Sequential.Locks
import TecnicoFs.Sequential.Maps
import TecnicoFs.Server.Progress
import Mathlib.Data.Set.Card

/-!
# What calls leave behind

A call that is over leaves a lock behind only if it was a move that failed, and then for
ever (`server_locks_kept`).  No call leaves a slot behind: once all calls are answered, the
inodes are the root and what was created and not removed, by the answers that the clients
have (`server_slots_accounted`).
-/

namespace TecnicoFs

open Interleaving Function

/-! ## Locks -/

section Kept

variable {T : Tree}

theorem Setup.Replay.error_of_leak {ι : Type} {S : Setup ι} {log : List (Entry ι)}
    (h : S.Replay log T) {e : Entry ι} (he : e ∈ log) (hleak : e.leak ≠ none) :
    ∃ kind, e.outcome = .error kind := by
  obtain ⟨T₀, c, -, houtcome, hl⟩ := h.exists_atomic he
  cases hout : e.outcome with
  | error kind => exact ⟨kind, rfl⟩
  | ok i => exact absurd (hl ▸ atomic_leak_of_ok (houtcome.trans hout)) hleak

/-- Nobody else gives a lock back. -/
theorem exec_keeps_other {ι : Type} [DecidableEq ι] {t u : ι} {o : Op} {r : o.Resp}
    {m m' : Mem ι} {i : Nat} {b : TfsRwLockAccess}
    (h : (machine ι).exec t o m = some (r, m')) (hne : u ≠ t) (hu : (u, b) ∈ m.locks i) :
    (u, b) ∈ m'.locks i := by
  by_cases ho : ∃ j, o = .unlock j
  · obtain ⟨j, rfl⟩ := ho
    rw [exec_unlock h]
    by_cases hij : i = j
    · subst hij
      rw [Mem.setLocks_self]
      exact (RwLock.mem_release_of_ne hne).mpr hu
    · rwa [Mem.setLocks_of_ne hij]
  · exact exec_keeps_lock h (not_exists.mp ho) hu

/-- A thread that has returned keeps what it holds. -/
theorem keeps_lock_of_step {ι : Type} [DecidableEq ι] {prog : ι → TfsProg Reply}
    {c c' : Config Op Op.Resp ι (Mem ι) Reply} {e : Event ι} {u : ι} {i : Nat}
    {b : TfsRwLockAccess} (h : Step (machine ι) prog c e c')
    (hu : ∃ reply, c.thread u = .returned reply) (hb : (u, b) ∈ c.mem.locks i) :
    (∃ reply, c'.thread u = .returned reply) ∧ (u, b) ∈ c'.mem.locks i := by
  obtain ⟨reply, hu⟩ := hu
  cases h with
  | @invoke t hw =>
    have hne : u ≠ t := fun heq => by
      rw [← heq, hu] at hw
      cases hw
    exact ⟨⟨reply, by simpa [Config.set, update_of_ne hne] using hu⟩, hb⟩
  | @action t o f x m hw he =>
    have hne : u ≠ t := fun heq => by
      rw [← heq, hu] at hw
      cases hw
    exact ⟨⟨reply, by simpa [Config.set, update_of_ne hne] using hu⟩, exec_keeps_other he hne hb⟩
  | @respond t x hw =>
    have hne : u ≠ t := fun heq => by
      rw [← heq, hu] at hw
      cases hw
    exact ⟨⟨reply, by simpa [Config.set, update_of_ne hne] using hu⟩, hb⟩

end Kept

section Locks

variable {κ ω : Type} {fs : TfsFs} {limit : Nat} {address : κ × Nat → Nat × Nat}
  {datagrams : Datagrams κ} {m : Mem (κ × Nat)} {tr : List (Service.Event κ)}
  {s : ServerState κ ω} [DecidableEq κ] [DecidableEq ω]

omit [DecidableEq ω] in
/-- A call that holds a lock, and with which no worker is busy, is a move that is over. -/
theorem returned_of_kept {hT : TreeInv fs.inodeTable.capacity m.node}
    {stage : κ × Nat → Service.Stage ω}
    {c : Config Op Op.Resp (κ × Nat) (Mem (κ × Nat)) Reply} {world : FsWorld (κ × Nat)}
    (htracks : Service.Tracks (workerThreads fs limit address) datagrams.sent s stage c)
    (hg : (serverSetup fs address datagrams m hT).contract.Good c world) {u : κ × Nat} {i : Nat}
    {b : TfsRwLockAccess} (hb : (u, b) ∈ s.mem.locks i) (hbusy : ¬Busy s u) :
    datagrams.Moves address u ∧ ∃ reply, c.thread u = .returned reply := by
  have hb' : (u, b) ∈ world.mem.locks i := by rwa [hg.mem, htracks.threads.mem]
  have hflight : ¬InFlight c u := fun hu => hbusy (busy_of_inFlight htracks hu)
  exact ⟨moves_task_iff.mp ((Setup.inFlight_or_moves hg hb').resolve_left hflight),
    ((Setup.inFlight_or_kept hg hb').resolve_left hflight).1⟩

/-- **A lock of a call that is over stays.** -/
theorem keeps_lock_of_returned {stage : κ × Nat → Service.Stage ω}
    {c : Config Op Op.Resp (κ × Nat) (Mem (κ × Nat)) Reply}
    (htracks : Service.Tracks (workerThreads fs limit address) datagrams.sent s stage c)
    {u : κ × Nat} {i : Nat} {b : TfsRwLockAccess} (hu : ∃ reply, c.thread u = .returned reply)
    (hb : (u, b) ∈ s.mem.locks i) {tr' : List (Service.Event κ)} {s' : ServerState κ ω}
    (h : Service.Run (machine (κ × Nat)) (workerThreads fs limit address) datagrams.sent s tr' s') :
    (u, b) ∈ s'.mem.locks i := by
  suffices ∃ stage' c',
      Service.Tracks (workerThreads fs limit address) datagrams.sent s' stage' c' ∧
      (∃ reply, c'.thread u = .returned reply) ∧ (u, b) ∈ c'.mem.locks i by
    obtain ⟨stage', c', htracks', -, hb'⟩ := this
    rwa [← htracks'.threads.mem]
  induction h with
  | nil => exact ⟨stage, c, htracks, hu, htracks.threads.mem ▸ hb⟩
  | snoc _ hs ih =>
    obtain ⟨stage₁, c₁, htracks₁, hu₁, hb₁⟩ := ih
    obtain ⟨stage₂, c₂, htracks₂, hfollows⟩ := htracks₁.step (fun _ _ => prog_task) hs
    refine ⟨stage₂, c₂, htracks₂, ?_⟩
    rcases hfollows with ⟨-, rfl⟩ | ⟨e', -, hstep⟩
    · exact ⟨hu₁, hb₁⟩
    · exact keeps_lock_of_step hstep hu₁ hb₁

omit [DecidableEq ω] in
/-- The answer to a move that keeps a lock is that it failed. -/
theorem answer_of_kept {hT : TreeInv fs.inodeTable.capacity m.node}
    {tr' : List (Event (κ × Nat))} {stage : κ × Nat → Service.Stage ω}
    {c : Config Op Op.Resp (κ × Nat) (Mem (κ × Nat)) Reply} {world : FsWorld (κ × Nat)}
    (htracks : Service.Tracks (workerThreads fs limit address) datagrams.sent s stage c)
    (hrun : Run (machine (κ × Nat)) (fun r => (datagrams.task address r).prog fs) (.initial m)
      tr' c) (hg : (serverSetup fs address datagrams m hT).contract.Good c world) {u : κ × Nat}
    (hmoves : datagrams.Moves address u) {i : Nat} {b : TfsRwLockAccess}
    (hb : (u, b) ∈ s.mem.locks i) {a : CChar}
    (ha : (s.results u.1)[u.2]? = some (.answered a)) (hlost : .lost ∉ (s.results u.1).take u.2) :
    a = 0 := by
  have hanswer := htracks.threads.results _ _ a ha hlost
  have hanswers := answersTo_of_isAnswer hg hrun htracks.threads hanswer
  obtain ⟨origPath, destPath, access, hserved⟩ := hmoves
  rw [Datagrams.AnswersTo, hserved] at hanswers
  obtain ⟨outcome, hmem, rfl⟩ := hanswers
  have hflight : ¬InFlight c u := by
    rintro ⟨p, hp⟩
    rcases hanswer with ⟨hnone, -⟩ | ⟨reply, hret, -⟩
    · rw [program_workerThreads, hserved] at hnone
      cases hnone
    · rw [hp] at hret
      cases hret
  have hb' : (u, b) ∈ world.mem.locks i := by rwa [hg.mem, htracks.threads.mem]
  obtain ⟨-, e, he, rfl, hleak⟩ := (Setup.inFlight_or_kept hg hb').resolve_left hflight
  obtain ⟨kind, hkind⟩ := hg.inv.replay.error_of_leak he
    (Option.ne_none_iff_exists'.mpr ⟨_, hleak⟩)
  obtain ⟨e', he', heq⟩ := List.mem_map.mp hmem
  obtain ⟨htid, rfl⟩ := Prod.mk.inj heq
  obtain rfl := List.inj_on_of_nodup_map hg.inv.tids he' he htid
  rw [hkind]
  rfl

end Locks

/-! ## Slots -/

/-- In a history, the calls that succeed and are of some kind. -/
def succeeded {ι : Type} (task : ι → Option Task) (kind : Call → Bool) (x : ι × Outcome) : Bool :=
  match task x.1 with
  | some (.call c) => kind c && x.2.isOk
  | _ => false

/-- **The slots in use are those of the creations, less those of the removals.** -/
theorem AtomicHistory.card_liveSlots {ι : Type} {capacity : Nat} {task : ι → Option Task}
    {T₀ T : Tree} {history : List (ι × Outcome)} (h : AtomicHistory capacity task T₀ history T)
    (hT : TreeInv capacity T₀) (hvalid : ∀ r c, task r = some (.call c) → c.Valid) :
    TreeInv capacity T ∧
      (liveSlots capacity T).card + history.countP (succeeded task Call.removes) =
        (liveSlots capacity T₀).card + history.countP (succeeded task Call.creates) := by
  induction h with
  | nil => exact ⟨hT, rfl⟩
  | @snoc history T r slot c _ hc hfit ih =>
    obtain ⟨hT, hcard⟩ := ih
    refine ⟨atomic_treeInv hT (hvalid r c hc) hfit, ?_⟩
    rw [List.countP_append, List.countP_append, List.countP_singleton, List.countP_singleton,
      succeeded, succeeded, hc]
    cases hout : (atomic T slot c).outcome with
    | error kind =>
      rw [atomic_failsClean slot c kind hout]
      simpa [Except.isOk, Except.toBool] using hcard
    | ok i =>
      have hone := card_liveSlots_of_ok hT (hvalid r c hc) hfit hout
      simp only [Except.isOk, Except.toBool, Bool.and_true]
      omega

/-- The calls of some kind that were answered positively. -/
def granted {κ ω : Type} (datagrams : Datagrams κ) (address : κ × Nat → Nat × Nat)
    (s : ServerState κ ω) (kind : Call → Bool) : Set (κ × Nat) :=
  {r | (∃ c, datagrams.served address r = some (.call c) ∧ kind c = true) ∧
    (s.results r.1)[r.2]? = some (.answered 1)}

section Slots

variable {κ ω : Type} {fs : TfsFs} {limit : Nat} {address : κ × Nat → Nat × Nat}
  {datagrams : Datagrams κ} {m : Mem (κ × Nat)} {tr : List (Service.Event κ)}
  {s : ServerState κ ω} [DecidableEq κ] [DecidableEq ω]

/-- The answers tell which calls of a history succeeded. -/
theorem Linearization.countP_succeeded {history : List ((κ × Nat) × Outcome)} {T : Tree}
    (h : Linearization fs address datagrams m tr s history T)
    (hrun : ServerRun fs limit address datagrams m tr s) (hcomplete : s.Complete datagrams.sent)
    (hanswered : ∀ k, ∀ x ∈ s.results k, ∃ a, x = .answered a) (kind : Call → Bool) :
    history.countP (succeeded (datagrams.served address) kind) =
      (granted datagrams address s kind).ncard := by
  have hanswer : ∀ k n a, (s.results k)[n]? = some (.answered a) →
      datagrams.AnswersTo address m.canOpen history (k, n) a := fun k n a ha => by
    refine h.answers k n a ha fun hmem => ?_
    obtain ⟨b, hb⟩ := hanswered k _ (List.mem_of_mem_take hmem)
    cases hb
  have hset : granted datagrams address s kind =
      (((history.filter (succeeded (datagrams.served address) kind)).map Prod.fst).toFinset :
        Set (κ × Nat)) := by
    ext r
    rw [Finset.mem_coe, List.mem_toFinset, List.mem_map]
    constructor
    · rintro ⟨⟨c, hc, hkind⟩, hone⟩
      have hr := hanswer r.1 r.2 1 hone
      rw [Datagrams.AnswersTo, hc] at hr
      obtain ⟨outcome, hmem, hok⟩ := hr
      refine ⟨(r, outcome), List.mem_filter.mpr ⟨hmem, ?_⟩, rfl⟩
      rw [succeeded, hc]
      cases hisOk : outcome.isOk with
      | true => simp [hkind]
      | false => simp [hisOk] at hok
    · rintro ⟨⟨r, outcome⟩, hmem, rfl⟩
      obtain ⟨hmem, hsucc⟩ := List.mem_filter.mp hmem
      have hlt : r.2 < (s.results r.1).length := by
        have hbegun := (hrun.begun_of_send (h.sent r (List.mem_map_of_mem hmem))).1
        rwa [Service.State.begun_of_not_waiting (hcomplete.waiting r.1)] at hbegun
      obtain ⟨a, ha⟩ := hanswered r.1 _ (List.getElem_mem hlt)
      have hget : (s.results r.1)[r.2]? = some (.answered a) := by
        rw [List.getElem?_eq_getElem hlt, ha]
      unfold succeeded at hsucc
      split at hsucc
      swap
      · cases hsucc
      rename_i c hc
      obtain ⟨hkind, hisOk⟩ := Bool.and_eq_true_iff.mp hsucc
      refine ⟨⟨c, hc, hkind⟩, ?_⟩
      have hr := hanswer r.1 r.2 a hget
      rw [Datagrams.AnswersTo, hc] at hr
      obtain ⟨outcome', hmem', rfl⟩ := hr
      have heq := List.inj_on_of_nodup_map h.nodup hmem hmem' rfl
      obtain rfl := (Prod.mk.inj heq).2
      rw [hget, hisOk]
      rfl
  rw [hset, Set.ncard_coe_finset, List.toFinset_card_of_nodup, List.length_map,
    List.countP_eq_length_filter]
  exact h.nodup.sublist (List.filter_sublist.map _)

/-- **No slot is lost.**  When all calls of all clients have been answered, the inodes of the
server are the root and one for each creation that was answered positively, less one for
each such removal. -/
theorem server_slots_accounted {t : κ × Nat} {canOpen : List CChar → Bool}
    {file : List CChar → List CChar}
    (hnew : tfsFsNew.run (machine (κ × Nat)) t (Mem.zero canOpen file) = some (fs, m))
    (h : ServerRun fs limit address datagrams m tr s) (hcomplete : s.Complete datagrams.sent)
    (hanswered : ∀ k, ∀ x ∈ s.results k, ∃ a, x = .answered a) :
    (liveSlots fs.inodeTable.capacity s.mem.node).card +
        (granted datagrams address s Call.removes).ncard =
      1 + (granted datagrams address s Call.creates).ncard := by
  obtain ⟨hT, hlocks⟩ := tree_of_new hnew
  obtain ⟨history, T, hlin⟩ := exists_linearization_of_run hT hlocks h
  obtain ⟨-, hcard⟩ := hlin.atomic.card_liveSlots hT fun r c hc => by
    have hvalid := @valid_task _ address datagrams r
    rwa [task_eq_call_iff.mpr hc] at hvalid
  rw [hlin.countP_succeeded h hcomplete hanswered,
    hlin.countP_succeeded h hcomplete hanswered] at hcard
  obtain ⟨rfl, rfl⟩ := Prod.mk.inj (Option.some.inj ((run_tfsFsNew ..).symm.trans hnew))
  rw [hlin.idle hcomplete.idle, hcard]
  exact congrArg (· + _) card_liveSlots_single

/-- Two creations and no removal. -/
theorem exists_server_slots_accounted : ∃ (fs : TfsFs) (m : Mem (Bool × Nat))
    (tr : List (Service.Event Bool)) (s : ServerState Bool Bool),
    ServerRun fs 10 (fun _ => (0, 0)) sharingClients.datagrams m tr s ∧
    s.results false = [.answered 1] ∧
    (liveSlots fs.inodeTable.capacity s.mem.node).card +
        (granted sharingClients.datagrams (fun _ => (0, 0)) s Call.removes).ncard =
      1 + (granted sharingClients.datagrams (fun _ => (0, 0)) s Call.creates).ncard := by
  have hnew := run_tfsFsNew ((true, 0) : Bool × Nat) (fun _ => true) fun _ => []
  generalize hm : (Mem.zero (fun _ => true) fun _ => []).setNode 0 (.dir tfsInodeDirNew) = m at hnew
  obtain ⟨tr, s, hrun, htrue, hfalse, hcomplete⟩ := exists_sharing_run hm
  refine ⟨_, m, tr, s, hrun, hfalse, server_slots_accounted hnew hrun hcomplete fun k x hx => ?_⟩
  cases k
  · rw [hfalse, List.mem_singleton] at hx
    exact ⟨1, hx⟩
  · rw [htrue, List.mem_pair, or_self] at hx
    exact ⟨1, hx⟩

end Slots

end TecnicoFs
