import TecnicoFs.Sequential.Calls
import TecnicoFs.Fs.TwoPhase

/-!
# The locks of one operation

What an operation that runs alone does to locks.  It asks for each inode at most once, as it
locks in two phases and never asks for what it holds.  It gives back only what it holds.
And what it still holds in the end is the inode that it returned, or nothing, but for one
case of `tfs_fs_move`.
-/

namespace TecnicoFs

open Interleaving Function Graph

variable {ι : Type} [DecidableEq ι]

/-! ## Traces -/

/-- The slot of a blocking request. -/
def requestOf : (o : Op) × Option o.Resp → Option Nat
  | ⟨.lock idx _, _⟩ => some idx
  | _ => none

/-- The slot whose lock was taken. -/
def acquireOf : (o : Op) × Option o.Resp → Option Nat
  | ⟨.lock idx _, some _⟩ => some idx
  | ⟨.tryLock idx _, some true⟩ => some idx
  | _ => none

/-- The slot whose lock was given back. -/
def releaseOf : (o : Op) × Option o.Resp → Option Nat
  | ⟨.unlock idx, some _⟩ => some idx
  | _ => none

/-- How often a thread holds a lock. -/
def Mem.holds (m : Mem ι) (t : ι) (i : Nat) : Nat := (m.locks i).countP fun x => x.1 = t

section Exec

variable {t u : ι} {m m' : Mem ι} {o : Op} {r : o.Resp} {i : Nat} {a : TfsRwLockAccess}

/-- Only unlocking gives up a lock. -/
theorem exec_keeps_lock (h : (machine ι).exec t o m = some (r, m')) (ho : ∀ i, o ≠ .unlock i)
    (hu : (u, a) ∈ m.locks i) : (u, a) ∈ m'.locks i := by
  cases o with
  | lock idx access =>
    rw [(exec_lock h).2]
    exact Mem.mem_acquire.mpr (Or.inl hu)
  | tryLock idx access =>
    rcases exec_tryLock h with ⟨-, -, rfl⟩ | ⟨-, -, rfl⟩
    · exact Mem.mem_acquire.mpr (Or.inl hu)
    · exact hu
  | unlock idx => exact absurd rfl (ho idx)
  | read => rwa [(exec_read h).2]
  | write => rw [exec_write h]; exact hu
  | assert => rwa [(exec_assert h).2]
  | undefined => exact r.elim
  | fopen =>
    rcases exec_fopen h with ⟨-, rfl⟩ | ⟨-, rfl⟩
    · exact hu
    · exact hu
  | fclose =>
    obtain ⟨-, rfl⟩ := exec_fclose h
    exact hu

theorem holds_acquire (m : Mem ι) (t : ι) (idx : Nat) (a : TfsRwLockAccess) (i : Nat) :
    (m.setLocks idx ((t, a) :: m.locks idx)).holds t i = m.holds t i + [idx].count i := by
  by_cases hi : i = idx
  · subst hi
    simp [Mem.holds]
  · simp [Mem.holds, Mem.setLocks_of_ne hi, Ne.symm hi]

theorem countP_release {h : List (ι × TfsRwLockAccess)} (ht : t ∈ h.map Prod.fst) :
    (RwLock.release t h).countP (fun x => x.1 = t) + 1 = h.countP fun x => x.1 = t := by
  induction h with
  | nil => cases ht
  | cons x h ih =>
    by_cases hx : x.1 = t
    · simp [RwLock.release, hx]
    · have ht' : t ∈ h.map Prod.fst := by simpa [Ne.symm hx] using ht
      have ih' := ih ht'
      simp only [RwLock.release] at ih'
      simpa [RwLock.release, List.eraseP_cons, hx] using ih'

/-- **Every action keeps the account of the locks of its thread.** -/
theorem exec_balance (h : (machine ι).exec t o m = some (r, m')) (i : Nat) :
    m.holds t i + (acquireOf ⟨o, some r⟩).toList.count i =
      m'.holds t i + (releaseOf ⟨o, some r⟩).toList.count i := by
  cases o with
  | lock idx access =>
    rw [(exec_lock h).2, holds_acquire]
    rfl
  | tryLock idx access =>
    rcases exec_tryLock h with ⟨rfl, -, rfl⟩ | ⟨rfl, -, rfl⟩
    · rw [holds_acquire]
      rfl
    · rfl
  | unlock idx =>
    have ht : t ∈ (m.locks idx).map Prod.fst := by
      by_contra ht
      rw [machine_exec, exec, if_neg ht] at h
      cases h
    have hcount := countP_release ht
    obtain rfl := exec_unlock h
    show m.holds t i + 0 = _ + [idx].count i
    by_cases hi : i = idx
    · subst hi
      simpa [Mem.holds] using hcount.symm
    · simp [Mem.holds, Mem.setLocks_of_ne hi, Ne.symm hi]
  | read => rw [(exec_read h).2]; rfl
  | write => rw [exec_write h]; rfl
  | assert => rw [(exec_assert h).2]; rfl
  | undefined => exact r.elim
  | fopen =>
    rcases exec_fopen h with ⟨-, rfl⟩ | ⟨-, rfl⟩
    · rfl
    · rfl
  | fclose =>
    obtain ⟨-, rfl⟩ := exec_fclose h
    rfl

end Exec

section Trace

theorem filterMap_cons_eq {β γ : Type} (f : β → Option γ) (x : β) (l : List β) :
    (x :: l).filterMap f = (f x).toList ++ l.filterMap f := by
  rw [List.filterMap_cons]
  cases f x <;> rfl

variable {α : Type} {p : TfsProg α} {t : ι} {m m' : Mem ι} {b : Bool} {o : Op} {i : Nat}
  {acc : TfsRwLockAccess}

/-- **What a run alone took and did not give back, it still holds.** -/
theorem run_balance {a : α} (h : p.run (machine ι) t m = some (a, m')) (i : Nat) :
    m.holds t i + ((p.trace (machine ι) t m).filterMap acquireOf).count i =
      m'.holds t i + ((p.trace (machine ι) t m).filterMap releaseOf).count i := by
  induction p generalizing m with
  | ret b =>
    obtain ⟨-, rfl⟩ := Prod.mk.inj (Option.some.inj h)
    rfl
  | act o k ih =>
    obtain ⟨r, m₁, he, h⟩ := Prog.exists_of_run_act h
    have hstep := exec_balance he i
    have hrest := ih r h
    rw [Prog.trace_act_of_some he, filterMap_cons_eq, filterMap_cons_eq, List.count_append,
      List.count_append]
    omega

/-- Where a hold comes from. -/
theorem exec_hold (h2 : o.Allowed b) {r : o.Resp}
    (h : (machine ι).exec t o m = some (r, m')) (hheld : (t, acc) ∈ m'.locks i) :
    (t, acc) ∈ m.locks i ∨ acc = .unique ∨ o = .lock i acc := by
  cases o with
  | lock idx access =>
    rw [(exec_lock h).2] at hheld
    rcases Mem.mem_acquire.mp hheld with hmem | ⟨rfl, -, rfl⟩
    · exact Or.inl hmem
    · exact Or.inr (Or.inr rfl)
  | tryLock idx access =>
    rcases exec_tryLock h with ⟨-, -, rfl⟩ | ⟨-, -, rfl⟩
    · rcases Mem.mem_acquire.mp hheld with hmem | ⟨-, -, rfl⟩
      · exact Or.inl hmem
      · exact Or.inr (Or.inl h2)
    · exact Or.inl hheld
  | unlock idx =>
    rw [exec_unlock h] at hheld
    by_cases hi : i = idx
    · subst hi
      rw [Mem.setLocks_self] at hheld
      exact Or.inl (RwLock.release_subset hheld)
    · rw [Mem.setLocks_of_ne hi] at hheld
      exact Or.inl hheld
  | read => exact Or.inl ((exec_read h).2 ▸ hheld)
  | write =>
    rw [exec_write h] at hheld
    exact Or.inl hheld
  | assert => exact Or.inl ((exec_assert h).2 ▸ hheld)
  | undefined => exact r.elim
  | fopen =>
    rcases exec_fopen h with ⟨-, rfl⟩ | ⟨-, rfl⟩
    · exact Or.inl hheld
    · exact Or.inl hheld
  | fclose =>
    obtain ⟨-, rfl⟩ := exec_fclose h
    exact Or.inl hheld

/-- In two phases, what is held in the end was asked for, or tried for unique access. -/
theorem hold_cases {Q : Bool → α → Prop} (h2 : TwoPhase Q b p) {a : α}
    (h : p.run (machine ι) t m = some (a, m')) (hheld : (t, acc) ∈ m'.locks i) :
    (t, acc) ∈ m.locks i ∨ acc = .unique ∨
      ∃ x, ⟨.lock i acc, x⟩ ∈ p.trace (machine ι) t m := by
  induction p generalizing m b with
  | ret c =>
    obtain ⟨-, rfl⟩ := Prod.mk.inj (Option.some.inj h)
    exact Or.inl hheld
  | act o k ih =>
    obtain ⟨r, m₁, he, h⟩ := Prog.exists_of_run_act h
    rw [Prog.trace_act_of_some he]
    rcases ih r (h2.2 r) h with hmem | hacc | ⟨x, hx⟩
    · rcases exec_hold h2.1 he hmem with h' | h' | rfl
      · exact Or.inl h'
      · exact Or.inr (Or.inl h')
      · exact Or.inr (Or.inr ⟨_, List.mem_cons_self⟩)
    · exact Or.inr (Or.inl hacc)
    · exact Or.inr (Or.inr ⟨x, List.mem_cons_of_mem _ hx⟩)

/-- A program that has given back a lock asks for none. -/
theorem requests_eq_nil {Q : Bool → α → Prop} (h2 : TwoPhase Q true p) :
    (p.trace (machine ι) t m).filterMap requestOf = [] := by
  induction p generalizing m with
  | ret c => rfl
  | act o k ih =>
    have ho : ∀ x, requestOf ⟨o, x⟩ = none := by
      intro x
      cases o with
      | lock => exact absurd h2.1 (by simp [Op.Allowed])
      | _ => rfl
    have hreleases : o.Releases true = true := by cases o <;> rfl
    cases he : (machine ι).exec t o m with
    | none => rw [Prog.trace_act_of_none he, filterMap_cons_eq, ho]; rfl
    | some x =>
      rw [Prog.trace_act_of_some he, filterMap_cons_eq, ho]
      exact ih x.1 (hreleases ▸ h2.2 x.1)

end Trace

/-! ## Requests -/

namespace Setup

variable {S : Setup ι} {t : ι} {w : FsWorld ι} {α : Type}

/-- **A call that locks in two phases asks for no slot twice.** -/
theorem requests_nodup {p : TfsProg α} {Q : Bool → α → Prop} {b : Bool} (h2 : TwoPhase Q b p)
    {R : α → FsWorld ι → Prop} (hsafe : S.Safe (Protocol.Env.alone S.protocol t) R p w)
    (hi : S.Inv w) :
    ((p.trace (machine ι) t w.mem).filterMap requestOf).Nodup ∧
      ∀ i ∈ (p.trace (machine ι) t w.mem).filterMap requestOf, ∀ a, (t, a) ∉ w.mem.locks i := by
  induction p generalizing w b with
  | ret a => exact ⟨List.nodup_nil, by simp⟩
  | act o k ih =>
    obtain ⟨hpre, hk⟩ := hsafe w rfl hi
    -- what is asked for now is not held
    have hnow : ∀ x, ∀ i ∈ (requestOf ⟨o, x⟩).toList, ∀ a, (t, a) ∉ w.mem.locks i := by
      intro x i hi'
      cases o with
      | lock idx access =>
        obtain rfl : i = idx := by simpa [requestOf] using hi'
        exact (show S.Asks t i access w from hpre).not_held hi
      | _ => simp [requestOf] at hi'
    cases he : (machine ι).exec t o w.mem with
    | none =>
      rw [Prog.trace_act_of_none he, filterMap_cons_eq, List.filterMap_nil, List.append_nil]
      exact ⟨by cases requestOf ⟨o, none⟩ <;> simp, hnow none⟩
    | some x =>
      obtain ⟨r, m₁⟩ := x
      obtain ⟨g, hg, hsafe'⟩ := hk r m₁ he
      obtain ⟨hnodup, hnot⟩ := ih r (h2.2 r) hsafe' hg.inv
      rw [Prog.trace_act_of_some he, filterMap_cons_eq]
      by_cases hunlock : ∃ i, o = .unlock i
      · -- nothing is asked for any more
        obtain ⟨i, rfl⟩ := hunlock
        have hnil : ((k r).trace (machine ι) t m₁).filterMap requestOf = [] :=
          requests_eq_nil (h2.2 r)
        rw [hnil]
        exact ⟨List.nodup_nil, by simp [requestOf]⟩
      · have hkeeps : ∀ i a, (t, a) ∈ w.mem.locks i → (t, a) ∈ m₁.locks i := fun i a =>
          exec_keeps_lock he fun i hi' => hunlock ⟨i, hi'⟩
        refine ⟨?_, fun i hi' a hmem => ?_⟩
        · rw [List.nodup_append]
          refine ⟨by cases requestOf ⟨o, some r⟩ <;> simp, hnodup, ?_⟩
          rintro i hi' j hj rfl
          cases o with
          | lock idx access =>
            obtain rfl : i = idx := by simpa [requestOf] using hi'
            refine hnot i hj access ?_
            show (t, access) ∈ m₁.locks i
            rw [(exec_lock he).2]
            simp
          | _ => simp [requestOf] at hi'
        · rcases List.mem_append.mp hi' with hi' | hi'
          · exact hnow _ i hi' a hmem
          · exact hnot i hi' a (hkeeps i a hmem)

end Setup

section Operation

variable {fs : TfsFs} {t : ι} {c : Call} {m m' : Mem ι} {reply : Reply}

/-- Every unlock of an operation that runs alone is of a lock that it holds. -/
theorem unlock_answered (hvalid : c.Valid) (hT : TreeInv fs.inodeTable.capacity m.node)
    (hlocks : ∀ i, RwLock.Ok (m.locks i)) (hfree : ∀ i a, (t, a) ∉ m.locks i) (i : Nat) :
    ⟨.unlock i, none⟩ ∉ (c.operation fs).trace (machine ι) t m := by
  obtain ⟨S, rfl, htask, hstart, hfresh, -⟩ := exists_setup hvalid hT hlocks hfree
  intro hmem
  obtain ⟨w, -, -, ⟨a, ha⟩, hexec⟩ := Safe.exists_of_mem_trace (S := fun _ => True)
    (fun _ _ _ _ => trivial) (Setup.operation_safe (E := Protocol.Env.alone S.protocol t) htask hfresh)
    hstart.inv trivial hmem
  dsimp only at hexec
  rw [machine_exec, exec, if_pos (List.mem_map_of_mem ha)] at hexec
  cases hexec

/-- **No operation blocks on itself.**  An operation that runs alone on a tree asks for no
inode twice; and if no lock is held when it starts, none of its requests has to wait. -/
theorem requests_distinct (hvalid : c.Valid) (hT : TreeInv fs.inodeTable.capacity m.node)
    (hlocks : ∀ i, RwLock.Ok (m.locks i)) (hfree : ∀ i a, (t, a) ∉ m.locks i) :
    (((c.operation fs).trace (machine ι) t m).filterMap requestOf).Nodup ∧
      ((∀ i, m.locks i = []) →
        ∀ i a, ⟨.lock i a, none⟩ ∉ (c.operation fs).trace (machine ι) t m) := by
  obtain ⟨S, rfl, htask, hstart, hfresh, -⟩ := exists_setup hvalid hT hlocks hfree
  have hsafe := Setup.operation_safe (E := Protocol.Env.alone S.protocol t) htask hfresh
  refine ⟨(Setup.requests_nodup c.twoPhase_operation hsafe hstart.inv).1, fun hnil i a hmem => ?_⟩
  obtain ⟨w, hi, hun, hpre, hexec⟩ := Safe.exists_of_mem_trace
    (fun _ _ h hg => Setup.Undisturbed.step h hg) hsafe hstart.inv (Setup.undisturbed_start t m) hmem
  have hadm := hun.admits hstart hi (fun x _ => by cases x.2 <;> simp [hnil, RwLock.Admits]) hpre
  dsimp only at hexec
  rw [machine_exec, exec, if_pos hadm] at hexec
  cases hexec

/-- A creation that succeeds has the new inode for unique access. -/
theorem create_unique {path : TfsPath} {type : TfsInodeType} (hvalid : (Call.create path type).Valid)
    (hT : TreeInv fs.inodeTable.capacity m.node) (hlocks : ∀ i, RwLock.Ok (m.locks i))
    (hfree : ∀ i a, (t, a) ∉ m.locks i)
    (hrun : ((Call.create path type).operation fs).run (machine ι) t m = some (reply, m')) {i : Nat}
    (hok : reply.outcome = .ok (some i)) :
    i < fs.inodeTable.capacity ∧ m.node i = .none ∧ (t, .unique) ∈ m'.locks i := by
  obtain ⟨slot, leak, held, hfit, hatomic, hheld, -, hholders⟩ :=
    run_operation hvalid hT hlocks hfree hrun
  obtain ⟨hnone, hlt⟩ := hfit path type rfl ⟨_, by rw [hatomic]; exact hok⟩
  obtain rfl : slot = i := by
    have hslot : (atomicCreate m.node slot path type).outcome = .ok (some i) := by
      rw [show atomicCreate m.node slot path type = _ from hatomic]
      exact hok
    unfold atomicCreate at hslot
    split at hslot
    · cases hslot
    split at hslot
    · split at hslot
      · cases hslot
      · exact Option.some.inj (Except.ok.inj hslot)
    · cases hslot
  obtain ⟨j, a, hj, rfl, -⟩ := hheld.resolve_right fun h => h.1 slot hok
  obtain rfl : slot = j := Option.some.inj (Except.ok.inj (hok.symm.trans hj))
  have hmem : (t, a) ∈ m'.locks slot := (hholders slot t a).mpr (Or.inr ⟨rfl, by simp⟩)
  refine ⟨hlt, hnone, ?_⟩
  rcases hold_cases (Call.twoPhase_operation _) hrun hmem with h | rfl | ⟨x, hx⟩
  · exact absurd h (hfree slot a)
  · exact hmem
  · -- an inode that is asked for is part of the tree
    obtain ⟨S, rfl, htask, hstart, hfresh, -⟩ := exists_setup hvalid hT hlocks hfree
    obtain ⟨w, hi, hun, hpre, -⟩ := Safe.exists_of_mem_trace
      (fun _ _ h hg => Setup.Undisturbed.step h hg)
      (Setup.operation_safe (E := Protocol.Env.alone S.protocol t) htask hfresh) hstart.inv
      (Setup.undisturbed_start t m) hx
    have hlive := Setup.Asks.live hpre hi
    rw [hun.tree_of_asks hstart hi hpre, hnone] at hlive
    exact absurd rfl hlive

variable (fs t c m) in
/-- **Lock balance** of an operation that starts with no lock held. -/
structure LocksBalanced : Prop where
  /-- Everything that is unlocked is held. -/
  unlock : ∀ i, ⟨.unlock i, none⟩ ∉ (c.operation fs).trace (machine ι) t m
  /-- Every lock is given back as often as it was taken, but for what is left. -/
  count : ∀ reply m', (c.operation fs).run (machine ι) t m = some (reply, m') →
    ∀ i, (((c.operation fs).trace (machine ι) t m).filterMap acquireOf).count i =
      (((c.operation fs).trace (machine ι) t m).filterMap releaseOf).count i + (m'.locks i).length
  /-- An operation that returns no inode leaves nothing locked. -/
  nothing : ∀ reply m', (c.operation fs).run (machine ι) t m = some (reply, m') →
    (∀ i, reply.outcome ≠ .ok (some i)) → ∀ i, m'.locks i = []
  /-- One that returns an inode leaves this inode locked, and no other. -/
  inode : ∀ reply m', (c.operation fs).run (machine ι) t m = some (reply, m') →
    ∀ i, reply.outcome = .ok (some i) →
      (∃ a, m'.locks i = [(t, a)]) ∧ ∀ j, j ≠ i → m'.locks j = []

section Unlocked

variable (hvalid : c.Valid) (hT : TreeInv fs.inodeTable.capacity m.node)
  (hnil : ∀ i, m.locks i = [])

include hvalid hT hnil

/-- What is locked after an operation that started with no lock held. -/
theorem locks_of_unlocked (hrun : (c.operation fs).run (machine ι) t m = some (reply, m')) :
    ∃ slot leak held, Fits fs.inodeTable.capacity m.node slot c ∧
      atomic m.node slot c = ⟨reply.outcome, m'.node, leak⟩ ∧
      ((∃ i a, reply.outcome = .ok (some i) ∧ held = [(i, a)] ∧ leak = none) ∨
        ((∀ i, reply.outcome ≠ .ok (some i)) ∧ held = leak.toList)) ∧
      (∀ i, RwLock.Ok (m'.locks i)) ∧ ∀ i u a, (u, a) ∈ m'.locks i ↔ u = t ∧ (i, a) ∈ held := by
  obtain ⟨slot, leak, held, hfit, hatomic, hheld, hok, hholders⟩ := run_operation hvalid hT
    (fun i => by rw [hnil i]; exact RwLock.ok_nil) (fun i a => by simp [hnil]) hrun
  refine ⟨slot, leak, held, hfit, hatomic, hheld, hok, fun i u a => ?_⟩
  rw [hholders, hnil]
  simp

/-- **An operation that keeps nothing for ever balances its locks.** -/
theorem locksBalanced_of_leak (hleak : ∀ slot, (atomic m.node slot c).leak = none) :
    LocksBalanced fs t c m where
  unlock := unlock_answered hvalid hT (fun i => by rw [hnil i]; exact RwLock.ok_nil)
    (fun i a => by simp [hnil])
  count reply m' hrun i := by
    obtain ⟨slot, leak, held, -, -, -, -, hholders⟩ := locks_of_unlocked hvalid hT hnil hrun
    have hbalance := run_balance hrun i
    have hstart : m.holds t i = 0 := by rw [Mem.holds, hnil]; rfl
    have hend : m'.holds t i = (m'.locks i).length := by
      rw [Mem.holds, List.countP_eq_length]
      rintro ⟨u, a⟩ hx
      simpa using ((hholders i u a).mp hx).1
    omega
  nothing reply m' hrun hnone i := by
    obtain ⟨slot, leak, held, -, hatomic, hheld, -, hholders⟩ := locks_of_unlocked hvalid hT hnil hrun
    obtain ⟨-, rfl⟩ := hheld.resolve_left fun ⟨i, _, h, _⟩ => hnone i h
    obtain rfl : leak = none := by rw [← hleak slot, hatomic]
    exact List.eq_nil_iff_forall_not_mem.mpr fun x hx => by simpa using (hholders i x.1 x.2).mp hx
  inode reply m' hrun i hi := by
    obtain ⟨slot, leak, held, -, -, hheld, hok, hholders⟩ := locks_of_unlocked hvalid hT hnil hrun
    obtain ⟨j, a, hj, rfl, -⟩ := hheld.resolve_right fun h => h.1 i hi
    obtain rfl : i = j := Option.some.inj (Except.ok.inj (hi.symm.trans hj))
    constructor
    · refine ⟨a, List.perm_singleton.mp ?_⟩
      rw [List.perm_ext_iff_of_nodup (hok i).nodup.of_map (List.nodup_singleton _)]
      rintro ⟨u, b⟩
      rw [hholders]
      simp
    · intro j hj
      refine List.eq_nil_iff_forall_not_mem.mpr fun x hx => ?_
      have hmem := ((hholders j x.1 x.2).mp hx).2
      simp [hj] at hmem

/-- An operation that keeps something does not. -/
theorem not_locksBalanced_of_leak {x : Nat × TfsRwLockAccess}
    (hrun : (c.operation fs).run (machine ι) t m = some (reply, m'))
    (hleak : ∀ slot, (atomic m.node slot c).leak = some x) : ¬LocksBalanced fs t c m := by
  intro hbal
  obtain ⟨slot, leak, held, -, hatomic, hheld, -, hholders⟩ := locks_of_unlocked hvalid hT hnil hrun
  obtain rfl : leak = some x := by rw [← hleak slot, hatomic]
  obtain ⟨hnone, rfl⟩ := hheld.resolve_left fun ⟨_, _, _, _, h⟩ => by cases h
  have hx : (t, x.2) ∈ m'.locks x.1 := (hholders x.1 t x.2).mpr ⟨rfl, by simp⟩
  rw [hbal.nothing reply m' hrun hnone] at hx
  cases hx

/-- An operation that starts with no lock held returns. -/
theorem exists_run_unlocked (t : ι) (hroom : ∀ path type, c = .create path type →
      ∃ i < fs.inodeTable.capacity, m.node i = .none) :
    ∃ reply m', (c.operation fs).run (machine ι) t m = some (reply, m') :=
  exists_run_operation hvalid hT (fun i => by rw [hnil i]; exact RwLock.ok_nil)
    (fun i a => by simp [hnil]) (fun x _ => by cases x.2 <;> simp [hnil, RwLock.Admits])
    fun path type hc => (hroom path type hc).imp fun i h => ⟨h.1, h.2, hnil i⟩

/-- **Creating, removing and searching balance their locks.**  They return, unless there is no
slot for a new inode; and a new inode is locked for unique access. -/
theorem locks_balanced (hmove : ¬(Task.call c).Moves) (t : ι) :
    ((∀ path type, c = .create path type → ∃ i < fs.inodeTable.capacity, m.node i = .none) →
      ∃ reply m', (c.operation fs).run (machine ι) t m = some (reply, m')) ∧
    LocksBalanced fs t c m ∧
    ∀ path type, c = .create path type → ∀ reply m',
      (c.operation fs).run (machine ι) t m = some (reply, m') →
      ∀ i, reply.outcome = .ok (some i) → m'.locks i = [(t, .unique)] := by
  have hbal : LocksBalanced fs t c m := locksBalanced_of_leak hvalid hT hnil (atomic_leak hmove m.node)
  refine ⟨exists_run_unlocked hvalid hT hnil t, hbal, ?_⟩
  rintro path type rfl reply m' hrun i hi
  obtain ⟨-, -, hunique⟩ := create_unique hvalid hT (fun i => by rw [hnil i]; exact RwLock.ok_nil)
    (fun i a => by simp [hnil]) hrun hi
  obtain ⟨⟨a, ha⟩, -⟩ := hbal.inode reply m' hrun i hi
  rw [ha] at hunique ⊢
  rw [List.mem_singleton.mp hunique]

end Unlocked

end Operation

/-! ## On a new file system -/

theorem requests_distinct_create :
    ((((Call.create ⟨0, cstr "/a"⟩ .dir).operation ⟨⟨128⟩⟩).trace (machine Nat) 0
      newMem).filterMap requestOf).Nodup :=
  (requests_distinct (by decide) (tree_of_new run_newMem).1
    (fun i => by rw [(tree_of_new run_newMem).2 i]; exact RwLock.ok_nil)
    (fun i a => by simp [(tree_of_new run_newMem).2])).1

theorem locks_balanced_create : LocksBalanced ⟨⟨128⟩⟩ 0 (.create ⟨0, cstr "/a"⟩ .dir) newMem :=
  (locks_balanced (by decide) (tree_of_new run_newMem).1 (tree_of_new run_newMem).2
    (by decide) 0).2.1

end TecnicoFs
