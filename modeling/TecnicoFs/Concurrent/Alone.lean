import TecnicoFs.Concurrent.Contract

/-!
# A call that runs alone

The run of one call while nothing else happens.  The symbolic execution of the call is the
same as in the system of all threads, with an environment that never acts.  The call does
what `atomic` says, with some slot for a creation; and it returns, if the locks that
others hold for ever admit its requests, and a creation finds an empty slot.
-/

namespace TecnicoFs

open Interleaving Function

variable {ι : Type} [DecidableEq ι]

namespace Setup

/-- A call of `t`, and threads that do nothing. -/
def single (fs : TfsFs) (t : ι) (c : Call) (hvalid : c.Valid) (m : Mem ι)
    (hT : TreeInv fs.inodeTable.capacity m.node) : Setup ι :=
  ofMem fs (fun u => if u = t then .call c else .print []) (fun u => by
    split
    · exact hvalid
    · exact trivial) m hT

/-- One empty slot is enough. -/
theorem room_single {fs : TfsFs} {t : ι} {c : Call} {hvalid : c.Valid} {m : Mem ι}
    {hT : TreeInv fs.inodeTable.capacity m.node}
    (hroom : ∀ path type, c = .create path type →
      ∃ i < fs.inodeTable.capacity, m.node i = .none ∧ m.locks i = []) :
    (single fs t c hvalid m hT).Room := by
  have hcreates : ∀ u, (single fs t c hvalid m hT).Creates u →
      u = t ∧ ∃ path type, c = .create path type := by
    rintro u ⟨path, type, hu⟩
    by_cases hut : u = t
    · exact ⟨hut, path, type, Task.call.inj ((if_pos hut).symm.trans hu)⟩
    · have hprint := (if_neg hut).symm.trans hu
      cases hprint
  by_cases hc : ∃ path type, c = .create path type
  · obtain ⟨path, type, hc⟩ := hc
    obtain ⟨i, hi, hnode, hlocks⟩ := hroom path type hc
    refine ⟨(Finset.range fs.inodeTable.capacity).erase i, {t}, fun j hj hused => ?_,
      fun u hu => by simpa using (hcreates u hu).1, ?_⟩
    · refine Finset.mem_erase.mpr ⟨?_, Finset.mem_range.mpr hj⟩
      rintro rfl
      rcases hused with h | h
      · exact h hlocks
      · exact h hnode
    · rw [Finset.card_erase_of_mem (Finset.mem_range.mpr hi), Finset.card_range,
        Finset.card_singleton]
      exact le_of_eq (Nat.sub_add_cancel (by omega))
  · refine ⟨Finset.range fs.inodeTable.capacity, ∅, fun j hj _ => Finset.mem_range.mpr hj,
      fun u hu => absurd (hcreates u hu).2 hc, ?_⟩
    simp [capacity, single, ofMem]

variable {S : Setup ι} {t : ι} {w₀ w w' : FsWorld ι} {c : Call}

/-- What was not the business of `t` did not change. -/
structure Undisturbed (t : ι) (w₀ w : FsWorld ι) : Prop where
  rely : ∀ u, u ≠ t → Rely u w₀ w
  log : ∀ e ∈ w.ghost.log, e.tid = t

omit [DecidableEq ι] in
theorem Undisturbed.step (h : Undisturbed t w₀ w) (hg : S.protocol.Guar t w w') :
    Undisturbed t w₀ w' where
  rely u hu := (h.rely u hu).trans (hg.rely u hu)
  log e he := by
    obtain ⟨l, hl, hl'⟩ := hg.own
    rw [hl, List.mem_append] at he
    rcases he with he | he
    · exact h.log e he
    · exact hl' e he

omit [DecidableEq ι] in
theorem undisturbed_start (t : ι) (m : Mem ι) : Undisturbed t (S.start m) (S.start m) :=
  ⟨fun u _ => Rely.refl u _, by simp [start]⟩

omit [DecidableEq ι] in
theorem Replay.eq_of_nil {T : Tree} (h : S.Replay [] T) : T = S.tree := by
  generalize hlog : [] = log at h
  cases h with
  | nil => rfl
  | snoc => simp at hlog

omit [DecidableEq ι] in
/-- The last call on the log. -/
theorem Replay.of_snoc {log : List (Entry ι)} {e : Entry ι} {T : Tree}
    (h : S.Replay (log ++ [e]) T) :
    ∃ T₀ c, S.Replay log T₀ ∧ S.task e.tid = .call c ∧ Fits S.capacity T₀ e.slot c ∧
      atomic T₀ e.slot c = ⟨e.outcome, T, e.leak⟩ ∧
      ∀ x ∈ requests T₀ c.plan, ∀ e' ∈ log, ∀ y ∈ e'.leak, y.1 = x.1 → ¬x.2.Conflict y.2 := by
  generalize hlog : log ++ [e] = log' at h
  cases h with
  | nil => simp at hlog
  | @snoc log₁ T₀ e' c h hc hfit houtcome hleak hlegal =>
    obtain ⟨rfl, heq⟩ := List.append_inj' hlog rfl
    obtain rfl := List.singleton_inj.mp heq
    exact ⟨T₀, c, h, hc, hfit, by rw [← houtcome, ← hleak], hlegal⟩

omit [DecidableEq ι] in
/-- The log determines the tree. -/
theorem Replay.unique {log : List (Entry ι)} {T T' : Tree} (h : S.Replay log T)
    (h' : S.Replay log T') : T = T' := by
  induction h generalizing T' with
  | nil => exact h'.eq_of_nil.symm
  | @snoc log T e c h hc _ houtcome hleak _ ih =>
    obtain ⟨T₀, c', h₀, hc', -, hatomic, -⟩ := h'.of_snoc
    obtain rfl := ih h₀
    obtain rfl : c = c' := by rwa [hc, Task.call.injEq] at hc'
    rw [hatomic]

/-! ## Running alone from any world -/

/-- Nobody but `t` acted between the two worlds. -/
structure ActedAlone (t : ι) (w₀ w : FsWorld ι) : Prop where
  rely : ∀ u, u ≠ t → Rely u w₀ w
  own : Own t w₀ w

omit [DecidableEq ι] in
theorem actedAlone_refl (t : ι) (w : FsWorld ι) : ActedAlone t w w :=
  ⟨fun u _ => Rely.refl u w, [], by simp, by simp⟩

omit [DecidableEq ι] in
theorem ActedAlone.step (h : ActedAlone t w₀ w) (hg : S.protocol.Guar t w w') :
    ActedAlone t w₀ w' where
  rely u hu := (h.rely u hu).trans (hg.rely u hu)
  own := by
    obtain ⟨l, hl, hl'⟩ := h.own
    obtain ⟨l₁, hl₁, hl₁'⟩ := hg.own
    refine ⟨l ++ l₁, by rw [hl₁, hl, List.append_assoc], fun e he => ?_⟩
    rcases List.mem_append.mp he with he | he
    · exact hl' e he
    · exact hl₁' e he

variable (S) in
/-- The outcome of `t` is decided, and what it holds is part of the tree. -/
def Leaves (t : ι) (r : Outcome) (leak : Option (Nat × TfsRwLockAccess))
    (held : List (Nat × TfsRwLockAccess)) (w : FsWorld ι) : Prop :=
  ∃ T N, S.Done t held T N r leak w ∧ ∀ x ∈ held, T x.1 ≠ .none

theorem Ended.leaves {r : Outcome} (h : S.Ended t r w) :
    ∃ leak held, S.Leaves t r leak held w ∧ held = leak.toList := by
  obtain ⟨T, N, leak, hdone, hlive⟩ := h
  exact ⟨leak, _, ⟨T, N, hdone, by simpa using hlive⟩, rfl⟩

theorem Finished.leaves {r : Outcome} (h : S.Finished t r w) :
    ∃ leak held, S.Leaves t r leak held w ∧
      ((∃ i a, r = .ok (some i) ∧ held = [(i, a)] ∧ leak = none) ∨
        ((∀ i, r ≠ .ok (some i)) ∧ held = leak.toList)) := by
  obtain ⟨T, N, leak, held, hdone, ⟨i, a, hr, rfl, hlive, rfl⟩ | ⟨hr, rfl, hlive⟩⟩ := h
  · exact ⟨none, _, ⟨T, N, hdone, by simpa using hlive⟩, Or.inl ⟨i, a, hr, rfl, rfl⟩⟩
  · exact ⟨leak, _, ⟨T, N, hdone, hlive⟩, Or.inr ⟨hr, rfl⟩⟩

variable (S) in
/-- **What a call has done that ran alone from a reachable world.**  It did what `atomic` says
of the committed tree, and nothing to what others hold. -/
structure RanAlone (t : ι) (w : FsWorld ι) (c : Call) (r : Outcome) (slot : Nat)
    (leak : Option (Nat × TfsRwLockAccess)) (held : List (Nat × TfsRwLockAccess)) (m' : Mem ι) :
    Prop where
  fits : Fits S.capacity w.ghost.tree slot c
  outcome : (atomic w.ghost.tree slot c).outcome = r
  leak : (atomic w.ghost.tree slot c).leak = leak
  legal : ∀ x ∈ requests w.ghost.tree c.plan, ∀ e ∈ w.ghost.log, ∀ y ∈ e.leak, y.1 = x.1 →
    ¬x.2.Conflict y.2
  locks : ∀ i, RwLock.Ok (m'.locks i)
  holders : ∀ i u a, (u, a) ∈ m'.locks i ↔ (u, a) ∈ w.mem.locks i ∨ (u = t ∧ (i, a) ∈ held)
  kept : ∀ i u a, u ≠ t → (u, a) ∈ w.mem.locks i → m'.node i = w.mem.node i
  same : ∀ i, (atomic w.ghost.tree slot c).tree i = w.ghost.tree i → m'.node i = w.mem.node i
  node : ∀ i, w.mem.node i = w.ghost.tree i → m'.node i = (atomic w.ghost.tree slot c).tree i
  live : ∀ x ∈ held, m'.node x.1 ≠ .none

/-- **A call that runs alone from a reachable world.** -/
theorem run_alone (hi : S.Inv w) (hfresh : S.Fresh t w) (hc : S.task t = .call c)
    {p : TfsProg Reply}
    {Q : Reply → Option (Nat × TfsRwLockAccess) → List (Nat × TfsRwLockAccess) → Prop}
    (hsafe : S.Safe (Protocol.Env.alone S.protocol t) (fun reply w' => ∃ leak held,
      S.Leaves t reply.outcome leak held w' ∧ Q reply leak held) p w)
    {reply : Reply} {m' : Mem ι} (hrun : p.run (machine ι) t w.mem = some (reply, m')) :
    ∃ slot leak held, S.RanAlone t w c reply.outcome slot leak held m' ∧ Q reply leak held := by
  obtain ⟨g₁, hi₁, hact₁, leak, held, ⟨T, N, hdone, hlive⟩, hQ⟩ := Safe.of_run
    (fun _ _ h hg => ActedAlone.step h hg) hsafe hi (actedAlone_refl t w) hrun
  obtain ⟨g, e, slot, hg, hr, hleak, hlocal⟩ := hdone.settle hi₁
  replace hi₁ : S.Inv ⟨m', g⟩ := hg.inv
  replace hact₁ : ActedAlone t w ⟨m', g⟩ := hact₁.step hg
  -- this call is all that is new on the log
  obtain ⟨l, hl, hown⟩ := hact₁.own
  obtain rfl : l = [e] := by
    have hmine := hlocal.mine
    rw [show g.log = w.ghost.log ++ l from hl, List.filter_append, hfresh.mine, List.nil_append,
      List.filter_eq_self.mpr fun e he => by simpa using hown e he] at hmine
    exact hmine
  have hreplay : S.Replay (w.ghost.log ++ [e]) g.tree := (show g.log = _ from hl) ▸ hi₁.replay
  obtain ⟨T₀, c', h₀, hc', hfit, hatomic, hlegal⟩ := hreplay.of_snoc
  obtain rfl := h₀.unique hi.replay
  obtain rfl : c = c' := by rwa [hown e (by simp), hc, Task.call.injEq] at hc'
  have hfree : ∀ i a, (t, a) ∉ w.mem.locks i := fun i a h => by simpa using (hfresh.owns i a).mp h
  have hother : ∀ i u a, u ≠ t → ((u, a) ∈ m'.locks i ↔ (u, a) ∈ w.mem.locks i) :=
    fun i u a hu => (hact₁.rely u hu).locks i a
  have howns : ∀ i a, (t, a) ∈ m'.locks i ↔ (i, a) ∈ held := hlocal.owns
  have hkept : ∀ i u a, u ≠ t → (u, a) ∈ w.mem.locks i →
      m'.node i = w.mem.node i ∧ g.tree i = w.ghost.tree i :=
    fun i u a hu hmem => ⟨(hact₁.rely u hu).node i a hmem, (hact₁.rely u hu).tree i a hmem⟩
  have hnode : ∀ i, m'.node i = g.tree i ∨ ∃ u, u ≠ t ∧ (u, .unique) ∈ w.mem.locks i := by
    intro i
    rcases hi₁.node i with h | ⟨u, -, hu, -⟩
    · exact Or.inl h
    · by_cases hut : u = t
      · subst hut
        have hmem := (howns i _).mp hu
        left
        rw [show m'.node i = N i from hlocal.node _ hmem,
          show g.tree i = T i from hlocal.tree _ hmem]
        exact (hdone.agree _ hmem).resolve_left (hlive _ hmem)
      · exact Or.inr ⟨u, hut, (hother i u _ hut).mp hu⟩
  have htree : (atomic w.ghost.tree e.slot c).tree = g.tree := by rw [hatomic]
  refine ⟨e.slot, leak, held, ⟨hfit, by rw [hatomic, hr], by rw [hatomic, hleak], hlegal, hi₁.locks,
    fun i u a => ?_, fun i u a hu hmem => (hkept i u a hu hmem).1, fun i h => ?_, fun i h => ?_,
    fun x hx => ?_⟩, hQ⟩
  · by_cases hu : u = t
    · subst hu
      simpa [hfree i a] using howns i a
    · simpa [hu] using hother i u a hu
  · rw [htree] at h
    rcases hnode i with hi' | ⟨u, hu, hmem⟩
    · by_cases hheld : ∃ u a, u ≠ t ∧ (u, a) ∈ w.mem.locks i
      · obtain ⟨u, a, hu, hmem⟩ := hheld
        exact (hkept i u a hu hmem).1
      · have hnot : ∀ u, (u, .unique) ∉ w.mem.locks i := by
          intro u hu
          by_cases hut : u = t
          · exact hfree i _ (hut ▸ hu)
          · exact hheld ⟨u, _, hut, hu⟩
        rw [hi', h, hi.node_eq hnot]
    · exact (hkept i u _ hu hmem).1
  · rw [htree]
    rcases hnode i with hi' | ⟨u, hu, hmem⟩
    · exact hi'
    · rw [(hkept i u _ hu hmem).1, h, (hkept i u _ hu hmem).2]
  · have hmem : m'.node x.1 = N x.1 := hlocal.node x hx
    rw [hmem, (hdone.agree x hx).resolve_left (hlive x hx)]
    exact hlive x hx

omit [DecidableEq ι] in
/-- As long as a call that runs alone makes requests, the tree is the one it started with. -/
theorem Undisturbed.tree_of_asks {m : Mem ι} (hstart : S.Starts m)
    (h : Undisturbed t (S.start m) w) (hi : S.Inv w) {idx : Nat} {access : TfsRwLockAccess}
    (hasks : S.Asks t idx access w) : w.ghost.tree = m.node := by
  obtain ⟨done, r, todo, held, -, -, -, -, -, -, hfresh⟩ := hasks
  have hlog : w.ghost.log = [] := by
    rw [List.eq_nil_iff_forall_not_mem]
    exact fun e he => hfresh e he (h.log e he)
  rw [(show S.Replay [] w.ghost.tree from hlog ▸ hi.replay).eq_of_nil, hstart.node]

omit [DecidableEq ι] in
/-- **The requests of a call that runs alone are granted**, if they were at the start. -/
theorem Undisturbed.admits {m : Mem ι} (hstart : S.Starts m) (h : Undisturbed t (S.start m) w)
    (hi : S.Inv w) (hadmits : ∀ x ∈ requests m.node (S.task t).plan,
      RwLock.Admits (m.locks x.1) x.2) {idx : Nat} {access : TfsRwLockAccess}
    (hasks : S.Asks t idx access w) : RwLock.Admits (w.mem.locks idx) access := by
  have htree := h.tree_of_asks hstart hi hasks
  obtain ⟨done, r, todo, held, hplan, hmade, hr, rfl, -⟩ := id hasks
  have hmem : (idx, r.access) ∈ requests m.node (S.task t).plan := by
    rw [hplan, ← List.singleton_append, ← List.append_assoc, ← htree]
    exact (hmade.snoc hr).prefix_requests.subset (by simp)
  -- only others hold the slot, and they held it before
  have hold : ∀ x ∈ w.mem.locks idx, x ∈ m.locks idx := by
    rintro ⟨u, b⟩ hx
    have hu : u ≠ t := by
      rintro rfl
      exact hasks.not_held hi b hx
    exact ((h.rely u hu).locks idx b).mp hx
  have hadm := hadmits _ hmem
  cases hacc : r.access with
  | shared =>
    rw [hacc] at hadm
    exact fun x hx => hadm x (hold x hx)
  | unique =>
    rw [hacc] at hadm
    rw [show m.locks idx = [] from hadm] at hold
    exact List.eq_nil_iff_forall_not_mem.mpr fun x hx => by simpa using hold x hx

/-- **The actions of a call that runs alone can be taken.** -/
theorem Undisturbed.exists_exec {m : Mem ι} (hstart : S.Starts m) (h : Undisturbed t (S.start m) w)
    (hi : S.Inv w) (hadmits : ∀ x ∈ requests m.node (S.task t).plan,
      RwLock.Admits (m.locks x.1) x.2) (hroom : S.Room) {o : Op} (hpre : S.Pre t o w) :
    ∃ x, (machine ι).exec t o w.mem = some x := by
  cases o with
  | lock idx access => exact ⟨((), _), if_pos (h.admits hstart hi hadmits hpre)⟩
  | tryLock idx access =>
    by_cases hadm : RwLock.Admits (w.mem.locks idx) access
    · exact ⟨(true, _), if_pos hadm⟩
    · exact ⟨(false, _), if_neg hadm⟩
  | unlock idx =>
    obtain ⟨b, hb⟩ := hpre
    exact ⟨((), _), if_pos (List.mem_map_of_mem hb)⟩
  | read idx => exact ⟨_, rfl⟩
  | write idx node => exact ⟨_, rfl⟩
  | assert site holds =>
    obtain rfl : holds = true := by
      by_cases hsite : site = .addFull
      · subst hsite
        exact hpre.resolve_right (not_not.mpr hroom)
      · exact holds_of_pre hpre hsite
    exact ⟨_, rfl⟩
  | undefined => exact hpre.elim
  | fopen name =>
    by_cases hopen : w.mem.canOpen name = true
    · exact ⟨(true, _), if_pos hopen⟩
    · exact ⟨(false, _), if_neg hopen⟩
  | fclose out => exact ⟨_, rfl⟩

end Setup

section Run

variable {fs : TfsFs} {t : ι} {c : Call} {m m' : Mem ι} {reply : Reply}

/-- The setup in which a call runs alone. -/
theorem exists_setup (hvalid : c.Valid) (hT : TreeInv fs.inodeTable.capacity m.node)
    (hlocks : ∀ i, RwLock.Ok (m.locks i)) (hfree : ∀ i a, (t, a) ∉ m.locks i) :
    ∃ S : Setup ι, S.fs = fs ∧ S.task t = .call c ∧ S.Starts m ∧ S.Fresh t (S.start m) ∧
      ((∀ path type, c = .create path type →
        ∃ i < fs.inodeTable.capacity, m.node i = .none ∧ m.locks i = []) → S.Room) :=
  ⟨Setup.single fs t c hvalid m hT, rfl, if_pos rfl, Setup.starts_ofMem hlocks,
    Setup.fresh_start hfree, Setup.room_single⟩

/-- A part of a call that runs alone from a memory in which table and tree agree. -/
theorem exists_ranAlone (hvalid : c.Valid) (hT : TreeInv fs.inodeTable.capacity m.node)
    (hlocks : ∀ i, RwLock.Ok (m.locks i)) (hfree : ∀ i a, (t, a) ∉ m.locks i) {p : TfsProg Reply}
    {Q : Reply → Option (Nat × TfsRwLockAccess) → List (Nat × TfsRwLockAccess) → Prop}
    (hsafe : ∀ {S : Setup ι} {w : FsWorld ι}, S.fs = fs → S.task t = .call c → S.Fresh t w →
      S.Safe (Protocol.Env.alone S.protocol t) (fun reply w' => ∃ leak held,
        S.Leaves t reply.outcome leak held w' ∧ Q reply leak held) p w)
    (hrun : p.run (machine ι) t m = some (reply, m')) :
    ∃ (S : Setup ι) (slot : Nat) (leak : Option (Nat × TfsRwLockAccess))
      (held : List (Nat × TfsRwLockAccess)), S.fs = fs ∧ S.tree = m.node ∧
        S.RanAlone t (S.start m) c reply.outcome slot leak held m' ∧ Q reply leak held := by
  obtain ⟨S, hfs, htask, hstart, hfresh, -⟩ := exists_setup hvalid hT hlocks hfree
  obtain ⟨slot, leak, held, hran, hQ⟩ :=
    Setup.run_alone hstart.inv hfresh htask (hsafe hfs htask hfresh) hrun
  exact ⟨S, slot, leak, held, hfs, hstart.node.symm, hran, hQ⟩

/-- What a part of a call does when it runs alone from a memory in which table and tree
agree. -/
theorem run_of_safe (hvalid : c.Valid) (hT : TreeInv fs.inodeTable.capacity m.node)
    (hlocks : ∀ i, RwLock.Ok (m.locks i)) (hfree : ∀ i a, (t, a) ∉ m.locks i) {p : TfsProg Reply}
    {Q : Reply → Option (Nat × TfsRwLockAccess) → List (Nat × TfsRwLockAccess) → Prop}
    (hsafe : ∀ {S : Setup ι} {w : FsWorld ι}, S.fs = fs → S.task t = .call c → S.Fresh t w →
      S.Safe (Protocol.Env.alone S.protocol t) (fun reply w' => ∃ leak held,
        S.Leaves t reply.outcome leak held w' ∧ Q reply leak held) p w)
    (hrun : p.run (machine ι) t m = some (reply, m')) :
    ∃ slot leak held, Fits fs.inodeTable.capacity m.node slot c ∧
      atomic m.node slot c = ⟨reply.outcome, m'.node, leak⟩ ∧ Q reply leak held ∧
      (∀ i, RwLock.Ok (m'.locks i)) ∧
      ∀ i u a, (u, a) ∈ m'.locks i ↔ (u, a) ∈ m.locks i ∨ (u = t ∧ (i, a) ∈ held) := by
  obtain ⟨S, slot, leak, held, rfl, htree, hran, hQ⟩ :=
    exists_ranAlone hvalid hT hlocks hfree hsafe hrun
  have hghost : (S.start m).ghost.tree = m.node := htree
  have houtcome := hran.outcome
  have hleak := hran.leak
  have hfit := hran.fits
  have hnode : m'.node = (atomic m.node slot c).tree := funext fun i => by
    rw [hran.node i (congrFun htree.symm i), hghost]
  rw [hghost] at houtcome hleak hfit
  exact ⟨slot, leak, held, hfit, by rw [← houtcome, ← hleak, hnode], hQ, hran.locks, hran.holders⟩

/-- If every locked slot is in use before a call that runs alone, then also after it. -/
theorem live_of_run_call (hvalid : c.Valid) (hT : TreeInv fs.inodeTable.capacity m.node)
    (hlocks : ∀ i, RwLock.Ok (m.locks i)) (hfree : ∀ i a, (t, a) ∉ m.locks i)
    (hrun : (c.prog fs).run (machine ι) t m = some (reply, m'))
    (hlive : ∀ i, m.locks i ≠ [] → m.node i ≠ .none) :
    ∀ i, m'.locks i ≠ [] → m'.node i ≠ .none := by
  obtain ⟨S, slot, leak, held, rfl, htree, hran, -⟩ := @exists_ranAlone ι _ fs t c m m' reply hvalid
    hT hlocks hfree _ (fun _ _ _ => True) (fun hfs hc hfresh => hfs ▸
      (Setup.call_safe hc hfresh).mono fun _ _ _ hended => by
        obtain ⟨leak, held, hleaves, -⟩ := hended.leaves
        exact ⟨leak, held, hleaves, trivial⟩) hrun
  intro i hi
  obtain ⟨⟨u, a⟩, hmem⟩ := List.exists_mem_of_ne_nil _ hi
  rcases (hran.holders i u a).mp hmem with hold | ⟨-, hheld⟩
  · have hu : u ≠ t := by
      rintro rfl
      exact hfree i a hold
    rw [hran.kept i u a hu hold]
    exact hlive i (List.ne_nil_of_mem hold)
  · exact hran.live _ hheld

/-- **What a call does when it runs alone.**  It does what `atomic` says; apart from that no
inode changes, and no lock but for what the call keeps. -/
theorem run_call (hvalid : c.Valid) (hT : TreeInv fs.inodeTable.capacity m.node)
    (hlocks : ∀ i, RwLock.Ok (m.locks i)) (hfree : ∀ i a, (t, a) ∉ m.locks i)
    (hrun : (c.prog fs).run (machine ι) t m = some (reply, m')) :
    ∃ slot leak, Fits fs.inodeTable.capacity m.node slot c ∧
      atomic m.node slot c = ⟨reply.outcome, m'.node, leak⟩ ∧ (∀ i, RwLock.Ok (m'.locks i)) ∧
      ∀ i u a, (u, a) ∈ m'.locks i ↔ (u, a) ∈ m.locks i ∨ (u = t ∧ (i, a) ∈ leak) := by
  obtain ⟨slot, leak, held, hfit, hatomic, rfl, hok, hholders⟩ :=
    @run_of_safe ι _ fs t c m m' reply hvalid hT hlocks hfree _ (fun _ leak held => held = leak.toList)
      (fun hfs hc hfresh => hfs ▸ (Setup.call_safe hc hfresh).mono fun _ _ _ hended =>
        hended.leaves) hrun
  exact ⟨slot, leak, hfit, hatomic, hok, fun i u a => by simpa using hholders i u a⟩

/-- In a state with no lock held, nothing is locked after a call that keeps nothing. -/
theorem run_call_of_unlocked (hvalid : c.Valid) (hT : TreeInv fs.inodeTable.capacity m.node)
    (hlocks : ∀ i, m.locks i = []) (hrun : (c.prog fs).run (machine ι) t m = some (reply, m')) :
    ∃ slot leak, Fits fs.inodeTable.capacity m.node slot c ∧
      atomic m.node slot c = ⟨reply.outcome, m'.node, leak⟩ ∧
      (leak = none → ∀ i, m'.locks i = []) := by
  obtain ⟨slot, leak, hfit, hatomic, -, hholders⟩ := run_call hvalid hT
    (fun i => by rw [hlocks i]; exact RwLock.ok_nil) (by simp [hlocks]) hrun
  refine ⟨slot, leak, hfit, hatomic, fun hleak i => ?_⟩
  rw [List.eq_nil_iff_forall_not_mem]
  rintro ⟨u, a⟩ hu
  simpa [hlocks, hleak] using (hholders i u a).mp hu

/-- **What an operation does when it runs alone.**  The inode that it returns is still locked. -/
theorem run_operation (hvalid : c.Valid) (hT : TreeInv fs.inodeTable.capacity m.node)
    (hlocks : ∀ i, RwLock.Ok (m.locks i)) (hfree : ∀ i a, (t, a) ∉ m.locks i)
    (hrun : (c.operation fs).run (machine ι) t m = some (reply, m')) :
    ∃ slot leak held, Fits fs.inodeTable.capacity m.node slot c ∧
      atomic m.node slot c = ⟨reply.outcome, m'.node, leak⟩ ∧
      ((∃ i a, reply.outcome = .ok (some i) ∧ held = [(i, a)] ∧ leak = none) ∨
        ((∀ i, reply.outcome ≠ .ok (some i)) ∧ held = leak.toList)) ∧
      (∀ i, RwLock.Ok (m'.locks i)) ∧
      ∀ i u a, (u, a) ∈ m'.locks i ↔ (u, a) ∈ m.locks i ∨ (u = t ∧ (i, a) ∈ held) :=
  run_of_safe hvalid hT hlocks hfree (fun hfs hc hfresh => hfs ▸
    (Setup.operation_safe hc hfresh).mono fun _ _ _ hfin => hfin.leaves) hrun

/-- **A call that runs alone returns.** -/
theorem exists_run_call (hvalid : c.Valid) (hT : TreeInv fs.inodeTable.capacity m.node)
    (hlocks : ∀ i, RwLock.Ok (m.locks i)) (hfree : ∀ i a, (t, a) ∉ m.locks i)
    (hadmits : ∀ x ∈ requests m.node c.plan, RwLock.Admits (m.locks x.1) x.2)
    (hroom : ∀ path type, c = .create path type →
      ∃ i < fs.inodeTable.capacity, m.node i = .none ∧ m.locks i = []) :
    ∃ reply m', (c.prog fs).run (machine ι) t m = some (reply, m') := by
  obtain ⟨S, rfl, htask, hstart, hfresh, hroom'⟩ := exists_setup hvalid hT hlocks hfree
  have hsafe := Setup.call_safe (E := Protocol.Env.alone S.protocol t) htask hfresh
  rw [show c.plan = (S.task t).plan by rw [htask]; rfl] at hadmits
  exact Safe.exists_run (fun _ _ h hg => Setup.Undisturbed.step h hg)
    (fun o w hi h hpre => h.exists_exec hstart hi hadmits (hroom' hroom) hpre) hsafe hstart.inv
    (Setup.undisturbed_start t m)

/-- An operation that runs alone returns. -/
theorem exists_run_operation (hvalid : c.Valid) (hT : TreeInv fs.inodeTable.capacity m.node)
    (hlocks : ∀ i, RwLock.Ok (m.locks i)) (hfree : ∀ i a, (t, a) ∉ m.locks i)
    (hadmits : ∀ x ∈ requests m.node c.plan, RwLock.Admits (m.locks x.1) x.2)
    (hroom : ∀ path type, c = .create path type →
      ∃ i < fs.inodeTable.capacity, m.node i = .none ∧ m.locks i = []) :
    ∃ reply m', (c.operation fs).run (machine ι) t m = some (reply, m') := by
  obtain ⟨reply, m', hrun⟩ := exists_run_call hvalid hT hlocks hfree hadmits hroom
  obtain ⟨reply₁, m₁, hrun₁, -⟩ := Prog.exists_of_run_bind hrun
  exact ⟨reply₁, m₁, hrun₁⟩

end Run

/-! ## Failing -/

/-- **An operation that fails leaves all inodes as they are.**  Threads have come to some
configuration, from a tree with no lock held; other operations may be in the middle of
their changes there.  An operation that then runs by itself and returns an error has not
changed the type of any slot, nor any directory. -/
theorem failed_operation_unchanged {fs : TfsFs} {task : ι → Task} (hvalid : ∀ t, (task t).Valid)
    {m : Mem ι} (hT : TreeInv fs.inodeTable.capacity m.node) (hlocks : ∀ i, m.locks i = [])
    {tr : List (Event ι)} {c : Config Op Op.Resp ι (Mem ι) Reply}
    (hrun : Run (machine ι) (fun t => (task t).prog fs) (.initial m) tr c) {t : ι} {call : Call}
    (ht : task t = .call call) (hthread : c.thread t = .waiting) {reply : Reply} {m' : Mem ι}
    (hcall : (call.operation fs).run (machine ι) t c.mem = some (reply, m')) {kind : ErrorKind}
    (herr : reply.outcome = .error kind) : m'.node = c.mem.node := by
  obtain ⟨w, hg⟩ := exists_good_of_run hvalid hT hlocks hrun
  generalize hS : Setup.ofMem fs task hvalid m hT = S at hg
  have htask : S.task t = .call call := by rw [← hS]; exact ht
  have hfs : S.fs = fs := by rw [← hS]; rfl
  have hfresh : S.Fresh t w := by
    have hknows := hg.knows t
    rw [hthread] at hknows
    exact hknows
  have hsafe := Setup.operation_safe (E := Protocol.Env.alone S.protocol t) htask hfresh
  rw [hfs] at hsafe
  rw [← hg.mem] at hcall ⊢
  obtain ⟨slot, leak, held, hran, -⟩ := Setup.run_alone hg.inv hfresh htask
    (hsafe.mono fun _ _ _ hfin => hfin.leaves) hcall
  have htree := atomic_failsClean slot call kind (hran.outcome.trans herr)
  exact funext fun i => hran.same i (congrFun htree i)

/-- The root cannot be removed. -/
theorem exists_failed_operation : ∃ (fs : TfsFs) (m m' : Mem Nat) (reply : Reply)
    (kind : ErrorKind),
    tfsFsNew.run (machine Nat) 0 (Mem.zero (fun _ => true) fun _ => []) = some (fs, m) ∧
    ((Call.remove ⟨0, cstr "/"⟩).operation fs).run (machine Nat) 0 m = some (reply, m') ∧
    reply.outcome = .error kind ∧ m'.node = m.node := by
  have hnew := run_tfsFsNew (0 : Nat) (fun _ => true) fun _ => []
  obtain ⟨hT, hlocks⟩ := tree_of_new hnew
  generalize hm : (Mem.zero (fun _ => true) fun _ => []).setNode 0 (.dir tfsInodeDirNew) = m
    at hnew hT hlocks
  have hrun : (((Call.remove ⟨0, cstr "/"⟩).operation ⟨⟨128⟩⟩).run (machine Nat) 0 m).map
      (fun x => x.1.outcome) = some (.error .removeNameNotFound) := by
    subst hm
    decide +kernel
  obtain ⟨⟨reply, m'⟩, hcall, herr⟩ := Option.map_eq_some_iff.mp hrun
  exact ⟨_, m, m', reply, _, hnew, hcall, herr, @failed_operation_unchanged Nat _ _
    (fun _ => .call (.remove ⟨0, cstr "/"⟩)) (fun _ => by decide) m hT hlocks _ _ .nil 0 _
    rfl rfl _ _ hcall _ herr⟩

end TecnicoFs
