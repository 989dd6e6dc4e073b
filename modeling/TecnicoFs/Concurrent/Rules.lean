import TecnicoFs.Concurrent.Steps

/-!
# Rules for the inode table

What the functions of `table.c` do in the middle of a call.  A call is in one of two
phases.  While it acquires, table and committed tree are the same in what it holds, and
the locks it holds are the first requests of its plan (`Made`).  Once its outcome is
decided it only gives back locks; `Done` is what holds then, whether the call has
committed at a write before or is to commit when it first gives something back.
-/

namespace TecnicoFs

open Interleaving Function

variable {ι : Type} [DecidableEq ι]

namespace Setup

variable {S : Setup ι} {t : ι} {E : S.protocol.Env t} {held : List (Nat × TfsRwLockAccess)}
  {T N : Tree} {mine : List (Entry ι)} {slot : Option Nat} {w : FsWorld ι} {i : Nat}
  {a : TfsRwLockAccess} {α : Type}

/-- `Interleaving.Safe` for the file system. -/
abbrev Safe (S : Setup ι) {t : ι} (E : S.protocol.Env t) (Q : α → FsWorld ι → Prop)
    (p : TfsProg α) (w : FsWorld ι) : Prop :=
  Interleaving.Safe (machine ι) E Q p w

theorem Local.env (h : Local t held T N mine slot w) {w' : FsWorld ι} (hs : E.step w w') :
    Local t held T N mine slot w' :=
  h.later (E.rely_of_step hs)

/-! ## Actions -/

theorem safe_pure {Q : α → FsWorld ι → Prop} {r : α} (h : Local t held T N mine slot w)
    (hQ : ∀ w', S.Inv w' → Local t held T N mine slot w' → Q r w') : S.Safe E Q (pure r) w :=
  fun w' hs hi => hQ w' hi (h.env hs)

omit [DecidableEq ι] in
theorem pre_assert {site : AssertSite} (h : S.AtAssert t site w) :
    S.Pre t (.assert site true) w := by
  cases site <;> first | exact ⟨rfl, h⟩ | exact Or.inl rfl

omit [DecidableEq ι] in
theorem holds_of_pre {site : AssertSite} {holds : Bool} (h : S.Pre t (.assert site holds) w)
    (hsite : site ≠ .addFull) : holds = true := by
  cases site <;> first | exact h.1 | exact absurd rfl hsite

/-- An assertion that holds. -/
theorem safe_assert {Q : Unit → FsWorld ι → Prop} {site : AssertSite} {holds : Bool}
    (h : Local t held T N mine slot w) (hholds : holds = true)
    (hpre : ∀ w', S.Inv w' → Local t held T N mine slot w' → S.AtAssert t site w')
    (hQ : ∀ w', S.Inv w' → Local t held T N mine slot w' → Q () w') :
    S.Safe E Q (TfsProg.assert site holds) w := by
  subst hholds
  intro w' hs hi
  refine ⟨pre_assert (hpre w' hi (h.env hs)), fun r s he => ?_⟩
  obtain ⟨-, rfl⟩ := exec_assert he
  exact ⟨w'.ghost, Guar.refl hi t, fun w'' hs' hi' => hQ w'' hi' ((h.env hs).env hs')⟩

/-- Reading a slot that is held changes nothing. -/
theorem safe_read_env {Q : TfsInode → FsWorld ι → Prop} (h : Local t held T N mine slot w)
    (hmem : (i, a) ∈ held) (hQ : ∀ w', E.step w w' → S.Inv w' → Q (N i) w') :
    S.Safe E Q (TfsProg.read i) w := by
  intro w' hs hi
  have h' := h.env hs
  refine ⟨Or.inl ⟨a, (h'.owns i a).mpr hmem⟩, fun r s he => ?_⟩
  obtain ⟨rfl, rfl⟩ := exec_read he
  refine ⟨w'.ghost, Guar.refl hi t, fun w'' hs' hi' => ?_⟩
  rw [h'.node _ hmem]
  exact hQ w'' (E.trans hs hs') hi'

theorem safe_read {Q : TfsInode → FsWorld ι → Prop} (h : Local t held T N mine slot w)
    (hmem : (i, a) ∈ held)
    (hQ : ∀ w', S.Inv w' → Local t held T N mine slot w' → Q (N i) w') :
    S.Safe E Q (TfsProg.read i) w :=
  safe_read_env h hmem fun w' hs hi => hQ w' hi (h.env hs)

/-- Writing a slot. -/
theorem safe_write {Q : Unit → FsWorld ι → Prop} (h : Local t held T N mine slot w)
    (hcalls : S.Calls t) (hmem : (i, .unique) ∈ held) {node : TfsInode}
    (hok : T i = .none ∨ (∃ b, (0, b) ∈ held) ∧ node.type = (T i).type)
    (hQ : ∀ w', S.Inv w' → Local t held T (update N i node) mine slot w' → Q () w') :
    S.Safe E Q (TfsProg.write i node) w := by
  intro w' hs hi
  have h' := h.env hs
  refine ⟨⟨hcalls, (h'.owns i _).mpr hmem, ?_⟩, fun r s he => ?_⟩
  · rw [h'.tree _ hmem]
    exact hok.imp id fun ⟨⟨b, hb⟩, htype⟩ => ⟨⟨b, (h'.owns 0 b).mpr hb⟩, htype⟩
  · obtain rfl := exec_write he
    obtain ⟨hg, hlocal⟩ := h'.write hi hcalls hmem hok
    exact ⟨w'.ghost, hg, fun w'' hs' hi' => hQ w'' hi' (hlocal.env hs')⟩

/-! ## Acquiring -/

/-- What a task asks for next. -/
theorem asks_of_local {done todo : List Request} {r : Request}
    (hplan : (S.task t).plan = done ++ r :: todo) (hmade : Made T done held)
    (h : Local t held T T [] slot w) (hr : r.Names T i) : S.Asks t i r.access w :=
  ⟨done, r, todo, held, hplan, hmade.congr ((S.task t).closed_plan (S.valid t)) hplan h.tree,
    hmade.names_congr ((S.task t).closed_plan (S.valid t)) hplan h.tree hr, rfl, h.owns,
    fun x hx => (h.node x hx).trans (h.tree x hx).symm, h.fresh⟩

omit [DecidableEq ι] in
/-- What is asked for is a slot of the tree. -/
theorem Asks.live (h : S.Asks t i a w) (hi : S.Inv w) : w.ghost.tree i ≠ .none := by
  obtain ⟨done, r, todo, held, hplan, -, hr, -⟩ := h
  have hnul := ((S.task t).extends_plan (S.valid t) done r todo hplan).nulFree
  exact hi.treeInv.tree.walk_live hi.treeInv.tree.live_root
    ((locate_eq_ok_iff hi.treeInv hnul).mp hr.1)

omit [DecidableEq ι] in
/-- What is asked for is not held. -/
theorem Asks.not_held (h : S.Asks t i a w) (hi : S.Inv w) : ∀ b, (t, b) ∉ w.mem.locks i := by
  obtain ⟨done, r, todo, held, hplan, hmade, hr, -, howns, -⟩ := h
  exact fun b hb => hmade.not_held hi.treeInv ((S.task t).extends_plan (S.valid t)) hplan hr b
    ((howns i b).mp hb)

omit [DecidableEq ι] in
/-- A slot of the tree counts as used. -/
theorem Inv.used_of_live (hi : S.Inv w) (hlive : w.ghost.tree i ≠ .none) :
    S.used i ∨ ∃ u, w.ghost.slots u = some i :=
  hi.used i (Or.inr (hi.node_ne_none hlive))

/-- **`tfs_inode_table_lock` of the next request of the plan.** -/
theorem tfsInodeTableLock_safe {Q : TfsLockedInode → FsWorld ι → Prop}
    {done todo : List Request} {r : Request} (hplan : (S.task t).plan = done ++ r :: todo)
    (hmade : Made T done held) (h : Local t held T T [] slot w) (hr : r.Names T i)
    (hQ : ∀ w' T', TreeInv S.capacity T' → (∀ x ∈ held, T' x.1 = T x.1) →
      Made T' (done ++ [r]) (held ++ [(i, r.access)]) → r.Names T' i → T' i ≠ .none →
      Local t (held ++ [(i, r.access)]) T' T' [] slot w' → Q ⟨i, (T' i).type⟩ w') :
    S.Safe E Q (tfsInodeTableLock S.fs.inodeTable i r.access) w := by
  have hclosed := (S.task t).closed_plan (S.valid t)
  refine Safe.bind (Safe.of_forall fun w₀ hs₀ hi₀ => ?_)
  have hrange : i < S.capacity :=
    hi₀.treeInv.bound ((asks_of_local hplan hmade (h.env hs₀) hr).live hi₀)
  refine safe_assert (h.env hs₀) (decide_eq_true hrange)
    (fun w' _ h' => ⟨_, asks_of_local hplan hmade h' hr⟩) fun w₁ _ h₁ => Safe.bind ?_
  intro w₂ hs hi
  have h₂ := h₁.env hs
  have hasks := asks_of_local hplan hmade h₂ hr
  have hlive := hasks.live hi
  refine ⟨hasks, fun u m he => ?_⟩
  -- the lock is granted, so nobody else holds the slot for unique access
  obtain ⟨hadm, rfl⟩ := exec_lock he
  have hnot : ∀ b, (i, b) ∉ held := fun b hb => hasks.not_held hi b ((h₂.owns i b).mpr hb)
  have hnode : w₂.mem.node i = w₂.ghost.tree i := by
    refine hi.node_eq fun u hu => ?_
    cases hra : r.access with
    | shared =>
      rw [hra] at hadm
      exact absurd ((hadm : ∀ x ∈ w₂.mem.locks i, x.2 = .shared) _ hu) (by simp)
    | unique =>
      rw [hra] at hadm
      rw [show w₂.mem.locks i = [] from hadm] at hu
      simp at hu
  obtain ⟨hg, h₃⟩ := h₂.acquire hi hadm hnot (fun _ _ => rfl) (fun _ h => h)
    (fun j hj => hi.slots t j hj) (hi.used_of_live hlive)
  have hne : ∀ x ∈ held, x.1 ≠ i := fun x hx hxi => hnot x.2 (hxi ▸ hx)
  have hacquired : Local t (held ++ [(i, r.access)]) w₂.ghost.tree w₂.ghost.tree [] slot
      ⟨w₂.mem.setLocks i ((t, r.access) :: w₂.mem.locks i), w₂.ghost⟩ := by
    rw [h₂.slot] at h₃
    refine h₃.congr (fun _ => Iff.rfl) (fun x hx => ?_) fun x hx => ?_
    · rcases List.mem_append.mp hx with hx | hx
      · rw [update_of_ne (hne x hx)]
        exact h₂.tree x hx
      · rw [List.mem_singleton.mp hx, update_self]
    · rcases List.mem_append.mp hx with hx | hx
      · rw [update_of_ne (hne x hx)]
        exact h₂.tree x hx
      · rw [List.mem_singleton.mp hx, update_self]
        exact hnode.symm
  have hr' := hmade.names_congr hclosed hplan h₂.tree hr
  have hmade' := (hmade.congr hclosed hplan h₂.tree).snoc hr'
  have hmem : (i, r.access) ∈ held ++ [(i, r.access)] := by simp
  have htype : decide ((w₂.ghost.tree i).type ≠ .none) = true :=
    decide_eq_true (mt TfsInode.type_eq_none_iff.mp hlive)
  refine ⟨_, hg, Safe.ret fun w₃ hs₃ _ => Safe.bind ?_⟩
  refine safe_read (hacquired.env hs₃) hmem fun w₄ _ h₄ => ?_
  refine Safe.bind (safe_assert h₄ htype (fun w' _ h' => ⟨hrange, ?_, _, (h'.owns i _).mpr hmem⟩)
    fun w₅ _ h₅ => ?_)
  · rw [h'.node _ hmem]
    exact hlive
  · refine Safe.bind (safe_read h₅ hmem fun w₆ _ h₆ => safe_pure h₆ fun w₇ _ h₇ => ?_)
    exact hQ w₇ _ hi.treeInv h₂.tree hmade' hr' hlive h₇

/-! ## Directories -/

theorem dir_safe {Q : TfsInodeDir → FsWorld ι → Prop} {inode : TfsLockedInode}
    (h : Local t held T N mine slot w) (hmem : (inode.idx, a) ∈ held) {d : TfsInodeDir}
    (hd : N inode.idx = .dir d)
    (hQ : ∀ w', S.Inv w' → Local t held T N mine slot w' → Q d w') :
    S.Safe E Q inode.dir w := by
  refine Safe.bind (safe_read h hmem fun w₁ _ h₁ => ?_)
  rw [hd]
  exact safe_pure h₁ hQ

theorem searchByName_safe {Q : Option (Nat × Nat) → FsWorld ι → Prop} {inode : TfsLockedInode}
    {name : List CChar} (h : Local t held T N mine slot w) (hmem : (inode.idx, a) ∈ held)
    {d : TfsInodeDir} (hd : N inode.idx = .dir d)
    (hQ : ∀ w', S.Inv w' → Local t held T N mine slot w' →
      Q (tfsInodeDirSearchByName d name) w') :
    S.Safe E Q (inode.searchByName name) w :=
  Safe.bind (dir_safe h hmem hd fun _ _ h₁ => safe_pure h₁ hQ)

end Setup

end TecnicoFs
