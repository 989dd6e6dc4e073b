import TecnicoFs.Concurrent.Moves

/-!
# Listings

`tfs_fs_print` locks the root for unique access and nothing else.  No call can be in the
middle of a change then: all of them lock the root before they change anything that is
part of the tree, and hold it until they are through.  So the recursion of
`tfs_inode_table_print_tree` sees the committed tree, and is as deep as that at most.
-/

namespace TecnicoFs

open Interleaving Function Graph

variable {ι : Type} [DecidableEq ι]

namespace Setup

variable {S : Setup ι} {t : ι} {E : S.protocol.Env t} {held : List (Nat × TfsRwLockAccess)}
  {T N : Tree} {mine : List (Entry ι)} {slot : Option Nat} {w w' : FsWorld ι} {i : Nat}

/-! ## Files -/

/-- Writing to a file is nobody's business. -/
theorem Local.setFile (h : Local t held T N mine slot w) (hi : S.Inv w)
    (name contents : List CChar) :
    S.protocol.Guar t w ⟨w.mem.setFile name contents, w.ghost⟩ ∧
    Local t held T N mine slot ⟨w.mem.setFile name contents, w.ghost⟩ :=
  ⟨{ inv := ⟨hi.locks, hi.node, hi.replay, hi.tids, hi.leaks, hi.used, hi.slots⟩
     own := ⟨[], by simp, by simp⟩
     rely := fun _ _ => ⟨fun _ _ => Iff.rfl, fun _ _ _ => rfl, fun _ _ _ => rfl,
      ⟨[], by simp, by simp⟩, rfl, fun _ _ h => h, fun _ => rfl, fun _ _ _ => rfl⟩ },
    ⟨h.owns, h.tree, h.node, h.mine, h.slot⟩⟩

theorem fopen_safe {Q : Bool → FsWorld ι → Prop} {name : List CChar} (ht : S.Prints t)
    (h : Local t held T N mine slot w)
    (hQ : ∀ w' b, S.Inv w' → Local t held T N mine slot w' → Q b w') :
    S.Safe E Q (TfsProg.fopen name) w := by
  intro w₁ hs₁ hi₁
  have h₁ := h.env hs₁
  refine ⟨ht, fun r m he => ?_⟩
  rcases exec_fopen he with ⟨-, rfl⟩ | ⟨-, rfl⟩
  · obtain ⟨hg, h₂⟩ := h₁.setFile hi₁ name []
    exact ⟨_, hg, fun w₂ hs₂ hi₂ => hQ w₂ r hi₂ (h₂.env hs₂)⟩
  · exact ⟨_, Guar.refl hi₁ t, fun w₂ hs₂ hi₂ => hQ w₂ r hi₂ (h₁.env hs₂)⟩

theorem fclose_safe {Q : Bool → FsWorld ι → Prop} {out : TfsStream} (ht : S.Prints t)
    (h : Local t held T N mine slot w)
    (hQ : ∀ w', S.Inv w' → Local t held T N mine slot w' → Q true w') :
    S.Safe E Q (TfsProg.fclose out) w := by
  intro w₁ hs₁ hi₁
  have h₁ := h.env hs₁
  refine ⟨ht, fun r m he => ?_⟩
  obtain ⟨rfl, rfl⟩ := exec_fclose he
  obtain ⟨hg, h₂⟩ := h₁.setFile hi₁ out.name _
  exact ⟨_, hg, fun w₂ hs₂ hi₂ => hQ w₂ hi₂ (h₂.env hs₂)⟩

/-! ## The tree is frozen -/

omit [DecidableEq ι] in
/-- **While a listing holds the root, table and tree agree on all slots of the tree.** -/
theorem Inv.node_eq_of_root (hi : S.Inv w) (hroot : (t, .unique) ∈ w.mem.locks 0)
    (hcalls : ¬S.Calls t) (hlive : w.ghost.tree i ≠ .none) : w.mem.node i = w.ghost.tree i := by
  rcases hi.node i with h | ⟨u, hu, -, h | ⟨⟨a, ha⟩, -⟩⟩
  · exact h
  · exact absurd h hlive
  · obtain ⟨rfl, -⟩ := (hi.locks 0).eq_of_unique hroot ha
    exact absurd hu hcalls

/-- What a listing knows while it holds the root. -/
structure Frozen (t : ι) (T : Tree) (slot : Option Nat) (w : FsWorld ι) : Prop where
  holds : Local t [(0, .unique)] T T [] slot w
  tree : w.ghost.tree = T

theorem Frozen.env (h : Frozen t T slot w) (hs : E.step w w') : Frozen t T slot w' where
  holds := h.holds.env hs
  tree := by
    have hroot : (t, .unique) ∈ w.mem.locks 0 := (h.holds.owns 0 _).mpr List.mem_cons_self
    rw [(E.rely_of_step hs).rootTree hroot, h.tree]

theorem Frozen.node_eq (h : Frozen t T slot w) (hi : S.Inv w) (hcalls : ¬S.Calls t)
    (hlive : T i ≠ .none) : w.mem.node i = T i := by
  rw [hi.node_eq_of_root ((h.holds.owns 0 _).mpr List.mem_cons_self) hcalls (h.tree ▸ hlive),
    h.tree]

/-- Reading a slot of the tree while holding the root. -/
theorem Frozen.read_safe {Q : TfsInode → FsWorld ι → Prop} (h : Frozen t T slot w)
    (hcalls : ¬S.Calls t) (hlive : T i ≠ .none)
    (hQ : ∀ w', S.Inv w' → Frozen t T slot w' → Q (T i) w') :
    S.Safe E Q (TfsProg.read i) w := by
  intro w₁ hs₁ hi₁
  have h₁ := h.env hs₁
  refine ⟨Or.inr ⟨(h₁.holds.owns 0 _).mpr List.mem_cons_self, h₁.tree ▸ hlive⟩, fun r m he => ?_⟩
  obtain ⟨rfl, rfl⟩ := exec_read he
  refine ⟨_, Guar.refl hi₁ t, fun w₂ hs₂ hi₂ => ?_⟩
  rw [h₁.node_eq hi₁ hcalls hlive]
  exact hQ w₂ hi₂ (h₁.env hs₂)

theorem Frozen.assert_safe {Q : Unit → FsWorld ι → Prop} {site : AssertSite} {holds : Bool}
    (h : Frozen t T slot w) (hholds : holds = true) (hpre : ∀ w, S.AtAssert t site w)
    (hQ : ∀ w', S.Inv w' → Frozen t T slot w' → Q () w') :
    S.Safe E Q (TfsProg.assert site holds) w := by
  subst hholds
  intro w₁ hs₁ hi₁
  refine ⟨pre_assert (hpre w₁), fun r m he => ?_⟩
  obtain ⟨-, rfl⟩ := exec_assert he
  exact ⟨_, Guar.refl hi₁ t, fun w₂ hs₂ hi₂ => hQ w₂ hi₂ ((h.env hs₁).env hs₂)⟩

/-- **`tfs_inode_table_print_tree`**, with enough depth left for all that is below. -/
theorem tfsInodeTablePrintTree_safe {Q : TfsStream → FsWorld ι → Prop}
    (hT : TreeInv S.capacity T) (hcalls : ¬S.Calls t) {depth : Nat} {cs : List (List CChar)}
    {out : TfsStream} {path : List CChar} (w₀ : Walk (Child T) 0 cs i)
    (hdepth : cs.length + depth = S.capacity) (h : Frozen t T slot w)
    (hQ : ∀ w' out', S.Inv w' → Frozen t T slot w' → Q out' w') :
    S.Safe E Q (tfsInodeTablePrintTree S.fs.inodeTable depth i out path) w := by
  induction depth generalizing Q i cs out path w with
  | zero => exact absurd (hT.walk_length_lt w₀) (by omega)
  | succ depth ih =>
    have hlive : T i ≠ .none := hT.tree.walk_live hT.tree.live_root w₀
    rw [tfsInodeTablePrintTree]
    refine Safe.bind (h.assert_safe (decide_eq_true (hT.bound hlive)) (fun _ => trivial)
      fun w₁ _ h₁ => ?_)
    refine Safe.bind (h₁.read_safe hcalls hlive fun w₂ _ h₂ => ?_)
    refine Safe.bind (h₂.assert_safe (decide_eq_true (mt TfsInode.type_eq_none_iff.mp hlive))
      (fun _ => trivial) fun w₃ _ h₃ => ?_)
    refine Safe.bind (h₃.read_safe hcalls hlive fun w₄ _ h₄ => ?_)
    have hpure : ∀ {out' : TfsStream} {w' : FsWorld ι}, Frozen t T slot w' →
        S.Safe E Q (pure out') w' := fun h' w₅ hs₅ hi₅ => hQ w₅ _ hi₅ (h'.env hs₅)
    cases hd : T i with
    | none => exact absurd hd hlive
    | file => exact hpure h₄
    | dir d =>
      -- the entries, one after the other
      dsimp only
      refine Safe.foldlM (J := fun entries _ w' =>
        (∀ e ∈ entries, e ∈ d.entries) ∧ Frozen t T slot w') (fun _ _ h' => hpure h'.2) ?_
        ⟨fun _ he => he, h₄⟩
      rintro e entries out' w' ⟨hsub, h'⟩
      have hrest : ∀ e' ∈ entries, e' ∈ d.entries := fun e' he' =>
        hsub e' (List.mem_cons_of_mem e he')
      cases hidx : e.inodeIdx with
      | none => exact Safe.ret fun w₅ hs₅ _ => ⟨hrest, h'.env hs₅⟩
      | some j =>
        have hchild : Child T i e.name j :=
          ⟨d, hd, List.mem_filterMap.mpr ⟨e, hsub e List.mem_cons_self,
            TfsInodeDirEntry.child_eq_some_iff.mpr (by rw [← hidx])⟩⟩
        exact ih (w₀.snoc hchild) (by rw [List.length_append]; simp; omega) h'
          fun w₅ _ _ h₅ => ⟨hrest, h₅⟩

/-! ## The operation -/

/-- Giving back the root. -/
theorem Frozen.unlock_safe {Q : Unit → FsWorld ι → Prop} (h : Frozen t T slot w)
    (hT : TreeInv S.capacity T)
    (hQ : ∀ w', S.Inv w' → Local t [] T T [] slot w' → Q () w') :
    S.Safe E Q (tfsInodeTableUnlockInode S.fs.inodeTable tfsFsRootIdx) w := by
  have hmem : (0, Access.unique) ∈ [(0, Access.unique)] := List.mem_cons_self
  have hlive : T 0 ≠ .none := hT.tree.live_root
  have hholds : ∀ w', S.Inv w' → Local t [(0, .unique)] T T [] slot w' → S.HoldsLive t 0 w' :=
    fun w' _ h' => ⟨hT.bound hlive, by rw [h'.node _ hmem]; exact hlive, _,
      (h'.owns 0 _).mpr hmem⟩
  refine Safe.bind (safe_assert h.holds (decide_eq_true (hT.bound hlive)) hholds fun w₁ _ h₁ =>
    Safe.bind (safe_read h₁ hmem fun w₂ _ h₂ => Safe.bind ?_))
  refine safe_assert h₂ (decide_eq_true (mt TfsInode.type_eq_none_iff.mp hlive)) hholds
    fun w₃ _ h₃ => ?_
  intro w₄ hs₄ hi₄
  have h₄ := h₃.env hs₄
  refine ⟨⟨_, (h₄.owns 0 _).mpr hmem⟩, fun u m he => ?_⟩
  obtain rfl := exec_unlock he
  obtain ⟨hg, h₅⟩ := h₄.release hi₄ rfl ⟨_, hmem⟩ (fun _ _ _ => Or.inr rfl) (by simp)
  exact ⟨_, hg, fun w₆ hs₆ hi₆ => hQ w₆ hi₆ ((h₅.env hs₆).congr (fun x => by simp [without])
    (by simp) (by simp))⟩

/-- **`tfs_fs_print`.** -/
theorem tfsFsPrint_safe {fileName : List CChar} (ht : S.task t = .print fileName)
    (h : Local t [] T T [] slot w) :
    S.Safe E (fun _ w' => Local t [] T T [] slot w') (tfsFsPrint S.fs fileName) w := by
  have hcalls : ¬S.Calls t := by
    rintro ⟨c, hc⟩
    rw [ht] at hc
    cases hc
  have hplan : (S.task t).plan = [] ++ ⟨[], .unique, none⟩ :: [] := by rw [ht]; rfl
  have hany : ∀ {T' : Tree} {w' : FsWorld ι}, Local t [] T' T' [] slot w' →
      Local t [] T T [] slot w' := fun h' =>
    h'.congr (fun _ => Iff.rfl) (by simp) (by simp)
  refine Safe.bind (fopen_safe ⟨_, ht⟩ h fun w₁ opened _ h₁ => ?_)
  cases opened with
  | false => exact safe_pure h₁ fun w₂ _ h₂ => h₂
  | true =>
    refine Safe.bind (tfsInodeTableLock_safe hplan List.Forall₂.nil h₁ ⟨rfl, by simp⟩
      fun w₂ T₂ _ _ _ _ _ h₂ => Safe.of_forall fun w₃ hs₃ hi₃ => ?_)
    have hroot : ∀ x ∈ [(0, Access.unique)], x.1 = 0 := by simp
    have h₃ : Local t [(0, .unique)] T₂ T₂ [] slot w₃ := h₂.env hs₃
    have htree : w₃.ghost.tree 0 = T₂ 0 := h₃.tree _ List.mem_cons_self
    have hfrozen : Frozen t w₃.ghost.tree slot w₃ :=
      ⟨h₃.congr (fun _ => Iff.rfl) (fun x hx => by rw [hroot x hx, htree])
        (fun x hx => by rw [hroot x hx, htree]), rfl⟩
    refine Safe.bind (tfsInodeTablePrintTree_safe hi₃.treeInv hcalls Walk.nil (by simp [capacity])
      hfrozen fun w₄ out _ h₄ => ?_)
    refine Safe.bind (h₄.unlock_safe hi₃.treeInv fun w₅ _ h₅ => ?_)
    refine Safe.bind (fclose_safe ⟨_, ht⟩ h₅ fun w₆ _ h₆ => ?_)
    refine Safe.bind (safe_assert h₆ rfl (fun _ _ _ => trivial) fun w₇ _ h₇ => ?_)
    exact safe_pure h₇ fun w₈ _ h₈ => hany h₈

end Setup

end TecnicoFs
