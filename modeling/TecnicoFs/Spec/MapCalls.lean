import TecnicoFs.Spec.FileMap
import TecnicoFs.Spec.LegalMove

/-!
# Calls on the map

All calls as operations on the map of a file system: when they succeed, and what they
change.  This is what the tree does (`atomic_ok_iff_can`, `treeMap_atomic`), for a move at
least if it is *plain*: neither path leads through the other, and none of them repeats their
common ancestor.
-/

namespace TecnicoFs

open Function Graph

namespace FileMap

/-- There is something to move, and a place for it. -/
def CanMove (f : FileMap) (cs ds : List (List CChar)) : Prop := f cs ≠ none ∧ f.CanCreate ds

/-- What is at `cs` and below it is at `ds` instead. -/
def relocate (f : FileMap) (cs ds : List (List CChar)) : FileMap := fun es =>
  if ds <+: es then f (cs ++ es.drop ds.length) else if cs <+: es then none else f es

/-- The map allows the call. -/
def Can (f : FileMap) : Call → Prop
  | .create path _ => f.CanCreate (comps path.str)
  | .remove path => f.CanRemove (comps path.str)
  | .find path _ => f (comps path.str) ≠ none
  | .move origPath destPath _ => f.CanMove (comps origPath.str) (comps destPath.str)

/-- The map after a call that it allows. -/
def after (f : FileMap) : Call → FileMap
  | .create path type => update f (comps path.str) (some type)
  | .remove path => update f (comps path.str) none
  | .find _ _ => f
  | .move origPath destPath _ => f.relocate (comps origPath.str) (comps destPath.str)

end FileMap

/-- Neither path leads through the other, and none repeats their common ancestor. -/
structure PlainMove (origPath destPath : TfsPath) : Prop where
  notBelow : ¬comps origPath.str <+: comps destPath.str
  notAbove : ¬comps destPath.str <+: comps origPath.str
  orig : ¬Repeats (comps origPath.str) (comps destPath.str)
  dest : ¬Repeats (comps destPath.str) (comps origPath.str)

/-- If the call is a move, it is a plain one. -/
def Call.Plain (c : Call) : Prop :=
  ∀ origPath destPath access, c = .move origPath destPath access → PlainMove origPath destPath

variable {capacity : Nat} {T T' : Tree} {cs ds : List (List CChar)}

/-! ## Moving a child -/

/-- Two paths that lead to the same inodes, which have kept their types. -/
theorem treeMap_eq_of_walk_iff (hT' : TreeInv capacity T')
    (htype : ∀ j, (T' j).type = (T j).type)
    (h : ∀ j, Walk (Child T') 0 ds j ↔ Walk (Child T) 0 cs j) : treeMap T' ds = treeMap T cs := by
  cases hcs : treeMap T cs with
  | none =>
    rw [treeMap_eq_none_iff] at hcs ⊢
    exact fun j w => hcs j ((h j).mp w)
  | some type =>
    obtain ⟨i, w, rfl⟩ := exists_walk_of_treeMap hcs
    rw [treeMap_of_walk hT' ((h i).mpr w), htype]

section Relinked

variable {p x q : Nat} {a b : List CChar} (h : Relinked capacity T T' p a x q b)
  (hT : TreeInv capacity T) (wp : Walk (Child T) 0 cs p) (wq : Walk (Child T) 0 ds q)

include h hT wp wq

/-- The new place was free, unless it is the old one. -/
theorem Relinked.treeMap_eq_none (hne : cs ++ [a] ≠ ds ++ [b]) : treeMap T (ds ++ [b]) = none := by
  rw [treeMap_snoc_eq_none_iff hT wq]
  intro j hj
  have hx : Child T' q b x := (h.relink _ _ _).mpr (Or.inr ⟨rfl, rfl, rfl⟩)
  by_cases hjx : j = x
  · subst hjx
    exact hne (hT.tree.walk_labels (wp.snoc h.child) (wq.snoc hj))
  · exact hjx (h.inv.tree.label ((h.relink _ _ _).mpr (Or.inl ⟨hj, hjx⟩)) hx)

omit wp in
theorem Relinked.treeMap_parent : treeMap T ds = some .dir := by
  have hx : Child T' q b x := (h.relink _ _ _).mpr (Or.inr ⟨rfl, rfl, rfl⟩)
  obtain ⟨d, hd, -⟩ := id hx
  rw [treeMap_of_walk hT wq, ← h.type, hd]
  rfl

/-- **What moving a child does to the map.** -/
theorem Relinked.treeMap_eq (hapart : ¬ds ++ [b] <+: cs ++ [a]) :
    treeMap T' = (treeMap T).relocate (cs ++ [a]) (ds ++ [b]) := by
  funext es
  rw [FileMap.relocate]
  split
  · rename_i hes
    obtain ⟨rest, rfl⟩ := hes
    rw [List.drop_left]
    refine treeMap_eq_of_walk_iff h.inv h.type fun j => ?_
    have wx := h.walk_child wq
    have hbelow : Walk (Child T') x rest j ↔ Walk (Child T) x rest j :=
      walk_congr fun _ _ => h.below hT
    constructor
    · intro w
      obtain ⟨k, wk, w⟩ := Walk.append_iff.mp w
      obtain rfl := h.inv.tree.walk_end wk wx
      exact (wp.snoc h.child).append (hbelow.mp w)
    · intro w
      obtain ⟨k, wk, w⟩ := Walk.append_iff.mp w
      obtain rfl := hT.tree.walk_end wk (wp.snoc h.child)
      exact wx.append (hbelow.mpr w)
  · rename_i hds
    split
    · rename_i hes
      obtain ⟨rest, rfl⟩ := hes
      rw [treeMap_eq_none_iff]
      intro j w
      obtain ⟨k, wk, -⟩ := Walk.append_iff.mp w
      exact hT.tree.not_walk_relink wp h.child wq hapart (h.walk_iff.mp wk)
    · rename_i hcs
      refine treeMap_eq_of_walk_iff h.inv h.type fun j => ?_
      rw [h.walk_iff]
      exact hT.tree.walk_relink_iff (wp.snoc h.child) wq hcs hds

end Relinked

/-! ## Moves -/

section Moves

variable {origPath destPath : TfsPath} {access : TfsRwLockAccess} (hT : TreeInv capacity T)
  (hn : NulFree origPath.str) (hm : NulFree destPath.str)
  (ho : ¬comps origPath.str <+: comps destPath.str)
  (hd : ¬comps destPath.str <+: comps origPath.str)

include hT hn hm ho hd

/-- A move between different branches moves one child. -/
theorem exists_relinked_of_ok {i : Option Nat}
    (hok : (atomicMove T origPath destPath access).outcome = .ok i) :
    ∃ cs a ds b p x q, comps origPath.str = cs ++ [a] ∧ comps destPath.str = ds ++ [b] ∧
      Walk (Child T) 0 cs p ∧ Walk (Child T) 0 ds q ∧
      Relinked capacity T (atomicMove T origPath destPath access).tree p a x q b := by
  obtain ⟨s, hs, h⟩ := atomicMove_ok hT hn hm hok
  have hcuts := MoveSplit.moveSplit_cuts hn destPath
  rw [← hs] at hcuts
  obtain ⟨-, horig⟩ := hcuts.orig_eq_of_not_prefix ho
  obtain ⟨-, hdest⟩ := hcuts.swap.orig_eq_of_not_prefix hd
  simp only [MoveSplit.swap] at hdest
  rcases h with ⟨hl, hr, -⟩ | ⟨-, p, x, q, hp, hq, hmove⟩
  · have hsame : comps origPath.str = comps destPath.str := by
      rw [hcuts.orig, hcuts.dest, hl, hr]
    exact absurd (hsame ▸ List.prefix_rfl) ho
  · have hcs := nulFree_comps hn
    have hds := nulFree_comps hm
    rw [horig] at hcs
    rw [hdest] at hds
    exact ⟨_, _, _, _, p, x, q, horig, hdest,
      (locate_eq_ok_iff hT fun c hc => hcs c (List.mem_append_left _ hc)).mp hp,
      (locate_eq_ok_iff hT fun c hc => hds c (List.mem_append_left _ hc)).mp hq, hmove⟩

/-- **What a move between different branches does to the map.** -/
theorem treeMap_atomicMove {i : Option Nat}
    (hok : (atomicMove T origPath destPath access).outcome = .ok i) :
    treeMap (atomicMove T origPath destPath access).tree =
      (treeMap T).relocate (comps origPath.str) (comps destPath.str) := by
  obtain ⟨cs, a, ds, b, p, x, q, horig, hdest, wp, wq, hmove⟩ :=
    exists_relinked_of_ok hT hn hm ho hd hok
  rw [horig, hdest] at hd ⊢
  exact hmove.treeMap_eq hT wp wq hd

omit ho hd in
/-- **A plain move succeeds exactly when the map allows it.** -/
theorem atomicMove_ok_iff (hblank : BlankFree T) (hplain : PlainMove origPath destPath) :
    (∃ i, (atomicMove T origPath destPath access).outcome = .ok i) ↔
      (treeMap T).CanMove (comps origPath.str) (comps destPath.str) := by
  have hnul := nulFree_comps hn
  have hnul' := nulFree_comps hm
  constructor
  · rintro ⟨i, hok⟩
    obtain ⟨cs, a, ds, b, p, x, q, horig, hdest, wp, wq, hmove⟩ :=
      exists_relinked_of_ok hT hn hm hplain.notBelow hplain.notAbove hok
    refine ⟨?_, ds, b, hdest, hmove.treeMap_parent hT wq, ?_⟩
    · rw [horig, treeMap_of_walk hT (wp.snoc hmove.child)]
      simp
    · rw [hdest]
      refine hmove.treeMap_eq_none hT wp wq fun heq => hplain.notBelow ?_
      have hsame : comps origPath.str = comps destPath.str := by rw [horig, hdest, heq]
      exact hsame ▸ List.prefix_rfl
  · rintro ⟨horig, ds, b, hdest, hparent, hnone⟩
    obtain ⟨type, htype⟩ := Option.ne_none_iff_exists'.mp horig
    obtain ⟨i, wi, -⟩ := exists_walk_of_treeMap htype
    obtain ⟨q, wq, hq⟩ := exists_walk_of_treeMap hparent
    rw [treeMap_eq_none_iff] at hnone
    refine ((atomicMove_legal_iff hT hblank hn hm).mpr ⟨hplain.orig, hplain.dest⟩).1
      ⟨⟨i, (locate_eq_ok_iff hT hnul).mpr wi⟩, ⟨q, ?_, hq⟩, fun j hj => ?_, hplain.notBelow,
        hplain.notAbove⟩
    · rw [hdest, List.dropLast_concat]
      rw [hdest] at hnul'
      exact (locate_eq_ok_iff hT fun c hc => hnul' c (List.mem_append_left _ hc)).mpr wq
    · exact hnone j ((locate_eq_ok_iff hT hnul').mp hj)

end Moves

/-! ## All calls -/

theorem atomicFind_ok_iff (hT : TreeInv capacity T) {path : TfsPath} (hn : NulFree path.str) :
    (∃ i, (atomicFind T path).outcome = .ok i) ↔ treeMap T (comps path.str) ≠ none := by
  have hiff : (∃ i, (atomicFind T path).outcome = .ok i) ↔
      ∃ i, locate T 0 (comps path.str) = .ok i := by
    unfold atomicFind
    cases locate T 0 (comps path.str) with
    | error kind => simp [Effect.fail]
    | ok i => simp
  rw [hiff, Ne, treeMap_eq_none_iff, not_forall_not]
  exact exists_congr fun i => locate_eq_ok_iff hT (nulFree_comps hn)

section Calls

variable {slot : Nat} {c : Call} (hT : TreeInv capacity T) (hc : c.Valid)
  (hfit : Fits capacity T slot c) (hplain : c.Plain)

include hT hc hfit hplain

/-- **A call succeeds exactly when the map allows it.** -/
theorem atomic_ok_iff_can (hnamed : Named T) (hblank : BlankFree T) :
    (∃ i, (atomic T slot c).outcome = .ok i) ↔ (treeMap T).Can c := by
  cases c with
  | create path type => exact atomicCreate_ok_iff hT hc hfit
  | remove path => exact atomicRemove_ok_iff hT hnamed hc
  | find path access => exact atomicFind_ok_iff hT hc
  | move origPath destPath access =>
    exact atomicMove_ok_iff hT hc.1 hc.2 hblank (hplain _ _ _ rfl)

/-- **What a call does to the map.** -/
theorem treeMap_atomic (hnamed : Named T) {i : Option Nat}
    (hok : (atomic T slot c).outcome = .ok i) :
    treeMap (atomic T slot c).tree = (treeMap T).after c := by
  cases c with
  | create path type => exact treeMap_atomicCreate hT hc hfit hok
  | remove path => exact (treeMap_atomicRemove hT hnamed hc hok).1
  | find path access => exact congrArg treeMap (atomicFind_tree path)
  | move origPath destPath access =>
    have hmove := hplain _ _ _ rfl
    exact treeMap_atomicMove hT hc.1 hc.2 hmove.notBelow hmove.notAbove hok

omit hT hc hfit in
/-- A plain move takes the name from nothing. -/
theorem Call.Plain.not_renamesToBlank : ¬RenamesToBlank T c := by
  rintro ⟨origPath, destPath, access, name, p, d, rfl, hcomps, -⟩
  exact (hplain _ _ _ rfl).notAbove (hcomps ▸ List.prefix_append ..)

end Calls

/-! ## A new file system -/

/-- The map of a new file system. -/
def FileMap.new : FileMap := fun cs => if cs = [] then some .dir else none

theorem treeMap_single :
    treeMap (update (fun _ => .none) 0 (.dir tfsInodeDirNew)) = FileMap.new := by
  have hT : TreeInv 128 (update (fun _ => .none) 0 (.dir tfsInodeDirNew)) :=
    TreeInv.single (by decide)
  funext cs
  rw [FileMap.new]
  split
  · rename_i hcs
    subst hcs
    rw [treeMap_of_walk hT Walk.nil]
    rfl
  · rename_i hcs
    rw [treeMap_eq_none_iff]
    intro i w
    obtain ⟨c, cs, rfl⟩ := List.exists_cons_of_ne_nil hcs
    obtain ⟨k, ⟨d, hd, hmem⟩, -⟩ := Walk.cons_iff.mp w
    rw [update_self, TfsInode.dir.injEq] at hd
    rw [← hd] at hmem
    cases hmem

/-! ## Taking calls back -/

namespace FileMap

/-- What is below something is in a directory. -/
def Nested (f : FileMap) : Prop := ∀ cs name, f (cs ++ [name]) ≠ none → f cs = some .dir

/-- The call that takes another one back, on the map before it. -/
def undo (f : FileMap) : Call → Call
  | .create path _ => .remove path
  | .remove path => .create path ((f (comps path.str)).getD .none)
  | .find path access => .find path access
  | .move origPath destPath access => .move destPath origPath access

variable {f : FileMap}

/-- Nothing is below what is not there. -/
theorem Nested.eq_none (h : f.Nested) (hcs : f cs = none) {es : List (List CChar)}
    (hes : cs <+: es) : f es = none := by
  obtain ⟨rest, rfl⟩ := hes
  induction rest using List.reverseRecOn with
  | nil => rwa [List.append_nil]
  | append_singleton rest name ih =>
    by_contra hne
    rw [← List.append_assoc] at hne
    rw [h _ name hne] at ih
    cases ih

/-- What can be moved there can be moved back. -/
theorem CanMove.back (h : f.CanMove cs ds) (hnested : f.Nested) (hcs : ¬cs <+: ds)
    (hds : ¬ds <+: cs) : (f.relocate cs ds).CanMove ds cs := by
  obtain ⟨horig, -⟩ := h
  obtain rfl | ⟨pre, name, rfl⟩ := List.eq_nil_or_concat' cs
  · exact absurd List.nil_prefix hcs
  have hpre : ¬ds <+: pre := fun hp => hds (hp.trans (List.prefix_append ..))
  have hlong : ¬pre ++ [name] <+: pre := fun hp => by
    have hle := hp.length_le
    rw [List.length_append, List.length_singleton] at hle
    omega
  refine ⟨?_, pre, name, rfl, ?_, ?_⟩
  · rwa [relocate, if_pos List.prefix_rfl, List.drop_length, List.append_nil]
  · rw [relocate, if_neg hpre, if_neg hlong]
    exact hnested pre name horig
  · rw [relocate, if_neg hds, if_pos List.prefix_rfl]

/-- Moving there and back. -/
theorem relocate_relocate (hnested : f.Nested) (hnone : f ds = none) :
    (f.relocate cs ds).relocate ds cs = f := by
  funext es
  rw [relocate]
  split
  · rename_i hes
    obtain ⟨rest, rfl⟩ := hes
    rw [List.drop_left, relocate, if_pos (List.prefix_append ..), List.drop_left]
  · rename_i hcs
    split
    · rename_i hes
      exact (hnested.eq_none hnone hes).symm
    · rename_i hes
      rw [relocate, if_neg hes, if_neg hcs]

/-- **A call that was allowed can be taken back.** -/
theorem can_undo {c : Call} (hnested : f.Nested) (hc : c.Valid) (hplain : c.Plain) (h : f.Can c) :
    (f.after c).Can (f.undo c) := by
  cases c with
  | create path type =>
    obtain ⟨pre, name, hcs, -, hnone⟩ := h
    refine ⟨by simp [hcs], ?_⟩
    rw [after, update_self]
    cases type with
    | none => exact absurd rfl hc.2
    | file => exact Or.inl rfl
    | dir =>
      refine Or.inr ⟨rfl, fun name => ?_⟩
      rw [update_of_ne (by simp)]
      exact hnested.eq_none hnone (List.prefix_append ..)
  | remove path =>
    obtain ⟨hne, h⟩ := h
    obtain hnil | ⟨pre, name, hcs⟩ := List.eq_nil_or_concat' (comps path.str)
    · exact absurd hnil hne
    refine ⟨pre, name, hcs, ?_, update_self ..⟩
    rw [after, update_of_ne (by simp [hcs])]
    refine hnested pre name fun hnone => ?_
    rw [hcs, hnone] at h
    rcases h with h | ⟨h, -⟩
    · cases h
    · cases h
  | find path access => exact h
  | move origPath destPath access =>
    have hmove := hplain _ _ _ rfl
    exact CanMove.back h hnested hmove.notBelow hmove.notAbove

/-- **Then the map is what it was.** -/
theorem after_undo {c : Call} (hnested : f.Nested) (h : f.Can c) :
    (f.after c).after (f.undo c) = f := by
  cases c with
  | create path type =>
    obtain ⟨pre, name, -, -, hnone⟩ := h
    rw [undo, after, after, update_idem, ← hnone, update_eq_self]
  | remove path =>
    obtain ⟨type, htype⟩ : ∃ type, f (comps path.str) = some type := by
      rcases h.2 with h | ⟨h, -⟩
      · exact ⟨_, h⟩
      · exact ⟨_, h⟩
    rw [undo, after, after, update_idem, htype, Option.getD_some, ← htype, update_eq_self]
  | find path access => rfl
  | move origPath destPath access =>
    obtain ⟨-, -, -, -, -, hnone⟩ := h
    exact relocate_relocate hnested hnone

theorem plain_undo (f : FileMap) {c : Call} (hplain : c.Plain) : (f.undo c).Plain := by
  intro origPath destPath access heq
  cases c with
  | move origPath' destPath' access' =>
    obtain ⟨rfl, rfl, -⟩ := Call.move.inj heq
    have hmove := hplain _ _ _ rfl
    exact ⟨hmove.notAbove, hmove.notBelow, hmove.dest, hmove.orig⟩
  | _ => cases heq

theorem valid_undo {c : Call} (hc : c.Valid) (h : f.Can c) :
    (f.undo c).Valid := by
  cases c with
  | create path type => exact hc.1
  | remove path =>
    refine ⟨hc, fun hnone => ?_⟩
    rcases h.2 with h | ⟨h, -⟩
    · rw [h] at hnone
      cases hnone
    · rw [h] at hnone
      cases hnone
  | find path access => exact hc
  | move origPath destPath access => exact hc.symm

end FileMap

theorem treeMap_nested (hT : TreeInv capacity T) : (treeMap T).Nested := by
  intro cs name hne
  obtain ⟨type, htype⟩ := Option.ne_none_iff_exists'.mp hne
  obtain ⟨i, w, -⟩ := exists_walk_of_treeMap htype
  obtain ⟨p, wp, d, hd, -⟩ := Walk.snoc_iff.mp w
  rw [treeMap_of_walk hT wp, hd]
  rfl

end TecnicoFs
