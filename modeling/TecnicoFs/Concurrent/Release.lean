import TecnicoFs.Concurrent.Rules

/-!
# Giving back

Once the outcome of a call is decided, the call only gives back locks, and empties a slot
that is not part of the tree.  `Done` is what holds from there on.  A call that changes
nothing commits when it first gives something back; one that changes a directory has
committed when it wrote it.

The functions here are the ones that unlock: a single inode, an array of them, and an
inode that is removed.
-/

namespace TecnicoFs

open Interleaving Function

variable {ι : Type} [DecidableEq ι]

/-! ## Arrays -/

/-- The array has the inodes of `held` from position `n` on. -/
def Stored (lockedInodes : LockedInodes) (n : Nat) (held : List (Nat × TfsRwLockAccess)) : Prop :=
  ∀ k x, held[k]? = some x → ∃ type, lockedInodes[n + k]? = some (some ⟨x.1, type⟩)

theorem stored_nil (lockedInodes : LockedInodes) (n : Nat) : Stored lockedInodes n [] := by
  intro k x h
  simp at h

theorem Stored.tail {lockedInodes : LockedInodes} {n : Nat} {x : Nat × TfsRwLockAccess}
    {held : List (Nat × TfsRwLockAccess)} (h : Stored lockedInodes n (x :: held)) :
    Stored lockedInodes (n + 1) held := by
  intro k y hy
  obtain ⟨type, htype⟩ := h (k + 1) y hy
  exact ⟨type, by rw [← htype]; congr 1; omega⟩

theorem Stored.snoc {arr : LockedInodes} {n : Nat} {new : List (Nat × TfsRwLockAccess)}
    (h : Stored arr n new) (x : Nat × TfsRwLockAccess) {type : TfsInodeType}
    (hlt : n + new.length < arr.length) :
    Stored (arr.set (n + new.length) (some ⟨x.1, type⟩)) n (new ++ [x]) := by
  intro k y hy
  by_cases hk : k < new.length
  · rw [List.getElem?_append_left hk] at hy
    obtain ⟨type', htype'⟩ := h k y hy
    exact ⟨type', by rw [List.getElem?_set_ne (by omega), htype']⟩
  · have hk' : k < (new ++ [x]).length := (List.getElem?_eq_some_iff.mp hy).1
    obtain rfl : k = new.length := by simp at hk'; omega
    obtain rfl : x = y := by simpa using hy
    exact ⟨type, by rw [List.getElem?_set_self hlt]⟩

/-- One more slot, that is not held yet. -/
theorem nodup_snoc_iff {held : List (Nat × TfsRwLockAccess)} {x : Nat × TfsRwLockAccess} :
    ((held ++ [x]).map Prod.fst).Nodup ↔ (held.map Prod.fst).Nodup ∧ ∀ y ∈ held, y.1 ≠ x.1 := by
  rw [List.map_append, List.nodup_append]
  refine ⟨fun ⟨h, _, hne⟩ => ⟨h, fun y hy => hne _ (List.mem_map_of_mem hy) _ (by simp)⟩, ?_⟩
  rintro ⟨h, hne⟩
  refine ⟨h, List.nodup_singleton _, ?_⟩
  rintro i hi j hj
  obtain ⟨y, hy, rfl⟩ := List.mem_map.mp hi
  obtain rfl : j = x.1 := by simpa using hj
  exact hne y hy

namespace Setup

variable {S : Setup ι} {t : ι} {E : S.protocol.Env t} {held rest : List (Nat × TfsRwLockAccess)}
  {T N : Tree} {mine : List (Entry ι)} {slot : Option Nat} {w : FsWorld ι} {i : Nat}
  {a : TfsRwLockAccess} {r : Outcome} {leak : Option (Nat × TfsRwLockAccess)}

/-! ## The outcome is decided -/

variable (S) in
/-- Whatever the rest of the tree is, the call has the outcome `r` and changes nothing. -/
def Ready (t : ι) (held : List (Nat × TfsRwLockAccess)) (T : Tree) (r : Outcome)
    (leak : Option (Nat × TfsRwLockAccess)) : Prop :=
  ∃ c, S.task t = .call c ∧ (∀ x ∈ leak, x ∈ held) ∧
    ∀ T', TreeInv S.capacity T' → (∀ x ∈ held, T' x.1 = T x.1) →
      ∃ s, atomic T' s c = ⟨r, T', leak⟩ ∧ Fits S.capacity T' s c ∧
        ∀ x ∈ requests T' c.plan, x ∈ held

variable (S) in
/-- **What `t` knows when its outcome is decided.**  Table and tree agree in the slots it
holds, but for slots that are none of the tree; and it has committed, or is ready to. -/
structure Done (t : ι) (held : List (Nat × TfsRwLockAccess)) (T N : Tree) (r : Outcome)
    (leak : Option (Nat × TfsRwLockAccess)) (w : FsWorld ι) : Prop where
  agree : ∀ x ∈ held, T x.1 = .none ∨ N x.1 = T x.1
  decided : ∃ mine slot, Local t held T N mine slot w ∧
    ((mine = [] ∧ S.Ready t held T r leak) ∨ ∃ e, mine = [e] ∧ e.outcome = r ∧ e.leak = leak)

theorem Ready.toDone (hready : S.Ready t held T r leak) (h : Local t held T T [] slot w) :
    S.Done t held T T r leak w :=
  ⟨fun _ _ => Or.inr rfl, [], slot, h, Or.inl ⟨rfl, hready⟩⟩

theorem Done.env (h : S.Done t held T N r leak w) {w' : FsWorld ι} (hs : E.step w w') :
    S.Done t held T N r leak w' := by
  obtain ⟨mine, slot, hlocal, hmine⟩ := h.decided
  exact ⟨h.agree, mine, slot, hlocal.env hs, hmine⟩

theorem Done.congr (h : S.Done t held T N r leak w) {held' : List (Nat × TfsRwLockAccess)}
    (hheld : ∀ x, x ∈ held' ↔ x ∈ held) : S.Done t held' T N r leak w := by
  obtain ⟨mine, slot, hlocal, hmine⟩ := h.decided
  refine ⟨fun x hx => h.agree x ((hheld x).mp hx), mine, slot,
    hlocal.congr hheld (fun _ _ => rfl) (fun _ _ => rfl), hmine.imp (fun h => ⟨h.1, ?_⟩) id⟩
  obtain ⟨c, hc, hleak, hatomic⟩ := h.2
  refine ⟨c, hc, fun x hx => (hheld x).mpr (hleak x hx), fun T' hT' hagree => ?_⟩
  obtain ⟨s, hs, hfit, hreq⟩ := hatomic T' hT' fun x hx => hagree x ((hheld x).mpr hx)
  exact ⟨s, hs, hfit, fun x hx => (hheld x).mpr (hreq x hx)⟩

omit [DecidableEq ι] in
/-- Holding more does no harm. -/
theorem Ready.mono {held' : List (Nat × TfsRwLockAccess)} {T' : Tree}
    (h : S.Ready t held T r leak) (hsub : ∀ x ∈ held, x ∈ held')
    (hagree : ∀ x ∈ held, T' x.1 = T x.1) : S.Ready t held' T' r leak := by
  obtain ⟨c, hc, hleak, hatomic⟩ := h
  refine ⟨c, hc, fun x hx => hsub x (hleak x hx), fun T'' hT'' hagree' => ?_⟩
  obtain ⟨s, hs, hfit, hreq⟩ := hatomic T'' hT'' fun x hx =>
    (hagree' x (hsub x hx)).trans (hagree x hx)
  exact ⟨s, hs, hfit, fun x hx => hsub x (hreq x hx)⟩

/-- **A decided call can commit at any time.** -/
theorem Done.settle (h : S.Done t held T N r leak w) (hi : S.Inv w) :
    ∃ g e slot, S.protocol.Guar t w ⟨w.mem, g⟩ ∧ e.outcome = r ∧ e.leak = leak ∧
      Local t held T N [e] slot ⟨w.mem, g⟩ := by
  obtain ⟨mine, slot, hlocal, ⟨rfl, c, hc, hleak, hatomic⟩ | ⟨e, rfl, hr, hl⟩⟩ := h.decided
  · obtain ⟨s, hs, hfit, hreq⟩ := hatomic w.ghost.tree hi.treeInv hlocal.tree
    obtain ⟨hg, hlocal'⟩ := hlocal.commit hi hc hs hfit hreq hleak
      (fun j hj => absurd rfl hj)
    exact ⟨_, _, slot, hg, rfl, rfl, hlocal'.congr (fun _ => Iff.rfl)
      (fun x hx => (hlocal.tree x hx).symm) fun _ _ => rfl⟩
  · exact ⟨w.ghost, e, slot, Guar.refl hi t, hr, hl, hlocal⟩

/-- **Writing a slot and committing.**  In every tree that agrees with `T` in what is held,
the call makes the change that the table then shows. -/
theorem safe_write_commit {Q : Unit → FsWorld ι → Prop} (h : Local t held T N [] slot w) {c : Call}
    (hc : S.task t = .call c) (hroot : ∃ b, (0, b) ∈ held) (hmem : (i, .unique) ∈ held)
    {node : TfsInode} (htype : node.type = (T i).type) (s : Nat) (r : Outcome)
    (change : Tree → Tree)
    (hatomic : ∀ T', TreeInv S.capacity T' → (∀ x ∈ held, T' x.1 = T x.1) →
      atomic T' s c = ⟨r, change T', none⟩ ∧ Fits S.capacity T' s c ∧
        ∀ x ∈ requests T' c.plan, x ∈ held)
    (hchange : ∀ T' j, change T' j ≠ T' j → (j, .unique) ∈ held)
    (hagree : ∀ T', (∀ x ∈ held, T' x.1 = T x.1) →
      ∀ x ∈ held, change T' x.1 = .none ∨ update N i node x.1 = change T' x.1)
    (hQ : ∀ w' T', S.Inv w' → (∀ x ∈ held, T' x.1 = T x.1) →
      S.Done t held (change T') (update N i node) r none w' → Q () w') :
    S.Safe E Q (TfsProg.write i node) w := by
  intro w' hs hi
  have h' := h.env hs
  have hok : T i = .none ∨ (∃ b, (0, b) ∈ held) ∧ node.type = (T i).type := Or.inr ⟨hroot, htype⟩
  refine ⟨⟨⟨c, hc⟩, (h'.owns i _).mpr hmem, ?_⟩, fun u m he => ?_⟩
  · obtain ⟨b, hb⟩ := hroot
    exact Or.inr ⟨⟨b, (h'.owns 0 b).mpr hb⟩, by rw [h'.tree _ hmem, htype]⟩
  obtain rfl := exec_write he
  obtain ⟨hg, hlocal⟩ := h'.write hi ⟨c, hc⟩ hmem hok
  obtain ⟨he, hfit, hreq⟩ := hatomic w'.ghost.tree hi.treeInv h'.tree
  obtain ⟨hg', hlocal'⟩ := hlocal.commit hg.inv hc he hfit hreq (by simp) fun j hj => by
    have hheld := hchange _ j hj
    exact ⟨hheld, hroot, (hagree _ h'.tree _ hheld).symm⟩
  refine ⟨_, Guar.trans hg hg', fun w'' hs' hi' => hQ w'' w'.ghost.tree hi' h'.tree ?_⟩
  exact ⟨hagree _ h'.tree, _, slot, hlocal'.env hs', Or.inr ⟨_, rfl, rfl, rfl⟩⟩

/-! ## Unlocking -/

/-- Giving back the lock of one slot. -/
theorem tfsRwLockUnlock_safe {Q : Unit → FsWorld ι → Prop}
    (h : S.Done t ((i, a) :: rest) T N r leak w) (hN : N i = T i)
    (hrest : ∀ x ∈ rest, x.1 ≠ i) (hleak : ∀ x ∈ leak, x ∈ rest)
    (hQ : ∀ w', S.Inv w' → S.Done t rest T N r leak w' → Q () w') :
    S.Safe E Q (tfsRwLockUnlock i) w := by
  intro w' hs hi
  obtain ⟨g, e, slot, hg, hr, hl, hlocal⟩ := (h.env hs).settle hi
  refine ⟨⟨a, (hlocal.owns i a).mpr List.mem_cons_self⟩, fun u m he => ?_⟩
  obtain rfl := exec_unlock he
  obtain ⟨hg', hlocal'⟩ := hlocal.release hg.inv hN ⟨a, List.mem_cons_self⟩
    (fun _ => h.agree) (by
      intro e' he' x hx
      rw [List.mem_singleton.mp he', hl] at hx
      exact hrest x (hleak x hx))
  refine ⟨g, Guar.trans hg hg', fun w'' hs' hi' => hQ w'' hi' ⟨?_, [e], slot, ?_, ?_⟩⟩
  · exact fun x hx => h.agree x (List.mem_cons_of_mem _ hx)
  · refine (hlocal'.env hs').congr (fun x => ?_) (fun _ _ => rfl) fun _ _ => rfl
    rw [mem_without, List.mem_cons]
    refine ⟨fun hx => ⟨Or.inr hx, hrest x hx⟩, ?_⟩
    rintro ⟨rfl | hx, hne⟩
    · exact absurd rfl hne
    · exact hx
  · exact Or.inr ⟨e, rfl, hr, hl⟩

/-- **`tfs_inode_table_unlock_inode`** of a slot of the tree. -/
theorem tfsInodeTableUnlockInode_safe {Q : Unit → FsWorld ι → Prop}
    (h : S.Done t ((i, a) :: rest) T N r leak w) (hlive : T i ≠ .none)
    (hrest : ∀ x ∈ rest, x.1 ≠ i) (hleak : ∀ x ∈ leak, x ∈ rest)
    (hQ : ∀ w', S.Inv w' → S.Done t rest T N r leak w' → Q () w') :
    S.Safe E Q (tfsInodeTableUnlockInode S.fs.inodeTable i) w := by
  have hmem : (i, a) ∈ (i, a) :: rest := List.mem_cons_self
  have hN : N i = T i := (h.agree _ hmem).resolve_left hlive
  refine Safe.bind (Safe.of_forall fun w₀ hs₀ hi₀ => ?_)
  obtain ⟨mine, slot, hlocal, hmine⟩ := (h.env hs₀).decided
  have hholds : ∀ w', S.Inv w' → Local t ((i, a) :: rest) T N mine slot w' →
      S.HoldsLive t i w' := by
    intro w' hi' h'
    refine ⟨hi'.treeInv.bound ?_, ?_, a, (h'.owns i a).mpr hmem⟩
    · rw [h'.tree _ hmem]
      exact hlive
    · rw [h'.node _ hmem, hN]
      exact hlive
  have hrange : i < S.capacity := (hholds w₀ hi₀ hlocal).1
  refine safe_assert hlocal (decide_eq_true hrange) hholds fun w₁ _ h₁ => Safe.bind ?_
  refine safe_read h₁ hmem fun w₂ _ h₂ => Safe.bind ?_
  have htype : decide ((N i).type ≠ .none) = true := by
    rw [hN]
    exact decide_eq_true (mt TfsInode.type_eq_none_iff.mp hlive)
  refine safe_assert h₂ htype hholds fun w₃ _ h₃ => ?_
  exact tfsRwLockUnlock_safe ⟨h.agree, mine, slot, h₃, hmine⟩ hN hrest hleak hQ

/-- **`tfs_inode_table_remove_inode`** of a slot that is none of the tree. -/
theorem tfsInodeTableRemoveInode_safe {Q : Unit → FsWorld ι → Prop}
    (h : S.Done t ((i, .unique) :: rest) T N r leak w) (hcalls : S.Calls t)
    (hdead : T i = .none) (hrange : i < S.capacity)
    (hrest : ∀ x ∈ rest, x.1 ≠ i) (hleak : ∀ x ∈ leak, x ∈ rest)
    (hQ : ∀ w', S.Inv w' → S.Done t rest T (update N i .none) r leak w' → Q () w') :
    S.Safe E Q (tfsInodeTableRemoveInode S.fs.inodeTable i) w := by
  have hmem : (i, Access.unique) ∈ (i, Access.unique) :: rest := List.mem_cons_self
  obtain ⟨mine, slot, hlocal, hmine⟩ := h.decided
  refine Safe.bind (safe_assert hlocal (decide_eq_true hrange)
    (fun w' _ h' => ⟨hrange, (h'.owns i _).mpr hmem⟩) fun w₁ _ h₁ => Safe.bind ?_)
  refine safe_write h₁ hcalls hmem (Or.inl hdead) fun w₂ _ h₂ => ?_
  refine tfsRwLockUnlock_safe ⟨?_, mine, slot, h₂, hmine⟩ ?_ hrest hleak hQ
  · intro x hx
    by_cases hxi : x.1 = i
    · exact Or.inl (hxi ▸ hdead)
    · rw [update_of_ne hxi]
      exact h.agree x hx
  · rw [update_self, hdead]
    rfl

/-- **`tfs_fs_unlock_inodes`.** -/
theorem tfsFsUnlockInodes_safe {Q : Unit → FsWorld ι → Prop} {lockedInodes : LockedInodes}
    {n len : Nat} {ids : List (Nat × TfsRwLockAccess)} (hlen : ids.length = len)
    (hstored : Stored lockedInodes n ids) (h : S.Done t (ids ++ rest) T N r leak w)
    (hnodup : ((ids ++ rest).map Prod.fst).Nodup)
    (hlive : ∀ x ∈ ids, T x.1 ≠ .none) (hleak : ∀ x ∈ leak, x ∈ rest)
    (hQ : ∀ w', S.Inv w' → S.Done t rest T N r leak w' → Q () w') :
    S.Safe E Q (tfsFsUnlockInodes S.fs lockedInodes n len) w := by
  subst hlen
  induction ids generalizing n w with
  | nil => exact fun w' hs hi => hQ w' hi (h.env hs)
  | cons x ids ih =>
    obtain ⟨type, htype⟩ := hstored 0 x rfl
    rw [Nat.add_zero] at htype
    rw [List.cons_append, List.map_cons, List.nodup_cons] at hnodup
    rw [List.length_cons, tfsFsUnlockInodes, LockedInodes.get_of_getElem? htype,
      pure_bind]
    refine Safe.bind (tfsInodeTableUnlockInode_safe h
      (hlive x List.mem_cons_self) ?_ ?_ fun w' hi' h' => ?_)
    · exact fun y hy => ne_of_mem_of_not_mem (List.mem_map_of_mem hy) hnodup.1
    · exact fun y hy => List.mem_append_right _ (hleak y hy)
    · exact ih hstored.tail h' hnodup.2 fun y hy => hlive y (List.mem_cons_of_mem _ hy)

/-- `tfs_fs_unlock_inodes` of everything that is held. -/
theorem unlockAll_safe {Q : Unit → FsWorld ι → Prop} {lockedInodes : LockedInodes} {n len : Nat}
    (hlen : held.length = len) (hstored : Stored lockedInodes n held)
    (h : S.Done t held T N r none w) (hnodup : (held.map Prod.fst).Nodup)
    (hlive : ∀ x ∈ held, T x.1 ≠ .none)
    (hQ : ∀ w', S.Inv w' → S.Done t [] T N r none w' → Q () w') :
    S.Safe E Q (tfsFsUnlockInodes S.fs lockedInodes n len) w := by
  rw [← List.append_nil held] at h hnodup
  exact tfsFsUnlockInodes_safe hlen hstored h hnodup hlive (by simp) hQ

/-! ## The end of an operation -/

variable (S) in
/-- What holds when the operation of `t` returned: it holds the inode that it returned, or
what it holds for ever. -/
def Finished (t : ι) (r : Outcome) (w : FsWorld ι) : Prop :=
  ∃ T N leak held, S.Done t held T N r leak w ∧
    ((∃ i a, r = .ok (some i) ∧ held = [(i, a)] ∧ T i ≠ .none ∧ leak = none) ∨
      ((∀ i, r ≠ .ok (some i)) ∧ held = leak.toList ∧ ∀ x ∈ held, T x.1 ≠ .none))

theorem Done.finished_error {k : ErrorKind} (h : S.Done t [] T N (.error k) none w) :
    S.Finished t (.error k) w :=
  ⟨T, N, none, [], h, Or.inr ⟨by simp, rfl, by simp⟩⟩

theorem Done.finished_none (h : S.Done t [] T N (.ok none) none w) : S.Finished t (.ok none) w :=
  ⟨T, N, none, [], h, Or.inr ⟨by simp, rfl, by simp⟩⟩

theorem Done.finished_inode (h : S.Done t [(i, a)] T N (.ok (some i)) none w)
    (hlive : T i ≠ .none) : S.Finished t (.ok (some i)) w :=
  ⟨T, N, none, _, h, Or.inl ⟨i, a, rfl, rfl, hlive, rfl⟩⟩

theorem Finished.env (h : S.Finished t r w) {w' : FsWorld ι} (hs : E.step w w') :
    S.Finished t r w' := by
  obtain ⟨T, N, leak, held, hdone, hheld⟩ := h
  exact ⟨T, N, leak, held, hdone.env hs, hheld⟩

end Setup

end TecnicoFs
