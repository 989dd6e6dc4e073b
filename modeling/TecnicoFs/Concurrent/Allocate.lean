import TecnicoFs.Concurrent.Release

/-!
# Allocating a slot

`tfs_inode_table_add` looks for an empty slot by trying the locks of all slots in turn.
A slot that it passes counts as used from then on: it is not empty, or someone holds it.
The slot that it takes is recorded in the ghost value.  So if it passes all of them, the
creations have taken all slots that were empty, and there was no room for them.
-/

namespace TecnicoFs

open Interleaving Function

variable {ι : Type} [DecidableEq ι]

namespace Setup

variable {S : Setup ι} {t : ι} {E : S.protocol.Env t} {held : List (Nat × TfsRwLockAccess)}
  {T N : Tree} {w : FsWorld ι}

variable (S) in
/-- The slots below `n` are used, or a creation took them. -/
def Scanned (n : Nat) (w : FsWorld ι) : Prop :=
  ∀ j < n, S.used j ∨ ∃ u, w.ghost.slots u = some j

omit [DecidableEq ι] in
theorem Scanned.env {n : Nat} (h : S.Scanned n w) {w' : FsWorld ι} (hs : E.step w w') :
    S.Scanned n w' := by
  intro j hj
  exact (h j hj).imp id fun ⟨u, hu⟩ => ⟨u, (E.rely_of_step hs).slots u j hu⟩

omit [DecidableEq ι] in
theorem Scanned.succ {n : Nat} (h : S.Scanned n w)
    (hn : S.used n ∨ ∃ u, w.ghost.slots u = some n) : S.Scanned (n + 1) w := by
  intro j hj
  rcases Nat.lt_succ_iff_lt_or_eq.mp hj with hj | rfl
  · exact h j hj
  · exact hn

/-- **A creation that finds no slot is one too many.** -/
theorem Scanned.not_room (h : S.Scanned S.capacity w) (hi : S.Inv w) (hcreates : S.Creates t)
    (hslot : w.ghost.slots t = none) : ¬S.Room := by
  rintro ⟨U, C, hU, hC, hcard⟩
  have hsub : Finset.range S.capacity ⊆
      U ∪ (C.erase t).image fun u => (w.ghost.slots u).getD 0 := by
    intro j hj
    rw [Finset.mem_union, Finset.mem_image]
    rcases h j (Finset.mem_range.mp hj) with hused | ⟨u, hu⟩
    · exact Or.inl (hU j (Finset.mem_range.mp hj) hused)
    · refine Or.inr ⟨u, Finset.mem_erase.mpr ⟨?_, hC u (hi.slots u j hu)⟩, by rw [hu]; rfl⟩
      rintro rfl
      rw [hslot] at hu
      cases hu
  have hle := (Finset.card_le_card hsub).trans (Finset.card_union_le _ _)
  have himage : ((C.erase t).image fun u => (w.ghost.slots u).getD 0).card ≤ (C.erase t).card :=
    Finset.card_image_le
  have herase := Finset.card_erase_lt_of_mem (hC t hcreates)
  rw [Finset.card_range] at hle
  omega

/-- **The search for an empty slot.** -/
theorem tfsInodeTableAdd_loop_safe {Q : Option Nat → FsWorld ι → Prop} (hcreates : S.Creates t)
    (hroot : ∃ b, (0, b) ∈ held) {k n : Nat} (hkn : n + k = S.capacity)
    (h : Local t held T N [] none w) (hscan : S.Scanned n w)
    (hnone : ∀ w', S.Inv w' → Local t held T N [] none w' → S.Scanned S.capacity w' → Q none w')
    (hsome : ∀ w' i, S.Inv w' → i < S.capacity → (∀ x ∈ held, x.1 ≠ i) →
      Local t (held ++ [(i, .unique)]) (update T i .none) (update N i .none) [] (some i) w' →
      Q (some i) w') :
    S.Safe E Q (tfsInodeTableAdd.loop k n) w := by
  induction k generalizing n w with
  | zero =>
    obtain rfl : n = S.capacity := hkn
    exact fun w' hs hi => hnone w' hi (h.env hs) (hscan.env hs)
  | succ k ih =>
    rw [tfsInodeTableAdd.loop]
    refine Safe.bind fun w₁ hs₁ hi₁ => ⟨trivial, fun r m he => ?_⟩
    have h₁ := h.env hs₁
    have hscan₁ := hscan.env hs₁
    rcases exec_tryLock he with ⟨rfl, hadm, rfl⟩ | ⟨rfl, hadm, rfl⟩
    swap
    · -- someone holds the slot
      have hlocked : w₁.mem.locks n ≠ [] := hadm
      refine ⟨w₁.ghost, Guar.refl hi₁ t, fun w₂ hs₂ _ => ?_⟩
      exact ih (by omega) (h₁.env hs₂) ((hscan₁.succ (hi₁.used n (Or.inl hlocked))).env hs₂)
    have hfree : w₁.mem.locks n = [] := hadm
    have hnot : ∀ b, (n, b) ∉ held := by
      intro b hb
      have hmem := (h₁.owns n b).mpr hb
      rw [hfree] at hmem
      cases hmem
    have hne : ∀ x ∈ held, x.1 ≠ n := fun x hx hxn => hnot x.2 (hxn ▸ hx)
    have hnode : w₁.mem.node n = w₁.ghost.tree n := hi₁.node_eq fun u hu => by
      rw [hfree] at hu
      cases hu
    have hmem : (n, Access.unique) ∈ held ++ [(n, .unique)] := by simp
    by_cases hempty : w₁.mem.node n = .none
    · -- the slot is taken
      obtain ⟨hg, h₂⟩ := h₁.acquire hi₁ hadm hnot
        (fun u hu => update_of_ne hu (some n) w₁.ghost.slots)
        (fun j hj => by rw [h₁.slot] at hj; cases hj) (fun _ _ => hcreates)
        (Or.inr ⟨t, update_self ..⟩)
      rw [← hnode, hempty, update_self] at h₂
      refine ⟨_, hg, fun w₂ hs₂ _ => Safe.bind ?_⟩
      refine safe_read (h₂.env hs₂) hmem fun w₃ _ h₃ => ?_
      rw [update_self, if_pos (show TfsInode.none.type = .none from rfl)]
      exact safe_pure h₃ fun w₄ hi₄ h₄ => hsome w₄ n hi₄ (by omega) hne h₄
    · -- the slot is in use
      have hused := hi₁.used n (Or.inr hempty)
      have hn0 : n ≠ 0 := by
        rintro rfl
        obtain ⟨b, hb⟩ := hroot
        exact hnot b hb
      obtain ⟨hg, h₂⟩ := h₁.acquire hi₁ hadm hnot (fun _ _ => rfl) (fun _ hj => hj)
        (fun j hj => hi₁.slots t j hj) hused
      rw [h₁.slot] at h₂
      have hscan₂ : S.Scanned (n + 1)
          ⟨w₁.mem.setLocks n ((t, .unique) :: w₁.mem.locks n), w₁.ghost⟩ := hscan₁.succ hused
      refine ⟨_, hg, fun w₂ hs₂ _ => Safe.bind ?_⟩
      refine safe_read_env (h₂.env hs₂) hmem fun w₃ hs₃ _ => ?_
      rw [update_self, if_neg (mt TfsInode.type_eq_none_iff.mp hempty)]
      have h₃ := (h₂.env hs₂).env hs₃
      refine Safe.bind fun w₄ hs₄ hi₄ => ?_
      have h₄ := h₃.env hs₄
      refine ⟨⟨.unique, (h₄.owns n _).mpr hmem⟩, fun _ m he => ?_⟩
      obtain rfl := exec_unlock he
      obtain ⟨hg₄, h₅⟩ := h₄.release hi₄ (by rw [update_self, update_self, hnode])
        ⟨_, hmem⟩ (fun h0 => absurd h0 hn0) (by simp)
      have hscan₄ := ((hscan₂.env hs₂).env hs₃).env hs₄
      have hscan₅ : S.Scanned (n + 1)
          ⟨w₄.mem.setLocks n (RwLock.release t (w₄.mem.locks n)), w₄.ghost⟩ := hscan₄
      refine ⟨w₄.ghost, hg₄, fun w₅ hs₅ _ => ?_⟩
      refine ih (by omega) ((h₅.env hs₅).congr (fun x => ?_) ?_ ?_) (hscan₅.env hs₅)
      · rw [mem_without, List.mem_append, List.mem_singleton]
        refine ⟨fun hx => ⟨Or.inl hx, hne x hx⟩, ?_⟩
        rintro ⟨hx | rfl, hxn⟩
        · exact hx
        · exact absurd rfl hxn
      · exact fun x hx => (update_of_ne (mem_without.mp hx).2 ..).symm
      · exact fun x hx => (update_of_ne (mem_without.mp hx).2 ..).symm

/-- **`tfs_inode_table_add`.** -/
theorem tfsInodeTableAdd_safe {Q : Nat → FsWorld ι → Prop} (hcreates : S.Creates t)
    (hroot : ∃ b, (0, b) ∈ held) {type : TfsInodeType} (htype : type ≠ .none)
    (h : Local t held T N [] none w)
    (hQ : ∀ w' i, S.Inv w' → i < S.capacity → (∀ x ∈ held, x.1 ≠ i) →
      Local t (held ++ [(i, .unique)]) (update T i .none) (update N i (tfsInodeInit type)) []
        (some i) w' → Q i w') :
    S.Safe E Q (tfsInodeTableAdd S.fs.inodeTable type) w := by
  have hcalls : S.Calls t := by
    obtain ⟨path, type', hc⟩ := hcreates
    exact ⟨_, hc⟩
  refine Safe.bind (safe_assert h (decide_eq_true htype) (fun _ _ _ => trivial) fun w₁ _ h₁ => ?_)
  refine Safe.bind (tfsInodeTableAdd_loop_safe hcreates hroot (Nat.zero_add _) h₁
    (fun j hj => absurd hj (Nat.not_lt_zero j)) ?_ ?_)
  · -- the assertion fails, so nothing is left to do
    intro w₂ hi₂ h₂ hscan
    refine Safe.bind fun w₃ hs₃ hi₃ => ⟨?_, fun r m he => ?_⟩
    · exact Or.inr ((hscan.env hs₃).not_room hi₃ hcreates (h₂.env hs₃).slot)
    · exact absurd (exec_assert he).1 (by simp)
  · intro w₂ i hi₂ hcap hne h₂
    have hmem : (i, Access.unique) ∈ held ++ [(i, .unique)] := by simp
    have hdead : update T i TfsInode.none i = .none := update_self ..
    refine Safe.bind (safe_assert h₂ rfl (fun _ _ _ => trivial) fun w₃ _ h₃ => ?_)
    refine Safe.bind (safe_write h₃ hcalls hmem (Or.inl hdead) fun w₄ _ h₄ => ?_)
    refine Safe.bind (safe_write h₄ hcalls hmem (Or.inl hdead) fun w₅ _ h₅ => ?_)
    rw [update_idem, update_idem] at h₅
    exact safe_pure h₅ fun w₆ hi₆ h₆ => hQ w₆ i hi₆ hcap hne h₆

end Setup

end TecnicoFs
