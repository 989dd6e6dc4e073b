import TecnicoFs.Concurrent.Protocol

/-!
# The steps of a call

What a single change of the world does to the invariant and to what the other calls rely
on: taking a lock, giving one back, writing a slot, and committing.  A commit changes the
ghost value only.  Each lemma starts from what the call knows (`Local`) and says what it
knows afterwards.
-/

namespace TecnicoFs

open Interleaving Function

variable {ι : Type}

namespace Setup

variable [DecidableEq ι] {S : Setup ι} {t : ι} {held : List (Nat × TfsRwLockAccess)} {T N : Tree}
  {mine : List (Entry ι)} {slot : Option Nat} {w : FsWorld ι} {i : Nat} {a : TfsRwLockAccess}

/-! ## Locks -/

/-- **Taking a lock.**  If the slot was empty it may be recorded as taken by `t`. -/
theorem Local.acquire (h : Local t held T N mine slot w) (hi : S.Inv w)
    (hadm : RwLock.Admits (w.mem.locks i) a) (hnot : ∀ b, (i, b) ∉ held)
    {slots : ι → Option Nat} (hother : ∀ u, u ≠ t → slots u = w.ghost.slots u)
    (hgrow : ∀ j, w.ghost.slots t = some j → slots t = some j)
    (hcreates : ∀ j, slots t = some j → S.Creates t)
    (hused : S.used i ∨ ∃ u, slots u = some i) :
    S.protocol.Guar t w
      ⟨w.mem.setLocks i ((t, a) :: w.mem.locks i), { w.ghost with slots := slots }⟩ ∧
    Local t (held ++ [(i, a)]) (update T i (w.ghost.tree i)) (update N i (w.mem.node i)) mine
      (slots t) ⟨w.mem.setLocks i ((t, a) :: w.mem.locks i), { w.ghost with slots := slots }⟩ := by
  have hne : ∀ x ∈ held, x.1 ≠ i := fun x hx hxi => hnot x.2 (hxi ▸ hx)
  have hslots : ∀ u j, w.ghost.slots u = some j → slots u = some j := by
    intro u j hj
    by_cases hu : u = t
    · subst hu; exact hgrow j hj
    · rwa [hother u hu]
  refine ⟨⟨?_, ⟨[], by simp, by simp⟩, fun u hu => ?_⟩, ?_⟩
  · constructor
    · intro j
      by_cases hj : j = i
      · subst hj
        rw [Mem.setLocks_self]
        exact (hi.locks j).acquire hadm fun b hb => hnot b ((h.owns j b).mp hb)
      · rw [Mem.setLocks_of_ne hj]
        exact hi.locks j
    · intro j
      rcases hi.node j with hj | ⟨u, hcalls, hu, hj⟩
      · exact Or.inl hj
      · refine Or.inr ⟨u, hcalls, Mem.mem_acquire.mpr (Or.inl hu), ?_⟩
        rcases hj with hj | ⟨⟨b, hb⟩, hj⟩
        · exact Or.inl hj
        · exact Or.inr ⟨⟨b, Mem.mem_acquire.mpr (Or.inl hb)⟩, hj⟩
    · exact hi.replay
    · exact hi.tids
    · exact fun e he x hx => Mem.mem_acquire.mpr (Or.inl (hi.leaks e he x hx))
    · intro j hj
      by_cases hji : j = i
      · exact hji ▸ hused
      · rw [Mem.setLocks_of_ne hji] at hj
        exact (hi.used j hj).imp id fun ⟨u, hu⟩ => ⟨u, hslots u j hu⟩
    · intro u j hj
      by_cases hu : u = t
      · subst hu; exact hcreates j hj
      · exact hi.slots u j ((hother u hu).symm.trans hj)
  · exact
      { locks := fun j b => Mem.mem_acquire.trans (by simp [hu])
        node := fun _ _ _ => rfl
        tree := fun _ _ _ => rfl
        log := ⟨[], by simp, by simp⟩
        slot := hother u hu
        slots := hslots
        rootTree := fun _ => rfl
        rootNode := fun _ _ _ => rfl }
  · constructor
    · intro j b
      rw [Mem.mem_acquire, h.owns j b]
      simp
    · intro x hx
      rcases List.mem_append.mp hx with hx | hx
      · rw [update_of_ne (hne x hx)]
        exact h.tree x hx
      · rw [List.mem_singleton.mp hx, update_self]
    · intro x hx
      rcases List.mem_append.mp hx with hx | hx
      · rw [update_of_ne (hne x hx)]
        exact h.node x hx
      · rw [List.mem_singleton.mp hx, update_self]
        rfl
    · exact h.mine
    · rfl

/-- What is left after giving back slot `i`. -/
def without (i : Nat) (held : List (Nat × TfsRwLockAccess)) : List (Nat × TfsRwLockAccess) :=
  held.filter fun x => x.1 ≠ i

theorem mem_without {x : Nat × TfsRwLockAccess} : x ∈ without i held ↔ x ∈ held ∧ x.1 ≠ i := by
  simp [without]

/-- **Giving back a lock** of a slot in which table and tree agree.  The root is given back
only when they agree on all slots of the tree that `t` holds. -/
theorem Local.release (h : Local t held T N mine slot w) (hi : S.Inv w) (hN : N i = T i)
    (hmem : ∃ b, (i, b) ∈ held)
    (hroot : i = 0 → ∀ x ∈ held, T x.1 = .none ∨ N x.1 = T x.1)
    (hleak : ∀ e ∈ mine, ∀ x ∈ e.leak, x.1 ≠ i) :
    S.protocol.Guar t w ⟨w.mem.setLocks i (RwLock.release t (w.mem.locks i)), w.ghost⟩ ∧
    Local t (without i held) T N mine slot
      ⟨w.mem.setLocks i (RwLock.release t (w.mem.locks i)), w.ghost⟩ := by
  have hmem_release : ∀ {u : ι} {j : Nat} {b : TfsRwLockAccess},
      (u, b) ∈ (w.mem.setLocks i (RwLock.release t (w.mem.locks i))).locks j ↔
        (u, b) ∈ w.mem.locks j ∧ (j = i → u ≠ t) := by
    intro u j b
    by_cases hj : j = i
    · subst hj
      rw [Mem.setLocks_self]
      by_cases hu : u = t
      · subst hu
        simp [(hi.locks j).not_mem_release]
      · rw [RwLock.mem_release_of_ne hu]
        simp [hu]
    · rw [Mem.setLocks_of_ne hj]
      simp [hj]
  refine ⟨⟨?_, ⟨[], by simp, by simp⟩, fun u hu => ?_⟩, ?_⟩
  · constructor
    · intro j
      by_cases hj : j = i
      · subst hj
        rw [Mem.setLocks_self]
        exact (hi.locks j).release
      · rw [Mem.setLocks_of_ne hj]
        exact hi.locks j
    · intro j
      rcases hi.node j with hj | ⟨u, hcalls, hu, hj⟩
      · exact Or.inl hj
      by_cases hut : u = t
      swap
      · refine Or.inr ⟨u, hcalls, hmem_release.mpr ⟨hu, fun _ => hut⟩, ?_⟩
        rcases hj with hj | ⟨⟨b, hb⟩, hj⟩
        · exact Or.inl hj
        · exact Or.inr ⟨⟨b, hmem_release.mpr ⟨hb, fun _ => hut⟩⟩, hj⟩
      · subst hut
        have hheld : (j, .unique) ∈ held := (h.owns j _).mp hu
        have hnode : w.mem.node j = N j := h.node _ hheld
        have htree : w.ghost.tree j = T j := h.tree _ hheld
        by_cases hji : j = i
        · subst hji
          exact Or.inl (by rw [Mem.setLocks_node, hnode, htree, hN])
        · rcases hj with hj | ⟨⟨b, hb⟩, hj⟩
          · exact Or.inr ⟨u, hcalls, hmem_release.mpr ⟨hu, fun h => absurd h hji⟩, Or.inl hj⟩
          · by_cases hi0 : i = 0
            · rcases hroot hi0 _ hheld with h0 | h0
              · exact Or.inr ⟨u, hcalls, hmem_release.mpr ⟨hu, fun h => absurd h hji⟩,
                  Or.inl (htree.trans h0)⟩
              · exact Or.inl (by rw [Mem.setLocks_node, hnode, htree, h0])
            · exact Or.inr ⟨u, hcalls, hmem_release.mpr ⟨hu, fun h => absurd h hji⟩,
                Or.inr ⟨⟨b, hmem_release.mpr ⟨hb, fun h => absurd h.symm hi0⟩⟩, hj⟩⟩
    · exact hi.replay
    · exact hi.tids
    · intro e he x hx
      refine hmem_release.mpr ⟨hi.leaks e he x hx, fun hxi het => ?_⟩
      have hmine : e ∈ mine := by
        rw [← h.mine]
        exact List.mem_filter.mpr ⟨he, by simpa using het⟩
      exact hleak e hmine x hx hxi
    · intro j hj
      refine hi.used j (hj.imp (fun hj hnil => hj ?_) id)
      by_cases hji : j = i
      · subst hji
        rw [Mem.setLocks_self, hnil]
        rfl
      · rw [Mem.setLocks_of_ne hji, hnil]
    · exact hi.slots
  · exact
      { locks := fun j b => hmem_release.trans (by simp [hu])
        node := fun _ _ _ => rfl
        tree := fun _ _ _ => rfl
        log := ⟨[], by simp, by simp⟩
        slot := rfl
        slots := fun _ _ h => h
        rootTree := fun _ => rfl
        rootNode := fun _ _ _ => rfl }
  · constructor
    · intro j b
      rw [hmem_release, h.owns j b, mem_without]
      simp
    · exact fun x hx => h.tree x (mem_without.mp hx).1
    · exact fun x hx => h.node x (mem_without.mp hx).1
    · exact h.mine
    · exact h.slot

/-! ## Slots -/

/-- **Writing a slot** that is none of the tree, or a directory while holding the root. -/
theorem Local.write (h : Local t held T N mine slot w) (hi : S.Inv w) (hcalls : S.Calls t)
    (hmem : (i, .unique) ∈ held) {node : TfsInode}
    (hok : T i = .none ∨ (∃ b, (0, b) ∈ held) ∧ node.type = (T i).type) :
    S.protocol.Guar t w ⟨w.mem.setNode i node, w.ghost⟩ ∧
    Local t held T (update N i node) mine slot ⟨w.mem.setNode i node, w.ghost⟩ := by
  have hlock : (t, .unique) ∈ w.mem.locks i := (h.owns i _).mpr hmem
  have htree : w.ghost.tree i = T i := h.tree _ hmem
  have hne : ∀ u, u ≠ t → ∀ j b, (u, b) ∈ w.mem.locks j → j ≠ i := by
    rintro u hu j b hub rfl
    exact hu ((hi.locks j).eq_of_unique hlock hub).1
  refine ⟨⟨?_, ⟨[], by simp, by simp⟩, fun u hu => ?_⟩, ?_⟩
  · constructor
    · exact hi.locks
    · intro j
      by_cases hj : j = i
      · subst hj
        refine Or.inr ⟨t, hcalls, hlock, ?_⟩
        rw [Mem.setNode_self, htree]
        rcases hok with hok | ⟨⟨b, hb⟩, hok⟩
        · exact Or.inl hok
        · exact Or.inr ⟨⟨b, (h.owns 0 b).mpr hb⟩, hok⟩
      · rw [Mem.setNode_of_ne hj]
        exact hi.node j
    · exact hi.replay
    · exact hi.tids
    · exact hi.leaks
    · intro j hj
      by_cases hji : j = i
      · subst hji
        exact hi.used j (Or.inl (List.ne_nil_of_mem hlock))
      · rw [Mem.setNode_of_ne hji] at hj
        exact hi.used j hj
    · exact hi.slots
  · exact
      { locks := fun _ _ => Iff.rfl
        node := fun j b hb => Mem.setNode_of_ne (hne u hu j b hb)
        tree := fun _ _ _ => rfl
        log := ⟨[], by simp, by simp⟩
        slot := rfl
        slots := fun _ _ h => h
        rootTree := fun _ => rfl
        rootNode := by
          intro hr j hj
          refine Mem.setNode_of_ne ?_
          rintro rfl
          rcases hok with hok | ⟨⟨b, hb⟩, -⟩
          · exact hj (htree.trans hok)
          · exact hu ((hi.locks 0).eq_of_unique hr ((h.owns 0 b).mpr hb)).1.symm }
  · constructor
    · exact h.owns
    · exact h.tree
    · intro x hx
      by_cases hx' : x.1 = i
      · rw [hx', Mem.setNode_self, update_self]
      · rw [Mem.setNode_of_ne hx', update_of_ne hx']
        exact h.node x hx
    · exact h.mine
    · exact h.slot

/-! ## Committing -/

/-- **Committing.**  The call has all its requests, holds what it changes, and the table
is already what the call makes of it, but for slots it empties. -/
theorem Local.commit (h : Local t held T N [] slot w) (hi : S.Inv w) {c : Call}
    (hc : S.task t = .call c) {s : Nat} {e : Effect} (he : atomic w.ghost.tree s c = e)
    (hfit : Fits S.capacity w.ghost.tree s c)
    (hrequests : ∀ x ∈ requests w.ghost.tree c.plan, x ∈ held)
    (hleak : ∀ x ∈ e.leak, x ∈ held)
    (hchange : ∀ j, e.tree j ≠ w.ghost.tree j →
      (j, .unique) ∈ held ∧ (∃ b, (0, b) ∈ held) ∧ (N j = e.tree j ∨ e.tree j = .none)) :
    S.protocol.Guar t w
      ⟨w.mem, { w.ghost with tree := e.tree, log := w.ghost.log ++ [⟨t, s, e.outcome, e.leak⟩] }⟩ ∧
    Local t held e.tree N [⟨t, s, e.outcome, e.leak⟩] slot
      ⟨w.mem, { w.ghost with tree := e.tree, log := w.ghost.log ++ [⟨t, s, e.outcome, e.leak⟩] }⟩ := by
  subst he
  have hfresh := h.fresh
  have hlock : ∀ {j b}, (j, b) ∈ held → (t, b) ∈ w.mem.locks j := fun hb => (h.owns _ _).mpr hb
  refine ⟨⟨?_, ⟨[⟨t, s, (atomic w.ghost.tree s c).outcome, (atomic w.ghost.tree s c).leak⟩], rfl,
    by simp⟩, fun u hu => ?_⟩, ?_⟩
  · constructor
    · exact hi.locks
    · intro j
      by_cases hj : (atomic w.ghost.tree s c).tree j = w.ghost.tree j
      · dsimp only
        rw [hj]
        exact hi.node j
      · obtain ⟨hheld, -, hN | hnone⟩ := hchange j hj
        · exact Or.inl ((h.node _ hheld).trans hN)
        · exact Or.inr ⟨t, ⟨c, hc⟩, hlock hheld, Or.inl hnone⟩
    · refine Replay.snoc hi.replay hc hfit rfl rfl ?_
      intro x hx e' he' y hy hxy hconf
      have h₁ := hlock (hrequests x hx)
      have h₂ := hi.leaks e' he' y hy
      rw [hxy] at h₂
      obtain ⟨ha, hb⟩ := (hi.locks x.1).shared_of_ne h₁ h₂ (Ne.symm (hfresh e' he'))
      rw [ha, hb] at hconf
      exact absurd hconf (by decide)
    · rw [List.map_append, List.nodup_append]
      refine ⟨hi.tids, List.nodup_singleton _, ?_⟩
      intro u hu v hv huv
      obtain ⟨e', he', rfl⟩ := List.mem_map.mp hu
      rw [List.mem_singleton.mp hv] at huv
      exact hfresh e' he' huv
    · intro e' he' x hx
      rcases List.mem_append.mp he' with he' | he'
      · exact hi.leaks e' he' x hx
      · rw [List.mem_singleton.mp he'] at hx ⊢
        exact hlock (hleak x hx)
    · exact hi.used
    · exact hi.slots
  · exact
      { locks := fun _ _ => Iff.rfl
        node := fun _ _ _ => rfl
        tree := by
          intro j b hb
          by_contra hj
          have hlock' := hlock (hchange j hj).1
          exact hu ((hi.locks j).eq_of_unique hlock' hb).1
        log := ⟨_, rfl, fun e' he' => by rw [List.mem_singleton.mp he']; exact hu.symm⟩
        slot := rfl
        slots := fun _ _ h => h
        rootTree := by
          intro hr
          funext j
          by_contra hj
          obtain ⟨b, hb⟩ := (hchange j hj).2.1
          exact hu ((hi.locks 0).eq_of_unique hr (hlock hb)).1.symm
        rootNode := fun _ _ _ => rfl }
  · constructor
    · exact h.owns
    · exact fun _ _ => rfl
    · exact h.node
    · rw [List.filter_append, h.mine]
      simp
    · exact h.slot

end Setup

end TecnicoFs
