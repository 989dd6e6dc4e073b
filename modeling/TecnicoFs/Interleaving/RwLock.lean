import Mathlib.Data.List.Nodup

/-!
# Read-write locks

A read-write lock is the list of its holders, each with the access it was granted.  It
admits a shared holder next to shared holders only, and a unique holder next to none.

A lock is `Ok` when no thread holds it twice and a unique holder is alone.  Admission
alone keeps the second part; the first is up to the threads, which must not ask for what
they hold.
-/

namespace Interleaving

variable {ι : Type}

/-- The type of access to a lock. -/
inductive Access where
  | shared
  | unique
  deriving DecidableEq, Repr, Inhabited

/-- Two accesses exclude each other unless both are shared. -/
def Access.Conflict (a b : Access) : Prop := a = .unique ∨ b = .unique

instance (a b : Access) : Decidable (a.Conflict b) :=
  inferInstanceAs (Decidable (a = .unique ∨ b = .unique))

namespace RwLock

/-- The lock can be granted. -/
def Admits (h : List (ι × Access)) : Access → Prop
  | .shared => ∀ x ∈ h, x.2 = .shared
  | .unique => h = []

instance (h : List (ι × Access)) : (a : Access) → Decidable (Admits h a)
  | .shared => inferInstanceAs (Decidable (∀ x ∈ h, x.2 = .shared))
  | .unique => decidable_of_iff (h.isEmpty = true) List.isEmpty_iff

/-- The holders after `t` gave up one hold. -/
def release [DecidableEq ι] (t : ι) (h : List (ι × Access)) : List (ι × Access) :=
  h.eraseP fun x => x.1 = t

/-- No thread holds the lock twice, and a unique holder is alone. -/
structure Ok (h : List (ι × Access)) : Prop where
  nodup : (h.map Prod.fst).Nodup
  alone : ∀ t, (t, .unique) ∈ h → h = [(t, .unique)]

variable {h : List (ι × Access)} {t u : ι} {a b : Access}

theorem ok_nil : Ok ([] : List (ι × Access)) := ⟨List.nodup_nil, by simp⟩

theorem not_admits_iff : ¬ Admits h a ↔ ∃ x ∈ h, a.Conflict x.2 := by
  cases a with
  | shared =>
    have hacc : ∀ b : Access, ¬b = .shared ↔ b = .unique := by
      intro b
      cases b <;> simp
    simp [Admits, Access.Conflict, hacc]
  | unique => simp [Admits, Access.Conflict, List.eq_nil_iff_forall_not_mem]

theorem Ok.acquire (hok : Ok h) (hadm : Admits h a) (ht : ∀ b, (t, b) ∉ h) :
    Ok ((t, a) :: h) := by
  refine ⟨?_, ?_⟩
  · rw [List.map_cons, List.nodup_cons]
    exact ⟨by simpa using ht, hok.nodup⟩
  · intro u hu
    rcases List.mem_cons.mp hu with heq | hmem
    · obtain ⟨rfl, rfl⟩ := Prod.mk.inj heq
      rw [show h = [] from hadm]
    · -- the old holders are no unique ones
      cases a with
      | shared => exact absurd ((hadm : ∀ x ∈ h, x.2 = .shared) _ hmem) (by simp)
      | unique => exact absurd hmem (by rw [show h = [] from hadm]; simp)

/-- A thread that has a hold excludes all others, or they share. -/
theorem Ok.eq_of_unique (hok : Ok h) (hu : (u, .unique) ∈ h) (ht : (t, a) ∈ h) :
    t = u ∧ a = .unique := by
  rw [hok.alone u hu] at ht
  simpa using ht

/-- Threads that hold the same lock share it, if they differ. -/
theorem Ok.shared_of_ne (hok : Ok h) (ht : (t, a) ∈ h) (hu : (u, b) ∈ h) (hne : t ≠ u) :
    a = .shared ∧ b = .shared := by
  cases a with
  | unique => exact absurd (hok.eq_of_unique ht hu).1.symm hne
  | shared =>
    cases b with
    | unique => exact absurd (hok.eq_of_unique hu ht).1 hne
    | shared => exact ⟨rfl, rfl⟩

variable [DecidableEq ι]

theorem mem_release_of_ne (hne : u ≠ t) : (u, b) ∈ release t h ↔ (u, b) ∈ h :=
  List.mem_eraseP_of_neg (by simpa using hne)

theorem release_subset : release t h ⊆ h := List.eraseP_subset

theorem Ok.not_mem_release (hok : Ok h) : (t, b) ∉ release t h := by
  intro hmem
  obtain ⟨hn, -⟩ := hok
  induction h with
  | nil => simp [release] at hmem
  | cons x h ih =>
    rw [List.map_cons, List.nodup_cons] at hn
    by_cases hx : x.1 = t
    · have hmem' : (t, b) ∈ h := by simpa [release, List.eraseP_cons, hx] using hmem
      exact hn.1 (hx ▸ List.mem_map_of_mem hmem')
    · rw [release, List.eraseP_cons_of_neg (by simpa using hx)] at hmem
      rcases List.mem_cons.mp hmem with rfl | hmem
      · exact hx rfl
      · exact ih hmem hn.2

theorem Ok.release (hok : Ok h) : Ok (release t h) := by
  refine ⟨hok.nodup.sublist (List.eraseP_sublist.map _), fun u hu => ?_⟩
  have hall := hok.alone u (release_subset hu)
  by_cases hut : u = t
  · subst hut
    exact absurd hu hok.not_mem_release
  · rw [hall, RwLock.release, List.eraseP_cons_of_neg (by simpa using hut), List.eraseP_nil]

end RwLock

end Interleaving
