import TecnicoFs.Interleaving.Program

/-!
# Two programs at once

Two programs are alike when they take the same actions, whatever the answers are, and return
related results.  Nothing is said about the machine: alike programs are answered alike by
every one, and leave the same memory behind (`Alike.run`).

A relation between two runs is thereby shown by walking through the two texts in step, with
the rule of composition; where they agree letter by letter there is nothing to show.
-/

namespace Interleaving

namespace Prog

variable {Op : Type} {Resp : Op → Type} {ι σ α α' β β' : Type}

/-- **The programs take the same actions**, and return results related by `R`. -/
inductive Alike (R : α → α' → Prop) : Prog Op Resp α → Prog Op Resp α' → Prop where
  | ret {a : α} {a' : α'} (h : R a a') : Alike R (ret a) (ret a')
  | act (o : Op) {k : Resp o → Prog Op Resp α} {k' : Resp o → Prog Op Resp α'}
      (h : ∀ r, Alike R (k r) (k' r)) : Alike R (act o k) (act o k')

namespace Alike

variable {R : α → α' → Prop} {S : β → β' → Prop} {p q : Prog Op Resp α}
  {p' q' : Prog Op Resp α'}

theorem refl {R : α → α → Prop} (hR : ∀ a, R a a) (p : Prog Op Resp α) : Alike R p p := by
  induction p with
  | ret a => exact ret (hR a)
  | act o k ih => exact act o ih

theorem of_eq (h : p = q) : Alike Eq p q := h ▸ refl (fun _ => rfl) p

/-- Programs that also return the same are the same. -/
protected theorem eq (h : Alike Eq p q) : p = q := by
  induction h with
  | ret h => exact congrArg Prog.ret h
  | act o _ ih => exact congrArg (Prog.act o) (funext ih)

/-- The rule of composition. -/
theorem bind {f : α → Prog Op Resp β} {f' : α' → Prog Op Resp β'} (h : Alike R p p')
    (hf : ∀ a a', R a a' → Alike S (f a) (f' a')) : Alike S (p >>= f) (p' >>= f') := by
  induction h with
  | ret h => exact hf _ _ h
  | act o _ ih => exact act o ih

/-- Two programs that begin with the same one. -/
theorem bind_same {f : α → Prog Op Resp β} {f' : α → Prog Op Resp β'} (p : Prog Op Resp α)
    (hf : ∀ a, Alike S (f a) (f' a)) : Alike S (p >>= f) (p >>= f') :=
  (refl (fun _ => rfl) p).bind fun a _ h => h ▸ hf a

/-- Two programs that branch alike. -/
theorem ite {c c' : Prop} [Decidable c] [Decidable c'] (hc : c ↔ c')
    (h : c → Alike R p p') (hq : ¬c → Alike R q q') :
    Alike R (if c then p else q) (if c' then p' else q') := by
  by_cases hif : c
  · rw [if_pos hif, if_pos (hc.mp hif)]
    exact h hif
  · rw [if_neg hif, if_neg fun hif' => hif (hc.mpr hif')]
    exact hq hif

/-- **Alike programs run alike.** -/
theorem run {M : Machine Op Resp ι σ} {t : ι} (h : Alike R p p') (s : σ) :
    Option.Rel (fun x y => R x.1 y.1 ∧ x.2 = y.2) (p.run M t s) (p'.run M t s) := by
  induction h generalizing s with
  | ret h => exact .some ⟨h, rfl⟩
  | act o _ ih =>
    rw [run_act, run_act]
    cases M.exec t o s with
    | none => exact .none
    | some x => exact ih x.1 x.2

end Alike

end Prog

end Interleaving
