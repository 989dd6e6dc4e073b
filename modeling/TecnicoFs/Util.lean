import Mathlib.Data.List.Basic

/-!
# Characters and comparisons

The string helpers of `util.h` and the C library functions they rest on.  A string is
the list of its bytes.  `strncmp` stops at a NUL byte, so `tfs_str_eq` decides equality
only of strings without one; every path the file system sees is such a string.
-/

namespace TecnicoFs

/-- A `char`. -/
abbrev CChar := UInt8

/-- The byte of a character literal. -/
def cchar (c : Char) : CChar := c.toNat.toUInt8

/-- The bytes of a string literal. -/
def cstr (s : String) : List CChar := s.toList.map cchar

/-- A string without a NUL byte. -/
def NulFree (s : List CChar) : Prop := ∀ c ∈ s, c ≠ 0

-- byte by byte along the string, not over all 256 bytes
instance (s : List CChar) : Decidable (NulFree s) := List.decidableBAll (· ≠ 0) s

theorem NulFree.of_subset {s s' : List CChar} (h : NulFree s) (hs : ∀ c ∈ s', c ∈ s) :
    NulFree s' :=
  fun c hc => h c (hs c hc)

/-- `isspace` in the C locale: the blank and the control characters from TAB to CR. -/
def isspace (c : CChar) : Bool := c == 0x20 || (0x09 ≤ c && c ≤ 0x0d)

/-- `strncmp`. -/
def strncmp : List CChar → List CChar → Nat → Int
  | c :: lhs, d :: rhs, n + 1 =>
      if c ≠ d then (c.toNat : Int) - d.toNat
      else if c = 0 then 0
      else strncmp lhs rhs n
  | _, _, _ => 0

/-- Returns if two possibly non-terminated strings are equal. -/
def tfsStrEq (lhs rhs : List CChar) : Bool :=
  lhs.length == rhs.length && strncmp lhs rhs lhs.length == 0

/-- Compares two possibly non-terminated strings, by length first. -/
def tfsStrCmp (lhs rhs : List CChar) : Int :=
  if lhs.length < rhs.length then -1
  else if lhs.length > rhs.length then 1
  else strncmp lhs rhs lhs.length

/-- Returns the maximum value between `lhs` and `rhs`. -/
def tfsMaxSizeT (lhs rhs : Nat) : Nat := if lhs > rhs then lhs else rhs

theorem strncmp_eq_zero_iff {lhs rhs : List CChar} (hl : NulFree lhs)
    (hlen : lhs.length = rhs.length) : strncmp lhs rhs lhs.length = 0 ↔ lhs = rhs := by
  induction lhs generalizing rhs with
  | nil => simpa [strncmp] using (List.length_eq_zero_iff.mp hlen.symm).symm
  | cons c lhs ih =>
    cases rhs with
    | nil => simp at hlen
    | cons d rhs =>
      have hc : c ≠ 0 := hl c List.mem_cons_self
      have hlt : NulFree lhs := fun x hx => hl x (List.mem_cons_of_mem _ hx)
      rw [List.length_cons, strncmp]
      by_cases hcd : c = d
      · subst hcd
        rw [if_neg (by simp), if_neg hc, ih hlt (by simpa using hlen)]
        simp
      · rw [if_pos hcd]
        have hne : c.toNat ≠ d.toNat := fun h => hcd (UInt8.toNat_inj.mp h)
        constructor
        · intro h; omega
        · intro h; exact absurd (List.cons.inj h).1 hcd

/-- **`tfs_str_eq` is equality**, of strings without NUL. -/
theorem tfsStrEq_iff {lhs rhs : List CChar} (hl : NulFree lhs) :
    tfsStrEq lhs rhs = true ↔ lhs = rhs := by
  rw [tfsStrEq, Bool.and_eq_true, beq_iff_eq, beq_iff_eq]
  constructor
  · rintro ⟨hlen, hcmp⟩
    exact (strncmp_eq_zero_iff hl hlen).mp hcmp
  · rintro rfl
    exact ⟨rfl, (strncmp_eq_zero_iff hl rfl).mpr rfl⟩

theorem strncmp_eq_zero_comm {lhs rhs : List CChar} {n : Nat} (h : strncmp lhs rhs n = 0) :
    strncmp rhs lhs n = 0 := by
  induction lhs generalizing rhs n with
  | nil => cases rhs <;> rfl
  | cons c lhs ih =>
    cases rhs with
    | nil => rfl
    | cons d rhs =>
      cases n with
      | zero => rfl
      | succ n =>
        rw [strncmp] at h ⊢
        by_cases hcd : c = d
        · subst hcd
          rw [if_neg (by simp)] at h ⊢
          by_cases hc : c = 0
          · rw [if_pos hc]
          · rw [if_neg hc] at h ⊢
            exact ih h
        · rw [if_pos hcd] at h
          have hne : c.toNat ≠ d.toNat := fun h => hcd (UInt8.toNat_inj.mp h)
          omega

theorem tfsStrEq_comm (lhs rhs : List CChar) : tfsStrEq lhs rhs = tfsStrEq rhs lhs := by
  have key : ∀ l r : List CChar, tfsStrEq l r = true → tfsStrEq r l = true := by
    intro l r h
    rw [tfsStrEq, Bool.and_eq_true, beq_iff_eq, beq_iff_eq] at h ⊢
    exact ⟨h.1.symm, h.1 ▸ strncmp_eq_zero_comm h.2⟩
  exact Bool.eq_iff_iff.mpr ⟨key lhs rhs, key rhs lhs⟩

theorem tfsStrEq_eq_false_iff {lhs rhs : List CChar} (hl : NulFree lhs) :
    tfsStrEq lhs rhs = false ↔ lhs ≠ rhs := by
  rw [← Bool.not_eq_true, tfsStrEq_iff hl]

end TecnicoFs
