import TecnicoFs.Util
import TecnicoFs.Text.Pieces

/-!
# Paths

`path.c`.  A path is a slice of a string: a pointer and a length.  The model keeps the
pointer as an address and the slice as its bytes, so that the pointer differences of the
source are differences of addresses.

The source walks a path by popping components off either end.  What the pops mean is said
in terms of `comps`, the components of a string: cut at every `/`, trim each part, drop
the empty ones.  `tfsPathPopFirst_spec` and `tfsPathPopLast_spec` are the two ends, and
`Rest` follows a path through any number of pops from the front, together with the
addresses.
-/

namespace TecnicoFs

/-! ## The source -/

/-- A file system path: the address of its first character and its characters. -/
structure TfsPath where
  chars : Nat
  str : List CChar
  deriving DecidableEq, Repr

/-- Number of characters. -/
def TfsPath.len (self : TfsPath) : Nat := self.str.length

/-- `/` -/
def slash : CChar := 0x2f

def isSlashOrSpace (ch : CChar) : Bool := ch == slash || isspace ch

/-- A null-terminated string at some address, as a path. -/
def tfsPathFromCstr (chars : Nat) (cstr : List CChar) : TfsPath := ⟨chars, cstr⟩

/-- Removes any leading and trailing slashes and whitespace. -/
def tfsPathTrim (self : TfsPath) : TfsPath :=
  let str := self.str.dropWhile isSlashOrSpace
  ⟨self.chars + (self.str.length - str.length), str.rdropWhile isSlashOrSpace⟩

/-- Pops the first component; the second value is what the source stores in `rest`. -/
def tfsPathPopFirst (self : TfsPath) : TfsPath × TfsPath :=
  let self := tfsPathTrim self
  match self.str.findIdx? (· == slash) with
  | none => (self, ⟨self.chars + self.len, []⟩)
  | some firstSepPos =>
      (tfsPathTrim ⟨self.chars, self.str.take firstSepPos⟩,
        tfsPathTrim ⟨self.chars + firstSepPos, self.str.drop firstSepPos⟩)

/-- The loop that looks for the last `/` below position `n`, from the end. -/
def lastSepPos (str : List CChar) : Nat → Option Nat
  | 0 => none
  | n + 1 => if str[n]? = some slash then some n else lastSepPos str n

/-- Pops the last component; the second value is what the source stores in `rest`. -/
def tfsPathPopLast (self : TfsPath) : TfsPath × TfsPath :=
  let self := tfsPathTrim self
  match lastSepPos self.str self.len with
  | none => (self, ⟨self.chars + self.len, []⟩)
  | some lastSepPos =>
      (tfsPathTrim ⟨self.chars + lastSepPos, self.str.drop lastSepPos⟩,
        tfsPathTrim ⟨self.chars, self.str.take lastSepPos⟩)

theorem str_tfsPathTrim (p : TfsPath) :
    (tfsPathTrim p).str = Text.trim isSlashOrSpace p.str := rfl

theorem tfsPathTrim_len_le (p : TfsPath) : (tfsPathTrim p).len ≤ p.len :=
  Text.length_trim_le isSlashOrSpace p.str

theorem lastSepPos_lt {str : List CChar} {n k : Nat} (h : lastSepPos str n = some k) :
    k < n ∧ str[k]? = some slash := by
  induction n with
  | zero => simp [lastSepPos] at h
  | succ n ih =>
    rw [lastSepPos] at h
    split at h
    · rename_i hn
      obtain rfl : n = k := by simpa using h
      exact ⟨by omega, hn⟩
    · exact ⟨by have := (ih h).1; omega, (ih h).2⟩

/-- Popping a component off the front of a path that has one leaves less. -/
theorem tfsPathPopFirst_rest_len_lt {p : TfsPath} (h : p.len ≠ 0) :
    (tfsPathPopFirst p).2.len < p.len := by
  have htrim := tfsPathTrim_len_le p
  rw [tfsPathPopFirst]
  split
  · simpa [TfsPath.len] using Nat.pos_of_ne_zero h
  · rename_i n hn
    have hdrop := tfsPathTrim_len_le ⟨(tfsPathTrim p).chars + n, (tfsPathTrim p).str.drop n⟩
    have hlt : n < (tfsPathTrim p).str.length := (List.findIdx?_eq_some_iff_getElem.mp hn).1
    rcases Nat.eq_zero_or_pos n with rfl | hpos
    · -- a trimmed path does not start with a separator
      have hsep := (List.findIdx?_eq_some_iff_getElem.mp hn).2.1
      have hhead := (Text.trimmed_trim isSlashOrSpace p.str).1 ((tfsPathTrim p).str[0])
        (by rw [← str_tfsPathTrim, List.head?_eq_getElem?, List.getElem?_eq_getElem hlt]; rfl)
      rw [isSlashOrSpace, Bool.or_eq_false_iff] at hhead
      rw [hhead.1] at hsep
      cases hsep
    · rw [TfsPath.len, TfsPath.len, List.length_drop] at hdrop
      rw [TfsPath.len] at *
      show (tfsPathTrim _).str.length < _
      omega

/-- Popping a component off the end of a path that has one leaves less. -/
theorem tfsPathPopLast_rest_len_lt {p : TfsPath} (h : p.len ≠ 0) :
    (tfsPathPopLast p).2.len < p.len := by
  have htrim := tfsPathTrim_len_le p
  rw [tfsPathPopLast]
  split
  · simpa [TfsPath.len] using Nat.pos_of_ne_zero h
  · rename_i n hn
    have htake := tfsPathTrim_len_le ⟨(tfsPathTrim p).chars, (tfsPathTrim p).str.take n⟩
    have hlt := (lastSepPos_lt hn).1
    rw [TfsPath.len, TfsPath.len, List.length_take] at htake
    rw [TfsPath.len] at *
    show (tfsPathTrim _).str.length < _
    omega

theorem tfsPathPopFirst_of_len_eq_zero {p : TfsPath} (h : p.len = 0) :
    (tfsPathPopFirst p).1.len = 0 := by
  obtain ⟨a, str⟩ := p
  obtain rfl : str = [] := List.length_eq_zero_iff.mp h
  rfl

/-- Checks if two paths contain the same components. -/
def tfsPathEq (lhs rhs : TfsPath) : Bool :=
  let lhsFirst := (tfsPathPopFirst lhs).1
  let rhsFirst := (tfsPathPopFirst rhs).1
  if lhsFirst.len = 0 ∨ rhsFirst.len = 0 then lhsFirst.len = 0 && rhsFirst.len = 0
  else if !tfsStrEq lhsFirst.str rhsFirst.str then false
  else tfsPathEq (tfsPathPopFirst lhs).2 (tfsPathPopFirst rhs).2
termination_by lhs.len
decreasing_by
  rename_i h _
  exact tfsPathPopFirst_rest_len_lt fun hl => h (Or.inl (tfsPathPopFirst_of_len_eq_zero hl))

/-- Returns the number of components in this path. -/
def tfsPathComponentsLen (self : TfsPath) : Nat := loop (tfsPathTrim self)
where
  loop (self : TfsPath) : Nat :=
    if self.len ≠ 0 then loop (tfsPathPopLast self).2 + 1 else 0
  termination_by self.len
  decreasing_by exact tfsPathPopLast_rest_len_lt ‹_›

/-- What `tfs_path_common_ancestor` computes. -/
structure CommonAncestor where
  ancestor : TfsPath
  lhsRest : TfsPath
  rhsRest : TfsPath
  deriving DecidableEq

/-- Retrieves the common ancestor of two paths. -/
def tfsPathCommonAncestor (lhs rhs : TfsPath) : CommonAncestor := loop lhs rhs
where
  loop (curLhs curRhs : TfsPath) : CommonAncestor :=
    let curLhsFirst := (tfsPathPopFirst curLhs).1
    let curRhsFirst := (tfsPathPopFirst curRhs).1
    if (curLhsFirst.len = 0 ∧ curRhsFirst.len = 0) ∨
        (!tfsStrEq curLhsFirst.str curRhsFirst.str) = true then
      { ancestor := tfsPathTrim ⟨lhs.chars, lhs.str.take (curLhs.chars - lhs.chars)⟩
        lhsRest := curLhs
        rhsRest := curRhs }
    else loop (tfsPathPopFirst curLhs).2 (tfsPathPopFirst curRhs).2
  termination_by curLhs.len
  decreasing_by
    rename_i h
    refine tfsPathPopFirst_rest_len_lt fun hl => h ?_
    have hl' := tfsPathPopFirst_of_len_eq_zero hl
    by_cases hr : curRhsFirst.len = 0
    · exact Or.inl ⟨hl', hr⟩
    · refine Or.inr ?_
      rw [TfsPath.len] at hl' hr
      simp [tfsStrEq, curLhsFirst, hl', Ne.symm hr]

example : tfsPathComponentsLen ⟨0, [0x2f, 0x61, 0x20, 0x2f, 0x20, 0x2f, 0x62]⟩ = 2 := by
  decide +kernel

/-! ## Components -/

/-- The components of a string: the pieces between slashes, whitespace trimmed, the empty
ones dropped. -/
def comps (str : List CChar) : List (List CChar) := Text.pieces (· == slash) isspace str

theorem comps_append_slash (a b : List CChar) : comps (a ++ slash :: b) = comps a ++ comps b :=
  Text.pieces_append_cons rfl a b

theorem comps_append_left {a : List CChar} (ha : ∀ c ∈ a, isSlashOrSpace c = true)
    (b : List CChar) : comps (a ++ b) = comps b :=
  Text.pieces_append_left ha b

theorem comps_append_right {b : List CChar} (hb : ∀ c ∈ b, isSlashOrSpace c = true)
    (a : List CChar) : comps (a ++ b) = comps a :=
  Text.pieces_append_right hb a

@[simp] theorem comps_trim (str : List CChar) :
    comps (Text.trim isSlashOrSpace str) = comps str :=
  Text.pieces_trim str

@[simp] theorem comps_tfsPathTrim (p : TfsPath) : comps (tfsPathTrim p).str = comps p.str :=
  comps_trim p.str

@[simp] theorem comps_nil : comps [] = [] := Text.pieces_nil

/-- A trimmed path has a component unless it is empty. -/
theorem comps_eq_nil_iff_of_trimmed {str : List CChar} (h : Text.Trimmed isSlashOrSpace str) :
    comps str = [] ↔ str = [] := by
  rw [comps, Text.pieces_eq_nil_iff]
  constructor
  · intro hall
    rw [← h.trim_eq]
    exact Text.trim_eq_nil_iff.mpr hall
  · rintro rfl
    simp

/-- The names that occur as components: not empty, without `/`, without whitespace at
either end. -/
structure IsName (name : List CChar) : Prop where
  ne_nil : name ≠ []
  noSlash : ∀ c ∈ name, c ≠ slash
  trimmed : Text.Trimmed isspace name

theorem isName_of_mem_comps {str name : List CChar} (h : name ∈ comps str) : IsName name := by
  obtain ⟨h₁, h₂, h₃, -⟩ := Text.of_mem_pieces h
  exact ⟨h₁, fun c hc => by simpa using h₂ c hc, h₃⟩

theorem nulFree_of_mem_comps {str name : List CChar} (hs : NulFree str) (h : name ∈ comps str) :
    NulFree name :=
  hs.of_subset (Text.of_mem_pieces h).2.2.2

theorem nulFree_comps {str : List CChar} (hs : NulFree str) : ∀ c ∈ comps str, NulFree c :=
  fun _ => nulFree_of_mem_comps hs

/-- The trimming of a string that has no slash is its only component, unless empty. -/
theorem comps_of_noSlash {str : List CChar} (h : ∀ c ∈ str, c ≠ slash) :
    comps str = [Text.trim isSlashOrSpace str].filter fun m => !m.isEmpty := by
  have hsep : ∀ c ∈ Text.trim isSlashOrSpace str, (c == slash) = false := by
    obtain ⟨a, b, hab, -⟩ := Text.exists_eq_append_trim isSlashOrSpace str
    intro c hc
    simpa using h c (by rw [hab]; simp [hc])
  by_cases hnil : Text.trim isSlashOrSpace str = []
  · rw [← comps_trim, hnil]
    simp
  · have ht := Text.trimmed_trim isSlashOrSpace str
    rw [← comps_trim, comps, Text.pieces_eq_singleton hsep ⟨?_, ?_⟩ hnil]
    · simp [hnil]
    · exact fun c hc => (Bool.or_eq_false_iff.mp (ht.1 c hc)).2
    · exact fun c hc => (Bool.or_eq_false_iff.mp (ht.2 c hc)).2

/-! ## Popping from the front -/

theorem trimmed_tfsPathTrim (p : TfsPath) : Text.Trimmed isSlashOrSpace (tfsPathTrim p).str :=
  Text.trimmed_trim isSlashOrSpace p.str

/-- Where the trimming of a path lies in the path. -/
theorem tfsPathTrim_split (p : TfsPath) :
    ∃ a b, p.str = a ++ (tfsPathTrim p).str ++ b ∧ (∀ c ∈ a, isSlashOrSpace c = true) ∧
      (∀ c ∈ b, isSlashOrSpace c = true) ∧ (tfsPathTrim p).chars = p.chars + a.length ∧
      (p.str.head? = some slash → ∃ a', a = slash :: a') := by
  refine ⟨p.str.takeWhile isSlashOrSpace, (p.str.dropWhile isSlashOrSpace).rtakeWhile
    isSlashOrSpace, ?_, fun c hc => List.mem_takeWhile_imp hc,
    fun c hc => List.mem_rtakeWhile_imp hc, ?_, ?_⟩
  · rw [List.append_assoc, tfsPathTrim, List.rdropWhile_append_rtakeWhile,
      List.takeWhile_append_dropWhile]
  · have hlen := congrArg List.length
      (List.takeWhile_append_dropWhile (p := isSlashOrSpace) (l := p.str))
    rw [List.length_append] at hlen
    show p.chars + _ = p.chars + _
    omega
  · intro hhead
    cases hs : p.str with
    | nil => rw [hs] at hhead; simp at hhead
    | cons c s =>
      rw [hs] at hhead
      obtain rfl : c = slash := by simpa using hhead
      exact ⟨_, List.takeWhile_cons_of_pos rfl⟩

/-- **What is left of `p` after the components `ds` were popped off its front.**  The rest
is a slice of `p`, and what lies before it has the components `ds`, also when more is
written after it, unless nothing is left. -/
def Rest (p : TfsPath) (ds : List (List CChar)) (q : TfsPath) : Prop :=
  ∃ a b, p.str = a ++ q.str ++ b ∧ q.chars = p.chars + a.length ∧
    (∀ c ∈ b, isSlashOrSpace c = true) ∧ comps a = ds ∧
    (q.str ≠ [] → ∀ m, comps (a ++ m) = ds ++ comps m)

theorem Rest.refl (p : TfsPath) : Rest p [] p :=
  ⟨[], [], by simp, by simp, by simp, comps_nil, fun _ m => rfl⟩

theorem Rest.comps_eq {p q : TfsPath} {ds : List (List CChar)} (h : Rest p ds q) :
    comps p.str = ds ++ comps q.str := by
  obtain ⟨a, b, hp, -, hb, ha, hm⟩ := h
  rw [hp, comps_append_right hb]
  by_cases hq : q.str = []
  · rw [hq, List.append_nil, ha, comps_nil, List.append_nil]
  · exact hm hq q.str

theorem Rest.trans {p q r : TfsPath} {ds es : List (List CChar)} (h : Rest p ds q)
    (h' : Rest q es r) (hes : es ≠ []) : Rest p (ds ++ es) r := by
  have hq : q.str ≠ [] := by
    intro hq
    have hes' := h'.comps_eq
    rw [hq, comps_nil] at hes'
    exact hes (List.append_eq_nil_iff.mp hes'.symm).1
  obtain ⟨a, b, hp, hc, hb, -, hm⟩ := h
  obtain ⟨a', b', hp', hc', hb', ha', hm'⟩ := h'
  refine ⟨a ++ a', b' ++ b, ?_, ?_, ?_, ?_, fun hr m => ?_⟩
  · rw [hp, hp']
    simp
  · rw [hc', hc, List.length_append, Nat.add_assoc]
  · intro c hcb
    rcases List.mem_append.mp hcb with hcb | hcb
    · exact hb' c hcb
    · exact hb c hcb
  · rw [hm hq, ha']
  · rw [List.append_assoc, hm hq, hm' hr, List.append_assoc]

theorem mem_of_mem_rest {p q : TfsPath} {ds : List (List CChar)} (h : Rest p ds q) :
    ∀ c ∈ q.str, c ∈ p.str := by
  obtain ⟨a, b, hp, -⟩ := h
  intro c hc
  rw [hp]
  simp [hc]

/-- The part of the path before the rest has the components that were popped. -/
theorem Rest.comps_take {p q : TfsPath} {ds : List (List CChar)} (h : Rest p ds q) :
    comps (p.str.take (q.chars - p.chars)) = ds := by
  obtain ⟨a, b, hp, hc, -, ha, -⟩ := h
  rw [hc, Nat.add_sub_cancel_left, hp, List.append_assoc, List.take_left, ha]

/-- **`tfs_path_pop_first`** returns the first component and what is left after it, both
trimmed, or two empty paths when there is no component. -/
theorem tfsPathPopFirst_spec (p : TfsPath) :
    ((tfsPathPopFirst p).1.str = [] ∧ (tfsPathPopFirst p).2.str = [] ∧ comps p.str = []) ∨
    ((tfsPathPopFirst p).1.str ≠ [] ∧
      Rest p [(tfsPathPopFirst p).1.str] (tfsPathPopFirst p).2) := by
  obtain ⟨a, b, hp, ha, hb, hchars, -⟩ := tfsPathTrim_split p
  have htrimmed := trimmed_tfsPathTrim p
  have hcomps := comps_tfsPathTrim p
  rw [tfsPathPopFirst]
  generalize tfsPathTrim p = s at *
  split
  · rename_i hn
    have hfree : ∀ c ∈ s.str, c ≠ slash := by simpa [List.findIdx?_eq_none_iff] using hn
    by_cases hs : s.str = []
    · exact Or.inl ⟨hs, rfl, by rw [← hcomps, hs, comps_nil]⟩
    · refine Or.inr ⟨hs, a ++ s.str, b, by rw [hp]; simp, ?_, hb, ?_, fun h => absurd rfl h⟩
      · rw [hchars, List.length_append]
        exact Nat.add_assoc ..
      · rw [comps_append_left ha, comps_of_noSlash hfree, htrimmed.trim_eq]
        simp [hs]
  · rename_i n hn
    obtain ⟨hlt, hsep, hfirst⟩ := List.findIdx?_eq_some_iff_getElem.mp hn
    have hslash : s.str[n] = slash := by simpa using hsep
    have hdrop : s.str.drop n = slash :: s.str.drop (n + 1) := by
      rw [List.drop_eq_getElem_cons hlt, hslash]
    have hfree : ∀ c ∈ s.str.take n, c ≠ slash := by
      intro c hc
      obtain ⟨i, hi, rfl⟩ := List.getElem_of_mem hc
      rw [List.getElem_take]
      have hi' : i < n := by rw [List.length_take] at hi; omega
      simpa using hfirst i hi'
    have hne : Text.trim isSlashOrSpace (s.str.take n) ≠ [] := by
      -- the first character is not blank, as `s` is trimmed
      intro hnil
      cases hs : s.str with
      | nil => rw [hs] at hlt; simp at hlt
      | cons c str =>
        have hc := htrimmed.1 c (by rw [hs]; rfl)
        cases n with
        | zero =>
          have hc' : c = slash := by simpa [hs] using hslash
          rw [hc'] at hc
          exact absurd hc (by decide)
        | succ n =>
          have := Text.trim_eq_nil_iff.mp hnil c (by rw [hs]; simp)
          rw [hc] at this
          cases this
    obtain ⟨a₂, b₂, hp₂, ha₂, hb₂, hchars₂, hhead⟩ :=
      tfsPathTrim_split ⟨s.chars + n, s.str.drop n⟩
    obtain ⟨a₃, rfl⟩ := hhead (by rw [hdrop]; rfl)
    rw [List.forall_mem_cons] at ha₂
    have hclosed : ∀ m, comps (a ++ s.str.take n ++ (slash :: a₃) ++ m) =
        [Text.trim isSlashOrSpace (s.str.take n)] ++ comps m := by
      intro m
      rw [List.append_assoc, List.append_assoc, comps_append_left ha, List.cons_append,
        comps_append_slash, comps_append_left ha₂.2, comps_of_noSlash hfree]
      simp [hne]
    refine Or.inr ⟨hne, a ++ s.str.take n ++ (slash :: a₃), b₂ ++ b, ?_, ?_, ?_, ?_,
      fun _ => hclosed⟩
    · generalize tfsPathTrim ⟨s.chars + n, s.str.drop n⟩ = r at *
      rw [hp]
      conv_lhs => rw [← List.take_append_drop n s.str, show s.str.drop n = _ from hp₂]
      simp
    · rw [hchars₂]
      show s.chars + n + _ = _
      rw [hchars, List.length_append, List.length_append, List.length_take,
        Nat.min_eq_left (Nat.le_of_lt hlt)]
      omega
    · intro c hc
      rcases List.mem_append.mp hc with hc | hc
      · exact hb₂ c hc
      · exact hb c hc
    · rw [← List.append_nil (a ++ s.str.take n ++ _), hclosed, comps_nil]
      rfl

theorem trimmed_tfsPathPopFirst_rest (p : TfsPath) :
    Text.Trimmed isSlashOrSpace (tfsPathPopFirst p).2.str := by
  rw [tfsPathPopFirst]
  split
  · exact ⟨by simp, by simp⟩
  · exact trimmed_tfsPathTrim _

/-- The component `tfs_path_pop_first` returns, as seen from the components. -/
theorem comps_eq_tfsPathPopFirst (p : TfsPath) :
    ((tfsPathPopFirst p).1.str = [] ∧ comps p.str = []) ∨
    ((tfsPathPopFirst p).1.str ≠ [] ∧ comps p.str =
      (tfsPathPopFirst p).1.str :: comps (tfsPathPopFirst p).2.str) := by
  rcases tfsPathPopFirst_spec p with ⟨h, -, hp⟩ | ⟨h, hr⟩
  · exact Or.inl ⟨h, hp⟩
  · exact Or.inr ⟨h, hr.comps_eq⟩

/-- Popping a path that has components. -/
theorem tfsPathPopFirst_of_cons {p : TfsPath} {c : List CChar} {cs : List (List CChar)}
    (h : comps p.str = c :: cs) :
    (tfsPathPopFirst p).1.str = c ∧ comps (tfsPathPopFirst p).2.str = cs := by
  rcases comps_eq_tfsPathPopFirst p with ⟨-, hnil⟩ | ⟨-, hcons⟩
  · rw [h] at hnil
    cases hnil
  · exact List.cons.inj (hcons.symm.trans h)

theorem len_eq_zero_iff {p : TfsPath} : p.len = 0 ↔ p.str = [] := List.length_eq_zero_iff

/-- A trimmed path is empty exactly if it has no components. -/
theorem len_eq_zero_iff_of_trimmed {p : TfsPath} (h : Text.Trimmed isSlashOrSpace p.str) :
    p.len = 0 ↔ comps p.str = [] :=
  len_eq_zero_iff.trans (comps_eq_nil_iff_of_trimmed h).symm

theorem comps_of_len {p : TfsPath} (h : p.len = 0) : comps p.str = [] := by
  rw [len_eq_zero_iff.mp h, comps_nil]

theorem len_ne_zero_of_cons {p : TfsPath} {c : List CChar} {cs : List (List CChar)}
    (h : comps p.str = c :: cs) : p.len ≠ 0 := by
  intro hzero
  rw [comps_of_len hzero] at h
  cases h

/-- **`tfs_path_eq` compares the components.** -/
theorem tfsPathEq_iff {lhs rhs : TfsPath} (hl : NulFree lhs.str) :
    tfsPathEq lhs rhs = true ↔ comps lhs.str = comps rhs.str := by
  induction hn : lhs.len using Nat.strong_induction_on generalizing lhs rhs with
  | _ n ih =>
    rw [tfsPathEq]
    simp only [len_eq_zero_iff]
    rcases comps_eq_tfsPathPopFirst lhs with ⟨h₁, hc₁⟩ | ⟨h₁, hc₁⟩ <;>
      rcases comps_eq_tfsPathPopFirst rhs with ⟨h₂, hc₂⟩ | ⟨h₂, hc₂⟩
    · simp [h₁, h₂, hc₁, hc₂]
    · simp [h₁, h₂, hc₁, hc₂]
    · simp [h₁, h₂, hc₁, hc₂]
    · rw [if_neg (by simp [h₁, h₂]), hc₁, hc₂, List.cons.injEq]
      have hnul : NulFree (tfsPathPopFirst lhs).1.str :=
        nulFree_of_mem_comps hl (by rw [hc₁]; exact List.mem_cons_self)
      by_cases heq : (tfsPathPopFirst lhs).1.str = (tfsPathPopFirst rhs).1.str
      · rcases tfsPathPopFirst_spec lhs with ⟨h, -⟩ | ⟨-, hr⟩
        · exact absurd h h₁
        · have hlen : lhs.len ≠ 0 := fun h => h₁ (len_eq_zero_iff.mp
            (tfsPathPopFirst_of_len_eq_zero h))
          rw [(tfsStrEq_iff hnul).mpr heq, if_neg (by simp),
            ih _ (hn ▸ tfsPathPopFirst_rest_len_lt hlen)
              (hl.of_subset (mem_of_mem_rest hr)) rfl]
          simp [heq]
      · have hstr := (tfsStrEq_eq_false_iff hnul).mpr heq
        simp [hstr, heq]

/-! ## Popping from the end -/

theorem lastSepPos_eq_none {str : List CChar} {n : Nat} (hn : str.length ≤ n)
    (h : lastSepPos str n = none) : ∀ c ∈ str, c ≠ slash := by
  have key : ∀ m, lastSepPos str m = none → ∀ i < m, str[i]? ≠ some slash := by
    intro m
    induction m with
    | zero => simp
    | succ m ih =>
      intro hm i hi
      rw [lastSepPos] at hm
      split at hm
      · cases hm
      · rename_i hne
        rcases Nat.lt_succ_iff_lt_or_eq.mp hi with hi | rfl
        · exact ih hm i hi
        · exact hne
  intro c hc hcs
  obtain ⟨i, hi, rfl⟩ := List.getElem_of_mem hc
  exact key n h i (by omega) (by rw [List.getElem?_eq_getElem hi, hcs])

theorem lastSepPos_eq_some {str : List CChar} {n k : Nat} (hn : str.length ≤ n)
    (h : lastSepPos str n = some k) :
    str = str.take k ++ slash :: str.drop (k + 1) ∧ ∀ c ∈ str.drop (k + 1), c ≠ slash := by
  have key : ∀ m, lastSepPos str m = some k → ∀ i < m, k < i → str[i]? ≠ some slash := by
    intro m
    induction m with
    | zero => simp
    | succ m ih =>
      intro hm i hi hki
      rw [lastSepPos] at hm
      split at hm
      · obtain rfl : m = k := by simpa using hm
        omega
      · rename_i hne
        rcases Nat.lt_succ_iff_lt_or_eq.mp hi with hi | rfl
        · exact ih hm i hi hki
        · exact hne
  obtain ⟨hk, hslash⟩ := List.getElem?_eq_some_iff.mp (lastSepPos_lt h).2
  constructor
  · conv_lhs => rw [← List.take_append_drop k str, List.drop_eq_getElem_cons hk, hslash]
  · intro c hc hcs
    obtain ⟨i, hi, rfl⟩ := List.getElem_of_mem hc
    rw [List.getElem_drop] at hcs
    rw [List.length_drop] at hi
    refine key n h (k + 1 + i) (by omega) (by omega) ?_
    rw [List.getElem?_eq_getElem (by omega), hcs]

/-- **`tfs_path_pop_last`** returns the last component and what is left before it, both
trimmed, or two empty paths when there is no component. -/
theorem tfsPathPopLast_spec (p : TfsPath) :
    ((tfsPathPopLast p).1.str = [] ∧ (tfsPathPopLast p).2.str = [] ∧ comps p.str = []) ∨
    ((tfsPathPopLast p).1.str ≠ [] ∧
      comps p.str = comps (tfsPathPopLast p).2.str ++ [(tfsPathPopLast p).1.str]) := by
  have htrimmed := trimmed_tfsPathTrim p
  have hcomps := comps_tfsPathTrim p
  rw [tfsPathPopLast]
  generalize tfsPathTrim p = s at *
  rw [← hcomps]
  split
  · rename_i hn
    have hfree := lastSepPos_eq_none (le_refl s.str.length) hn
    by_cases hs : s.str = []
    · exact Or.inl ⟨hs, rfl, by rw [hs, comps_nil]⟩
    · refine Or.inr ⟨hs, ?_⟩
      rw [comps_of_noSlash hfree, htrimmed.trim_eq]
      simp [hs]
  · rename_i n hn
    obtain ⟨hsplit, hfree⟩ := lastSepPos_eq_some (le_refl s.str.length) hn
    have hlt : n < s.str.length := (lastSepPos_lt hn).1
    have hslash : s.str[n] = slash := by
      simpa [List.getElem?_eq_getElem hlt] using (lastSepPos_lt hn).2
    have hdrop : s.str.drop n = slash :: s.str.drop (n + 1) := by
      rw [List.drop_eq_getElem_cons hlt, hslash]
    -- the last character is not blank, as `s` is trimmed
    have hlast : Text.trim isSlashOrSpace (s.str.drop (n + 1)) ≠ [] := by
      intro hnil
      have hne : s.str ≠ [] := by rintro h; rw [h] at hlt; simp at hlt
      have hblank := htrimmed.2 _ (List.getLast?_eq_some_getLast hne)
      have hmem : s.str.getLast hne ∈ slash :: s.str.drop (n + 1) := by
        rw [← hdrop]
        have hne' : s.str.drop n ≠ [] := by rw [hdrop]; simp
        rw [← List.getLast_drop hne']
        exact List.getLast_mem hne'
      rcases List.mem_cons.mp hmem with h | h
      · rw [h] at hblank
        exact absurd hblank (by decide)
      · rw [Text.trim_eq_nil_iff.mp hnil _ h] at hblank
        cases hblank
    have hstr : Text.trim isSlashOrSpace (s.str.drop n) =
        Text.trim isSlashOrSpace (s.str.drop (n + 1)) := by
      rw [hdrop]
      exact Text.trim_cons_of_pos rfl
    refine Or.inr ⟨?_, ?_⟩
    · rw [str_tfsPathTrim, hstr]
      exact hlast
    · rw [str_tfsPathTrim, str_tfsPathTrim, hstr, comps_trim]
      conv_lhs => rw [hsplit]
      rw [comps_append_slash, comps_of_noSlash hfree]
      simp [hlast]

theorem trimmed_tfsPathPopLast_rest (p : TfsPath) :
    Text.Trimmed isSlashOrSpace (tfsPathPopLast p).2.str := by
  rw [tfsPathPopLast]
  split
  · exact ⟨by simp, by simp⟩
  · exact trimmed_tfsPathTrim _

/-- The characters of what is left are characters of the path. -/
theorem mem_of_mem_tfsPathPopLast_rest {p : TfsPath} :
    ∀ c ∈ (tfsPathPopLast p).2.str, c ∈ p.str := by
  have htrim : ∀ {q : TfsPath} {c : CChar}, c ∈ (tfsPathTrim q).str → c ∈ q.str := by
    intro q c hc
    obtain ⟨a, b, hq, -⟩ := tfsPathTrim_split q
    rw [hq]
    exact List.mem_append_left _ (List.mem_append_right _ hc)
  intro c hc
  rw [tfsPathPopLast] at hc
  split at hc
  · simp at hc
  · exact htrim (List.mem_of_mem_take (htrim hc))

/-- **`tfs_path_components_len` counts the components.** -/
theorem tfsPathComponentsLen_eq (p : TfsPath) :
    tfsPathComponentsLen p = (comps p.str).length := by
  have key : ∀ n (q : TfsPath), q.len = n → Text.Trimmed isSlashOrSpace q.str →
      tfsPathComponentsLen.loop q = (comps q.str).length := by
    intro n
    induction n using Nat.strong_induction_on with
    | _ n ih =>
      intro q hq htq
      rw [tfsPathComponentsLen.loop]
      split
      · rename_i hlen
        rw [ih _ (hq ▸ tfsPathPopLast_rest_len_lt hlen) _ rfl (trimmed_tfsPathPopLast_rest q)]
        rcases tfsPathPopLast_spec q with ⟨-, -, hc⟩ | ⟨-, hc⟩
        · exact absurd ((comps_eq_nil_iff_of_trimmed htq).mp hc) fun h =>
            hlen (len_eq_zero_iff.mpr h)
        · rw [hc, List.length_append, List.length_singleton]
      · rename_i hlen
        rw [len_eq_zero_iff.mp (not_not.mp hlen), comps_nil, List.length_nil]
  rw [tfsPathComponentsLen, key _ _ rfl (trimmed_tfsPathTrim p), comps_tfsPathTrim]

/-! ## The common ancestor -/

/-- What the common ancestor of two paths is: the longest common prefix of the
components, with what is left of either path. -/
structure CommonAncestor.Splits (x : CommonAncestor) (lhs rhs : TfsPath) : Prop where
  lhs_rest : Rest lhs (comps x.ancestor.str) x.lhsRest
  rhs_rest : Rest rhs (comps x.ancestor.str) x.rhsRest
  differ : ∀ c ∈ (comps x.lhsRest.str).head?, c ∉ (comps x.rhsRest.str).head?
  trimmed : Text.Trimmed isSlashOrSpace x.ancestor.str
  /-- The rests are trimmed, unless nothing was popped at all. -/
  rests : (x.lhsRest = lhs ∧ x.rhsRest = rhs) ∨
    (Text.Trimmed isSlashOrSpace x.lhsRest.str ∧ Text.Trimmed isSlashOrSpace x.rhsRest.str)

/-- **`tfs_path_common_ancestor`** splits both paths after their longest common prefix. -/
theorem tfsPathCommonAncestor_splits {lhs rhs : TfsPath} (hl : NulFree lhs.str) :
    (tfsPathCommonAncestor lhs rhs).Splits lhs rhs := by
  have key : ∀ n (ds : List (List CChar)) (p q : TfsPath), p.len = n → Rest lhs ds p →
      Rest rhs ds q → ((p = lhs ∧ q = rhs) ∨
        (Text.Trimmed isSlashOrSpace p.str ∧ Text.Trimmed isSlashOrSpace q.str)) →
      (tfsPathCommonAncestor.loop lhs p q).Splits lhs rhs := by
    intro n
    induction n using Nat.strong_induction_on with
    | _ n ih =>
      intro ds p q hp hlp hrq htrim
      have hnul : ∀ c ∈ comps p.str, NulFree c := fun c hc =>
        nulFree_of_mem_comps (hl.of_subset (mem_of_mem_rest hlp)) hc
      have hstop : (∀ c ∈ (comps p.str).head?, c ∉ (comps q.str).head?) →
          CommonAncestor.Splits ⟨tfsPathTrim ⟨lhs.chars, lhs.str.take (p.chars - lhs.chars)⟩,
            p, q⟩ lhs rhs := by
        intro hdiff
        have hds : comps (tfsPathTrim ⟨lhs.chars, lhs.str.take (p.chars - lhs.chars)⟩).str =
            ds := by rw [comps_tfsPathTrim]; exact hlp.comps_take
        exact ⟨by rw [hds]; exact hlp, by rw [hds]; exact hrq, hdiff, trimmed_tfsPathTrim _,
          htrim⟩
      rw [tfsPathCommonAncestor.loop]
      simp only [len_eq_zero_iff]
      rcases comps_eq_tfsPathPopFirst p with ⟨h₁, hc₁⟩ | ⟨h₁, hc₁⟩
      · rw [if_pos]
        · exact hstop (by simp [hc₁])
        · by_cases h₂ : (tfsPathPopFirst q).1.str = []
          · exact Or.inl ⟨h₁, h₂⟩
          · have hnul₁ : NulFree (tfsPathPopFirst p).1.str := by simp [h₁, NulFree]
            have hstr := (tfsStrEq_eq_false_iff hnul₁).mpr fun h => h₂ (h.symm.trans h₁)
            exact Or.inr (by simp [hstr])
      · have hnul₁ := hnul _ (by rw [hc₁]; exact List.mem_cons_self)
        by_cases heq : (tfsPathPopFirst p).1.str = (tfsPathPopFirst q).1.str
        · have h₂ : (tfsPathPopFirst q).1.str ≠ [] := heq ▸ h₁
          rw [if_neg (by simp [h₁, (tfsStrEq_iff hnul₁).mpr heq])]
          have hpop : ∀ r : TfsPath, (tfsPathPopFirst r).1.str ≠ [] →
              Rest r [(tfsPathPopFirst r).1.str] (tfsPathPopFirst r).2 := by
            intro r hr
            rcases tfsPathPopFirst_spec r with ⟨h, -⟩ | ⟨-, h⟩
            · exact absurd h hr
            · exact h
          have hlen : p.len ≠ 0 := fun h => h₁ (len_eq_zero_iff.mp
            (tfsPathPopFirst_of_len_eq_zero h))
          refine ih _ (hp ▸ tfsPathPopFirst_rest_len_lt hlen)
            (ds ++ [(tfsPathPopFirst p).1.str]) _ _ rfl (hlp.trans (hpop p h₁) (by simp)) ?_
            (Or.inr ⟨trimmed_tfsPathPopFirst_rest p, trimmed_tfsPathPopFirst_rest q⟩)
          rw [heq]
          exact hrq.trans (hpop q h₂) (by simp)
        · have hstr := (tfsStrEq_eq_false_iff hnul₁).mpr heq
          rw [if_pos (Or.inr (by simp [hstr]))]
          refine hstop ?_
          rcases comps_eq_tfsPathPopFirst q with ⟨h₂, hc₂⟩ | ⟨h₂, hc₂⟩
          · simp [hc₂]
          · rw [hc₁, hc₂]
            simpa using Ne.symm heq
  exact key _ [] lhs rhs rfl (Rest.refl lhs) (Rest.refl rhs) (Or.inl ⟨rfl, rfl⟩)

end TecnicoFs
