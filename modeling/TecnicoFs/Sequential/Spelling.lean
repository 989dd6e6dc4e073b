import TecnicoFs.Fs.Respelling
import TecnicoFs.Sequential.Access

/-!
# The spelling of a path

Two paths that `tfs_path_eq` calls equal have the same components, but the source also looks
at lengths, and it orders the parents of a move by their characters.  Nearly everywhere that
makes no difference: the programs of two calls whose paths are equal take the same actions.

There are two exceptions.  The root is locked for the access asked for only if the path has
no characters at all, so that `/` and the empty path are not locked alike.  And a move that
finds neither parent reports the one that it looked for first.  If it finds one of them, the
order does not show: what the move does to the tree is the same, and what it leaves locked
is the inode that it moved.
-/

namespace TecnicoFs

open Interleaving TfsProg Graph Text

variable {ι : Type} [DecidableEq ι]

/-! ## What is left locked -/

section Locked

variable {fs : TfsFs} {t : ι} {m m' : Mem ι} {p q : TfsPath} {access : TfsRwLockAccess}
  {reply : Reply}

/-- A search leaves the inode that it finds locked for its access, but for the root. -/
theorem locks_of_find (hn : NulFree p.str) (hT : TreeInv fs.inodeTable.capacity m.node)
    (hnil : ∀ i, m.locks i = [])
    (hrun : ((Call.find p access).operation fs).run (machine ι) t m = some (reply, m')) {i : Nat}
    (hok : reply.outcome = .ok (some i)) : m'.locks i = [(t, p.lockedFor access)] := by
  obtain ⟨-, hbal, -⟩ := locks_balanced (c := .find p access) hn hT hnil (by simp [Task.Moves]) t
  obtain ⟨⟨a, ha⟩, -⟩ := hbal.inode reply m' hrun i hok
  obtain ⟨result, m₁, hfind, heq⟩ := Prog.exists_of_run_bind hrun
  obtain ⟨rfl, rfl⟩ := Prod.mk.inj (Option.some.inj heq)
  cases result with
  | error err => cases hok
  | ok inode =>
    obtain rfl : inode.idx = i := Option.some.inj (Except.ok.inj hok)
    have hheld := post_tfsFsFind p m _ _ hfind inode rfl (t, a) (by rw [ha]; simp)
    rw [ha, show a = _ from hheld]

/-- What a move between two directories leaves locked. -/
def Effect.kept (e : Effect) (access : TfsRwLockAccess) : List (Nat × TfsRwLockAccess) :=
  match e.outcome with
  | .ok (some i) => [(i, access)]
  | _ => e.leak.toList

theorem locks_of_move (hvalid : (Call.move p q access).Valid)
    (hT : TreeInv fs.inodeTable.capacity m.node) (hnil : ∀ i, m.locks i = [])
    (hparents : ¬((moveSplit p q).origParent.len = 0 ∧ (moveSplit p q).destParent.len = 0))
    (hrun : ((Call.move p q access).operation fs).run (machine ι) t m = some (reply, m')) :
    (atomicMove m.node p q access).outcome = reply.outcome ∧
      (atomicMove m.node p q access).tree = m'.node ∧
      ∀ i u a, (u, a) ∈ m'.locks i ↔
        u = t ∧ (i, a) ∈ (atomicMove m.node p q access).kept access := by
  obtain ⟨slot, leak, held, -, hatomic, hheld, -, hholders⟩ := locks_of_unlocked hvalid hT hnil hrun
  rw [show atomicMove m.node p q access = _ from hatomic]
  refine ⟨rfl, rfl, ?_⟩
  suffices hkept : held = Effect.kept ⟨reply.outcome, m'.node, leak⟩ access by
    rwa [← hkept]
  rcases hheld with ⟨i, a, hok, rfl, -⟩ | ⟨hnot, rfl⟩
  · have hmem : (t, a) ∈ m'.locks i := (hholders i t a).mpr ⟨rfl, by simp⟩
    obtain ⟨result, m₁, hmove, heq⟩ := Prog.exists_of_run_bind hrun
    obtain ⟨rfl, rfl⟩ := Prod.mk.inj (Option.some.inj heq)
    cases result with
    | error err => cases hok
    | ok inode =>
      obtain rfl : inode.idx = i := Option.some.inj (Except.ok.inj hok)
      rw [show a = access from post_tfsFsMove hvalid.1 hparents m _ _ hmove inode rfl _ hmem]
      rfl
  · rw [Effect.kept]
    split
    · rename_i i hok
      exact absurd hok (hnot i)
    · rfl

end Locked

/-! ## The spelling -/

/-- **The same call**, with its paths spelled in another way. -/
inductive Respelled : Call → Call → Prop where
  | create {p p' : TfsPath} (hp : tfsPathEq p p' = true) (type : TfsInodeType) :
      Respelled (.create p type) (.create p' type)
  | remove {p p' : TfsPath} (hp : tfsPathEq p p' = true) : Respelled (.remove p) (.remove p')
  | find {p p' : TfsPath} (hp : tfsPathEq p p' = true) (access : TfsRwLockAccess) :
      Respelled (.find p access) (.find p' access)
  | move {p p' q q' : TfsPath} (hp : tfsPathEq p p' = true) (hq : tfsPathEq q q' = true)
      (access : TfsRwLockAccess) : Respelled (.move p q access) (.move p' q' access)

/-- Two runs end in the same way: with the same success or kind of error, the same tree, and
the same locks left for the same access. -/
structure SameEnd (x y : Reply × Mem ι) : Prop where
  outcome : x.1.outcome = y.1.outcome
  tree : x.2.node = y.2.node
  locks : ∀ i u a, (u, a) ∈ x.2.locks i ↔ (u, a) ∈ y.2.locks i

/-- A search that finds an inode leaves it locked as it was asked to. -/
def LockedAsAsked (fs : TfsFs) (t : ι) (m : Mem ι) (c : Call) : Prop :=
  ∀ path access, c = .find path access → ∀ reply m' i,
    (c.operation fs).run (machine ι) t m = some (reply, m') →
    reply.outcome = .ok (some i) → m'.locks i = [(t, access)]

/-- **The spelling does not show.** -/
structure SpellingHidden (fs : TfsFs) (t : ι) (m : Mem ι) (c c' : Call) : Prop where
  same : Option.Rel SameEnd ((c.operation fs).run (machine ι) t m)
    ((c'.operation fs).run (machine ι) t m)
  asked : LockedAsAsked fs t m c
  asked' : LockedAsAsked fs t m c'

/-- The exceptions are avoided: a search for the root with unique access is given the empty
path, and a move that finds neither parent looks for the same one first. -/
def AvoidsExceptions (T : Tree) : Call → Call → Prop
  | .find p access, .find p' _ =>
      access = .unique → comps p.str = [] → p.len = 0 ∧ p'.len = 0
  | .move p q _, .move p' q' _ =>
      NoParents T p q → ((moveSplit p q).OrigFirst ↔ (moveSplit p' q').OrigFirst)
  | _, _ => True

section Spelling

variable {fs : TfsFs} {t : ι} {m : Mem ι} {p p' q q' : TfsPath} {access : TfsRwLockAccess}

theorem sameEnd_of_alike {c c' : Call}
    (h : Prog.Alike Reply.Same (c.operation fs) (c'.operation fs)) :
    Option.Rel SameEnd ((c.operation fs).run (machine ι) t m)
      ((c'.operation fs).run (machine ι) t m) := by
  have hrun := h.run (M := machine ι) (t := t) m
  generalize (c.operation fs).run (machine ι) t m = x, (c'.operation fs).run (machine ι) t m = y
    at hrun
  cases hrun with
  | none => exact .none
  | some h => exact .some ⟨h.1, by rw [h.2], fun i u a => by rw [h.2]⟩

theorem lockedAsAsked_find_iff (hn : NulFree p.str) (hT : TreeInv fs.inodeTable.capacity m.node)
    (hnil : ∀ i, m.locks i = []) (t : ι) :
    LockedAsAsked fs t m (.find p access) ↔
      (access = .unique → comps p.str = [] → p.len = 0) := by
  constructor
  · rintro hasked rfl hcomps
    obtain ⟨reply, m', hrun⟩ := exists_run_unlocked (c := .find p .unique) hn hT hnil t nofun
    obtain ⟨slot, leak, held, -, hatomic, -⟩ :=
      locks_of_unlocked (c := .find p .unique) hn hT hnil hrun
    have hok : reply.outcome = .ok (some 0) := by
      have hfind : atomicFind m.node p = _ := hatomic
      rw [atomicFind, hcomps, locate_nil] at hfind
      exact (congrArg Effect.outcome hfind).symm
    have hlocks := locks_of_find hn hT hnil hrun hok
    rw [hasked p .unique rfl reply m' 0 hrun hok, TfsPath.lockedFor] at hlocks
    by_contra hlen
    rw [if_pos ⟨hlen, hcomps⟩] at hlocks
    simp at hlocks
  · rintro hcond path access' ⟨⟩ reply m' i hrun hok
    have hlocked : p.lockedFor access = access := by
      rw [TfsPath.lockedFor]
      split
      · rename_i h
        cases access with
        | shared => rfl
        | unique => exact absurd (hcond rfl h.2) h.1
      · rfl
    rw [locks_of_find hn hT hnil hrun hok, hlocked]

/-- Moves that order the parents differently. -/
theorem sameEnd_move (hvalid : (Call.move p q access).Valid)
    (hvalid' : (Call.move p' q' access).Valid)
    (hp : comps p.str = comps p'.str) (hq : comps q.str = comps q'.str)
    (hT : TreeInv fs.inodeTable.capacity m.node) (hnil : ∀ i, m.locks i = [])
    (hfirst : ¬((moveSplit p q).OrigFirst ↔ (moveSplit p' q').OrigFirst)) :
    Option.Rel SameEnd (((Call.move p q access).operation fs).run (machine ι) t m)
        (((Call.move p' q' access).operation fs).run (machine ι) t m) ↔ ¬NoParents m.node p q := by
  have hparents := parents_congr hvalid.1 hvalid'.1 hp hq
  have hne : ¬((moveSplit p q).origParent.len = 0 ∧ (moveSplit p q).destParent.len = 0) := by
    intro h
    exact hfirst (iff_of_false (not_origFirst_of_len h)
      (not_origFirst_of_len ⟨hparents.1.mp h.1, hparents.2.mp h.2⟩))
  have hne' : ¬((moveSplit p' q').origParent.len = 0 ∧ (moveSplit p' q').destParent.len = 0) :=
    fun h => hne ⟨hparents.1.mpr h.1, hparents.2.mpr h.2⟩
  obtain ⟨reply, m₁, hrun⟩ := exists_run_unlocked hvalid hT hnil t nofun
  obtain ⟨reply', m₁', hrun'⟩ := exists_run_unlocked hvalid' hT hnil t nofun
  obtain ⟨houtcome, htree, hlocks⟩ := locks_of_move hvalid hT hnil hne hrun
  obtain ⟨houtcome', htree', hlocks'⟩ := locks_of_move hvalid' hT hnil hne' hrun'
  rw [hrun, hrun']
  constructor
  · rintro (⟨⟨hsame, -, -⟩⟩) hno
    dsimp only at hsame
    rw [← houtcome, ← houtcome', hno.outcome hvalid.1,
      (hno.congr hvalid.1 hvalid'.1 hp hq).outcome hvalid'.1] at hsame
    by_cases ho : (moveSplit p q).OrigFirst
    · rw [if_pos ho, if_neg fun ho' => hfirst (iff_of_true ho ho')] at hsame
      cases hsame
    · rw [if_neg ho, if_pos (by_contra fun ho' => hfirst (iff_of_false ho ho'))] at hsame
      cases hsame
  · intro hno
    have heq : atomicMove m.node p q access = atomicMove m.node p' q' access :=
      atomicMove_congr hvalid.1 hvalid'.1 hp hq fun h => absurd h hno
    refine .some ⟨?_, ?_, fun i u a => ?_⟩
    · rw [← houtcome, ← houtcome', heq]
    · rw [← htree, ← htree', heq]
    · rw [hlocks, hlocks', heq]

end Spelling

/-- **The spelling of a path does not show**, with two exceptions.  Two calls that differ only
in how their paths are spelled, on a tree with no lock held, end with the same success or
kind of error, the same tree and the same locks, and a search leaves what it found locked as
it was asked to; unless the search is for the root with unique access by a path that is not
empty, or the move finds neither parent and one spelling has it look for the parent of the
origin first, the other for that of the destination. -/
theorem spelling_hidden_iff {fs : TfsFs} {m : Mem ι} (hT : TreeInv fs.inodeTable.capacity m.node)
    (hnil : ∀ i, m.locks i = []) {c c' : Call} (hvalid : c.Valid) (hvalid' : c'.Valid)
    (h : Respelled c c') (t : ι) :
    SpellingHidden fs t m c c' ↔ AvoidsExceptions m.node c c' := by
  cases h with
  | @create p p' hp type =>
    have hcomps := (tfsPathEq_iff hvalid.1).mp hp
    exact ⟨fun _ => trivial, fun _ => ⟨sameEnd_of_alike (alike_create hcomps type), nofun, nofun⟩⟩
  | @remove p p' hp =>
    have hcomps := (tfsPathEq_iff hvalid).mp hp
    exact ⟨fun _ => trivial, fun _ => ⟨sameEnd_of_alike (alike_remove hcomps), nofun, nofun⟩⟩
  | @find p p' hp access =>
    have hcomps := (tfsPathEq_iff hvalid).mp hp
    have hasked : LockedAsAsked fs t m (.find p access) ↔ _ :=
      lockedAsAsked_find_iff hvalid hT hnil t
    have hasked' : LockedAsAsked fs t m (.find p' access) ↔ _ :=
      lockedAsAsked_find_iff hvalid' hT hnil t
    constructor
    · rintro ⟨-, h, h'⟩ hunique hroot
      exact ⟨hasked.mp h hunique hroot, hasked'.mp h' hunique (hcomps ▸ hroot)⟩
    · intro hcond
      refine ⟨sameEnd_of_alike (alike_find hcomps ?_),
        hasked.mpr fun hunique hroot => (hcond hunique hroot).1,
        hasked'.mpr fun hunique hroot => (hcond hunique (hcomps ▸ hroot)).2⟩
      cases access with
      | shared => exact Or.inl rfl
      | unique =>
        right
        by_cases hroot : comps p.str = []
        · obtain ⟨hlen, hlen'⟩ := hcond rfl hroot
          exact iff_of_true hlen hlen'
        · refine iff_of_false (fun hlen => hroot ?_) fun hlen => hroot ?_
          · exact comps_of_len hlen
          · exact hcomps.trans (comps_of_len hlen)
  | @move p p' q q' hp hq access =>
    have hcomps := (tfsPathEq_iff hvalid.1).mp hp
    have hcomps' := (tfsPathEq_iff hvalid.2).mp hq
    by_cases hfirst : (moveSplit p q).OrigFirst ↔ (moveSplit p' q').OrigFirst
    · exact ⟨fun _ _ => hfirst, fun _ => ⟨sameEnd_of_alike
        (alike_move hvalid.1 hvalid'.1 hcomps hcomps' hfirst), nofun, nofun⟩⟩
    · have hsame := sameEnd_move (t := t) hvalid hvalid' hcomps hcomps' hT hnil hfirst
      exact ⟨fun h hno => absurd hno (hsame.mp h.same),
        fun hcond => ⟨hsame.mpr fun hno => hfirst (hcond hno), nofun, nofun⟩⟩

/-- A creation by another spelling. -/
theorem spelling_hidden_create :
    SpellingHidden ⟨⟨128⟩⟩ 0 newMem (.create ⟨0, cstr "/a/"⟩ .dir) (.create ⟨20, cstr " a"⟩ .dir) :=
  (spelling_hidden_iff (tree_of_new run_newMem).1 (tree_of_new run_newMem).2 (by decide)
    (by decide +kernel) (.create (by decide +kernel) .dir) 0).mpr trivial

/-- **Both exceptions occur** in a new file system: a search for `/`, and a move with a slash
too many. -/
theorem not_spelling_hidden : ∃ (fs : TfsFs) (m : Mem Nat) (p p' q q' dest : TfsPath),
    tfsFsNew.run (machine Nat) 0 (Mem.zero (fun _ => true) fun _ => []) = some (fs, m) ∧
    (∀ i, m.locks i = []) ∧ (∀ path ∈ [p, p', q, q', dest], NulFree path.str) ∧
    (tfsPathEq p p' = true ∧ ¬SpellingHidden fs 0 m (.find p .unique) (.find p' .unique)) ∧
    (tfsPathEq q q' = true ∧
      ¬SpellingHidden fs 0 m (.move q dest .unique) (.move q' dest .unique)) := by
  refine ⟨_, _, ⟨0, cstr "/"⟩, ⟨20, []⟩, ⟨0, cstr "x/w/f"⟩, ⟨0, cstr "x//w/f"⟩, ⟨20, cstr "z/k/g"⟩,
    run_newMem, (tree_of_new run_newMem).2, by decide +kernel, ⟨by decide +kernel, fun h => ?_⟩,
    by decide +kernel, fun h => ?_⟩
  · obtain ⟨⟨reply, m'⟩, hrun, hview⟩ := Option.map_eq_some_iff.mp
      (show (((Call.find ⟨0, cstr "/"⟩ .unique).operation ⟨⟨128⟩⟩).run (machine Nat) 0 newMem).map
        (fun x => (x.1.outcome, x.2.locks 0)) = some (.ok (some 0), [(0, .shared)])
        by decide +kernel)
    obtain ⟨hok, hlocks⟩ := Prod.mk.inj hview
    have hasked := h.asked _ _ rfl reply m' 0 hrun hok
    rw [show m'.locks 0 = _ from hlocks] at hasked
    cases hasked
  · obtain ⟨x, hrun, hx⟩ := Option.map_eq_some_iff.mp
      (show (((Call.move ⟨0, cstr "x/w/f"⟩ ⟨20, cstr "z/k/g"⟩ .unique).operation ⟨⟨128⟩⟩).run
        (machine Nat) 0 newMem).map (fun x => x.1.outcome) =
        some (.error .moveInexistentOriginParentDir) by decide +kernel)
    obtain ⟨y, hrun', hy⟩ := Option.map_eq_some_iff.mp
      (show (((Call.move ⟨0, cstr "x//w/f"⟩ ⟨20, cstr "z/k/g"⟩ .unique).operation ⟨⟨128⟩⟩).run
        (machine Nat) 0 newMem).map (fun x => x.1.outcome) =
        some (.error .moveInexistentDestinationParentDir) by decide +kernel)
    have hsame := h.same
    rw [hrun, hrun'] at hsame
    cases hsame with
    | some h =>
      have houtcome := h.outcome
      rw [hx, hy] at houtcome
      cases houtcome

end TecnicoFs
