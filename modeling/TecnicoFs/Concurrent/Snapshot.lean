import TecnicoFs.Concurrent.Printing

/-!
# A listing that has its file to itself

A listing opens its file, which empties it, and closes it once.  If no other call prints to
the file in the meantime, what is in the file when the call returns is what its thread saw
when it got the root (`shown_of_alone`).  At that instant the listing of the inode table is
that of the tree which the calls so far have made (`listing_eq_of_root`).
-/

namespace TecnicoFs

open Interleaving Graph TfsProg

/-! ## Closing once -/

/-- What a listing that has opened its file still does with files: it closes a stream, once. -/
def Op.MayClose (closed : Bool) : Op → Prop
  | .fopen _ => False
  | .fclose _ => closed = false
  | _ => True

/-- The program closes one stream, unless that has been done, and opens none. -/
abbrev ClosesOnce {α : Type} (closed : Bool) (p : TfsProg α) : Prop :=
  p.Keeps Op.MayClose Op.Closes (fun closed _ => closed = true) closed

theorem Op.Fileless.unnoticed {o : Op} (h : o.Fileless) (closed : Bool) :
    o.MayClose closed ∧ Op.Closes closed o = closed := by
  cases o with
  | fopen => exact h.elim
  | fclose => exact h.elim
  | _ => exact ⟨trivial, rfl⟩

theorem fileless_printTree {table : TfsInodeTable} (depth i : Nat) (out : TfsStream)
    (path : List CChar) : (tfsInodeTablePrintTree table depth i out path).All Op.Fileless := by
  induction depth generalizing i out path with
  | zero => exact ⟨trivial, fun r => r.elim⟩
  | succ depth ih =>
    rw [tfsInodeTablePrintTree]
    refine (Prog.all_perform trivial).bind fun _ => (Prog.all_perform trivial).bind fun _ => ?_
    refine (Prog.all_perform trivial).bind fun _ => (Prog.all_perform trivial).bind fun node => ?_
    cases node with
    | none => exact Prog.all_pure _
    | file => exact Prog.all_pure _
    | dir d =>
      refine Prog.all_foldlM (fun entry _ out' => ?_) _
      cases entry.inodeIdx with
      | none => exact Prog.all_pure _
      | some j => exact ih j out' _

/-- A listing that has opened its file will close it, and does nothing else with files. -/
theorem closesOnce_of_opened {fs : TfsFs} {name : List CChar} {k : Bool → TfsProg Reply}
    (hk : (Task.print name).prog fs = .act (.fopen name) k) : ClosesOnce false (k true) := by
  obtain ⟨-, hk⟩ := Prog.act.inj hk
  obtain rfl := eq_of_heq hk
  have hunnoticed := fun (o : Op) (h : o.Fileless) => h.unnoticed false
  refine Prog.Keeps.bind (Prog.Keeps.bind (p := .ret true) ?_)
  refine Prog.All.keeps_bind (all_tfsInodeTableLock trivial trivial (fun _ => trivial)
    fun _ => trivial) hunnoticed fun _ => ?_
  refine (fileless_printTree _ _ _ _).keeps_bind hunnoticed fun out => ?_
  refine Prog.All.keeps_bind (all_tfsInodeTableUnlockInode trivial trivial (fun _ => trivial)
    fun _ => trivial) hunnoticed fun _ => ?_
  exact ⟨rfl, fun _ => ⟨trivial, fun _ => rfl⟩⟩

/-! ## The tree -/

/-- A listing shows what can be reached. -/
theorem listing_congr {T U : Tree} {i : Nat} (h : ∀ cs j, Walk (Child T) i cs j → U j = T j)
    (depth : Nat) (path : List CChar) : listing U depth i path = listing T depth i path := by
  induction depth generalizing i path with
  | zero => rfl
  | succ depth ih =>
    rw [listing, listing, h [] i .nil]
    cases hd : T i with
    | none => rfl
    | file => rfl
    | dir d =>
      refine congrArg _ (List.flatMap_congr fun child hchild => ih (fun cs j w => ?_) _)
      exact h _ j (.cons (show Child T i child.1 child.2 from ⟨d, hd, hchild⟩) w)

/-- While a listing holds the root, it sees the tree. -/
theorem listing_eq_of_root {ι : Type} {S : Setup ι} {w : FsWorld ι} {t : ι} (hi : S.Inv w)
    (hroot : (t, .unique) ∈ w.mem.locks 0) (hcalls : ¬S.Calls t) (depth : Nat) :
    listing w.mem.node depth 0 [] = listing w.ghost.tree depth 0 [] :=
  listing_congr (fun _ _ walk => hi.node_eq_of_root hroot hcalls
    (hi.treeInv.tree.walk_live hi.treeInv.tree.live_root walk)) depth []

/-! ## The file -/

variable {ι : Type} [DecidableEq ι] {fs : TfsFs} {task : ι → Task} {m : Mem ι}
  {h h' : FsHistory fs task m} {name : List CChar} {t : ι} {e : Event ι}

/-- **What is in the file** of a listing that is alone with it: nothing when it has been
opened, and then what the thread saw. -/
def Alone (t : ι) (name : List CChar) (h : FsHistory fs task m) : Prop :=
  Unopened fs name (h.config.thread t) ∨
  (∃ p, h.config.thread t = .running p ∧ ClosesOnce false p ∧ h.config.mem.file name = []) ∨
  Shown t h (h.config.mem.file name) ∧
    ((∃ p, h.config.thread t = .running p ∧ ClosesOnce true p) ∨
      ∃ reply, h.config.thread t = .returned reply)

/-- Nobody else is printing to the file once the call is under way. -/
def Undisputed (t : ι) (name : List CChar) (h : FsHistory fs task m) : Prop :=
  ∀ u, u ≠ t → task u = .print name → (∃ p, h.config.thread u = .running p) →
    h.config.thread t = .waiting

/-- What others do that leaves the file alone. -/
theorem Alone.of_other (ha : Alone t name h) (hn : h.Next e h') (he : e.thread ≠ t)
    (hfile : h'.config.mem.file name = h.config.mem.file name) : Alone t name h' := by
  rw [Alone, hn.thread_eq he, hfile]
  exact ha.imp_right (Or.imp_right fun ⟨hs, hx⟩ => ⟨hs.next hn, hx⟩)

section Step

variable (hvalid : ∀ t, (task t).Valid) (hT : TreeInv fs.inodeTable.capacity m.node)
  (hlocks : ∀ i, m.locks i = []) (ht : task t = .print name)

include hvalid hT hlocks

/-- Another thread does not touch the file. -/
theorem file_eq_of_other (hundisputed : Undisputed t name h)
    (hstarted : h.config.thread t ≠ .waiting)
    (hn : h.Next e h') (he : e.thread ≠ t) :
    h'.config.mem.file name = h.config.mem.file name := by
  cases e with
  | invoke u => rw [hn.of_invoke.2.2]
  | respond u =>
    obtain ⟨-, -, -, hmem⟩ := hn.of_respond
    rw [hmem]
  | action u =>
    obtain ⟨o, k, r, hact, -, hexec⟩ := hn.of_action
    have hprints : ∀ n, task u = .print n → n ≠ name := by
      rintro n hu rfl
      exact hstarted (hundisputed u he hu ⟨_, hact⟩)
    by_cases hopen : ∃ n, o = .fopen n
    · obtain ⟨n, rfl⟩ := hopen
      obtain ⟨n', hu⟩ := prints_of_at hvalid hT hlocks h ⟨k, hact⟩ (Or.inl ⟨n, rfl⟩)
      obtain ⟨rfl, -⟩ := printing_of_at hvalid hT hlocks hu h ⟨k, hact⟩
      rcases exec_fopen hexec with ⟨-, hmem⟩ | ⟨-, hmem⟩
      · rw [hmem, Mem.setFile_of_ne _ (hprints n hu).symm]
      · rw [hmem]
    by_cases hclose : ∃ out, o = .fclose out
    · obtain ⟨out, rfl⟩ := hclose
      obtain ⟨n', hu⟩ := prints_of_at hvalid hT hlocks h ⟨k, hact⟩ (Or.inr ⟨out, rfl⟩)
      obtain ⟨rfl, -⟩ := printing_of_at hvalid hT hlocks hu h ⟨k, hact⟩
      rw [(exec_fclose hexec).2, Mem.setFile_of_ne _ (hprints _ hu).symm]
    rw [not_exists] at hopen hclose
    rw [exec_file hexec hopen hclose]

include ht

/-- **One action of the listing.** -/
theorem Alone.action (ha : Alone t name h) (hn : h.Next (.action t) h') : Alone t name h' := by
  obtain ⟨o, k, r, hact, hp, hexec⟩ := hn.of_action
  have hfile : ∀ closed, ClosesOnce closed (.act o k) → (∀ out, o ≠ .fclose out) →
      h'.config.mem.file name = h.config.mem.file name ∧ ClosesOnce closed (k r) := by
    intro closed hc hclose
    have hopen : ∀ n, o ≠ .fopen n := by
      rintro n rfl
      exact hc.1
    have hless : o.Fileless := by
      cases o with
      | fopen n => exact absurd rfl (hopen n)
      | fclose out => exact absurd rfl (hclose out)
      | _ => trivial
    refine ⟨by rw [exec_file hexec hopen hclose], ?_⟩
    have hrest := hc.2 r
    rwa [(hless.unnoticed closed).2] at hrest
  rcases ha with hu | ⟨p, hp', hc, hnil⟩ | ⟨hs, hx⟩
  · obtain rfl := Unopened.eq_fopen (hact ▸ hu)
    obtain ⟨-, hstart⟩ := printing_of_at hvalid hT hlocks ht h ⟨k, hact⟩
    have hprog := Thread.running.inj (hstart.symm.trans hact)
    rcases exec_fopen hexec with ⟨rfl, hmem⟩ | ⟨rfl, hmem⟩
    · exact Or.inr (Or.inl ⟨_, hp, closesOnce_of_opened hprog, by rw [hmem, Mem.setFile_self]⟩)
    · rw [(closes_of_opened hprog).2] at hp
      exact Or.inl (hp ▸ Or.inr rfl)
  · obtain rfl := Thread.running.inj (hact.symm.trans hp')
    by_cases hclose : ∃ out, o = .fclose out
    · obtain ⟨out, rfl⟩ := hclose
      obtain ⟨rfl, -⟩ := printing_of_at hvalid hT hlocks ht h ⟨k, hact⟩
      have hwritten : Shown t h out.written := writing_of_at hvalid hT hlocks ht h ⟨k, hact⟩
      refine Or.inr (Or.inr ⟨?_, Or.inl ⟨_, hp, hc.2 r⟩⟩)
      rw [(exec_fclose hexec).2, Mem.setFile_self, hnil, List.drop_nil, List.append_nil]
      exact hwritten.next hn
    · obtain ⟨hsame, hrest⟩ := hfile false hc (not_exists.mp hclose)
      exact Or.inr (Or.inl ⟨_, hp, hrest, hsame.trans hnil⟩)
  · rcases hx with ⟨p, hp', hc⟩ | ⟨reply, hret⟩
    · obtain rfl := Thread.running.inj (hact.symm.trans hp')
      have hclose : ∀ out, o ≠ .fclose out := by
        rintro out rfl
        cases hc.1
      obtain ⟨hsame, hrest⟩ := hfile true hc hclose
      exact Or.inr (Or.inr ⟨hsame ▸ hs.next hn, Or.inl ⟨_, hp, hrest⟩⟩)
    · cases hact.symm.trans hret

/-- **One step.** -/
theorem Alone.step (ha : Alone t name h) (hundisputed : Undisputed t name h)
    (hn : h.Next e h') : Alone t name h' := by
  by_cases he : e.thread = t
  · subst he
    cases e with
    | action t => exact ha.action hvalid hT hlocks ht hn
    | invoke t =>
      obtain ⟨-, hp, -⟩ := hn.of_invoke
      exact Or.inl (hp ▸ Or.inl (by rw [show task t = .print name from ht]))
    | respond t =>
      obtain ⟨reply, hret, hp, hmem⟩ := hn.of_respond
      rw [Event.thread] at ha
      rcases ha with hu | ⟨p, hp', hc, -⟩ | ⟨hs, -⟩
      · rw [hret] at hu
        exact Or.inl (hp ▸ Prog.ret.inj (hu.resolve_left fun heq => by cases heq))
      · obtain rfl := Thread.running.inj (hret.symm.trans hp')
        cases hc
      · exact Or.inr (Or.inr ⟨hmem ▸ hs.next hn, Or.inr ⟨reply, hp⟩⟩)
  · by_cases hstarted : h.config.thread t = .waiting
    · rw [Alone, hn.thread_eq he, hstarted]
      exact Or.inl trivial
    · exact ha.of_other hn he (file_eq_of_other hvalid hT hlocks hundisputed hstarted hn he)

/-- **What a listing leaves in its file**, if no other call prints to it while it is under way. -/
theorem shown_of_alone (h : FsHistory fs task m)
    (hundisputed : ∀ h₁ : FsHistory fs task m, h₁.Before h → Undisputed t name h₁) {reply : Reply}
    (hret : h.config.thread t = .returned reply) (hopened : reply ≠ .print (.error .create)) :
    Shown t h (h.config.mem.file name) := by
  have halone : Alone t name h := by
    obtain ⟨tr, c, hrun⟩ := h
    clear hret
    induction hrun with
    | nil => exact Or.inl trivial
    | @snoc tr c c' e hrun hs ih =>
      have hn : History.Next ⟨tr, c, hrun⟩ e ⟨tr ++ [e], c', hrun.snoc hs⟩ := ⟨rfl, hs⟩
      exact (ih fun h₁ hb => hundisputed h₁ (hb.next hn)).step hvalid hT hlocks ht
        (hundisputed _ ((History.Before.refl _).next hn)) hn
  rcases halone with hu | ⟨p, hp, -⟩ | ⟨hs, -⟩
  · rw [hret] at hu
    exact absurd hu hopened
  · cases hret.symm.trans hp
  · exact hs

end Step

end TecnicoFs
