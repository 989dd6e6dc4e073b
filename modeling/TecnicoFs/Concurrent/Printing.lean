import TecnicoFs.Concurrent.Safety
import TecnicoFs.Interleaving.History

/-!
# Listings in files

`tfs_fs_print` opens the file before it locks the root, and closes it after it has given
back the root.  The lock keeps the walks of two listings apart, but not what they do to
the file: the first to open it may be the last to close it, and what it has to write may be
shorter than what the other one has left there.  The file is then neither listing.

That is all that can go wrong.  What a listing is about to write when it closes its file is
the listing of the tree at the instant at which it got the root, and if each of them finds
nothing in the file that goes on behind what it writes, the file is such a listing whenever
nobody is printing to it.
-/

namespace TecnicoFs

open Interleaving Graph TfsProg

variable {ι : Type} [DecidableEq ι]

/-- The listing of an inode and of what is below it, `depth` levels deep. -/
def listing (T : Tree) : Nat → Nat → List CChar → List CChar
  | 0, _, _ => []
  | depth + 1, idx, path =>
      path ++ [0x0a] ++ match T idx with
        | .dir dir => dir.children.flatMap fun child =>
            listing T depth child.2 (childPath path child.1)
        | _ => []

/-- The runs of the tasks, with their past. -/
abbrev FsHistory (fs : TfsFs) (task : ι → Task) (m : Mem ι) :=
  History (machine ι) (fun t => (task t).prog fs) m

variable {fs : TfsFs} {task : ι → Task} {m : Mem ι} {h h' : FsHistory fs task m}
  {name s : List CChar} {t : ι} {e : Event ι}

/-- **The listing of the tree at one instant** of a call that prints to the file. -/
def Snapshot (name : List CChar) (h : FsHistory fs task m) (s : List CChar) : Prop :=
  ∃ t h₁, task t = .print name ∧ History.Before h₁ h ∧ (∃ p, h₁.config.thread t = .running p) ∧
    s = listing h₁.config.mem.node fs.inodeTable.capacity tfsFsRootIdx []

theorem Snapshot.next (hs : Snapshot name h s) (hn : h.Next e h') : Snapshot name h' s := by
  obtain ⟨t, h₁, ht, hb, hp, rfl⟩ := hs
  exact ⟨t, h₁, ht, hb.next hn, hp, rfl⟩

/-- **What a thread saw** when it got the root: the listing of the tree at that instant. -/
def Shown (t : ι) (h : FsHistory fs task m) (s : List CChar) : Prop :=
  ∃ h₁, History.Before h₁ h ∧ (∃ p, h₁.config.thread t = .running p) ∧
    (t, .unique) ∈ h₁.config.mem.locks 0 ∧
    s = listing h₁.config.mem.node fs.inodeTable.capacity tfsFsRootIdx []

theorem Shown.next (hs : Shown t h s) (hn : h.Next e h') : Shown t h' s := by
  obtain ⟨h₁, hb, hp, hroot, rfl⟩ := hs
  exact ⟨h₁, hb.next hn, hp, hroot, rfl⟩

theorem Shown.snapshot (hs : Shown t h s) (ht : task t = .print name) : Snapshot name h s := by
  obtain ⟨h₁, hb, hp, -, rfl⟩ := hs
  exact ⟨t, h₁, ht, hb, hp, rfl⟩

/-- An action that has nothing to do with files. -/
def Op.Fileless : Op → Prop
  | .fopen _ => False
  | .fclose _ => False
  | _ => True

/-- What a listing does to the files: it opens one at its start, and closes it with a
snapshot. -/
def Printing (t : ι) (name : List CChar) : Op → FsHistory fs task m → Prop
  | .fopen n, h => n = name ∧ h.config.thread t = .running ((Task.print name).prog fs)
  | .fclose out, h => out.name = name ∧ Snapshot name h out.written
  | _, _ => True

/-- A listing writes what its thread saw. -/
def Writing (t : ι) : Op → FsHistory fs task m → Prop
  | .fclose out, h => Shown t h out.written
  | _, _ => True

/-! ## The walk -/

/-- A listing that got the root at the end of `h₁` still has it. -/
structure Walking (t : ι) (h₁ h : FsHistory fs task m) : Prop where
  before : h₁.Before h
  running : ∃ p, h₁.config.thread t = .running p
  root : (t, .unique) ∈ h.config.mem.locks 0
  node : ∀ cs i, Walk (Child h₁.config.mem.node) 0 cs i →
    h.config.mem.node i = h₁.config.mem.node i

theorem Walking.next {h₁ : FsHistory fs task m} (hw : Walking t h₁ h) (hn : h.Next e h')
    (hmem : h'.config.mem = h.config.mem) : Walking t h₁ h' where
  before := hw.before.next hn
  running := hw.running
  root := by rw [hmem]; exact hw.root
  node := by rw [hmem]; exact hw.node

section Walk

variable (hvalid : ∀ t, (task t).Valid) (hT : TreeInv fs.inodeTable.capacity m.node)
  (hlocks : ∀ i, m.locks i = []) (ht : task t = .print name)

include hvalid hT hlocks ht

/-- **Nobody disturbs a walk.** -/
theorem stable_walking (h₁ : FsHistory fs task m) : Stable t (Walking t h₁) := by
  intro h e h' he hn hw
  obtain ⟨w, hg⟩ := exists_good_of_run hvalid hT hlocks h.run
  obtain ⟨w', hg', hrely⟩ := Setup.exists_rely hg he hn.step
  refine ⟨hw.before.next hn, hw.running, ?_, fun cs i hi => ?_⟩
  · rw [← hg'.mem]
    exact (hrely.locks 0 _).mpr (hg.mem ▸ hw.root)
  · have hwalk := (walk_congr fun ds k wk => hw.node ds k wk).mpr hi
    exact (Setup.node_step hg ⟨name, ht⟩ hw.root he hn.step hwalk).trans (hw.node cs i hi)

variable {pre : Op → FsHistory fs task m → Prop} (hpre : ∀ o h, o.Fileless → pre o h)

include hpre

/-- Reading what can be reached from the root. -/
theorem Walking.onTrack_read {α : Type} {h₁ : FsHistory fs task m} {f : TfsInode → TfsProg α}
    {Q : α → FsHistory fs task m → Prop} {cs : List (List CChar)} {i : Nat}
    (hi : Walk (Child h₁.config.mem.node) 0 cs i) (hw : Walking t h₁ h)
    (hf : ∀ h', Walking t h₁ h' → OnTrack t pre Q (f (h₁.config.mem.node i)) h') :
    OnTrack t pre Q (TfsProg.read i >>= f) h := by
  refine OnTrack.perform (stable_walking hvalid hT hlocks ht h₁) hw (fun _ _ => hpre _ _ trivial)
    fun r h' h'' hw' hn he => ?_
  obtain ⟨rfl, hmem⟩ := exec_read he
  rw [hw'.node cs i hi]
  exact hf h'' (hw'.next hn hmem)

theorem Walking.onTrack_assert {α : Type} {h₁ : FsHistory fs task m} {f : Unit → TfsProg α}
    {Q : α → FsHistory fs task m → Prop} {site : AssertSite} {holds : Bool}
    (hw : Walking t h₁ h) (hf : ∀ h', Walking t h₁ h' → OnTrack t pre Q (f ()) h') :
    OnTrack t pre Q (TfsProg.assert site holds >>= f) h :=
  OnTrack.perform (stable_walking hvalid hT hlocks ht h₁) hw (fun _ _ => hpre _ _ trivial)
    fun _ _ h'' hw' hn he => hf h'' (hw'.next hn (exec_assert he).2)

/-- **What `tfs_inode_table_print_tree` writes** is the listing. -/
theorem Walking.onTrack_printTree {h₁ : FsHistory fs task m}
    {Q : TfsStream → FsHistory fs task m → Prop} {depth i : Nat} {cs : List (List CChar)}
    {out : TfsStream} {path : List CChar} (hi : Walk (Child h₁.config.mem.node) 0 cs i)
    (hw : Walking t h₁ h)
    (hQ : ∀ h', Walking t h₁ h' →
      Q ⟨out.name, out.written ++ listing h₁.config.mem.node depth i path⟩ h') :
    OnTrack t pre Q (tfsInodeTablePrintTree fs.inodeTable depth i out path) h := by
  have hst := stable_walking hvalid hT hlocks ht h₁
  induction depth generalizing Q i cs out path h with
  | zero => exact fun h' _ => ⟨hpre _ _ trivial, fun r => Empty.elim r⟩
  | succ depth ih =>
    rw [tfsInodeTablePrintTree]
    refine onTrack_assert hvalid hT hlocks ht hpre hw fun h₂ hw₂ => ?_
    refine onTrack_read hvalid hT hlocks ht hpre hi hw₂ fun h₃ hw₃ => ?_
    refine onTrack_assert hvalid hT hlocks ht hpre hw₃ fun h₄ hw₄ => ?_
    refine onTrack_read hvalid hT hlocks ht hpre hi hw₄ fun h₅ hw₅ => ?_
    rw [listing] at hQ
    cases hd : h₁.config.mem.node i with
    | none =>
      rw [hd] at hQ
      exact OnTrack.ret hst hw₅ fun h' hw' => by simpa [TfsStream.println] using hQ h' hw'
    | file =>
      rw [hd] at hQ
      exact OnTrack.ret hst hw₅ fun h' hw' => by simpa [TfsStream.println] using hQ h' hw'
    | dir d =>
      rw [hd] at hQ
      dsimp only at hQ ⊢
      -- the entries, one after the other: what is written and what is left to be
      refine OnTrack.foldlM (J := fun entries out' h' => (∀ e ∈ entries, e ∈ d.entries) ∧
        Walking t h₁ h' ∧ out'.name = out.name ∧
        out'.written ++ ((entries.filterMap TfsInodeDirEntry.child).flatMap fun child =>
          listing h₁.config.mem.node depth child.2 (childPath path child.1)) =
        out.written ++ (path ++ [0x0a] ++ d.children.flatMap fun child =>
          listing h₁.config.mem.node depth child.2 (childPath path child.1))) ?_ ?_
        ⟨fun _ he => he, hw₅, rfl, by simp [TfsStream.println, TfsInodeDir.children]⟩
      · rintro out' h' ⟨-, hw', hname, hwritten⟩
        refine OnTrack.ret hst hw' fun h'' hw'' => ?_
        obtain ⟨name', written⟩ := out'
        rw [List.filterMap_nil, List.flatMap_nil, List.append_nil] at hwritten
        obtain rfl : name' = out.name := hname
        obtain rfl := hwritten
        exact hQ h'' hw''
      · rintro entry entries out' h' ⟨hsub, hw', hname, hwritten⟩
        have hrest := fun e' he' => hsub e' (List.mem_cons_of_mem entry he')
        cases hidx : entry.inodeIdx with
        | none =>
          have hnone : entry.child = none := by rw [TfsInodeDirEntry.child, hidx]; rfl
          rw [List.filterMap_cons, hnone] at hwritten
          exact OnTrack.ret hst hw' fun h'' hw'' => ⟨hrest, hw'', hname, hwritten⟩
        | some j =>
          have hsome : entry.child = some (entry.name, j) :=
            TfsInodeDirEntry.child_eq_some_iff.mpr (by rw [← hidx])
          have hchild : Child h₁.config.mem.node i entry.name j :=
            ⟨d, hd, List.mem_filterMap.mpr ⟨entry, hsub entry List.mem_cons_self, hsome⟩⟩
          rw [List.filterMap_cons, hsome, List.flatMap_cons, ← List.append_assoc] at hwritten
          exact ih (hi.snoc hchild) hw' fun h'' hw'' => ⟨hrest, hw'', hname, hwritten⟩

/-- Getting the root. -/
theorem onTrack_lockRoot {Q : TfsLockedInode → FsHistory fs task m → Prop}
    (hQ : ∀ inode h₁ h', Walking t h₁ h₁ → Walking t h₁ h' → Q inode h') :
    OnTrack t pre Q (tfsInodeTableLock fs.inodeTable tfsFsRootIdx .unique) h := by
  have hany : ∀ h e h', History.Next (h : FsHistory fs task m) e h' → True → True :=
    fun _ _ _ _ => id
  rw [tfsInodeTableLock]
  refine OnTrack.perform_keep hany trivial (fun _ _ => hpre _ _ trivial) fun _ h₂ _ => ?_
  refine OnTrack.perform (fun h e h' _ => hany h e h') trivial (fun _ _ => hpre _ _ trivial)
    fun r h₃ h₄ _ hn he => ?_
  have hw : Walking t h₄ h₄ := by
    obtain ⟨_, _, _, -, hp, -⟩ := hn.of_action
    refine ⟨.refl h₄, ⟨_, hp⟩, ?_, fun _ _ _ => rfl⟩
    rw [(exec_lock he).2, tfsFsRootIdx, Mem.setLocks_self]
    exact List.mem_cons_self
  refine Walking.onTrack_read hvalid hT hlocks ht hpre Walk.nil hw fun h₅ hw₅ => ?_
  refine Walking.onTrack_assert hvalid hT hlocks ht hpre hw₅ fun h₆ hw₆ => ?_
  refine Walking.onTrack_read hvalid hT hlocks ht hpre Walk.nil hw₆ fun h₇ hw₇ => ?_
  exact OnTrack.ret (stable_walking hvalid hT hlocks ht h₄) hw₇ fun h' => hQ _ h₄ h' hw

/-- **What a listing does to its file**: it opens it at the start, and closes it with what
the thread saw. -/
theorem onTrack_print
    (hopen : ∀ h : FsHistory fs task m, h.config.thread t = .running ((Task.print name).prog fs) →
      pre (.fopen name) h)
    (hclose : ∀ (h : FsHistory fs task m) s, Shown t h s → pre (.fclose ⟨name, s⟩) h)
    (hstart : h.config.thread t = .running ((Task.print name).prog fs)) :
    OnTrack t pre (fun _ _ => True) ((Task.print name).prog fs) h := by
  have hany : ∀ h e h', History.Next (h : FsHistory fs task m) e h' → True → True :=
    fun _ _ _ _ => id
  have hshown : ∀ {s : List CChar}, ∀ h e h', History.Next (h : FsHistory fs task m) e h' →
      Shown t h s → Shown t h' s := fun _ _ _ hn hs => hs.next hn
  rw [Task.prog, tfsFsPrint]
  refine OnTrack.bind (OnTrack.perform (A := fun h => h.config.thread t = _)
    (fun _ _ _ he hn hp => (hn.thread_eq he).trans hp) hstart hopen fun opened _ h₁ _ _ _ => ?_)
  cases opened with
  | false => exact fun _ _ _ _ => trivial
  | true =>
    refine OnTrack.bind (onTrack_lockRoot hvalid hT hlocks ht hpre fun _ h₂ h₃ hw₂ hw₃ => ?_)
    refine OnTrack.bind (hw₃.onTrack_printTree hvalid hT hlocks ht hpre Walk.nil fun h₄ hw₄ => ?_)
    have hshown₄ : Shown t h₄ ([] ++ listing h₂.config.mem.node fs.inodeTable.capacity 0 []) :=
      ⟨h₂, hw₄.before, hw₄.running, hw₂.root, rfl⟩
    rw [tfsInodeTableUnlockInode]
    refine OnTrack.perform_keep hshown hshown₄ (fun _ _ => hpre _ _ trivial) fun _ h₅ hs₅ => ?_
    refine OnTrack.perform_keep hshown hs₅ (fun _ _ => hpre _ _ trivial) fun _ h₆ hs₆ => ?_
    refine OnTrack.perform_keep hshown hs₆ (fun _ _ => hpre _ _ trivial) fun _ h₇ hs₇ => ?_
    refine OnTrack.perform_keep hshown hs₇ (fun _ _ => hpre _ _ trivial) fun _ h₈ hs₈ => ?_
    refine OnTrack.perform_keep hshown hs₈ (fun h hs => hclose h _ hs) fun closed h₉ _ => ?_
    refine OnTrack.perform_keep hany trivial (fun _ _ => hpre _ _ trivial) fun _ h₁₀ _ => ?_
    exact fun _ _ _ _ => trivial

omit hpre

/-- What a listing is about to do to a file. -/
theorem printing_of_at (h : FsHistory fs task m) {o : Op} (ho : h.config.At t o) :
    Printing t name o h := by
  refine h.pre (Q := fun _ _ => True) (fun h' hrunning => ?_) ho
  rw [ht] at hrunning ⊢
  refine onTrack_print hvalid hT hlocks ht (fun o _ ho => ?_) (fun _ hp => ⟨rfl, hp⟩)
    (fun _ _ hs => ⟨rfl, hs.snapshot ht⟩) hrunning
  cases o <;> first | exact ho.elim | trivial

/-- What a listing is about to write is what its thread saw. -/
theorem writing_of_at (h : FsHistory fs task m) {o : Op} (ho : h.config.At t o) :
    Writing t o h := by
  refine h.pre (Q := fun _ _ => True) (fun h' hrunning => ?_) ho
  rw [ht] at hrunning ⊢
  refine onTrack_print hvalid hT hlocks ht (fun o _ ho => ?_) (fun _ _ => trivial)
    (fun _ _ hs => hs) hrunning
  cases o <;> first | exact ho.elim | trivial

end Walk

/-! ## The file -/

/-- Whether a stream has been closed. -/
def Op.Closes (closed : Bool) : Op → Bool
  | .fclose _ => true
  | _ => closed

/-- The program will close a stream before it returns. -/
def Closes {α : Type} (p : TfsProg α) : Prop :=
  p.Keeps (fun _ _ => True) Op.Closes (fun closed _ => closed = true) false

/-- A listing that has not opened its file, or could not. -/
def Unopened (fs : TfsFs) (name : List CChar) : Thread Op Op.Resp Reply → Prop
  | .waiting => True
  | .running p => p = (Task.print name).prog fs ∨ p = .ret (.print (.error .create))
  | .returned reply => reply = .print (.error .create)

/-- **What the file is.**  It has not been opened yet, or it is a snapshot, or it is empty
and will be closed. -/
def Explained (name : List CChar) (h : FsHistory fs task m) : Prop :=
  (∀ t, task t = .print name → Unopened fs name (h.config.thread t)) ∨
  Snapshot name h (h.config.mem.file name) ∨
  h.config.mem.file name = [] ∧
    ∃ t p, task t = .print name ∧ h.config.thread t = .running p ∧ Closes p

/-- Closing a file does not mix what is written with what was there. -/
def Unmixed (name : List CChar) (c : Config Op Op.Resp ι (Mem ι) Reply) (e : Event ι) : Prop :=
  ∀ t out, e = .action t → c.At t (.fclose out) → out.name = name →
    (c.mem.file name).length ≤ out.written.length ∨ out.written <+: c.mem.file name

/-- What is in a file after something was written over it. -/
theorem overwrite_eq_iff {written old : List CChar} :
    (written ++ old.drop written.length = written ∨ written ++ old.drop written.length = old) ↔
      old.length ≤ written.length ∨ written <+: old := by
  refine or_congr ?_ ?_
  · rw [List.append_right_eq_self, List.drop_eq_nil_iff]
  · constructor
    · exact fun h => ⟨_, h⟩
    · rintro ⟨rest, rfl⟩
      rw [List.drop_left]

/-- A listing that has opened its file will close it. -/
theorem closes_of_opened {k : Bool → TfsProg Reply}
    (hk : (Task.print name).prog fs = .act (.fopen name) k) :
    Closes (k true) ∧ k false = .ret (.print (.error .create)) := by
  obtain ⟨-, hk⟩ := Prog.act.inj hk
  obtain rfl := eq_of_heq hk
  refine ⟨?_, rfl⟩
  -- whatever comes before the stream is closed, it is closed
  refine Prog.Keeps.bind (Prog.Keeps.bind (p := .ret true) ?_)
  refine Prog.Keeps.bind (.of_forall (fun _ _ => trivial) fun b _ => ?_)
  refine Prog.Keeps.bind (.of_forall (fun _ _ => trivial) fun b out => ?_)
  refine Prog.Keeps.bind (.of_forall (fun _ _ => trivial) fun b _ => ?_)
  exact ⟨trivial, fun _ => ⟨trivial, fun _ => rfl⟩⟩

/-- A listing that has not opened its file is about to open it. -/
theorem Unopened.eq_fopen {o : Op} {k : o.Resp → TfsProg Reply}
    (hu : Unopened fs name (.running (.act o k))) : o = .fopen name := by
  rcases hu with hu | hu
  · exact (Prog.act.inj hu).1
  · cases hu

/-- What does not concern the file. -/
theorem Explained.of_unchanged (hx : Explained name h) (hn : h.Next e h')
    (hfile : h'.config.mem.file name = h.config.mem.file name)
    (hopen : task e.thread = .print name → Unopened fs name (h.config.thread e.thread) →
      Unopened fs name (h'.config.thread e.thread))
    (hclose : ∀ p, task e.thread = .print name → h.config.thread e.thread = .running p →
      Closes p → ∃ p', h'.config.thread e.thread = .running p' ∧ Closes p') :
    Explained name h' := by
  rcases hx with hx | hs | ⟨hnil, t, p, ht, hp, hc⟩
  · refine Or.inl fun t ht => ?_
    by_cases het : e.thread = t
    · subst het
      exact hopen ht (hx _ ht)
    · rw [hn.thread_eq het]
      exact hx t ht
  · exact Or.inr (Or.inl (hfile ▸ hs.next hn))
  · refine Or.inr (Or.inr ⟨hfile.trans hnil, t, ?_⟩)
    by_cases het : e.thread = t
    · subst het
      obtain ⟨p', hp', hc'⟩ := hclose p ht hp hc
      exact ⟨p', ht, hp', hc'⟩
    · exact ⟨p, ht, (hn.thread_eq het).trans hp, hc⟩

section File

variable (hvalid : ∀ t, (task t).Valid) (hT : TreeInv fs.inodeTable.capacity m.node)
  (hlocks : ∀ i, m.locks i = [])

include hvalid hT hlocks

/-- Only listings open and close files. -/
theorem prints_of_at (h : FsHistory fs task m) {o : Op} (ho : h.config.At t o)
    (hfile : (∃ n, o = .fopen n) ∨ ∃ out, o = .fclose out) : ∃ n, task t = .print n := by
  obtain ⟨w, hg⟩ := exists_good_of_run hvalid hT hlocks h.run
  rcases hfile with ⟨n, rfl⟩ | ⟨out, rfl⟩
  · exact hg.pre ho
  · exact hg.pre ho

/-- Opening a file. -/
theorem Explained.fopen (hx : Explained name h) (hn : h.Next (.action t) h') {n : List CChar}
    {k : (Op.fopen n).Resp → TfsProg Reply} {opened : (Op.fopen n).Resp}
    (hact : h.config.thread t = .running (.act (.fopen n) k))
    (hp : h'.config.thread t = .running (k opened))
    (hexec : (machine ι).exec t (.fopen n) h.config.mem = some (opened, h'.config.mem)) :
    Explained name h' := by
  obtain ⟨n', ht⟩ := prints_of_at hvalid hT hlocks h ⟨k, hact⟩ (Or.inl ⟨n, rfl⟩)
  obtain ⟨rfl, hstart⟩ := printing_of_at hvalid hT hlocks ht h ⟨k, hact⟩
  obtain ⟨htrue, hfalse⟩ := closes_of_opened (Thread.running.inj (hstart.symm.trans hact))
  rcases exec_fopen hexec with ⟨rfl, hmem⟩ | ⟨rfl, hmem⟩
  · by_cases hname : n = name
    · subst hname
      exact Or.inr (Or.inr ⟨by rw [hmem, Mem.setFile_self], t, _, ht, hp, htrue⟩)
    · have hne : task t ≠ .print name := by
        rw [ht]
        exact fun heq => hname (Task.print.inj heq)
      refine hx.of_unchanged hn ?_ (fun heq => absurd heq hne) fun _ heq => absurd heq hne
      rw [hmem, Mem.setFile_of_ne _ (Ne.symm hname)]
  · -- a listing that could not open its file is through
    rw [hfalse] at hp
    refine hx.of_unchanged hn (by rw [hmem]) (fun _ _ => ?_) fun p _ hp' hc => ?_
    · exact hp ▸ Or.inr rfl
    · obtain rfl := Thread.running.inj (hact.symm.trans hp')
      have hrest := hc.2 false
      rw [hfalse] at hrest
      cases hrest

/-- Closing a file. -/
theorem Explained.fclose (hx : Explained name h) (hn : h.Next (.action t) h') {out : TfsStream}
    {k : (Op.fclose out).Resp → TfsProg Reply} {closed : (Op.fclose out).Resp}
    (hact : h.config.thread t = .running (.act (.fclose out) k))
    (hexec : (machine ι).exec t (.fclose out) h.config.mem = some (closed, h'.config.mem))
    (hun : Unmixed name h.config (.action t)) : Explained name h' := by
  obtain ⟨n, ht⟩ := prints_of_at hvalid hT hlocks h ⟨k, hact⟩ (Or.inr ⟨out, rfl⟩)
  obtain ⟨rfl, hsnap⟩ := printing_of_at hvalid hT hlocks ht h ⟨k, hact⟩
  obtain ⟨-, hmem⟩ := exec_fclose hexec
  by_cases hname : out.name = name
  · subst hname
    have hfile : h'.config.mem.file out.name = out.written ++
        (h.config.mem.file out.name).drop out.written.length := by
      rw [hmem, Mem.setFile_self]
    rcases overwrite_eq_iff.mpr (hun t out rfl ⟨k, hact⟩ rfl) with heq | heq
    · exact Or.inr (Or.inl (by rw [hfile, heq]; exact hsnap.next hn))
    rw [heq] at hfile
    rcases hx with hx | hs | ⟨hnil, -⟩
    · -- a file that was not opened is not closed
      cases Unopened.eq_fopen (hact ▸ hx t ht)
    · exact Or.inr (Or.inl (hfile ▸ hs.next hn))
    · rw [hnil, List.append_eq_nil_iff] at heq
      exact Or.inr (Or.inl (by rw [hfile, hnil, ← heq.1]; exact hsnap.next hn))
  · have hne : task t ≠ .print name := by
      rw [ht]
      exact fun heq => hname (Task.print.inj heq)
    refine hx.of_unchanged hn ?_ (fun heq => absurd heq hne) fun _ heq => absurd heq hne
    rw [hmem, Mem.setFile_of_ne _ (Ne.symm hname)]

/-- **What the file is stays explained** at each step that does not mix it up. -/
theorem Explained.step (hx : Explained name h) (hn : h.Next e h')
    (hun : Unmixed name h.config e) : Explained name h' := by
  cases e with
  | invoke t =>
    obtain ⟨hwait, hp, hmem⟩ := hn.of_invoke
    refine hx.of_unchanged hn (by rw [hmem]) (fun ht _ => ?_) fun p _ hp' => ?_
    · exact hp ▸ Or.inl (by rw [show task t = .print name from ht])
    · cases hwait.symm.trans hp'
  | respond t =>
    obtain ⟨a, hret, hp, hmem⟩ := hn.of_respond
    refine hx.of_unchanged hn (by rw [hmem]) (fun _ hu => ?_) fun p _ hp' hc => ?_
    · rw [Event.thread, hret] at hu
      rw [Event.thread, hp]
      exact Prog.ret.inj (hu.resolve_left fun heq => by cases heq)
    · obtain rfl := Thread.running.inj (hret.symm.trans hp')
      cases hc
  | action t =>
    obtain ⟨o, k, r, hact, hp, hexec⟩ := hn.of_action
    by_cases hopen : ∃ n, o = .fopen n
    · obtain ⟨n, rfl⟩ := hopen
      exact hx.fopen hvalid hT hlocks hn hact hp hexec
    by_cases hclose : ∃ out, o = .fclose out
    · obtain ⟨out, rfl⟩ := hclose
      exact hx.fclose hvalid hT hlocks hn hact hexec hun
    rw [not_exists] at hopen hclose
    refine hx.of_unchanged hn (by rw [exec_file hexec hopen hclose]) (fun _ hu => ?_)
      fun p _ hp' hc => ⟨_, hp, ?_⟩
    · exact absurd (Unopened.eq_fopen (hact ▸ hu)) (hopen name)
    · obtain rfl := Thread.running.inj (hact.symm.trans hp')
      have hnext : Op.Closes false o = false := by
        cases o with
        | fclose out => exact absurd rfl (hclose out)
        | _ => rfl
      have hrest := hc.2 r
      rw [hnext] at hrest
      exact hrest

/-- A whole run. -/
theorem explained_of_run {tr : List (Event ι)} {c : Config Op Op.Resp ι (Mem ι) Reply}
    (hrun : RunBy (machine ι) (fun t => (task t).prog fs) (Unmixed name) (.initial m) tr c) :
    Explained name (⟨tr, c, hrun.run⟩ : FsHistory fs task m) := by
  induction hrun with
  | nil => exact Or.inl fun _ _ => trivial
  | snoc _ hs hun ih => exact ih.step hvalid hT hlocks ⟨rfl, hs⟩ hun

end File

/-- The thread has printed. -/
def Printed : Thread Op Op.Resp Reply → Bool
  | .returned (.print (.ok ())) => true
  | _ => false

theorem printed_iff {x : Thread Op Op.Resp Reply} :
    Printed x = true ↔ x = .returned (.print (.ok ())) := by
  constructor
  · intro h
    unfold Printed at h
    split at h
    · rfl
    · cases h
  · rintro rfl
    rfl

/-- If the thread is about to close a stream to `out`, it overwrites all of the file. -/
def ClosesAll (c : Config Op Op.Resp Bool (Mem Bool) Reply) (t : Bool) : Bool :=
  match c.op t with
  | some (.fclose out) => decide ((c.mem.file (cstr "out")).length ≤ out.written.length)
  | _ => true

/-- Two files, two listings and a removal. -/
def overlappingPrints : Nat → Task
  | 0 => .call (.create ⟨0, cstr "/ab"⟩ .file)
  | 1 => .call (.create ⟨0, cstr "/c"⟩ .file)
  | 2 => .print (cstr "out")
  | 3 => .print (cstr "out")
  | 4 => .call (.remove ⟨0, cstr "/ab"⟩)
  | _ => .call (.find ⟨0, cstr "/"⟩ .shared)

/-- Both listings are about to close the file when the first of them does; one of the two
files was removed between their walks. -/
def overlap : List Nat :=
  .replicate 24 0 ++ .replicate 27 1 ++ .replicate 23 2 ++ .replicate 23 4 ++ .replicate 19 3 ++
    .replicate 3 2 ++ .replicate 3 3

end TecnicoFs
