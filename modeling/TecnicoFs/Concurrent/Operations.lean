import TecnicoFs.Concurrent.LockAll
import TecnicoFs.Concurrent.Allocate

/-!
# Creating, removing and finding

The operations of `fs.c` but for moves and listings, each followed along its text: what
it knows when it stops acquiring decides its outcome, in this tree and in every other
tree that agrees with it in what is held.
-/

namespace TecnicoFs

open Interleaving Function

variable {ι : Type} [DecidableEq ι]

namespace Setup

variable {S : Setup ι} {t : ι} {E : S.protocol.Env t} {held : List (Nat × TfsRwLockAccess)}
  {T N : Tree} {w : FsWorld ι} {i : Nat} {a : TfsRwLockAccess} {path : TfsPath}

/-! ## The parent -/

/-- What `tfs_fs_create` and `tfs_fs_remove` begin with: the parent is locked, and has to be
a directory. -/
theorem parent_safe {α : Type} {Q : α → FsWorld ι → Prop} {c : Call} {todo : List Request}
    {slot : Option Nat} {errDir : α}
    {k : Except TfsFsFindError TfsLockedInode × LockedInodes → TfsProg α}
    (hc : S.task t = .call c) (hplan : c.plan = planLockAll path .unique ++ todo)
    (htrim : comps path.str = [] ↔ path.len = 0) (h : Local t [] T T [] slot w)
    (kindFind : TfsFsFindErrorKind → ErrorKind) (kindDir : ErrorKind)
    (hfind : ∀ kind T', locate T' 0 (comps path.str) = .error kind →
      ∃ s, atomic T' s c = .fail T' (kindFind kind))
    (hdir : ∀ T' parent, locate T' 0 (comps path.str) = .ok parent → (T' parent).type ≠ .dir →
      requests T' todo = [] ∧ ∃ s, atomic T' s c = .fail T' kindDir)
    (herror : ∀ w' err arr, S.Finished t (.error (kindFind err.kind)) w' →
      S.Safe E Q (k (.error err, arr)) w')
    (hk : ∀ inode arr, inode.type ≠ .dir → k (.ok inode, arr) = do
      tfsFsUnlockInodes S.fs arr 0 (tfsPathComponentsLen path + 1)
      pure errDir)
    (hnotDir : ∀ w', S.Finished t (.error kindDir) w' → Q errDir w')
    (hbody : ∀ w' T' held arr parent d, TreeInv S.capacity T' →
      Made T' (planLockAll path .unique) held → Local t held T' T' [] slot w' →
      Stored arr 0 held → held.length = tfsPathComponentsLen path + 1 →
      locate T' 0 (comps path.str) = .ok parent → T' parent = .dir d →
      (parent, .unique) ∈ held → S.Safe E Q (k (.ok ⟨parent, .dir⟩, arr)) w') :
    S.Safe E Q (tfsFsLockAll S.fs path (.new (tfsPathComponentsLen path + 1)) .unique >>= k)
      w := by
  have hvalid := S.valid t
  rw [hc] at hvalid
  have hext : Extends [] c.plan := @Task.extends_plan (.call c) hvalid
  refine Safe.bind (tfsFsLockAll_safe hc hplan h kindFind (fun kind T' _ => hfind kind T') ?_ ?_)
  · intro w₁ T₁ held arr parent hi₁ hT₁ hmade h₁ hstored hlen hparent
    have hmade' : Made T₁ (planLockAll path .unique ++ []) held := by rwa [List.append_nil]
    have hmem := hmade'.mem_planLockAll_access htrim hparent
    by_cases htype : (T₁ parent).type = .dir
    · rw [htype]
      obtain ⟨d, hd⟩ := TfsInode.type_eq_dir_iff.mp htype
      exact hbody w₁ T₁ held arr parent d hT₁ hmade h₁ hstored hlen hparent hd hmem
    · rw [hk _ _ htype]
      have hready : S.Ready t held T₁ (.error kindDir) none := by
        refine ready_of_made hc hplan hmade (by simp) fun T' _ hagree _ => ?_
        obtain ⟨hstop, s, hs⟩ := hdir T' parent ((hmade'.locate_planLockAll hagree).trans hparent)
          (by rwa [hagree _ hmem])
        exact ⟨hstop, s, hs, fits_of_error (by rw [hs]; rfl)⟩
      refine Safe.bind (unlockAll_safe hlen hstored (hready.toDone h₁)
        (hmade.nodup hT₁ hext hplan) (hmade.live hT₁ hext hplan) fun w₂ _ h₂ w₃ hs₃ _ => ?_)
      exact hnotDir w₃ (h₂.env hs₃).finished_error
  · intro w₁ T₁ arr err hi₁ hdone
    exact herror w₁ err arr hdone.finished_error

/-! ## A child -/

/-- What `tfs_fs_remove` and the rename of `tfs_fs_move` go on with: the entry is looked up
in the locked directory `parent`, and the child is locked. -/
theorem child_safe {α : Type} {Q : α → FsWorld ι → Prop} {c : Call} {access : TfsRwLockAccess}
    {name : List CChar} {slot : Option Nat} {arr : LockedInodes} {parent : Nat} {d : TfsInodeDir}
    {errNone : α} {k : Option (Nat × Nat) → TfsProg α}
    {body : Nat → Nat → TfsLockedInode → TfsProg α} (hc : S.task t = .call c)
    (hne : ∀ path type, c ≠ .create path type)
    (hplan : c.plan = planLockAll path access ++ [⟨comps path.str ++ [name], .unique, none⟩])
    (hT : TreeInv S.capacity T) (hmade : Made T (planLockAll path access) held)
    (h : Local t held T T [] slot w) (hstored : Stored arr 0 held)
    (hlen : held.length = tfsPathComponentsLen path + 1)
    (hparent : locate T 0 (comps path.str) = .ok parent) (hd : T parent = .dir d)
    (kindNone : ErrorKind)
    (hatomic : ∀ T', locate T' 0 (comps path.str) = .ok parent → T' parent = .dir d →
      tfsInodeDirSearchByName d name = none → atomic T' 0 c = .fail T' kindNone)
    (hk : k none = do
      tfsFsUnlockInodes S.fs arr 0 (tfsPathComponentsLen path + 1)
      pure errNone)
    (hnone : ∀ w', S.Finished t (.error kindNone) w' → Q errNone w')
    (hbody : ∀ child dirIdx, k (some (child, dirIdx)) =
      tfsInodeTableLock S.fs.inodeTable child .unique >>= body child dirIdx)
    (hsome : ∀ w' T' child dirIdx, tfsInodeDirSearchByName d name = some (child, dirIdx) →
      (∀ x ∈ held ++ [(child, .unique)], T' x.1 ≠ .none ∧ x.1 < S.capacity) →
      (held.map Prod.fst).Nodup → (∀ x ∈ held, x.1 ≠ child) →
      Made T' c.plan (held ++ [(child, .unique)]) →
      (∀ T'', (∀ x ∈ held ++ [(child, .unique)], T'' x.1 = T' x.1) →
        locate T'' 0 (comps path.str) = .ok parent ∧ T'' parent = .dir d) →
      Local t (held ++ [(child, .unique)]) T' T' [] slot w' →
      S.Safe E Q (body child dirIdx ⟨child, (T' child).type⟩) w') :
    S.Safe E Q (TfsLockedInode.searchByName ⟨parent, .dir⟩ name >>= k) w := by
  have hvalid := S.valid t
  rw [hc] at hvalid
  have hext : Extends [] c.plan := @Task.extends_plan (.call c) hvalid
  have hmade' : Made T (planLockAll path access ++ []) held := by rwa [List.append_nil]
  obtain ⟨b, hmem⟩ := hmade'.mem_planLockAll hparent
  have hsame : ∀ T', (∀ x ∈ held, T' x.1 = T x.1) →
      locate T' 0 (comps path.str) = .ok parent ∧ T' parent = .dir d :=
    fun T' hagree => ⟨(hmade'.locate_planLockAll hagree).trans hparent, (hagree _ hmem).trans hd⟩
  refine Safe.bind (searchByName_safe h hmem hd fun w₁ _ h₁ => ?_)
  cases hsearch : tfsInodeDirSearchByName d name with
  | none =>
    have hready : S.Ready t held T (.error kindNone) none := by
      refine ready_of_made hc hplan hmade (by simp) fun T' _ hagree _ => ?_
      obtain ⟨hp, hd'⟩ := hsame T' hagree
      have herr := locate_append_singleton hp hd' name
      rw [hsearch] at herr
      exact ⟨requests_eq_nil_of_error herr, 0, hatomic T' hp hd' hsearch, fits_of_ne_create hne⟩
    rw [hk]
    refine Safe.bind (unlockAll_safe hlen hstored (hready.toDone h₁) (hmade.nodup hT hext hplan)
      (hmade.live hT hext hplan) fun w₂ _ h₂ w₃ hs₃ _ => ?_)
    exact hnone w₃ (h₂.env hs₃).finished_error
  | some x =>
    obtain ⟨child, dirIdx⟩ := x
    have hplan' : (S.task t).plan = planLockAll path access ++
        ⟨comps path.str ++ [name], .unique, none⟩ :: [] := by rw [hc]; exact hplan
    have hnames := locate_append_singleton hparent hd name
    rw [hsearch] at hnames
    rw [hbody]
    refine Safe.bind (tfsInodeTableLock_safe hplan' hmade h₁ ⟨hnames, by simp⟩
      fun w₂ T₂ hT₂ hagree₂ hmade₂ _ _ h₂ => ?_)
    rw [← hplan] at hmade₂
    have hlive := hmade₂.live hT₂ hext (List.append_nil _).symm
    obtain ⟨hnodup, hfresh⟩ := nodup_snoc_iff.mp (hmade₂.nodup hT₂ hext (List.append_nil _).symm)
    refine hsome w₂ T₂ child dirIdx hsearch (fun x hx => ⟨hlive x hx, hT₂.bound (hlive x hx)⟩)
      hnodup hfresh hmade₂ (fun T' hagree => hsame T' fun x hx => ?_) h₂
    exact (hagree x (List.mem_append_left _ hx)).trans (hagree₂ x hx)

/-! ## Create -/

theorem tfsFsCreate_safe {type : TfsInodeType} (hc : S.task t = .call (.create path type))
    (h : Local t [] T T [] none w) :
    S.Safe E (fun result w' => S.Finished t (Reply.create result).outcome w')
      (tfsFsCreate S.fs path type) w := by
  have hvalid : NulFree path.str ∧ type ≠ .none := by
    have := S.valid t
    rwa [hc] at this
  have hext : Extends [] (Call.create path type).plan :=
    @Task.extends_plan (.call (.create path type)) hvalid
  refine parent_safe hc (List.append_nil _).symm (comps_popLast_rest_eq_nil_iff path) h
    .createInexistentParentDir .createParentNotDir ?_ ?_ ?_ (fun _ _ htype => if_pos htype)
    (fun _ h => h) ?_
  · intro kind T' herr
    exact ⟨0, by rw [atomic, atomicCreate, herr]⟩
  · intro T' parent hparent htype
    exact ⟨rfl, 0, atomicCreate_of_not_dir hparent htype 0 type⟩
  · exact fun _ _ _ h _ hs _ => h.env hs
  · intro w₁ T₁ held arr parent d hT₁ hmade h₁ hstored hlen hparent hd hmem
    have hmade' : Made T₁ (planLockAll (tfsPathPopLast path).2 .unique ++ []) held := by
      rwa [List.append_nil]
    have hnodup := hmade.nodup hT₁ hext (List.append_nil _).symm
    have hlive := hmade.live hT₁ hext (List.append_nil _).symm
    have hsame : ∀ T', (∀ x ∈ held, T' x.1 = T₁ x.1) →
        locate T' 0 (comps (tfsPathPopLast path).2.str) = .ok parent := fun T' hagree =>
      (hmade'.locate_planLockAll hagree).trans hparent
    refine Safe.bind (tfsInodeTableAdd_safe ⟨path, type, hc⟩ hmade'.root_mem hvalid.2 h₁
      fun w₂ idx hi₂ hcap hne h₂ => ?_)
    have hpi : parent ≠ idx := hne _ hmem
    have hmem₂ : (parent, Access.unique) ∈ held ++ [(idx, .unique)] := List.mem_append_left _ hmem
    have hidx : (idx, Access.unique) ∈ held ++ [(idx, .unique)] := by simp
    have hroot : ∃ b, (0, b) ∈ held ++ [(idx, Access.unique)] := by
      obtain ⟨b, hb⟩ := hmade'.root_mem
      exact ⟨b, List.mem_append_left _ hb⟩
    have hT₂ : ∀ x ∈ held, update T₁ idx .none x.1 = T₁ x.1 := fun x hx => update_of_ne (hne x hx) ..
    have hN : update T₁ idx (tfsInodeInit type) parent = .dir d := (update_of_ne hpi ..).trans hd
    have hnodup₂ : ((held ++ [(idx, Access.unique)]).map Prod.fst).Nodup :=
      nodup_snoc_iff.mpr ⟨hnodup, hne⟩
    refine Safe.bind (Safe.bind (dir_safe h₂ hmem₂ hN fun w₃ _ h₃ => ?_))
    cases hadd : tfsInodeDirAddEntry d idx (tfsPathPopLast path).1.str with
    | error err =>
      -- the entry cannot be added: the slot is emptied again
      refine safe_pure h₃ fun w₄ _ h₄ => ?_
      dsimp only
      have hready : S.Ready t held T₁ (.error (.createAddEntry err.kind)) none := by
        refine ready_of_made hc (List.append_nil _).symm hmade (by simp) fun T' _ hagree _ => ?_
        have hatomic := atomicCreate_of_dir (hsame T' hagree)
          ((hagree _ hmem).trans hd) idx type
        rw [hadd] at hatomic
        exact ⟨rfl, idx, hatomic, fits_of_error (by rw [atomic, hatomic]; rfl)⟩
      have hdone : S.Done t (held ++ [(idx, .unique)]) (update T₁ idx .none)
          (update T₁ idx (tfsInodeInit type)) (.error (.createAddEntry err.kind)) none w₄ := by
        refine ⟨fun x hx => ?_, [], some idx, h₄,
          Or.inl ⟨rfl, hready.mono (fun x hx => List.mem_append_left _ hx) hT₂⟩⟩
        by_cases hxi : x.1 = idx
        · exact Or.inl (hxi ▸ update_self ..)
        · exact Or.inr (by rw [update_of_ne hxi, update_of_ne hxi])
      refine Safe.bind (tfsFsUnlockInodes_safe hlen hstored hdone hnodup₂
        (fun x hx => by rw [hT₂ x hx]; exact hlive x hx) (by simp) fun w₅ _ h₅ => ?_)
      refine Safe.bind (tfsInodeTableRemoveInode_safe h₅ ⟨_, hc⟩ (update_self ..) hcap (by simp)
        (by simp) fun w₆ _ h₆ => ?_)
      exact fun w₇ hs₇ _ => (h₆.env hs₇).finished_error
    | ok d' =>
      -- the write of the parent is where the creation happens
      have hatomic : ∀ T', (∀ x ∈ held ++ [(idx, Access.unique)],
          T' x.1 = update T₁ idx .none x.1) → atomic T' idx (.create path type) =
          ⟨.ok (some idx), update (update T' idx (tfsInodeInit type)) parent (.dir d'), none⟩ := by
        intro T' hagree
        have hagree' : ∀ x ∈ held, T' x.1 = T₁ x.1 := fun x hx =>
          (hagree x (List.mem_append_left _ hx)).trans (hT₂ x hx)
        rw [atomic, atomicCreate_of_dir (hsame T' hagree') ((hagree' _ hmem).trans hd), hadd]
      have htype₂ : (TfsInode.dir d').type = (update T₁ idx TfsInode.none parent).type := by
        rw [update_of_ne hpi, hd]
        rfl
      have hagree : ∀ x ∈ held, ∀ T' : Tree, T' x.1 = update T₁ idx .none x.1 → T' x.1 = T₁ x.1 :=
        fun x hx T' hT' => hT'.trans (hT₂ x hx)
      refine Safe.bind (safe_write_commit h₃ hc hroot hmem₂ htype₂ idx (.ok (some idx))
        (fun T' => update (update T' idx (tfsInodeInit type)) parent (.dir d')) ?_ ?_ ?_ ?_)
      · intro T' hT' hagree'
        refine ⟨hatomic T' hagree', ?_, ?_⟩
        · rintro path' type' - -
          exact ⟨(hagree' _ hidx).trans (update_self ..), hcap⟩
        · rw [requests_of_made hc hmade fun x hx =>
            hagree x hx T' (hagree' x (List.mem_append_left _ hx))]
          exact fun x hx => List.mem_append_left _ hx
      · intro T' j hj
        by_cases hjp : j = parent
        · exact hjp ▸ hmem₂
        · by_cases hji : j = idx
          · exact hji ▸ hidx
          · rw [update_of_ne hjp, update_of_ne hji] at hj
            exact absurd rfl hj
      · intro T' hagree' x hx
        refine Or.inr ?_
        by_cases hxp : x.1 = parent
        · rw [hxp, update_self, update_self]
        · rw [update_of_ne hxp, update_of_ne hxp]
          by_cases hxi : x.1 = idx
          · rw [hxi, update_self, update_self]
          · rw [update_of_ne hxi, update_of_ne hxi, hagree' x hx, update_of_ne hxi]
      · intro w₄ T' _ hagree' hdone
        refine fun w₅ hs₅ _ => Safe.bind ?_
        refine tfsFsUnlockInodes_safe hlen hstored (hdone.env hs₅) hnodup₂ (fun x hx => ?_) (by simp)
          fun w₆ _ h₆ w₇ hs₇ _ => (h₆.env hs₇).finished_inode ?_
        · by_cases hxp : x.1 = parent
          · rw [hxp, update_self]
            simp
          · rw [update_of_ne hxp, update_of_ne (hne x hx)]
            rw [hagree x hx T' (hagree' x (List.mem_append_left _ hx))]
            exact hlive x hx
        · rw [update_of_ne hpi.symm, update_self, Ne, ← TfsInode.type_eq_none_iff,
            type_tfsInodeInit]
          exact hvalid.2
/-! ## Find -/

theorem tfsFsFind_safe {access : TfsRwLockAccess} (hc : S.task t = .call (.find path access))
    (h : Local t [] T T [] none w) :
    S.Safe E (fun result w' => S.Finished t (Reply.find result).outcome w')
      (tfsFsFind S.fs path access) w := by
  have hvalid : NulFree path.str := by
    have := S.valid t
    rwa [hc] at this
  have hext : Extends [] (Call.find path access).plan :=
    @Task.extends_plan (.call (.find path access)) hvalid
  refine Safe.bind (tfsFsLockAll_safe hc (List.append_nil _).symm h .find ?_ ?_ ?_)
  · intro kind T' _ herr
    exact ⟨0, by rw [atomic, atomicFind, herr]⟩
  · intro w₁ T₁ held arr i hi₁ hT₁ hmade h₁ hstored hlen hi
    have hnodup := hmade.nodup hT₁ hext (List.append_nil _).symm
    have hlive := hmade.live hT₁ hext (List.append_nil _).symm
    obtain ⟨init, b, rfl⟩ := hmade.exists_last hi
    have hready : S.Ready t (init ++ [(i, b)]) T₁ (.ok (some i)) none := by
      refine ready_of_made hc (List.append_nil _).symm hmade (by simp) fun T' _ hagree _ => ?_
      have hmade' : Made T₁ (planLockAll path access ++ []) (init ++ [(i, b)]) := by
        rwa [List.append_nil]
      have hi' := (hmade'.locate_planLockAll hagree).trans hi
      exact ⟨rfl, 0, by rw [atomic, atomicFind, hi'], fits_of_ne_create (by simp)⟩
    have hstored' : Stored arr 0 init := by
      intro k x hx
      exact hstored k x (by rw [List.getElem?_append_left (List.getElem?_eq_some_iff.mp hx).1, hx])
    refine Safe.bind (tfsFsUnlockInodes_safe (by simpa using hlen) hstored' (hready.toDone h₁) hnodup
      (fun x hx => hlive x (List.mem_append_left _ hx)) (by simp) fun w₂ _ h₂ => ?_)
    exact fun w₃ hs₃ _ => (h₂.env hs₃).finished_inode (hlive (i, b) (by simp))
  · intro w₁ T₁ arr err hi₁ hdone
    exact fun w₂ hs₂ _ => (hdone.env hs₂).finished_error

/-! ## Remove -/

theorem childNonEmpty_safe {Q : Bool → FsWorld ι → Prop} {mine : List (Entry ι)}
    {slot : Option Nat} (h : Local t held T N mine slot w) (hmem : (i, a) ∈ held)
    (hQ : ∀ w', S.Inv w' → Local t held T N mine slot w' → Q (nonEmptyDir (N i)) w') :
    S.Safe E Q (tfsFsRemove.childNonEmpty ⟨i, (N i).type⟩) w := by
  rw [tfsFsRemove.childNonEmpty]
  by_cases htype : (N i).type = .dir
  · obtain ⟨d, hd⟩ := TfsInode.type_eq_dir_iff.mp htype
    rw [hd] at hQ
    rw [if_pos htype]
    exact Safe.bind (dir_safe h hmem hd fun _ _ h₁ => safe_pure h₁ hQ)
  · have hfalse : nonEmptyDir (N i) = false := by
      cases hi : N i with
      | dir d => exact absurd (by rw [hi]; rfl) htype
      | none => rfl
      | file => rfl
    rw [hfalse] at hQ
    rw [if_neg htype]
    exact safe_pure h hQ

theorem removeEntryByDirIdx_assert {d : TfsInodeDir} {name : List CChar} {child dirIdx : Nat}
    (hname : NulFree name) (h : tfsInodeDirSearchByName d name = some (child, dirIdx)) :
    dirIdx < d.capacity :=
  (List.getElem?_eq_some_iff.mp (tfsInodeDirSearchByName_eq_some hname h)).1

theorem tfsFsRemove_safe (hc : S.task t = .call (.remove path)) (h : Local t [] T T [] none w) :
    S.Safe E (fun result w' => S.Finished t (Reply.remove result).outcome w')
      (tfsFsRemove S.fs path) w := by
  have hvalid : NulFree path.str := by
    have := S.valid t
    rwa [hc] at this
  have hname : NulFree (tfsPathPopLast path).1.str := nulFree_tfsPathPopLast hvalid
  refine parent_safe hc rfl (comps_popLast_rest_eq_nil_iff path) h .removeInexistentParentDir
    .removeParentNotDir ?_ ?_ ?_ (fun _ _ htype => if_pos htype) (fun _ h => h) ?_
  · intro kind T' herr
    exact ⟨0, by rw [atomic, atomicRemove, herr]⟩
  · intro T' parent hparent htype
    have herr := (locate_append_of_ok hparent [(tfsPathPopLast path).1.str]).trans
      (locate_cons_of_not_dir htype _ _)
    exact ⟨requests_eq_nil_of_error herr, 0, atomicRemove_of_not_dir hparent htype⟩
  · exact fun _ _ _ h _ hs _ => h.env hs
  · intro w₁ T₁ held arr parent d hT₁ hmade h₁ hstored hlen hparent hd hmem
    refine child_safe hc (by simp) rfl hT₁ hmade h₁ hstored hlen hparent hd .removeNameNotFound
      ?_ rfl (fun _ h => h) (fun _ _ => rfl) ?_
    · intro T' hp hd' hsearch
      rw [atomic, atomicRemove_of_dir hp hd', hsearch]
    · intro w₃ T₃ child dirIdx hsearch hlive hnodup hne hmade₃ hsame h₃
      have hroot : ∃ b, (0, b) ∈ held ++ [(child, Access.unique)] := hmade₃.root_mem
      have hmem₃ : (parent, Access.unique) ∈ held ++ [(child, .unique)] :=
        List.mem_append_left _ hmem
      have hchild : (child, Access.unique) ∈ held ++ [(child, .unique)] := by simp
      have hd₃ : T₃ parent = .dir d := (hsame T₃ fun _ _ => rfl).2
      have hatomic : ∀ T', (∀ x ∈ held ++ [(child, Access.unique)], T' x.1 = T₃ x.1) →
          atomicRemove T' path = if nonEmptyDir (T₃ child) then .fail T' .removeNonEmptyDir
            else ⟨.ok none, update (update T' parent (.dir (tfsInodeDirRemoveEntryByDirIdx d dirIdx)))
              child .none, none⟩ := by
        intro T' hagree
        obtain ⟨hp, hd'⟩ := hsame T' hagree
        have hsame₃ : T' child = T₃ child := hagree _ hchild
        rw [atomicRemove_of_dir hp hd', hsearch, ← hsame₃]
      refine Safe.bind (childNonEmpty_safe h₃ hchild fun w₄ _ h₄ => ?_)
      cases hempty : nonEmptyDir (T₃ child) with
      | true =>
        have hready : S.Ready t (held ++ [(child, .unique)]) T₃ (.error .removeNonEmptyDir)
            none := by
          refine ready_of_made hc (List.append_nil _).symm hmade₃ (by simp)
            fun T' _ hagree _ => ⟨rfl, 0, ?_, fits_of_ne_create (by simp)⟩
          rw [atomic, hatomic T' hagree, hempty]
          rfl
        rw [if_pos rfl]
        refine Safe.bind (tfsFsUnlockInodes_safe hlen hstored (hready.toDone h₄)
          (nodup_snoc_iff.mpr ⟨hnodup, hne⟩) (fun x hx => (hlive x (List.mem_append_left _ hx)).1)
          (by simp) fun w₅ _ h₅ => ?_)
        refine Safe.bind (tfsInodeTableUnlockInode_safe h₅ (hlive _ hchild).1 (by simp) (by simp)
          fun w₆ _ h₆ w₇ hs₇ _ => (h₆.env hs₇).finished_error)
      | false =>
        rw [if_neg (by simp)]
        refine Safe.bind (Safe.bind (dir_safe h₄ hmem₃ hd₃ fun w₅ _ h₅ => ?_))
        refine Safe.bind (safe_assert h₅ (decide_eq_true (removeEntryByDirIdx_assert hname hsearch))
          (fun _ _ _ => trivial) fun w₆ _ h₆ => ?_)
        refine safe_write_commit h₆ hc hroot hmem₃ (by rw [hd₃]; rfl) 0
          (.ok none) (fun T' => update (update T' parent
            (.dir (tfsInodeDirRemoveEntryByDirIdx d dirIdx))) child .none) ?_ ?_ ?_ ?_
        · intro T' _ hagree
          refine ⟨?_, fits_of_ne_create (by simp), ?_⟩
          · rw [atomic, hatomic T' hagree, hempty]
            rfl
          · rw [requests_of_made hc hmade₃ hagree]
            exact fun x hx => hx
        · intro T' j hj
          by_cases hjc : j = child
          · exact hjc ▸ hchild
          · by_cases hjp : j = parent
            · exact hjp ▸ hmem₃
            · rw [update_of_ne hjc, update_of_ne hjp] at hj
              exact absurd rfl hj
        · intro T' hagree x hx
          by_cases hxc : x.1 = child
          · exact Or.inl (hxc ▸ update_self ..)
          · refine Or.inr ?_
            rw [update_of_ne hxc]
            by_cases hxp : x.1 = parent
            · rw [hxp, update_self, update_self]
            · rw [update_of_ne hxp, update_of_ne hxp, hagree x hx]
        · intro w₇ T' _ hagree hdone
          have hperm : S.Done t ((child, .unique) :: held) _ _ (.ok none) none w₇ :=
            hdone.congr fun x => by simp [or_comm]
          refine Safe.bind (tfsInodeTableRemoveInode_safe hperm ⟨_, hc⟩ (update_self ..)
            (hlive _ hchild).2 hne (by simp) fun w₈ _ h₈ => ?_)
          refine Safe.bind (unlockAll_safe hlen hstored h₈ hnodup (fun x hx => ?_)
            fun w₉ _ h₉ w' hs' _ => (h₉.env hs').finished_none)
          have hx' := List.mem_append_left [(child, Access.unique)] hx
          rw [update_of_ne (hne x hx)]
          by_cases hxp : x.1 = parent
          · rw [hxp, update_self]
            simp
          · rw [update_of_ne hxp, hagree x hx']
            exact (hlive x hx').1

end Setup

end TecnicoFs
