import TecnicoFs.Concurrent.Release

/-!
# Locking along a path

What `tfs_fs_lock_all_from` and `tfs_fs_lock_all` do in the middle of a call.  The loop
makes the requests of one `chain` of the plan.  Either it makes all of them and the slot
it returns is where the path leads to, or it stops at a component that does not resolve;
then the outcome of the call is decided, and it gives back what it locked.
-/

namespace TecnicoFs

open Interleaving Function

variable {ι : Type} [DecidableEq ι]

namespace Setup

variable {S : Setup ι} {t : ι} {E : S.protocol.Env t} {held base : List (Nat × TfsRwLockAccess)}
  {T N : Tree} {slot : Option Nat} {w : FsWorld ι} {i : Nat} {a : TfsRwLockAccess} {c : Call}
  {done todo : List Request} {leak : Option (Nat × TfsRwLockAccess)}

/-! ## When a call is ready -/

omit [DecidableEq ι] in
/-- A call that made all its requests makes the same ones in every tree that agrees. -/
theorem requests_of_made (hc : S.task t = .call c) (hmade : Made T c.plan held) {T' : Tree}
    (hagree : ∀ x ∈ held, T' x.1 = T x.1) : requests T' c.plan = held := by
  have hvalid := S.valid t
  rw [hc] at hvalid
  have hclosed : Closed c.plan := @Task.closed_plan (.call c) hvalid
  have hmade' := hmade.congr hclosed (List.append_nil _).symm hagree
  have heq := @Made.requests_eq T' c.plan [] held hmade' rfl
  rwa [List.append_nil] at heq

omit [DecidableEq ι] in
/-- A call that makes no further request, and whose effect is known from what it holds. -/
theorem ready_of_made {r : Outcome} (hc : S.task t = .call c) (hplan : c.plan = done ++ todo)
    (hmade : Made T done held) (hleak : ∀ x ∈ leak, x ∈ held)
    (hatomic : ∀ T', TreeInv S.capacity T' → (∀ x ∈ held, T' x.1 = T x.1) → Made T' done held →
      requests T' todo = [] ∧
        ∃ s, atomic T' s c = ⟨r, T', leak⟩ ∧ Fits S.capacity T' s c) :
    S.Ready t held T r leak := by
  have hvalid := S.valid t
  rw [hc] at hvalid
  have hclosed : Closed c.plan := @Task.closed_plan (.call c) hvalid
  refine ⟨c, hc, hleak, fun T' hT' hagree => ?_⟩
  have hmade' := hmade.congr hclosed hplan hagree
  obtain ⟨hstop, s, hs, hfit⟩ := hatomic T' hT' hagree hmade'
  refine ⟨s, hs, hfit, fun x hx => ?_⟩
  rwa [hplan, hmade'.requests_eq hstop] at hx

/-- A call that fails meets the condition on the slot of a creation. -/
theorem fits_of_error {capacity : Nat} {s : Nat} {kind : ErrorKind}
    (h : (atomic T s c).outcome = .error kind) : Fits capacity T s c := by
  rintro path type - ⟨i, hi⟩
  rw [h] at hi
  cases hi

/-- So does a call that is no creation. -/
theorem fits_of_ne_create {capacity s : Nat} (h : ∀ path type, c ≠ .create path type) :
    Fits capacity T s c :=
  fun path type hc => absurd hc (h path type)

omit [DecidableEq ι] in
/-- A path of the plan does not resolve. -/
theorem ready_of_error {q : Request} {kind : TfsFsFindErrorKind}
    (hc : S.task t = .call c) (hplan : c.plan = done ++ q :: todo) (hmade : Made T done held)
    (herr : locate T 0 q.path = .error kind) (k : ErrorKind)
    (hfail : ∀ T', TreeInv S.capacity T' → (∀ x ∈ held, T' x.1 = T x.1) → Made T' done held →
      locate T' 0 q.path = .error kind → ∃ s, atomic T' s c = .fail T' k) :
    S.Ready t held T (.error k) none := by
  have hvalid := S.valid t
  rw [hc] at hvalid
  have hcov := ((@Task.closed_plan (.call c) hvalid) done q todo hplan).1
  refine ready_of_made hc hplan hmade (by simp) fun T' hT' hagree hmade' => ?_
  have herr' := (hmade.locate_congr hagree hcov).trans herr
  obtain ⟨s, hs⟩ := hfail T' hT' hagree hmade' herr'
  exact ⟨requests_eq_nil_of_error herr', s, hs, fits_of_error (by rw [hs]; rfl)⟩

/-! ## The loop -/

/-- **The loop of `tfs_fs_lock_all_from`.** -/
theorem tfsFsLockAllFrom_loop_safe
    {Q : Except TfsFsFindError TfsLockedInode × LockedInodes → FsWorld ι → Prop}
    (hc : S.task t = .call c) {path curPath : TfsPath} {access : TfsRwLockAccess}
    {pre cs : List (List CChar)} {cur start : Nat} {arr : LockedInodes}
    {new : List (Nat × TfsRwLockAccess)} (htrim : Text.Trimmed isSlashOrSpace curPath.str)
    (hcs : comps curPath.str = cs)
    (hplan : c.plan = done ++ (chain pre cs access ++ todo))
    (hT : TreeInv S.capacity T) (hmade : Made T done (base ++ new))
    (h : Local t (base ++ new) T T [] slot w)
    (hcur : locate T 0 pre = .ok cur) (hmem : ∃ b, (cur, b) ∈ base ++ new)
    (hstored : Stored arr start new)
    (hlen : start + new.length + cs.length ≤ arr.length)
    (hlast : cs = [] → ∃ last, start + new.length = last + 1 ∧
      arr[last]? = some (some ⟨cur, (T cur).type⟩))
    (kindOf : TfsFsFindErrorKind → ErrorKind)
    (hfail : ∀ kind T' held', TreeInv S.capacity T' → (∀ x ∈ base, T' x.1 = T x.1) →
      Made T' done held' → locate T' 0 (pre ++ cs) = .error kind →
      ∃ s, atomic T' s c = .fail T' (kindOf kind))
    (hok : ∀ w' T' new' arr' j, S.Inv w' → TreeInv S.capacity T' →
      (∀ x ∈ base ++ new, T' x.1 = T x.1) → Made T' (done ++ chain pre cs access) (base ++ new') →
      Local t (base ++ new') T' T' [] slot w' → Stored arr' start new' →
      (∀ k < start, arr'[k]? = arr[k]?) →
      new'.length = new.length + cs.length →
      locate T' 0 (pre ++ cs) = .ok j → Q (.ok ⟨j, (T' j).type⟩, arr') w')
    (herror : ∀ w' T' arr' err, S.Inv w' → TreeInv S.capacity T' → (∀ x ∈ base, T' x.1 ≠ .none) →
      S.Done t base T' T' (.error (kindOf err.kind)) none w' → Q (.error err, arr') w') :
    S.Safe E Q (tfsFsLockAllFrom.loop S.fs path start access curPath ⟨cur, (T cur).type⟩ arr
      new.length) w := by
  have hvalid := S.valid t
  rw [hc] at hvalid
  have hext : Extends [] c.plan := @Task.extends_plan (.call c) hvalid
  induction cs generalizing T new pre cur done curPath arr w with
  | nil =>
    obtain ⟨last, hlast, hget⟩ := hlast rfl
    have hzero := (len_eq_zero_iff_of_trimmed htrim).mpr hcs
    rw [tfsFsLockAllFrom.loop, dif_neg (not_not.mpr hzero), hlast]
    dsimp only
    rw [LockedInodes.get_of_getElem? hget, pure_bind]
    refine safe_pure h fun w' hi' h' => ?_
    exact hok w' T new arr cur hi' hT (fun _ _ => rfl) (by simpa [chain] using hmade) h' hstored
      (fun _ _ => rfl) rfl (by simpa using hcur)
  | cons name cs ih =>
    have hnonzero := len_ne_zero_of_cons hcs
    obtain ⟨rfl, hrest⟩ := tfsPathPopFirst_of_cons hcs
    have htrim' := trimmed_tfsPathPopFirst_rest curPath
    have hzero : (tfsPathPopFirst curPath).2.len = 0 ↔ cs = [] := by
      rw [len_eq_zero_iff_of_trimmed htrim', hrest]
    obtain ⟨b, hmem⟩ := hmem
    -- the component does not resolve: gives back what was locked so far
    have habort : ∀ {err : TfsFsFindError} {w' : FsWorld ι},
        Local t (base ++ new) T T [] slot w' →
        locate T 0 (pre ++ [(tfsPathPopFirst curPath).1.str]) = .error err.kind →
        S.Safe E Q (do
          tfsFsUnlockInodes S.fs arr start new.length
          pure (.error err, arr)) w' := by
      intro err w' h' herr
      have hready := ready_of_error hc hplan hmade herr (kindOf err.kind)
        fun T' hT' hagree hmade' herr' => hfail _ T' _ hT'
          (fun x hx => hagree x (List.mem_append_left _ hx)) hmade' (by
          rw [← List.singleton_append, ← List.append_assoc]
          exact locate_append_of_error herr' cs)
      have hnodup := hmade.nodup hT hext hplan
      have hlive := hmade.live hT hext hplan
      have hdone : S.Done t (new ++ base) T T (.error (kindOf err.kind)) none w' :=
        (hready.toDone h').congr (by simp [or_comm])
      refine Safe.bind (tfsFsUnlockInodes_safe rfl hstored hdone ?_ ?_ (by simp)
        fun w₁ _ h₁ w₂ hs₂ hi₂ => ?_)
      · exact ((List.perm_append_comm.map Prod.fst).nodup_iff).mpr hnodup
      · exact fun x hx => hlive x (List.mem_append_right _ hx)
      · exact herror w₂ T arr err hi₂ hT (fun x hx => hlive x (List.mem_append_left _ hx))
          (h₁.env hs₂)
    have hstep : locate T 0 (pre ++ [(tfsPathPopFirst curPath).1.str]) =
        locate T cur [(tfsPathPopFirst curPath).1.str] := locate_append_of_ok hcur _
    rw [tfsFsLockAllFrom.loop, dif_pos hnonzero]
    dsimp only
    by_cases htype : (T cur).type = .dir
    swap
    · rw [if_pos htype]
      exact habort h (hstep.trans (locate_cons_of_not_dir htype _ _))
    obtain ⟨d, hd⟩ := TfsInode.type_eq_dir_iff.mp htype
    rw [if_neg (not_not.mpr htype)]
    refine Safe.bind (searchByName_safe h hmem hd fun w₁ _ h₁ => ?_)
    rw [locate_cons_of_dir hd] at hstep
    cases hsearch : tfsInodeDirSearchByName d (tfsPathPopFirst curPath).1.str with
    | none =>
      rw [hsearch] at hstep
      exact habort h₁ hstep
    | some x =>
      obtain ⟨child, dirIdx⟩ := x
      rw [hsearch] at hstep
      have hacc : (if (tfsPathPopFirst curPath).2.len = 0 then access else Access.shared) =
          if cs = [] then access else Access.shared := by simp only [hzero]
      dsimp only
      rw [hacc]
      have hplan' : (S.task t).plan = done ++ ⟨pre ++ [(tfsPathPopFirst curPath).1.str],
          if cs = [] then access else .shared, none⟩ ::
            (chain (pre ++ [(tfsPathPopFirst curPath).1.str]) cs access ++ todo) := by
        rw [hc]
        exact hplan
      refine Safe.bind (tfsInodeTableLock_safe hplan' hmade h₁ ⟨hstep, by simp⟩
        fun w₂ T' hT' hagree hmade' hr _ h₂ => ?_)
      have hlt : start + new.length < arr.length := by
        rw [List.length_cons] at hlen
        omega
      have hcat : pre ++ [(tfsPathPopFirst curPath).1.str] ++ cs =
          pre ++ (tfsPathPopFirst curPath).1.str :: cs := by simp
      have hlength : ∀ x : Nat × TfsRwLockAccess, new.length + 1 = (new ++ [x]).length := by simp
      rw [List.append_assoc] at hmade' h₂
      rw [LockedInodes.put_of_lt hlt, pure_bind, hlength]
      refine ih htrim' hrest (by simpa [chain] using hplan) hT' hmade' h₂ hr.1
        ⟨if cs = [] then access else .shared, by simp⟩ (hstored.snoc (child, _) hlt) ?_ ?_ ?_ ?_
      · simp only [List.length_append, List.length_set, List.length_cons, List.length_nil] at hlen ⊢
        omega
      · exact fun _ => ⟨start + new.length, by simp [Nat.add_assoc],
          List.getElem?_set_self hlt⟩
      · intro kind T'' held' hT'' hagree' hm herr
        obtain ⟨held'', hm'⟩ := hm.init
        exact hfail kind T'' held'' hT'' (fun x hx => (hagree' x hx).trans
          (hagree x (List.mem_append_left _ hx))) hm' (hcat ▸ herr)
      · intro w₃ T'' new' arr' j hi₃ hT'' hagree' hm h₃ hst hkeep hlen' hj
        refine hok w₃ T'' new' arr' j hi₃ hT'' (fun x hx => ?_) (by simpa [chain] using hm) h₃ hst
          ?_ ?_ (hcat ▸ hj)
        · rw [hagree' x (by rw [← List.append_assoc]; exact List.mem_append_left _ hx), hagree x hx]
        · intro k hk
          rw [hkeep k hk, List.getElem?_set_ne (by omega)]
        · rw [hlen', List.length_append, List.length_singleton, List.length_cons]
          omega

/-- **`tfs_fs_lock_all`**, the first thing a call does. -/
theorem tfsFsLockAll_safe
    {Q : Except TfsFsFindError TfsLockedInode × LockedInodes → FsWorld ι → Prop}
    (hc : S.task t = .call c) {path : TfsPath} {access : TfsRwLockAccess}
    (hplan : c.plan = planLockAll path access ++ todo) (h : Local t [] T T [] slot w)
    (kindOf : TfsFsFindErrorKind → ErrorKind)
    (hfail : ∀ kind T', TreeInv S.capacity T' → locate T' 0 (comps path.str) = .error kind →
      ∃ s, atomic T' s c = .fail T' (kindOf kind))
    (hok : ∀ w' T' held arr j, S.Inv w' → TreeInv S.capacity T' →
      Made T' (planLockAll path access) held → Local t held T' T' [] slot w' →
      Stored arr 0 held → held.length = tfsPathComponentsLen path + 1 →
      locate T' 0 (comps path.str) = .ok j → Q (.ok ⟨j, (T' j).type⟩, arr) w')
    (herror : ∀ w' T' arr err, S.Inv w' →
      S.Done t [] T' T' (.error (kindOf err.kind)) none w' → Q (.error err, arr) w') :
    S.Safe E Q (tfsFsLockAll S.fs path (.new (tfsPathComponentsLen path + 1)) access) w := by
  have hplan' : (S.task t).plan = [] ++ ⟨[], if path.len = 0 then access else .shared, none⟩ ::
      (chain [] (comps path.str) access ++ todo) := by
    rw [hc]
    exact hplan
  generalize hacc : (if path.len = 0 then access else Access.shared) = acc at hplan'
  rw [tfsFsLockAll]
  simp only [tfsFsRootIdx, hacc]
  refine Safe.bind (tfsInodeTableLock_safe hplan' List.Forall₂.nil h ⟨rfl, by simp⟩
    fun w₁ T₁ hT₁ _ hmade₁ _ hlive h₁ => ?_)
  replace hmade₁ : Made T₁ [⟨[], acc, none⟩] ([(0, acc)] ++ []) := hmade₁
  replace h₁ : Local t ([(0, acc)] ++ []) T₁ T₁ [] slot w₁ := h₁
  rw [LockedInodes.put_of_lt (by simp [LockedInodes.new]), pure_bind]
  generalize harr : (LockedInodes.new (tfsPathComponentsLen path + 1)).set 0
    (some ⟨0, (T₁ 0).type⟩) = arr
  have hget : arr[0]? = some (some ⟨0, (T₁ 0).type⟩) := by
    rw [← harr, List.getElem?_set_self (by simp [LockedInodes.new])]
  have hlen : arr.length = (comps path.str).length + 1 := by
    rw [← harr, List.length_set, LockedInodes.new, List.length_replicate, tfsPathComponentsLen_eq]
  refine Safe.bind (tfsFsLockAllFrom_loop_safe hc (trimmed_tfsPathTrim path)
    (comps_tfsPathTrim path) (hc ▸ hplan') hT₁ hmade₁ h₁ (locate_nil T₁ 0)
    ⟨_, List.mem_cons_self⟩ (stored_nil arr 1) ?_ (fun _ => ⟨0, rfl, hget⟩) kindOf ?_ ?_ ?_)
  · simp only [List.length_nil, hlen]
    omega
  · exact fun kind T' _ hT' _ _ herr => hfail kind T' hT' herr
  · intro w₂ T₂ new arr' j hi₂ hT₂ _ hmade₂ h₂ hst hkeep hlen' hj
    refine safe_pure h₂ fun w₃ hi₃ h₃ => hok w₃ T₂ _ arr' j hi₃ hT₂ ?_ h₃ ?_ ?_ hj
    · rw [planLockAll, hacc]
      exact hmade₂
    · intro k x hx
      cases k with
      | zero =>
        obtain rfl : (0, acc) = x := by simpa using hx
        exact ⟨_, (hkeep 0 Nat.one_pos).trans hget⟩
      | succ k =>
        obtain ⟨type, htype⟩ := hst k x (by simpa using hx)
        exact ⟨type, by rw [← htype]; congr 1; omega⟩
    · rw [List.length_append, hlen', tfsPathComponentsLen_eq]
      simp [Nat.add_comm]
  · intro w₂ T₂ arr' err hi₂ hT₂ hlive₂ h₂
    refine Safe.bind (tfsInodeTableUnlockInode_safe h₂ (hlive₂ _ (List.mem_singleton.mpr rfl))
      (by simp) (by simp) fun w₃ _ h₃ w₄ hs₄ hi₄ => ?_)
    exact herror w₄ T₂ arr' err hi₄ (h₃.env hs₄)

end Setup

end TecnicoFs
