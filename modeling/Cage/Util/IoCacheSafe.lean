import Cage.Util.IoCache

/-!
The operations that look, create files and directories or unlink one file keep
the answers of `io_exists` right, whichever of their calls fail.
-/

namespace Cage.Util

open Cage.Lib Cage.Lib.Hoare

/-- A call that changes the entry of `q`, and what is done with its result. -/
theorem change_bind {A : Type} (q : Path)
    {act : Tree → Loc → Option Node → Except Errno (Option Node)} (hact : KeepsRoot act)
    {f : Option Errno → Io Disk A} (hfail : ∀ e, Keeps Fresh (f (some e)))
    (hok : Triple (Stale q) (f none) fun _ => Fresh) :
    Keeps Fresh (Io.sys (change q.str act) >>= f) := by
  refine Triple.bind (sys_change q hact) fun r => ?_
  cases r with
  | none => exact hok.conseq (fun w h => h.1 rfl) fun _ _ h => h
  | some e => exact (hfail e).conseq (fun w h => h.2 (by simp)) fun _ _ h => h

/-- The usual end of an operation that has changed the entry of `q`. -/
theorem invalidate_then {A : Type} (q : Path) (a : A) :
    Triple (Stale q) (do ioCacheInvalidate q.str; pure a : Io Disk A) fun _ => Fresh :=
  Triple.bind (invalidate_stale q) fun _ => Keeps.pure a

theorem invalidate_pure {A : Type} (path : CStr) (a : A) :
    Keeps Fresh (do ioCacheInvalidate path; pure a : Io Disk A) :=
  Keeps.bind (invalidate_keeps path) fun _ => Keeps.pure a

theorem ioExists_eq {S : Type} (k : Sys S) (path : CStr) (w : IoState S) :
    ioExists k path w =
      if ioCacheLookup w.cache path ≠ 2 then (ioCacheLookup w.cache path, w)
      else if accessResult (k.access path w.sys).1 ≥ 0 then
        (accessResult (k.access path w.sys).1,
          { cache := ioCacheStore w.cache path (accessResult (k.access path w.sys).1)
            sys := (k.access path w.sys).2 })
      else
        (accessResult (k.access path w.sys).1, { w with sys := (k.access path w.sys).2 }) := by
  have hsplit : ioExists k path w =
      (if ioCacheLookup w.cache path ≠ 2 then pure (ioCacheLookup w.cache path)
        else do
          let r ← Io.sys (k.access path)
          let res := accessResult r
          if res ≥ 0 then do
            let cache ← Io.cache
            Io.setCache (ioCacheStore cache path res)
            pure res
          else
            pure res : Io S Int) w := rfl
  rw [hsplit]
  split
  · rfl
  · have hsys : (do
          let r ← Io.sys (k.access path)
          let res := accessResult r
          if res ≥ 0 then do
            let cache ← Io.cache
            Io.setCache (ioCacheStore cache path res)
            pure res
          else
            pure res : Io S Int) w =
        (if accessResult (k.access path w.sys).1 ≥ 0 then do
            let cache ← Io.cache
            Io.setCache (ioCacheStore cache path (accessResult (k.access path w.sys).1))
            pure (accessResult (k.access path w.sys).1)
          else
            pure (accessResult (k.access path w.sys).1) : Io S Int)
          { w with sys := (k.access path w.sys).2 } := rfl
    rw [hsys]
    split <;> rfl

/-- `access` answers from the tree, or fails by a fault. -/
theorem access_result (path : CStr) (d : Disk) :
    accessResult (disk.access path d).1 = uncached d path ∨
      (accessResult (disk.access path d).1 = -1 ∧ d.faults.head? = some true) := by
  have hcall : (disk.access path d).1 =
      if (tick d).1 then some .other else lookErrno path (tick d).2 := rfl
  rw [hcall]
  cases hbad : (tick d).1 with
  | true =>
    right
    refine ⟨rfl, ?_⟩
    unfold tick at hbad
    split at hbad
    · cases hbad
    · rename_i f faults hfaults
      rw [hfaults]
      exact congrArg some hbad
  | false =>
    left
    exact uncached_tree (tick_tree d) path

theorem ioExists_keeps (q : Path) : Keeps Fresh (ioExists disk q.str) := by
  intro w h
  have hlook := looks_look (some Errno.other) (lookErrno q.str) w.sys
  have hfresh : Fresh { w with sys := (disk.access q.str w.sys).2 } := fresh_of_tree h hlook
  rw [ioExists_eq]
  split
  · exact h
  · split
    · rename_i hres
      refine Sound.store hfresh hres ?_
      rcases access_result q.str w.sys with htrue | ⟨hbad, -⟩
      · rw [htrue]
        exact (uncached_tree hlook q.str).symm
      · rw [hbad] at hres
        exact absurd hres (by decide)
    · exact hfresh

/-- `io_exists` answers what a check without the cache would, unless the check
it makes fails. -/
theorem ioExists_true {w : IoState Disk} (h : Fresh w) (q : Path) :
    (ioExists disk q.str w).1 = uncached w.sys q.str ∨
      ((ioExists disk q.str w).1 = -1 ∧ w.sys.faults.head? = some true) := by
  rw [ioExists_eq]
  split
  · rename_i hhit
    left
    obtain ⟨q', hq', -, htrue⟩ := h.entries _ _ (mem_of_ioCacheLookup hhit)
    exact htrue.trans (congrArg (uncached w.sys) hq'.symm)
  · have hacc := access_result q.str w.sys
    split <;> exact hacc

theorem ioUnlink_keeps (q : Path) : Keeps Fresh (ioUnlink disk q.str) :=
  change_bind q unlinkEntry_keepsRoot (fun _ => Keeps.pure _) (invalidate_then q 0)

theorem ioUnlinkQuiet_keeps (q : Path) : Keeps Fresh (ioUnlinkQuiet disk q.str) := by
  refine change_bind q unlinkEntry_keepsRoot (fun e => ?_) ?_
  · exact Keeps.ite (fun _ => Keeps.pure _) fun _ => invalidate_pure q.str 0
  · rw [if_neg (by simp)]
    exact invalidate_then q 0

theorem ioMkdtmp_keeps (q : Path) (sticky : Bool) : Keeps Fresh (ioMkdtmp disk q.str sticky) :=
  change_bind q mkdirEntry_keepsRoot (fun _ => Keeps.pure _) (invalidate_then q 0)

theorem ioTouch_keeps (q : Path) : Keeps Fresh (ioTouch disk q.str) :=
  change_bind q creatEntry_keepsRoot (fun _ => Keeps.pure _) (invalidate_then q 0)

theorem ioIsdir_keeps (path : CStr) : Keeps Fresh (ioIsdir disk path) := by
  refine Keeps.bind (sys_looks (looks_look _ _)) fun st => ?_
  cases st with
  | error e => exact Keeps.pure _
  | ok kind => exact Keeps.pure _

theorem mkdirExisting_keeps (path : CStr) : Keeps Fresh (mkdirExisting disk path) := by
  refine Keeps.bind (Keeps.bind (ioIsdir_keeps path) fun d => ?_) fun r => ?_
  · exact Keeps.ite (fun _ => Keeps.pure _) fun _ =>
      Keeps.ite (fun _ => Keeps.pure _) fun _ => Keeps.pure _
  · exact Keeps.ite (fun _ => invalidate_pure path r) fun _ => Keeps.pure _

theorem mkdirChown_keeps (q : Path) (uid gid : UInt32) (mode : Nat) :
    Keeps Fresh (mkdirChown disk q.str uid gid mode) := by
  refine change_bind q mkdirEntry_keepsRoot (fun _ => Keeps.pure _) ?_
  refine Triple.bind (invalidate_stale q) fun _ => ?_
  refine Keeps.ite (fun _ => ?_) fun _ => Keeps.pure _
  refine Keeps.bind (sys_looks (looks_look _ _)) fun c => ?_
  cases c with
  | none => exact Keeps.pure _
  | some e => exact Keeps.pure _

theorem mkdirm_eq {S : Type} (k : Sys S) (path : CStr) (mode : Nat) :
    mkdirm k path mode = Io.sys (k.mkdir path mode) >>= fun r =>
      match r with
      | some _ => pure (-1)
      | none => pure 0 := rfl

/-- The path above the last component. -/
def Path.parent (q : Path) : Path where
  loc := q.loc.dropLast
  valid c hc := q.valid c (List.dropLast_subset _ hc)

theorem beforeLastSlash_str (pre : CStr) {name : CStr} (hname : slash ∉ name) :
    beforeLastSlash (pre ++ slash :: name) = some pre.length := by
  have hrev : (pre ++ slash :: name).reverse = name.reverse ++ slash :: pre.reverse := by
    rw [List.reverse_append, List.reverse_cons, List.append_assoc, List.singleton_append]
  have hidx : (pre ++ slash :: name).reverse.idxOf slash = name.length := by
    rw [hrev, List.idxOf_append_of_notMem (by simpa using hname), List.idxOf_cons_self,
      List.length_reverse, Nat.add_zero]
  unfold beforeLastSlash
  rw [if_pos (by simp), hidx]
  simp only [List.length_append, List.length_cons]
  congr 1
  omega

theorem str_snoc {q : Path} {init : Loc} {name : CStr} (hloc : q.loc = init ++ [name]) :
    q.str = renderTail init ++ slash :: name := by
  have hne : q.loc ≠ [] := by
    rw [hloc]
    exact List.concat_ne_nil name init
  rw [str_of_ne_root hne, hloc, renderTail_append, renderTail_cons]
  unfold renderTail
  rw [List.flatMap_nil, List.append_nil]

theorem mkdirParent_keeps {mkdir : CStr → Io Disk Int}
    (h : ∀ q : Path, Keeps Fresh (mkdir q.str)) (q : Path) :
    Keeps Fresh (mkdirParent mkdir q.str) := by
  rcases List.eq_nil_or_concat q.loc with hroot | ⟨init, name, hloc⟩
  · have hstr : q.str = [slash] := by
      unfold Path.str
      rw [hroot]
      rfl
    rw [hstr]
    exact Keeps.pure 0
  · rw [List.concat_eq_append] at hloc
    have hname : slash ∉ name := (q.valid name (by rw [hloc]; simp)).2.1
    unfold mkdirParent
    rw [str_snoc hloc, beforeLastSlash_str _ hname]
    refine Keeps.ite (fun _ => Keeps.pure _) fun hlen => ?_
    refine Keeps.ite (fun _ => Keeps.pure _) fun _ => ?_
    rw [List.take_left]
    have hparent : q.parent.loc = init := by
      unfold Path.parent
      dsimp only
      rw [hloc, List.dropLast_concat]
    have hne : q.parent.loc ≠ [] := by
      rw [hparent]
      rintro rfl
      exact hlen rfl
    have hstr := str_of_ne_root hne
    rw [hparent] at hstr
    rw [← hstr]
    exact h q.parent

theorem mkdirDeep_keeps {mkdir : CStr → Io Disk Int}
    (h : ∀ q : Path, Keeps Fresh (mkdir q.str)) (q : Path) :
    Keeps Fresh (mkdirDeep disk mkdir q.str) := by
  refine Keeps.bind (mkdirParent_keeps h q) fun p => ?_
  refine Keeps.ite (fun _ => Keeps.pure _) fun _ => ?_
  rw [mkdirm_eq, bind_assoc]
  refine change_bind q mkdirEntry_keepsRoot (fun _ => Keeps.pure _) ?_
  exact invalidate_then q 0

theorem mkdirStep_keeps {mkdir : CStr → Io Disk Int}
    (h : ∀ q : Path, Keeps Fresh (mkdir q.str)) (q : Path) :
    Keeps Fresh (mkdirStep disk mkdir q.str) := by
  refine change_bind q mkdirEntry_keepsRoot (fun e => ?_) (invalidate_then q 0)
  cases e with
  | eexist => exact mkdirExisting_keeps q.str
  | enoent => exact mkdirDeep_keeps h q
  | eacces => exact Keeps.pure _
  | other => exact Keeps.pure _

theorem mkdirDepth_keeps (n : Nat) (q : Path) : Keeps Fresh (mkdirDepth disk n q.str) := by
  induction n generalizing q with
  | zero => exact Keeps.pure _
  | succ n ih => exact mkdirStep_keeps ih q

/-- What stands before a slash of a canonical path is a canonical path. -/
theorem prefix_of_slash {l : Loc} (hl : ∀ c ∈ l, ValidName c) {pre rest : CStr} (hpre : pre ≠ [])
    (h : pre ++ slash :: rest = renderTail l) :
    ∃ init, init <+: l ∧ init ≠ [] ∧ pre = renderTail init := by
  induction l generalizing pre with
  | nil =>
    unfold renderTail at h
    rw [List.flatMap_nil] at h
    simp at h
  | cons c l ih =>
    have hc := hl c List.mem_cons_self
    have hl' : ∀ c' ∈ l, ValidName c' := fun c' hc' => hl c' (List.mem_cons_of_mem c hc')
    obtain ⟨x, body, rfl⟩ := List.exists_cons_of_ne_nil hpre
    rw [renderTail_cons, List.cons_append] at h
    obtain ⟨rfl, hbody⟩ := List.cons.inj h
    have hone : renderTail [c] = slash :: c := by
      rw [renderTail_cons]
      exact congrArg _ (List.append_nil c)
    rcases List.append_eq_append_iff.mp hbody with ⟨a, hsplit, hrest⟩ | ⟨a, rfl, hrest⟩
    · cases a with
      | nil =>
        rw [List.append_nil] at hsplit
        exact ⟨[c], List.prefix_append [c] l, List.cons_ne_nil c [], by rw [hone, hsplit]⟩
      | cons y a =>
        rw [List.cons_append] at hrest
        obtain ⟨rfl, -⟩ := List.cons.inj hrest
        rw [hsplit] at hc
        exact absurd (List.mem_append_right body List.mem_cons_self) hc.2.1
    · by_cases ha : a = []
      · rw [ha, List.append_nil]
        exact ⟨[c], List.prefix_append [c] l, List.cons_ne_nil c [], hone.symm⟩
      · obtain ⟨init, hinit, -, rfl⟩ := ih hl' ha hrest.symm
        refine ⟨c :: init, (List.prefix_cons_inj c).mpr hinit, List.cons_ne_nil c init, ?_⟩
        rw [renderTail_cons]

theorem mkdirParentsFrom_keeps (uid gid : UInt32) {l : Loc} (hl : ∀ c ∈ l, ValidName c)
    {pre rest : CStr} (hpre : pre ≠ []) (h : pre ++ rest = renderTail l) :
    Keeps Fresh (mkdirParentsFrom disk uid gid pre rest) := by
  induction rest generalizing pre with
  | nil => exact Keeps.pure _
  | cons c rest ih =>
    have hnext : Keeps Fresh (mkdirParentsFrom disk uid gid (pre ++ [c]) rest) := by
      refine ih (List.concat_ne_nil c pre) ?_
      rw [List.append_assoc, List.singleton_append]
      exact h
    refine Keeps.ite (fun _ => hnext) fun hslash => ?_
    obtain rfl : c = slash := of_not_not hslash
    obtain ⟨init, hinit, hne, rfl⟩ := prefix_of_slash hl hpre h
    have hq : ∃ q : Path, q.str = renderTail init :=
      ⟨⟨init, fun c hc => hl c (hinit.subset hc)⟩, str_of_ne_root hne⟩
    obtain ⟨q, hq⟩ := hq
    rw [← hq] at hnext ⊢
    refine Keeps.bind (ioExists_keeps q) fun e => ?_
    refine Keeps.ite (fun _ => hnext) fun _ => ?_
    refine Keeps.bind (mkdirChown_keeps q uid gid 0o755) fun r => ?_
    exact Keeps.ite (fun _ => Keeps.pure _) fun _ => hnext

theorem mkdirParents_keeps (q : Path) (uid gid : UInt32) :
    Keeps Fresh (mkdirParents disk q.str uid gid) := by
  by_cases hroot : q.loc = []
  · have hstr : q.str = [slash] := by
      unfold Path.str
      rw [hroot]
      rfl
    rw [hstr]
    exact Keeps.pure 0
  · have hstr := str_of_ne_root hroot
    have htake : q.str.take 1 ≠ [] := by
      unfold Path.str render
      split
      · simp
      · rw [renderTail_cons]
        simp
    exact mkdirParentsFrom_keeps uid gid q.valid htake (by rw [List.take_append_drop, hstr])

theorem ioMkdirOwn_keeps (q : Path) (uid gid : UInt32) (mode : Nat) :
    Keeps Fresh (ioMkdirOwn disk q.str uid gid mode) := by
  refine Keeps.bind (ioExists_keeps q) fun e => ?_
  refine Keeps.ite (fun _ => Keeps.pure _) fun _ => ?_
  refine Keeps.ite (fun _ => Keeps.pure _) fun _ => ?_
  refine Keeps.bind (mkdirParents_keeps q uid gid) fun r => ?_
  exact Keeps.ite (fun _ => Keeps.pure _) fun _ => mkdirChown_keeps q uid gid mode

end Cage.Util
