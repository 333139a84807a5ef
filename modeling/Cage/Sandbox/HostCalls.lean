import Cage.Sandbox.Host
import Cage.Util.VolumeKept

/-!
What `io_mkdir` and `setup_ext4_img` do to a host: the one makes directories where
there was nothing, and the other replaces the image and the file that the image is
built in.
-/

namespace Cage.Sandbox

open Lib.Program Util Ext4
open Util.Volume (Wf Frays bodyAt find lastOf special Split bodyAt_insert bodyAt_eq_none)

variable {k : Volume.Kernel} {S : Type} {fs : FileSystem S} {view : S → Host k}
variable {v w x : Host k} {path : CStr} {d e l m : Loc} {name : CStr}

theorem SameMounts.refl (v : Host k) : SameMounts v v := ⟨rfl, rfl, rfl⟩

theorem SameMounts.trans (h : SameMounts v w) (h' : SameMounts w x) : SameMounts v x :=
  ⟨h'.device.trans h.device, h'.magic.trans h.magic, h'.image.trans h.image⟩

namespace OnHost

variable (h : OnHost fs view)

include h in
theorem answers (call : Call) (s : S) :
    Effect call (fs.answer call s).1 (view s) (view (fs.answer call s).2) := by
  cases call with
  | access path | stat path | statfs path => exact rfl
  | _ => exact h.effect _ s

include h in
/-- A call, from the hosts with `pre`. -/
theorem sys {call : Call} {pre : Host k → Prop} {post : call.Ret → Host k → Prop}
    (hpost : ∀ v w r, pre v → Effect call r v w → post r w) :
    EndsOn fs (fun s => pre (view s)) (Steps.sys call) fun r t => post r (view t) := by
  refine Ends.perform fun c s r t hs hans => ?_
  have heffect := h.answers call s
  rw [hans] at heffect
  exact hpost _ _ r hs heffect

include h in
/-- Calls that each keep what there is. -/
theorem only {A : Type} {ok : Call → Prop} {I : Host k → Prop} {m : Steps A} (hm : Only ok m)
    (hkeep : ∀ call r v w, ok call → I v → Effect call r v w → I w) :
    EndsOn fs (fun s => I (view s)) m fun _ t => I (view t) := by
  refine Ends.only hm fun call s r t hok hs hans => ?_
  have heffect := h.answers call s
  rw [hans] at heffect
  exact hkeep call r _ _ hok hs heffect

end OnHost

section Making

/-- A new directory is at `e`, and what else is new are the directories above it. -/
structure MadeAt (v w : Host k) (path : CStr) (e : Loc) : Prop where
  find : find k w.tree true path = .ok e
  last : ∃ d name, lastOf k w.tree path = .ok (d, name) ∧ e = d ++ [name]
  dir : bodyAt w.tree e = some .dir
  new : bodyAt v.tree e = none
  kept : ∀ m b, bodyAt v.tree m = some b → bodyAt w.tree m = some b
  dirs : ∀ m b, bodyAt w.tree m = some b → bodyAt v.tree m = some b ∨ b = .dir
  below : ∀ m, e <+: m → m ≠ e → bodyAt w.tree m = none
  parent : (∃ d name, lastOf k v.tree path = .ok (d, name)) ∨ bodyAt v.tree e.dropLast = none
  mounts : SameMounts v w

/-- The path leads to a directory, which was there or is new. -/
def Reached (v w : Host k) (path : CStr) : Prop :=
  (w = v ∧ ∃ e, find k v.tree true (stripTrailingSlash path) = .ok e ∧ bodyAt v.tree e = some .dir) ∨
    ∃ e, MadeAt v w path e

theorem MadeAt.frays (h : MadeAt v w path e) : Frays v.tree w.tree := fun m b hb _ => h.kept m b hb

theorem bodyAt_below (v : Host k) (h : bodyAt v.tree e = none) (hm : e <+: m) :
    bodyAt v.tree m = none :=
  bodyAt_eq_none.mpr (v.wf.below (bodyAt_eq_none.mp h) hm)

/-- A directory made by one call. -/
theorem madeAt_of_mkdir (hrun : Volume.mkdirAt k path v.tree = (none, w.tree)) (hmounts : SameMounts v w) :
    ∃ e, MadeAt v w path e := by
  obtain ⟨d, name, hlast, hspecial, hlookup, htree⟩ := Volume.mkdirAt_made hrun
  have hnone : bodyAt v.tree (d ++ [name]) = none := bodyAt_eq_none.mpr hlookup
  have hbody (m : Loc) : bodyAt w.tree m = if m = d ++ [name] then some .dir else bodyAt v.tree m := by
    rw [htree, bodyAt_insert]
  have hkept (m : Loc) (b : Volume.Body) (hb : bodyAt v.tree m = some b) : bodyAt w.tree m = some b := by
    rw [hbody, if_neg, hb]
    rintro rfl
    rw [hnone] at hb
    cases hb
  have hlast' : lastOf k w.tree path = .ok (d, name) :=
    Volume.lastOf_frays (fun m b hb _ => hkept m b hb) v.wf v.home hlast
  have hdir : bodyAt w.tree (d ++ [name]) = some .dir := by rw [hbody, if_pos rfl]
  refine ⟨d ++ [name], ?_, ⟨d, name, hlast', rfl⟩, hdir, hnone, hkept, ?_, ?_, Or.inl ⟨d, name, hlast⟩,
    hmounts⟩
  · exact Volume.find_of_entry hlast' hspecial hdir (Or.inl rfl) fun target hb => by cases hb
  · intro m b hb
    rw [hbody] at hb
    split at hb
    · exact Or.inr (Option.some.inj hb).symm
    · exact Or.inl hb
  · intro m hm hne
    rw [hbody, if_neg hne]
    exact bodyAt_below v hnone hm

/-- What a new directory is made in was made before, if the parent of the path was. -/
theorem lastOf_new {q a : CStr} (hsplit : Split path q a) (h : MadeAt v w q d)
    (hlast : lastOf k w.tree path = .ok (e, name)) (hspecial : special name = false)
    (hnone : bodyAt w.tree (e ++ [name]) = none) : e = d := by
  have hleads := Volume.leads_of_find h.find h.dir
  have hstart : Volume.start k.cwd path = Volume.start k.cwd q := by
    rw [hsplit.eq, Volume.start_append hleads.ne]
  obtain ⟨hwalk, -⟩ := Volume.lastOf_dir w.wf w.home hlast
  by_cases ha : a = []
  · subst ha
    obtain ⟨hne, hshort⟩ := Volume.lastOf_ok hlast
    have hsame : lastOf k w.tree q = .ok (e, name) := by
      rw [Volume.lastOf_eq hleads.ne hleads.short, ← hsplit.comps_empty, ← hstart,
        ← Volume.lastOf_eq hne hshort, hlast]
    have hgone := Volume.find_of_gone (f := true) hsame hspecial hnone
    rw [h.find] at hgone
    cases hgone
  · rw [hsplit.comps_name ha, List.dropLast_concat, hstart, hleads.walk] at hwalk
    exact (Except.ok.inj hwalk).symm

/-- A directory made in a directory that has just been made. -/
theorem MadeAt.deep {q a : CStr} (hsplit : Split path q a) (h : MadeAt v w q d)
    (hrun : Volume.mkdirAt k path w.tree = (none, x.tree)) (hmounts : SameMounts w x) :
    ∃ e, MadeAt v x path e := by
  obtain ⟨e, hmade⟩ := madeAt_of_mkdir hrun hmounts
  obtain ⟨l, name, hlast, hspecial, hlookup, -⟩ := Volume.mkdirAt_made hrun
  obtain ⟨l', name', hlast', he⟩ := hmade.last
  obtain rfl : l = d := lastOf_new hsplit h hlast hspecial (bodyAt_eq_none.mpr hlookup)
  obtain ⟨rfl, rfl⟩ : l' = l ∧ name' = name := by
    rw [Volume.lastOf_frays hmade.frays w.wf w.home hlast] at hlast'
    cases hlast'
    exact ⟨rfl, rfl⟩
  subst he
  have hdirs (m : Loc) (b : Volume.Body) (hb : bodyAt x.tree m = some b) :
      bodyAt v.tree m = some b ∨ b = .dir :=
    (hmade.dirs m b hb).elim (h.dirs m b) Or.inr
  refine ⟨_, hmade.find, hmade.last, hmade.dir, ?_, fun m b hb => hmade.kept m b (h.kept m b hb), hdirs,
    hmade.below, Or.inr ?_, h.mounts.trans hmade.mounts⟩
  · exact bodyAt_below v h.new (List.prefix_append _ _)
  · rw [List.dropLast_concat]
    exact h.new

variable (h : OnHost fs view)

include h in
theorem isDir_host {s : S} (hdir : fs.IsDir s path) :
    ∃ e, find k (view s).tree true (stripTrailingSlash path) = .ok e ∧
      bodyAt (view s).tree e = some .dir := by
  obtain ⟨f, hresolve, hkind⟩ := hdir
  unfold FileSystem.resolve at hresolve
  rw [h.find, Host.found] at hresolve
  cases hfind : find k (view s).tree true (stripTrailingSlash path) with
  | error e =>
    rw [hfind] at hresolve
    cases hresolve
  | ok e =>
    rw [hfind] at hresolve
    dsimp only at hresolve
    cases hbody : bodyAt (view s).tree e with
    | none =>
      rw [hbody] at hresolve
      cases hresolve
    | some b =>
      rw [hbody] at hresolve
      dsimp only at hresolve
      split at hresolve <;> cases hresolve
      refine ⟨e, rfl, ?_⟩
      cases b with
      | dir => exact hbody
      | file | link target => cases hkind

include h in
theorem mkdirExisting_host (path : CStr) :
    EndsOn fs (fun s => view s = v) (Steps.mkdirExisting path) fun r t => r = 0 →
      Reached v (view t) path := by
  have honly : Only (fun call => ∃ p, call = .stat p) (Steps.mkdirExisting path) :=
    only_mkdirExisting ⟨path, rfl⟩
  have hsame : EndsOn fs (fun s => view s = v) (Steps.mkdirExisting path) fun _ t => view t = v := by
    refine h.only (I := fun w => w = v) honly ?_
    rintro call r w x ⟨p, rfl⟩ hw heffect
    exact Eq.trans heffect hw
  refine Ends.conseq (Ends.and hsame (Ends.conseq (mkdirExisting_looks path) (fun _ _ _ => trivial)
    fun _ _ _ hr => hr)) (fun _ _ hs => hs) ?_
  rintro r c t ⟨hview, hlooks⟩ hr
  obtain ⟨e, hfind, hdir⟩ := isDir_host h (hlooks hr)
  rw [hview] at hfind hdir
  exact Or.inl ⟨hview, e, hfind, hdir⟩

/-- What `mkdir` answers with, and what it does. -/
def Mkdirs (v w : Host k) (path : CStr) (r : Option Errno) : Prop :=
  (r ≠ none ∧ w = v) ∨ r = none ∧ Volume.mkdirAt k path v.tree = (none, w.tree) ∧ SameMounts v w

include h in
theorem mkdir_host (pre : Host k → Prop) (path : CStr) (mode : Nat) :
    EndsOn fs (fun s => pre (view s)) (Steps.sys (.mkdir path mode)) fun r t =>
      ∃ w, pre w ∧ Mkdirs w (view t) path r := by
  refine Ends.perform fun c s r t hs hans => ⟨view s, hs, ?_⟩
  have heffect : Effect (.mkdir path mode) (fs.answer (.mkdir path mode) s).1 (view s)
      (view (fs.answer (.mkdir path mode) s).2) := h.answers _ s
  rw [hans] at heffect
  cases r with
  | none => exact Or.inr ⟨rfl, heffect⟩
  | some err => exact Or.inl ⟨by simp, heffect⟩

/-- The parent of the path is there, or has just been made. -/
def Parented (v w : Host k) (path : CStr) : Prop :=
  w = v ∨ ∃ q a d, Split path q a ∧ MadeAt v w q d

theorem reached_of_parented (hparent : Parented v w path)
    (hmkdir : Volume.mkdirAt k path w.tree = (none, x.tree) ∧ SameMounts w x) : Reached v x path := by
  rcases hparent with rfl | ⟨q, a, d, hsplit, hmade⟩
  · exact Or.inr (madeAt_of_mkdir hmkdir.1 hmkdir.2)
  · exact Or.inr (hmade.deep hsplit hmkdir.1 hmkdir.2)

include h in
/-- `io_mkdir` returns 0 only where the path leads to a directory. -/
theorem mkdirDepth_host (n : Nat) (path : CStr) :
    EndsOn fs (fun s => view s = v) (Steps.mkdirDepth n path) fun r t => r = 0 →
      Reached v (view t) path := by
  have hfails {pre : S → Prop} {post : S → Prop} :
      EndsOn fs pre (pure (-1 : Int)) fun r t => r = 0 → post t :=
    Ends.pure fun _ _ _ hr => absurd hr (by decide)
  induction n generalizing path with
  | zero => exact hfails
  | succ n ih =>
    have hparent : EndsOn fs (fun s => view s = v) (Steps.mkdirParent (Steps.mkdirDepth n) path)
        fun r t => r = 0 → Parented v (view t) path := by
      have hnone : EndsOn fs (fun s => view s = v) (pure (0 : Int)) fun r t => r = 0 →
          Parented v (view t) path := Ends.pure fun _ _ hs _ => Or.inl hs
      unfold Steps.mkdirParent
      by_cases hmem : slash ∈ path
      · obtain ⟨q, a, hsplit⟩ := Volume.exists_split_of_mem hmem
        have hcut : beforeLastSlash path = some q.length := by
          rw [hsplit.eq, beforeLastSlash_str _ hsplit.piece]
        have htake : path.take q.length = q := by rw [hsplit.eq, List.take_left]
        rw [hcut]
        refine Ends.ite (fun _ => hnone) fun _ => Ends.ite (fun _ => hfails) fun _ => ?_
        rw [htake]
        refine Ends.conseq (ih q) (fun _ _ hs => hs) fun r c t hreached hr => ?_
        rcases hreached hr with ⟨hsame, -⟩ | ⟨d, hmade⟩
        · exact Or.inl hsame
        · exact Or.inr ⟨q, a, d, hsplit, hmade⟩
      · have hcut : beforeLastSlash path = none := if_neg (by simpa using hmem)
        rw [hcut]
        exact hnone
    have hdeep : EndsOn fs (fun s => view s = v) (Steps.mkdirDeep (Steps.mkdirDepth n) path)
        fun r t => r = 0 → Reached v (view t) path := by
      refine Ends.bind hparent fun p => Ends.ite (fun _ => hfails) fun hp => ?_
      have hmkdirm : EndsOn fs (fun s => Parented v (view s) path) (Steps.mkdirm path 0o755)
          fun r t => r = 0 → Reached v (view t) path := by
        refine Ends.bind (mkdir_host h (fun w => Parented v w path) path 0o755) fun r => ?_
        cases r with
        | some err => exact hfails
        | none =>
          refine Ends.pure fun _ t ht _ => ?_
          obtain ⟨w, hw, ⟨hne, -⟩ | ⟨-, hmkdir⟩⟩ := ht
          · exact absurd rfl hne
          · exact reached_of_parented hw hmkdir
      refine Ends.bind (Ends.conseq hmkdirm (fun _ s hs => hs (not_not.mp hp)) fun _ _ _ hr => hr)
        fun r => Ends.ite (fun _ => ?_) fun _ => Ends.pure fun _ _ hs => hs
      exact Ends.bind (Ends.modify _ fun _ _ hs => hs) fun _ => Ends.pure fun _ _ hs => hs
    have hmkdir : EndsOn fs (fun s => view s = v) (Steps.sys (.mkdir path 0o755)) fun r t =>
        ∃ w, w = v ∧ Mkdirs w (view t) path r := mkdir_host h (fun w => w = v) path 0o755
    have hsame {err : Errno} {t : S} (ht : ∃ w, w = v ∧ Mkdirs w (view t) path (some err)) :
        view t = v := by
      obtain ⟨_, rfl, ⟨-, hview⟩ | ⟨hsome, -⟩⟩ := ht
      · exact hview
      · cases hsome
    refine Ends.bind hmkdir fun r => ?_
    match r with
    | none =>
      have hreached {t : S} (ht : ∃ w, w = v ∧ Mkdirs w (view t) path none) :
          Reached v (view t) path := by
        obtain ⟨_, rfl, ⟨hne, -⟩ | ⟨-, hmade⟩⟩ := ht
        · exact absurd rfl hne
        · exact reached_of_parented (Or.inl rfl) hmade
      exact Ends.bind (Ends.modify (Q := fun _ _ t => Reached v (view t) path) _ fun _ _ ht => hreached ht)
        fun _ => Ends.pure fun _ _ ht _ => ht
    | some .eexist => exact fun c s hs => mkdirExisting_host h path c s (hsame hs)
    | some .enoent => exact fun c s hs => hdeep c s (hsame hs)
    | some .eacces => exact hfails
    | some .other => exact hfails

end Making

section Building

/-- Building the image replaces what is at this place: the image, or the file that it is
built in. A directory is not replaced. -/
def Host.replaces (v : Host k) (pid : Nat) (img : CStr) (m : Loc) : Bool :=
  (v.names img m || v.names (tmpName img pid) m) && bodyAt v.tree m != some .dir

/-- Some of these places have been replaced by files, or are empty. -/
structure Rebuilt (pid : Nat) (img : CStr) (v w : Host k) : Prop where
  same : ∀ m, v.replaces pid img m = false → bodyAt w.tree m = bodyAt v.tree m
  other : ∀ m, bodyAt w.tree m = bodyAt v.tree m ∨ bodyAt w.tree m = none ∨
    bodyAt w.tree m = some .file
  mounts : SameMounts v w

variable {pid : Nat} {img : CStr}

theorem names_iff : v.names path m = true ↔
    ∃ d name, lastOf k v.tree path = .ok (d, name) ∧ m = d ++ [name] := by
  unfold Host.names
  cases lastOf k v.tree path with
  | error e => simp
  | ok p =>
    obtain ⟨d, name⟩ := p
    simp

theorem replaces_iff : v.replaces pid img m = true ↔
    (v.names img m = true ∨ v.names (tmpName img pid) m = true) ∧ bodyAt v.tree m ≠ some .dir := by
  unfold Host.replaces
  rw [Bool.and_eq_true, Bool.or_eq_true, bne_iff_ne]

theorem Rebuilt.refl (v : Host k) : Rebuilt pid img v v :=
  ⟨fun _ _ => rfl, fun _ => Or.inl rfl, SameMounts.refl v⟩

theorem Rebuilt.frays (h : Rebuilt pid img v w) : Frays w.tree v.tree := by
  intro m b hb hfile
  rcases h.other m with hsame | hnone | hother
  · rw [← hsame, hb]
  · rw [hb] at hnone
    cases hnone
  · rw [hb] at hother
    exact absurd (Option.some.inj hother) hfile

theorem Rebuilt.names (h : Rebuilt pid img v w) (hm : w.names path m = true) : v.names path m = true := by
  obtain ⟨d, name, hlast, hm⟩ := names_iff.mp hm
  exact names_iff.mpr ⟨d, name, Volume.lastOf_frays h.frays w.wf w.home hlast, hm⟩

/-- What is replaced in the one host, is replaced in the other. -/
theorem Rebuilt.replaces (h : Rebuilt pid img v w) (hm : w.replaces pid img m = true) :
    v.replaces pid img m = true := by
  obtain ⟨hnames, hdir⟩ := replaces_iff.mp hm
  by_contra hnot
  have hsame := h.same m (Bool.not_eq_true _ ▸ hnot)
  exact hnot (replaces_iff.mpr ⟨hnames.imp h.names h.names, fun hv => hdir (hsame.trans hv)⟩)

theorem Rebuilt.next (h : Rebuilt pid img v w) (hmounts : SameMounts w x)
    (hx : ∀ m, bodyAt x.tree m = bodyAt w.tree m ∨ w.replaces pid img m = true ∧
      (bodyAt x.tree m = none ∨ bodyAt x.tree m = some .file)) : Rebuilt pid img v x where
  same m hm := by
    rcases hx m with hsame | ⟨hw, -⟩
    · rw [hsame, h.same m hm]
    · rw [h.replaces hw] at hm
      cases hm
  other m := by
    rcases hx m with hsame | ⟨-, hother⟩
    · rw [hsame]
      exact h.other m
    · exact Or.inr hother
  mounts := h.mounts.trans hmounts

/-- A call that changes no host. -/
def Still : Call → Prop
  | .mkdir _ _ | .unlink _ | .create _ _ | .rename _ _ | .mountLoop _ _ | .mount _ _ _ _ => False
  | _ => True

theorem effect_still {call : Call} {r : call.Ret} (h : Still call) (heffect : Effect call r v w) :
    w = v := by
  cases call <;> first | exact heffect | exact absurd h id

theorem unlinkAt_removed {t t' : Volume.Tree} (h : Volume.unlinkAt k path t = (none, t')) :
    ∃ d name, lastOf k t path = .ok (d, name) ∧ bodyAt t (d ++ [name]) ≠ some .dir ∧
      t' = t.erase (d ++ [name]) := by
  unfold Volume.unlinkAt at h
  cases hlast : lastOf k t path with
  | error e =>
    rw [hlast] at h
    cases h
  | ok p =>
    obtain ⟨d, name⟩ := p
    rw [hlast] at h
    dsimp only at h
    split at h
    · cases h
    · cases hbody : bodyAt t (d ++ [name]) with
      | none =>
        rw [hbody] at h
        cases h
      | some b =>
        rw [hbody] at h
        cases b with
        | dir => cases h
        | file | link target =>
          dsimp only at h
          split at h <;> cases h
          exact ⟨d, name, rfl, by rw [hbody]; simp, rfl⟩

theorem bodyAt_erase {t : Volume.Tree} (m : Loc) :
    bodyAt (t.erase l) m = if m = l then none else bodyAt t m := by
  unfold Volume.bodyAt
  split
  · rename_i h
    rw [h, AList.lookup_erase]
    rfl
  · rename_i h
    rw [AList.lookup_erase_ne h]

/-- The calls on the file that the image is built in, up to its renaming. -/
def Builds (img : CStr) (pid : Nat) (call : Call) : Prop :=
  call = .unlink (tmpName img pid) ∨ (∃ mode, call = .create (tmpName img pid) mode) ∨ Still call

theorem Rebuilt.builds (h : Rebuilt pid img v w) {call : Call} {r : call.Ret}
    (hcall : Builds img pid call) (heffect : Effect call r w x) : Rebuilt pid img v x := by
  rcases hcall with rfl | ⟨mode, rfl⟩ | hstill
  · change Option Errno at r
    cases r with
    | some e => exact heffect ▸ h
    | none =>
      obtain ⟨hrun, hmounts⟩ := heffect
      obtain ⟨d, name, hlast, hdir, htree⟩ := unlinkAt_removed hrun
      refine h.next hmounts fun m => ?_
      rw [htree, bodyAt_erase]
      split
      · rename_i hm
        subst hm
        exact Or.inr ⟨replaces_iff.mpr ⟨Or.inr (names_iff.mpr ⟨d, name, hlast, rfl⟩), hdir⟩, Or.inl rfl⟩
      · exact Or.inl rfl
  · change Option Nat at r
    cases r with
    | none => exact heffect ▸ h
    | some fd =>
      obtain ⟨⟨d, name, hlast, -, hnone, htree⟩, hmounts⟩ := heffect
      refine h.next hmounts fun m => ?_
      rw [htree, bodyAt_insert]
      split
      · rename_i hm
        subst hm
        refine Or.inr ⟨replaces_iff.mpr ⟨Or.inr (names_iff.mpr ⟨d, name, hlast, rfl⟩), ?_⟩, Or.inr rfl⟩
        rw [hnone]
        exact nofun
      · exact Or.inl rfl
  · exact effect_still hstill heffect ▸ h

/-- The file that the image is built in is a file. -/
def InFile (img : CStr) (pid : Nat) (w : Host k) : Prop :=
  ∃ d name, lastOf k w.tree (tmpName img pid) = .ok (d, name) ∧
    bodyAt w.tree (d ++ [name]) = some .file

theorem Rebuilt.renamed (h : Rebuilt pid img v w) (hfile : InFile img pid w)
    (heffect : Renames (tmpName img pid) img w x ∧ SameMounts w x) : Rebuilt pid img v x := by
  obtain ⟨⟨d, name, d', name', i, hold, hnew, hlookup, hput⟩, hmounts⟩ := heffect
  obtain ⟨l, name₀, hlast, hbody⟩ := hfile
  obtain ⟨rfl, rfl⟩ : l = d ∧ name₀ = name := by
    rw [hlast] at hold
    cases hold
    exact ⟨rfl, rfl⟩
  have hi : i.body = .file := by
    unfold Volume.bodyAt at hbody
    rw [hlookup] at hbody
    exact Option.some.inj hbody
  obtain ⟨hdir, htree⟩ := hput hi
  refine h.next hmounts fun m => ?_
  rw [htree, bodyAt_insert, bodyAt_erase, hi]
  split
  · rename_i hm
    subst hm
    exact Or.inr ⟨replaces_iff.mpr ⟨Or.inl (names_iff.mpr ⟨_, _, hnew, rfl⟩), hdir⟩, Or.inr rfl⟩
  · split
    · rename_i hm
      subst hm
      refine Or.inr ⟨replaces_iff.mpr ⟨Or.inr (names_iff.mpr ⟨_, _, hlast, rfl⟩), ?_⟩, Or.inl rfl⟩
      rw [hbody]
      simp
    · exact Or.inl rfl

variable (h : OnHost fs view)

theorem still_open {call : Call} (hopen : OpenFile call) : Still call := by
  cases call <;> first | exact trivial | exact absurd hopen id

theorem builds_unlink : Builds img pid (.unlink (tmpName img pid)) := Or.inl rfl

theorem builds_open (call : Call) (hopen : OpenFile call) : Builds img pid call :=
  Or.inr (Or.inr (still_open hopen))

include h in
theorem rebuilt_only {A : Type} {m : Steps A} (hm : Only (Builds img pid) m) :
    EndsOn fs (fun s => Rebuilt pid img v (view s)) m fun _ t => Rebuilt pid img v (view t) :=
  h.only (I := fun w => Rebuilt pid img v w) hm fun _ _ _ _ hok hw heffect => hw.builds hok heffect

include h in
/-- An image is only put in place from a file. -/
theorem createImg_host : EndsOn fs (fun s => Rebuilt pid img v (view s))
    (ext4CreateImg (tmpName img pid)) fun r t =>
      Rebuilt pid img v (view t) ∧ (r = 0 → InFile img pid (view t)) := by
  have hcreate : EndsOn fs (fun s => Rebuilt pid img v (view s))
      (Steps.sys (.create (tmpName img pid) 0o600)) fun (r : Option Nat) t =>
        Rebuilt pid img v (view t) ∧ (r ≠ none → InFile img pid (view t)) := by
    refine Ends.perform fun c s r t hs hans => ?_
    have heffect : Effect (.create (tmpName img pid) 0o600)
        (fs.answer (.create (tmpName img pid) 0o600) s).1 (view s)
        (view (fs.answer (.create (tmpName img pid) 0o600) s).2) := h.answers _ s
    rw [hans] at heffect
    refine ⟨hs.builds (Or.inr (Or.inl ⟨_, rfl⟩)) heffect, fun hr => ?_⟩
    cases r with
    | none => exact absurd rfl hr
    | some fd =>
      obtain ⟨⟨d, name, hlast, hspecial, hnone, htree⟩, -⟩ := heffect
      have hfrays : Frays (view s).tree (view t).tree := by
        intro m b hb _
        rw [htree, bodyAt_insert, if_neg, hb]
        rintro rfl
        rw [hnone] at hb
        cases hb
      refine ⟨d, name, Volume.lastOf_frays hfrays (view s).wf (view s).home hlast, ?_⟩
      rw [htree, bodyAt_insert, if_pos rfl]
  refine Ends.bind hcreate fun fd => ?_
  cases fd with
  | none => exact Ends.pure fun _ _ hs => ⟨hs.1, fun hr => absurd hr (by decide)⟩
  | some fd =>
    have hstill {A : Type} {m : Steps A} (hm : Only Still m) :
        EndsOn fs (fun s => Rebuilt pid img v (view s) ∧ InFile img pid (view s)) m fun _ t =>
          Rebuilt pid img v (view t) ∧ InFile img pid (view t) :=
      h.only (I := fun w => Rebuilt pid img v w ∧ InFile img pid w) hm
        fun _ _ _ _ hok hw heffect => effect_still hok heffect ▸ hw
    have hfill : Only Still (StateT.lift (fillImg fd) : Steps Int) :=
      Only.lift (allCalls_fillImg (fun _ hopen => still_open hopen) fd)
    refine Ends.bind (Ends.conseq (hstill hfill) (fun _ _ hs => ⟨hs.1, hs.2 (by simp)⟩)
      fun _ _ _ hs => hs) fun rc => ?_
    refine Ends.bind (hstill (Only.perform (k := Call.close fd) trivial)) fun _ => ?_
    refine Ends.ite (fun _ => ?_) fun _ => Ends.pure fun _ _ hs => ⟨hs.1, fun _ => hs.2⟩
    refine Ends.bind (Ends.conseq (rebuilt_only h (only_ioUnlink builds_unlink)) (fun _ _ hs => hs.1)
      fun _ _ _ hs => hs) fun _ => ?_
    exact Ends.pure fun _ _ hs => ⟨hs, fun hr => absurd hr (by decide)⟩

include h in
theorem buildImg_host : EndsOn fs (fun s => Rebuilt pid img v (view s)) (buildExt4Img pid img)
    fun _ t => Rebuilt pid img v (view t) := by
  have hbuilds : Builds img pid (.unlink (tmpName img pid)) := builds_unlink
  have hunlink := rebuilt_only (v := v) h (only_ioUnlinkQuiet hbuilds)
  have hrename : EndsOn fs (fun s => Rebuilt pid img v (view s) ∧ InFile img pid (view s))
      (Steps.sys (.rename (tmpName img pid) img)) fun (_ : Option Errno) t =>
        Rebuilt pid img v (view t) := by
    refine Ends.perform fun c s r t hs hans => ?_
    have heffect : Effect (.rename (tmpName img pid) img)
        (fs.answer (.rename (tmpName img pid) img) s).1 (view s)
        (view (fs.answer (.rename (tmpName img pid) img) s).2) := h.answers _ s
    rw [hans] at heffect
    cases r with
    | some e =>
      have hsame : view t = view s := heffect
      dsimp only
      rw [hsame]
      exact hs.1
    | none => exact hs.1.renamed hs.2 heffect
  refine Ends.ite (fun _ => Ends.pure fun _ _ hs => hs) fun _ => ?_
  refine Ends.bind hunlink fun _ => Ends.bind (createImg_host h) fun rc => Ends.ite (fun _ => ?_) fun hrc => ?_
  · exact Ends.bind (Ends.conseq hunlink (fun _ _ hs => hs.1) fun _ _ _ hs => hs)
      fun _ => Ends.pure fun _ _ hs => hs
  · refine Ends.bind (Ends.conseq hrename (fun _ _ hs => ⟨hs.1, hs.2 (not_not.mp hrc)⟩)
      fun _ _ _ hs => hs) fun r => ?_
    cases r with
    | some e => exact Ends.bind hunlink fun _ => Ends.pure fun _ _ hs => hs
    | none => exact Ends.pure fun _ _ hs => hs

include h in
/-- `setup_ext4_img` replaces the image and the file it is built in, and no more. -/
theorem setupImg_host : EndsOn fs (fun s => Rebuilt pid img v (view s)) (setupExt4Img pid img)
    fun _ t => Rebuilt pid img v (view t) := by
  have hstill {call : Call} (hcall : Still call) : Builds img pid call := Or.inr (Or.inr hcall)
  refine Ends.bind (rebuilt_only h (only_ioExists (hstill trivial))) fun e => ?_
  refine Ends.ite (fun _ => Ends.pure fun _ _ hs => hs) fun _ => Ends.ite (fun _ => ?_) fun _ =>
    buildImg_host h
  refine Ends.bind (rebuilt_only h (only_imageValid builds_open (hstill trivial))) fun ok => ?_
  exact Ends.ite (fun _ => Ends.pure fun _ _ hs => hs) fun _ => buildImg_host h

include h in
theorem ioLoop_host (file : CStr) : EndsOn fs (fun s => Rebuilt pid img v (view s)) (ioLoop file)
    fun _ t => Rebuilt pid img v (view t) := by
  have hstill {call : Call} (hcall : Still call) : Builds img pid call := Or.inr (Or.inr hcall)
  exact rebuilt_only h (only_ioLoop (hstill trivial) (hstill trivial) (fun _ _ => hstill trivial)
    fun _ => hstill trivial)

end Building

end Cage.Sandbox
