import Cage.Sandbox.GuiRules
import Cage.Util.IoAtKept
import Cage.Util.VolumeKept

/-!
The owners and modes of files while the GUI is set up. What the process sees is a tree
with links, and a call that mounts puts something else at a place of it. The creators of
`io_at.c` run on the same tree, from the root of the sandbox.
-/

namespace Cage.Sandbox

open Util Util.Volume Cage.Lib.Hoare Cage.Lib.Descent

/-- What the process sees, the modes of the files, and what the set-up has made. -/
structure World where
  io : IoState Volume.Tree
  modes : Loc → BitVec 32
  made : Loc → Prop

def World.tree (w : World) : Volume.Tree := w.io.sys

/-- Before the set-up begins. -/
def World.start (io : IoState Volume.Tree) (modes : Loc → BitVec 32) : World where
  io := io
  modes := modes
  made _ := False

def toObj (i : Inode) : At.Obj where
  content :=
    match i.body with
    | .dir => .dir
    | .file => .file
    | .link target => .link target
  uid := i.owner.uid
  gid := i.owner.gid

def ofObj (o : At.Obj) : Inode where
  body :=
    match o.content with
    | .dir => .dir
    | .file => .file
    | .link target => .link target
  owner := { uid := o.uid, gid := o.gid }

def objsOf (t : Volume.Tree) : AList fun _ : Loc => At.Obj where
  entries := t.entries.map (.map id fun _ => toObj)
  nodupKeys := List.NodupKeys.map₂ _ _ t.nodupKeys

def treeOf (objs : AList fun _ : Loc => At.Obj) : Volume.Tree where
  entries := objs.entries.map (.map id fun _ => ofObj)
  nodupKeys := List.NodupKeys.map₂ _ _ objs.nodupKeys

/-- The process with the directory at `R` open as 3. -/
def guestAt (t : Volume.Tree) (R : Loc) (faults : List Bool) : At.Guest where
  objs := objsOf t
  fds := AList.singleton 3 (.under R)
  touched := []
  faults := faults
  rooted := true

/-- A call of a creator of `io_at.c`. -/
def GuiCall.creator : GuiCall → Option (At.Creator × CStr × UInt32 × UInt32)
  | .mkdirOwnAt rel uid gid mode => some (.mkdirOwn mode, rel, uid, gid)
  | .mkdirParentsAt rel uid gid mode => some (.mkdirParents mode, rel, uid, gid)
  | .touchAt rel uid gid => some (.touch, rel, uid, gid)
  | _ => none

/-- A call of a function of `io.c` on a path. -/
def GuiCall.onPath (k : Kernel) : GuiCall → Option (Io Volume.Tree Int)
  | .exists path => some (ioExists (volume k) path)
  | .isdir path => some (ioIsdir (volume k) path)
  | .mkdir path => some (ioMkdir (volume k) path)
  | .mkdirOwn path uid gid mode => some (ioMkdirOwn (volume k) path uid gid mode)
  | .touch path => some (ioTouch (volume k) path)
  | _ => none

/-- A call that sets an access control list, with its path. -/
def GuiCall.aclPath : GuiCall → Option CStr
  | .aclGuestSet path _ _ _ => some path
  | .aclSet path _ _ _ => some path
  | _ => none

/-- `S_ISUID` goes with every change of the owner, `S_ISGID` if the group may execute. -/
def chownMode (m : BitVec 32) : BitVec 32 :=
  let m := m &&& ~~~0o4000
  if m &&& 0o10 ≠ 0 then m &&& ~~~0o2000 else m

/-- What is new belongs to the set-up. -/
def Grown (w w' : World) : Prop :=
  ∀ l, w'.made l ↔ w.made l ∨ (w.tree.lookup l = none ∧ w'.tree.lookup l ≠ none)

/-- A call of the set-up with the root at the path `root`, and what it returns. -/
inductive Acts (k : Kernel) (root : CStr) : GuiCall → Int → World → World → Prop
  | onPath {c : GuiCall} {m : Io Volume.Tree Int} {w w' : World} (hc : c.onPath k = some m)
      (hio : w'.io = (m w.io).2) (hgrown : Grown w w')
      (hmodes : ∀ l, w.tree.lookup l ≠ none → w'.modes l = w.modes l) :
      Acts k root c (m w.io).1 w w'
  | creator {c : GuiCall} {p : At.Creator} {rel : CStr} {uid gid : UInt32} {R : Loc}
      {faults : List Bool} {w w' : World} (hc : c.creator = some (p, rel, uid, gid))
      (hroot : find k w.tree true root = .ok R)
      (htree : w'.tree = treeOf (p.run 3 rel uid gid (guestAt w.tree R faults)).2.objs)
      (hcache : w'.io.cache = w.io.cache) (hgrown : Grown w w')
      (hmodes : ∀ l i, w.tree.lookup l = some i → w'.modes l =
        if ⟨.chowned, .under l⟩ ∈ (p.run 3 rel uid gid (guestAt w.tree R faults)).2.touched ∧
          i.body ≠ .dir then chownMode (w.modes l) else w.modes l) :
      Acts k root c (p.run 3 rel uid gid (guestAt w.tree R faults)).1 w w'
  | openRoot (path : CStr) (r : Int) (w : World) : Acts k root (.openRoot path) r w w
  | mount {src target : CStr} {p : Loc} {w w' : World} (hfind : find k w.tree true target = .ok p)
      (htree : ∀ l, ¬ p <+: l → w'.tree.lookup l = w.tree.lookup l)
      (hmodes : ∀ l, ¬ p <+: l → w'.modes l = w.modes l)
      (hmade : ∀ l, w'.made l ↔ w.made l ∧ ¬ p <+: l) :
      Acts k root (.mount src target) 0 w w'
  | noMount (src target : CStr) {r : Int} (hr : r ≠ 0) (w : World) :
      Acts k root (.mount src target) r w w
  | acl {c : GuiCall} {path : CStr} {w w' : World} (hc : c.aclPath = some path) (r : Int)
      (hio : w'.io = w.io) (hmade : w'.made = w.made)
      (hmodes : ∀ l, find k w.tree true path ≠ .ok l → w'.modes l = w.modes l) : Acts k root c r w w'

/-- What is seen after a creator of `io_at.c`. -/
def World.afterCreator (w : World) (p : At.Creator) (rel : CStr) (uid gid : UInt32) (R : Loc)
    (faults : List Bool) : World :=
  let g := (p.run 3 rel uid gid (guestAt w.tree R faults)).2
  { io := { cache := w.io.cache, sys := treeOf g.objs }
    modes := fun l =>
      if ⟨.chowned, .under l⟩ ∈ g.touched ∧ bodyAt w.tree l ≠ some .dir then chownMode (w.modes l)
      else w.modes l
    made := fun l => w.made l ∨ (w.tree.lookup l = none ∧ (treeOf g.objs).lookup l ≠ none) }

/-- What a mount covers, or gets an access control list. -/
def Spared (k : Kernel) (t : Volume.Tree) (c : GuiCall) (l : Loc) : Prop :=
  match c with
  | .mount _ target => ∃ p, find k t true target = .ok p ∧ p <+: l
  | .aclGuestSet path _ _ _ => find k t true path = .ok l
  | .aclSet path _ _ _ => find k t true path = .ok l
  | _ => False

/-- What the set-up has not made keeps its owner and mode. -/
def StepKeeps (k : Kernel) (c : GuiCall) (w w' : World) : Prop :=
  ∀ l i, w.tree.lookup l = some i → ¬ w.made l → ¬ Spared k w.tree c l →
    w'.tree.lookup l = some i ∧ w'.modes l = w.modes l

/-- Nothing that the set-up has not made changes when the owner of `l` does. -/
def Free (w : World) (l : Loc) (uid gid : UInt32) : Prop :=
  (uid = 0 ∧ gid = 0) ∨ w.made l ∨ ∀ i, w.tree.lookup l = some i →
    i.owner.chown { uid := uid, gid := gid } = i.owner ∧
      (i.body ≠ .dir → chownMode (w.modes l) = w.modes l)

/-- A call, what it has returned, and what is seen after it. -/
structure GuiStep where
  call : GuiCall
  reply : Int
  after : World

def GuiStep.entry (s : GuiStep) : GuiCall × Int := (s.call, s.reply)

/-- A run of calls from a world on. -/
inductive Plays (k : Kernel) (root : CStr) : World → List GuiStep → Prop
  | nil (w : World) : Plays k root w []
  | cons {w : World} {s : GuiStep} {rest : List GuiStep} (h : Acts k root s.call s.reply w s.after)
      (hrest : Plays k root s.after rest) : Plays k root w (s :: rest)

/-- In every state of the run, what the set-up has not made is as it was. -/
def OwnersKept (k : Kernel) : World → List GuiStep → Prop
  | _, [] => True
  | w, s :: rest => StepKeeps k s.call w s.after ∧ OwnersKept k s.after rest

/-- Every creator of `io_at.c` that succeeds on one of the paths of `leaf` finds nothing
at its end, or nothing that changes. -/
def FoundFree (k : Kernel) (root : CStr) (leaf : CStr → Prop) : World → List GuiStep → Prop
  | _, [] => True
  | w, s :: rest =>
      (∀ p rel uid gid R, s.call.creator = some (p, rel, uid, gid) → leaf rel → s.reply = 0 →
        find k w.tree true root = .ok R → Free w (Lib.Descent.resolve dots R (comps rel)) uid gid) ∧
      FoundFree k root leaf s.after rest

/-- A file that the set-up mounts something on. -/
def MountTarget (ctx : GuiCtx) (home sub : CStr) : Prop :=
  (∃ n, sub = lit "tmp/.X11-unix/X" ++ intStr n) ∨ waylandTarget ctx = some sub ∨
    pulseTarget ctx = some sub ∨ sub = memPath home (lit "/.Xauthority") ∨
    sub = resolveGuestCookiePath ctx home ∨ sub = skipSlashes (resolveGuestCookiePath ctx home)

/-- The paths for the creators of `io_at.c`: the targets, the directories they are in, and
the home. -/
def Leaf (ctx : GuiCtx) (home rel : CStr) : Prop :=
  rel = skipSlashes home ∨ ∃ sub, MountTarget ctx home sub ∧ (rel = sub ∨ parentOf sub = some rel)

section

variable {k : Kernel} {root : CStr} {c : GuiCall} {r : Int} {w w' : World} {t : Volume.Tree}
  {leaf : CStr → Prop}

@[simp]
theorem ofObj_toObj (i : Inode) : ofObj (toObj i) = i := by
  obtain ⟨b, o⟩ := i
  cases b <;> rfl

theorem lookup_objsOf (t : Volume.Tree) (l : Loc) :
    (objsOf t).lookup l = (t.lookup l).map toObj :=
  List.dlookup_map₂ l

theorem lookup_treeOf (objs : AList fun _ : Loc => At.Obj) (l : Loc) :
    (treeOf objs).lookup l = (objs.lookup l).map ofObj :=
  List.dlookup_map₂ l

theorem lookup_of_objs {objs : AList fun _ : Loc => At.Obj} {l : Loc} {i : Inode}
    (h : objs.lookup l = some (toObj i)) : (treeOf objs).lookup l = some i := by
  rw [lookup_treeOf, h, Option.map_some, ofObj_toObj]

/-- A creator can be called wherever the root is found. -/
theorem acts_afterCreator {p : At.Creator} {rel : CStr} {uid gid : UInt32} {R : Loc}
    (hc : c.creator = some (p, rel, uid, gid)) (hroot : find k w.tree true root = .ok R)
    (faults : List Bool) :
    Acts k root c (p.run 3 rel uid gid (guestAt w.tree R faults)).1 w
      (w.afterCreator p rel uid gid R faults) := by
  refine .creator hc hroot rfl rfl (fun l => Iff.rfl) fun l i hl => ?_
  have hbody : bodyAt w.tree l ≠ some .dir ↔ i.body ≠ .dir := by
    unfold bodyAt
    rw [hl, Option.map_some, Ne, Option.some.injEq]
  unfold World.afterCreator
  simp only [hbody]

theorem onPath_sub {m : Io Volume.Tree Int} (hc : c.onPath k = some m) (w : IoState Volume.Tree) :
    Sub w.sys (m w).2.sys := by
  have hkeeps : Keeps (Volume.Keeping w.sys) m := by
    cases c <;> cases hc
    · exact ioExists_keeping
    · exact ioIsdir_keeping
    · exact ioMkdir_keeping
    · exact ioMkdirOwn_keeping
    · exact ioTouch_keeping
  exact hkeeps w (Sub.refl w.sys)

theorem spared_of_creator {x : At.Creator × CStr × UInt32 × UInt32} (hc : c.creator = some x)
    (l : Loc) : ¬ Spared k t c l := by
  cases c <;> first | exact id | cases hc

/-- All calls but the creators of `io_at.c` leave what is there. -/
theorem stepKeeps_of_no_creator (h : Acts k root c r w w') (hc : c.creator = none) :
    StepKeeps k c w w' := by
  intro l i hl hmade hspared
  cases h with
  | onPath hpath hio hgrown hmodes =>
    refine ⟨?_, hmodes l (by rw [hl]; exact Option.some_ne_none i)⟩
    unfold World.tree
    rw [hio]
    exact onPath_sub hpath w.io l i hl
  | creator hcreator =>
    rw [hcreator] at hc
    cases hc
  | openRoot path => exact ⟨hl, rfl⟩
  | mount hfind htree hmodes =>
    have hout : ¬ _ <+: l := fun hpre => hspared ⟨_, hfind, hpre⟩
    exact ⟨(htree l hout).trans hl, hmodes l hout⟩
  | noMount src target hr => exact ⟨hl, rfl⟩
  | @acl c path w w' hpath r hio hm hmodes =>
    have hother : find k w.tree true path ≠ .ok l := by
      intro hfind
      cases c <;> cases hpath <;> exact hspared hfind
    refine ⟨?_, hmodes l hother⟩
    unfold World.tree
    rw [hio]
    exact hl

theorem lookup_guestAt {R l : Loc} {faults : List Bool} {i : Inode} (h : t.lookup l = some i) :
    (guestAt t R faults).objs.lookup l = some (toObj i) := by
  change (objsOf t).lookup l = _
  rw [lookup_objsOf, h]
  rfl

theorem lookup_guestAt_none {R l : Loc} {faults : List Bool}
    (h : (guestAt t R faults).objs.lookup l = none) : t.lookup l = none := by
  change (objsOf t).lookup l = none at h
  rw [lookup_objsOf, Option.map_eq_none_iff] at h
  exact h

section

variable {R l : Loc} {faults : List Bool} {g : At.Guest} {uid gid : UInt32}
  (htree : w'.tree = treeOf g.objs)
  (hmodes : ∀ l i, w.tree.lookup l = some i → w'.modes l =
    if ⟨.chowned, .under l⟩ ∈ g.touched ∧ i.body ≠ .dir then chownMode (w.modes l) else w.modes l)

include htree hmodes

/-- An object that a creator has not changed. -/
theorem kept_of_objs {i : Inode} (hl : w.tree.lookup l = some i)
    (hobjs : g.objs.lookup l = some (toObj i)) (hno : ⟨.chowned, .under l⟩ ∉ g.touched) :
    w'.tree.lookup l = some i ∧ w'.modes l = w.modes l := by
  refine ⟨?_, ?_⟩
  · rw [htree]
    exact lookup_of_objs hobjs
  · rw [hmodes l i hl, if_neg fun h => hno h.1]

theorem stepKeeps_of_spares (h : At.Spares (guestAt w.tree R faults) g) : StepKeeps k c w w' := by
  intro l i hl _ _
  refine kept_of_objs htree hmodes hl (h.objs l _ (lookup_guestAt hl)) fun htouched => ?_
  rcases h.chowned l htouched with hold | hnone
  · cases hold
  · rw [lookup_guestAt_none hnone] at hl
    cases hl

theorem stepKeeps_iff_free (hc : ∀ l, ¬ Spared k w.tree c l)
    (h : At.SparesBut (guestAt w.tree R faults) g l uid gid) (hids : ¬(uid = 0 ∧ gid = 0)) :
    StepKeeps k c w w' ↔ Free w l uid gid := by
  -- what has become of the object at the end of the path
  have hleaf {i : Inode} (hl : w.tree.lookup l = some i) :
      w'.tree.lookup l = some { i with owner := i.owner.chown { uid := uid, gid := gid } } ∧
        w'.modes l = if i.body ≠ .dir then chownMode (w.modes l) else w.modes l := by
    refine ⟨?_, ?_⟩
    · rw [htree]
      exact lookup_of_objs (h.last _ (lookup_guestAt hl))
    · rw [hmodes l i hl]
      simp only [h.touched, true_and]
  constructor
  · intro hkeeps
    by_cases hmade : w.made l
    · exact Or.inr (Or.inl hmade)
    · refine Or.inr (Or.inr fun i hl => ?_)
      obtain ⟨hsame, hmode⟩ := hkeeps l i hl hmade (hc l)
      obtain ⟨hleaf, hleafMode⟩ := hleaf hl
      rw [hleaf] at hsame
      refine ⟨congrArg Inode.owner (Option.some.inj hsame), fun hbody => ?_⟩
      rw [hleafMode, if_pos hbody] at hmode
      exact hmode
  · intro hfree x i hx hmade _
    by_cases hxl : x = l
    · subst hxl
      obtain ⟨hleaf, hleafMode⟩ := hleaf hx
      rcases hfree with hzero | hmine | hsame
      · exact absurd hzero hids
      · exact absurd hmine hmade
      · obtain ⟨howner, hmode⟩ := hsame i hx
        rw [hleaf, hleafMode, howner]
        refine ⟨rfl, ?_⟩
        split
        · exact hmode ‹_›
        · rfl
    · refine kept_of_objs htree hmodes hx (h.objs x _ hxl (lookup_guestAt hx)) fun htouched => ?_
      rcases h.chowned x htouched with hold | hnone | heq
      · cases hold
      · rw [lookup_guestAt_none hnone] at hx
        cases hx
      · exact hxl heq

end

/-- A creator of `io_at.c` leaves what is there unless it succeeds on something whose
owner it changes. -/
theorem stepKeeps_creator {p : At.Creator} {rel : CStr} {uid gid : UInt32} (h : Acts k root c r w w')
    (hc : c.creator = some (p, rel, uid, gid)) :
    StepKeeps k c w w' ↔ (r = 0 → ∀ R, find k w.tree true root = .ok R →
      Free w (Lib.Descent.resolve dots R (comps rel)) uid gid) := by
  have hspared := spared_of_creator (k := k) (t := w.tree) hc
  cases h with
  | onPath hpath => cases c <;> cases hc <;> cases hpath
  | openRoot path => cases hc
  | mount hfind => cases hc
  | noMount => cases hc
  | acl hpath => cases c <;> cases hc <;> cases hpath
  | @creator c p' rel' uid' gid' R faults w w' hc' hroot htree hcache hgrown hmodes =>
    rw [hc'] at hc
    cases hc
    have hopen : (guestAt w.tree R faults).fds.lookup 3 = some (.under R) := rfl
    have hleft := At.creator_left p hopen rel uid gid
    have hroots {P : Loc → Prop} : (∀ S, find k w.tree true root = .ok S → P S) ↔ P R := by
      rw [hroot]
      exact ⟨fun h => h R rfl, fun h S hS => Except.ok.inj hS ▸ h⟩
    rw [hroots]
    by_cases hr : (p.run 3 rel uid gid (guestAt w.tree R faults)).1 = 0
    · by_cases hids : uid = 0 ∧ gid = 0
      · exact iff_of_true (stepKeeps_of_spares htree hmodes (hleft.spares (Or.inr hids)))
          fun _ => Or.inl hids
      · rw [stepKeeps_iff_free htree hmodes hspared (hleft.changes hr hids) hids]
        exact ⟨fun h _ => h, fun h => h hr⟩
    · exact iff_of_true (stepKeeps_of_spares htree hmodes (hleft.spares (Or.inl hr)))
        fun h => absurd h hr

/-- In a run whose creators of `io_at.c` work on certain paths only, what the set-up has
not made is left exactly when those creators find nothing that they change. -/
theorem ownersKept_iff_free {trace : List GuiStep} (hplays : Plays k root w trace)
    (hleaf : ∀ s ∈ trace, ∀ p rel uid gid, s.call.creator = some (p, rel, uid, gid) → leaf rel) :
    OwnersKept k w trace ↔ FoundFree k root leaf w trace := by
  induction hplays with
  | nil w => exact Iff.rfl
  | @cons w s rest h hrest ih =>
    rw [List.forall_mem_cons] at hleaf
    refine and_congr ?_ (ih hleaf.2)
    cases hc : s.call.creator with
    | none => exact iff_of_true (stepKeeps_of_no_creator h hc) fun p rel uid gid R hfalse => by cases hfalse
    | some x =>
      obtain ⟨p, rel, uid, gid⟩ := x
      rw [stepKeeps_creator h hc]
      constructor
      · rintro hfree p' rel' uid' gid' R hsame - hr hR
        cases hsame
        exact hfree hr R hR
      · intro hfree hr R hR
        exact hfree p rel uid gid R rfl (hleaf.1 p rel uid gid hc) hr hR

/-- What was there before a call does not belong to the set-up after it. -/
theorem Acts.not_made (h : Acts k root c r w w') {l : Loc} (hl : w.tree.lookup l ≠ none)
    (hmade : ¬ w.made l) : ¬ w'.made l := by
  have hgrown (hgrown : Grown w w') : ¬ w'.made l := by
    rw [hgrown l]
    rintro (hold | ⟨hnone, -⟩)
    · exact hmade hold
    · exact hl hnone
  cases h with
  | onPath _ _ hg => exact hgrown hg
  | creator _ _ _ _ hg => exact hgrown hg
  | openRoot | noMount => exact hmade
  | mount _ _ _ hm => exact fun h => hmade ((hm l).mp h).1
  | acl _ _ _ hm => rwa [hm]

/-- What was there at the start is as it was until something covers it. -/
theorem OwnersKept.from_start {trace : List GuiStep} (h : OwnersKept k w trace)
    (hplays : Plays k root w trace) {l : Loc} {i : Inode} (hl : w.tree.lookup l = some i)
    (hmade : ¬ w.made l)
    (hspared : ∀ s ∈ trace, ∀ t, ¬ Spared k t s.call l) :
    ∀ s ∈ trace, s.after.tree.lookup l = some i ∧ s.after.modes l = w.modes l := by
  induction hplays with
  | nil w => exact fun s hs => absurd hs List.not_mem_nil
  | @cons w s rest hacts hrest ih =>
    rw [List.forall_mem_cons] at hspared ⊢
    have hstep := h.1 l i hl hmade (hspared.1 w.tree)
    have hthere : w.tree.lookup l ≠ none := by
      rw [hl]
      exact Option.some_ne_none i
    have hlater := ih h.2 hstep.1 (hacts.not_made hthere hmade) hspared.2
    rw [hstep.2] at hlater
    exact ⟨hstep, hlater⟩

end

/-- A creator of `io_at.c` works on one of the known paths. -/
def OnLeaf (ctx : GuiCtx) (home : CStr) (c : GuiCall) : Prop :=
  ∀ p rel uid gid, c.creator = some (p, rel, uid, gid) → Leaf ctx home rel

section

variable {host : HostView} {ctx : GuiCtx} {home : CStr}

theorem onLeaf_of_none {c : GuiCall} (h : c.creator = none) : OnLeaf ctx home c := by
  intro p rel uid gid hc
  rw [h] at hc
  cases hc

theorem target_permits {sub : CStr} (h : MountTarget ctx home sub) :
    Permits (OnLeaf ctx home) ctx sub where
  parents dir uid gid mode hdir p rel uid' gid' hc := by
    cases hc
    exact Or.inr ⟨sub, h, Or.inr hdir⟩
  touchAt uid gid p rel uid' gid' hc := by
    cases hc
    exact Or.inr ⟨sub, h, Or.inl rfl⟩
  mount _ := onLeaf_of_none rfl
  acl _ _ _ := onLeaf_of_none rfl

theorem xdg_permits (dir : CStr) : PermitsXdg (OnLeaf ctx home) ctx dir :=
  ⟨fun _ _ _ => onLeaf_of_none rfl, fun _ _ _ _ _ _ => onLeaf_of_none rfl⟩

theorem socket_permits {sub : CStr} (h : MountTarget ctx home sub) :
    PermitsSocket (OnLeaf ctx home) ctx sub :=
  ⟨onLeaf_of_none rfl, onLeaf_of_none rfl, target_permits h⟩

theorem onLeaf_permits : PermitsAll (OnLeaf ctx home) host ctx home where
  root := onLeaf_of_none rfl
  hostAcl _ _ _ _ := onLeaf_of_none rfl
  x11 := ⟨onLeaf_of_none rfl, onLeaf_of_none rfl, onLeaf_of_none rfl, fun _ => onLeaf_of_none rfl⟩
  x11Node n := target_permits (Or.inl ⟨n, rfl⟩)
  wayland xrd hxrd hthere dir hfill hfits := by
    refine ⟨xdg_permits dir, socket_permits (Or.inr (Or.inl ?_))⟩
    unfold waylandTarget
    rw [hfill, Option.bind_some]
    exact if_pos hfits
  pulse xrd hxrd src hsrc hthere target htarget :=
    ⟨socket_permits (Or.inr (Or.inr (Or.inl htarget))),
      fun _ dir _ => ⟨xdg_permits dir, fun _ _ _ => onLeaf_of_none rfl⟩,
      fun _ _ _ _ _ _ => onLeaf_of_none rfl⟩
  xauthority := target_permits (Or.inr (Or.inr (Or.inr (Or.inl rfl))))
  homeDir uid gid mode p rel uid' gid' hc := by
    cases hc
    exact Or.inl rfl
  cookie _ := by
    have hskip : MountTarget ctx home (skipSlashes (resolveGuestCookiePath ctx home)) :=
      Or.inr (Or.inr (Or.inr (Or.inr (Or.inr rfl))))
    refine ⟨fun dir uid gid mode hdir p rel uid' gid' hc => ?_, fun uid gid p rel uid' gid' hc => ?_,
      target_permits (Or.inr (Or.inr (Or.inr (Or.inr (Or.inl rfl)))))⟩
    · cases hc
      exact Or.inr ⟨_, hskip, Or.inr hdir⟩
    · cases hc
      exact Or.inr ⟨_, hskip, Or.inl rfl⟩

/-- The creators of `io_at.c` are called on the paths that the arguments name. -/
theorem setupGuiMounts_onLeaf :
    Keeps (AllOk (OnLeaf ctx home)) (setupGuiMounts host ctx (some home)) :=
  setupGuiMounts_keeps (fun _ hg => hg) (allOk_kept _) fun _ => onLeaf_permits

end

end Cage.Sandbox
