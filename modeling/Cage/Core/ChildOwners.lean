import Cage.Core.ChildCorrect
import Cage.Sandbox.GuiOwners

/-!
The owners and modes of files while a child sets up its GUI.
-/

namespace Cage.Core

open Util Util.Volume Sandbox Cage.Lib.Hoare

/-- The child calls the creators of `io_at.c` on the paths that its arguments name. -/
theorem guiEnv_onLeaf (s : Scene) (cfg : GuiConfig) {replies : List Int} {o : Outcome}
    (h : guiEnv true s cfg (.setup replies) = some o) :
    ∀ e ∈ o.log, OnLeaf (guiCtx s cfg) (guestHome s cfg) e.1 := by
  by_cases hargs : Accepted cfg
  · cases hgraphical : cfg.graphical with
    | false =>
      obtain ⟨env, hrun, -⟩ := guiEnv_off s hargs hgraphical (.setup replies)
      rw [hrun] at h
      rw [← Option.some.inj h]
      exact fun e he => absurd he List.not_mem_nil
    | true =>
      obtain ⟨o', ho', hlog, -⟩ := guiEnv_setup s hargs hgraphical replies
      rw [ho'] at h
      rw [← Option.some.inj h, hlog]
      exact setupGuiMounts_onLeaf (startGui replies) fun e he => absurd he List.not_mem_nil
  · rw [guiEnv_refused s hargs] at h
    rw [← Option.some.inj h]
    exact fun e he => absurd he List.not_mem_nil

/-- In every run of the set-up, what it has not made keeps owner and mode exactly when
each creator of `io_at.c` that succeeds finds nothing at the end of its path, or
something that this set-up has made, or something whose owner and mode stay. -/
theorem ownersKept_iff (s : Scene) (cfg : GuiConfig) {replies : List Int} {o : Outcome}
    (h : guiEnv true s cfg (.setup replies) = some o) {k : Volume.Kernel} {io : IoState Volume.Tree}
    {modes : Loc → BitVec 32} {trace : List GuiStep}
    (hplays : Plays k s.root.str (World.start io modes) trace)
    (hlog : trace.map GuiStep.entry = o.log) :
    OwnersKept k (World.start io modes) trace ↔
      FoundFree k s.root.str (Leaf (guiCtx s cfg) (guestHome s cfg)) (World.start io modes) trace := by
  refine ownersKept_iff_free hplays fun step hstep p rel uid gid hc => ?_
  have hmem : step.entry ∈ o.log := by
    rw [← hlog]
    exact List.mem_map_of_mem hstep
  exact guiEnv_onLeaf s cfg h step.entry hmem p rel uid gid hc

/-- A host with nothing but `.Xauthority`. -/
def xauthHost : HostView where
  getenv name := if name = lit "HOME" then some (lit "/root") else none
  «exists» path := if path = lit "/root/.Xauthority" then 0 else 1
  isdir _ := 0
  access _ := false
  x11Dir := none

def xauthScene : Scene where
  host := xauthHost
  user := { uid := 1000, gid := 1000, groups := [], home := lit "/home/u" }
  root := { loc := [lit "r"], valid := by decide }
  ruid := 0

def xauthConfig : GuiConfig where
  graphical := true
  envvars := []

/-- The home and the target are made, and the mount fails. -/
def xauthTrace (t : Volume.Tree) : List GuiStep :=
  let start := World.start { cache := emptyCache, sys := t } fun _ => 0o755
  let home := start.afterCreator (.mkdirParents 0o755) (lit "/home/u") 1000 1000 [lit "r"] []
  let made := home.afterCreator .touch (lit "/home/u/.Xauthority") 1000 1000 [lit "r"] []
  [{ call := .openRoot (lit "/r"), reply := 0, after := start },
    { call := .mkdirParentsAt (lit "/home/u") 1000 1000 0o755, reply := 0, after := home },
    { call := .touchAt (lit "/home/u/.Xauthority") 1000 1000, reply := 0, after := made },
    { call := .mount (lit "/root/.Xauthority") (lit "/r/home/u/.Xauthority"), reply := -1,
      after := made }]

def xauthOutcome : Outcome where
  env := none
  log := (xauthTrace bareTree).map GuiStep.entry

theorem xauth_run : guiEnv true xauthScene xauthConfig (.setup [0, 0, 0, -1]) = some xauthOutcome := by
  decide

/-- The world after the home has been made. -/
def xauthHome (t : Volume.Tree) : World :=
  (World.start { cache := emptyCache, sys := t } fun _ => 0o755).afterCreator (.mkdirParents 0o755)
    (lit "/home/u") 1000 1000 [lit "r"] []

theorem xauth_plays {t : Volume.Tree} (hroot : find freeKernel t true (lit "/r") = .ok [lit "r"])
    (hroot' : find freeKernel (xauthHome t).tree true (lit "/r") = .ok [lit "r"])
    (hhome : ((At.Creator.mkdirParents 0o755).run 3 (lit "/home/u") 1000 1000
      (guestAt t [lit "r"] [])).1 = 0)
    (hfile : (At.Creator.touch.run 3 (lit "/home/u/.Xauthority") 1000 1000
      (guestAt (xauthHome t).tree [lit "r"] [])).1 = 0) :
    Plays freeKernel (lit "/r") (World.start { cache := emptyCache, sys := t } fun _ => 0o755)
      (xauthTrace t) := by
  have hneg : (-1 : Int) ≠ 0 := by decide
  refine .cons (.openRoot _ _ _) (.cons ?_ (.cons ?_ (.cons (.noMount _ _ hneg _) (.nil _))))
  · have hacts : Acts freeKernel (lit "/r") (.mkdirParentsAt (lit "/home/u") 1000 1000 0o755) _
        (World.start { cache := emptyCache, sys := t } fun _ => 0o755) (xauthHome t) :=
      acts_afterCreator rfl hroot []
    rwa [show World.tree _ = t from rfl, hhome] at hacts
  · have hacts : Acts freeKernel (lit "/r") (.touchAt (lit "/home/u/.Xauthority") 1000 1000) _
        (xauthHome t) _ := acts_afterCreator rfl hroot' []
    rwa [hfile] at hacts

/-- An empty root. -/
def emptyRoot : Volume.Tree := bareTree.insert [lit "r"] ⟨.dir, rootIds⟩

/-- A root with the home of another user. -/
def usedRoot : Volume.Tree :=
  (emptyRoot.insert [lit "r", lit "home"] ⟨.dir, rootIds⟩).insert [lit "r", lit "home", lit "u"]
    ⟨.dir, { uid := 1001, gid := 1001 }⟩

/-- In an empty root the home and the target are new. -/
theorem ownersKept_empty :
    OwnersKept freeKernel (World.start { cache := emptyCache, sys := emptyRoot } fun _ => 0o755)
      (xauthTrace emptyRoot) := by
  have hplays := xauth_plays (t := emptyRoot) (by decide) (by decide) (by decide)
    (by decide)
  have hfree {w : World} {l : Loc} (hnone : w.tree.lookup l = none) (uid gid : UInt32) :
      Free w l uid gid := by
    refine Or.inr (Or.inr fun i hl => ?_)
    rw [hnone] at hl
    cases hl
  refine (ownersKept_iff xauthScene xauthConfig xauth_run hplays rfl).mpr ⟨?_, ?_, ?_, ?_, trivial⟩
  · intro p rel uid gid R hc
    cases hc
  · intro p rel uid gid R hc _ _ hR
    cases hc
    cases (show find freeKernel emptyRoot true (lit "/r") = .ok [lit "r"] by decide).symm.trans hR
    exact hfree (by decide) 1000 1000
  · intro p rel uid gid R hc _ _ hR
    cases hc
    have hroot : find freeKernel (xauthHome emptyRoot).tree true (lit "/r") = .ok [lit "r"] := by
      decide
    cases hroot.symm.trans hR
    exact hfree (by decide) 1000 1000
  · intro p rel uid gid R hc
    cases hc

/-- The home of the user 1001 in the root becomes the home of the user 1000. -/
theorem ownersKept_lost :
    ((xauthTrace usedRoot)[1]?.map fun s =>
      (s.call, (s.after.tree.lookup [lit "r", lit "home", lit "u"]).map Inode.owner)) =
      some (.mkdirParentsAt (lit "/home/u") 1000 1000 0o755, some { uid := 1000, gid := 1000 }) ∧
    ¬ ∀ (s : Scene) (cfg : GuiConfig) (replies : List Int) (o : Outcome) (k : Volume.Kernel)
      (io : IoState Volume.Tree) (modes : Loc → BitVec 32) (trace : List GuiStep),
      guiEnv true s cfg (.setup replies) = some o → Plays k s.root.str (World.start io modes) trace →
      trace.map GuiStep.entry = o.log → OwnersKept k (World.start io modes) trace := by
  have hafter : (xauthHome usedRoot).tree.lookup [lit "r", lit "home", lit "u"] =
      some ⟨.dir, { uid := 1000, gid := 1000 }⟩ := by decide
  refine ⟨by decide, fun h => ?_⟩
  have hplays := xauth_plays (t := usedRoot) (by decide) (by decide) (by decide)
    (by decide)
  have hkept := h xauthScene xauthConfig _ _ freeKernel _ _ _ xauth_run hplays rfl
  obtain ⟨hsame, -⟩ := hkept.2.1 [lit "r", lit "home", lit "u"]
    ⟨.dir, { uid := 1001, gid := 1001 }⟩ (by decide) not_false id
  change (xauthHome usedRoot).tree.lookup _ = _ at hsame
  rw [hafter] at hsame
  exact absurd (congrArg Inode.owner (Option.some.inj hsame)) (by decide)

end Cage.Core
