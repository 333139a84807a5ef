import Cage.Lib.Descent
import Cage.Sandbox.GuiRules
import Cage.Util.MemPathCorrect

/-!
Where the set-up of the GUI makes things. The root and the host around it have
no links, so that a place is a list of names.
-/

namespace Cage.Sandbox

open Util Cage.Lib.Hoare Cage.Lib.Descent

/-- The places of what a call may create, chown or mount on. What is made on the
way to the end of a path is made where nothing is: the root and the directories
above it are there. -/
def GuiCall.made (root : Loc) : GuiCall → List Loc
  | .mkdir path | .mkdirOwn path _ _ _ =>
      (places dots [] (comps path)).filter fun l => !decide (l <+: root)
  | .touch path => [resolve dots [] (comps path)]
  | .mkdirOwnAt rel _ _ _ | .mkdirParentsAt rel _ _ _ | .touchAt rel _ _ =>
      (places dots root (comps rel)).filter fun l => !decide (l <+: root)
  | .mount _ target => [resolve dots [] (comps target)]
  | .exists _ | .isdir _ | .openRoot _ | .aclGuestSet _ _ _ _ | .aclSet _ _ _ _ => []

/-- All that a call makes is at or below the root. -/
def GuiCall.Inside (root : Loc) (c : GuiCall) : Prop := ∀ l ∈ c.made root, root <+: l

section

variable {root : Path}

theorem root_plain (root : Path) : ∀ c ∈ root.loc, c ≠ dots.here ∧ c ≠ dots.up :=
  fun c hc => ⟨(root.valid c hc).2.2.1, (root.valid c hc).2.2.2⟩

/-- The path of `sub` in the root. -/
theorem comps_inRoot (root : Path) (sub : CStr) :
    comps (memPath root.str sub) = root.loc ++ comps sub := by
  rw [comps_memPath, comps_str]

variable {cs : Loc} (h : Stays dots root.loc cs)

include h

end

section

variable {host : HostView} {ctx : GuiCtx}

theorem fillXdg_eq {sz : Nat} {dir : CStr} (h : fillXdg ctx sz = some dir) :
    dir = ctx.guestXrd.getD (runUser ctx.uid) := by
  unfold fillXdg at h
  dsimp only at h
  split at h
  · exact (Option.some.inj h).symm
  · cases h

theorem waylandTarget_eq {p : CStr} (h : waylandTarget ctx = some p) :
    p = ctx.guestXrd.getD (runUser ctx.uid) ++ slash :: ctx.guestWl.getD (hostWayland ctx) := by
  obtain ⟨dir, hfill, hp⟩ := Option.bind_eq_some_iff.mp h
  dsimp only at hp
  split at hp
  · rw [← fillXdg_eq hfill]
    exact (Option.some.inj hp).symm
  · cases hp

/-- The directory of the PulseAudio socket is the one of the XDG sockets. -/
theorem pulseTarget_comps {target : CStr} (hps : ctx.guestPs = none)
    (htarget : pulseTarget ctx = some target) :
    comps target =
      comps (ctx.guestXrd.getD (runUser ctx.uid)) ++ [lit "pulse", lit "native"] := by
  have hnative (base : CStr) :
      comps (base ++ lit "/pulse/native") = comps base ++ [lit "pulse", lit "native"] :=
    comps_append_slash base (lit "pulse/native")
  have hsome {p : CStr} {c : Prop} [Decidable c] (hp : (if c then some p else none) = some target) :
      target = p := by
    split at hp
    · exact (Option.some.inj hp).symm
    · cases hp
  unfold pulseTarget at htarget
  rw [hps] at htarget
  cases hxrd : ctx.guestXrd with
  | some xrd =>
    rw [hxrd] at htarget
    rw [hsome htarget]
    exact hnative xrd
  | none =>
    rw [hxrd] at htarget
    have hrun : comps (runUser ctx.uid) = comps (lit "run/user/" ++ unsignedStr ctx.uid) :=
      comps_slash (lit "run/user/" ++ unsignedStr ctx.uid)
    rw [hsome htarget, Option.getD_none, hnative, hrun]

end

/-- No reply is left, so that every call succeeds. -/
def Quiet (g : Gui) : Prop := g.replies = []

section

variable {host : HostView} {ctx : GuiCtx}

end

end Cage.Sandbox
