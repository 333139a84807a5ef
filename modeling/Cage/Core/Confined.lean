import Cage.Core.Child
import Cage.Sandbox.Vol

/-!
The paths that the options give are joined to a root only where they cannot leave
it by their text.
-/

namespace Cage.Core

open Util Sandbox
open Lib.Descent (resolve)

/-- The callers that join `path` to another path give up without a call. -/
structure Refused (path : CStr) : Prop where
  volume : ∀ spec, targetText spec = path → parseVol spec = none
  guiHome : ∀ host ctx, setupGuiMounts host ctx (some path) = pure (-1)
  guestHome : ∀ ctx, ensureGuestHome ctx path = pure (-1)
  cookie : ∀ ctx, prepareCookieDirs ctx path = pure (-1)
  hostHome : ∀ host, hostHomeOk host (some path) = false

variable {path : CStr}

theorem Refused.of_escapes (h : memPathEscapes path = true) : Refused path where
  volume spec htarget := parseVol_none (htarget ▸ h)
  guiHome host ctx := by
    have hguard : ((some path).map memPathEscapes).getD false = true := h
    rw [setupGuiMounts, if_pos hguard]
  guestHome ctx := by rw [ensureGuestHome, if_pos h]
  cookie ctx := by rw [prepareCookieDirs, if_pos h]
  hostHome host := by
    change (path.head? = some slash && !memPathEscapes path && host.isdir path = 0) = false
    rw [h, Bool.not_true, Bool.and_false, Bool.false_and]

/-- A path without a ".." stays below the canonical path it is joined to, and one
with a ".." is joined nowhere. -/
theorem memPath_confined (base : Path) (append : CStr) :
    (memPathEscapes append = false ↔ [dot, dot] ∉ append.splitOn slash) ∧
      (memPathEscapes append = false →
        normalise (memPath base.str append) = render (base.loc ++ namedPieces append) ∧
          base.loc <+: resolve dots [] (comps (memPath base.str append))) ∧
      (memPathEscapes append = true → Refused append) := by
  refine ⟨?_, fun hstays => ?_, Refused.of_escapes⟩
  · rw [← memPathEscapes_iff, Bool.not_eq_true]
  · have hloc := resolve_memPath base hstays
    refine ⟨congrArg render hloc, ?_⟩
    rw [hloc]
    exact List.prefix_append ..

theorem memPath_confined_names :
    memPathEscapes (lit "//./...//..a/") = false ∧
      normalise (memPath (lit "/b") (lit "//./...//..a/")) = lit "/b/.../..a" ∧ Refused (lit "x/..") := by
  have hvalid : ∀ c ∈ [lit "b"], ValidName c := by decide
  obtain ⟨hescapes, hjoined, -⟩ := memPath_confined ⟨[lit "b"], hvalid⟩ (lit "//./...//..a/")
  have hstays := hescapes.mpr (by decide)
  have hnames : render ([lit "b"] ++ namedPieces (lit "//./...//..a/")) = lit "/b/.../..a" := by
    decide
  refine ⟨hstays, (hjoined hstays).1.trans hnames, ?_⟩
  exact (memPath_confined ⟨[], fun _ hc => absurd hc List.not_mem_nil⟩ (lit "x/..")).2.2
    (by decide)

end Cage.Core
