import Cage.Util.MemPathCorrect

/-!
The volume specifications of `src/sandbox/vol.c`: a path of the host, and behind
a colon the path in the sandbox, which is the same one without a colon.
-/

namespace Cage.Sandbox

open Util

/-- `vol_t` -/
structure Vol where
  host : CStr
  target : CStr
  deriving DecidableEq, Repr

/-- The size of both buffers. -/
def volBuffer : Nat := 4096

/-- `set_target`; `rest` is what begins with the colon. -/
def setTarget (spec : CStr) (rest : Option CStr) : Option CStr :=
  match rest with
  | some rest =>
      let target := rest.tail
      if target.length = 0 ∨ target.length ≥ volBuffer then none else some target
  | none => if spec.length ≥ volBuffer then none else some spec

def parseVol (spec : CStr) : Option Vol := do
  let rest := strchr spec colon
  let target ← setTarget spec rest
  if memPathEscapes target then none
  else
    let hostLen := match rest with
      | some rest => spec.length - rest.length
      | none => spec.length
    if hostLen = 0 ∨ hostLen ≥ volBuffer then none
    else some { host := spec.take hostLen, target := target }

/-- `prepare_volumes`: all the volumes, or the run ends. -/
def prepareVolumes (volumes : List CStr) : Option (List Vol) := volumes.mapM parseVol

/-- The path in the sandbox that a specification asks for. -/
def targetText (spec : CStr) : CStr := ((strchr spec colon).map List.tail).getD spec

variable {spec target : CStr} {v : Vol}

theorem setTarget_text (h : setTarget spec (strchr spec colon) = some target) :
    target = targetText spec := by
  unfold setTarget at h
  unfold targetText
  cases hrest : strchr spec colon with
  | none =>
    rw [hrest] at h
    dsimp only at h
    split at h
    · cases h
    · exact (Option.some.inj h).symm
  | some rest =>
    rw [hrest] at h
    dsimp only at h
    split at h
    · cases h
    · exact (Option.some.inj h).symm

/-- A volume that is taken has the path that was asked for, and it does not go up. -/
theorem parseVol_some (h : parseVol spec = some v) :
    v.target = targetText spec ∧ memPathEscapes v.target = false := by
  unfold parseVol at h
  obtain ⟨target, htarget, h⟩ := Option.bind_eq_some_iff.mp h
  split at h
  · cases h
  · rename_i hescapes
    have hv : v.target = target := by
      dsimp only at h
      split at h <;> split at h <;> cases h <;> rfl
    rw [hv]
    exact ⟨setTarget_text htarget, Bool.eq_false_iff.mpr hescapes⟩

theorem parseVol_none (h : memPathEscapes (targetText spec) = true) : parseVol spec = none := by
  cases hparse : parseVol spec with
  | none => rfl
  | some v =>
    obtain ⟨htarget, hescapes⟩ := parseVol_some hparse
    rw [htarget, h] at hescapes
    cases hescapes

/-- No path of the volumes of a run goes up. -/
theorem prepareVolumes_stay {volumes : List CStr} {vs : List Vol}
    (h : prepareVolumes volumes = some vs) : ∀ v ∈ vs, memPathEscapes v.target = false := by
  induction volumes generalizing vs with
  | nil =>
    cases h
    exact fun v hv => absurd hv List.not_mem_nil
  | cons spec volumes ih =>
    unfold prepareVolumes at h
    rw [List.mapM_cons] at h
    obtain ⟨v, hv, h⟩ := Option.bind_eq_some_iff.mp h
    obtain ⟨rest, hrest, h⟩ := Option.bind_eq_some_iff.mp h
    cases h
    intro x hx
    rcases List.mem_cons.mp hx with rfl | hx
    · exact (parseVol_some hv).2
    · exact ih hrest x hx

end Cage.Sandbox
