import Cage.Net.WriterRead

/-!
Calls of which the first that fails ends the message, as in the functions that fill in a
request: where all succeed, all of their attributes are in it.
-/

namespace Cage.Net

/-- A call that has failed ends its caller. -/
def checked (r : Int × Writer) : Option Writer := if r.1 ≠ 0 then none else some r.2

def checkedStart (r : Int × Writer × Nat) : Option (Writer × Nat) := if r.1 ≠ 0 then none else some r.2

def Calls.fill (cap : Nat) : Calls → Writer → Option Writer
  | .none, w => some w
  | .put call rest, w => do
      let w ← checked (call.call cap w)
      rest.fill cap w
  | .nest type inner rest, w => do
      let (w, start) ← checkedStart (netlinkNestStart cap type w 0)
      let w ← inner.fill cap w
      rest.fill cap (netlinkNestEnd start w)

/-- The attributes of all the calls. -/
def Calls.tree : Calls → Tree
  | .none => .nil
  | .put call rest => .leaf call.asked.type call.asked.data rest.tree
  | .nest type inner rest => .nest (UInt16.ofInt type) inner.tree rest.tree

variable {cap : Nat} {w w' : Writer}

theorem checked_some {r : Int × Writer} (h : checked r = some w) : r = (0, w) := by
  unfold checked at h
  split at h
  · cases h
  · rename_i hzero
    obtain ⟨a, b⟩ := r
    cases h
    obtain rfl : a = 0 := not_not.mp hzero
    rfl

theorem checkedStart_some {r : Int × Writer × Nat} {start : Nat} (h : checkedStart r = some (w, start)) :
    r = (0, w, start) := by
  unfold checkedStart at h
  split at h
  · cases h
  · rename_i hzero
    obtain ⟨a, b⟩ := r
    cases h
    obtain rfl : a = 0 := not_not.mp hzero
    rfl

/-- Calls that all succeed leave what they leave one by one. -/
theorem Calls.fill_run (calls : Calls) (h : calls.fill cap w = some w') :
    calls.run cap w = w' ∧ calls.made cap w = calls.tree := by
  induction calls generalizing w w' with
  | none =>
    cases h
    exact ⟨rfl, rfl⟩
  | put call rest ih =>
    obtain ⟨v, hcall, hrest⟩ := Option.bind_eq_some_iff.mp h
    obtain ⟨hrun, hmade⟩ := ih hrest
    unfold Calls.run Calls.made Calls.tree
    rw [checked_some hcall]
    exact ⟨hrun, congrArg _ hmade⟩
  | nest type inner rest ihInner ih =>
    obtain ⟨⟨v, start⟩, hstart, hfill⟩ := Option.bind_eq_some_iff.mp h
    obtain ⟨u, hinner, hrest⟩ := Option.bind_eq_some_iff.mp hfill
    obtain ⟨hirun, himade⟩ := ihInner hinner
    obtain ⟨hrun, hmade⟩ := ih hrest
    unfold Calls.run Calls.made Calls.tree
    rw [checkedStart_some hstart]
    dsimp only
    rw [if_neg (by decide), if_neg (by decide), hirun, himade, hrun, hmade]
    exact ⟨rfl, rfl⟩

/-- Calls whose attributes fit all succeed. -/
theorem Calls.fill_fits (hcap : cap ≤ 65535) (calls : Calls) (hoff : 4 ≤ w.off)
    (hfit : w.off + calls.tree.bytes.length ≤ cap) :
    ∃ w', calls.fill cap w = some w' ∧ w'.off = w.off + calls.tree.bytes.length := by
  induction calls generalizing w with
  | none => exact ⟨w, rfl, rfl⟩
  | put call rest ih =>
    rw [Calls.tree, Tree.leaf_length] at hfit ⊢
    have hle := le_nlaAlign (4 + call.asked.data.length)
    have hlow : call.low ≤ 4 := by
      cases call with
      | string => exact Nat.le_refl 4
      | attr | u32 => exact Nat.zero_le 4
    have hfits : call.Fits cap w.off := ⟨by omega, by omega⟩
    obtain ⟨mem, hcall, -, -⟩ := call.call_fits hfits (by omega)
    obtain ⟨w', hrest, hw'⟩ := ih (w := ⟨mem, w.off + nlaAlign (4 + call.asked.data.length)⟩)
      (by dsimp only; omega) (by dsimp only; omega)
    refine ⟨w', ?_, by rw [hw', Nat.add_assoc]⟩
    unfold Calls.fill
    rw [hcall]
    exact hrest
  | nest type inner rest ihInner ih =>
    rw [Calls.tree, Tree.nest_length] at hfit ⊢
    obtain ⟨u, hinner, hu⟩ := ihInner (w := w.started type) (by show 4 ≤ w.off + 4; omega)
      (by show w.off + 4 + _ ≤ cap; omega)
    have hoff' : (netlinkNestEnd w.off u).off = w.off + 4 + inner.tree.bytes.length := hu
    obtain ⟨w', hrest, hw'⟩ := ih (w := netlinkNestEnd w.off u) (by omega) (by omega)
    refine ⟨w', ?_, by omega⟩
    unfold Calls.fill
    rw [nestStart_fits type 0 (by omega)]
    show (inner.fill cap (w.started type) >>= fun w => rest.fill cap (netlinkNestEnd _ w)) = _
    rw [hinner]
    exact hrest

/-- The attributes stand behind the header, and the header is left, up to its length. -/
theorem Calls.fill_written (hcap : cap ≤ 65535) (calls : Calls) (hoff : 4 ≤ w.off) (hle : w.off ≤ cap)
    (hzero : ∀ i, w.off ≤ i → i < cap → w.mem i = 0) (h : calls.fill cap w = some w') :
    Written cap 4 calls.tree w w' := by
  obtain ⟨hrun, hmade⟩ := calls.fill_run h
  have hlow : calls.low ≤ 4 := Calls.low_le fun _ => Nat.le_refl 4
  have hwritten := calls.run_written hcap w 4 hle hzero hlow hoff
  rwa [hrun, hmade] at hwritten

end Cage.Net
