import Cage.Lib.Checked

/-!
The growing buffer of `src/util/mem.c`. `mem_realloc` ends the process when it
fails, so a call that returns has its memory.
-/

namespace Cage.Util

open Lib.Checked

/-- `buf_t`: the `len` bytes in use, and the capacity they must stay in. -/
structure Buf where
  data : List UInt8
  cap : Nat
  deriving DecidableEq, Repr

/-- `BUF_INIT`. -/
def Buf.init : Buf := { data := [], cap := 0 }

/-- The buffer's length stays inside its allocation. -/
def Buf.Ok (b : Buf) : Prop := b.data.length ≤ b.cap

def bufGrow (need : Nat) : Exec Buf Int := do
  let b ← get
  if b.data.length + need ≤ b.cap then
    pure 0
  else do
    let newCap := b.cap + max (max b.cap 64) (b.data.length + need - b.cap)
    -- `(new_cap + 63) & ~(size_t)63`
    set { b with cap := (newCap + 63) / 64 * 64 }
    pure 0

/-- The write `data[len] = c; len++`. -/
def bufPut (c : UInt8) : Exec Buf Unit := do
  let b ← get
  if b.data.length < b.cap then
    set { b with data := b.data ++ [c] }
  else
    fault .bounds

def bufAppendC (c : UInt8) : Exec Buf Int := do
  let _ ← bufGrow 1
  bufPut c
  pure 0

/-- `buf_terminate`; the terminator is not counted in the length. The result is the
buffer up to and with it. -/
def bufTerminate : Exec Buf (List UInt8) := do
  let _ ← bufGrow 1
  let b ← get
  if b.data.length < b.cap then pure (b.data ++ [0]) else fault .bounds

theorem Buf.init_ok : Buf.init.Ok := Nat.le_refl 0

theorem bufGrow_spec (need : Nat) (b : Buf) :
    Ends (bufGrow need) b fun r b' =>
      r = 0 ∧ b'.data = b.data ∧ b.data.length + need ≤ b'.cap := by
  refine Ends.get_bind ?_
  by_cases h : b.data.length + need ≤ b.cap
  · rw [if_pos h]
    exact Ends.pure ⟨rfl, rfl, h⟩
  · rw [if_neg h]
    refine Ends.set_bind (Ends.pure ⟨rfl, rfl, ?_⟩)
    show b.data.length + need ≤
      (b.cap + max (max b.cap 64) (b.data.length + need - b.cap) + 63) / 64 * 64
    omega

theorem bufTerminate_spec (b : Buf) :
    Ends bufTerminate b fun blob _ => blob = b.data ++ [0] := by
  refine Ends.bind (bufGrow_spec 1 b) ?_
  rintro - b₁ ⟨-, hdata, hcap⟩
  refine Ends.get_bind ?_
  rw [if_pos (by rw [hdata]; exact hcap), hdata]
  exact Ends.pure rfl

theorem bufPut_spec (c : UInt8) (b : Buf) (h : b.data.length < b.cap) :
    Ends (bufPut c) b fun _ b' => b'.data = b.data ++ [c] ∧ b'.cap = b.cap := by
  refine Ends.get_bind ?_
  rw [if_pos h]
  exact ⟨(), _, rfl, rfl, rfl⟩

theorem bufAppendC_spec (c : UInt8) (b : Buf) :
    Ends (bufAppendC c) b fun r b' => r = 0 ∧ b'.Ok ∧ b'.data = b.data ++ [c] := by
  apply Ends.bind (bufGrow_spec 1 b)
  rintro _ b₁ ⟨-, hdata, hcap⟩
  apply Ends.bind (bufPut_spec c b₁ (by rw [hdata]; omega))
  rintro _ b₂ ⟨hput, hcap'⟩
  refine Ends.pure ⟨rfl, ?_, by rw [hput, hdata]⟩
  rw [Buf.Ok, hput, List.length_append, List.length_singleton, hdata, hcap']
  exact hcap

end Cage.Util
