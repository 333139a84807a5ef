import Cage.Util.Disk

/-!
The path helpers of `src/util/mem.c`, and what `snprintf` writes.
-/

namespace Cage.Util

/-- `mem_path`: slashes at the end of `base` and at the front of `append` go. -/
def memPath (base append : CStr) : CStr :=
  (base.reverse.dropWhile (· = slash)).reverse ++ slash :: append.dropWhile (· = slash)

/-- `mem_path_escapes`, which reads the path component by component; `cur` is
the part of a component that has been read. -/
def escapesFrom (cur : CStr) : CStr → Bool
  | [] => cur == [dot, dot]
  | c :: s =>
      if c = slash then cur == [dot, dot] || escapesFrom [] s else escapesFrom (cur ++ [c]) s

def memPathEscapes (rel : CStr) : Bool := escapesFrom [] rel

/-- `%u` -/
def unsignedStr (n : UInt32) : CStr := lit (toString n.toNat)

/-- `%d` -/
def intStr (n : Int) : CStr := lit (toString n)

/-- What `snprintf` leaves in a buffer of `sz` bytes. -/
def truncated (sz : Nat) (s : CStr) : CStr := s.take (sz - 1)

/-- `fits` -/
def fits (s : CStr) (sz : Nat) : Bool := s.length < sz

def isSpace (c : UInt8) : Bool := c = 32 || (9 ≤ c && c ≤ 13)

/-- `strtol` in base ten: the value, saturated, and what stands behind the
digits; without digits that is the whole string. -/
def strtol (s : CStr) : Int × CStr :=
  let t := s.dropWhile isSpace
  let neg := t.head? = some 45
  let digits := if t.head? = some 45 ∨ t.head? = some 43 then t.tail else t
  let n := digits.takeWhile isDigit
  if n = [] then (0, s)
  else
    let v : Int := n.foldl (fun v c => v * 10 + (c.toNat - 48)) 0
    (if neg then max (-v) (-2 ^ 63) else min v (2 ^ 63 - 1), digits.dropWhile isDigit)

/-- The conversion of a `long` to an `int`. -/
def intOfLong (n : Int) : Int := (n + 2 ^ 31) % 2 ^ 32 - 2 ^ 31

end Cage.Util
