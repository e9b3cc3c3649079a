import Mathlib

/-! Operations of floating point numbers. Nothing is assumed of rounding; NaN has no order. -/
namespace InterchangeDb

/-- Numbers to estimate with, such as the 64-bit floating point numbers or the rationals. -/
class Arith (F : Type) where
  /-- A constant of the program, or an integer that is converted. -/
  lit : ℚ → F
  mul : F → F → F
  div : F → F → F
  /-- The larger; if one is NaN, the other. -/
  max : F → F → F
  partialCmp : F → F → Option Ordering

namespace Arith
variable {F : Type} [Arith F]

def lt (a b : F) : Bool := partialCmp a b == some .lt

def le (a b : F) : Bool := partialCmp a b == some .lt || partialCmp a b == some .eq

/-- NaN stays as it is. -/
def clamp (x lo hi : F) : F := if lt x lo then lo else if lt hi x then hi else x

end Arith

/-- Exact arithmetic. -/
instance : Arith ℚ where
  lit := id
  mul := (· * ·)
  div := (· / ·)
  max a b := if a < b then b else a
  partialCmp a b := some (if a < b then .lt else if a = b then .eq else .gt)

end InterchangeDb
