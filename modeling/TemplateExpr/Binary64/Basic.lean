import TemplateExpr.Decimal

/-!
# Floating-point numbers

Conversion of integers and decimals to binary64, always to the nearest number with ties to even, the order of two
numbers, and the least natural number that is not below one.
-/

namespace TemplateExpr.Binary64

/-- Nearest floating-point number to an integer, ties to even. -/
def ofInt64 (n : Int64) : Float := .ofModel (.ofInt64 n)

/-- Nearest floating-point number to an integer of any size, ties to even. -/
def ofInt (n : Int) : Float := .ofModel (.ofInt n)

/-- Nearest floating-point number to a decimal, ties to even. -/
def ofDecimal (d : Decimal) : Float := .ofModel (.ofScientific d.digits d.exponent)

def infinity : Float := .ofModel (.pack (.infinity .positive))

def nan : Float := .ofModel (.pack .notANumber)

/-- Neither zero nor NaN. -/
def isTruthy (x : Float) : Bool := !(x == 0) && !x.isNaN

/-- Order of two floating-point numbers; a NaN stands in none. -/
def order (x y : Float) : Option Ordering :=
  if x < y then some .lt else if x == y then some .eq else if y < x then some .gt else none

/-- Least natural number that is not below a floating-point number; zero for infinity and NaN. -/
def ceil (x : Float) : Nat :=
  match x.toModel.unpack with
  | .finite .positive m e _ => (m <<< e.toNat + (1 <<< (-e).toNat - 1)) >>> (-e).toNat
  | _ => 0

end TemplateExpr.Binary64
