import TemplateExpr.Binary64.Shortest

/-!
# Floating-point numbers as text

The two texts of a floating-point number, and reading one.

The *plain* text is the one that string coercion gives: no fraction on whole numbers, never an exponent, and zero
without its sign. The *listing* text always shows that the number is a float: it keeps a fraction or an exponent,
and the sign of zero. Both use the fewest digits that read back, except that the plain text of a whole number below
`10 ^ 21` has all its digits.
-/

namespace TemplateExpr.Binary64

open Float.Model (UnpackedFloat)

/-! ### Writing -/

/-- `m · 2 ^ e` if it is a natural number. -/
def natural? (m : Nat) (e : Int) : Option Nat :=
  if 0 ≤ e then some (m <<< e.toNat)
  else if m % (1 <<< (-e).toNat) = 0 then some (m >>> (-e).toNat)
  else none

def signChars : UnpackedFloat.Sign → List Char
  | .negative => ['-']
  | .positive => []

/-- Whole numbers below this are written with all their digits. -/
def wholeLimit : Nat := Nat.pow 10 21

/-- Plain text of the positive number `m · 2 ^ e`. -/
def plainChars (m : Nat) (e : Int) : List Char :=
  match natural? m e with
  | some n => if n < wholeLimit then Decimal.digitChars n else (shortest m e).positional
  | none => (shortest m e).positional

/-- Text of a number as a string: `3`, `0.1`, `1000000000000000000000`, `NaN`, `-Infinity`. -/
def plain (x : Float) : String :=
  match x.toModel.unpack with
  | .notANumber => "NaN"
  | .infinity s => String.ofList (signChars s) ++ "Infinity"
  | .zero _ => "0"
  | .finite s m e _ => String.ofList (signChars s ++ plainChars m e)

/-- Listing text of the positive number `m · 2 ^ e`: positional from `10 ^ -4` to below `10 ^ 16`. -/
def listingChars (m : Nat) (e : Int) : List Char :=
  let d := shortest m e
  if d.leadingExponent < -4 ∨ 16 ≤ d.leadingExponent then d.scientific
  else if 0 ≤ d.exponent then d.positional ++ ['.', '0']
  else d.positional

/-- Text of a number in a listing: `3.0`, `0.1`, `1e21`, `-0.0`, `NaN`, `-inf`. -/
def listing (x : Float) : String :=
  match x.toModel.unpack with
  | .notANumber => "NaN"
  | .infinity s => String.ofList (signChars s) ++ "inf"
  | .zero s => String.ofList (signChars s) ++ "0.0"
  | .finite s m e _ => String.ofList (signChars s ++ listingChars m e)

/-! ### Reading -/

/-- Reads an unsigned number, or one of the words for infinity and NaN in any mixture of cases. -/
def readUnsigned? (cs : List Char) : Option Float :=
  let word := cs.map Char.toLower
  if word = "inf".toList ∨ word = "infinity".toList then some infinity
  else if word = "nan".toList then some nan
  else (Decimal.readUnsigned? cs).map ofDecimal

/-- Reads a number with an optional sign in front. -/
def read? (cs : List Char) : Option Float :=
  let (negative, rest) := Decimal.splitSign cs
  (readUnsigned? rest).map fun x => if negative then -x else x

end TemplateExpr.Binary64
