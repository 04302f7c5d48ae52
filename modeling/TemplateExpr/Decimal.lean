/-!
# Decimal numbers

A decimal is a natural number of digits scaled by a power of ten. This module says how one is laid out as text, in
positional notation or with an exponent, and how a text is read as one.
-/

namespace TemplateExpr

/-- The number `digits · 10 ^ exponent`. -/
structure Decimal where
  digits : Nat
  exponent : Int
  deriving DecidableEq, Inhabited

namespace Decimal

/-- The decimal digits of a natural number, the leading one first. -/
def digitChars (n : Nat) : List Char := Nat.toDigits 10 n

def digitCount (n : Nat) : Nat := (digitChars n).length

/-- Exponent of the leading digit. -/
def leadingExponent (d : Decimal) : Int := d.exponent + digitCount d.digits - 1

/-! ### Writing -/

def zeros (n : Nat) : List Char := List.replicate n '0'

/-- Positional notation: zeros fill the places up to the point, and there is a point only if digits follow it. -/
def positional (d : Decimal) : List Char :=
  let ds := digitChars d.digits
  if 0 ≤ d.exponent then
    ds ++ zeros d.exponent.toNat
  else
    let places := (-d.exponent).toNat
    if places < ds.length then
      ds.take (ds.length - places) ++ '.' :: ds.drop (ds.length - places)
    else
      '0' :: '.' :: (zeros (places - ds.length) ++ ds)

/-- Scientific notation: one digit before the point, which is left out if no digit follows it. -/
def scientific (d : Decimal) : List Char :=
  let mantissa :=
    match digitChars d.digits with
    | [] => []
    | [c] => [c]
    | c :: cs => c :: '.' :: cs
  mantissa ++ 'e' :: (toString d.leadingExponent).toList

/-! ### Reading -/

def digitValue (c : Char) : Nat := c.toNat - '0'.toNat

/-- The natural number that a list of digits writes. -/
def ofDigits (cs : List Char) : Nat := cs.foldl (fun n c => 10 * n + digitValue c) 0

/-- Splits a leading sign off; `true` means minus. -/
def splitSign : List Char → Bool × List Char
  | '-' :: cs => (true, cs)
  | '+' :: cs => (false, cs)
  | cs => (false, cs)

/-- Reads what may follow the digits: nothing, or an exponent with at least one digit. -/
def readExponent? : List Char → Option Int
  | [] => some 0
  | c :: cs =>
    if c = 'e' ∨ c = 'E' then
      let (negative, ds) := splitSign cs
      if ds.isEmpty ∨ ¬ ds.all Char.isDigit then none
      else some (if negative then -(ofDigits ds : Int) else ofDigits ds)
    else none

/-- Reads an unsigned number: digits with a point anywhere among them or none, at least one digit in all, then
perhaps an exponent. -/
def readUnsigned? (cs : List Char) : Option Decimal :=
  let whole := cs.takeWhile Char.isDigit
  let rest := cs.dropWhile Char.isDigit
  let (fraction, rest) :=
    match rest with
    | '.' :: r => (r.takeWhile Char.isDigit, r.dropWhile Char.isDigit)
    | r => ([], r)
  if whole.isEmpty && fraction.isEmpty then none
  else (readExponent? rest).map fun e => ⟨ofDigits (whole ++ fraction), e - fraction.length⟩

example : String.ofList (positional ⟨15, -1⟩) = "1.5" := rfl
example : String.ofList (positional ⟨15, -4⟩) = "0.0015" := rfl
example : String.ofList (positional ⟨15, 2⟩) = "1500" := rfl
example : String.ofList (scientific ⟨15, 20⟩) = "1.5e21" := by decide
example : readUnsigned? ".5e3".toList = some ⟨5, 2⟩ := by decide
example : readUnsigned? "7.".toList = some ⟨7, 0⟩ := by decide
example : readUnsigned? ".e3".toList = none := by decide

end Decimal

end TemplateExpr
