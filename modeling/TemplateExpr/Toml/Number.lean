import TemplateExpr.Binary64.Basic
import TemplateExpr.Toml.Basic
import TemplateExpr.Toml.Text

/-!
# Numbers in TOML

An integer is decimal, or has a prefix for another base and then no sign. A number with a fraction, an exponent or
both is real. A single underscore may stand between two digits, and a decimal number begins with zero only if
nothing but a fraction or an exponent follows it.
-/

namespace TemplateExpr.Toml

/-- Value of a digit in a base. -/
def digitValue? (base : Nat) (c : Char) : Option Nat := (Text.hexValue? c).filter (· < base)

/-- Reads digits, of which there must be one, with single underscores between them. -/
def readDigits? (base : Nat) : List Char → Option (List Nat × List Char)
  | c :: '_' :: cs => do
    let d ← digitValue? base c
    let (ds, cs) ← readDigits? base cs
    some (d :: ds, cs)
  | c :: cs => do
    let d ← digitValue? base c
    if (cs.head?.bind (digitValue? base)).isSome then
      let (ds, cs) ← readDigits? base cs
      some (d :: ds, cs)
    else some ([d], cs)
  | [] => none

def ofDigits (base : Nat) (ds : List Nat) : Nat := ds.foldl (fun n d => base * n + d) 0

/-- An integer of 64 bits. -/
def integer? (n : Int) : Option Value :=
  if -0x8000000000000000 ≤ n ∧ n < 0x8000000000000000 then some (.int n) else none

def readBased? (base : Nat) (cs : List Char) : Option (Value × List Char) := do
  let (ds, cs) ← readDigits? base cs
  let v ← integer? (ofDigits base ds)
  some (v, cs)

/-- Reads the digits before fraction and exponent. -/
def readWhole? : List Char → Option (List Nat × List Char)
  | '0' :: cs => some ([0], cs)
  | cs => readDigits? 10 cs

/-- Reads the digits of a fraction, if there is one. -/
def readFraction? : List Char → Option (List Nat × List Char)
  | '.' :: cs => readDigits? 10 cs
  | cs => some ([], cs)

/-- Reads an exponent, if there is one. -/
def readExponent? : List Char → Option (Int × List Char)
  | 'e' :: cs | 'E' :: cs => do
    let (negative, cs) := Decimal.splitSign cs
    let (ds, cs) ← readDigits? 10 cs
    let n : Int := ofDigits 10 ds
    some (if negative then -n else n, cs)
  | cs => some (0, cs)

/-- A real number rounded to the nearest floating-point number. One that is too large is refused, but one that is
too far below zero becomes infinite. -/
def real? (negative : Bool) (d : Decimal) : Option Value :=
  let x := Binary64.ofDecimal d
  if negative then some (.float (-x)) else if x.isFinite then some (.float x) else none

/-- Reads a decimal number without its sign. -/
def readDecimal? (negative : Bool) (cs : List Char) : Option (Value × List Char) := do
  let (whole, rest) ← readWhole? cs
  let (fraction, cs) ← readFraction? rest
  let (exponent, cs) ← readExponent? cs
  if cs.length = rest.length then
    let n : Int := ofDigits 10 whole
    let v ← integer? (if negative then -n else n)
    some (v, cs)
  else
    let v ← real? negative ⟨ofDigits 10 (whole ++ fraction), exponent - fraction.length⟩
    some (v, cs)

/-- Reads an integer or a real number. -/
def readNumber? : List Char → Option (Value × List Char)
  | '0' :: 'x' :: cs => readBased? 16 cs
  | '0' :: 'o' :: cs => readBased? 8 cs
  | '0' :: 'b' :: cs => readBased? 2 cs
  | cs =>
    match Decimal.splitSign cs with
    | (negative, 'i' :: 'n' :: 'f' :: cs) =>
      some (.float (if negative then -Binary64.infinity else Binary64.infinity), cs)
    | (_, 'n' :: 'a' :: 'n' :: cs) => some (.float Binary64.nan, cs)
    | (negative, cs) => readDecimal? negative cs

end TemplateExpr.Toml
