/-!
# Characters and digits

Blank characters, digits, and numbers of a fixed width.
-/

namespace TemplateExpr.Text

/-! ### Blanks -/

/-- Code points with the Unicode property White_Space, as closed ranges in increasing order. -/
def blankRanges : List (Nat × Nat) :=
  [(0x09, 0x0D), (0x20, 0x20), (0x85, 0x85), (0xA0, 0xA0), (0x1680, 0x1680), (0x2000, 0x200A), (0x2028, 0x2029),
    (0x202F, 0x202F), (0x205F, 0x205F), (0x3000, 0x3000)]

def isBlank (c : Char) : Bool := blankRanges.any fun r => r.1 ≤ c.toNat && c.toNat ≤ r.2

/-- Drops the blank characters at both ends. -/
def trim (cs : List Char) : List Char :=
  ((cs.dropWhile isBlank).reverse.dropWhile isBlank).reverse

/-- The property has twenty-five members. -/
example : (blankRanges.map fun r => r.2 + 1 - r.1).sum = 25 := rfl

/-! ### Digits -/

/-- Value of a hexadecimal digit, in either case. -/
def hexValue? (c : Char) : Option Nat :=
  if '0' ≤ c ∧ c ≤ '9' then some (c.toNat - '0'.toNat)
  else if 'a' ≤ c ∧ c ≤ 'f' then some (c.toNat - 'a'.toNat + 10)
  else if 'A' ≤ c ∧ c ≤ 'F' then some (c.toNat - 'A'.toNat + 10)
  else none

/-! ### Numbers of a fixed width

They are padded with zeros on the left. A number that needs more room has it.
-/

/-- Fills up with zeros on the left. -/
def padZeros (width : Nat) (cs : List Char) : List Char := List.replicate (width - cs.length) '0' ++ cs

/-- Lower-case hexadecimal digits, at least `width` of them. -/
def hexadecimal (width n : Nat) : String := String.ofList (padZeros width (Nat.toDigits 16 n))

/-- Decimal text of at least `width` characters; a minus sign counts as one and stands first. -/
def decimal (width : Nat) : Int → String
  | .ofNat n => String.ofList (padZeros width (Nat.toDigits 10 n))
  | .negSucc n => String.ofList ('-' :: padZeros (width - 1) (Nat.toDigits 10 (n + 1)))

example : hexadecimal 2 10 = "0a" := rfl
example : decimal 4 (-5) = "-005" := rfl
example : decimal 4 12345 = "12345" := rfl

end TemplateExpr.Text
