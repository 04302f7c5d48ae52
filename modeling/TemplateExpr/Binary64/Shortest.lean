import TemplateExpr.Binary64.Basic

/-!
# The shortest decimal that reads back

For a positive floating-point number `m · 2 ^ e` this is the decimal of fewest digits that rounds to it, and of
those the nearest. It is looked for on one decimal grid after another, from the coarsest. The reals that round to a
floating-point number form an interval around it, so if any point of a grid does, one of the number's two
neighbours on that grid does. The first grid with such a neighbour wins, of two the nearer, and of two equally near
the upper.
-/

namespace TemplateExpr.Binary64

/-- Whether a decimal rounds to the positive number `m · 2 ^ e`. -/
def roundsTo (d : Decimal) (m : Nat) (e : Int) : Bool :=
  match (ofDecimal d).toModel.unpack with
  | .finite .positive m' e' _ => m' == m && e' == e
  | _ => false

/-- The number `m · 2 ^ e` counted in units of `10 ^ q`, as a numerator and a denominator. -/
def inUnits (m : Nat) (e q : Int) : Nat × Nat :=
  (m <<< e.toNat * Nat.pow 10 (-q).toNat, Nat.pow 10 q.toNat <<< (-e).toNat)

/-- The neighbour of `m · 2 ^ e` on the grid of multiples of `10 ^ q` that stands for it, if one rounds to it. -/
def onGrid? (m : Nat) (e q : Int) : Option Decimal :=
  let (num, den) := inUnits m e q
  let below : Decimal := ⟨num / den, q⟩
  let above : Decimal := ⟨num / den + 1, q⟩
  match roundsTo below m e, roundsTo above m e with
  | true, true => some (if 2 * (num % den) < den then below else above)
  | true, false => some below
  | false, true => some above
  | false, false => none

/-- Exponent of the leading decimal digit of `m · 2 ^ e`. -/
def leadingExponent (m : Nat) (e : Int) : Int :=
  let (num, den) := inUnits m e 0
  let guess : Int := (Decimal.digitCount num : Int) - Decimal.digitCount den
  let (num, den) := inUnits m e guess
  if den ≤ num then guess else guess - 1

/-- The exact value of `m · 2 ^ e`. -/
def exact (m : Nat) (e : Int) : Decimal :=
  if 0 ≤ e then ⟨m <<< e.toNat, 0⟩ else ⟨m * Nat.pow 5 (-e).toNat, e⟩

/-- The decimal of fewest digits that rounds to `m · 2 ^ e`, and of those the nearest. The coarsest grid offers
only the power of ten above the number, and seventeen digits are enough. -/
def shortest (m : Nat) (e : Int) : Decimal :=
  let top := leadingExponent m e + 1
  ((List.range 18).findSome? fun (i : Nat) => onGrid? m e (top - i)).getD (exact m e)

end TemplateExpr.Binary64
