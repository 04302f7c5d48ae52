import TemplateExpr.RuntimeError
import TemplateExpr.Text
import TemplateExpr.Value.Basic

/-!
# Operators on values of any kind

Equality, order, arithmetic and lookup as the template language has them when nothing is known of the operands
before the program runs. Integers wrap at 64 bits; an integer meeting a float is converted to the nearest float; a
string meeting a number under `==` is read as a number; `+` joins texts unless both sides are numbers.
-/

namespace TemplateExpr.Value

/-- Whether the text, trimmed of blanks, reads as this number. -/
def textEqualsNumber (s : String) (x : Float) : Bool :=
  match Binary64.read? (Text.trim s.toList) with
  | some y => y == x
  | none => false

/-- The language's `==`. -/
def looseEq : Value → Value → Bool
  | string a, string b => a == b
  | string s, v | v, string s =>
    match v.number? with
    | some x => textEqualsNumber s x
    | none => false
  | int a, int b => a == b
  | int a, float y => Binary64.ofInt64 a == y
  | float x, int b => x == Binary64.ofInt64 b
  | a, b => a == b

/-- Order of two integers, two strings or two numbers; `none` beside a NaN. Strings order by their characters. -/
def order (a b : Value) : Except Fault (Option Ordering) :=
  match a, b with
  | int m, int n => .ok (some (compareOfLessAndEq m n))
  | string s, string t => .ok (some (compareOfLessAndEq s t))
  | _, _ =>
    match a.number?, b.number? with
    | some x, some y => .ok (Binary64.order x y)
    | _, _ => .error (.type (.incomparable a.kind b.kind))

def lessThan (a b : Value) : Except Fault Bool :=
  (order a b).map fun o => o == some .lt

def lessThanOrEqual (a b : Value) : Except Fault Bool :=
  (order a b).map fun o => o == some .lt || o == some .eq

/-- The language's `+`. -/
def plus (a b : Value) : Value :=
  match a, b with
  | int m, int n => int (m + n)
  | _, _ =>
    match a.number?, b.number? with
    | some x, some y => float (x + y)
    | _, _ => string (a.text ++ b.text)

/-- An operator on two numbers, with its symbol for the fault. -/
def arithmetic (symbol : String) (onInts : Int64 → Int64 → Int64) (onFloats : Float → Float → Float)
    (a b : Value) : Except Fault Value :=
  match a, b with
  | int m, int n => .ok (int (onInts m n))
  | _, _ =>
    match a.number?, b.number? with
    | some x, some y => .ok (float (onFloats x y))
    | _, _ => .error (.type (.notNumbers symbol a.kind b.kind))

def minus : Value → Value → Except Fault Value := arithmetic "-" (· - ·) (· - ·)

def times : Value → Value → Except Fault Value := arithmetic "*" (· * ·) (· * ·)

def negate : Value → Except Fault Value
  | int n => .ok (int (-n))
  | float x => .ok (float (-x))
  | v => .error (.type (.notNegatable v.kind))

/-- Element at an index; null outside the list. -/
def elementAt (elements : Array Value) (index : Int64) : Value :=
  if index < 0 then null else (elements[index.toNatClampNeg]?).getD null

/-- `base[key]`. Null has only null inside, a missing entry is null, and a map's key is the text of the value. -/
def item : Value → Value → Except Fault Value
  | null, _ => .ok null
  | list elements, int i => .ok (elementAt elements i)
  | list _, key => .error (.type (.badListIndex key.kind))
  | map entries, key => .ok ((entries.get? key.text).getD null)
  | base, _ => .error (.type (.notIndexable base.kind))

end TemplateExpr.Value
