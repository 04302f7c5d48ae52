import TemplateExpr.Value.Dynamic

/-!
# The runtime library

The functions that compiled code calls when the types of its operands do not allow an instruction of their own.
Each has a code byte, by which bytecode names it, and a fixed arity.
-/

namespace TemplateExpr

inductive RuntimeFunction where
  | genericEquals
  | stringEquals
  | stringEqualsAsNumber
  | lessThan
  | lessThanOrEqual
  | plus
  | minus
  | times
  | negate
  | stringConcat
  | coerceToString
  | truthy
  | isNull
  | getItem
  deriving DecidableEq

namespace RuntimeFunction

def all : List RuntimeFunction :=
  [genericEquals, stringEquals, stringEqualsAsNumber, lessThan, lessThanOrEqual, plus, minus, times, negate,
    stringConcat, coerceToString, truthy, isNull, getItem]

def code : RuntimeFunction → UInt8
  | genericEquals => 0x00
  | stringEquals => 0x01
  | stringEqualsAsNumber => 0x02
  | lessThan => 0x10
  | lessThanOrEqual => 0x11
  | plus => 0x20
  | minus => 0x21
  | times => 0x22
  | negate => 0x23
  | stringConcat => 0x30
  | coerceToString => 0x31
  | truthy => 0x32
  | isNull => 0x33
  | getItem => 0x40

def ofCode? (b : UInt8) : Option RuntimeFunction := all.find? fun f => f.code == b

def name : RuntimeFunction → String
  | genericEquals => "genericEquals"
  | stringEquals => "stringEquals"
  | stringEqualsAsNumber => "stringEqualsAsNumber"
  | lessThan => "lessThan"
  | lessThanOrEqual => "lessThanOrEqual"
  | plus => "plus"
  | minus => "minus"
  | times => "times"
  | negate => "negate"
  | stringConcat => "stringConcat"
  | coerceToString => "coerceToString"
  | truthy => "truthy"
  | isNull => "isNull"
  | getItem => "getItem"

def arity : RuntimeFunction → Nat
  | negate | coerceToString | truthy | isNull => 1
  | _ => 2

/-- Whether the result is a bool, which then travels unboxed. -/
def returnsBool : RuntimeFunction → Bool
  | genericEquals | stringEquals | stringEqualsAsNumber | lessThan | lessThanOrEqual | truthy | isNull => true
  | _ => false

/-- Applies the function to as many arguments as its arity says. -/
def apply (f : RuntimeFunction) (arguments : List Value) : Except Fault Value :=
  match f, arguments with
  | genericEquals, [a, b] => .ok (.bool (a.looseEq b))
  | stringEquals, [a, b] => .ok (.bool (a.text == b.text))
  | stringEqualsAsNumber, [a, b] =>
    match b.number? with
    | some x => .ok (.bool (Value.textEqualsNumber a.text x))
    | none => .error (.type (.notNumber b.kind))
  | lessThan, [a, b] => (a.lessThan b).map .bool
  | lessThanOrEqual, [a, b] => (a.lessThanOrEqual b).map .bool
  | plus, [a, b] => .ok (a.plus b)
  | minus, [a, b] => a.minus b
  | times, [a, b] => a.times b
  | negate, [a] => a.negate
  | stringConcat, [a, b] => .ok (.string (a.text ++ b.text))
  | coerceToString, [a] => .ok (.string a.text)
  | truthy, [a] => .ok (.bool a.isTruthy)
  | isNull, [a] => .ok (.bool a.isNull)
  | getItem, [a, b] => a.item b
  | f, _ => .error (.arity f.name f.arity arguments.length)

theorem ofCode?_code (f : RuntimeFunction) : ofCode? f.code = some f := by
  cases f <;> rfl

theorem code_of_ofCode? {b : UInt8} {f : RuntimeFunction} (h : ofCode? b = some f) : f.code = b := by
  simpa using List.find?_some h

end RuntimeFunction

end TemplateExpr
