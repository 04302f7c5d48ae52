import TemplateExpr.Expr.Basic
import TemplateExpr.Proofs.Evaluation.Basic
import TemplateExpr.RuntimeFunction

/-!
# What the operators mean

An operand is evaluated when its operator asks for it, and is converted at once: a conversion that fails does so at the
operand's own span and before anything else is evaluated. The static types of the operands decide which meaning an
operator has, so they decide about conversions and about the order of evaluation.
-/

namespace TemplateExpr

/-! ### Static types -/

namespace StaticType

/-- The type of an arithmetic operator other than `/` and `%`. -/
def arithmetic (left right : StaticType) : StaticType :=
  if left = .known .int ∧ right = .known .int then .known .int
  else if left.isNumber ∧ right.isNumber then .known .float
  else .unknown

/-- The type of `+`. -/
def plus (left right : StaticType) : StaticType :=
  if left = .known .string ∨ right = .known .string then .known .string else arithmetic left right

/-- The type of a negation. -/
def negate (operand : StaticType) : StaticType :=
  if operand = .known .int then .known .int
  else if operand = .known .float then .known .float
  else .unknown

/-- The type of a conditional, from the types of its branches. -/
def conditional (declared onTrue onFalse : StaticType) : StaticType :=
  if onTrue = .known .int ∧ onFalse = .known .int then .known .int
  else if onTrue.isNumber ∧ onFalse.isNumber then .known .float
  else if onTrue = .known .string ∧ onFalse = .known .string then .known .string
  else declared

end StaticType

def UnaryOp.type (operand : StaticType) : UnaryOp → StaticType
  | .negate => operand.negate
  | .not => .known .bool

def BinaryOp.type (declared left right : StaticType) : BinaryOp → StaticType
  | .add => .plus left right
  | .sub | .mul => .arithmetic left right
  | .div => .known .float
  | .mod => .known .int
  | .eq | .ne | .lt | .le | .gt | .ge | .and | .or => .known .bool
  | .orElse => declared

/-! ### Operands -/

/-- An operand that is not yet evaluated. -/
structure Operand (σ : Type) where
  type : StaticType
  span : Span
  value : Evaluation σ Value

namespace Operand

open Evaluation

variable {σ : Type}

/-! ### Conversions -/

def int (o : Operand σ) : Evaluation σ Int64 := do
  match ← o.value with
  | .int n => pure n
  | v => raise (.type (.notInt v.kind)) o.span

def float (o : Operand σ) : Evaluation σ Float := do
  let v ← o.value
  match v.number? with
  | some x => pure x
  | none => raise (.type (.notNumber v.kind)) o.span

def truth (o : Operand σ) : Evaluation σ Bool := do
  return (← o.value).isTruthy

def text (o : Operand σ) : Evaluation σ String := do
  return (← o.value).text

/-! ### Arithmetic -/

/-- An operator on two integers or two numbers, or on whatever the operands turn out to be. -/
def arithmetic (onInts : Int64 → Int64 → Int64) (onFloats : Float → Float → Float)
    (generic : Value → Value → Except Fault Value) (span : Span) (left right : Operand σ) : Evaluation σ Value :=
  if left.type = .known .int ∧ right.type = .known .int then do
    let a ← left.int
    let b ← right.int
    return .int (onInts a b)
  else if left.type.isNumber ∧ right.type.isNumber then do
    let a ← left.float
    let b ← right.float
    return .float (onFloats a b)
  else do
    let a ← left.value
    let b ← right.value
    lift (generic a b) span

def plus (span : Span) (left right : Operand σ) : Evaluation σ Value :=
  if left.type = .known .string ∨ right.type = .known .string then do
    let a ← left.text
    let b ← right.text
    return .string (a ++ b)
  else arithmetic (· + ·) (· + ·) (fun a b => .ok (a.plus b)) span left right

def divide (left right : Operand σ) : Evaluation σ Value := do
  let a ← left.float
  let b ← right.float
  return .float (a / b)

def remainder (span : Span) (left right : Operand σ) : Evaluation σ Value := do
  let a ← left.int
  let b ← right.int
  if b = 0 then raise .divideByZero span else return .int (a % b)

def negate (span : Span) (o : Operand σ) : Evaluation σ Value :=
  if o.type = .known .int then do
    let a ← o.int
    return .int (-a)
  else if o.type = .known .float then do
    let a ← o.float
    return .float (-a)
  else do
    let a ← o.value
    lift a.negate span

/-! ### Comparison -/

/-- An order relation. Of operands that are not known to be numbers, the right one is evaluated first if the relation
is `reversed`, and the other relation is asked. -/
def relation (onInts : Int64 → Int64 → Bool) (onFloats : Float → Float → Bool)
    (generic : Value → Value → Except Fault Bool) (reversed : Bool) (span : Span) (left right : Operand σ) :
    Evaluation σ Bool :=
  if left.type = .known .int ∧ right.type = .known .int then do
    let a ← left.int
    let b ← right.int
    return onInts a b
  else if left.type.isNumber ∧ right.type.isNumber then do
    let a ← left.float
    let b ← right.float
    return onFloats a b
  else if reversed then do
    let b ← right.value
    let a ← left.value
    lift (generic b a) span
  else do
    let a ← left.value
    let b ← right.value
    lift (generic a b) span

/-- Equality of an operand that is known to be a string, which is evaluated first, with another. -/
def stringEquality (string other : Operand σ) : Evaluation σ Bool :=
  if other.type = .known .string then do
    let a ← string.text
    let b ← other.text
    return a == b
  else if other.type.isNumber then do
    let a ← string.text
    let b ← other.float
    return Value.textEqualsNumber a b
  else do
    let a ← string.text
    let b ← other.value
    return (Value.string a).looseEq b

def equality (left right : Operand σ) : Evaluation σ Bool :=
  if left.type = .known .string then stringEquality left right
  else if right.type = .known .string then stringEquality right left
  else if left.type = .known .int ∧ right.type = .known .int then do
    let a ← left.int
    let b ← right.int
    return a == b
  else if left.type.isNumber ∧ right.type.isNumber then do
    let a ← left.float
    let b ← right.float
    return a == b
  else do
    let a ← left.value
    let b ← right.value
    return a.looseEq b

/-! ### Logic -/

/-- `and` and `or`: the right side is only evaluated if the left one does not decide. -/
def shortCircuit (decided : Bool) (left right : Operand σ) : Evaluation σ Bool := do
  if (← left.truth) = decided then return decided else right.truth

/-- The left side unless it is null; only then the right side is evaluated. -/
def orElse (type : StaticType) (left right : Operand σ) : Evaluation σ Value := do
  let a ← left.value
  let v ← (if a.isNull then right.value else pure a)
  declare type v

/-- The value of the branch that is taken, converted to what both branches have in common. -/
def branch (onTrue onFalse taken : Operand σ) : Evaluation σ Value :=
  if onTrue.type = .known .int ∧ onFalse.type = .known .int then do return .int (← taken.int)
  else if onTrue.type.isNumber ∧ onFalse.type.isNumber then do return .float (← taken.float)
  else if onTrue.type = .known .string ∧ onFalse.type = .known .string then do return .string (← taken.text)
  else taken.value

def conditional (type : StaticType) (condition onTrue onFalse : Operand σ) : Evaluation σ Value := do
  let b ← condition.truth
  let v ← branch onTrue onFalse (if b then onTrue else onFalse)
  declare type v

end Operand

/-! ### Operators -/

variable {σ : Type}

def UnaryOp.evaluate (span : Span) (o : Operand σ) : UnaryOp → Evaluation σ Value
  | .negate => o.negate span
  | .not => do return .bool (!(← o.truth))

def BinaryOp.evaluate (type : StaticType) (span : Span) (left right : Operand σ) : BinaryOp → Evaluation σ Value
  | .add => left.plus span right
  | .sub => Operand.arithmetic (· - ·) (· - ·) Value.minus span left right
  | .mul => Operand.arithmetic (· * ·) (· * ·) Value.times span left right
  | .div => left.divide right
  | .mod => left.remainder span right
  | .eq => do return .bool (← left.equality right)
  | .ne => do return .bool (!(← left.equality right))
  | .lt => do
    let b ← Operand.relation (fun a b => a < b) (fun a b => a < b) Value.lessThan false span left right
    return .bool b
  | .le => do
    let b ← Operand.relation (fun a b => a ≤ b) (fun a b => a ≤ b) Value.lessThanOrEqual false span left right
    return .bool b
  | .gt => do
    let b ← Operand.relation (fun a b => b < a) (fun a b => b < a) Value.lessThan true span left right
    return .bool b
  | .ge => do
    let b ← Operand.relation (fun a b => b ≤ a) (fun a b => b ≤ a) Value.lessThanOrEqual true span left right
    return .bool b
  | .and => do return .bool (← Operand.shortCircuit false left right)
  | .or => do return .bool (← Operand.shortCircuit true left right)
  | .orElse => left.orElse type right

end TemplateExpr
