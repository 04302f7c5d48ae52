import TemplateExpr.Kind
import TemplateExpr.Span
import TemplateExpr.Text

/-!
# Runtime errors

A runtime error is a fault together with the span of the code that was running. Faults are causes; their wording is
in `Fault.message`. A type fault is the program's own doing, an operand fault is malformed bytecode. Native
functions may raise any fault, with words of their own for the `custom` ones.
-/

namespace TemplateExpr

/-- Operand of the wrong kind. -/
inductive TypeFault where
  | notInt (found : Kind)
  | notNumber (found : Kind)
  | incomparable (left right : Kind)
  | notNumbers (symbol : String) (left right : Kind)
  | notNegatable (found : Kind)
  | badListIndex (found : Kind)
  | notIndexable (found : Kind)
  | notAList (found : Kind)
  | notAMap (found : Kind)
  | custom (message : String)
  deriving DecidableEq

def TypeFault.message : TypeFault → String
  | notInt k => "expected int, found " ++ k.name
  | notNumber k => "expected number, found " ++ k.name
  | incomparable a b => "cannot compare " ++ a.name ++ " with " ++ b.name
  | notNumbers symbol a b => "'" ++ symbol ++ "' requires numbers, found " ++ a.name ++ " and " ++ b.name
  | notNegatable k => "cannot negate " ++ k.name
  | badListIndex k => "list index must be int, found " ++ k.name
  | notIndexable k => "cannot index into " ++ k.name
  | notAList k => "cannot append to " ++ k.name
  | notAMap k => "cannot insert into " ++ k.name
  | custom m => m

/-- What an instruction expects of the constant that it names. -/
inductive ConstantRole where
  | int
  | float
  | name
  deriving DecidableEq

def ConstantRole.text : ConstantRole → String
  | int => "int"
  | float => "float"
  | name => "name"

/-- What an instruction expects of the slot that it takes off the stack. -/
inductive SlotRole where
  | int
  | float
  | bool
  | reference
  deriving DecidableEq

def SlotRole.text : SlotRole → String
  | int => "int"
  | float => "float"
  | bool => "bool"
  | reference => "reference"

/-- Malformed operand of an instruction. -/
inductive OperandFault where
  | truncated
  | constantOutOfBounds (index : Nat)
  | wrongConstant (expected : ConstantRole) (found : Kind)
  | unknownFunction (code : UInt8)
  | wrongSlot (expected : SlotRole) (found : Kind)
  | custom (message : String)
  deriving DecidableEq

def OperandFault.message : OperandFault → String
  | truncated => "truncated instruction"
  | constantOutOfBounds i => "constant index " ++ toString i ++ " out of bounds"
  | wrongConstant role k => "expected " ++ role.text ++ " constant, found " ++ k.name
  | unknownFunction code => "unknown runtime function 0x" ++ Text.hexadecimal 2 code.toNat
  | wrongSlot role k => "expected " ++ role.text ++ " slot, found " ++ k.name
  | custom m => m

/-- Why a run failed. -/
inductive Fault where
  | type (cause : TypeFault)
  | divideByZero
  | undefinedVariable (name : String)
  | unknownFunction (name : String)
  | arity (name : String) (expected found : Nat)
  | unknownOpcode
  | operand (cause : OperandFault)
  | stackUnderflow
  | stackOverflow (limit : Nat)
  | stackImbalance (depth : Nat)
  deriving DecidableEq

def Fault.message : Fault → String
  | type cause => "Type error: " ++ cause.message
  | divideByZero => "Division by zero"
  | undefinedVariable name => "Undefined variable: " ++ name
  | unknownFunction name => "Unknown function: " ++ name
  | arity name expected found =>
    name ++ " expects " ++ toString expected ++ " argument(s), got " ++ toString found
  | unknownOpcode => "Unknown opcode"
  | operand cause => "Invalid operand: " ++ cause.message
  | stackUnderflow => "Stack underflow"
  | stackOverflow limit => "Stack overflow: depth limit " ++ toString limit ++ " exceeded"
  | stackImbalance depth => "Stack imbalance: expected 1 value at halt, found " ++ toString depth

/-- A fault and the span of the code that raised it. -/
structure RuntimeError where
  fault : Fault
  span : Span
  deriving DecidableEq

def RuntimeError.message (e : RuntimeError) : String := e.fault.message

end TemplateExpr
