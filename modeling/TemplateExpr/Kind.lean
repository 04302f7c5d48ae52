/-!
# Kinds, static types and representations

Every runtime value is of one of seven kinds. A static type is a kind that is known before the program runs, or
`unknown`. A representation says how a compiled expression leaves its value on the operand stack: as a value of one
kind, or boxed, when only the runtime library can look inside. Kind `int`, `float` and `bool` travel unboxed.
-/

namespace TemplateExpr

/-- Kind of a runtime value. -/
inductive Kind where
  | null
  | bool
  | int
  | float
  | string
  | list
  | map
  deriving DecidableEq, Inhabited

namespace Kind

def name : Kind → String
  | null => "null"
  | bool => "bool"
  | int => "int"
  | float => "float"
  | string => "string"
  | list => "list"
  | map => "map"

def isNumber : Kind → Bool
  | int | float => true
  | _ => false

end Kind

/-- What is known of an expression's value before it is evaluated. -/
inductive StaticType where
  | known (kind : Kind)
  | unknown
  deriving DecidableEq, Inhabited

namespace StaticType

/-- The kind's name, or a question mark. -/
def name : StaticType → String
  | known k => k.name
  | unknown => "?"

def isNumber : StaticType → Bool
  | known k => k.isNumber
  | unknown => false

end StaticType

/-- Form in which a compiled expression leaves its value on the stack. -/
inductive Representation where
  | exact (kind : Kind)
  | boxed
  deriving DecidableEq, Inhabited

namespace Representation

/-- The static type that a representation implies by itself. -/
def impliedType : Representation → StaticType
  | exact k => .known k
  | boxed => .unknown

end Representation

end TemplateExpr
