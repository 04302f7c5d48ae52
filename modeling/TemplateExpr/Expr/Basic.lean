import TemplateExpr.Kind
import TemplateExpr.Span

/-!
# Expressions

The syntax tree of a template expression as a type checker hands it over: every node has its span, and every node
whose type is not plain from its form has a declared type. The declared type is trusted.
-/

namespace TemplateExpr

inductive Literal where
  | null
  | bool (b : Bool)
  | int (n : Int64)
  | float (x : Float)
  | string (s : String)
  deriving DecidableEq, Inhabited

def Literal.type : Literal → StaticType
  | null => .known .null
  | bool _ => .known .bool
  | int _ => .known .int
  | float _ => .known .float
  | string _ => .known .string

inductive UnaryOp where
  | negate
  | not
  deriving DecidableEq

inductive BinaryOp where
  | add
  | sub
  | mul
  | div
  | mod
  | eq
  | ne
  | lt
  | le
  | gt
  | ge
  | and
  | or
  /-- The left side unless it is null. -/
  | orElse
  deriving DecidableEq

namespace BinaryOp

def all : List BinaryOp := [add, sub, mul, div, mod, eq, ne, lt, le, gt, ge, and, or, orElse]

/-- The operator as it is written in a template. -/
def symbol : BinaryOp → String
  | add => "+"
  | sub => "-"
  | mul => "*"
  | div => "/"
  | mod => "%"
  | eq => "=="
  | ne => "!="
  | lt => "<"
  | le => "<="
  | gt => ">"
  | ge => ">="
  | and => "and"
  | or => "or"
  | orElse => "?:"

end BinaryOp

inductive Expr where
  | literal (value : Literal) (span : Span)
  | var (name : String) (type : StaticType) (span : Span)
  | field (base : Expr) (name : String) (type : StaticType) (span : Span)
  | item (base key : Expr) (type : StaticType) (span : Span)
  | call (name : String) (arguments : List Expr) (type : StaticType) (span : Span)
  | unary (op : UnaryOp) (operand : Expr) (type : StaticType) (span : Span)
  | binary (op : BinaryOp) (left right : Expr) (type : StaticType) (span : Span)
  | conditional (condition onTrue onFalse : Expr) (type : StaticType) (span : Span)
  | list (elements : List Expr) (span : Span)
  | map (entries : List (Expr × Expr)) (span : Span)
  deriving Inhabited

namespace Expr

def span : Expr → Span
  | literal _ s | var _ _ s | field _ _ _ s | item _ _ _ s | call _ _ _ s | unary _ _ _ s | binary _ _ _ _ s
  | conditional _ _ _ _ s | list _ s | map _ s => s

/-- The type that the checker found, or that the node's form implies. -/
def type : Expr → StaticType
  | literal v _ => v.type
  | var _ t _ | field _ _ t _ | item _ _ t _ | call _ _ t _ | unary _ _ t _ | binary _ _ _ t _
  | conditional _ _ _ t _ => t
  | list _ _ => .known .list
  | map _ _ => .known .map

/-- What a message calls the node. -/
def construct : Expr → String
  | literal .. => "literal"
  | var .. => "variable reference"
  | field .. => "field access"
  | item .. => "item access"
  | call .. => "function call"
  | unary .. => "unary operator"
  | binary .. => "binary operator"
  | conditional .. => "conditional operator"
  | list .. => "list literal"
  | map .. => "map literal"

end Expr

/-- A whole expression, such as the body of a print tag, with the span that it fills. -/
structure ExprRoot where
  expr : Expr
  span : Span
  deriving Inhabited

/-- The root that fills just its expression's span. -/
def ExprRoot.ofExpr (e : Expr) : ExprRoot := ⟨e, e.span⟩

end TemplateExpr
