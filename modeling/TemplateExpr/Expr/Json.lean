import TemplateExpr.Expr.Basic
import TemplateExpr.Json.Basic

/-!
# Expressions as JSON

The interchange form of a syntax tree. A choice is an object with one member, named for the alternative, or just
the name if the alternative holds nothing; a record is an object; a pair is an array of two.
-/

namespace TemplateExpr

/-! ### Writing -/

def Span.toJson (s : Span) : Json := .object [("start", .nat s.start), ("end", .nat s.stop)]

def Kind.tag : Kind → String
  | .null => "Null"
  | .bool => "Bool"
  | .int => "Int"
  | .float => "Float"
  | .string => "String"
  | .list => "List"
  | .map => "Map"

def StaticType.tag : StaticType → String
  | .known k => k.tag
  | .unknown => "Unknown"

def StaticType.toJson (t : StaticType) : Json := .string t.tag

def Literal.toJson : Literal → Json
  | .null => .string "Null"
  | .bool b => .object [("Bool", .bool b)]
  | .int n => .object [("Int", .integer n.toInt)]
  | .float x => .object [("Float", .ofFloat x)]
  | .string s => .object [("String", .string s)]

def UnaryOp.tag : UnaryOp → String
  | .negate => "Negate"
  | .not => "Not"

def UnaryOp.all : List UnaryOp := [.negate, .not]

def BinaryOp.tag : BinaryOp → String
  | .add => "Add"
  | .sub => "Sub"
  | .mul => "Mul"
  | .div => "Div"
  | .mod => "Mod"
  | .eq => "Eq"
  | .ne => "Ne"
  | .lt => "Lt"
  | .le => "Le"
  | .gt => "Gt"
  | .ge => "Ge"
  | .and => "And"
  | .or => "Or"
  | .orElse => "NullCoalesce"

namespace Expr

mutual

def toJson : Expr → Json
  | literal v s => .object [("Literal", .array [v.toJson, s.toJson])]
  | var n t s =>
    .object [("Var", .object [("name", .string n), ("ty", t.toJson), ("span", s.toJson)])]
  | field b n t s =>
    .object [("Field", .object [("base", b.toJson), ("field", .string n), ("ty", t.toJson), ("span", s.toJson)])]
  | item b k t s =>
    .object [("Item", .object [("base", b.toJson), ("key", k.toJson), ("ty", t.toJson), ("span", s.toJson)])]
  | call n as t s =>
    .object [("Call", .object [("name", .string n), ("args", .array (listToJson as [])), ("ty", t.toJson),
      ("span", s.toJson)])]
  | unary o e t s =>
    .object [("Unary", .object [("op", .string o.tag), ("expr", e.toJson), ("ty", t.toJson), ("span", s.toJson)])]
  | binary o l r t s =>
    .object [("Binary", .object [("op", .string o.tag), ("left", l.toJson), ("right", r.toJson), ("ty", t.toJson),
      ("span", s.toJson)])]
  | conditional c a b t s =>
    .object [("Conditional", .object [("condition", c.toJson), ("then_branch", a.toJson),
      ("else_branch", b.toJson), ("ty", t.toJson), ("span", s.toJson)])]
  | list es s => .object [("List", .object [("elements", .array (listToJson es [])), ("span", s.toJson)])]
  | map es s => .object [("Map", .object [("entries", .array (entriesToJson es [])), ("span", s.toJson)])]

/-- The documents of the elements, after those in `done`, which has the last one first. -/
def listToJson : List Expr → List Json → List Json
  | [], done => done.reverse
  | e :: es, done => listToJson es (e.toJson :: done)

/-- The documents of the entries, after those in `done`, which has the last one first. -/
def entriesToJson : List (Expr × Expr) → List Json → List Json
  | [], done => done.reverse
  | (k, v) :: es, done => entriesToJson es (.array [k.toJson, v.toJson] :: done)

end

end Expr

def ExprRoot.toJson (r : ExprRoot) : Json := .object [("expr", r.expr.toJson), ("span", r.span.toJson)]

end TemplateExpr
