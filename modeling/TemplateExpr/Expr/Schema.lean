import TemplateExpr.Binary64.Basic
import TemplateExpr.Expr.Json

/-!
# Reading expressions from JSON

Each node of the syntax tree has a schema: the names of its parts and their shapes. A node is read from the one
member of an object, whose name tells the node; its parts are the members of an object in any order, where further
members are ignored, or the elements of an array in the order of the schema. A choice that holds nothing is its
name, or an object that gives its name to null. A float may be given as an integer, an integer not as a real
number.
-/

namespace TemplateExpr

/-- Reads the name of a choice that holds nothing. -/
def Json.choice? : Json → Option String
  | string tag => some tag
  | object [(tag, null)] => some tag
  | _ => none

def Json.nat? : Json → Option Nat
  | integer n => if 0 ≤ n then some n.toNat else none
  | _ => none

def Json.int64? : Json → Option Int64
  | integer n => if Int64.minValue.toInt ≤ n ∧ n ≤ Int64.maxValue.toInt then some (Int64.ofInt n) else none
  | _ => none

def Json.float? : Json → Option Float
  | integer n => some (Binary64.ofInt n)
  | real x => some x
  | _ => none

def Span.ofJson? : Json → Option Span
  | .array [start, stop] => return ⟨← start.nat?, ← stop.nat?⟩
  | .object members => do
    let start ← (Json.object members).member? "start"
    let stop ← (Json.object members).member? "end"
    return ⟨← start.nat?, ← stop.nat?⟩
  | _ => none

def StaticType.all : List StaticType :=
  [.known .null, .known .bool, .known .int, .known .float, .known .string, .known .list, .known .map, .unknown]

def StaticType.ofJson? (j : Json) : Option StaticType :=
  j.choice?.bind fun tag => StaticType.all.find? fun t => t.tag == tag

def UnaryOp.ofJson? (j : Json) : Option UnaryOp :=
  j.choice?.bind fun tag => UnaryOp.all.find? fun o => o.tag == tag

def BinaryOp.ofJson? (j : Json) : Option BinaryOp :=
  j.choice?.bind fun tag => BinaryOp.all.find? fun o => o.tag == tag

def Literal.ofJson? : Json → Option Literal
  | .string "Null" | .object [("Null", .null)] => some .null
  | .object [("Bool", .bool b)] => some (.bool b)
  | .object [("Int", j)] => j.int64?.map .int
  | .object [("Float", j)] => j.float?.map .float
  | .object [("String", .string s)] => some (.string s)
  | _ => none

namespace Expr

/-- What a part of a node is. -/
inductive Shape where
  | expr
  | exprs
  | pairs
  | literal
  | text
  | unaryOp
  | binaryOp
  | type
  | span

/-- A part of a node, read according to its shape. -/
inductive Part where
  | expr (e : Expr)
  | exprs (es : List Expr)
  | pairs (es : List (Expr × Expr))
  | literal (v : Literal)
  | text (s : String)
  | unaryOp (o : UnaryOp)
  | binaryOp (o : BinaryOp)
  | type (t : StaticType)
  | span (s : Span)

/-- Parts of a node by name. The parts of a literal have no names, so it is always given as an array. -/
inductive Schema where
  | record (parts : List (String × Shape))
  | tuple (parts : List Shape)

def schema? : String → Option Schema
  | "Literal" => some (.tuple [.literal, .span])
  | "Var" => some (.record [("name", .text), ("ty", .type), ("span", .span)])
  | "Field" => some (.record [("base", .expr), ("field", .text), ("ty", .type), ("span", .span)])
  | "Item" => some (.record [("base", .expr), ("key", .expr), ("ty", .type), ("span", .span)])
  | "Call" => some (.record [("name", .text), ("args", .exprs), ("ty", .type), ("span", .span)])
  | "Unary" => some (.record [("op", .unaryOp), ("expr", .expr), ("ty", .type), ("span", .span)])
  | "Binary" =>
    some (.record [("op", .binaryOp), ("left", .expr), ("right", .expr), ("ty", .type), ("span", .span)])
  | "Conditional" =>
    some (.record [("condition", .expr), ("then_branch", .expr), ("else_branch", .expr), ("ty", .type),
      ("span", .span)])
  | "List" => some (.record [("elements", .exprs), ("span", .span)])
  | "Map" => some (.record [("entries", .pairs), ("span", .span)])
  | _ => none

/-- Puts the parts of a node, in the order of its schema, together. -/
def ofParts? : String → List Part → Option Expr
  | "Literal", [.literal v, .span s] => some (.literal v s)
  | "Var", [.text n, .type t, .span s] => some (.var n t s)
  | "Field", [.expr b, .text n, .type t, .span s] => some (.field b n t s)
  | "Item", [.expr b, .expr k, .type t, .span s] => some (.item b k t s)
  | "Call", [.text n, .exprs as, .type t, .span s] => some (.call n as t s)
  | "Unary", [.unaryOp o, .expr e, .type t, .span s] => some (.unary o e t s)
  | "Binary", [.binaryOp o, .expr l, .expr r, .type t, .span s] => some (.binary o l r t s)
  | "Conditional", [.expr c, .expr a, .expr b, .type t, .span s] => some (.conditional c a b t s)
  | "List", [.exprs es, .span s] => some (.list es s)
  | "Map", [.pairs es, .span s] => some (.map es s)
  | _, _ => none

/-- The parts that were read, in the order of the schema; `none` if one is missing. -/
def inOrder? (parts : List (String × Shape)) (read : List (String × Part)) : Option (List Part) :=
  parts.mapM fun p => read.lookup p.1

mutual

/-- Reads the node of that name. -/
def ofContent? (tag : String) : Json → Option Expr
  | .object members =>
    match schema? tag with
    | some (.record parts) => do
      let read ← ofMembers? parts members
      ofParts? tag (← inOrder? parts read)
    | _ => none
  | .array elements =>
    match schema? tag with
    | some (.record parts) => do ofParts? tag (← ofElements? (parts.map Prod.snd) elements)
    | some (.tuple shapes) => do ofParts? tag (← ofElements? shapes elements)
    | none => none
  | _ => none

def ofPart? : Shape → Json → Option Part
  | .expr, .object [(tag, content)] => (ofContent? tag content).map .expr
  | .exprs, .array elements => (ofList? elements []).map .exprs
  | .pairs, .array elements => (ofPairs? elements []).map .pairs
  | .literal, j => (Literal.ofJson? j).map .literal
  | .text, .string s => some (.text s)
  | .unaryOp, j => (UnaryOp.ofJson? j).map .unaryOp
  | .binaryOp, j => (BinaryOp.ofJson? j).map .binaryOp
  | .type, j => (StaticType.ofJson? j).map .type
  | .span, j => (Span.ofJson? j).map .span
  | _, _ => none

/-- Reads the members that the schema names. -/
def ofMembers? (parts : List (String × Shape)) : List (String × Json) → Option (List (String × Part))
  | [] => some []
  | (name, j) :: ms =>
    match parts.lookup name with
    | some shape => do
      let part ← ofPart? shape j
      return (name, part) :: (← ofMembers? parts ms)
    | none => ofMembers? parts ms

/-- Reads elements of the given shapes, neither more nor fewer. -/
def ofElements? : List Shape → List Json → Option (List Part)
  | [], [] => some []
  | shape :: shapes, j :: js => do
    let part ← ofPart? shape j
    return part :: (← ofElements? shapes js)
  | _, _ => none

def ofList? : List Json → List Expr → Option (List Expr)
  | [], done => some done.reverse
  | .object [(tag, content)] :: js, done =>
    match ofContent? tag content with
    | some e => ofList? js (e :: done)
    | none => none
  | _, _ => none

def ofPairs? : List Json → List (Expr × Expr) → Option (List (Expr × Expr))
  | [], done => some done.reverse
  | .array [.object [(keyTag, key)], .object [(valueTag, value)]] :: js, done =>
    match ofContent? keyTag key, ofContent? valueTag value with
    | some k, some v => ofPairs? js ((k, v) :: done)
    | _, _ => none
  | _, _ => none

end

def ofJson? : Json → Option Expr
  | .object [(tag, content)] => ofContent? tag content
  | _ => none

end Expr

def ExprRoot.ofJson? : Json → Option ExprRoot
  | .array [expr, span] => return ⟨← Expr.ofJson? expr, ← Span.ofJson? span⟩
  | .object members => do
    let expr ← (Json.object members).member? "expr"
    let span ← (Json.object members).member? "span"
    return ⟨← Expr.ofJson? expr, ← Span.ofJson? span⟩
  | _ => none

end TemplateExpr
