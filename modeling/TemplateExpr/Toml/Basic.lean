/-!
# TOML documents

A document is a list of statements: a header opens a table, an assignment gives a value to a key of the open table.
What the statements mean together is not decided here.
-/

namespace TemplateExpr.Toml

inductive Value where
  | bool (b : Bool)
  | int (n : Int)
  | float (x : Float)
  | string (s : String)
  /-- A date, a time of day or both, of which no more is kept. -/
  | moment
  | array (elements : List Value)
  /-- An inline table, with its keys as paths. -/
  | table (entries : List (List String × Value))

inductive Statement where
  | header (path : List String)
  | assign (path : List String) (value : Value)

/-- So deep may values nest, and so many parts may a key have. -/
def nestingLimit : Nat := 79

/-- Whether one of two paths leads to the place of the other or through it. -/
def clash (p q : List String) : Bool := p.isPrefixOf q || q.isPrefixOf p

/-- Whether the paths of all entries lead to places of their own. -/
def distinct : List (List String × Value) → Bool
  | [] => true
  | (p, _) :: es => es.all (fun e => !clash p e.1) && distinct es

end TemplateExpr.Toml
