import TemplateExpr.Toml.Moment
import TemplateExpr.Toml.Number

/-!
# Reading TOML

Each statement stands on a line of its own. The keys of an inline table lead to places of their own, values nest
as deep as the limit allows, and keys have no more parts than that. Arrays of tables with headers are not supported;
such a header is refused like a mistake.
-/

namespace TemplateExpr.Toml

/-! ### Keys -/

def isBareKeyChar (c : Char) : Bool := c.isAlphanum || c = '_' || c = '-'

/-- Reads one part of a key. -/
def readPart? (cs : List Char) : Option (String × List Char) :=
  match cs with
  | '"' :: _ | '\'' :: _ => readQuoted? cs
  | cs =>
    match cs.span isBareKeyChar with
    | ([], _) => none
    | (name, rest) => some (String.ofList name, rest)

/-- Reads parts of a key joined by points, with blanks around them. -/
def readParts? : Nat → List Char → Option (List String × List Char)
  | 0, _ => none
  | fuel + 1, cs => do
    let (part, cs) ← readPart? (skipBlanks cs)
    match skipBlanks cs with
    | '.' :: cs =>
      let (parts, cs) ← readParts? fuel cs
      some (part :: parts, cs)
    | cs => some ([part], cs)

/-- Reads a key, as a path. -/
def readPath? (cs : List Char) : Option (List String × List Char) := do
  let (path, cs) ← readParts? (cs.length + 1) cs
  if path.length ≤ nestingLimit then some (path, cs) else none

/-! ### Values -/

/-- Reads a value that holds no others. -/
def readScalar? (cs : List Char) : Option (Value × List Char) :=
  match cs with
  | 't' :: 'r' :: 'u' :: 'e' :: cs => some (.bool true, cs)
  | 'f' :: 'a' :: 'l' :: 's' :: 'e' :: cs => some (.bool false, cs)
  | '"' :: _ | '\'' :: _ => (readString? cs).map fun r => (.string r.1, r.2)
  | cs =>
    match skipMoment? cs with
    | some cs => some (.moment, cs)
    | none => readNumber? cs

mutual

/-- Reads a value with at most `depth` levels of arrays and inline tables. -/
def readValue? : Nat → Nat → List Char → Option (Value × List Char)
  | 0, _, _ => none
  | fuel + 1, depth, cs =>
    match cs, depth with
    | '[' :: cs, depth + 1 => readElements? fuel depth [] cs
    | '\x7b' :: cs, depth + 1 =>
      match skipBlanks cs with
      | '\x7d' :: cs => some (.table [], cs)
      | cs => readEntries? fuel depth [] cs
    | cs, _ => readScalar? cs

/-- Reads the elements of an array up to its closing bracket; `done` holds those already read, last one first.
Newlines, comments and a last comma are allowed. -/
def readElements? : Nat → Nat → List Value → List Char → Option (Value × List Char)
  | 0, _, _, _ => none
  | fuel + 1, depth, done, cs =>
    match skipLines cs.length cs with
    | ']' :: cs => some (.array done.reverse, cs)
    | cs => do
      let (v, cs) ← readValue? fuel depth cs
      match skipLines cs.length cs with
      | ',' :: cs => readElements? fuel depth (v :: done) cs
      | ']' :: cs => some (.array (v :: done).reverse, cs)
      | _ => none

/-- Reads the entries of an inline table up to its closing brace, all on one line and without a last comma; `done`
holds those already read, last one first. -/
def readEntries? : Nat → Nat → List (List String × Value) → List Char → Option (Value × List Char)
  | 0, _, _, _ => none
  | fuel + 1, depth, done, cs => do
    let (path, cs) ← readPath? cs
    match cs with
    | '=' :: cs =>
      let (v, cs) ← readValue? fuel depth (skipBlanks cs)
      let done := (path, v) :: done
      match skipBlanks cs with
      | ',' :: cs => readEntries? fuel depth done cs
      | '\x7d' :: cs => if distinct done then some (.table done.reverse, cs) else none
      | _ => none
    | _ => none

end

/-! ### Statements -/

/-- Reads a header or an assignment, up to what may end its line. -/
def readStatement? (cs : List Char) : Option (Statement × List Char) :=
  match cs with
  | '[' :: cs => do
    let (path, cs) ← readPath? cs
    match cs with
    | ']' :: cs => some (.header path, cs)
    | _ => none
  | cs => do
    let (path, cs) ← readPath? cs
    match cs with
    | '=' :: cs =>
      let (v, cs) ← readValue? (2 * cs.length + 2) nestingLimit (skipBlanks cs)
      some (.assign path v, cs)
    | _ => none

/-- Reads statements, each on a line of its own; `done` holds those already read, last one first. -/
def readStatements? : Nat → List Statement → List Char → Option (List Statement)
  | 0, _, _ => none
  | fuel + 1, done, cs =>
    match skipLines cs.length cs with
    | [] => some done.reverse
    | cs => do
      let (s, cs) ← readStatement? cs
      let cs ← lineEnd? (skipComment cs)
      readStatements? fuel (s :: done) cs

/-- Reads a whole document. A byte order mark in front of it is skipped. -/
def read? (text : String) : Option (List Statement) :=
  let cs :=
    match text.toList with
    | '\uFEFF' :: cs => cs
    | cs => cs
  readStatements? (cs.length + 1) [] cs

end TemplateExpr.Toml
