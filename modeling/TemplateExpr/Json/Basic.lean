import TemplateExpr.Binary64.Text

/-!
# JSON documents

A document keeps integers apart from other numbers, as far as 64 bits carry them; its real numbers are finite. The
members of an object have different names and stay in the order in which they were written.

Documents are written on one line without spaces. A real number is written with the fewest digits that read back
and always shows that it is not an integer.
-/

namespace TemplateExpr

inductive Json where
  | null
  | bool (b : Bool)
  | integer (n : Int)
  | real (x : Float)
  | string (s : String)
  | array (elements : List Json)
  | object (members : List (String × Json))
  deriving Inhabited

namespace Json

def member? (name : String) : Json → Option Json
  | object members => members.lookup name
  | _ => none

def nat (n : Nat) : Json := integer n

/-- No document has a word for a number that is not finite, so null stands for it. -/
def ofFloat (x : Float) : Json := if x.isFinite then real x else null

/-! ### Writing -/

def hexDigit (n : Nat) : Char := Nat.digitChar (n % 16)

/-- Adds a character as it stands in a string. -/
def writeChar (out : String) (c : Char) : String :=
  match c with
  | '"' => out ++ "\\\""
  | '\\' => out ++ "\\\\"
  | '\n' => out ++ "\\n"
  | '\r' => out ++ "\\r"
  | '\t' => out ++ "\\t"
  | c =>
    if c.toNat < 0x20 then ((out ++ "\\u00").push (hexDigit (c.toNat / 16))).push (hexDigit c.toNat)
    else out.push c

def writeString (out : String) (s : String) : String := (s.foldl writeChar (out.push '"')).push '"'

mutual

/-- Adds a document to the text. -/
def write (out : String) : Json → String
  | null => out ++ "null"
  | bool b => out ++ if b then "true" else "false"
  | integer n => out ++ toString n
  | real x => out ++ Binary64.listing x
  | string s => writeString out s
  | array [] => out ++ "[]"
  | array (e :: es) => (writeElements (write (out.push '[') e) es).push ']'
  | object [] => out ++ "\x7b\x7d"
  | object ((k, v) :: ms) => (writeMembers (write ((writeString (out.push '\x7b') k).push ':') v) ms).push '\x7d'

/-- Adds further elements, each after a comma. -/
def writeElements (out : String) : List Json → String
  | [] => out
  | e :: es => writeElements (write (out.push ',') e) es

/-- Adds further members, each after a comma. -/
def writeMembers (out : String) : List (String × Json) → String
  | [] => out
  | (k, v) :: ms => writeMembers (write ((writeString (out.push ',') k).push ':') v) ms

end

def text (v : Json) : String := write "" v

end Json

end TemplateExpr
