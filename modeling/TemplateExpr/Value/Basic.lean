import TemplateExpr.Binary64.Text
import TemplateExpr.Kind
import TemplateExpr.OrderedMap

/-!
# Runtime values

A value is null, a bool, a 64-bit integer, a floating-point number, a string, a list or a string-keyed map. Values
are immutable; a list or map that grows is a new value. `==` is structural: an integer and a float are never equal,
floats compare as numbers, and two maps are equal when they have the same keys with equal values, in whatever
order.
-/

namespace TemplateExpr

inductive Value where
  | null
  | bool (b : Bool)
  | int (n : Int64)
  | float (x : Float)
  | string (s : String)
  | list (elements : Array Value)
  | map (entries : OrderedMap Value)
  deriving Inhabited

namespace Value

def kind : Value → Kind
  | null => .null
  | bool _ => .bool
  | int _ => .int
  | float _ => .float
  | string _ => .string
  | list _ => .list
  | map _ => .map

/-- The falsy values are null, false, both zeros, NaN and the empty string. -/
def isTruthy : Value → Bool
  | null => false
  | bool b => b
  | int n => n != 0
  | float x => Binary64.isTruthy x
  | string s => !s.isEmpty
  | list _ | map _ => true

def isNull : Value → Bool
  | null => true
  | _ => false

/-- The floating-point view of a number. -/
def number? : Value → Option Float
  | int n => some (Binary64.ofInt64 n)
  | float x => some x
  | _ => none

/-! ### Structural equality -/

mutual

def structuralEq : Value → Value → Bool
  | null, null => true
  | bool a, bool b => a == b
  | int a, int b => a == b
  | float a, float b => a == b
  | string a, string b => a == b
  | list ⟨as⟩, list ⟨bs⟩ => structuralEqList as bs
  | map ⟨⟨es⟩, _⟩, map m => es.length == m.size && entriesIn es m
  | _, _ => false

/-- Equal length, and equal elements at every position. -/
def structuralEqList : List Value → List Value → Bool
  | [], [] => true
  | a :: as, b :: bs => structuralEq a b && structuralEqList as bs
  | _, _ => false

/-- Every entry's key leads to an equal value in the map. -/
def entriesIn : List (String × Value) → OrderedMap Value → Bool
  | [], _ => true
  | (k, v) :: es, m =>
    (match m.get? k with
      | some w => structuralEq v w
      | none => false) && entriesIn es m

end

instance : BEq Value := ⟨structuralEq⟩

/-! ### Text -/

mutual

/-- The text of a value: a string is its own text, and collections show the texts of what they hold. -/
def text : Value → String
  | null => "null"
  | bool b => if b then "true" else "false"
  | int n => toString n.toInt
  | float x => Binary64.plain x
  | string s => s
  | list ⟨vs⟩ => "[" ++ String.intercalate ", " (texts vs #[]).toList ++ "]"
  | map ⟨⟨es⟩, _⟩ => "\x7b" ++ String.intercalate ", " (entryTexts es #[]).toList ++ "\x7d"

/-- Adds the texts of the elements to those already there. -/
def texts : List Value → Array String → Array String
  | [], done => done
  | v :: vs, done => texts vs (done.push (text v))

/-- Adds the texts of the entries to those already there. -/
def entryTexts : List (String × Value) → Array String → Array String
  | [], done => done
  | (k, v) :: es, done => entryTexts es (done.push (k ++ ": " ++ text v))

end

end Value

end TemplateExpr
