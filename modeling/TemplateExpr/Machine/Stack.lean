import TemplateExpr.Value.Basic

/-!
# The operand stack

A slot holds an unboxed integer, float or bool, or a reference to a value. The stack is the list of its slots with
the topmost first; it knows its height.
-/

namespace TemplateExpr

inductive Slot where
  | int (n : Int64)
  | float (x : Float)
  | bool (b : Bool)
  | ref (v : Value)
  deriving Inhabited

namespace Slot

/-- The slot's content as a value. -/
def value : Slot → Value
  | int n => .int n
  | float x => .float x
  | bool b => .bool b
  | ref v => v

/-- Kind of the content; a reference has the kind of its value. -/
def kind : Slot → Kind
  | int _ => .int
  | float _ => .float
  | bool _ => .bool
  | ref v => v.kind

/-- The slot of a value: unboxed if that is allowed and the value is an integer, a float or a bool. -/
def ofValue (boxed : Bool) (v : Value) : Slot :=
  match boxed, v with
  | false, .int n => int n
  | false, .float x => float x
  | false, .bool b => bool b
  | _, v => ref v

theorem kind_value (s : Slot) : s.value.kind = s.kind := by
  cases s <;> rfl

end Slot

/-- Slots, topmost first, with their number. -/
structure Stack where
  slots : List Slot
  height : Nat
  height_eq : height = slots.length := by rfl

namespace Stack

def empty : Stack := ⟨[], 0, rfl⟩

instance : Inhabited Stack := ⟨empty⟩

def push (s : Stack) (x : Slot) : Stack :=
  match s with
  | ⟨slots, height, h⟩ => ⟨x :: slots, height + 1, by simp [h]⟩

def pop? : Stack → Option (Slot × Stack)
  | ⟨[], _, _⟩ => none
  | ⟨x :: slots, height, h⟩ => some (x, ⟨slots, height - 1, by simp [h]⟩)

/-- Takes a number of slots off, in the order in which they were pushed. -/
def popMany? (s : Stack) (count : Nat) : Option (List Slot × Stack) :=
  match s with
  | ⟨slots, height, h⟩ =>
    if height < count then none
    else some ((slots.take count).reverse, ⟨slots.drop count, height - count, by simp [h]⟩)

@[ext] theorem ext {s t : Stack} (h : s.slots = t.slots) : s = t := by
  rcases s with ⟨a, m, hm⟩
  rcases t with ⟨b, n, hn⟩
  simp only at h
  subst h hm hn
  rfl

@[simp] theorem slots_empty : empty.slots = [] := rfl

@[simp] theorem slots_push (s : Stack) (x : Slot) : (s.push x).slots = x :: s.slots := rfl

@[simp] theorem height_push (s : Stack) (x : Slot) : (s.push x).height = s.height + 1 := rfl

@[simp] theorem pop?_push (s : Stack) (x : Slot) : (s.push x).pop? = some (x, s) := rfl

end Stack

end TemplateExpr
