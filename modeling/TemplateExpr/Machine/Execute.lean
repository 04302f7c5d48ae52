import TemplateExpr.Bytecode.Basic
import TemplateExpr.Machine.Stack

/-!
# Executing an instruction

What one instruction does to the operand stack, or the fault that it raises. An instruction checks its operand
first, then takes its arguments off the stack, the last one first, and then pushes its result, which fails if the
stack is as high as it may be. Calls of native functions are not made here: the instruction only says which call it
wants.
-/

namespace TemplateExpr

/-- What is to be done after an instruction. -/
inductive Action where
  /-- Go on at an offset. -/
  | next (stack : Stack) (ip : Nat)
  /-- Call a native function, push its result and go on at an offset. -/
  | call (name : String) (arguments : List Value) (stack : Stack) (ip : Nat)
  | halt (result : Value)

/-- What an instruction can see besides the stack. -/
structure Context where
  bytecode : Bytecode
  globals : OrderedMap Value
  /-- Greatest height of the stack. -/
  limit : Nat

/-- Slot of the result of a runtime function. A result that is always a bool travels unboxed. -/
def RuntimeFunction.resultSlot (f : RuntimeFunction) : Value → Slot
  | .bool b => if f.returnsBool then .bool b else .ref (.bool b)
  | v => .ref v

namespace Stack

/-! ### Checked access -/

def checkedPush (s : Stack) (limit : Nat) (x : Slot) : Except Fault Stack :=
  if s.height < limit then .ok (s.push x) else .error (.stackOverflow limit)

def pop (s : Stack) : Except Fault (Slot × Stack) :=
  match s.pop? with
  | some r => .ok r
  | none => .error .stackUnderflow

def popInt (s : Stack) : Except Fault (Int64 × Stack) := do
  match ← s.pop with
  | (.int n, s) => .ok (n, s)
  | (x, _) => .error (.operand (.wrongSlot .int x.kind))

def popFloat (s : Stack) : Except Fault (Float × Stack) := do
  match ← s.pop with
  | (.float x, s) => .ok (x, s)
  | (x, _) => .error (.operand (.wrongSlot .float x.kind))

def popBool (s : Stack) : Except Fault (Bool × Stack) := do
  match ← s.pop with
  | (.bool b, s) => .ok (b, s)
  | (x, _) => .error (.operand (.wrongSlot .bool x.kind))

def popRef (s : Stack) : Except Fault (Value × Stack) := do
  match ← s.pop with
  | (.ref v, s) => .ok (v, s)
  | (x, _) => .error (.operand (.wrongSlot .reference x.kind))

/-- Takes any slot off and boxes its content. -/
def popValue (s : Stack) : Except Fault (Value × Stack) := do
  let (x, s) ← s.pop
  .ok (x.value, s)

/-- Takes arguments off and boxes them, in the order in which they were pushed. -/
def popValues (s : Stack) (count : Nat) : Except Fault (List Value × Stack) :=
  match s.popMany? count with
  | some (xs, s) => .ok (xs.map Slot.value, s)
  | none => .error .stackUnderflow

/-! ### Operations of one shape -/

def mapInt (s : Stack) (limit : Nat) (f : Int64 → Slot) : Except Fault Stack := do
  let (a, s) ← s.popInt
  s.checkedPush limit (f a)

def mapFloat (s : Stack) (limit : Nat) (f : Float → Slot) : Except Fault Stack := do
  let (a, s) ← s.popFloat
  s.checkedPush limit (f a)

def mapBool (s : Stack) (limit : Nat) (f : Bool → Slot) : Except Fault Stack := do
  let (a, s) ← s.popBool
  s.checkedPush limit (f a)

/-- Combines two integers, of which the right one is on top. -/
def mapInts (s : Stack) (limit : Nat) (f : Int64 → Int64 → Slot) : Except Fault Stack := do
  let (b, s) ← s.popInt
  let (a, s) ← s.popInt
  s.checkedPush limit (f a b)

/-- Combines two floats, of which the right one is on top. -/
def mapFloats (s : Stack) (limit : Nat) (f : Float → Float → Slot) : Except Fault Stack := do
  let (b, s) ← s.popFloat
  let (a, s) ← s.popFloat
  s.checkedPush limit (f a b)

def intRemainder (s : Stack) (limit : Nat) : Except Fault Stack := do
  let (b, s) ← s.popInt
  let (a, s) ← s.popInt
  if b = 0 then .error .divideByZero else s.checkedPush limit (.int (a % b))

def duplicate (s : Stack) (limit : Nat) : Except Fault Stack := do
  let (x, s) ← s.pop
  (s.push x).checkedPush limit x

def unboxInt (s : Stack) (limit : Nat) : Except Fault Stack := do
  match ← s.popRef with
  | (.int n, s) => s.checkedPush limit (.int n)
  | (v, _) => .error (.type (.notInt v.kind))

def unboxFloat (s : Stack) (limit : Nat) : Except Fault Stack := do
  let (v, s) ← s.popRef
  match v.number? with
  | some x => s.checkedPush limit (.float x)
  | none => .error (.type (.notNumber v.kind))

/-- Appends the topmost value to the list below it, which stays on the stack. -/
def listAppend (s : Stack) : Except Fault Stack := do
  let (v, s) ← s.popValue
  match ← s.pop with
  | (.ref (.list elements), s) => .ok (s.push (.ref (.list (elements.push v))))
  | (x, _) => .error (.type (.notAList x.kind))

/-- Inserts the topmost value under the text of the one below it into the map below both, which stays on the stack.
-/
def mapPut (s : Stack) : Except Fault Stack := do
  let (v, s) ← s.popValue
  let (k, s) ← s.popValue
  match ← s.pop with
  | (.ref (.map entries), s) => .ok (s.push (.ref (.map (entries.insert k.text v))))
  | (x, _) => .error (.type (.notAMap x.kind))

/-- Calls a runtime function on as many values as its arity says. -/
def invoke (s : Stack) (limit : Nat) (code : UInt8) : Except Fault Stack :=
  match RuntimeFunction.ofCode? code with
  | none => .error (.operand (.unknownFunction code))
  | some f => do
    let (arguments, s) ← s.popValues f.arity
    let result ← f.apply arguments
    s.checkedPush limit (f.resultSlot result)

end Stack

namespace Bytecode

/-! ### Constants -/

def constantAt (b : Bytecode) (index : UInt16) : Except Fault Value :=
  match b.constants[index.toNat]? with
  | some v => .ok v
  | none => .error (.operand (.constantOutOfBounds index.toNat))

def intAt (b : Bytecode) (index : UInt16) : Except Fault Int64 := do
  match ← b.constantAt index with
  | .int n => .ok n
  | v => .error (.operand (.wrongConstant .int v.kind))

def floatAt (b : Bytecode) (index : UInt16) : Except Fault Float := do
  match ← b.constantAt index with
  | .float x => .ok x
  | v => .error (.operand (.wrongConstant .float v.kind))

def nameAt (b : Bytecode) (index : UInt16) : Except Fault String := do
  match ← b.constantAt index with
  | .string s => .ok s
  | v => .error (.operand (.wrongConstant .name v.kind))

/-- Fault of an instruction that is cut off at the end of the code. Only the name of a native call is looked up
before the rest of its operand is missed. -/
def truncationFault (b : Bytecode) (o : Opcode) (operand : List UInt8) : Fault :=
  match o, operand with
  | .callNative, high :: low :: _ =>
    match b.nameAt (OperandForm.word high low) with
    | .error f => f
    | .ok _ => .operand .truncated
  | _, _ => .operand .truncated

end Bytecode

/-- Target of a jump. Offsets are 64-bit words, so that a jump to before the code leads far beyond it. -/
def jumpTarget (stop : Nat) (distance : Int16) : Nat :=
  let target := (stop : Int) + distance.toInt
  (if target < 0 then target + UInt64.size else target).toNat

/-- Executes an instruction that ends at the offset `stop`. -/
def Instruction.execute (c : Context) (stop : Nat) (s : Stack) (i : Instruction) : Except Fault Action :=
  let next (r : Except Fault Stack) : Except Fault Action := r.map fun s => .next s stop
  let limit := c.limit
  match i with
  | ⟨.pushNull, _⟩ => next (s.checkedPush limit (.ref .null))
  | ⟨.pushTrue, _⟩ => next (s.checkedPush limit (.bool true))
  | ⟨.pushFalse, _⟩ => next (s.checkedPush limit (.bool false))
  | ⟨.constInt, index⟩ => next (do s.checkedPush limit (.int (← c.bytecode.intAt index)))
  | ⟨.constFloat, index⟩ => next (do s.checkedPush limit (.float (← c.bytecode.floatAt index)))
  | ⟨.constant, index⟩ => next (do s.checkedPush limit (.ref (← c.bytecode.constantAt index)))
  | ⟨.emptyList, _⟩ => next (s.checkedPush limit (.ref (.list #[])))
  | ⟨.emptyMap, _⟩ => next (s.checkedPush limit (.ref (.map .empty)))
  | ⟨.dup, _⟩ => next (s.duplicate limit)
  | ⟨.pop, _⟩ => next (do return (← s.pop).2)
  | ⟨.intAdd, _⟩ => next (s.mapInts limit fun a b => .int (a + b))
  | ⟨.intSub, _⟩ => next (s.mapInts limit fun a b => .int (a - b))
  | ⟨.intMul, _⟩ => next (s.mapInts limit fun a b => .int (a * b))
  | ⟨.intRem, _⟩ => next (s.intRemainder limit)
  | ⟨.intNeg, _⟩ => next (s.mapInt limit fun a => .int (-a))
  | ⟨.floatAdd, _⟩ => next (s.mapFloats limit fun a b => .float (a + b))
  | ⟨.floatSub, _⟩ => next (s.mapFloats limit fun a b => .float (a - b))
  | ⟨.floatMul, _⟩ => next (s.mapFloats limit fun a b => .float (a * b))
  | ⟨.floatDiv, _⟩ => next (s.mapFloats limit fun a b => .float (a / b))
  | ⟨.floatNeg, _⟩ => next (s.mapFloat limit fun a => .float (-a))
  | ⟨.intEq, _⟩ => next (s.mapInts limit fun a b => .bool (a == b))
  | ⟨.intLt, _⟩ => next (s.mapInts limit fun a b => .bool (a < b))
  | ⟨.intLe, _⟩ => next (s.mapInts limit fun a b => .bool (a ≤ b))
  | ⟨.intGt, _⟩ => next (s.mapInts limit fun a b => .bool (b < a))
  | ⟨.intGe, _⟩ => next (s.mapInts limit fun a b => .bool (b ≤ a))
  | ⟨.floatEq, _⟩ => next (s.mapFloats limit fun a b => .bool (a == b))
  | ⟨.floatLt, _⟩ => next (s.mapFloats limit fun a b => .bool (a < b))
  | ⟨.floatLe, _⟩ => next (s.mapFloats limit fun a b => .bool (a ≤ b))
  | ⟨.floatGt, _⟩ => next (s.mapFloats limit fun a b => .bool (b < a))
  | ⟨.floatGe, _⟩ => next (s.mapFloats limit fun a b => .bool (b ≤ a))
  | ⟨.not, _⟩ => next (s.mapBool limit fun b => .bool !b)
  | ⟨.intToFloat, _⟩ => next (s.mapInt limit fun n => .float (Binary64.ofInt64 n))
  | ⟨.intToBool, _⟩ => next (s.mapInt limit fun n => .bool (n != 0))
  | ⟨.floatToBool, _⟩ => next (s.mapFloat limit fun x => .bool (Binary64.isTruthy x))
  | ⟨.intToString, _⟩ => next (s.mapInt limit fun n => .ref (.string (Value.text (.int n))))
  | ⟨.floatToString, _⟩ => next (s.mapFloat limit fun x => .ref (.string (Value.text (.float x))))
  | ⟨.boolToString, _⟩ => next (s.mapBool limit fun b => .ref (.string (Value.text (.bool b))))
  | ⟨.boxInt, _⟩ => next (s.mapInt limit fun n => .ref (.int n))
  | ⟨.boxFloat, _⟩ => next (s.mapFloat limit fun x => .ref (.float x))
  | ⟨.boxBool, _⟩ => next (s.mapBool limit fun b => .ref (.bool b))
  | ⟨.unboxInt, _⟩ => next (s.unboxInt limit)
  | ⟨.unboxFloat, _⟩ => next (s.unboxFloat limit)
  | ⟨.jump, d⟩ => .ok (.next s (jumpTarget stop d))
  | ⟨.jumpIfFalse, d⟩ => do
    let (b, s) ← s.popBool
    .ok (.next s (if b then stop else jumpTarget stop d))
  | ⟨.jumpIfTrue, d⟩ => do
    let (b, s) ← s.popBool
    .ok (.next s (if b then jumpTarget stop d else stop))
  | ⟨.invoke, f⟩ => next (s.invoke limit f)
  | ⟨.getGlobal, index⟩ =>
    next (do
      let name ← c.bytecode.nameAt index
      match c.globals.get? name with
      | some v => s.checkedPush limit (.ref v)
      | none => .error (.undefinedVariable name))
  | ⟨.callNative, index, count⟩ => do
    let name ← c.bytecode.nameAt index
    let (arguments, s) ← s.popValues (UInt8.toNat count)
    .ok (.call name arguments s stop)
  | ⟨.newList, _⟩ => next (s.checkedPush limit (.ref (.list #[])))
  | ⟨.listAppend, _⟩ => next s.listAppend
  | ⟨.newMap, _⟩ => next (s.checkedPush limit (.ref (.map .empty)))
  | ⟨.mapPut, _⟩ => next s.mapPut
  | ⟨.halt, _⟩ =>
    match s.slots with
    | [x] => .ok (.halt x.value)
    | _ => .error (.stackImbalance s.height)

end TemplateExpr
