import TemplateExpr.RuntimeFunction

/-!
# Opcodes

The instruction set of a typed stack machine: integers, floats and bools travel unboxed, everything else as a
reference to a value. Each opcode has a code byte, a form of operand that follows it in the code, and an effect on
the height of the stack. The effect depends on the operand only for the two calls.
-/

namespace TemplateExpr

inductive Opcode where
  | pushNull
  | pushTrue
  | pushFalse
  | constInt
  | constFloat
  | constant
  | emptyList
  | emptyMap
  | dup
  | pop
  | intAdd
  | intSub
  | intMul
  | intRem
  | intNeg
  | floatAdd
  | floatSub
  | floatMul
  | floatDiv
  | floatNeg
  | intEq
  | intLt
  | intLe
  | intGt
  | intGe
  | floatEq
  | floatLt
  | floatLe
  | floatGt
  | floatGe
  | not
  | intToFloat
  | intToBool
  | floatToBool
  | intToString
  | floatToString
  | boolToString
  | boxInt
  | boxFloat
  | boxBool
  | unboxInt
  | unboxFloat
  | jump
  | jumpIfFalse
  | jumpIfTrue
  | invoke
  | getGlobal
  | callNative
  | newList
  | listAppend
  | newMap
  | mapPut
  | halt
  deriving DecidableEq

/-- What follows an opcode in the code. -/
inductive OperandForm where
  | none
  /-- Code byte of a runtime function. -/
  | function
  /-- Position in the constant pool. -/
  | index
  /-- Distance of a jump, from the end of the instruction. -/
  | distance
  /-- Position of a name in the constant pool, and a number of arguments. -/
  | call
  /-- Number of elements to make room for. -/
  | capacity
  deriving DecidableEq

/-- Number of bytes. -/
def OperandForm.size : OperandForm → Nat
  | none => 0
  | function => 1
  | index | distance => 2
  | call => 3
  | capacity => 4

/-- Values that an instruction takes off the stack and values that it leaves there. -/
structure StackEffect where
  pops : Nat
  pushes : Nat
  deriving DecidableEq

/-- Net change of the height. -/
def StackEffect.delta (e : StackEffect) : Int := (e.pushes : Int) - e.pops

namespace Opcode

def all : List Opcode :=
  [pushNull, pushTrue, pushFalse, constInt, constFloat, constant, emptyList, emptyMap, dup, pop, intAdd,
    intSub, intMul, intRem, intNeg, floatAdd, floatSub, floatMul, floatDiv, floatNeg, intEq, intLt, intLe,
    intGt, intGe, floatEq, floatLt, floatLe, floatGt, floatGe, not, intToFloat, intToBool, floatToBool,
    intToString, floatToString, boolToString, boxInt, boxFloat, boxBool, unboxInt, unboxFloat, jump,
    jumpIfFalse, jumpIfTrue, invoke, getGlobal, callNative, newList, listAppend, newMap, mapPut, halt]

def code : Opcode → UInt8
  | pushNull => 0x01
  | pushTrue => 0x02
  | pushFalse => 0x03
  | constInt => 0x04
  | constFloat => 0x05
  | constant => 0x06
  | emptyList => 0x07
  | emptyMap => 0x08
  | dup => 0x10
  | pop => 0x11
  | intAdd => 0x20
  | intSub => 0x21
  | intMul => 0x22
  | intRem => 0x23
  | intNeg => 0x24
  | floatAdd => 0x28
  | floatSub => 0x29
  | floatMul => 0x2A
  | floatDiv => 0x2B
  | floatNeg => 0x2C
  | intEq => 0x30
  | intLt => 0x31
  | intLe => 0x32
  | intGt => 0x33
  | intGe => 0x34
  | floatEq => 0x38
  | floatLt => 0x39
  | floatLe => 0x3A
  | floatGt => 0x3B
  | floatGe => 0x3C
  | not => 0x3F
  | intToFloat => 0x40
  | intToBool => 0x41
  | floatToBool => 0x42
  | intToString => 0x43
  | floatToString => 0x44
  | boolToString => 0x45
  | boxInt => 0x46
  | boxFloat => 0x47
  | boxBool => 0x48
  | unboxInt => 0x49
  | unboxFloat => 0x4A
  | jump => 0x50
  | jumpIfFalse => 0x51
  | jumpIfTrue => 0x52
  | invoke => 0x60
  | getGlobal => 0x61
  | callNative => 0x62
  | newList => 0x70
  | listAppend => 0x71
  | newMap => 0x72
  | mapPut => 0x73
  | halt => 0xFF

def ofCode? (b : UInt8) : Option Opcode := all.find? fun o => o.code == b

def mnemonic : Opcode → String
  | pushNull => "Null"
  | pushTrue => "True"
  | pushFalse => "False"
  | constInt => "ConstInt"
  | constFloat => "ConstFloat"
  | constant => "Constant"
  | emptyList => "EmptyList"
  | emptyMap => "EmptyMap"
  | dup => "Dup"
  | pop => "Pop"
  | intAdd => "IntAdd"
  | intSub => "IntSub"
  | intMul => "IntMul"
  | intRem => "IntRem"
  | intNeg => "IntNeg"
  | floatAdd => "FloatAdd"
  | floatSub => "FloatSub"
  | floatMul => "FloatMul"
  | floatDiv => "FloatDiv"
  | floatNeg => "FloatNeg"
  | intEq => "IntEq"
  | intLt => "IntLt"
  | intLe => "IntLe"
  | intGt => "IntGt"
  | intGe => "IntGe"
  | floatEq => "FloatEq"
  | floatLt => "FloatLt"
  | floatLe => "FloatLe"
  | floatGt => "FloatGt"
  | floatGe => "FloatGe"
  | not => "Not"
  | intToFloat => "IntToFloat"
  | intToBool => "IntToBool"
  | floatToBool => "FloatToBool"
  | intToString => "IntToString"
  | floatToString => "FloatToString"
  | boolToString => "BoolToString"
  | boxInt => "BoxInt"
  | boxFloat => "BoxFloat"
  | boxBool => "BoxBool"
  | unboxInt => "UnboxInt"
  | unboxFloat => "UnboxFloat"
  | jump => "Jump"
  | jumpIfFalse => "JumpIfFalse"
  | jumpIfTrue => "JumpIfTrue"
  | invoke => "Invoke"
  | getGlobal => "GetGlobal"
  | callNative => "CallNative"
  | newList => "NewList"
  | listAppend => "ListAppend"
  | newMap => "NewMap"
  | mapPut => "MapPut"
  | halt => "Halt"

def operandForm : Opcode → OperandForm
  | invoke => .function
  | constInt | constFloat | constant | getGlobal => .index
  | jump | jumpIfFalse | jumpIfTrue => .distance
  | callNative => .call
  | newList | newMap => .capacity
  | _ => .none

/-- Number of operand bytes. -/
def operandSize (o : Opcode) : Nat := o.operandForm.size

def isJump (o : Opcode) : Bool := o.operandForm == .distance

/-- Effect on the stack, given the bytes of the operand; `none` for a runtime function that does not exist, and if
the bytes that matter are missing. -/
def stackEffect? (o : Opcode) (operand : List UInt8) : Option StackEffect :=
  match o with
  | pushNull | pushTrue | pushFalse | constInt | constFloat | constant | emptyList | emptyMap | getGlobal | newList
  | newMap => some ⟨0, 1⟩
  | dup => some ⟨1, 2⟩
  | intNeg | floatNeg | not | intToFloat | intToBool | floatToBool | intToString | floatToString | boolToString
  | boxInt | boxFloat | boxBool | unboxInt | unboxFloat => some ⟨1, 1⟩
  | intAdd | intSub | intMul | intRem | floatAdd | floatSub | floatMul | floatDiv | intEq | intLt | intLe | intGt
  | intGe | floatEq | floatLt | floatLe | floatGt | floatGe | listAppend => some ⟨2, 1⟩
  | mapPut => some ⟨3, 1⟩
  | pop | jumpIfFalse | jumpIfTrue => some ⟨1, 0⟩
  | jump | halt => some ⟨0, 0⟩
  | invoke => (operand.head?.bind RuntimeFunction.ofCode?).map fun f => ⟨f.arity, 1⟩
  | callNative => operand[2]?.map fun count => ⟨count.toNat, 1⟩

theorem ofCode?_code (o : Opcode) : ofCode? o.code = some o := by
  cases o <;> rfl

theorem code_of_ofCode? {b : UInt8} {o : Opcode} (h : ofCode? b = some o) : o.code = b := by
  simpa using List.find?_some h

end Opcode

end TemplateExpr
