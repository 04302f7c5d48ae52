import TemplateExpr.Instruction.Basic
import TemplateExpr.Span

/-!
# Bytecode

A program is its code, a pool of constants that instructions name by position, and a debug table with the span of
each instruction's source, in the order of their offsets. A program compiled without debug information has an empty
table.
-/

namespace TemplateExpr

/-- Span of the source of the instruction at an offset. -/
structure DebugEntry where
  offset : Nat
  span : Span
  deriving DecidableEq

structure Bytecode where
  code : Array UInt8
  constants : Array Value
  debug : Array DebugEntry
  deriving Inhabited

/-- What stands at an offset of the code. -/
inductive Fetch where
  /-- Nothing: the offset is not in the code. -/
  | outside
  /-- A byte that is no opcode. -/
  | unknown (byte : UInt8)
  /-- An opcode, and the bytes of its operand as far as the code goes. -/
  | truncated (opcode : Opcode) (operand : List UInt8)
  | instruction (i : Instruction)

namespace Bytecode

def empty : Bytecode := ⟨#[], #[], #[]⟩

/-- Offset of the next byte that is emitted. -/
def size (b : Bytecode) : Nat := b.code.size

/-! ### Emission -/

def emitBytes (b : Bytecode) (bytes : List UInt8) : Bytecode :=
  match b with
  | ⟨code, constants, debug⟩ => ⟨bytes.foldl Array.push code, constants, debug⟩

/-- Emits an opcode without debug information. -/
def emit (b : Bytecode) (o : Opcode) : Bytecode := b.emitBytes [o.code]

/-- Notes the span of the instruction that is emitted next. -/
def note (b : Bytecode) (span : Span) : Bytecode :=
  match b with
  | ⟨code, constants, debug⟩ =>
    let offset := code.size
    ⟨code, constants, debug.push ⟨offset, span⟩⟩

/-- Emits an opcode and notes its span. -/
def emitWithSpan (b : Bytecode) (o : Opcode) (span : Span) : Bytecode := (b.note span).emit o

def emitByte (b : Bytecode) (n : UInt8) : Bytecode := b.emitBytes [n]

def emitWord (b : Bytecode) (n : UInt16) : Bytecode := b.emitBytes (OperandForm.wordBytes n)

def emitDistance (b : Bytecode) (d : Int16) : Bytecode := b.emitBytes (OperandForm.distance.encode d)

def emitDouble (b : Bytecode) (n : UInt32) : Bytecode := b.emitBytes (OperandForm.doubleBytes n)

/-- Adds a constant to the pool. -/
def addConstant (b : Bytecode) (v : Value) : Bytecode :=
  match b with
  | ⟨code, constants, debug⟩ => ⟨code, constants.push v, debug⟩

/-- The word that names the constant added next. -/
def nextIndex (b : Bytecode) : UInt16 := UInt16.ofNat b.constants.size

/-- Overwrites the distance of a jump at the offset of its operand. -/
def patchDistance (b : Bytecode) (offset : Nat) (d : Int16) : Bytecode :=
  match b, OperandForm.distance.encode d with
  | ⟨code, constants, debug⟩, [high, low] =>
    ⟨(code.setIfInBounds offset high).setIfInBounds (offset + 1) low, constants, debug⟩
  | b, _ => b

/-! ### Reading -/

/-- Span of the instruction that an offset belongs to: the last entry of the table that does not lie beyond it. -/
def spanAt? (b : Bytecode) (offset : Nat) : Option Span :=
  (b.debug.findRev? fun e => e.offset ≤ offset).map DebugEntry.span

def fetch (b : Bytecode) (offset : Nat) : Fetch :=
  match b.code[offset]? with
  | none => .outside
  | some byte =>
    match Opcode.ofCode? byte with
    | none => .unknown byte
    | some o =>
      let operand := (b.code.extract (offset + 1) (offset + 1 + o.operandSize)).toList
      match Instruction.ofBytes? o operand with
      | some i => .instruction i
      | none => .truncated o operand

end Bytecode

end TemplateExpr
