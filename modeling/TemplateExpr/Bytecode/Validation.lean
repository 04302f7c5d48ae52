import TemplateExpr.Bytecode.Basic
import TemplateExpr.Text

/-!
# Validation

A program is valid if its bytes are instructions from the first to the last, every jump lands on one, every
constant that is named exists and is of the kind its instruction needs, every runtime function exists, all ways to
an instruction bring the same height of the stack, no instruction takes more than there is, the machine halts with
one value, and the last instruction halts.

`validate` reports all defects that it finds. The heights are only checked if nothing was wrong before: they are
found by following the code from its start, the fall-through of a conditional jump first and its target when that
way ends.
-/

namespace TemplateExpr

/-- Kind of constant that an instruction needs. -/
inductive ConstantNeed where
  | int
  | float
  | value
  | name
  deriving DecidableEq

def ConstantNeed.text : ConstantNeed → String
  | int => "an int"
  | float => "a float"
  | value => "a value"
  | name => "a name"

def ConstantNeed.accepts : ConstantNeed → Value → Bool
  | int, .int _ => true
  | float, .float _ => true
  | value, _ => true
  | name, .string _ => true
  | _, _ => false

/-- The constant that an opcode names, if it names one. -/
def Opcode.constantNeed? : Opcode → Option ConstantNeed
  | .constInt => some .int
  | .constFloat => some .float
  | .constant => some .value
  | .getGlobal | .callNative => some .name
  | _ => none

inductive Defect where
  | unknownOpcode (byte : UInt8)
  | truncated (opcode : Opcode)
  | jumpOutOfBounds (target : Int) (size : Nat)
  | jumpMisaligned (target : Nat)
  | constantOutOfBounds (index poolSize : Nat)
  | wrongConstant (index : Nat) (need : ConstantNeed)
  | unknownFunction (code : UInt8)
  | stackUnderflow (opcode : Opcode) (depth : Nat)
  | inconsistentDepth (first second : Nat)
  | haltDepth (depth : Nat)
  | missingTerminator
  deriving DecidableEq

def Defect.message : Defect → String
  | unknownOpcode b => "unknown opcode 0x" ++ Text.hexadecimal 2 b.toNat
  | truncated o => "instruction " ++ o.mnemonic ++ " is truncated (missing operand bytes)"
  | jumpOutOfBounds t n => "jump target " ++ toString t ++ " is out of bounds (len=" ++ toString n ++ ")"
  | jumpMisaligned t => "jump target " ++ toString t ++ " does not align to an opcode boundary"
  | constantOutOfBounds i n =>
    "constant index " ++ toString i ++ " out of bounds (pool size=" ++ toString n ++ ")"
  | wrongConstant i need => "constant " ++ toString i ++ " is not " ++ need.text
  | unknownFunction f => "unknown runtime function 0x" ++ Text.hexadecimal 2 f.toNat
  | stackUnderflow o d => "stack underflow in " ++ o.mnemonic ++ ": depth before = " ++ toString d
  | inconsistentDepth a b =>
    "paths disagree on stack depth (" ++ toString a ++ " vs " ++ toString b ++ ")"
  | haltDepth d => "halt with " ++ toString d ++ " values on the stack, expected 1"
  | missingTerminator => "bytecode does not end with Halt"

/-- A defect and the offset of the instruction or byte that has it. -/
structure ValidationError where
  offset : Nat
  defect : Defect
  deriving DecidableEq

def ValidationError.message (e : ValidationError) : String :=
  "offset 0x" ++ Text.hexadecimal 4 e.offset ++ ": " ++ e.defect.message

/-- An instruction at its place in the code. -/
structure Placed where
  offset : Nat
  instruction : Instruction

/-- Offset of the byte after the instruction. -/
def Placed.stop (p : Placed) : Nat := p.offset + p.instruction.size

namespace Bytecode

/-! ### The instructions of the code -/

/-- Splits the code from an offset on into instructions. A byte that is no opcode is skipped; an instruction that
is cut off ends the code. -/
def splitFrom (b : Bytecode) (offset : Nat) (found : Array Placed) (errors : Array ValidationError) :
    Array Placed × Array ValidationError :=
  if offset < b.code.size then
    match b.fetch offset with
    | .outside => (found, errors)
    | .unknown byte => splitFrom b (offset + 1) found (errors.push ⟨offset, .unknownOpcode byte⟩)
    | .truncated o _ => (found, errors.push ⟨offset, .truncated o⟩)
    | .instruction i =>
      have : 0 < i.size := by simp [Instruction.size]
      splitFrom b (offset + i.size) (found.push ⟨offset, i⟩) errors
  else (found, errors)
  termination_by b.code.size - offset

def split (b : Bytecode) : Array Placed × Array ValidationError := b.splitFrom 0 #[] #[]

/-- For every offset of the code, whether an instruction starts there. -/
def starts (b : Bytecode) (placed : Array Placed) : Array Bool :=
  placed.foldl (fun marks p => marks.setIfInBounds p.offset true) (Array.replicate b.code.size false)

/-! ### Jumps and operands -/

/-- Distance that an instruction jumps, if it is a jump. -/
def jumpDistance? (i : Instruction) : Option Int :=
  match i with
  | ⟨.jump, d⟩ | ⟨.jumpIfFalse, d⟩ | ⟨.jumpIfTrue, d⟩ => some (Int16.toInt d)
  | _ => none

/-- What is wrong with the target of a jump. -/
def jumpDefect? (marks : Array Bool) (p : Placed) : Option Defect :=
  (jumpDistance? p.instruction).bind fun d =>
    let target := (p.stop : Int) + d
    if target < 0 ∨ (marks.size : Int) ≤ target then some (.jumpOutOfBounds target marks.size)
    else if marks[target.toNat]? = some true then none
    else some (.jumpMisaligned target.toNat)

/-- Position of the constant that an instruction names. -/
def constantIndex? (i : Instruction) : Option Nat :=
  match i with
  | ⟨.constInt, n⟩ | ⟨.constFloat, n⟩ | ⟨.constant, n⟩ | ⟨.getGlobal, n⟩ => some (UInt16.toNat n)
  | ⟨.callNative, n, _⟩ => some (UInt16.toNat n)
  | _ => none

/-- What is wrong with the constant or the runtime function that an instruction names. -/
def operandDefect? (constants : Array Value) (i : Instruction) : Option Defect :=
  match i with
  | ⟨.invoke, f⟩ => if (RuntimeFunction.ofCode? f).isSome then none else some (.unknownFunction f)
  | i =>
    match i.opcode.constantNeed?, constantIndex? i with
    | some need, some n =>
      match constants[n]? with
      | none => some (.constantOutOfBounds n constants.size)
      | some v => if need.accepts v then none else some (.wrongConstant n need)
    | _, _ => none

/-- Adds the errors that a check finds, instruction by instruction. -/
def collect (check : Placed → Option Defect) (placed : Array Placed) (errors : Array ValidationError) :
    Array ValidationError :=
  placed.foldl (fun errors p =>
    match check p with
    | some d => errors.push ⟨p.offset, d⟩
    | none => errors) errors

/-! ### Heights of the stack -/

/-- Places that may be reached from an instruction, the next to be followed first. -/
def successors (p : Placed) : List Nat :=
  match p.instruction.opcode, jumpDistance? p.instruction with
  | .halt, _ => []
  | .jump, some d => [((p.stop : Int) + d).toNat]
  | _, some d => [p.stop, ((p.stop : Int) + d).toNat]
  | _, none => [p.stop]

/-- Follows the code from the pending places, each with the height of the stack there, until every place that is
reached has its height. -/
def follow (b : Bytecode) (pending : List (Nat × Nat)) (heights : Array (Option Nat))
    (errors : Array ValidationError) : Array (Option Nat) × Array ValidationError :=
  match pending with
  | [] => (heights, errors)
  | (offset, height) :: pending =>
    match h : heights[offset]? with
    | none => follow b pending heights errors
    | some (some seen) =>
      if seen = height then follow b pending heights errors
      else follow b pending heights (errors.push ⟨offset, .inconsistentDepth seen height⟩)
    | some none =>
      have hlt : offset < heights.size := (Array.getElem?_eq_some_iff.mp h).1
      have : (heights.set offset (some height)).count none < heights.count none := by
        have hget : heights[offset] = none := (Array.getElem?_eq_some_iff.mp h).2
        have : 0 < heights.count none := Array.count_pos_iff.mpr (hget ▸ Array.getElem_mem hlt)
        have hnone : ((none : Option Nat) == none) = true := rfl
        have hsome : (some height == none) = false := rfl
        rw [Array.count_set, hget, hnone, hsome, if_pos rfl, if_neg Bool.false_ne_true]
        omega
      let heights := heights.set offset (some height)
      match b.fetch offset with
      | .instruction i =>
        match i.stackEffect? with
        | none => follow b pending heights errors
        | some effect =>
          if height < effect.pops then
            follow b pending heights (errors.push ⟨offset, .stackUnderflow i.opcode height⟩)
          else
            let after := height - effect.pops + effect.pushes
            let errors :=
              if i.opcode = .halt ∧ after ≠ 1 then errors.push ⟨offset, .haltDepth after⟩ else errors
            follow b ((successors ⟨offset, i⟩).map (·, after) ++ pending) heights errors
      | _ => follow b pending heights errors
  termination_by (heights.count none, pending.length)

/-- The height of the stack at every offset that is reached, with the errors found on the way. -/
def heights (b : Bytecode) (errors : Array ValidationError) : Array (Option Nat) × Array ValidationError :=
  b.follow [(0, 0)] (Array.replicate b.code.size none) errors

/-! ### All checks -/

/-- Whether the last instruction halts. -/
def terminatorErrors (placed : Array Placed) : List ValidationError :=
  match placed.back? with
  | some p => if p.instruction.opcode = .halt then [] else [⟨p.offset, .missingTerminator⟩]
  | none => [⟨0, .missingTerminator⟩]

/-- All defects of a program, in the order in which they are found; none if the program is valid. -/
def validationErrors (b : Bytecode) : List ValidationError :=
  let (placed, errors) := b.split
  let marks := b.starts placed
  let errors := collect (jumpDefect? marks) placed errors
  let errors := collect (fun p => operandDefect? b.constants p.instruction) placed errors
  let errors := if errors.isEmpty then (b.heights errors).2 else errors
  errors.toList ++ terminatorErrors placed

def validate (b : Bytecode) : Except (List ValidationError) Unit :=
  match b.validationErrors with
  | [] => .ok ()
  | errors => .error errors

end Bytecode

end TemplateExpr
