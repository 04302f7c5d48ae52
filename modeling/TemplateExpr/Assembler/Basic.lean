import TemplateExpr.Bytecode.Basic

/-!
# The assembler

The assembler takes directives one after another and builds bytecode from them. It keeps labels, patches jumps when
the places of their labels are known, and follows the height of the stack in one pass over the directives. Nothing
fails on the way: errors are collected, and `finish` reports them all.

A label has one height, the one that the first path to it brings; another path must bring the same. After an
unconditional jump the code cannot be reached until the next label is marked, which then sets the height to the
label's own, if a jump has given it one.
-/

namespace TemplateExpr

inductive AssemblyError where
  | stackUnderflow (opcode : Opcode) (offset needed depth : Nat)
  | stackMismatch (label expected found : Nat)
  | unmarkedLabel (label : Nat)
  | labelMarkedTwice (label : Nat)
  | jumpTooFar (offset : Nat) (distance : Int)
  | poolOverflow (limit : Nat)
  | operandRequired (opcode : Opcode)
  | tooManyArguments (count : Nat)
  | unknownFunction (code : UInt8)
  deriving DecidableEq

def AssemblyError.message : AssemblyError → String
  | stackUnderflow o offset needed depth =>
    "stack underflow: " ++ o.mnemonic ++ " at offset " ++ toString offset ++ " needs " ++ toString needed ++
      " value(s), depth is " ++ toString depth
  | stackMismatch l expected found =>
    "stack depth mismatch at label " ++ toString l ++ ": expected " ++ toString expected ++ ", found " ++
      toString found
  | unmarkedLabel l => "label " ++ toString l ++ " is jumped to but never marked"
  | labelMarkedTwice l => "label " ++ toString l ++ " marked twice"
  | jumpTooFar offset d =>
    "jump at offset " ++ toString offset ++ " spans " ++ toString d ++ " bytes, beyond i16 range"
  | poolOverflow limit => "constant pool overflow (limit " ++ toString limit ++ ")"
  | operandRequired o => o.mnemonic ++ " needs inline operands; use its dedicated emitter"
  | tooManyArguments n => "native call with " ++ toString n ++ " arguments exceeds the limit of 255"
  | unknownFunction f => "unknown runtime function 0x" ++ Text.hexadecimal 2 f.toNat

/-- The opcodes that jump to a label. -/
inductive JumpKind where
  | always
  | ifFalse
  | ifTrue
  deriving DecidableEq

def JumpKind.instruction (d : Int16) : JumpKind → Instruction
  | always => ⟨.jump, d⟩
  | ifFalse => ⟨.jumpIfFalse, d⟩
  | ifTrue => ⟨.jumpIfTrue, d⟩

/-- What the assembler can be told. Labels are numbered in the order in which they are made. -/
inductive Directive where
  /-- Emits an instruction without operand. -/
  | emit (opcode : Opcode)
  | pushNull
  | pushBool (b : Bool)
  | pushInt (n : Int64)
  | pushFloat (x : Float)
  | pushConstant (v : Value)
  /-- Calls a runtime function on as many values as its arity says. -/
  | invoke (function : RuntimeFunction)
  | getGlobal (name : String)
  | callNative (name : String) (count : Nat)
  | newList (capacity : UInt32)
  | newMap (capacity : UInt32)
  | newLabel
  /-- Places a label here. -/
  | mark (label : Nat)
  | jump (kind : JumpKind) (label : Nat)
  /-- Sets the span of the instructions that follow. -/
  | setSpan (span : Span)
  /-- Turns the recording of spans on or off. -/
  | setDebugInfo (enabled : Bool)

/-- Place of a label once it is marked, and the height of the stack there once a path to it is known. -/
structure LabelState where
  offset : Option Nat
  depth : Option Nat
  deriving DecidableEq, Inhabited

/-- A jump whose distance is still to be written at the offset of its operand. -/
structure Fixup where
  operand : Nat
  label : Nat
  deriving DecidableEq

structure Assembler where
  bytecode : Bytecode
  /-- Height of the stack here. -/
  depth : Nat
  /-- Greatest height so far. -/
  maxDepth : Nat
  /-- False after an unconditional jump until the next label is marked. -/
  reachable : Bool
  labels : Array LabelState
  fixups : Array Fixup
  errors : Array AssemblyError
  span : Span
  debugInfo : Bool
  deriving Inhabited

namespace Assembler

def new : Assembler := ⟨.empty, 0, 0, true, #[], #[], #[], .dummy, true⟩

/-- Offset of the next instruction. -/
def offset (a : Assembler) : Nat := a.bytecode.size

/-! ### Instructions -/

def report (a : Assembler) (e : AssemblyError) : Assembler := { a with errors := a.errors.push e }

/-- Emits the bytes of an instruction and notes its span. -/
def emitBytes (a : Assembler) (i : Instruction) : Assembler :=
  let span := a.span
  let debugInfo := a.debugInfo
  { a with bytecode := (if debugInfo then a.bytecode.note span else a.bytecode).emitBytes i.bytes }

/-- Applies an effect to the height. If there is too little on the stack, it counts as empty. -/
def applyEffect (a : Assembler) (e : StackEffect) : Assembler :=
  let depth := a.depth - e.pops + e.pushes
  { a with depth, maxDepth := max a.maxDepth depth }

/-- Emits an instruction and follows its effect. -/
def instruction (a : Assembler) (i : Instruction) : Assembler :=
  let offset := a.offset
  let a := a.emitBytes i
  match i.stackEffect? with
  | some effect =>
    let a := if a.depth < effect.pops then a.report (.stackUnderflow i.opcode offset effect.pops a.depth) else a
    a.applyEffect effect
  | none =>
    match i.operandBytes with
    | f :: _ => a.report (.unknownFunction f)
    | [] => a

def emit (a : Assembler) (o : Opcode) : Assembler :=
  match Instruction.ofBytes? o [] with
  | some i => a.instruction i
  | none => a.report (.operandRequired o)

/-! ### Constants -/

/-- The pool holds as many constants as a word can name. -/
def poolLimit : Nat := UInt16.size

/-- Adds a constant to the pool and gives its position; a pool that is full stays as it is. -/
def addConstant (a : Assembler) (v : Value) : Assembler × UInt16 :=
  if a.bytecode.constants.size < poolLimit then
    let index := a.bytecode.nextIndex
    ({ a with bytecode := a.bytecode.addConstant v }, index)
  else (a.report (.poolOverflow poolLimit), 0)

def pushInt (a : Assembler) (n : Int64) : Assembler :=
  let (a, index) := a.addConstant (.int n)
  a.instruction ⟨.constInt, index⟩

def pushFloat (a : Assembler) (x : Float) : Assembler :=
  let (a, index) := a.addConstant (.float x)
  a.instruction ⟨.constFloat, index⟩

def pushConstant (a : Assembler) (v : Value) : Assembler :=
  let (a, index) := a.addConstant v
  a.instruction ⟨.constant, index⟩

def getGlobal (a : Assembler) (name : String) : Assembler :=
  let (a, index) := a.addConstant (.string name)
  a.instruction ⟨.getGlobal, index⟩

def callNative (a : Assembler) (name : String) (count : Nat) : Assembler :=
  if count < 256 then
    let (a, index) := a.addConstant (.string name)
    a.instruction ⟨.callNative, index, UInt8.ofNat count⟩
  else a.report (.tooManyArguments count)

/-! ### Labels and jumps -/

/-- Makes new labels. -/
def newLabels (a : Assembler) (count : Nat) : Assembler :=
  { a with labels := a.labels ++ Array.replicate count ⟨none, none⟩ }

/-- Notes the height that a path brings to a label. -/
def mergeDepth (a : Assembler) (label depth : Nat) : Assembler :=
  match a.labels[label]? with
  | some ⟨offset, none⟩ => { a with labels := a.labels.setIfInBounds label ⟨offset, some depth⟩ }
  | some ⟨_, some expected⟩ => if expected = depth then a else a.report (.stackMismatch label expected depth)
  | none => a

def mark (a : Assembler) (label : Nat) : Assembler :=
  match a.labels[label]? with
  | some ⟨none, depth⟩ =>
    let offset := a.offset
    let a := { a with labels := a.labels.setIfInBounds label ⟨some offset, depth⟩ }
    let a := if a.reachable then a.mergeDepth label a.depth else { a with depth := depth.getD a.depth }
    { a with reachable := true }
  | some ⟨some _, _⟩ => a.report (.labelMarkedTwice label)
  | none => a

def jump (a : Assembler) (kind : JumpKind) (label : Nat) : Assembler :=
  let operand := a.offset + 1
  let a := a.instruction (kind.instruction 0)
  let a := { a with fixups := a.fixups.push ⟨operand, label⟩ }
  let a := a.mergeDepth label a.depth
  { a with reachable := a.reachable && kind != .always }

/-! ### Directives -/

def apply (a : Assembler) : Directive → Assembler
  | .emit o => a.emit o
  | .pushNull => a.emit .pushNull
  | .pushBool b => a.emit (if b then .pushTrue else .pushFalse)
  | .pushInt n => a.pushInt n
  | .pushFloat x => a.pushFloat x
  | .pushConstant v => a.pushConstant v
  | .invoke f => a.instruction ⟨.invoke, f.code⟩
  | .getGlobal name => a.getGlobal name
  | .callNative name count => a.callNative name count
  | .newList capacity => a.instruction ⟨.newList, capacity⟩
  | .newMap capacity => a.instruction ⟨.newMap, capacity⟩
  | .newLabel => a.newLabels 1
  | .mark label => a.mark label
  | .jump kind label => a.jump kind label
  | .setSpan span => { a with span }
  | .setDebugInfo enabled => { a with debugInfo := enabled }

def run (a : Assembler) (ds : List Directive) : Assembler := ds.foldl apply a

/-! ### Finishing -/

/-- Writes the distance of a jump, or says why it cannot be written. -/
def resolve (a : Assembler) (f : Fixup) : Assembler :=
  match a.labels[f.label]? with
  | some ⟨some target, _⟩ =>
    let distance : Int := (target : Int) - (f.operand + 2)
    if -0x8000 ≤ distance ∧ distance < 0x8000 then
      { a with bytecode := a.bytecode.patchDistance f.operand (Int16.ofInt distance) }
    else a.report (.jumpTooFar (f.operand - 1) distance)
  | _ => if AssemblyError.unmarkedLabel f.label ∈ a.errors then a else a.report (.unmarkedLabel f.label)

/-- Halts and writes the distances of all jumps. -/
def close (a : Assembler) : Assembler :=
  let a := a.emit .halt
  a.fixups.foldl resolve a

/-- The program, or everything that is wrong with it. -/
def finish (a : Assembler) : Except (List AssemblyError) Bytecode :=
  let a := a.close
  if a.errors.isEmpty then .ok a.bytecode else .error a.errors.toList

end Assembler

end TemplateExpr
