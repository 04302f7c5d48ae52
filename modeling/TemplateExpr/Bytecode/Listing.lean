import TemplateExpr.Bytecode.Basic
import TemplateExpr.Text

/-!
# Listings

A listing shows the constants of a program and one line for each instruction, with its offset and with its operand
in readable form. A byte that is no opcode has a line of its own, and the operand of an instruction that is cut off
at the end of the code is read as if zeros followed.
-/

namespace TemplateExpr.Bytecode

/-- Text of a constant: strings in quotes, floats so that they show as floats. -/
def constantText : Value → String
  | .string s => "\"" ++ s ++ "\""
  | .float x => Binary64.listing x
  | v => v.text

private def poolText (b : Bytecode) (i : UInt16) : String :=
  match b.constants[i.toNat]? with
  | some v => constantText v
  | none => "?"

private def nameText (b : Bytecode) (i : UInt16) : String :=
  match b.constants[i.toNat]? with
  | some (.string s) => s
  | _ => "?"

/-- Operand of an instruction that ends at an offset. -/
def operandText (b : Bytecode) (stop : Nat) (i : Instruction) : String :=
  match i.opcode.operandForm, i.operand with
  | .none, _ => ""
  | .function, (f : UInt8) =>
    match RuntimeFunction.ofCode? f with
    | some f => " " ++ f.name
    | none => " <unknown 0x" ++ Text.hexadecimal 2 f.toNat ++ ">"
  | .index, (n : UInt16) => " " ++ toString n.toNat ++ " (" ++ poolText b n ++ ")"
  | .distance, (d : Int16) =>
    " " ++ toString d.toInt ++ " (-> " ++ Text.decimal 4 ((stop : Int) + d.toInt) ++ ")"
  | .call, ((n, count) : UInt16 × UInt8) => " " ++ nameText b n ++ "/" ++ toString count.toNat
  | .capacity, (n : UInt32) => " " ++ toString n.toNat

/-- An operand with zeros for the bytes that are missing. -/
def zeroFilled (o : Opcode) (operand : List UInt8) : List UInt8 :=
  operand ++ List.replicate (o.operandSize - operand.length) 0

/-- Line of the instruction or byte at an offset, and the number of bytes that it stands for. -/
def line (b : Bytecode) (offset : Nat) : String × Nat :=
  let start := Text.decimal 4 offset ++ "  "
  match b.fetch offset with
  | .outside => ("", 1)
  | .unknown byte => (start ++ "<invalid opcode: 0x" ++ Text.hexadecimal 2 byte.toNat ++ ">", 1)
  | .instruction i => (start ++ i.opcode.mnemonic ++ b.operandText (offset + i.size) i, i.size)
  | .truncated o operand =>
    match Instruction.ofBytes? o (zeroFilled o operand) with
    | some i => (start ++ o.mnemonic ++ b.operandText (offset + i.size) i, i.size)
    | none => (start ++ o.mnemonic, o.operandSize + 1)

/-- Adds the lines of the code from an offset on. -/
def listFrom (b : Bytecode) (offset : Nat) (out : String) : String :=
  if offset < b.code.size then
    let (text, n) := b.line offset
    listFrom b (offset + max n 1) (out ++ text ++ "\n")
  else out
  termination_by b.code.size - offset

/-- The pool, one constant to a line. -/
def poolLines (b : Bytecode) : String :=
  (b.constants.foldl (fun (out, i) v => (out ++ toString i ++ ": " ++ constantText v ++ "\n", i + 1))
    ("", (0 : Nat))).1

def listing (b : Bytecode) : String :=
  let pool := if b.constants.isEmpty then "" else "=== Constants ===\n" ++ b.poolLines ++ "\n"
  b.listFrom 0 (pool ++ "=== Instructions ===\n")

/-- Opcodes in the order of the code from an offset on, up to the first byte that is none; `done` holds those
before. -/
def opcodesFrom (b : Bytecode) (offset : Nat) (done : Array Opcode) : Array Opcode :=
  match h : b.code[offset]? with
  | none => done
  | some byte =>
    match Opcode.ofCode? byte with
    | none => done
    | some o =>
      have : offset < b.code.size := (Array.getElem?_eq_some_iff.mp h).1
      opcodesFrom b (offset + 1 + o.operandSize) (done.push o)
  termination_by b.code.size - offset

def opcodes (b : Bytecode) : Array Opcode := b.opcodesFrom 0 #[]

end TemplateExpr.Bytecode
