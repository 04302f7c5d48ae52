import TemplateExpr.Instruction.Opcode

/-!
# Instructions and their bytes

An instruction is an opcode with an operand of its form. Its encoding is the code byte followed by the bytes of the
operand, the most significant first.

`decode?_encode` says that every operand is read back from its bytes, and `encode_decode?` that only its own bytes
are read as that operand.
-/

namespace TemplateExpr

namespace OperandForm

/-- The operands of a form. -/
abbrev Operand : OperandForm → Type
  | none => Unit
  | function => UInt8
  | index => UInt16
  | distance => Int16
  | call => UInt16 × UInt8
  | capacity => UInt32

/-- The two bytes of a word. -/
def wordBytes (n : UInt16) : List UInt8 := [UInt8.ofNat (n.toNat / 256), UInt8.ofNat n.toNat]

def word (high low : UInt8) : UInt16 := UInt16.ofNat (256 * high.toNat + low.toNat)

/-- The four bytes of a double word. -/
def doubleBytes (n : UInt32) : List UInt8 :=
  [UInt8.ofNat (n.toNat / 16777216), UInt8.ofNat (n.toNat / 65536), UInt8.ofNat (n.toNat / 256),
    UInt8.ofNat n.toNat]

def double (a b c d : UInt8) : UInt32 :=
  UInt32.ofNat (256 * (256 * (256 * a.toNat + b.toNat) + c.toNat) + d.toNat)

def encode : (form : OperandForm) → form.Operand → List UInt8
  | none, _ => []
  | function, f => [f]
  | index, i => wordBytes i
  | distance, d => wordBytes d.toUInt16
  | call, (i, count) => wordBytes i ++ [count]
  | capacity, n => doubleBytes n

/-- Reads an operand that fills all the bytes. -/
def decode? : (form : OperandForm) → List UInt8 → Option form.Operand
  | none, [] => some ()
  | function, [f] => some f
  | index, [a, b] => some (word a b)
  | distance, [a, b] => some (word a b).toInt16
  | call, [a, b, count] => some (word a b, count)
  | capacity, [a, b, c, d] => some (double a b c d)
  | _, _ => Option.none

theorem word_wordBytes (n : UInt16) : word (UInt8.ofNat (n.toNat / 256)) (UInt8.ofNat n.toNat) = n := by
  have := n.toNat_lt
  apply UInt16.toNat_inj.mp
  simp [word]
  omega

theorem wordBytes_word (a b : UInt8) : wordBytes (word a b) = [a, b] := by
  have := a.toNat_lt
  have := b.toNat_lt
  have h : (word a b).toNat = 256 * a.toNat + b.toNat := by
    simp only [word, UInt16.toNat_ofNat']
    omega
  simp only [wordBytes, h, List.cons.injEq, and_true]
  constructor <;> (apply UInt8.toNat_inj.mp; simp only [UInt8.toNat_ofNat']; omega)

theorem double_doubleBytes (n : UInt32) :
    double (UInt8.ofNat (n.toNat / 16777216)) (UInt8.ofNat (n.toNat / 65536)) (UInt8.ofNat (n.toNat / 256))
      (UInt8.ofNat n.toNat) = n := by
  have := n.toNat_lt
  apply UInt32.toNat_inj.mp
  simp [double]
  omega

theorem doubleBytes_double (a b c d : UInt8) : doubleBytes (double a b c d) = [a, b, c, d] := by
  have := a.toNat_lt
  have := b.toNat_lt
  have := c.toNat_lt
  have := d.toNat_lt
  have h : (double a b c d).toNat = 256 * (256 * (256 * a.toNat + b.toNat) + c.toNat) + d.toNat := by
    simp only [double, UInt32.toNat_ofNat']
    omega
  simp only [doubleBytes, h, List.cons.injEq, and_true]
  refine ⟨?_, ?_, ?_, ?_⟩ <;> (apply UInt8.toNat_inj.mp; simp only [UInt8.toNat_ofNat']; omega)

@[simp] theorem length_encode (form : OperandForm) (x : form.Operand) : (form.encode x).length = form.size := by
  cases form <;> rfl

theorem decode?_encode (form : OperandForm) (x : form.Operand) : form.decode? (form.encode x) = some x := by
  cases form with
  | none => rfl
  | function => rfl
  | index => simp only [encode, decode?, wordBytes, word_wordBytes]
  | distance => simp only [encode, decode?, wordBytes, word_wordBytes, Int16.toInt16_toUInt16]
  | call => simp only [encode, decode?, wordBytes, List.cons_append, List.nil_append, word_wordBytes]
  | capacity => simp only [encode, decode?, doubleBytes, double_doubleBytes]

theorem encode_decode? {form : OperandForm} {bytes : List UInt8} {x : form.Operand}
    (h : form.decode? bytes = some x) : form.encode x = bytes := by
  unfold decode? at h
  split at h
  · rfl
  · cases h; rfl
  · cases h; exact wordBytes_word _ _
  · cases h; simp only [encode, UInt16.toUInt16_toInt16, wordBytes_word]
  · cases h; simp only [encode, wordBytes_word, List.cons_append, List.nil_append]
  · cases h; exact doubleBytes_double _ _ _ _
  · cases h

end OperandForm

/-- An opcode with an operand of its form. -/
structure Instruction where
  opcode : Opcode
  operand : opcode.operandForm.Operand

namespace Instruction

def operandBytes (i : Instruction) : List UInt8 := i.opcode.operandForm.encode i.operand

def bytes (i : Instruction) : List UInt8 := i.opcode.code :: i.operandBytes

/-- Number of bytes. -/
def size (i : Instruction) : Nat := i.opcode.operandSize + 1

def stackEffect? (i : Instruction) : Option StackEffect := i.opcode.stackEffect? i.operandBytes

/-- The instruction of an opcode and the bytes of its operand. -/
def ofBytes? (o : Opcode) (operand : List UInt8) : Option Instruction :=
  (o.operandForm.decode? operand).map fun x => ⟨o, x⟩

@[simp] theorem length_operandBytes (i : Instruction) : i.operandBytes.length = i.opcode.operandSize := by
  simp [operandBytes, Opcode.operandSize]

@[simp] theorem length_bytes (i : Instruction) : i.bytes.length = i.size := by
  simp [bytes, size]

theorem ofBytes?_operandBytes (i : Instruction) : ofBytes? i.opcode i.operandBytes = some i := by
  simp [ofBytes?, operandBytes, OperandForm.decode?_encode]

end Instruction

end TemplateExpr
