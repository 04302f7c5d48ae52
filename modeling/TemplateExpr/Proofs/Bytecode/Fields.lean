import TemplateExpr.Bytecode.Listing
import TemplateExpr.Proofs.Bytecode.Fetch
import TemplateExpr.Proofs.Machine.Step

/-!
# Reading code field by field

The validator takes the bytes of an operand out of the code in one piece (`fetch`). The machine and the listing go along
the code instead, over the opcode and then over one field of the operand after the other. On every code this comes to
the same, also where an instruction is cut off.

* (machine) The machine fails where the code ends within a field. In a native call it looks up the name before it goes
  on to the number of arguments (`machineRead`). It executes the instruction that it reads (`step_eq_machineRead`).
* (listing) The listing reads zeros beyond the code (`listingRead`). Its line shows the instruction that it reads
  (`line_eq_listingRead`).
-/

namespace TemplateExpr

namespace Bytecode

/-! ### The readers -/

def machineOpcode (b : Bytecode) (ip : Nat) : Except Fault (Opcode × Nat) :=
  match b.code[ip]?.bind Opcode.ofCode? with
  | some o => .ok (o, ip + 1)
  | none => .error .unknownOpcode

/-- Reads a field of a number of bytes, all of which must be there. -/
def machineField (b : Bytecode) (ip : Nat) (form : OperandForm) : Except Fault (form.Operand × Nat) :=
  match form.decode? (b.code.extract ip (ip + form.size)).toList with
  | some x => .ok (x, ip + form.size)
  | none => .error (.operand .truncated)

def machineOperand (b : Bytecode) (ip : Nat) : (form : OperandForm) → Except Fault (form.Operand × Nat)
  | .call => do
    let (index, ip) ← b.machineField ip .index
    -- a bad name is found before the number of arguments is missed
    let _ ← b.nameAt index
    let (count, ip) ← b.machineField ip .function
    .ok ((index, count), ip)
  | form => b.machineField ip form

/-- How the machine reads an instruction. It goes on after it. -/
def machineRead (b : Bytecode) (ip : Nat) : Except Fault (Instruction × Nat) := do
  let (o, ip) ← b.machineOpcode ip
  let (x, ip) ← b.machineOperand ip o.operandForm
  .ok (⟨o, x⟩, ip)

def listingByte (b : Bytecode) (offset : Nat) : UInt8 × Nat := (b.code[offset]?.getD 0, offset + 1)

def listingWord (b : Bytecode) (offset : Nat) : UInt16 × Nat :=
  let (high, offset) := b.listingByte offset
  let (low, offset) := b.listingByte offset
  (OperandForm.word high low, offset)

def listingDouble (b : Bytecode) (offset : Nat) : UInt32 × Nat :=
  let (high, offset) := b.listingWord offset
  let (low, offset) := b.listingWord offset
  (UInt32.ofNat (65536 * high.toNat + low.toNat), offset)

def listingOperand (b : Bytecode) (offset : Nat) : (form : OperandForm) → form.Operand × Nat
  | .none => ((), offset)
  | .function => b.listingByte offset
  | .index => b.listingWord offset
  | .distance =>
    let (n, offset) := b.listingWord offset
    (n.toInt16, offset)
  | .call =>
    let (index, offset) := b.listingWord offset
    let (count, offset) := b.listingByte offset
    ((index, count), offset)
  | .capacity => b.listingDouble offset

/-- How the listing reads an instruction, or a byte that is no opcode. It goes on after it. -/
def listingRead (b : Bytecode) (offset : Nat) : Except UInt8 Instruction × Nat :=
  let (byte, offset) := b.listingByte offset
  match Opcode.ofCode? byte with
  | none => (.error byte, offset)
  | some o =>
    let (x, offset) := b.listingOperand offset o.operandForm
    (.ok ⟨o, x⟩, offset)

variable {b : Bytecode} {ip offset : Nat} {i : Instruction} {o : Opcode} {form : OperandForm}

/-! ### The machine -/

/-- What the machine looks up while it reads an instruction. -/
def lookUp (b : Bytecode) (i : Instruction) : Except Fault Unit :=
  match i with
  | ⟨.callNative, index, _⟩ => (b.nameAt index).map fun _ => ()
  | _ => .ok ()

private theorem machineOperand_of_ne (h : form ≠ .call) : b.machineOperand ip form = b.machineField ip form := by
  cases form
  case call => exact absurd rfl h
  all_goals rfl

private theorem of_ne_callNative (h : o ≠ .callNative) :
    o.operandForm ≠ .call ∧ (∀ operand, b.truncationFault o operand = .operand .truncated) ∧
      ∀ x, b.lookUp ⟨o, x⟩ = .ok () := by
  cases o
  case callNative => exact absurd rfl h
  all_goals exact ⟨nofun, fun _ => rfl, fun _ => rfl⟩

private theorem machineField_eq (b : Bytecode) (ip : Nat) (form : OperandForm) :
    b.machineField ip form =
      match form.decode? ((b.code.toList.drop ip).take form.size) with
      | some x => .ok (x, ip + form.size)
      | none => .error (.operand .truncated) := by
  rw [machineField, toList_extract]

/-- What comes of the operand of a native call that is read field by field. -/
private theorem machineOperand_call (b : Bytecode) (ip : Nat) :
    b.machineOperand ip .call =
      match OperandForm.decode? .call ((b.code.toList.drop ip).take 3) with
      | some x => (b.nameAt x.1).map fun _ => (x, ip + 3)
      | none => .error (b.truncationFault .callNative ((b.code.toList.drop ip).take 3)) := by
  have hindex := b.machineField_eq ip .index
  have hcount := b.machineField_eq (ip + 2) .function
  rw [← List.drop_drop] at hcount
  rw [machineOperand]
  cases hl : b.code.toList.drop ip with
  | nil =>
    rw [hl] at hindex
    rw [hindex]
    rfl
  | cons high rest =>
    cases rest with
    | nil =>
      rw [hl] at hindex
      rw [hindex]
      rfl
    | cons low rest =>
      rw [hl] at hindex hcount
      rw [hindex]
      change (b.nameAt (OperandForm.word high low) >>= fun _ => b.machineField (ip + 2) .function >>= fun r =>
        .ok ((OperandForm.word high low, r.1), r.2)) = _
      rw [hcount]
      cases rest with
      | nil =>
        change _ = Except.error (b.truncationFault .callNative [high, low])
        rw [truncationFault]
        cases b.nameAt (OperandForm.word high low) <;> rfl
      | cons count rest =>
        change _ = (b.nameAt (OperandForm.word high low)).map fun _ => ((OperandForm.word high low, count), ip + 3)
        cases b.nameAt (OperandForm.word high low) <;> rfl

/-- The machine reads an operand as if it took it out of the code in one piece. -/
private theorem machineOperand_eq (b : Bytecode) (ip : Nat) (o : Opcode) :
    (b.machineOperand ip o.operandForm >>= fun r => .ok ((⟨o, r.1⟩ : Instruction), r.2)) =
      match Instruction.ofBytes? o (b.code.extract ip (ip + o.operandSize)).toList with
      | some i => (b.lookUp i).map fun _ => (i, ip + o.operandSize)
      | none => .error (b.truncationFault o (b.code.extract ip (ip + o.operandSize)).toList) := by
  rw [toList_extract]
  by_cases hcall : o = .callNative
  · subst hcall
    have hbytes : ∀ l, Instruction.ofBytes? .callNative l =
        (OperandForm.decode? .call l).map fun x => (⟨.callNative, x⟩ : Instruction) := fun _ => rfl
    simp only [Opcode.operandSize, Opcode.operandForm, OperandForm.size, b.machineOperand_call ip, hbytes]
    cases OperandForm.decode? .call ((b.code.toList.drop ip).take 3) with
    | none => rfl
    | some x =>
      change ((b.nameAt x.1).map (fun _ => (x, ip + 3)) >>= _) = ((b.nameAt x.1).map fun _ => ()).map _
      cases b.nameAt x.1 <;> rfl
  · obtain ⟨hform, hfault, hlookUp⟩ := of_ne_callNative (b := b) hcall
    rw [machineOperand_of_ne hform, machineField_eq, Instruction.ofBytes?, hfault, Opcode.operandSize]
    cases o.operandForm.decode? ((b.code.toList.drop ip).take o.operandForm.size) with
    | none => rfl
    | some x =>
      change _ = (b.lookUp ⟨o, x⟩).map _
      rw [hlookUp]
      rfl

/-- The machine reads what is fetched. -/
theorem machineRead_eq (b : Bytecode) (ip : Nat) :
    b.machineRead ip = match b.fetch ip with
      | .outside | .unknown _ => .error .unknownOpcode
      | .truncated o operand => .error (b.truncationFault o operand)
      | .instruction i => (b.lookUp i).map fun _ => (i, ip + i.size) := by
  unfold machineRead machineOpcode fetch
  cases b.code[ip]? with
  | none => rfl
  | some byte =>
    simp only [Option.bind_some]
    cases ho : Opcode.ofCode? byte with
    | none => rfl
    | some o =>
      change (b.machineOperand (ip + 1) o.operandForm >>= fun r => .ok ((⟨o, r.1⟩ : Instruction), r.2)) = _
      rw [machineOperand_eq]
      dsimp only
      cases hi : Instruction.ofBytes? o (b.code.extract (ip + 1) (ip + 1 + o.operandSize)).toList with
      | none => rfl
      | some i =>
        have hstop : ip + 1 + o.operandSize = ip + i.size := by
          rw [Instruction.size, (Instruction.of_ofBytes? hi).1]
          omega
        rw [hstop]

theorem machineRead_of_fetch (h : b.fetch ip = .instruction i) (hlookUp : b.lookUp i = .ok ()) :
    b.machineRead ip = .ok (i, ip + i.size) := by
  rw [machineRead_eq, h]
  dsimp only
  rw [hlookUp]
  rfl

/-- What is looked up while an instruction is read is the first thing that it needs. -/
theorem lookUp_execute (c : Context) (stop : Nat) (s : Stack) (i : Instruction) :
    (c.bytecode.lookUp i >>= fun _ => i.execute c stop s) = i.execute c stop s := by
  obtain ⟨o, x⟩ := i
  by_cases hcall : o = .callNative
  · subst hcall
    have hexec : Instruction.execute c stop s ⟨.callNative, x⟩ = (c.bytecode.nameAt x.1 >>= fun name =>
        s.popValues (UInt8.toNat x.2) >>= fun r => .ok (Action.call name r.1 r.2 stop)) := rfl
    rw [hexec]
    change ((c.bytecode.nameAt x.1).map (fun _ => ()) >>= _) = _
    cases c.bytecode.nameAt x.1 <;> rfl
  · rw [(of_ne_callNative hcall).2.2]
    rfl

/-! ### The listing -/

private theorem listingByte_eq (b : Bytecode) (offset : Nat) :
    b.listingByte offset = ((b.code.toList.drop offset).head?.getD 0, offset + 1) := by
  rw [listingByte, List.head?_drop, Array.getElem?_toList]

private theorem double_eq (x y z w : UInt8) :
    UInt32.ofNat (65536 * (OperandForm.word x y).toNat + (OperandForm.word z w).toNat) = OperandForm.double x y z w := by
  have hx := x.toNat_lt
  have hy := y.toNat_lt
  have hz := z.toNat_lt
  have hw := w.toNat_lt
  have hword : ∀ u v : UInt8, u.toNat < 256 → v.toNat < 256 →
      (OperandForm.word u v).toNat = 256 * u.toNat + v.toNat := by
    intro u v hu hv
    simp only [OperandForm.word, UInt16.toNat_ofNat']
    omega
  rw [OperandForm.double, hword x y hx hy, hword z w hz hw]
  congr 1
  omega

/-- The listing reads an operand as if zeros followed the code. -/
private theorem listingOperand_eq (b : Bytecode) (offset : Nat) (form : OperandForm) :
    (form.decode? ((b.code.toList.drop offset).take form.size ++
        List.replicate (form.size - ((b.code.toList.drop offset).take form.size).length) 0)).map
      (fun x => (x, offset + form.size)) = some (b.listingOperand offset form) := by
  cases form
  all_goals
    simp only [listingOperand, listingDouble, listingWord, listingByte_eq, OperandForm.size, double_eq, ← List.drop_drop]
  all_goals
    rcases b.code.toList.drop offset with _ | ⟨x, _ | ⟨y, _ | ⟨z, _ | ⟨t, rest⟩⟩⟩⟩ <;> rfl

/-- Nothing is filled in if the operand is complete. -/
private theorem zeroFilled_of_ofBytes? {operand : List UInt8} (h : Instruction.ofBytes? o operand = some i) :
    zeroFilled o operand = operand := by
  obtain ⟨rfl, rfl⟩ := Instruction.of_ofBytes? h
  rw [zeroFilled, Instruction.length_operandBytes, Nat.sub_self]
  exact List.append_nil _

/-- The operand that the listing reads is that of the bytes with zeros filled in. -/
private theorem ofBytes?_zeroFilled (b : Bytecode) (offset : Nat) (o : Opcode) :
    Instruction.ofBytes? o (zeroFilled o (b.code.extract offset (offset + o.operandSize)).toList) =
        some ⟨o, (b.listingOperand offset o.operandForm).1⟩ ∧
      (b.listingOperand offset o.operandForm).2 = offset + o.operandSize := by
  obtain ⟨x, hx, heq⟩ := Option.map_eq_some_iff.1 (b.listingOperand_eq offset o.operandForm)
  rw [toList_extract, ← heq]
  exact ⟨congrArg (Option.map _) hx, rfl⟩

/-- At an opcode, the listing reads the instruction of the bytes with zeros filled in. -/
private theorem exists_listingRead (h : offset < b.code.size) (ho : Opcode.ofCode? b.code[offset] = some o) :
    ∃ i, Instruction.ofBytes? o (zeroFilled o (b.code.extract (offset + 1) (offset + 1 + o.operandSize)).toList) =
      some i ∧ b.listingRead offset = (.ok i, offset + i.size) := by
  obtain ⟨hbytes, hstop⟩ := b.ofBytes?_zeroFilled (offset + 1) o
  have hsize : offset + 1 + o.operandSize = offset + (o.operandSize + 1) := by omega
  refine ⟨_, hbytes, ?_⟩
  unfold listingRead listingByte
  rw [Array.getElem?_eq_getElem h]
  dsimp only [Option.getD_some]
  rw [ho]
  dsimp only
  rw [hstop, hsize]
  rfl

/-- A line shows what the listing reads. -/
theorem line_eq_listingRead (h : offset < b.code.size) :
    b.line offset = match b.listingRead offset with
      | (.error byte, stop) =>
        (Text.decimal 4 offset ++ "  " ++ "<invalid opcode: 0x" ++ Text.hexadecimal 2 byte.toNat ++ ">", stop - offset)
      | (.ok i, stop) =>
        (Text.decimal 4 offset ++ "  " ++ i.opcode.mnemonic ++ b.operandText stop i, stop - offset) := by
  cases ho : Opcode.ofCode? b.code[offset] with
  | none =>
    unfold line listingRead listingByte fetch
    rw [Array.getElem?_eq_getElem h]
    dsimp only [Option.getD_some]
    rw [ho]
    simp only [Nat.add_sub_cancel_left]
  | some o =>
    obtain ⟨i, hbytes, hread⟩ := exists_listingRead h ho
    obtain ⟨rfl, -⟩ := Instruction.of_ofBytes? hbytes
    unfold line fetch
    rw [hread, Array.getElem?_eq_getElem h]
    dsimp only
    rw [ho, Nat.add_sub_cancel_left]
    dsimp only
    -- the operand is complete, or it is filled up
    cases hi : Instruction.ofBytes? i.opcode
        (b.code.extract (offset + 1) (offset + 1 + i.opcode.operandSize)).toList with
    | none =>
      dsimp only
      rw [hbytes]
    | some j =>
      rw [zeroFilled_of_ofBytes? hi, hi] at hbytes
      cases hbytes
      rfl

theorem listingRead_of_fetch (h : b.fetch offset = .instruction i) :
    b.listingRead offset = (.ok i, offset + i.size) := by
  have hlt := offset_lt_of_fetch h
  unfold fetch at h
  rw [Array.getElem?_eq_getElem hlt] at h
  dsimp only at h
  split at h
  · cases h
  · rename_i o ho
    obtain ⟨j, hbytes, hread⟩ := exists_listingRead hlt ho
    split at h
    · rename_i i hi
      cases h
      rw [zeroFilled_of_ofBytes? hi, hi] at hbytes
      cases hbytes
      exact hread
    · cases h

end Bytecode

namespace Context

variable {σ : Type}

/-- A step executes the instruction that the machine reads. -/
theorem step_eq_machineRead (c : Context) (natives : String → Option (Native σ)) (s : State σ) :
    c.step natives s = match c.bytecode.machineRead s.ip >>= fun r => r.1.execute c r.2 s.stack with
      | .error f => .done (.error ⟨f, c.spanAt s.ip⟩) ⟨.empty, s.ip, s.ip, s.host, s.calls⟩
      | .ok (.next stack ip) => .running ⟨stack, ip, s.ip, s.host, s.calls⟩
      | .ok (.call name arguments stack ip) => c.callNative natives s.ip name arguments stack ip s.host s.calls
      | .ok (.halt v) => .done (.ok v) ⟨.empty, s.ip, s.ip, s.host, s.calls⟩ := by
  rw [Bytecode.machineRead_eq]
  cases hfetch : c.bytecode.fetch s.ip with
  | instruction i =>
    have hread : ((c.bytecode.lookUp i).map (fun _ => (i, s.ip + i.size)) >>= fun r => r.1.execute c r.2 s.stack) =
        i.execute c (s.ip + i.size) s.stack := by
      rw [← Bytecode.lookUp_execute]
      cases c.bytecode.lookUp i <;> rfl
    dsimp only
    rw [hread]
    exact step_instruction natives hfetch
  | _ =>
    rw [step_fault natives (by rw [Bytecode.fetchFault?, hfetch])]
    rfl

end Context

end TemplateExpr
