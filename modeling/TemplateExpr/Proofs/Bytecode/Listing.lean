import TemplateExpr.Bytecode.Listing
import TemplateExpr.Proofs.Validation.Splitting

/-!
# Everything that is read from code is read at the same places

Where the validator finds the code to be instructions one after another (`Splits`), these instructions are also

* (bytes) what the code consists of (`Splits.bytes_eq`);
* (opcodes) what is listed of the opcodes (`Splits.opcodesFrom_eq`);
* (listing) what has a line in the listing (`Splits.listFrom_eq`).
-/

namespace TemplateExpr.Bytecode

/-- What precedes the lines of the instructions in a listing. -/
def heading (b : Bytecode) : String :=
  (if b.constants.isEmpty then "" else "=== Constants ===\n" ++ b.poolLines ++ "\n") ++ "=== Instructions ===\n"

/-- The line of an instruction at its place. -/
def lineOf (b : Bytecode) (p : Placed) : String :=
  Text.decimal 4 p.offset ++ "  " ++ p.instruction.opcode.mnemonic ++ b.operandText p.stop p.instruction ++ "\n"

variable {b : Bytecode} {offset : Nat} {ps : List Placed}

/-- The first byte of an instruction is the code of its opcode. -/
theorem ofCode?_of_fetch {i : Instruction} (h : b.fetch offset = .instruction i) :
    ∃ byte, b.code[offset]? = some byte ∧ Opcode.ofCode? byte = some i.opcode := by
  have hbytes := (fetch_eq_instruction_iff b offset i).1 h
  refine ⟨i.opcode.code, ?_, Opcode.ofCode?_code _⟩
  obtain ⟨rest, hrest⟩ := hbytes
  rw [← Array.getElem?_toList, ← List.head?_drop, ← hrest]
  rfl

theorem line_of_fetch {i : Instruction} (h : b.fetch offset = .instruction i) :
    b.line offset =
      (Text.decimal 4 offset ++ "  " ++ i.opcode.mnemonic ++ b.operandText (offset + i.size) i, i.size) := by
  unfold line
  rw [h]

namespace Splits

/-- The code is the bytes of its instructions. -/
theorem bytes_eq (h : b.Splits offset ps) :
    b.code.toList.drop offset = ps.flatMap fun p => p.instruction.bytes := by
  induction h with
  | stop => exact List.drop_eq_nil_of_le (Nat.le_of_eq Array.length_toList)
  | @next offset i ps hfetch _ ih =>
    obtain ⟨rest, hrest⟩ := (fetch_eq_instruction_iff b offset i).1 hfetch
    have hdrop : rest = b.code.toList.drop (offset + i.size) := by
      rw [← List.drop_drop, ← hrest, List.drop_left' i.length_bytes]
    rw [← hrest, hdrop, ih, List.flatMap_cons]

theorem opcodesFrom_eq (h : b.Splits offset ps) (done : Array Opcode) :
    (b.opcodesFrom offset done).toList = done.toList ++ ps.map fun p => p.instruction.opcode := by
  induction h generalizing done with
  | stop =>
    unfold opcodesFrom
    split
    · simp
    · rename_i byte hbyte
      rw [Array.getElem?_eq_none (Nat.le_refl _)] at hbyte
      cases hbyte
  | @next offset i ps hfetch _ ih =>
    obtain ⟨byte, hbyte, hcode⟩ := ofCode?_of_fetch hfetch
    have hstop : offset + 1 + i.opcode.operandSize = offset + i.size := by
      rw [Instruction.size]
      omega
    unfold opcodesFrom
    split
    · rename_i hnone
      rw [hbyte] at hnone
      cases hnone
    · rename_i byte' hbyte'
      rw [hbyte] at hbyte'
      cases hbyte'
      split
      · rename_i hnone
        rw [hcode] at hnone
        cases hnone
      · rename_i o ho
        rw [hcode] at ho
        cases ho
        rw [hstop, ih, Array.toList_push, List.append_assoc]
        rfl

theorem listFrom_eq (h : b.Splits offset ps) (out : String) :
    b.listFrom offset out = ps.foldl (fun out p => out ++ b.lineOf p) out := by
  induction h generalizing out with
  | stop =>
    unfold listFrom
    rw [if_neg (Nat.lt_irrefl _)]
    rfl
  | @next offset i ps hfetch _ ih =>
    have hpos : max i.size 1 = i.size := Nat.max_eq_left (Nat.succ_le_succ (Nat.zero_le _))
    unfold listFrom
    rw [if_pos (offset_lt_of_fetch hfetch), line_of_fetch hfetch]
    dsimp only
    rw [hpos, ih, List.foldl_cons]
    simp only [lineOf, Placed.stop, String.append_assoc]

/-- The listing has a line for each instruction. -/
theorem listing_eq (h : b.Splits 0 ps) : b.listing = ps.foldl (fun out p => out ++ b.lineOf p) b.heading :=
  h.listFrom_eq b.heading

theorem opcodes_eq (h : b.Splits 0 ps) : b.opcodes.toList = ps.map fun p => p.instruction.opcode :=
  h.opcodesFrom_eq #[]

end Splits

end TemplateExpr.Bytecode
