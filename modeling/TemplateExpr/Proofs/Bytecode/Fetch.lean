import TemplateExpr.Bytecode.Basic

/-!
# Fetching an instruction

An instruction is fetched from an offset exactly if its bytes stand there (`fetch_eq_instruction_iff`). The span of an
entry in the debug table is found up to the place of the next entry (`spanAt?_of_later`).
-/

namespace TemplateExpr

/-- Reading the operand of an opcode gives back the bytes that were read. -/
theorem Instruction.of_ofBytes? {o : Opcode} {operand : List UInt8} {i : Instruction}
    (h : ofBytes? o operand = some i) : i.opcode = o ∧ i.operandBytes = operand := by
  obtain ⟨x, hx, rfl⟩ := Option.map_eq_some_iff.1 h
  exact ⟨rfl, OperandForm.encode_decode? hx⟩

namespace Bytecode

theorem toList_extract (b : Bytecode) (offset n : Nat) :
    (b.code.extract offset (offset + n)).toList = (b.code.toList.drop offset).take n := by
  rw [Array.toList_extract, List.extract_eq_take_drop, Nat.add_sub_cancel_left]

theorem fetch_eq_instruction_iff (b : Bytecode) (offset : Nat) (i : Instruction) :
    b.fetch offset = .instruction i ↔ i.bytes <+: b.code.toList.drop offset := by
  have hget : b.code[offset]? = (b.code.toList.drop offset).head? := by
    rw [List.head?_drop, Array.getElem?_toList]
  have hextract : ∀ n, (b.code.extract (offset + 1) (offset + 1 + n)).toList =
      ((b.code.toList.drop offset).drop 1).take n := by
    intro n
    rw [toList_extract, List.drop_drop]
  unfold fetch
  rw [hget]
  cases hl : b.code.toList.drop offset with
  | nil => simp [Instruction.bytes]
  | cons byte rest =>
    simp only [List.head?_cons, hextract, hl, List.drop_one, List.tail_cons]
    constructor
    · intro h
      split at h
      · cases h
      · -- the byte is an opcode, and its operand is read from what follows
        rename_i o ho
        split at h
        · rename_i j hj
          cases h
          obtain ⟨hop, hoperand⟩ := Instruction.of_ofBytes? hj
          rw [Instruction.bytes, hop, Opcode.code_of_ofCode? ho, hoperand]
          exact List.cons_prefix_cons.2 ⟨rfl, List.take_prefix _ _⟩
        · cases h
    · intro h
      obtain ⟨hbyte, hrest⟩ := List.cons_prefix_cons.1 h
      have htake : rest.take i.opcode.operandSize = i.operandBytes := by
        rw [← i.length_operandBytes]
        exact List.prefix_iff_eq_take.1 hrest |>.symm
      rw [← hbyte, Opcode.ofCode?_code]
      simp only [htake, Instruction.ofBytes?_operandBytes]

/-- An instruction that is fetched ends within the code. -/
theorem stop_le_of_fetch {b : Bytecode} {offset : Nat} {i : Instruction} (h : b.fetch offset = .instruction i) :
    offset + i.size ≤ b.code.size := by
  have hlen := ((fetch_eq_instruction_iff b offset i).1 h).length_le
  have hpos : 0 < i.size := Nat.succ_pos _
  simp only [Instruction.length_bytes, List.length_drop, Array.length_toList] at hlen
  omega

theorem offset_lt_of_fetch {b : Bytecode} {offset : Nat} {i : Instruction} (h : b.fetch offset = .instruction i) :
    offset < b.code.size := by
  have hstop := stop_le_of_fetch h
  have hpos : 0 < i.size := Nat.succ_pos _
  omega

/-- Something stands at every offset of the code. -/
theorem fetch_ne_outside {b : Bytecode} {offset : Nat} (h : offset < b.code.size) : b.fetch offset ≠ .outside := by
  intro hf
  unfold fetch at hf
  rw [Array.getElem?_eq_getElem h] at hf
  dsimp only at hf
  split at hf
  · cases hf
  · split at hf <;> cases hf

/-- The table is searched from its end, and the entries after the one that is found are about later code. -/
theorem spanAt?_of_later {b : Bytecode} {before more : List DebugEntry} {entry : DebugEntry} {offset : Nat}
    (hdebug : b.debug.toList = before ++ entry :: more) (hentry : entry.offset ≤ offset)
    (hmore : ∀ e ∈ more, offset < e.offset) : b.spanAt? offset = some entry.span := by
  have hlater : more.reverse.find? (fun e => decide (e.offset ≤ offset)) = none := by
    rw [List.find?_eq_none]
    intro e he hle
    exact Nat.not_le_of_lt (hmore e (List.mem_reverse.1 he)) (of_decide_eq_true hle)
  have hhere : decide (entry.offset ≤ offset) = true := decide_eq_true hentry
  unfold spanAt?
  rw [Array.findRev?_eq_find?_reverse, ← Array.find?_toList, Array.toList_reverse, hdebug, List.reverse_append,
    List.reverse_cons, List.append_assoc, List.find?_append, hlater, Option.none_or, List.singleton_append,
    List.find?_cons, hhere]
  rfl

end Bytecode

end TemplateExpr
