import TemplateExpr.Machine.Execute
import TemplateExpr.Proofs.Assembler.Growth
import TemplateExpr.Proofs.Bytecode.Fetch

/-!
# What stands in the finished program

When an assembler closes without errors, the distances of all jumps are written (`patches_middle`) and nothing else
changes (`patches_foldl`). So a program holds, at the place where an instruction was emitted,

* the instruction, if it is not a jump (`Closes.fetch_instruction`);
* a jump of the same kind to the place of its label, if it is one (`Closes.fetch_jump`);
* the constant that it names (`Closes.constant_addConstant`) and the span under which it was emitted (`Closes.spanAt?`).
-/

namespace TemplateExpr

namespace Bytecode

/-- Overwriting a distance leaves the other bytes. -/
theorem getElem?_patchDistance_ne (b : Bytecode) {offset k : Nat} (d : Int16) (h : k ≠ offset)
    (h' : k ≠ offset + 1) : (b.patchDistance offset d).code[k]? = b.code[k]? := by
  change ((b.code.setIfInBounds offset _).setIfInBounds (offset + 1) _)[k]? = _
  rw [Array.getElem?_setIfInBounds_ne h'.symm, Array.getElem?_setIfInBounds_ne h.symm]

/-- Overwriting a distance writes its two bytes. -/
theorem getElem?_patchDistance (b : Bytecode) {offset : Nat} (d : Int16) (h : offset + 2 ≤ b.code.size) (k : Nat)
    (hk : k < 2) : (b.patchDistance offset d).code[offset + k]? = (OperandForm.distance.encode d)[k]? := by
  change ((b.code.setIfInBounds offset _).setIfInBounds (offset + 1) _)[offset + k]? = _
  match k, hk with
  | 0, _ =>
    change ((b.code.setIfInBounds offset _).setIfInBounds (offset + 1) _)[offset]? = _
    rw [Array.getElem?_setIfInBounds_ne (Nat.succ_ne_self offset), Array.getElem?_setIfInBounds_self_of_lt (by omega)]
    rfl
  | 1, _ =>
    rw [Array.getElem?_setIfInBounds_self_of_lt (by rw [Array.size_setIfInBounds]; omega)]
    rfl

@[simp] theorem size_patchDistance (b : Bytecode) (offset : Nat) (d : Int16) :
    (b.patchDistance offset d).code.size = b.code.size := by
  change ((b.code.setIfInBounds offset _).setIfInBounds (offset + 1) _).size = _
  rw [Array.size_setIfInBounds, Array.size_setIfInBounds]

end Bytecode

/-- Whether the distance of a jump is written over a byte. -/
def Fixup.Covers (f : Fixup) (k : Nat) : Prop := k = f.operand ∨ k = f.operand + 1

namespace Assembler

/-! ### Writing the distances -/

/-- The label of a fixup has a place, to which a jump can lead. -/
def Resolves (labels : Array LabelState) (f : Fixup) (target : Nat) : Prop :=
  (∃ depth, labels[f.label]? = some ⟨some target, depth⟩) ∧
    -0x8000 ≤ (target : Int) - (f.operand + 2) ∧ (target : Int) - (f.operand + 2) < 0x8000

/-- A fixup that is resolved without an error has its distance written. -/
theorem resolve_eq {a : Assembler} {f : Fixup} (h : (a.resolve f).errors = #[]) :
    ∃ target, Resolves a.labels f target ∧ a.resolve f =
      { a with bytecode := a.bytecode.patchDistance f.operand (Int16.ofInt ((target : Int) - (f.operand + 2))) } := by
  unfold resolve at h ⊢
  split at h
  · rename_i target depth hl
    dsimp only at h
    split at h
    · rename_i hrange
      exact ⟨target, ⟨⟨depth, hl⟩, hrange.1, hrange.2⟩, by simp only [if_pos hrange]⟩
    · simp [report] at h
  · split at h
    · rename_i hmem
      rw [h] at hmem
      simp at hmem
    · simp [report] at h

/-- What resolving fixups without an error does. -/
structure Patches (a : Assembler) (fs : List Fixup) (z : Assembler) : Prop where
  errors : a.errors = #[]
  labels : z.labels = a.labels
  constants : z.bytecode.constants = a.bytecode.constants
  debug : z.bytecode.debug = a.bytecode.debug
  size : z.bytecode.code.size = a.bytecode.code.size
  free : ∀ k, (∀ f ∈ fs, ¬ f.Covers k) → z.bytecode.code[k]? = a.bytecode.code[k]?

theorem patches_foldl {fs : List Fixup} {a : Assembler} (h : (fs.foldl resolve a).errors = #[]) :
    a.Patches fs (fs.foldl resolve a) := by
  induction fs generalizing a with
  | nil => exact ⟨h, rfl, rfl, rfl, rfl, fun _ _ => rfl⟩
  | cons f fs ih =>
    have hrest := ih h
    obtain ⟨target, -, heq⟩ := resolve_eq hrest.errors
    rw [List.foldl_cons]
    refine ⟨?_, ?_, ?_, ?_, ?_, fun k hk => ?_⟩
    · have := hrest.errors
      rw [heq] at this
      exact this
    · rw [hrest.labels, heq]
    · rw [hrest.constants, heq]
      rfl
    · rw [hrest.debug, heq]
      rfl
    · rw [hrest.size, heq]
      exact Bytecode.size_patchDistance ..
    · obtain ⟨hne, hne'⟩ := not_or.1 (hk f List.mem_cons_self)
      rw [hrest.free k fun f hf => hk f (List.mem_cons_of_mem _ hf), heq]
      exact Bytecode.getElem?_patchDistance_ne _ _ hne hne'

/-- The distance of a fixup in the middle is written, and stays if no later fixup writes over it. -/
theorem patches_middle {before after : List Fixup} {f : Fixup} {a : Assembler}
    (h : ((before ++ f :: after).foldl resolve a).errors = #[]) (hsize : f.operand + 2 ≤ a.bytecode.code.size)
    (hafter : ∀ k < 2, ∀ g ∈ after, ¬ g.Covers (f.operand + k)) :
    ∃ target, Resolves a.labels f target ∧
      ∀ k < 2, ((before ++ f :: after).foldl resolve a).bytecode.code[f.operand + k]? =
        (OperandForm.distance.encode (Int16.ofInt ((target : Int) - (f.operand + 2))))[k]? := by
  rw [List.foldl_append, List.foldl_cons] at h ⊢
  have hlater := patches_foldl h
  obtain ⟨target, htarget, heq⟩ := resolve_eq hlater.errors
  have hearlier : a.Patches before (before.foldl resolve a) := by
    apply patches_foldl
    have := hlater.errors
    rw [heq] at this
    exact this
  refine ⟨target, hearlier.labels ▸ htarget, fun k hk => ?_⟩
  rw [hlater.free _ (hafter k hk), heq]
  exact Bytecode.getElem?_patchDistance _ _ (by rw [hearlier.size]; exact hsize) k hk

/-! ### The finished program -/

/-- The assembler has come from an empty one, and closes without errors. -/
structure Closes (z : Assembler) : Prop where
  begun : Assembler.new.Precedes z
  errors : z.close.errors = #[]

namespace Closes

variable {a z : Assembler}

/-- Closing emits a halt and then resolves the fixups one after another. -/
theorem close_eq (z : Assembler) : z.close = z.fixups.toList.foldl resolve (z.emit .halt) := by
  unfold close
  have hfixups : (z.emit .halt).fixups = z.fixups := fixups_instruction z ⟨.halt, ()⟩
  dsimp only
  rw [hfixups, Array.foldl_toList]

/-- Closing only writes the distances. -/
private theorem patches (h : z.Closes) : (z.emit .halt).Patches z.fixups.toList z.close := by
  rw [close_eq]
  exact patches_foldl (close_eq z ▸ h.errors)

private theorem precedes_halt (h : a.Precedes z) : a.Precedes (z.emit .halt) := h.trans (precedes_emit z .halt)

/-- What is finished is what was closed. -/
theorem of_finish {b : Bytecode} (hz : Assembler.new.Precedes z) (h : z.finish = .ok b) :
    z.Closes ∧ b = z.close.bytecode := by
  unfold finish at h
  dsimp only at h
  split at h
  · rename_i hempty
    cases h
    exact ⟨⟨hz, Array.isEmpty_iff.1 hempty⟩, rfl⟩
  · cases h

/-- No error has been found on the way. -/
theorem errors_of_precedes (h : z.Closes) (hz : a.Precedes z) : a.errors = #[] :=
  (precedes_halt hz).errors h.patches.errors

/-- The fixups so far are about the code so far. -/
private theorem fixup_le (ha : Assembler.new.Precedes a) : ∀ f ∈ a.fixups.toList, f.operand + 2 ≤ a.offset := by
  obtain ⟨more, heq, hmore⟩ := ha.fixups
  intro f hf
  rw [heq] at hf
  exact (hmore f hf).2

/-- A byte that is not part of a distance is as it was emitted. -/
private theorem getElem?_free (h : z.Closes) (hz : a.Precedes z) {k : Nat} (hk : k < a.offset)
    (hfree : ∀ f ∈ z.fixups.toList, ¬ f.Covers k) : z.close.bytecode.code[k]? = a.bytecode.code[k]? := by
  rw [h.patches.free k hfree]
  have hprefix := (precedes_halt hz).code
  rw [← Array.getElem?_toList, ← Array.getElem?_toList]
  obtain ⟨more, heq⟩ := hprefix
  rw [← heq, List.getElem?_append_left (by simpa [offset, Bytecode.size] using hk)]

/-- The bytes that an instruction emits. -/
private theorem getElem?_instruction (a : Assembler) (i : Instruction) (k : Nat) :
    (a.instruction i).bytecode.code[a.offset + k]? = i.bytes[k]? := by
  rw [bytecode_instruction, ← Array.getElem?_toList, code_emitBytes]
  have hlen : a.offset = a.bytecode.code.toList.length := by simp [offset, Bytecode.size]
  rw [hlen, List.getElem?_append_right (Nat.le_add_right _ _), Nat.add_sub_cancel_left]

/-- An instruction is found if all its bytes are. -/
private theorem fetch_of_getElem? {b : Bytecode} {offset : Nat} {i : Instruction}
    (h : ∀ k < i.size, b.code[offset + k]? = i.bytes[k]?) : b.fetch offset = .instruction i := by
  rw [Bytecode.fetch_eq_instruction_iff, List.prefix_iff_getElem?]
  intro k hk
  rw [List.getElem?_drop, Array.getElem?_toList, h k (by simpa using hk), List.getElem?_eq_getElem hk]

theorem fetch_instruction (h : z.Closes) (ha : Assembler.new.Precedes a) {i : Instruction}
    (hz : (a.instruction i).Precedes z) : z.close.bytecode.fetch a.offset = .instruction i := by
  refine fetch_of_getElem? fun k hk => ?_
  rw [h.getElem?_free hz (by rw [offset_instruction]; omega) ?_, getElem?_instruction]
  -- a fixup from before is about the code before, and a later one about the code after
  intro f hf hcovers
  obtain ⟨more, heq, hmore⟩ := hz.fixups
  rw [heq, fixups_instruction] at hf
  rw [offset_instruction] at hmore
  unfold Fixup.Covers at hcovers
  obtain hf | hf := List.mem_append.1 hf
  · have := fixup_le ha f hf
    omega
  · have := hmore f hf
    omega

/-- The program ends with a halt. -/
theorem fetch_halt (h : z.Closes) : z.close.bytecode.fetch z.offset = .instruction ⟨.halt, ()⟩ := by
  refine fetch_of_getElem? fun k hk => ?_
  rw [h.patches.free, ← getElem?_instruction z]
  · rfl
  · intro f hf hcovers
    have := fixup_le h.begun f hf
    unfold Fixup.Covers at hcovers
    omega

/-- Nothing comes after the halt. -/
theorem size_close (h : z.Closes) : z.close.bytecode.code.size = z.offset + 1 := by
  rw [h.patches.size]
  exact offset_instruction z ⟨.halt, ()⟩

/-- A jump is found with the distance to its label. -/
theorem fetch_distance (h : z.Closes) (ha : Assembler.new.Precedes a) {kind : JumpKind} {label : Nat}
    (hz : (a.jump kind label).Precedes z) : ∃ (d : Int16) (target : Nat) (depth : Option Nat),
      z.labels[label]? = some ⟨some target, depth⟩ ∧ ((a.offset + 3 : Nat) : Int) + d.toInt = target ∧
        z.close.bytecode.fetch a.offset = .instruction (kind.instruction d) := by
  obtain ⟨more, heq, hmore⟩ := hz.fixups
  rw [fixups_jump, Array.toList_push, List.append_assoc, List.singleton_append] at heq
  rw [offset_jump] at hmore
  have hle : a.offset + 3 ≤ z.offset := by
    rw [← offset_jump a kind label]
    exact hz.offset_le
  have herrors := h.errors
  rw [close_eq, heq] at herrors
  have hsize : a.offset + 1 + 2 ≤ (z.emit .halt).bytecode.code.size :=
    Nat.le_trans hle (precedes_emit z .halt).offset_le
  obtain ⟨target, ⟨⟨depth, hlabel⟩, hlow, hhigh⟩, hwritten⟩ := patches_middle herrors hsize (by
    intro k hk g hg hcovers
    have := hmore g hg
    simp only [Fixup.Covers] at hcovers
    omega)
  rw [← heq, ← close_eq] at hwritten
  have hlabel : z.labels[label]? = some ⟨some target, depth⟩ := by
    rw [← hlabel]
    exact congrArg (·[label]?) (labels_instruction z ⟨.halt, ()⟩).symm
  refine ⟨Int16.ofInt ((target : Int) - ((a.offset + 1 : Nat) + 2)), target, depth, hlabel, ?_,
    fetch_of_getElem? fun k hk => ?_⟩
  · -- the distance is that from the end of the jump, and is not cut off
    have htarget : ((a.offset + 3 : Nat) : Int) + ((target : Int) - ((a.offset + 1 : Nat) + 2)) = target := by omega
    rw [Int16.toInt_ofInt_of_le hlow hhigh]
    exact htarget
  · rw [size_jump] at hk
    match k, hk with
    | 0, _ =>
      -- no distance is written over the opcode
      have hfree : ∀ f ∈ z.fixups.toList, ¬ f.Covers (a.offset + 0) := by
        intro f hf hcovers
        rw [heq] at hf
        simp only [Fixup.Covers] at hcovers
        obtain hf | hf := List.mem_append.1 hf
        · have := fixup_le ha f hf
          omega
        · obtain rfl | hf := List.mem_cons.1 hf
          · simp only at hcovers
            omega
          · have := hmore f hf
            omega
      rw [h.getElem?_free hz (by rw [offset_jump]; omega) hfree, bytecode_jump, getElem?_instruction]
      cases kind <;> rfl
    | k + 1, hk =>
      -- the two bytes after it are those of the distance
      have hbytes := hwritten k (by omega)
      have hplace : a.offset + (k + 1) = a.offset + 1 + k := by omega
      rw [hplace, hbytes]
      cases kind <;> rfl

/-- A jump leads to the place of its label. -/
theorem fetch_jump (h : z.Closes) (ha : Assembler.new.Precedes a) {kind : JumpKind} {label : Nat}
    (hz : (a.jump kind label).Precedes z) : ∃ d target depth, z.labels[label]? = some ⟨some target, depth⟩ ∧
      jumpTarget (a.offset + 3) d = target ∧ z.close.bytecode.fetch a.offset = .instruction (kind.instruction d) := by
  obtain ⟨d, target, depth, hlabel, hdistance, hfetch⟩ := h.fetch_distance ha hz
  refine ⟨d, target, depth, hlabel, ?_, hfetch⟩
  rw [jumpTarget, hdistance, if_neg (by omega)]
  rfl

/-! ### Tables -/

/-- The halt is the last instruction that is recorded. -/
theorem debug_close (h : z.Closes) : z.close.bytecode.debug = (z.emit .halt).bytecode.debug := h.patches.debug

theorem constants_of_precedes (h : z.Closes) (hz : a.Precedes z) :
    a.bytecode.constants.toList <+: z.close.bytecode.constants.toList := by
  rw [h.patches.constants]
  exact (precedes_halt hz).constants

/-- A constant that is added is found under the word that names it. -/
theorem constant_addConstant (h : z.Closes) {v : Value} (hz : (a.addConstant v).1.Precedes z) :
    z.close.bytecode.constants[(a.addConstant v).2.toNat]? = some v := by
  have hprefix := h.constants_of_precedes hz
  have herrors := h.errors_of_precedes hz
  unfold addConstant at hprefix herrors ⊢
  split at hprefix
  · rename_i hlt
    rw [if_pos hlt]
    simp only [Bytecode.addConstant, Array.toList_push, Bytecode.nextIndex] at hprefix ⊢
    obtain ⟨more, heq⟩ := hprefix
    have hindex : (UInt16.ofNat a.bytecode.constants.size).toNat = a.bytecode.constants.toList.length := by
      rw [UInt16.toNat_ofNat', Array.length_toList]
      exact Nat.mod_eq_of_lt hlt
    rw [hindex, ← Array.getElem?_toList, ← heq, List.append_assoc, List.getElem?_append_right (Nat.le_refl _),
      Nat.sub_self]
    rfl
  · -- a pool that was full would have been reported
    rename_i hlt
    rw [if_neg hlt] at herrors
    simp [report] at herrors

/-- The span under which an instruction was emitted is found at its place. -/
theorem spanAt? (h : z.Closes) {i : Instruction} (hz : (a.instruction i).Precedes z) (hdebug : a.debugInfo = true) :
    z.close.bytecode.spanAt? a.offset = some a.span := by
  obtain ⟨more, heq, hmore⟩ := (precedes_halt hz).debug
  rw [bytecode_instruction, debug_emitBytes, hdebug, if_pos rfl, List.append_assoc, List.singleton_append,
    ← h.debug_close] at heq
  rw [offset_instruction] at hmore
  have hpos : 0 < i.size := Nat.succ_pos _
  refine Bytecode.spanAt?_of_later heq (Nat.le_refl _) fun e he => ?_
  have := hmore e he
  omega

end Closes

end Assembler

end TemplateExpr
