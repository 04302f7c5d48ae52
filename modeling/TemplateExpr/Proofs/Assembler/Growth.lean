import TemplateExpr.Emitter.Basic

/-!
# The assembler only adds

Whatever an assembler is told, what it has stays: code, constants, debug entries, the places and heights of labels,
and errors. What it adds to its tables is about code that it adds (`Precedes`).

Each primitive gives one lemma, and every emitter is a sequence of primitives (`precedes_assemble`).
-/

namespace TemplateExpr

/-- What is known of a label stays so. -/
def LabelState.Precedes (st st' : LabelState) : Prop :=
  (∀ offset, st.offset = some offset → st'.offset = some offset) ∧
    ∀ depth, st.depth = some depth → st'.depth = some depth

namespace Assembler

/-- The second assembler has come from the first. -/
structure Precedes (a z : Assembler) : Prop where
  code : a.bytecode.code.toList <+: z.bytecode.code.toList
  constants : a.bytecode.constants.toList <+: z.bytecode.constants.toList
  debug : ∃ more, z.bytecode.debug.toList = a.bytecode.debug.toList ++ more ∧
    ∀ e ∈ more, a.offset ≤ e.offset ∧ e.offset < z.offset
  fixups : ∃ more, z.fixups.toList = a.fixups.toList ++ more ∧
    ∀ f ∈ more, a.offset < f.operand ∧ f.operand + 2 ≤ z.offset
  labels : ∀ (l : Nat) st, a.labels[l]? = some st → ∃ st', z.labels[l]? = some st' ∧ st.Precedes st'
  errors : z.errors = #[] → a.errors = #[]
  maxDepth : a.maxDepth ≤ z.maxDepth

namespace Precedes

variable {a b z : Assembler}

theorem offset_le (h : a.Precedes z) : a.offset ≤ z.offset := by
  have := h.code.length_le
  simp only [Array.length_toList] at this
  exact this

theorem labels_size (h : a.Precedes z) : a.labels.size ≤ z.labels.size := by
  refine Nat.le_of_not_lt fun hlt => ?_
  obtain ⟨st, hst, -⟩ := h.labels z.labels.size _ (Array.getElem?_eq_getElem hlt)
  rw [Array.getElem?_eq_none (Nat.le_refl _)] at hst
  cases hst

/-- The tables are as they were. -/
theorem of_eq (hcode : z.bytecode = a.bytecode) (hfixups : z.fixups = a.fixups) (hlabels : z.labels = a.labels)
    (herrors : z.errors = #[] → a.errors = #[]) (hmax : a.maxDepth ≤ z.maxDepth) : a.Precedes z where
  code := hcode ▸ List.prefix_rfl
  constants := hcode ▸ List.prefix_rfl
  debug := ⟨[], by simp [hcode], nofun⟩
  fixups := ⟨[], by simp [hfixups], nofun⟩
  labels l st h := ⟨st, hlabels ▸ h, fun _ h => h, fun _ h => h⟩
  errors := herrors
  maxDepth := hmax

@[refl] theorem refl (a : Assembler) : a.Precedes a := of_eq rfl rfl rfl id (Nat.le_refl _)

theorem trans (h : a.Precedes b) (h' : b.Precedes z) : a.Precedes z where
  code := h.code.trans h'.code
  constants := h.constants.trans h'.constants
  debug := by
    obtain ⟨more, heq, hmore⟩ := h.debug
    obtain ⟨more', heq', hmore'⟩ := h'.debug
    refine ⟨more ++ more', by rw [heq', heq, List.append_assoc], fun e he => ?_⟩
    have := h.offset_le
    have := h'.offset_le
    obtain he | he := List.mem_append.1 he
    · have := hmore e he
      omega
    · have := hmore' e he
      omega
  fixups := by
    obtain ⟨more, heq, hmore⟩ := h.fixups
    obtain ⟨more', heq', hmore'⟩ := h'.fixups
    refine ⟨more ++ more', by rw [heq', heq, List.append_assoc], fun f hf => ?_⟩
    have := h.offset_le
    have := h'.offset_le
    obtain hf | hf := List.mem_append.1 hf
    · have := hmore f hf
      omega
    · have := hmore' f hf
      omega
  labels l st hst := by
    obtain ⟨st', hst', hp⟩ := h.labels l st hst
    obtain ⟨st'', hst'', hp'⟩ := h'.labels l st' hst'
    exact ⟨st'', hst'', fun o ho => hp'.1 o (hp.1 o ho), fun d hd => hp'.2 d (hp.2 d hd)⟩
  errors he := h.errors (h'.errors he)
  maxDepth := Nat.le_trans h.maxDepth h'.maxDepth

end Precedes

/-! ### Instructions -/

theorem precedes_report (a : Assembler) (e : AssemblyError) : a.Precedes (a.report e) :=
  .of_eq rfl rfl rfl (fun h => by simp [report] at h) (Nat.le_refl _)

theorem precedes_applyEffect (a : Assembler) (e : StackEffect) : a.Precedes (a.applyEffect e) :=
  .of_eq rfl rfl rfl id (Nat.le_max_left _ _)

private theorem toList_emitBytes (b : Bytecode) (bytes : List UInt8) :
    (b.emitBytes bytes).code.toList = b.code.toList ++ bytes := by
  change (bytes.foldl Array.push b.code).toList = _
  rw [List.foldl_push_eq_append', Array.toList_append]

/-- The code gets the bytes of the instruction. -/
theorem code_emitBytes (a : Assembler) (i : Instruction) :
    (a.emitBytes i).bytecode.code.toList = a.bytecode.code.toList ++ i.bytes := by
  unfold emitBytes
  rw [toList_emitBytes]
  split <;> rfl

/-- The table gets the span, if spans are recorded. -/
theorem debug_emitBytes (a : Assembler) (i : Instruction) :
    (a.emitBytes i).bytecode.debug.toList =
      a.bytecode.debug.toList ++ if a.debugInfo then [⟨a.offset, a.span⟩] else [] := by
  unfold emitBytes
  cases a.debugInfo
  · simp [Bytecode.emitBytes]
  · simp [Bytecode.emitBytes, Bytecode.note, offset, Bytecode.size]

theorem offset_emitBytes (a : Assembler) (i : Instruction) : (a.emitBytes i).offset = a.offset + i.size := by
  have h := congrArg List.length (code_emitBytes a i)
  simp only [Array.length_toList, List.length_append, Instruction.length_bytes] at h
  exact h

theorem precedes_emitBytes (a : Assembler) (i : Instruction) : a.Precedes (a.emitBytes i) where
  code := by
    rw [code_emitBytes]
    exact List.prefix_append _ _
  constants := by
    unfold emitBytes
    cases a.debugInfo <;> exact List.prefix_rfl
  debug := by
    refine ⟨_, debug_emitBytes a i, fun e he => ?_⟩
    rw [offset_emitBytes]
    have hpos : 0 < i.size := Nat.succ_pos _
    split at he
    · obtain rfl := List.mem_singleton.1 he
      exact ⟨Nat.le_refl _, by simp only; omega⟩
    · cases he
  fixups := ⟨[], (List.append_nil _).symm, nofun⟩
  labels l st h := ⟨st, h, fun _ h => h, fun _ h => h⟩
  errors := id
  maxDepth := Nat.le_refl _

/-- What an instruction does after its bytes are emitted leaves the tables. -/
private theorem instruction_cases (a : Assembler) (i : Instruction) :
    (a.emitBytes i).Precedes (a.instruction i) ∧ (a.instruction i).bytecode = (a.emitBytes i).bytecode ∧
      (a.instruction i).fixups = a.fixups ∧ (a.instruction i).labels = a.labels := by
  unfold instruction
  dsimp only
  split
  · rename_i effect _
    split
    · exact ⟨(precedes_report _ _).trans (precedes_applyEffect _ effect), rfl, rfl, rfl⟩
    · exact ⟨precedes_applyEffect _ effect, rfl, rfl, rfl⟩
  · split
    · exact ⟨precedes_report _ _, rfl, rfl, rfl⟩
    · exact ⟨.refl _, rfl, rfl, rfl⟩

@[simp] theorem bytecode_instruction (a : Assembler) (i : Instruction) :
    (a.instruction i).bytecode = (a.emitBytes i).bytecode := (instruction_cases a i).2.1

@[simp] theorem fixups_instruction (a : Assembler) (i : Instruction) : (a.instruction i).fixups = a.fixups :=
  (instruction_cases a i).2.2.1

@[simp] theorem labels_instruction (a : Assembler) (i : Instruction) : (a.instruction i).labels = a.labels :=
  (instruction_cases a i).2.2.2

@[simp] theorem offset_instruction (a : Assembler) (i : Instruction) :
    (a.instruction i).offset = a.offset + i.size := by
  rw [← offset_emitBytes, offset, offset, bytecode_instruction]

theorem precedes_instruction (a : Assembler) (i : Instruction) : a.Precedes (a.instruction i) :=
  (precedes_emitBytes a i).trans (instruction_cases a i).1

theorem precedes_emit (a : Assembler) (o : Opcode) : a.Precedes (a.emit o) := by
  unfold emit
  split
  · exact precedes_instruction a _
  · exact precedes_report a _

theorem precedes_addConstant (a : Assembler) (v : Value) : a.Precedes (a.addConstant v).1 := by
  unfold addConstant
  split
  · exact {
      code := List.prefix_rfl
      constants := by
        simp only [Bytecode.addConstant, Array.toList_push]
        exact List.prefix_append _ _
      debug := ⟨[], (List.append_nil _).symm, nofun⟩
      fixups := ⟨[], (List.append_nil _).symm, nofun⟩
      labels := fun l st h => ⟨st, h, fun _ h => h, fun _ h => h⟩
      errors := id
      maxDepth := Nat.le_refl _ }
  · exact precedes_report a _

/-- An instruction that names a new constant. -/
theorem precedes_constant (a : Assembler) (v : Value) (i : UInt16 → Instruction) :
    a.Precedes ((a.addConstant v).1.instruction (i (a.addConstant v).2)) :=
  (precedes_addConstant a v).trans (precedes_instruction _ _)

/-! ### Labels and jumps -/

/-- Only the labels have changed. -/
private theorem precedes_labels {a z : Assembler} (hcode : z.bytecode = a.bytecode) (hfixups : z.fixups = a.fixups)
    (hlabels : ∀ (l : Nat) st, a.labels[l]? = some st → ∃ st', z.labels[l]? = some st' ∧ st.Precedes st')
    (herrors : z.errors = #[] → a.errors = #[]) (hmax : a.maxDepth ≤ z.maxDepth) : a.Precedes z :=
  { Precedes.of_eq (a := { a with labels := z.labels }) hcode hfixups rfl herrors hmax with labels := hlabels }

/-- One label has changed, and what was known of it stays so. -/
private theorem precedes_setLabel {a : Assembler} {label : Nat} {st st' : LabelState} (h : a.labels[label]? = some st)
    (hst : st.Precedes st') : a.Precedes { a with labels := a.labels.setIfInBounds label st' } := by
  refine precedes_labels rfl rfl (fun l st₀ hl => ?_) id (Nat.le_refl _)
  by_cases heq : label = l
  · subst heq
    rw [h] at hl
    cases hl
    exact ⟨st', Array.getElem?_setIfInBounds_self_of_lt (Array.getElem?_eq_some_iff.1 h).1, hst⟩
  · exact ⟨st₀, by rw [Array.getElem?_setIfInBounds_ne heq]; exact hl, fun _ h => h, fun _ h => h⟩

theorem precedes_newLabels (a : Assembler) (count : Nat) : a.Precedes (a.newLabels count) := by
  refine precedes_labels rfl rfl (fun l st hl => ⟨st, ?_, fun _ h => h, fun _ h => h⟩) id (Nat.le_refl _)
  simp only [newLabels]
  rw [Array.getElem?_append_left (Array.getElem?_eq_some_iff.1 hl).1]
  exact hl

theorem precedes_mergeDepth (a : Assembler) (label depth : Nat) : a.Precedes (a.mergeDepth label depth) := by
  unfold mergeDepth
  split
  · rename_i hl
    exact precedes_setLabel hl ⟨fun _ h => h, fun _ h => nomatch h⟩
  · split
    · exact .refl _
    · exact precedes_report a _
  · exact .refl _

theorem precedes_mark (a : Assembler) (label : Nat) : a.Precedes (a.mark label) := by
  unfold mark
  split
  · rename_i depth hl
    -- the label has its place before the heights are compared
    have hplaced : a.Precedes { a with labels := a.labels.setIfInBounds label ⟨some a.offset, depth⟩ } :=
      precedes_setLabel hl ⟨(fun _ h => nomatch h), fun _ h => h⟩
    dsimp only
    split
    · exact (hplaced.trans (precedes_mergeDepth _ label _)).trans (.of_eq rfl rfl rfl id (Nat.le_refl _))
    · exact hplaced.trans (.of_eq rfl rfl rfl id (Nat.le_refl _))
  · exact precedes_report a _
  · exact .refl _

/-- The instruction of a jump has two bytes for the distance. -/
@[simp] theorem size_jump (kind : JumpKind) (d : Int16) : (kind.instruction d).size = 3 := by
  cases kind <;> rfl

/-- The instruction of a jump, and a note that its distance is to be written. -/
theorem precedes_fixup (a : Assembler) (kind : JumpKind) (label : Nat) :
    a.Precedes { a.instruction (kind.instruction 0) with
      fixups := (a.instruction (kind.instruction 0)).fixups.push ⟨a.offset + 1, label⟩ } := by
  have h := precedes_instruction a (kind.instruction 0)
  refine { h with fixups := ⟨[⟨a.offset + 1, label⟩], by simp, fun f hf => ?_⟩ }
  obtain rfl := List.mem_singleton.1 hf
  have hoffset := offset_instruction a (kind.instruction 0)
  rw [size_jump] at hoffset
  simp only [offset] at hoffset ⊢
  omega

@[simp] theorem bytecode_mergeDepth (a : Assembler) (label depth : Nat) :
    (a.mergeDepth label depth).bytecode = a.bytecode := by
  unfold mergeDepth
  split
  · rfl
  · split <;> rfl
  · rfl

@[simp] theorem fixups_mergeDepth (a : Assembler) (label depth : Nat) :
    (a.mergeDepth label depth).fixups = a.fixups := by
  unfold mergeDepth
  split
  · rfl
  · split <;> rfl
  · rfl

@[simp] theorem bytecode_jump (a : Assembler) (kind : JumpKind) (label : Nat) :
    (a.jump kind label).bytecode = (a.instruction (kind.instruction 0)).bytecode := by
  simp [jump]

@[simp] theorem fixups_jump (a : Assembler) (kind : JumpKind) (label : Nat) :
    (a.jump kind label).fixups = a.fixups.push ⟨a.offset + 1, label⟩ := by
  simp [jump]

@[simp] theorem offset_jump (a : Assembler) (kind : JumpKind) (label : Nat) :
    (a.jump kind label).offset = a.offset + 3 := by
  rw [← size_jump kind 0, ← offset_instruction, offset, offset, bytecode_jump]

theorem precedes_jump (a : Assembler) (kind : JumpKind) (label : Nat) : a.Precedes (a.jump kind label) := by
  unfold jump
  exact ((precedes_fixup a kind label).trans (precedes_mergeDepth _ label _)).trans
    (.of_eq rfl rfl rfl id (Nat.le_refl _))

/-! ### Directives and emitters -/

theorem precedes_apply (a : Assembler) (d : Directive) : a.Precedes (a.apply d) := by
  cases d with
  | emit o => exact precedes_emit a o
  | pushNull => exact precedes_emit a .pushNull
  | pushBool b => exact precedes_emit a (if b then .pushTrue else .pushFalse)
  | pushInt n => exact precedes_constant a (.int n) fun index => ⟨.constInt, index⟩
  | pushFloat x => exact precedes_constant a (.float x) fun index => ⟨.constFloat, index⟩
  | pushConstant v => exact precedes_constant a v fun index => ⟨.constant, index⟩
  | invoke f => exact precedes_instruction a ⟨.invoke, f.code⟩
  | getGlobal name => exact precedes_constant a (.string name) fun index => ⟨.getGlobal, index⟩
  | callNative name count =>
    simp only [apply, callNative]
    split
    · exact precedes_constant a (.string name) fun index => ⟨.callNative, index, UInt8.ofNat count⟩
    · exact precedes_report a _
  | newList capacity => exact precedes_instruction a ⟨.newList, capacity⟩
  | newMap capacity => exact precedes_instruction a ⟨.newMap, capacity⟩
  | newLabel => exact precedes_newLabels a 1
  | mark label => exact precedes_mark a label
  | jump kind label => exact precedes_jump a kind label
  | setSpan span => exact .of_eq rfl rfl rfl id (Nat.le_refl _)
  | setDebugInfo enabled => exact .of_eq rfl rfl rfl id (Nat.le_refl _)

end Assembler

namespace Emitter

mutual

theorem precedes_assemble : ∀ (x : Emitter) (a : Assembler), a.Precedes (x.assemble a)
  | ⟨_, _, _, span, labels, body⟩, a => by
    have hlabels := a.precedes_newLabels labels
    have hspan : (a.newLabels labels).Precedes { a.newLabels labels with span } :=
      .of_eq rfl rfl rfl id (Nat.le_refl _)
    exact ((hlabels.trans hspan).trans (precedes_assembleSteps body _ a.labels.size)).trans
      (.of_eq rfl rfl rfl id (Nat.le_refl _))

theorem precedes_assembleSteps :
    ∀ (steps : List (Step Emitter)) (a : Assembler) (base : Nat), a.Precedes (assembleSteps base steps a)
  | [], a, _ => .refl a
  | .directive d :: steps, a, base =>
    (a.precedes_apply (d.shift base)).trans (precedes_assembleSteps steps _ base)
  | .sub x :: steps, a, base => (precedes_assemble x a).trans (precedes_assembleSteps steps _ base)

end

end Emitter

end TemplateExpr
