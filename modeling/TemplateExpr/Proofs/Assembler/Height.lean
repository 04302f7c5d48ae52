import TemplateExpr.Proofs.Assembler.Linking

/-!
# The height that the assembler tracks

In a program that closes without errors, what the assembler believes of the stack is consistent:

* an instruction finds the slots that it takes, and no height exceeds the greatest one (`Closes.depth_instruction`);
* a jump brings its height to its label (`Closes.depth_of_jump`), and there the height is the label's own, whether or
  not the code before falls through to it (`Closes.mark`).
-/

namespace TemplateExpr.Assembler

/-! ### What stays -/

/-- The span and the recording of spans are as they were. -/
structure Keeps (a b : Assembler) : Prop where
  span : b.span = a.span
  debugInfo : b.debugInfo = a.debugInfo

theorem Keeps.refl (a : Assembler) : a.Keeps a := ⟨rfl, rfl⟩

theorem Keeps.trans {a b c : Assembler} (h : a.Keeps b) (h' : b.Keeps c) : a.Keeps c :=
  ⟨h'.span.trans h.span, h'.debugInfo.trans h.debugInfo⟩

private theorem instruction_eq (a : Assembler) (i : Instruction) :
    ∃ depth maxDepth errors, a.instruction i = { a.emitBytes i with depth, maxDepth, errors } := by
  unfold instruction
  dsimp only
  split
  · split
    · exact ⟨_, _, _, rfl⟩
    · exact ⟨_, _, _, rfl⟩
  · split
    · exact ⟨_, _, _, rfl⟩
    · exact ⟨_, _, _, rfl⟩

theorem keeps_instruction (a : Assembler) (i : Instruction) : a.Keeps (a.instruction i) := by
  obtain ⟨depth, maxDepth, errors, heq⟩ := instruction_eq a i
  rw [heq]
  exact ⟨rfl, rfl⟩

@[simp] theorem reachable_instruction (a : Assembler) (i : Instruction) :
    (a.instruction i).reachable = a.reachable := by
  obtain ⟨depth, maxDepth, errors, heq⟩ := instruction_eq a i
  rw [heq]
  rfl

theorem keeps_addConstant (a : Assembler) (v : Value) : a.Keeps (a.addConstant v).1 := by
  unfold addConstant
  split <;> exact ⟨rfl, rfl⟩

@[simp] theorem reachable_addConstant (a : Assembler) (v : Value) : (a.addConstant v).1.reachable = a.reachable := by
  unfold addConstant
  split <;> rfl

@[simp] theorem depth_addConstant (a : Assembler) (v : Value) : (a.addConstant v).1.depth = a.depth := by
  unfold addConstant
  split <;> rfl

@[simp] theorem offset_addConstant (a : Assembler) (v : Value) : (a.addConstant v).1.offset = a.offset := by
  unfold addConstant
  split <;> rfl

private theorem mergeDepth_eq (a : Assembler) (label depth : Nat) :
    ∃ labels errors, a.mergeDepth label depth = { a with labels, errors } := by
  unfold mergeDepth
  split
  · exact ⟨_, _, rfl⟩
  · split
    · exact ⟨a.labels, a.errors, rfl⟩
    · exact ⟨_, _, rfl⟩
  · exact ⟨a.labels, a.errors, rfl⟩

@[simp] theorem span_mergeDepth (a : Assembler) (label depth : Nat) : (a.mergeDepth label depth).span = a.span := by
  obtain ⟨labels, errors, heq⟩ := mergeDepth_eq a label depth
  rw [heq]

@[simp] theorem debugInfo_mergeDepth (a : Assembler) (label depth : Nat) :
    (a.mergeDepth label depth).debugInfo = a.debugInfo := by
  obtain ⟨labels, errors, heq⟩ := mergeDepth_eq a label depth
  rw [heq]

@[simp] theorem depth_mergeDepth (a : Assembler) (label depth : Nat) : (a.mergeDepth label depth).depth = a.depth := by
  obtain ⟨labels, errors, heq⟩ := mergeDepth_eq a label depth
  rw [heq]

@[simp] theorem reachable_mergeDepth (a : Assembler) (label depth : Nat) :
    (a.mergeDepth label depth).reachable = a.reachable := by
  obtain ⟨labels, errors, heq⟩ := mergeDepth_eq a label depth
  rw [heq]

@[simp] theorem maxDepth_mergeDepth (a : Assembler) (label depth : Nat) :
    (a.mergeDepth label depth).maxDepth = a.maxDepth := by
  obtain ⟨labels, errors, heq⟩ := mergeDepth_eq a label depth
  rw [heq]

theorem keeps_jump (a : Assembler) (kind : JumpKind) (label : Nat) : a.Keeps (a.jump kind label) := by
  have h := keeps_instruction a (kind.instruction 0)
  exact ⟨by simp [jump, h.span], by simp [jump, h.debugInfo]⟩

@[simp] theorem depth_jump (a : Assembler) (kind : JumpKind) (label : Nat) :
    (a.jump kind label).depth = (a.instruction (kind.instruction 0)).depth := by
  simp [jump]

@[simp] theorem reachable_jump (a : Assembler) (kind : JumpKind) (label : Nat) :
    (a.jump kind label).reachable = (a.reachable && kind != .always) := by
  simp [jump]

@[simp] theorem maxDepth_jump (a : Assembler) (kind : JumpKind) (label : Nat) :
    (a.jump kind label).maxDepth = (a.instruction (kind.instruction 0)).maxDepth := by
  simp [jump]

theorem keeps_mark (a : Assembler) (label : Nat) : a.Keeps (a.mark label) := by
  unfold mark
  split
  · dsimp only
    split
    · exact ⟨by simp, by simp⟩
    · exact ⟨rfl, rfl⟩
  · exact ⟨rfl, rfl⟩
  · exact ⟨rfl, rfl⟩

@[simp] theorem offset_mark (a : Assembler) (label : Nat) : (a.mark label).offset = a.offset := by
  unfold mark
  split
  · dsimp only
    split
    · simp [offset]
    · rfl
  · rfl
  · rfl

@[simp] theorem maxDepth_mark (a : Assembler) (label : Nat) : (a.mark label).maxDepth = a.maxDepth := by
  unfold mark
  split
  · dsimp only
    split
    · simp
    · rfl
  · rfl
  · rfl

/-- Where the code before falls through, a label changes nothing for the code to come. -/
theorem mark_of_reachable {a : Assembler} (h : a.reachable = true) (label : Nat) :
    (a.mark label).reachable = true ∧ (a.mark label).depth = a.depth := by
  unfold mark
  split
  · simp only [h, if_true]
    exact ⟨trivial, by simp⟩
  · exact ⟨h, rfl⟩
  · exact ⟨h, rfl⟩

/-! ### Heights in a program that closes -/

namespace Closes

variable {a z : Assembler}

/-- Without an error, an instruction finds the slots that it takes. -/
private theorem depth_of_errors {i : Instruction} {e : StackEffect} (he : i.stackEffect? = some e)
    (herrors : (a.instruction i).errors = #[]) :
    e.pops ≤ a.depth ∧ (a.instruction i).depth = a.depth - e.pops + e.pushes ∧
      (a.instruction i).depth ≤ (a.instruction i).maxDepth := by
  simp only [instruction, he] at herrors ⊢
  split at herrors
  · simp [report, applyEffect] at herrors
  · rename_i hlt
    rw [if_neg hlt]
    exact ⟨Nat.not_lt.1 hlt, rfl, Nat.le_max_right _ _⟩

theorem depth_instruction (h : z.Closes) {i : Instruction} {e : StackEffect} (he : i.stackEffect? = some e)
    (hz : (a.instruction i).Precedes z) :
    e.pops ≤ a.depth ∧ (a.instruction i).depth = a.depth - e.pops + e.pushes ∧
      (a.instruction i).depth ≤ z.maxDepth := by
  obtain ⟨hpops, hdepth, hmax⟩ := depth_of_errors he (h.errors_of_precedes hz)
  exact ⟨hpops, hdepth, Nat.le_trans hmax hz.maxDepth⟩

private theorem errors_of_jump (h : z.Closes) {kind : JumpKind} {label : Nat} (hz : (a.jump kind label).Precedes z) :
    (a.instruction (kind.instruction 0)).errors = #[] := by
  have herrors := h.errors_of_precedes hz
  exact (precedes_mergeDepth { a.instruction (kind.instruction 0) with
    fixups := (a.instruction (kind.instruction 0)).fixups.push ⟨a.offset + 1, label⟩ } label _).errors herrors

/-- A jump finds the slots that it takes. -/
theorem pops_jump (h : z.Closes) {kind : JumpKind} {label : Nat} {e : StackEffect}
    (he : (kind.instruction 0).stackEffect? = some e) (hz : (a.jump kind label).Precedes z) : e.pops ≤ a.depth :=
  (depth_of_errors he (h.errors_of_jump hz)).1

/-- A conditional jump takes its bool off the stack. -/
theorem depth_conditional (h : z.Closes) {kind : JumpKind} {label : Nat} (hkind : kind ≠ .always)
    (hz : (a.jump kind label).Precedes z) : a.depth = (a.jump kind label).depth + 1 := by
  have he : (kind.instruction 0).stackEffect? = some ⟨1, 0⟩ := by
    cases kind with
    | always => exact absurd rfl hkind
    | ifFalse => rfl
    | ifTrue => rfl
  obtain ⟨hpops, hdepth, -⟩ := depth_of_errors he (h.errors_of_jump hz)
  rw [depth_jump, hdepth]
  exact (Nat.sub_add_cancel hpops).symm

theorem depth_always (h : z.Closes) {label : Nat} (hz : (a.jump .always label).Precedes z) :
    (a.jump .always label).depth = a.depth := by
  obtain ⟨-, hdepth, -⟩ := depth_of_errors (e := ⟨0, 0⟩) rfl (h.errors_of_jump hz)
  rw [depth_jump, hdepth]
  rfl

/-- Without an error, a label has the height that a path brings to it. -/
theorem depth_mergeDepth_label {label depth : Nat} (hl : label < a.labels.size)
    (herrors : (a.mergeDepth label depth).errors = #[]) :
    ∃ offset, (a.mergeDepth label depth).labels[label]? = some ⟨offset, some depth⟩ := by
  obtain ⟨⟨offset, known⟩, hget⟩ : ∃ st, a.labels[label]? = some st := ⟨_, Array.getElem?_eq_getElem hl⟩
  unfold mergeDepth at herrors ⊢
  simp only [hget] at herrors ⊢
  cases known with
  | none => exact ⟨offset, Array.getElem?_setIfInBounds_self_of_lt hl⟩
  | some expected =>
    dsimp only at herrors ⊢
    split at herrors
    · rename_i heq
      rw [if_pos heq, ← heq]
      exact ⟨offset, hget⟩
    · simp [report] at herrors

/-- A jump brings the height after it to its label. -/
theorem depth_of_jump (h : z.Closes) {kind : JumpKind} {label : Nat} (hl : label < a.labels.size)
    (hz : (a.jump kind label).Precedes z) :
    ∃ offset, (a.jump kind label).labels[label]? = some ⟨offset, some (a.jump kind label).depth⟩ := by
  have herrors := h.errors_of_precedes hz
  rw [depth_jump]
  refine depth_mergeDepth_label (a := { a.instruction (kind.instruction 0) with
    fixups := (a.instruction (kind.instruction 0)).fixups.push ⟨a.offset + 1, label⟩ }) ?_ herrors
  rw [labels_instruction]
  exact hl

/-- What is known where a label is marked to which a jump leads. -/
theorem mark (h : z.Closes) {label depth : Nat} {placed : Option Nat}
    (hl : a.labels[label]? = some ⟨placed, some depth⟩) (hz : (a.mark label).Precedes z) :
    (a.mark label).reachable = true ∧ (a.mark label).depth = depth ∧ (a.reachable = true → a.depth = depth) ∧
      ∃ d, z.labels[label]? = some ⟨some a.offset, d⟩ := by
  have herrors := h.errors_of_precedes hz
  have hlt := (Array.getElem?_eq_some_iff.1 hl).1
  cases placed with
  | some offset =>
    -- a label that is marked twice is reported
    simp [Assembler.mark, hl, report] at herrors
  | none =>
    have hplaced : (a.labels.setIfInBounds label ⟨some a.offset, some depth⟩)[label]? =
        some ⟨some a.offset, some depth⟩ := Array.getElem?_setIfInBounds_self_of_lt hlt
    have hlabels := hz.labels label
    cases hr : a.reachable with
    | false =>
      -- the height is taken over from the label
      simp only [Assembler.mark, hl, hr, Bool.false_eq_true, if_false] at hlabels ⊢
      obtain ⟨⟨offset, d⟩, hst, hknown, -⟩ := hlabels _ hplaced
      cases hknown _ rfl
      exact ⟨trivial, rfl, False.elim, d, hst⟩
    | true =>
      -- the two heights are compared, and a difference is reported
      simp only [Assembler.mark, hl, hr, if_true, mergeDepth, hplaced] at herrors hlabels ⊢
      by_cases heq : depth = a.depth
      · subst heq
        simp only [if_true] at hlabels ⊢
        obtain ⟨⟨offset, d⟩, hst, hknown, -⟩ := hlabels _ hplaced
        cases hknown _ rfl
        exact ⟨trivial, trivial, fun _ => trivial, d, hst⟩
      · simp [heq, report] at herrors

end Closes

end TemplateExpr.Assembler
