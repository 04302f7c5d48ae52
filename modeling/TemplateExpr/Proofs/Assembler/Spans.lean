import TemplateExpr.Proofs.Emission.Script

/-!
# Recording spans

An assembler records spans or not; nothing else depends on that. Two assemblers that differ in their debug tables only
(`Assembler.plain`) do so after every directive (`plain_apply`), after every emitter (`Emitter.plain_assemble`), and when
they are closed (`plain_close`). An assembler that records nothing stays as it is without the records, unless it is told
to record (`plain_apply_of_ne`).
-/

namespace TemplateExpr

namespace Assembler

/-- The assembler with nothing recorded, and recording nothing. -/
def plain (a : Assembler) : Assembler :=
  { a with bytecode := { a.bytecode with debug := #[] }, debugInfo := false }

variable (a : Assembler)

theorem plain_emitBytes (i : Instruction) : (a.emitBytes i).plain = a.plain.emitBytes i := by
  obtain ⟨b, depth, maxDepth, reachable, labels, fixups, errors, span, debugInfo⟩ := a
  cases debugInfo <;> rfl

theorem plain_instruction (i : Instruction) : (a.instruction i).plain = a.plain.instruction i := by
  have hoffset : a.plain.offset = a.offset := rfl
  have hdepth : (a.plain.emitBytes i).depth = (a.emitBytes i).depth := rfl
  unfold instruction
  cases i.stackEffect? with
  | some e =>
    dsimp only
    rw [hoffset, hdepth, ← plain_emitBytes]
    split <;> rfl
  | none =>
    dsimp only
    rw [← plain_emitBytes]
    split <;> rfl

theorem plain_emit (o : Opcode) : (a.emit o).plain = a.plain.emit o := by
  unfold emit
  split
  · exact plain_instruction a _
  · rfl

/-- A constant gets the same position. -/
theorem plain_addConstant (v : Value) :
    a.plain.addConstant v = ((a.addConstant v).1.plain, (a.addConstant v).2) := by
  unfold addConstant
  change (if a.bytecode.constants.size < poolLimit then _ else _) = _
  split <;> rfl

theorem plain_mergeDepth (label depth : Nat) : (a.mergeDepth label depth).plain = a.plain.mergeDepth label depth := by
  have hlabels : a.plain.labels = a.labels := rfl
  unfold mergeDepth
  rw [hlabels]
  rcases a.labels[label]? with _ | ⟨offset, _ | expected⟩
  · rfl
  · rfl
  · dsimp only
    split <;> rfl

theorem plain_mark (label : Nat) : (a.mark label).plain = a.plain.mark label := by
  have hlabels : a.plain.labels = a.labels := rfl
  have hreachable : a.plain.reachable = a.reachable := rfl
  unfold mark
  rw [hlabels]
  rcases a.labels[label]? with _ | ⟨_ | offset, depth⟩
  · rfl
  · dsimp only
    rw [hreachable]
    cases a.reachable with
    | false => rfl
    | true => exact congrArg (fun b : Assembler => { b with reachable := true }) (plain_mergeDepth _ label a.depth)
  · rfl

theorem plain_jump (kind : JumpKind) (label : Nat) : (a.jump kind label).plain = a.plain.jump kind label := by
  have hinstruction := a.plain_instruction (kind.instruction 0)
  have hdepth : (a.plain.instruction (kind.instruction 0)).depth = (a.instruction (kind.instruction 0)).depth := by
    rw [← hinstruction]
    rfl
  unfold jump
  dsimp only
  rw [hdepth, ← hinstruction]
  have hmerge := plain_mergeDepth { a.instruction (kind.instruction 0) with
    fixups := (a.instruction (kind.instruction 0)).fixups.push ⟨a.offset + 1, label⟩ } label
    (a.instruction (kind.instruction 0)).depth
  exact congrArg (fun b : Assembler => { b with reachable := b.reachable && kind != JumpKind.always }) hmerge

/-- An instruction that names a new constant. -/
theorem plain_indexed (v : Value) (i : UInt16 → Instruction) :
    ((a.addConstant v).1.instruction (i (a.addConstant v).2)).plain =
      (a.plain.addConstant v).1.instruction (i (a.plain.addConstant v).2) := by
  rw [plain_instruction, plain_addConstant]

/-- A directive does the same without the recorded spans, unless it turns their recording on or off. -/
theorem plain_apply_of_ne {d : Directive} (hd : ∀ enabled, d ≠ .setDebugInfo enabled) :
    (a.apply d).plain = a.plain.apply d := by
  cases d with
  | emit o => exact a.plain_emit o
  | pushNull => exact a.plain_emit .pushNull
  | pushBool b => exact a.plain_emit (if b then .pushTrue else .pushFalse)
  | pushInt n => exact a.plain_indexed (.int n) fun index => ⟨.constInt, index⟩
  | pushFloat x => exact a.plain_indexed (.float x) fun index => ⟨.constFloat, index⟩
  | pushConstant v => exact a.plain_indexed v fun index => ⟨.constant, index⟩
  | getGlobal name => exact a.plain_indexed (.string name) fun index => ⟨.getGlobal, index⟩
  | callNative name count =>
    simp only [apply, callNative]
    split
    · exact a.plain_indexed (.string name) fun index => ⟨.callNative, index, UInt8.ofNat count⟩
    · rfl
  | invoke f => exact a.plain_instruction ⟨.invoke, f.code⟩
  | newList n => exact a.plain_instruction ⟨.newList, n⟩
  | newMap n => exact a.plain_instruction ⟨.newMap, n⟩
  | newLabel => rfl
  | mark label => exact a.plain_mark label
  | jump kind label => exact a.plain_jump kind label
  | setSpan span => rfl
  | setDebugInfo enabled => exact absurd rfl (hd enabled)

theorem plain_apply (d : Directive) : (a.apply d).plain = (a.plain.apply d).plain := by
  by_cases hd : ∀ enabled, d ≠ .setDebugInfo enabled
  · rw [a.plain_apply_of_ne hd, a.plain.plain_apply_of_ne hd]
    rfl
  · obtain ⟨enabled, henabled⟩ := Classical.not_forall.1 hd
    obtain rfl := Classical.not_not.1 henabled
    rfl

/-! ### Closing -/

theorem plain_resolve (f : Fixup) : (a.resolve f).plain = a.plain.resolve f := by
  have hlabels : a.plain.labels = a.labels := rfl
  have herrors : a.plain.errors = a.errors := rfl
  unfold resolve
  rw [hlabels, herrors]
  rcases a.labels[f.label]? with _ | ⟨_ | target, depth⟩
  · dsimp only
    split <;> rfl
  · dsimp only
    split <;> rfl
  · dsimp only
    split <;> rfl

theorem plain_close : a.close.plain = a.plain.close := by
  have hfixups : (a.plain.emit .halt).fixups = (a.emit .halt).fixups := by
    rw [← plain_emit]
    rfl
  have hfoldl : ∀ (fs : List Fixup) (a : Assembler), (fs.foldl resolve a).plain = fs.foldl resolve a.plain := by
    intro fs
    induction fs with
    | nil => exact fun _ => rfl
    | cons f fs ih =>
      intro a
      rw [List.foldl_cons, List.foldl_cons, ih, plain_resolve]
  unfold close
  dsimp only
  rw [hfixups, ← Array.foldl_toList, ← Array.foldl_toList, hfoldl, plain_emit]

end Assembler

namespace Emitter

open Assembler

mutual

/-- The assembly of an emitter is the same, but for spans. -/
theorem plain_assemble : ∀ (x : Emitter) {a b : Assembler}, a.plain = b.plain →
    (x.assemble a).plain = (x.assemble b).plain
  | ⟨_, _, _, span, labels, body⟩, a, b, h => by
    have hlabels : a.labels = b.labels := (congrArg Assembler.labels h :)
    have hspan : a.span = b.span := (congrArg Assembler.span h :)
    have hsteps := plain_assembleSteps body a.labels.size (a := { a.newLabels labels with span })
      (b := { b.newLabels labels with span }) (congrArg (fun c : Assembler => { c.newLabels labels with span }) h)
    rw [assemble, assemble, ← hlabels, ← hspan]
    exact congrArg (fun c : Assembler => { c with span := a.span }) hsteps

theorem plain_assembleSteps : ∀ (steps : List (Step Emitter)) (base : Nat) {a b : Assembler}, a.plain = b.plain →
    (assembleSteps base steps a).plain = (assembleSteps base steps b).plain
  | [], _, _, _, h => by rwa [assembleSteps, assembleSteps]
  | .directive d :: steps, base, a, b, h => by
    rw [assembleSteps, assembleSteps]
    refine plain_assembleSteps steps base ?_
    rw [a.plain_apply, b.plain_apply, h]
  | .sub x :: steps, base, a, b, h => by
    rw [assembleSteps, assembleSteps]
    exact plain_assembleSteps steps base (plain_assemble x h)

end

end Emitter

end TemplateExpr
