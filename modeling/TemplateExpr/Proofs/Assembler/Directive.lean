import TemplateExpr.Bytecode.Validation
import TemplateExpr.Proofs.Assembler.Height

/-!
# What a directive emits

A directive emits one instruction at most, and adds one constant at most, which the instruction names
(`Directive.instruction?`, `Directive.constant?`). The instruction has the effect that is known of the directive
(`Directive.effect?`). All other directives are about labels and spans, or are refused. These are the cases by which
facts about directives are proved (`Assembler.apply_cases`).
-/

namespace TemplateExpr

namespace JumpKind

def effect : JumpKind → StackEffect
  | always => ⟨0, 0⟩
  | ifFalse | ifTrue => ⟨1, 0⟩

@[simp] theorem stackEffect?_instruction (kind : JumpKind) (d : Int16) :
    (kind.instruction d).stackEffect? = some kind.effect := by
  cases kind <;> rfl

@[simp] theorem jumpDistance?_instruction (kind : JumpKind) (d : Int16) :
    Bytecode.jumpDistance? (kind.instruction d) = some d.toInt := by
  cases kind <;> rfl

end JumpKind

namespace Directive

/-- The constant that is added to the pool. -/
def constant? : Directive → Option Value
  | pushInt n => some (.int n)
  | pushFloat x => some (.float x)
  | pushConstant v => some v
  | getGlobal name => some (.string name)
  | callNative name count => if count < 256 then some (.string name) else none
  | _ => none

/-- The instruction that is emitted, given the word that names the constant. Jumps are left out: their distances are
not known yet. -/
def instruction? (index : UInt16) : Directive → Option Instruction
  | emit o => Instruction.ofBytes? o []
  | pushNull => some ⟨.pushNull, ()⟩
  | pushBool b => some (if b then ⟨.pushTrue, ()⟩ else ⟨.pushFalse, ()⟩)
  | pushInt _ => some ⟨.constInt, index⟩
  | pushFloat _ => some ⟨.constFloat, index⟩
  | pushConstant _ => some ⟨.constant, index⟩
  | invoke f => some ⟨.invoke, f.code⟩
  | getGlobal _ => some ⟨.getGlobal, index⟩
  | callNative _ count => if count < 256 then some ⟨.callNative, index, UInt8.ofNat count⟩ else none
  | newList capacity => some ⟨.newList, capacity⟩
  | newMap capacity => some ⟨.newMap, capacity⟩
  | newLabel | mark _ | jump _ _ | setSpan _ | setDebugInfo _ => none

/-- The effect on the stack, of directives that emit an instruction. -/
def effect? : Directive → Option StackEffect
  | emit o => (Instruction.ofBytes? o []).bind Instruction.stackEffect?
  | invoke f => some ⟨f.arity, 1⟩
  | callNative _ count => if count < 256 then some ⟨count, 1⟩ else none
  | jump kind _ => some kind.effect
  | newLabel | mark _ | setSpan _ | setDebugInfo _ => none
  | _ => some ⟨0, 1⟩

/-- The table of stack effects knows every instruction that is emitted. -/
theorem stackEffect?_of_instruction? {d : Directive} {index : UInt16} {i : Instruction}
    (h : d.instruction? index = some i) : ∃ e, i.stackEffect? = some e ∧ d.effect? = some e := by
  cases d with
  | emit o =>
    have hd : (emit o).effect? = i.stackEffect? := by
      simp only [instruction?] at h
      simp only [effect?, h, Option.bind_some]
    obtain ⟨e, he⟩ : ∃ e, i.stackEffect? = some e := by
      -- the opcode has no operand, so its effect is in the table
      simp only [instruction?] at h
      cases o <;> cases h <;> exact ⟨_, rfl⟩
    exact ⟨e, he, hd.trans he⟩
  | pushBool b => cases b <;> cases h <;> exact ⟨_, rfl, rfl⟩
  | invoke f =>
    cases h
    refine ⟨⟨f.arity, 1⟩, ?_, rfl⟩
    change (RuntimeFunction.ofCode? f.code).map _ = _
    rw [RuntimeFunction.ofCode?_code]
    rfl
  | callNative name count =>
    simp only [instruction?] at h
    split at h
    · rename_i hcount
      cases h
      refine ⟨⟨count, 1⟩, ?_, by simp only [effect?, if_pos hcount]⟩
      change some (StackEffect.mk (UInt8.ofNat count).toNat 1) = _
      rw [UInt8.toNat_ofNat', Nat.mod_eq_of_lt hcount]
    · cases h
  | _ => cases h <;> exact ⟨_, rfl, rfl⟩

/-- What is emitted is no jump. -/
theorem jumpDistance?_of_instruction? {d : Directive} {index : UInt16} {i : Instruction}
    (h : d.instruction? index = some i) : Bytecode.jumpDistance? i = none ∧ i.opcode ≠ .jump := by
  cases d with
  | emit o =>
    simp only [instruction?] at h
    cases o <;> cases h <;> exact ⟨rfl, nofun⟩
  | pushBool b => cases b <;> cases h <;> exact ⟨rfl, nofun⟩
  | callNative name count =>
    simp only [instruction?] at h
    split at h
    · cases h
      exact ⟨rfl, nofun⟩
    · cases h
  | _ => cases h <;> exact ⟨rfl, nofun⟩

/-- Only a halt is emitted as one. -/
theorem eq_halt_of_instruction? {d : Directive} {index : UInt16} {i : Instruction} (h : d.instruction? index = some i)
    (hi : i.opcode = .halt) : d = .emit .halt := by
  cases d with
  | emit o =>
    obtain ⟨rfl, -⟩ := Instruction.of_ofBytes? h
    rw [hi]
  | pushBool b => cases b <;> cases h <;> cases hi
  | callNative name count =>
    simp only [instruction?] at h
    split at h <;> cases h
    cases hi
  | _ => cases h <;> cases hi

end Directive

namespace Assembler

/-! ### One directive -/

/-- The assembler with the constant of a directive, and the word that names it. -/
def withConstant (a : Assembler) (d : Directive) : Assembler × UInt16 :=
  match d.constant? with
  | some v => a.addConstant v
  | none => (a, 0)

/-- What a directive does, case by case. -/
theorem apply_cases {a : Assembler} {P : Directive → Assembler → Prop}
    (instruction : ∀ d i, d.instruction? (a.withConstant d).2 = some i → P d ((a.withConstant d).1.instruction i))
    (jump : ∀ kind label, P (.jump kind label) (a.jump kind label)) (mark : ∀ label, P (.mark label) (a.mark label))
    (newLabel : P .newLabel (a.newLabels 1)) (setSpan : ∀ span, P (.setSpan span) { a with span })
    (setDebugInfo : ∀ enabled, P (.setDebugInfo enabled) { a with debugInfo := enabled })
    (refusedOpcode : ∀ o e, (Directive.emit o).effect? = none → P (.emit o) (a.report e))
    (refusedCall : ∀ name count e, (Directive.callNative name count).effect? = none →
      P (.callNative name count) (a.report e)) (d : Directive) : P d (a.apply d) := by
  cases d with
  | emit o =>
    simp only [apply, emit]
    split
    · rename_i i hi
      exact instruction (.emit o) i hi
    · rename_i hnone
      exact refusedOpcode _ _ (by simp only [Directive.effect?, hnone, Option.bind_none])
  | pushBool b => cases b <;> exact instruction (.pushBool _) _ rfl
  | callNative name count =>
    simp only [apply, callNative]
    split
    · rename_i hcount
      have hconstant : a.withConstant (.callNative name count) = a.addConstant (.string name) := by
        simp only [withConstant, Directive.constant?, if_pos hcount]
      rw [← hconstant]
      exact instruction (.callNative name count) _ (by simp only [Directive.instruction?, if_pos hcount])
    · rename_i hcount
      exact refusedCall _ _ _ (by simp only [Directive.effect?, if_neg hcount])
  | newLabel => exact newLabel
  | mark label => exact mark label
  | jump kind label => exact jump kind label
  | setSpan span => exact setSpan span
  | setDebugInfo enabled => exact setDebugInfo enabled
  | pushNull => exact instruction .pushNull _ rfl
  | pushInt n => exact instruction (.pushInt n) _ rfl
  | pushFloat x => exact instruction (.pushFloat x) _ rfl
  | pushConstant v => exact instruction (.pushConstant v) _ rfl
  | invoke f => exact instruction (.invoke f) _ rfl
  | getGlobal name => exact instruction (.getGlobal name) _ rfl
  | newList capacity => exact instruction (.newList capacity) _ rfl
  | newMap capacity => exact instruction (.newMap capacity) _ rfl

theorem precedes_withConstant (a : Assembler) (d : Directive) : a.Precedes (a.withConstant d).1 := by
  unfold withConstant
  split
  · exact precedes_addConstant a _
  · exact .refl a

/-- No code has been emitted, and nothing is different for the code to come. -/
structure SameCode (a b : Assembler) : Prop where
  offset : b.offset = a.offset
  depth : b.depth = a.depth
  maxDepth : b.maxDepth = a.maxDepth
  reachable : b.reachable = a.reachable
  labels : b.labels = a.labels
  fixups : b.fixups = a.fixups

/-- A new constant emits no code. -/
theorem sameCode_withConstant (a : Assembler) (d : Directive) : a.SameCode (a.withConstant d).1 := by
  unfold withConstant addConstant
  split
  · split <;> exact ⟨rfl, rfl, rfl, rfl, rfl, rfl⟩
  · exact ⟨rfl, rfl, rfl, rfl, rfl, rfl⟩

/-- An instruction that finds the slots that it takes. -/
theorem instruction_of_pops {a : Assembler} {i : Instruction} {e : StackEffect} (he : i.stackEffect? = some e)
    (hpops : e.pops ≤ a.depth) : a.instruction i = (a.emitBytes i).applyEffect e := by
  simp only [instruction, he]
  exact congrArg (applyEffect · e) (if_neg (Nat.not_lt.2 hpops))

/-! ### Sequences -/

@[simp] theorem run_nil (a : Assembler) : a.run [] = a := rfl

@[simp] theorem run_cons (a : Assembler) (d : Directive) (ds : List Directive) :
    a.run (d :: ds) = (a.apply d).run ds := rfl

theorem run_append (a : Assembler) (ds es : List Directive) : a.run (ds ++ es) = (a.run ds).run es :=
  List.foldl_append

theorem precedes_run (a : Assembler) (ds : List Directive) : a.Precedes (a.run ds) := by
  induction ds generalizing a with
  | nil => exact .refl a
  | cons d ds ih => exact (a.precedes_apply d).trans (ih _)

end Assembler

end TemplateExpr
