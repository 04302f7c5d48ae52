import TemplateExpr.Proofs.Assembler.Height

/-!
# Code that can be reached

Only an unconditional jump makes the code after it unreachable, and only until a label is marked. An emitter that marks
a label of its own right after each such jump (`Emitter.falls`) has no other code that cannot be reached; this is known
without any run (`Emitter.reachable_assembleSteps`).
-/

namespace TemplateExpr

namespace Assembler

/-! ### Directives -/

private theorem reachable_emit (a : Assembler) (o : Opcode) : (a.emit o).reachable = a.reachable := by
  unfold emit
  split
  · exact reachable_instruction a _
  · rfl

private theorem reachable_constant (a : Assembler) (v : Value) (i : UInt16 → Instruction) :
    ((a.addConstant v).1.instruction (i (a.addConstant v).2)).reachable = a.reachable := by
  rw [reachable_instruction, reachable_addConstant]

/-- Where a label is marked without an error, the code can be reached. -/
theorem reachable_mark_of_errors {a : Assembler} {label : Nat} (hl : label < a.labels.size)
    (herrors : (a.mark label).errors = #[]) : (a.mark label).reachable = true := by
  obtain ⟨⟨offset, depth⟩, hget⟩ : ∃ st, a.labels[label]? = some st := ⟨_, Array.getElem?_eq_getElem hl⟩
  unfold mark at herrors ⊢
  simp only [hget] at herrors ⊢
  cases offset with
  | none => rfl
  | some offset => simp [report] at herrors

/-- All directives but an unconditional jump lead on to the next. -/
theorem reachable_apply {a : Assembler} {d : Directive} (hd : ∀ label, d ≠ .jump .always label)
    (h : a.reachable = true) : (a.apply d).reachable = true := by
  cases d with
  | emit o => exact (reachable_emit a o).trans h
  | pushNull => exact (reachable_emit a .pushNull).trans h
  | pushBool b => exact (reachable_emit a (if b then .pushTrue else .pushFalse)).trans h
  | pushInt n => exact (reachable_constant a (.int n) fun index => ⟨.constInt, index⟩).trans h
  | pushFloat x => exact (reachable_constant a (.float x) fun index => ⟨.constFloat, index⟩).trans h
  | pushConstant v => exact (reachable_constant a v fun index => ⟨.constant, index⟩).trans h
  | invoke f => exact (reachable_instruction a ⟨.invoke, f.code⟩).trans h
  | getGlobal name => exact (reachable_constant a (.string name) fun index => ⟨.getGlobal, index⟩).trans h
  | callNative name count =>
    simp only [apply, callNative]
    split
    · exact (reachable_constant a (.string name) fun index => ⟨.callNative, index, UInt8.ofNat count⟩).trans h
    · exact h
  | newList capacity => exact (reachable_instruction a ⟨.newList, capacity⟩).trans h
  | newMap capacity => exact (reachable_instruction a ⟨.newMap, capacity⟩).trans h
  | newLabel => exact h
  | mark label => exact (mark_of_reachable h label).1
  | jump kind label =>
    have hkind : kind ≠ .always := fun heq => hd label (by rw [heq])
    simp [apply, h, hkind]
  | setSpan span => exact h
  | setDebugInfo enabled => exact h

end Assembler

namespace Emitter

open Assembler

/-! ### Steps -/

/-- Every unconditional jump is followed at once by the mark of a label that the emitter has. -/
def falls (labels : Nat) : List (Step Emitter) → Bool
  | [] => true
  | .directive (.jump .always _) :: .directive (.mark label) :: steps => decide (label < labels) && falls labels steps
  | .directive (.jump .always _) :: _ => false
  | _ :: steps => falls labels steps

/-- What comes before an emitter inside is of the same sort. -/
theorem falls_before {labels : Nat} {before after : List (Step Emitter)} {y : Emitter}
    (h : falls labels (before ++ .sub y :: after) = true) : falls labels before = true := by
  fun_induction falls labels before with
  | case1 => rfl
  | case2 l label steps ih =>
    simp only [List.cons_append, falls, Bool.and_eq_true] at h ⊢
    exact ⟨h.1, ih h.2⟩
  | case3 l steps hsteps =>
    -- the jump would stand right before the emitter, or before something else that is no mark
    cases steps with
    | nil => simp [falls] at h
    | cons step steps =>
      cases step with
      | sub z => simp [falls] at h
      | directive d =>
        cases d with
        | mark label => exact absurd rfl (hsteps label steps)
        | _ => simp [falls] at h
  | case4 step steps hstep hstep' ih =>
    refine ih ?_
    rw [List.cons_append, falls] at h
    · exact h
    · exact fun l label rest heq => absurd heq (hstep' l)
    · exact hstep'

/-- Where the steps end without an error, the code can be reached if it can where they begin. -/
theorem reachable_assembleSteps {labels base : Nat} {steps : List (Step Emitter)} (h : falls labels steps = true)
    (hsubs : ∀ y, Step.sub y ∈ steps → ∀ a : Assembler, a.reachable = true → (y.assemble a).errors = #[] →
      (y.assemble a).reachable = true) {a : Assembler} (hr : a.reachable = true)
    (hlabels : base + labels ≤ a.labels.size) (herrors : (assembleSteps base steps a).errors = #[]) :
    (assembleSteps base steps a).reachable = true := by
  fun_induction falls labels steps generalizing a with
  | case1 => rwa [assembleSteps]
  | case2 l label steps ih =>
    -- after the jump nothing is reachable, and after the mark it is again
    simp only [Bool.and_eq_true, decide_eq_true_eq] at h
    rw [assembleSteps, assembleSteps] at herrors ⊢
    have hjump := precedes_jump a .always (base + l)
    have hsize : ((a.jump .always (base + l)).mark (base + label)).labels.size ≥ a.labels.size :=
      (hjump.trans (precedes_mark _ _)).labels_size
    refine ih h.2 (fun y hy => hsubs y (List.mem_cons_of_mem _ (List.mem_cons_of_mem _ hy))) ?_ (by
      exact Nat.le_trans hlabels hsize) herrors
    refine reachable_mark_of_errors ?_ ((precedes_assembleSteps steps _ base).errors herrors)
    exact Nat.lt_of_lt_of_le (Nat.lt_of_lt_of_le (Nat.add_lt_add_left h.1 base) hlabels) hjump.labels_size
  | case3 => cases h
  | case4 step steps hstep hstep' ih =>
    have hrest := fun y hy => hsubs y (List.mem_cons_of_mem _ hy)
    cases step with
    | sub y =>
      rw [assembleSteps] at herrors ⊢
      have hy := hsubs y List.mem_cons_self a hr ((precedes_assembleSteps steps _ base).errors herrors)
      exact ih h hrest hy (Nat.le_trans hlabels (y.precedes_assemble a).labels_size) herrors
    | directive d =>
      rw [assembleSteps] at herrors ⊢
      refine ih h hrest (reachable_apply (fun label heq => ?_) hr)
        (Nat.le_trans hlabels (precedes_apply a (d.shift base)).labels_size) herrors
      cases d with
      | jump kind label' =>
        cases heq
        exact hstep' label' rfl
      | _ => cases heq

/-- Without jumps, every step follows the one before. -/
theorem falls_of_forall {labels : Nat} {steps : List (Step Emitter)}
    (h : ∀ label, Step.directive (.jump .always label) ∉ steps) : falls labels steps = true := by
  fun_induction falls labels steps with
  | case1 => rfl
  | case2 l label steps ih => exact absurd List.mem_cons_self (h l)
  | case3 l steps hsteps => exact absurd List.mem_cons_self (h l)
  | case4 step steps hstep hstep' ih => exact ih fun label hl => h label (List.mem_cons_of_mem _ hl)

end Emitter

end TemplateExpr
