import TemplateExpr.Proofs.Assembler.Orderly
import TemplateExpr.Proofs.Compilation.Correct
import TemplateExpr.Proofs.Compilation.Refusal
import TemplateExpr.Proofs.Emission.Composition

/-!
# No defective programs

The script of a compiled expression is orderly and holds the hallmarks of all nodes, so it is known what can go wrong
with it (`ExprRoot.defects_of_compile`): a node may be too long for an instruction, the pool too small for the
constants, and a jump too far. Otherwise there is a program, and it is valid whether or not it has been validated.
-/

namespace TemplateExpr

open Assembler

namespace Emitter

variable {x : Emitter} {e : Expr} {ds : List Directive}

/-- The whole script of a program. -/
def programScript (x : Emitter) (options : CompileOptions) : List Directive :=
  .setDebugInfo options.debugInfo :: x.script (new.apply (.setDebugInfo options.debugInfo))

theorem run_programScript (x : Emitter) (options : CompileOptions) :
    new.run (x.programScript options) = x.assemble options.assembler :=
  run_script x _

theorem Carries.orderly (h : x.Carries ds) (options : CompileOptions) : Orderly (x.programScript options) :=
  h.balanced.orderly _

/-- What is closed without errors is valid. -/
theorem Carries.validate (h : x.Carries ds) {options : CompileOptions} (hz : (x.assemble options.assembler).Closes) :
    (x.assemble options.assembler).close.bytecode.validate = .ok () := by
  rw [← x.run_programScript] at hz ⊢
  exact (h.orderly options).validate hz

/-- The constants of a program, counted by nodes. -/
theorem countP_programScript (h : e.compile .global = .ok x) (options : CompileOptions) :
    (x.programScript options).countP Directive.addsConstant = e.nodes.countP Expr.namesConstant := by
  have haccepts := e.accepts_compile
  rw [h] at haccepts
  have hperm := Directive.ofHallmark_constant?.perm_script (carries_of_compile h).perm
    (new.apply (.setDebugInfo options.debugInfo))
  calc (x.programScript options).countP Directive.addsConstant
      = (x.script (new.apply (.setDebugInfo options.debugInfo))).countP Directive.addsConstant :=
        List.countP_cons_of_neg Bool.false_ne_true
    _ = ((x.script (new.apply (.setDebugInfo options.debugInfo))).filterMap Directive.constant?).length :=
        List.length_filterMap_eq_countP.symm
    _ = ((e.nodes.flatMap Expr.hallmarks).filterMap Directive.constant?).length := hperm.length_eq
    _ = e.nodes.countP Expr.namesConstant := Expr.length_constants haccepts

/-- Validation has no say if what is finished is valid. -/
theorem program_eq {options : CompileOptions}
    (h : ∀ b, (x.assemble options.assembler).finish = .ok b → b.validate = .ok ()) :
    x.program options = match (x.assemble options.assembler).finish with
      | .ok b => .ok ⟨b, x.representation, x.type, x.constant, (x.assemble options.assembler).maxDepth⟩
      | .error errors => .error (.assembly errors) := by
  change ((x.assemble options.assembler).finish.mapError CompileError.assembly >>= fun b => _) = _
  cases hf : (x.assemble options.assembler).finish with
  | error errors => rfl
  | ok b =>
    change (if options.validate = true then _ else _) = _
    rw [h b hf]
    split <;> rfl

end Emitter

namespace ExprRoot

/-- The program of an expression is valid, and if there is none, the expression has a node that is oversized, needs more
constants than there is room for, or has a branch that is too long to jump over. -/
theorem defects_of_compile (root : ExprRoot) (options : CompileOptions) :
    match root.compile .global options with
    | .ok p => p.bytecode.validate = .ok () ∧ root.expr.nodes.countP Expr.namesConstant ≤ poolLimit
    | .error (.unsupported _ _) => ∃ n ∈ root.expr.nodes, n.isOversized = true
    | .error (.assembly errors) =>
      (∀ e ∈ errors, e = .poolOverflow poolLimit ∨ ∃ offset distance, e = .jumpTooFar offset distance) ∧
        (.poolOverflow poolLimit ∈ errors ↔ poolLimit < root.expr.nodes.countP Expr.namesConstant)
    | .error (.validation _) => False := by
  have haccepts := root.expr.accepts_compile
  cases hx : root.expr.compile .global with
  | error err =>
    have hcompile : root.compile .global options = .error err := by rw [compile, hx]; rfl
    rw [hx] at haccepts
    rw [hcompile]
    obtain ⟨⟨c, s, rfl⟩, hoversized⟩ := haccepts
    exact hoversized
  | ok x =>
    have hcarries := Emitter.carries_of_compile hx
    have hprecedes := (Emitter.precedes_assembler options).trans (x.precedes_assemble _)
    have hvalid : ∀ b, (x.assemble options.assembler).finish = .ok b → b.validate = .ok () := by
      intro b hb
      obtain ⟨hcloses, rfl⟩ := Closes.of_finish hprecedes hb
      exact hcarries.validate hcloses
    have herrors := (hcarries.orderly options).errors_close
    rw [Emitter.countP_programScript hx, x.run_programScript] at herrors
    have hcompile : root.compile .global options = x.program options := by rw [compile, hx]; rfl
    rw [hcompile, Emitter.program_eq hvalid]
    cases hf : (x.assemble options.assembler).finish with
    | ok b =>
      refine ⟨hvalid b hf, Nat.not_lt.1 fun hmore => ?_⟩
      have hmem := herrors.2.2 hmore
      rw [(Closes.of_finish hprecedes hf).1.errors] at hmem
      cases hmem
    | error errors =>
      have heq : errors = (x.assemble options.assembler).close.errors.toList := by
        unfold finish at hf
        dsimp only at hf
        split at hf <;> cases hf
        rfl
      rw [heq]
      exact herrors

end ExprRoot

end TemplateExpr
