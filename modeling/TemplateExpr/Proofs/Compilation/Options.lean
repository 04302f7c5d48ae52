import Mathlib
import TemplateExpr.Proofs.Assembler.Spans
import TemplateExpr.Proofs.Compilation.Defects
import TemplateExpr.Proofs.Machine.Correspondence

/-!
# Compile options

The options say whether a program is validated and whether it has a debug table. Nothing else depends on them.

* (validation) What is finished is valid, so that a validation changes nothing (`Emitter.program_of_compile`).
* (debug table) The code, the pool, and all that is wrong are the same whether spans are recorded or not
  (`Emitter.plain_close_assemble`), and without recording the table is empty (`Emitter.Makes.debug_eq_empty`).
* (runs) A run looks at the table for the spans of its errors only (`Context.run?_debug`).
-/

namespace TemplateExpr

open Assembler

/-! ### Emitters that do not turn the recording on or off -/

namespace Setting

variable {σ : Type} {E : Setting σ}

private theorem plain_assembleSteps (base : Nat) {steps : List (Step Emitter)}
    (hquiet : ∀ d, Step.directive d ∈ steps → d.isQuiet = true)
    (hsubs : ∀ y, Step.sub y ∈ steps → ∀ a : Assembler, (y.assemble a).plain = y.assemble a.plain) (a : Assembler) :
    (Emitter.assembleSteps base steps a).plain = Emitter.assembleSteps base steps a.plain := by
  induction steps generalizing a with
  | nil => rw [Emitter.assembleSteps, Emitter.assembleSteps]
  | cons step steps ih =>
    have hrest := ih (fun d hd => hquiet d (List.mem_cons_of_mem _ hd)) fun y hy => hsubs y (List.mem_cons_of_mem _ hy)
    cases step with
    | directive d =>
      have hne : ∀ enabled, d.shift base ≠ .setDebugInfo enabled := by
        intro enabled heq
        have hd := (d.isQuiet_shift base).trans (hquiet d List.mem_cons_self)
        rw [heq] at hd
        cases hd
      rw [Emitter.assembleSteps, Emitter.assembleSteps, hrest, a.plain_apply_of_ne hne]
    | sub y => rw [Emitter.assembleSteps, Emitter.assembleSteps, hrest, hsubs y List.mem_cons_self]

/-- The assembly of a regular emitter records nothing unless the assembler does. -/
theorem Regular.plain_assemble {x : Emitter} (h : E.Regular x) (a : Assembler) :
    (x.assemble a).plain = x.assemble a.plain := by
  induction h generalizing a with
  | @intro x m quiet falls subs runs ih =>
    obtain ⟨r, t, c, span, labels, body⟩ := x
    have hsteps := plain_assembleSteps a.labels.size quiet ih { a.newLabels labels with span }
    rw [Emitter.assemble, Emitter.assemble]
    exact congrArg (fun b : Assembler => { b with span := a.span }) hsteps

end Setting

/-! ### Programs -/

namespace Emitter

variable {x : Emitter} {options options' : CompileOptions} {p : Program} {e : Expr}

/-- Whether a validation is asked for or not, the program is the one that is finished. -/
theorem program_of_compile (hx : e.compile .global = .ok x) (options : CompileOptions) :
    x.program options = match (x.assemble options.assembler).finish with
      | .ok b => .ok ⟨b, x.representation, x.type, x.constant, (x.assemble options.assembler).maxDepth⟩
      | .error errors => .error (.assembly errors) := by
  refine program_eq fun b hb => ?_
  obtain ⟨hcloses, rfl⟩ := Closes.of_finish ((precedes_assembler options).trans (x.precedes_assemble _)) hb
  exact (carries_of_compile hx).validate hcloses

/-- All but the recorded spans is the same for all options. -/
theorem plain_close_assemble (x : Emitter) (options options' : CompileOptions) :
    (x.assemble options.assembler).plain = (x.assemble options'.assembler).plain ∧
      (x.assemble options.assembler).close.plain = (x.assemble options'.assembler).close.plain := by
  have hassemble : (x.assemble options.assembler).plain = (x.assemble options'.assembler).plain :=
    x.plain_assemble rfl
  exact ⟨hassemble, by rw [plain_close, plain_close, hassemble]⟩

/-- What is wrong, or else the code and the pool, is the same for all options. -/
theorem finish_assemble (x : Emitter) (options options' : CompileOptions) :
    match (x.assemble options.assembler).finish, (x.assemble options'.assembler).finish with
    | .ok b, .ok b' => b.code = b'.code ∧ b.constants = b'.constants
    | .error errors, .error errors' => errors = errors'
    | _, _ => False := by
  obtain ⟨-, hclose⟩ := x.plain_close_assemble options options'
  have herrors : (x.assemble options.assembler).close.errors = (x.assemble options'.assembler).close.errors :=
    (congrArg Assembler.errors hclose :)
  unfold finish
  dsimp only
  rw [herrors]
  cases (x.assemble options'.assembler).close.errors.isEmpty with
  | true => exact ⟨(congrArg (fun a => a.bytecode.code) hclose :), (congrArg (fun a => a.bytecode.constants) hclose :)⟩
  | false => exact rfl

/-- A program that is made without debug information has no debug table. -/
theorem Makes.debug_eq_empty (h : x.Makes options p) (hx : e.compile .global = .ok x)
    (hoptions : options.debugInfo = false) : p.bytecode.debug = #[] := by
  have hregular : (Setting.ofProgram h .empty 0 fun _ => (none : Option (Native Unit))).Regular x :=
    (Setting.computes_of_compile hx).regular
  have hbegin : options.assembler = options.assembler.plain := by
    unfold CompileOptions.assembler
    rw [hoptions]
    rfl
  rw [h.bytecode, hbegin, ← hregular.plain_assemble, ← plain_close]
  rfl

end Emitter

namespace ExprRoot

/-- An expression is accepted with all options or refused with the same error with all, and the programs are the same
but for their debug tables. They run the same on any machine, but for the spans of errors; without debug information,
there is no table, and the machine's own errors are said to be nowhere. -/
theorem compile_options (root : ExprRoot) (options options' : CompileOptions) :
    match root.compile .global options, root.compile .global options' with
    | .ok p, .ok p' =>
      p.bytecode.code = p'.bytecode.code ∧ p.bytecode.constants = p'.bytecode.constants ∧
      p.representation = p'.representation ∧ p.type = p'.type ∧ p.constant = p'.constant ∧
      p.maxStackDepth = p'.maxStackDepth ∧
      (∀ {σ : Type} (globals : OrderedMap Value) (natives : String → Option (Native σ)) (limit fuel : Nat) (host : σ),
        ((Context.mk p.bytecode globals limit).run? natives fuel host).map
            (Prod.map (Except.mapError RuntimeError.fault) id) =
          ((Context.mk p'.bytecode globals limit).run? natives fuel host).map
            (Prod.map (Except.mapError RuntimeError.fault) id)) ∧
      (options.debugInfo = false → p.bytecode.debug = #[] ∧
        ∀ {σ : Type} (globals : OrderedMap Value) (natives : String → Option (Native σ)) (limit : Nat) (s : State σ) e,
          (Context.mk p.bytecode globals limit).Raises natives s e → e.span = .dummy)
    | .error e, .error e' => e = e'
    | _, _ => False := by
  cases hx : root.expr.compile .global with
  | error err =>
    have hcompile : ∀ options, root.compile .global options = .error err := fun _ => by rw [compile, hx]; rfl
    rw [hcompile, hcompile]
  | ok x =>
    have hcompile : ∀ options, root.compile .global options = x.program options := fun _ => by rw [compile, hx]; rfl
    have hfinish := x.finish_assemble options options'
    have hdepth : (x.assemble options.assembler).maxDepth = (x.assemble options'.assembler).maxDepth :=
      (congrArg Assembler.maxDepth (x.plain_close_assemble options options').1 :)
    have hprogram := Emitter.program_of_compile hx options
    rw [hcompile, hcompile, Emitter.program_of_compile hx options', hprogram]
    cases hb : (x.assemble options.assembler).finish with
    | error errors =>
      rw [hb] at hfinish
      cases hb' : (x.assemble options'.assembler).finish with
      | error errors' =>
        rw [hb'] at hfinish
        exact congrArg CompileError.assembly hfinish
      | ok b' =>
        rw [hb'] at hfinish
        exact hfinish
    | ok b =>
      rw [hb] at hfinish hprogram
      have hmakes := Emitter.makes_of_program hprogram
      cases hb' : (x.assemble options'.assembler).finish with
      | error errors' =>
        rw [hb'] at hfinish
        exact hfinish
      | ok b' =>
        rw [hb'] at hfinish
        obtain ⟨hcode, hconstants⟩ := hfinish
        refine ⟨hcode, hconstants, rfl, rfl, rfl, hdepth, fun globals natives limit fuel host => ?_, fun hoff => ?_⟩
        · exact Context.run?_debug hcode hconstants globals limit natives fuel host
        · have hdebug := hmakes.debug_eq_empty hx hoff
          exact ⟨hdebug, fun globals natives limit s e he => he.span_eq_dummy hdebug⟩

/-- `1 % name`, of which the remainder may fail. -/
def remainderOfName : ExprRoot :=
  .ofExpr (.binary .mod (.literal (.int 1) ⟨0, 1⟩) (.var "name" .unknown ⟨4, 8⟩) (.known .int) ⟨0, 8⟩)

/-- Without a value for the name, both programs fail with the same fault, and one of them knows where. -/
theorem compile_options_remainderOfName : ∃ p p', remainderOfName.compile .global ⟨false, false⟩ = .ok p ∧
    remainderOfName.compile .global ⟨true, true⟩ = .ok p' ∧ p.bytecode.code = p'.bytecode.code ∧
    p.bytecode.debug.size = 0 ∧ p'.bytecode.debug.size = 5 ∧
    (∃ last, (Context.mk p.bytecode .empty 8).run? (fun _ => none) 10 () =
      some (.error ⟨.undefinedVariable "name", .dummy⟩, last)) ∧
    ∃ last, (Context.mk p'.bytecode .empty 8).run? (fun _ => none) 10 () =
      some (.error ⟨.undefinedVariable "name", ⟨4, 8⟩⟩, last) := by
  obtain ⟨p, hp, -⟩ : ∃ p, remainderOfName.compile .global ⟨false, false⟩ = .ok p ∧ p.maxStackDepth = 2 :=
    exists_of_map (by cbv)
  obtain ⟨p', hp', heq⟩ : ∃ p', remainderOfName.compile .global ⟨true, true⟩ = .ok p' ∧
      (p'.bytecode.debug.size, ((Context.mk p'.bytecode .empty 8).run? (fun _ => none) 10 ()).map Prod.fst) =
        (5, some (.error ⟨.undefinedVariable "name", ⟨4, 8⟩⟩)) := exists_of_map (by cbv)
  obtain ⟨hsize, hrun'⟩ := Prod.mk.inj heq
  obtain ⟨⟨_, last⟩, hrun', rfl⟩ := Option.map_eq_some_iff.1 hrun'
  have hsame := compile_options remainderOfName ⟨false, false⟩ ⟨true, true⟩
  rw [hp, hp'] at hsame
  obtain ⟨hcode, -, -, -, -, -, hruns, hoff⟩ := hsame
  obtain ⟨hdebug, hdummy⟩ := hoff rfl
  have hrun := hruns .empty (fun _ => none) 8 10 ()
  rw [hrun'] at hrun
  obtain ⟨⟨result, last'⟩, hrun, hresult⟩ := Option.map_eq_some_iff.1 hrun
  obtain ⟨hfault, rfl⟩ := Prod.mk.inj hresult
  refine ⟨p, p', hp, hp', hcode, by rw [hdebug]; rfl, hsize, ⟨last', ?_⟩, last', hrun'⟩
  -- the error is the machine's own, since there is no function that could have failed
  cases result with
  | ok v => cases hfault
  | error e =>
    obtain ⟨f, span⟩ := e
    cases hfault
    obtain ⟨t, -, hdone⟩ := Context.ends_of_runFrom? hrun
    have hraises : (Context.mk p.bytecode .empty 8).Raises (fun _ => none) t ⟨.undefinedVariable "name", span⟩ := by
      refine ⟨last', hdone, ?_⟩
      rintro ⟨_, _, _, hnone, -⟩
      cases hnone
    obtain rfl : span = .dummy := hdummy .empty (fun _ => none) 8 t _ hraises
    exact hrun

end ExprRoot

end TemplateExpr
