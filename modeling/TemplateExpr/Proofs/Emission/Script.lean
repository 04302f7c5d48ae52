import TemplateExpr.Proofs.Assembler.Directive

/-!
# Scripts

The script of an emitter is all that it tells an assembler, directive by directive (`Emitter.script`): the labels are
made, the span is set, the steps come with their labels numbered, and the old span is set again. Giving the script to
the assembler is the same as assembling the emitter (`Emitter.run_script`).

Where the numbers of labels and the spans do not matter, the script is the directives of the emitter and of those inside
it, as they stand (`Emitter.directives`, `Emitter.filterMap_script`).
-/

namespace TemplateExpr

namespace Assembler

theorem run_newLabels (a : Assembler) (count : Nat) : a.run (List.replicate count .newLabel) = a.newLabels count := by
  induction count generalizing a with
  | zero => simp [newLabels]
  | succ count ih =>
    rw [List.replicate_succ, run_cons, ih]
    simp [apply, newLabels, Array.replicate_succ']

end Assembler

namespace Emitter

open Assembler

mutual

/-- The directives that an emitter gives to an assembler. -/
def script : Emitter → Assembler → List Directive
  | ⟨_, _, _, span, labels, body⟩, a =>
    List.replicate labels .newLabel ++
      .setSpan span :: (scriptSteps a.labels.size body { a.newLabels labels with span } ++ [.setSpan a.span])

/-- The directives of the steps of an emitter whose labels begin at `base`. -/
def scriptSteps (base : Nat) : List (Step Emitter) → Assembler → List Directive
  | [], _ => []
  | .directive d :: steps, a => d.shift base :: scriptSteps base steps (a.apply (d.shift base))
  | .sub x :: steps, a => script x a ++ scriptSteps base steps (x.assemble a)

end

mutual

theorem run_script : ∀ (x : Emitter) (a : Assembler), a.run (x.script a) = x.assemble a
  | ⟨_, _, _, span, labels, body⟩, a => by
    rw [script, assemble, run_append, run_newLabels, run_cons, run_append]
    change ({ a.newLabels labels with span }.run _).run [.setSpan a.span] = _
    rw [run_scriptSteps]
    rfl

theorem run_scriptSteps : ∀ (steps : List (Step Emitter)) (base : Nat) (a : Assembler),
    a.run (scriptSteps base steps a) = assembleSteps base steps a
  | [], _, a => by rw [scriptSteps, assembleSteps, run_nil]
  | .directive d :: steps, base, a => by
    rw [scriptSteps, assembleSteps, run_cons, run_scriptSteps]
  | .sub x :: steps, base, a => by
    rw [scriptSteps, assembleSteps, run_append, run_script, run_scriptSteps]

end

mutual

/-- The directives of an emitter and of the emitters inside it, as they stand. -/
def directives : Emitter → List Directive
  | ⟨_, _, _, _, _, body⟩ => directivesOf body

def directivesOf : List (Step Emitter) → List Directive
  | [] => []
  | .directive d :: steps => d :: directivesOf steps
  | .sub x :: steps => directives x ++ directivesOf steps

end

/-- In what is read off a directive, numbers of labels and spans do not matter. -/
structure IsStatic {β : Type} (f : Directive → Option β) : Prop where
  shift : ∀ d base, f (d.shift base) = f d
  newLabel : f .newLabel = none
  setSpan : ∀ span, f (.setSpan span) = none

variable {β : Type} {f : Directive → Option β}

mutual

theorem filterMap_script (h : IsStatic f) :
    ∀ (x : Emitter) (a : Assembler), (x.script a).filterMap f = x.directives.filterMap f
  | ⟨_, _, _, span, labels, body⟩, a => by
    rw [script, directives, List.filterMap_append, List.filterMap_cons, List.filterMap_append,
      filterMap_scriptSteps h body]
    simp [h.newLabel, h.setSpan]

theorem filterMap_scriptSteps (h : IsStatic f) : ∀ (steps : List (Step Emitter)) (base : Nat) (a : Assembler),
    (scriptSteps base steps a).filterMap f = (directivesOf steps).filterMap f
  | [], _, _ => by rw [scriptSteps, directivesOf]
  | .directive d :: steps, base, a => by
    rw [scriptSteps, directivesOf, List.filterMap_cons, List.filterMap_cons, h.shift, filterMap_scriptSteps h steps]
  | .sub x :: steps, base, a => by
    rw [scriptSteps, directivesOf, List.filterMap_append, List.filterMap_append, filterMap_script h x,
      filterMap_scriptSteps h steps]

end

end Emitter

end TemplateExpr
