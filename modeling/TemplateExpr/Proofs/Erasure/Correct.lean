import TemplateExpr.Proofs.Compilation.Correct
import TemplateExpr.Proofs.Erasure.Expr

/-!
# Erased programs

A program that was compiled without declared types works on boxed values where the other one works on integers and
floats. If the declared types are truthful and native functions are pure, both come to the same value or both fail
(`ExprRoot.run_erase`), unless one of them comes to the limit of its stack.
-/

namespace TemplateExpr

open Evaluation

/-- Whenever a node that is declared an integer, a float or a string is evaluated, its value is one. -/
def Expr.Truthful {σ : Type} (e : Expr) (scope : Scope σ) (host : σ) : Prop :=
  (e.evaluate scope (.initial host)).2.Honest StaticType.Fits

namespace ExprRoot

/-- The same expression with every declared type replaced by `unknown`. -/
def erase (root : ExprRoot) : ExprRoot := ⟨root.expr.erase, root.span⟩

variable {σ : Type} {root : ExprRoot} {options options' : CompileOptions} {p p' : Program}

/-- Unless it comes to the limit of its stack, the program of an expression ends with the expression's value, if it has
one. -/
theorem ends_ok_iff (h : root.compile .global options = .ok p) {globals : OrderedMap Value}
    {natives : String → Option (Native σ)} {limit : Nat} {host : σ}
    (hlimit : ¬ (Context.mk p.bytecode globals limit).HitsLimit natives host) :
    ∃ result last, (Context.mk p.bytecode globals limit).Ends natives (.initial host) result last ∧
      ∀ v, result = .ok v ↔ (root.expr.evaluate ⟨globals, natives⟩ (.initial host)).1.toOption = some v := by
  obtain ⟨E, t, result, last, hcontext, -, ht, hdone, hfinishes | ⟨hhits, -⟩⟩ :=
    ends_of_compile h globals limit natives host
  · rw [hcontext] at ht hdone
    exact ⟨result, last, ⟨t, ht, hdone⟩, hfinishes.ok_iff⟩
  · rw [hcontext] at hhits
    exact absurd hhits hlimit

/-- The programs of an expression and of its erasure both end; one succeeds exactly if the other does, with the same
value. -/
theorem run_erase (h : root.compile .global options = .ok p) (h' : root.erase.compile .global options' = .ok p')
    (hunmixed : root.expr.Unmixed) {globals : OrderedMap Value} {natives : String → Option (Native σ)}
    (hpure : ∀ name f, natives name = some f → Native.IsPure f) {host host' : σ}
    (htruthful : root.expr.Truthful ⟨globals, natives⟩ host) {limit limit' : Nat}
    (hlimit : ¬ (Context.mk p.bytecode globals limit).HitsLimit natives host)
    (hlimit' : ¬ (Context.mk p'.bytecode globals limit').HitsLimit natives host') :
    ∃ n result last result' last',
      (∀ fuel, n ≤ fuel →
        (Context.mk p.bytecode globals limit).run? natives fuel host = some (result, last) ∧
          (Context.mk p'.bytecode globals limit').run? natives fuel host' = some (result', last')) ∧
      ∀ v, result = .ok v ↔ result' = .ok v := by
  obtain ⟨result, last, hends, hok⟩ := ends_ok_iff h hlimit
  obtain ⟨result', last', hends', hok'⟩ := ends_ok_iff h' hlimit'
  obtain ⟨n, hn⟩ := hends.runFrom?
  obtain ⟨n', hn'⟩ := hends'.runFrom?
  refine ⟨max n n', result, last, result', last', fun fuel hfuel => ?_, fun v => ?_⟩
  · exact ⟨hn fuel (by omega), hn' fuel (by omega)⟩
  · rw [hok, hok']
    exact iff_of_eq (congrArg (· = some v) (Expr.evaluate_erase hpure hunmixed htruthful (.initial host')))

/-- `five() * 2 > 5`, with a function that is declared to answer with an integer. -/
def moreThanFive : ExprRoot :=
  .ofExpr (.binary .gt
    (.binary .mul (.call "five" [] (.known .int) ⟨0, 6⟩) (.literal (.int 2) ⟨9, 10⟩) (.known .int) ⟨0, 10⟩)
    (.literal (.int 5) ⟨13, 14⟩) (.known .bool) ⟨0, 14⟩)

/-- A native function that answers with an integer. -/
def five (_ : String) : Option (Native Unit) := some fun _ s => (.ok (.int 5), s)

/-- One program compares integers, and the other calls the runtime library on what it finds. -/
theorem run_erase_moreThanFive :
    ∃ p p', moreThanFive.compile .global {} = .ok p ∧ moreThanFive.erase.compile .global {} = .ok p' ∧
      ∃ n result last result' last',
        (∀ fuel, n ≤ fuel →
          (Context.mk p.bytecode .empty 8).run? five fuel () = some (result, last) ∧
            (Context.mk p'.bytecode .empty 8).run? five fuel () = some (result', last')) ∧
        ∀ v, result = .ok v ↔ result' = .ok v := by
  obtain ⟨p, hp, hdepth⟩ : ∃ p, moreThanFive.compile .global {} = .ok p ∧ p.maxStackDepth = 2 :=
    exists_of_map (by cbv)
  obtain ⟨p', hp', hdepth'⟩ : ∃ p, moreThanFive.erase.compile .global {} = .ok p ∧ p.maxStackDepth = 3 :=
    exists_of_map (by cbv)
  have hunmixed : moreThanFive.expr.Unmixed := ⟨trivial, ⟨trivial, ⟨trivial, trivial⟩, trivial⟩, trivial⟩
  have hpure : ∀ name f, five name = some f → Native.IsPure f := by
    rintro name f ⟨⟩ arguments s t
    rfl
  have hdeclared : (moreThanFive.expr.evaluate ⟨.empty, five⟩ (.initial ())).2.declared =
      #[(.known .int, .int 5)] := rfl
  have htruthful : moreThanFive.expr.Truthful ⟨.empty, five⟩ () := by
    intro q hq
    rw [hdeclared, List.mem_toArray, List.mem_singleton] at hq
    subst hq
    rfl
  exact ⟨p, p', hp, hp', run_erase hp hp' hunmixed hpure htruthful
    (not_hitsLimit_of_compile hp .empty five (by omega) ())
    (not_hitsLimit_of_compile hp' .empty five (by omega) ())⟩

end ExprRoot

end TemplateExpr
