import TemplateExpr.Proofs.Compilation.Induction
import TemplateExpr.Proofs.Execution.Collection

/-!
# Emitters of expressions

The emitter that an expression is compiled to computes the expression's evaluation, in every finished program that it
becomes a part of (`Setting.computes_of_compile`, by induction on the compiled expression). The cases are the rules for
single nodes; what is left to do is to put those of the operators together.
-/

namespace TemplateExpr

open Evaluation Assembler

namespace Setting

variable {σ : Type} {E : Setting σ}

/-! ### Operators -/

/-- The operand that an expression is. -/
def operand (E : Setting σ) (e : Expr) : Operand σ := ⟨e.staticType, e.span, e.evaluate E.scope⟩

theorem computes_unary {op : UnaryOp} {span : Span} {x : Emitter} {o : Operand σ} (h : E.Computes x o) :
    E.Computes (op.emitter span x) ⟨op.type o.type, span, op.evaluate span o⟩ := by
  cases op with
  | negate => exact h.negate
  | not =>
    refine h.not.computes rfl rfl ?_
    change _ = Value.bool <$> _
    rw [← comp_map, ← bind_pure_comp]
    rfl

/-- A bool counts as a value. -/
private theorem Leaves.computes_bool {x : Emitter} {m : Evaluation σ Bool} {span : Span}
    (h : E.Leaves x (.exact .bool) m) (htype : x.type = .known .bool) (hspan : x.span = span) :
    E.Computes x ⟨.known .bool, span, do return .bool (← m)⟩ :=
  h.computes htype hspan (bind_pure_comp _ _)

private theorem comparison_of_relation (onInts onFloats : Opcode) (generic : RuntimeFunction) (reversed : Bool)
    (span : Span) (x y : Emitter) :
    ∃ l r d, Emitter.relation onInts onFloats generic reversed span x y = .comparison span l r d := by
  unfold Emitter.relation
  repeat' split
  all_goals exact ⟨_, _, _, rfl⟩

private theorem comparison_of_equality (span : Span) (x y : Emitter) :
    ∃ l r d, Emitter.equality span x y = .comparison span l r d := by
  unfold Emitter.equality Emitter.stringEquality
  repeat' split
  all_goals exact ⟨_, _, _, rfl⟩

private theorem computes_comparison {x : Emitter} {m : Evaluation σ Bool} {span : Span}
    (hx : ∃ l r d, x = .comparison span l r d) (h : E.Leaves x (.exact .bool) m) :
    E.Computes x ⟨.known .bool, span, do return .bool (← m)⟩ := by
  obtain ⟨l, r, d, rfl⟩ := hx
  exact h.computes_bool rfl rfl

theorem computes_binary {op : BinaryOp} {type : StaticType} {span : Span} {x y : Emitter} {o p : Operand σ}
    (hx : E.Computes x o) (hy : E.Computes y p) :
    E.Computes (op.emitter type span x y) ⟨op.type type o.type p.type, span, op.evaluate type span o p⟩ := by
  cases op with
  | add => exact hx.plus hy
  | sub =>
    exact hx.arithmetic hy (fun a b S => .ints (i := ⟨.intSub, ()⟩) (fun _ => rfl) rfl (fun _ _ => rfl) a b)
      (fun a b S => .floats (i := ⟨.floatSub, ()⟩) (fun _ => rfl) rfl (fun _ _ => rfl) a b) rfl rfl fun a b => rfl
  | mul =>
    exact hx.arithmetic hy (fun a b S => .ints (i := ⟨.intMul, ()⟩) (fun _ => rfl) rfl (fun _ _ => rfl) a b)
      (fun a b S => .floats (i := ⟨.floatMul, ()⟩) (fun _ => rfl) rfl (fun _ _ => rfl) a b) rfl rfl fun a b => rfl
  | div => exact hx.divide hy
  | mod => exact hx.remainder hy
  | eq => exact computes_comparison (comparison_of_equality ..) (hx.equality hy)
  | ne =>
    refine ((hx.equality hy).complement rfl rfl).computes rfl rfl ?_
    change _ = Value.bool <$> _
    rw [← comp_map, ← bind_pure_comp]
    rfl
  | lt =>
    exact computes_comparison (comparison_of_relation ..) (hx.relation hy
      (fun a b S => .ints (i := ⟨.intLt, ()⟩) (fun _ => rfl) rfl (fun _ _ => rfl) a b)
      (fun a b S => .floats (i := ⟨.floatLt, ()⟩) (fun _ => rfl) rfl (fun _ _ => rfl) a b) rfl rfl fun a b => rfl)
  | le =>
    exact computes_comparison (comparison_of_relation ..) (hx.relation hy
      (fun a b S => .ints (i := ⟨.intLe, ()⟩) (fun _ => rfl) rfl (fun _ _ => rfl) a b)
      (fun a b S => .floats (i := ⟨.floatLe, ()⟩) (fun _ => rfl) rfl (fun _ _ => rfl) a b) rfl rfl fun a b => rfl)
  | gt =>
    exact computes_comparison (comparison_of_relation ..) (hx.relation hy
      (fun a b S => .ints (i := ⟨.intGt, ()⟩) (fun _ => rfl) rfl (fun _ _ => rfl) a b)
      (fun a b S => .floats (i := ⟨.floatGt, ()⟩) (fun _ => rfl) rfl (fun _ _ => rfl) a b) rfl rfl fun a b => rfl)
  | ge =>
    exact computes_comparison (comparison_of_relation ..) (hx.relation hy
      (fun a b S => .ints (i := ⟨.intGe, ()⟩) (fun _ => rfl) rfl (fun _ _ => rfl) a b)
      (fun a b S => .floats (i := ⟨.floatGe, ()⟩) (fun _ => rfl) rfl (fun _ _ => rfl) a b) rfl rfl fun a b => rfl)
  | and => exact (hx.shortCircuit false hy).computes_bool rfl rfl
  | or => exact (hx.shortCircuit true hy).computes_bool rfl rfl
  | orElse => exact hx.orElse type hy

/-! ### Expressions -/

/-- The emitter of an expression computes its evaluation, in every program that it becomes a part of. -/
theorem computes_of_compile {e : Expr} {x : Emitter} (h : e.compile .global = .ok x) : E.Computes x (E.operand e) := by
  refine Expr.induct_compile (P := fun e x => E.Computes x (E.operand e)) ?literal ?var ?field ?item ?call ?unary
    ?binary ?conditional ?emptyList ?list ?emptyMap ?map h
  case literal => exact fun v s => computes_literal v
  case var => exact fun n t s => (computes_global n t).declare t
  case field =>
    intro b y n t s hb
    -- a field is an item whose key is known
    have hitem : E.Computes (Emitter.getItem t y.constant s y.toBoxed (.string n s)) ⟨t, s, _⟩ :=
      computes_item hb.holds.boxed (leaves_string n)
    have hdeclared := hitem.declare t
    simp only [pure_bind, bind_assoc] at hdeclared
    exact hdeclared
  case item =>
    intro b k y z t s hb hk
    have hitem : E.Computes (Emitter.getItem t (y.constant && z.constant) s y.toBoxed z.toBoxed) ⟨t, s, _⟩ :=
      computes_item hb.holds.boxed hk.holds.boxed
    have hdeclared := hitem.declare t
    simp only [bind_assoc] at hdeclared
    exact hdeclared
  case call =>
    intro n as xs t s has hlength
    have hcall : E.Computes (Emitter.nativeCall n t s xs) ⟨t, s, _⟩ :=
      computes_call n t (has.imp fun e y hy => hy.holds.boxed) (Nat.lt_succ_of_le hlength)
    have hdeclared := hcall.declare t
    simp only [bind_assoc] at hdeclared
    exact hdeclared
  case unary => exact fun o e y t s he => computes_unary he.holds
  case binary => exact fun o l r y z t s hl hr => computes_binary hl.holds hr.holds
  case conditional => exact fun c a b x y z t s hc ha hb => hc.holds.conditional t ha.holds hb.holds
  case emptyList => exact fun s => computes_emptyList
  case list => exact fun es xs s _ hes => computes_list (hes.imp fun e y hy => hy.holds.boxed)
  case emptyMap => exact fun s => computes_emptyMap
  case map =>
    intro es xs s _ hes
    refine computes_map (hes.imp fun e y hy => ⟨?_, hy.2.holds.boxed⟩)
    have htext := hy.1.holds.text
    rwa [Operand.text, bind_pure_comp] at htext

end Setting

end TemplateExpr
