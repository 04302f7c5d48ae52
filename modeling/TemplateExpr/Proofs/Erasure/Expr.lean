import TemplateExpr.Proofs.Erasure.Operator

/-!
# Expressions denote their meaning without types

If native functions are pure and no conditional is mixed, the evaluation of an expression succeeds exactly if it has a
meaning without types, with this meaning as its value, provided that all declared types can be relied upon in the end
(`Expr.denotes`, by induction on the expression). Nothing is declared of an erased expression, so there is nothing to be
relied upon, and it has the same meaning; hence both evaluations come to the same value (`Expr.evaluate_erase`).
-/

namespace TemplateExpr

open Evaluation

/-! ### Names -/

/-- The answers of a native function do not depend on the host's state. -/
def Native.IsPure {σ : Type} (f : Native σ) : Prop := ∀ arguments s t, (f arguments s).1 = (f arguments t).1

namespace Scope

variable {σ : Type} {D : StaticType → Value → Prop} {scope : Scope σ}

/-- What names mean, asked in one state of the host. -/
def names (scope : Scope σ) (host : σ) : Names where
  global := scope.globals.get?
  call name arguments := (scope.natives name).bind fun f => (f arguments host).1.toOption

theorem denotes_global (name : String) (span : Span) (host : σ) :
    Denotes D (scope.global name span) ((scope.names host).global name) fun v u => u = v := by
  simp only [global, names]
  cases scope.globals.get? name with
  | some v => exact .pure rfl
  | none => exact .raise _ _

theorem denotes_call (hpure : ∀ name f, scope.natives name = some f → Native.IsPure f) (name : String)
    (arguments : List Value) (span : Span) (host : σ) :
    Denotes D (scope.call name arguments span) ((scope.names host).call name arguments) fun v u => u = v := by
  cases hf : scope.natives name with
  | none =>
    have hcall : scope.call name arguments span = raise (.unknownFunction name) span := by
      funext w
      simp only [call, hf]
    simp only [names, hf, hcall, Option.bind_none]
    exact .raise _ _
  | some f =>
    simp only [names, hf, Option.bind_some]
    refine ⟨fun w hw => ?_, fun w _ => ?_⟩
    · simp only [call, hf] at hw
      rcases hans : f arguments w.host with ⟨e | v, t⟩ <;> rw [hans] at hw <;> exact hw
    · rw [hpure name f hf arguments host w.host]
      simp only [call, hf]
      rcases hans : f arguments w.host with ⟨e | v, t⟩
      · exact .none
      · exact .some rfl

end Scope

/-! ### Operators -/

section Operator

variable {σ : Type} {D : StaticType → Value → Prop} {span : Span} {l r : Operand σ} {x y : Option Value}

theorem UnaryOp.denotes (op : UnaryOp) (hl : l.Denotes D x) :
    Denotes D (op.evaluate span l) (op.dynamic x) fun v u => u = v ∧ (op.type l.type).Fits v := by
  cases op with
  | negate => exact hl.negate
  | not =>
    refine hl.truth.bind (fun b => .pure _) ?_
    rintro u _ rfl
    exact .pure ⟨rfl, trivial⟩

/-- A comparison as an operator. -/
private theorem denotes_comparison {m : Evaluation σ Bool} {f : Value → Value → Option Bool} (g : Bool → Bool)
    (h : Denotes D m (x.bind fun u => y.bind fun v => f u v) fun a b => b = a) :
    Denotes D (do return .bool (g (← m))) (x.bind fun u => y.bind fun v => (f u v).bind fun b => some (.bool (g b)))
      fun v u => u = v ∧ (StaticType.known .bool).Fits v := by
  have hbind : Denotes D (do return Value.bool (g (← m)))
      ((x.bind fun u => y.bind fun v => f u v).bind fun b => some (.bool (g b)))
      fun v u => u = v ∧ (StaticType.known .bool).Fits v := by
    refine h.bind (fun b => .pure _) ?_
    rintro b _ rfl
    exact .pure ⟨rfl, trivial⟩
  simpa only [Option.bind_assoc] using hbind

theorem BinaryOp.denotes (op : BinaryOp) {type : StaticType} (htype : ∀ v, D type v → type.Fits v)
    (hl : l.Denotes D x) (hr : r.Denotes D y) :
    Denotes D (op.evaluate type span l r) (op.dynamic x y) fun v u => u = v ∧ (op.type type l.type r.type).Fits v := by
  cases op with
  | add => exact hl.plus hr
  | sub => exact hl.arithmetic (fun a b => rfl) (fun h => h.arithmetic ..) hr
  | mul => exact hl.arithmetic (fun a b => rfl) (fun h => h.arithmetic ..) hr
  | div => exact hl.divide hr
  | mod => exact hl.remainder hr
  | eq => exact denotes_comparison id (hl.equality hr)
  | ne => exact denotes_comparison (!·) (hl.equality hr)
  | lt =>
    exact denotes_comparison id (hl.relation (f := Value.lessThan) (fun _ _ => rfl) Value.lessThan_int
      (fun h => h.lessThan) hr)
  | le =>
    exact denotes_comparison id (hl.relation (f := Value.lessThanOrEqual) (fun _ _ => rfl) Value.lessThanOrEqual_int
      (fun h => h.lessThanOrEqual) hr)
  | gt =>
    exact denotes_comparison id (hl.relation (f := fun u v => v.lessThan u) (fun _ _ => rfl)
      (fun a b => Value.lessThan_int b a) (fun h => h.swap.lessThan) hr)
  | ge =>
    exact denotes_comparison id (hl.relation (f := fun u v => v.lessThanOrEqual u) (fun _ _ => rfl)
      (fun a b => Value.lessThanOrEqual_int b a) (fun h => h.swap.lessThanOrEqual) hr)
  | and => exact (hl.shortCircuit false hr).map fun v b hb => ⟨hb.symm, trivial⟩
  | or => exact (hl.shortCircuit true hr).map fun v b hb => ⟨hb.symm, trivial⟩
  | orElse => exact hl.orElse htype hr

end Operator

/-! ### Expressions -/

namespace Expr

variable {σ : Type} {D : StaticType → Value → Prop} {scope : Scope σ}

/-- The declared type of a node can be relied upon, and the node is no conditional with mixed branches. -/
def Relies (D : StaticType → Value → Prop) : Expr → Prop
  | var _ t _ | field _ _ t _ | item _ _ t _ | call _ _ t _ | binary _ _ _ t _ => ∀ v, D t v → t.Fits v
  | conditional _ a b t _ => (∀ v, D t v → t.Fits v) ∧ ¬ a.staticType.Mixes b.staticType
  | _ => True

private theorem denotes_list {names : Names} {es : List Expr}
    (h : ∀ e ∈ es, Denotes D (e.evaluate scope) (e.dynamic names) fun v u => u = v) :
    Denotes D (evaluateList scope es) (dynamicList names es) fun vs us => us = vs := by
  induction es with
  | nil => exact .pure rfl
  | cons e es ih =>
    simp only [evaluateList, dynamicList]
    refine (h e List.mem_cons_self).combine (ih fun e he => h e (List.mem_cons_of_mem _ he)) ?_
    rintro _ v _ vs rfl rfl
    rfl

private theorem denotes_entries {names : Names} {es : List (Expr × Expr)}
    (h : ∀ e ∈ es, Denotes D (e.1.evaluate scope) (e.1.dynamic names) (fun v u => u = v) ∧
      Denotes D (e.2.evaluate scope) (e.2.dynamic names) fun v u => u = v) :
    Denotes D (evaluateEntries scope es) (dynamicEntries names es) fun vs us => us = vs := by
  induction es with
  | nil => exact .pure rfl
  | cons e es ih =>
    obtain ⟨hk, hv⟩ := h e List.mem_cons_self
    have hes := ih fun e he => h e (List.mem_cons_of_mem _ he)
    simp only [evaluateEntries, dynamicEntries]
    refine hk.bind (fun k => hv.grows.bind fun v => hes.grows.bind fun vs => .pure _) ?_
    rintro _ k rfl
    refine hv.combine hes ?_
    rintro _ v _ vs rfl rfl
    rfl

/-- The evaluation of an expression denotes its meaning without types, of its static type. -/
theorem denotes (hpure : ∀ name f, scope.natives name = some f → Native.IsPure f) (host : σ) {e : Expr}
    (h : e.All (Relies D)) :
    Denotes D (e.evaluate scope) (e.dynamic (scope.names host)) fun v u => u = v ∧ e.staticType.Fits v := by
  induction e using Expr.induct with
  | literal v s =>
    rw [evaluate, dynamic]
    refine .pure ⟨rfl, ?_⟩
    cases v <;> first | rfl | trivial
  | var n t s =>
    rw [evaluate, dynamic]
    exact (scope.denotes_global n s host).declared_same h
  | field b n t s ih =>
    rw [evaluate, dynamic]
    have hitem : Denotes D (do let base ← b.evaluate scope; lift (base.item (.string n)) s)
        ((b.dynamic (scope.names host)).bind fun u => (u.item (.string n)).toOption) fun v u => u = v := by
      refine (ih h.2).bind (fun u => .lift _ _) ?_
      rintro _ u ⟨rfl, -⟩
      exact .lift _ _
    have hdeclared := hitem.declared_same h.1
    rwa [bind_assoc] at hdeclared
  | item b k t s ihb ihk =>
    rw [evaluate, dynamic]
    have hitem : Denotes D (do let base ← b.evaluate scope; let key ← k.evaluate scope; lift (base.item key) s)
        ((b.dynamic (scope.names host)).bind fun u => (k.dynamic (scope.names host)).bind fun v => (u.item v).toOption)
        fun v u => u = v := by
      refine (ihb h.2.1).both (ihk h.2.2) (fun u v => .lift _ _) ?_
      rintro _ u _ v ⟨rfl, -⟩ ⟨rfl, -⟩
      exact .lift _ _
    have hdeclared := hitem.declared_same h.1
    simp only [bind_assoc] at hdeclared
    exact hdeclared
  | call n as t s ih =>
    rw [evaluate, dynamic]
    have hcall : Denotes D (do let arguments ← evaluateList scope as; scope.call n arguments s)
        ((dynamicList (scope.names host) as).bind fun vs => (scope.names host).call n vs) fun v u => u = v := by
      have has := denotes_list fun e he => (ih e he (allList_iff.1 h.2 e he)).mono fun _ _ h => h.1
      refine has.bind (fun vs => (Scope.denotes_call hpure n vs s host).grows) ?_
      rintro _ vs rfl
      exact Scope.denotes_call hpure n vs s host
    have hdeclared := hcall.declared_same h.1
    rwa [bind_assoc] at hdeclared
  | unary o e t s ih =>
    rw [evaluate, dynamic]
    exact o.denotes (l := ⟨_, _, _⟩) (ih h.2)
  | binary o l r t s ihl ihr =>
    rw [evaluate, dynamic]
    exact o.denotes (l := ⟨_, _, _⟩) (r := ⟨_, _, _⟩) h.1 (ihl h.2.1) (ihr h.2.2)
  | conditional c a b t s ihc iha ihb =>
    rw [evaluate, dynamic]
    exact Operand.Denotes.conditional (c := ⟨_, _, _⟩) (l := ⟨_, _, _⟩) (r := ⟨_, _, _⟩) h.1.1 h.1.2 (ihc h.2.1)
      (iha h.2.2.1) (ihb h.2.2.2)
  | list es s ih =>
    rw [evaluate, dynamic]
    have hes := denotes_list fun e he => (ih e he (allList_iff.1 h.2 e he)).mono fun _ _ h => h.1
    refine hes.bind (fun vs => .pure _) ?_
    rintro _ vs rfl
    exact .pure ⟨rfl, trivial⟩
  | map es s ih =>
    rw [evaluate, dynamic]
    have hes := denotes_entries fun e he =>
      ⟨((ih e he).1 (allEntries_iff.1 h.2 e he).1).mono fun _ _ h => h.1,
        ((ih e he).2 (allEntries_iff.1 h.2 e he).2).mono fun _ _ h => h.1⟩
    refine hes.bind (fun vs => .pure _) ?_
    rintro _ vs rfl
    exact .pure ⟨rfl, trivial⟩

/-! ### Erasure -/

/-- No conditional has an integer in one branch and a float in the other, as far as their static types say. -/
def Unmixed (e : Expr) : Prop :=
  e.All fun
    | conditional _ a b _ _ => ¬ a.staticType.Mixes b.staticType
    | _ => True

theorem Unmixed.relies {e : Expr} (h : e.Unmixed) : e.All (Relies StaticType.Fits) := by
  refine h.mono fun e he => ?_
  cases e with
  | conditional c a b t s => exact ⟨fun _ hv => hv, he⟩
  | literal v s => trivial
  | unary o e t s => trivial
  | list es s => trivial
  | map es s => trivial
  | _ => exact fun _ hv => hv

/-- Nothing need be relied upon in an erased expression. -/
theorem Unmixed.relies_erase {e : Expr} (h : e.Unmixed) : e.erase.All (Relies fun _ _ => True) := by
  refine All.erase (fun e he => ?_) h
  cases e with
  | conditional c a b t s =>
    -- types that are still known are as before, so the branches would have been mixed before
    refine ⟨fun _ _ => trivial, fun hmix => he ?_⟩
    obtain ha | ha := staticType_erase a
    · obtain hb | hb := staticType_erase b
      · rwa [ha, hb] at hmix
      · rw [hb] at hmix
        obtain ⟨-, hint⟩ | ⟨-, hint⟩ := hmix <;> cases hint
    · rw [ha] at hmix
      obtain ⟨hint, -⟩ | ⟨hint, -⟩ := hmix <;> cases hint
  | literal v s => trivial
  | unary o e t s => trivial
  | list es s => trivial
  | map es s => trivial
  | _ => exact fun _ _ => trivial

/-- An expression and its erasure come to the same value, if they come to one. -/
theorem evaluate_erase (hpure : ∀ name f, scope.natives name = some f → Native.IsPure f) {e : Expr} (h : e.Unmixed)
    {w : World σ} (hw : (e.evaluate scope w).2.Honest StaticType.Fits) (w' : World σ) :
    (e.evaluate scope w).1.toOption = (e.erase.evaluate scope w').1.toOption := by
  have htyped := (denotes hpure w.host h.relies).mono fun _ _ hvu => hvu.1
  have herased := (denotes (D := fun _ _ => True) hpure w.host h.relies_erase).mono fun _ _ hvu => hvu.1
  rw [htyped.toOption_eq hw, herased.toOption_eq fun _ _ => trivial, dynamic_erase]

end Expr

end TemplateExpr
