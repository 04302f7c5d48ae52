import TemplateExpr.Proofs.Execution.Branch
import TemplateExpr.Proofs.Execution.Operator

/-!
# Logic and choices

The emitters that skip an operand. What is on the stack below is the same on both ways, and both end at the same place
with one slot more.
-/

namespace TemplateExpr

open Evaluation Assembler Emitter

namespace Setting

variable {σ : Type} {E : Setting σ} {span : Span} {l r : Emitter} {o p : Operand σ}

/-! ### Recording -/

/-- A node with a declared type computes what it would without. -/
theorem Computes.declare {x : Emitter} (h : E.Computes x o) (type : StaticType) :
    E.Computes x { o with value := o.value >>= Evaluation.declare type } := by
  obtain ⟨r, m, hvalue, hx⟩ := h.leaves
  have hleaves : E.Leaves x r (m >>= fun v => (fun _ => v) <$> Evaluation.declare type (r.value v)) :=
    ⟨hx.representation, hx.quiet, hx.falls, hx.subs, fun a S => (hx.runs a S).declare type r.value⟩
  refine hleaves.computes h.type h.span ?_
  simp only [hvalue, bind_map_left, map_bind]
  refine bind_congr fun v => ?_
  rw [← comp_map]
  rfl

/-! ### Logic -/

theorem Computes.shortCircuit (decided : Bool) (hl : E.Computes l o) (hr : E.Computes r p) :
    E.Leaves (Emitter.shortCircuit decided span l r) (.exact .bool) (Operand.shortCircuit decided o p) := by
  have hkind : (if decided then JumpKind.ifTrue else .ifFalse) ≠ .always := by cases decided <;> exact nofun
  refine .of_steps rfl ?_ (by cases decided <;> rfl) ?_ fun base a S hspan hlabels => ?_
  · intro d hd
    simp only [Emitter.shortCircuit, make, List.mem_cons, reduceCtorEq, Step.directive.injEq, List.not_mem_nil,
      or_false, false_or] at hd
    obtain rfl | rfl | rfl | rfl | rfl := hd <;> rfl
  · intro x hx
    simp only [Emitter.shortCircuit, make, List.mem_cons, reduceCtorEq, Step.sub.injEq, List.not_mem_nil, or_false,
      false_or] at hx
    obtain rfl | rfl := hx
    · exact hl.truth.regular
    · exact hr.truth.regular
  · refine (Runs.sub (k := fun b => if b = decided then pure (S.push (.bool decided)) else
      (fun v => S.push (.bool v)) <$> p.truth) hl.truth fun b a' _ hsize => ?_).congr ?_
    · simp only [assembleSteps, Directive.shift]
      have hlabel : base + 2 ≤ a'.labels.size := Nat.le_trans hlabels hsize
      have hdecided : ∀ span S, E.Applies (.pushBool decided) span S (pure (S.push (.bool decided))) := by
        cases decided with
        | false => exact fun _ _ => .leaf (i := ⟨.pushFalse, ()⟩) (fun _ => rfl) rfl fun _ _ => rfl
        | true => exact fun _ _ => .leaf (i := ⟨.pushTrue, ()⟩) (fun _ => rfl) rfl fun _ _ => rfl
      have hbranch := Runs.branch hkind (show base + 0 < a'.labels.size by omega)
        (show base + 1 < a'.labels.size by omega) (r.toBool.precedes_assemble _) (precedes_apply _ (.pushBool decided))
        (hr.truth.regular.keeps _) (hr.truth.runs (a'.jump _ (base + 0)) S) (hdecided _ S _ rfl) b
      refine hbranch.congr ?_
      -- the jump is taken exactly if the left side decides
      cases b <;> cases decided <;> rfl
    · simp only [Operand.shortCircuit, map_bind]
      refine bind_congr fun b => ?_
      split <;> rfl

theorem Computes.not (hl : E.Computes l o) :
    E.Leaves (Emitter.not span l) (.exact .bool) ((!·) <$> o.truth) :=
  hl.truth.complement rfl rfl

/-! ### Choices -/

/-- One of two emitters with the same representation. -/
private theorem Leaves.branch {c x y z : Emitter} {r : Representation} {condition : Evaluation σ Bool}
    {m m' : Evaluation σ r.Content} (hc : E.Leaves c (.exact .bool) condition) (hx : E.Leaves x r m)
    (hy : E.Leaves y r m') (hz : z.representation = r) (hlabels : z.labels = 2)
    (hbody : z.body = [.sub c, .directive (.jump .ifFalse 0), .sub x, .directive (.jump .always 1),
      .directive (.mark 0), .sub y, .directive (.mark 1)]) :
    E.Leaves z r (do if ← condition then m else m') := by
  refine .of_steps hz ?_ (by rw [hlabels, hbody]; rfl) ?_ fun base a S _ hsize => ?_
  · intro d hd
    simp only [hbody, List.mem_cons, reduceCtorEq, Step.directive.injEq, List.not_mem_nil, or_false, false_or] at hd
    obtain rfl | rfl | rfl | rfl := hd <;> rfl
  · intro x' hx'
    simp only [hbody, List.mem_cons, reduceCtorEq, Step.sub.injEq, List.not_mem_nil, or_false, false_or] at hx'
    obtain rfl | rfl | rfl := hx'
    · exact hc.regular
    · exact hx.regular
    · exact hy.regular
  · rw [hlabels] at hsize
    rw [hbody]
    refine (Runs.sub (k := fun b => (fun v => S.push (r.slot v)) <$> if b then m else m') hc
      fun b a' _ hsize' => ?_).congr ?_
    · simp only [assembleSteps, Directive.shift]
      have hbranch := Runs.branch (show JumpKind.ifFalse ≠ .always by decide)
        (show base + 0 < a'.labels.size by omega) (show base + 1 < a'.labels.size by omega) (x.precedes_assemble _)
        (y.precedes_assemble _) (hx.regular.keeps _) (hx.runs (a'.jump .ifFalse (base + 0)) S) (hy.runs _ S) b
      refine hbranch.congr ?_
      cases b <;> rfl
    · simp only [map_bind]

/-- The left side stays on the stack below the test whether it is null. -/
theorem Computes.orElse (type : StaticType) (hl : E.Computes l o) (hr : E.Computes r p) :
    E.Computes (Emitter.orElse type span l r) ⟨type, span, o.orElse type p⟩ := by
  have hleaves : E.Leaves (Emitter.orElse type span l r) .boxed (do
      let a ← o.value
      if a.isNull then p.value else pure a) := by
    refine .of_steps rfl ?_ rfl ?_ fun base a S hspan hlabels => ?_
    · intro d hd
      simp only [Emitter.orElse, make, List.mem_cons, reduceCtorEq, Step.directive.injEq, List.not_mem_nil, or_false,
        false_or] at hd
      obtain rfl | rfl | rfl | rfl | rfl := hd <;> rfl
    · intro x hx
      simp only [Emitter.orElse, make, List.mem_cons, reduceCtorEq, Step.sub.injEq, List.not_mem_nil, or_false,
        false_or] at hx
      obtain rfl | rfl := hx
      · exact hl.boxed.regular
      · exact hr.boxed.regular
    · refine (Runs.sub (k := fun (v : Value) => (fun u => S.push (.ref u)) <$> if v.isNull then p.value else pure v)
        hl.boxed fun v a₁ hspan₁ hsize₁ => ?_).congr ?_
      · -- the test takes off a copy, so the value is there on both ways
        refine Runs.plain rfl (Applies.dup (.ref v) a₁ rfl) fun a₂ _ hsize₂ => ?_
        have hnull : E.Runs a₂ (a₂.apply (.invoke .isNull)) ((S.push (.ref v)).push (.ref v))
            (pure ((S.push (.ref v)).push (.bool v.isNull))) := Applies.invoke₁ (f := .isNull) rfl (.ref v) a₂ rfl
        refine Runs.plain rfl hnull fun a₃ _ hsize₃ => ?_
        have hright : E.Runs (a₃.jump .ifFalse (base + 0))
            (assembleSteps base [.directive (.emit .pop), .sub r.toBoxed] (a₃.jump .ifFalse (base + 0)))
            (S.push (.ref v)) ((fun u => S.push (.ref u)) <$> p.value) := by
          refine Runs.plain rfl (Applies.pop (.ref v) _ rfl) fun a₅ _ _ => ?_
          exact (Runs.sub hr.boxed fun w _ _ _ => Runs.nil).congr (bind_pure_comp _ _)
        have hlabel : base + 0 < a₃.labels.size := by
          have hbase : base + 1 ≤ a.labels.size := hlabels
          omega
        have hskip := Runs.skip (show JumpKind.ifFalse ≠ .always by decide) hlabel
          (precedes_assembleSteps _ _ base) hright v.isNull
        simp only [assembleSteps, Directive.shift] at hskip ⊢
        refine hskip.congr ?_
        cases v.isNull <;> rfl
      · simp only [map_bind]
        rfl
  have hcomputes : E.Computes (Emitter.orElse type span l r) ⟨type, span, _⟩ :=
    hleaves.computes rfl rfl (id_map _).symm
  have hdeclared := hcomputes.declare type
  simp only [bind_assoc] at hdeclared
  exact hdeclared

/-- The types of the branches decide into which form both are brought. -/
theorem Computes.conditional (type : StaticType) {c : Emitter} {condition : Operand σ} (hc : E.Computes c condition)
    (hl : E.Computes l o) (hr : E.Computes r p) :
    E.Computes (Emitter.conditional type span c l r)
      ⟨.conditional type o.type p.type, span, Operand.conditional type condition o p⟩ := by
  have hcomputes : E.Computes (Emitter.conditional type span c l r) ⟨.conditional type o.type p.type, span, do
      let b ← condition.truth
      Operand.branch o p (if b then o else p)⟩ := by
    simp only [Emitter.conditional, commonRepresentation, Bool.and_eq_true, hl.isKnownInt_iff, hr.isKnownInt_iff,
      hl.isKnownNumber_iff, hr.isKnownNumber_iff, hl.isKnownString_iff, hr.isKnownString_iff, StaticType.conditional,
      Operand.branch]
    by_cases hi : o.type = .known .int ∧ p.type = .known .int
    · simp only [if_pos hi]
      refine (Leaves.branch hc.truth hl.int hr.int rfl rfl rfl).computes rfl rfl ?_
      change _ = Value.int <$> _
      simp only [map_bind]
      exact bind_congr fun b => by cases b <;> exact bind_pure_comp _ _
    · by_cases hn : o.type.isNumber ∧ p.type.isNumber
      · simp only [if_neg hi, if_pos hn]
        refine (Leaves.branch hc.truth hl.float hr.float rfl rfl rfl).computes rfl rfl ?_
        change _ = Value.float <$> _
        simp only [map_bind]
        exact bind_congr fun b => by cases b <;> exact bind_pure_comp _ _
      · by_cases hs : o.type = .known .string ∧ p.type = .known .string
        · simp only [if_neg hi, if_neg hn, if_pos hs]
          refine (Leaves.branch hc.truth hl.text hr.text rfl rfl rfl).computes rfl rfl ?_
          change _ = Value.string <$> _
          simp only [map_bind]
          exact bind_congr fun b => by cases b <;> exact bind_pure_comp _ _
        · simp only [if_neg hi, if_neg hn, if_neg hs]
          refine (Leaves.branch hc.truth hl.boxed hr.boxed rfl rfl rfl).computes rfl rfl ?_
          change _ = id <$> _
          rw [id_map]
          exact bind_congr fun b => by cases b <;> rfl
  have hdeclared := hcomputes.declare type
  simp only [bind_assoc] at hdeclared
  exact hdeclared

end Setting

end TemplateExpr
