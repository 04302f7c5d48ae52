import TemplateExpr.Proofs.Evaluation.Operator
import TemplateExpr.Proofs.Execution.Directive

/-!
# Conversions

An emitter computes an operand if it leaves the operand's value in whatever form, and has the operand's static type and
span (`Setting.Computes`). Each conversion of the emitter then leaves what the same conversion of the operand gives; the
form that the value had makes no difference.
-/

namespace TemplateExpr

open Evaluation Emitter

/-- What an emitter emits does not depend on what it promises. -/
theorem Emitter.assemble_retag (x : Emitter) (r : Representation) (a : Assembler) :
    assemble { x with representation := r } a = x.assemble a := by
  obtain ⟨r', t, c, span, labels, body⟩ := x
  rw [assemble, assemble]

namespace Setting

variable {σ : Type} {E : Setting σ}

/-! ### Emitters with one or two others inside -/

section Shape

variable {x y z : Emitter} {r r' r'' : Representation} {m : Evaluation σ r.Content} {m' : Evaluation σ r'.Content}
  {d : Directive}

/-- An emitter, then a directive on its slot. -/
theorem Leaves.andThen {k : r.Content → Evaluation σ r'.Content} (hx : E.Leaves x r m) (hy : y.representation = r')
    (hbody : y.body = [.sub x, .directive d]) (hd : d.isPlain = true)
    (h : ∀ v (S : Stack), E.Applies d y.span (S.push (r.slot v)) ((fun w => S.push (r'.slot w)) <$> k v)) :
    E.Leaves y r' (m >>= k) := by
  refine .of_plain hy ?_ ?_ fun base a S hspan => ?_
  · intro d' hd'
    rw [hbody] at hd'
    simp only [List.mem_cons, reduceCtorEq, Step.directive.injEq, List.not_mem_nil, or_false, false_or] at hd'
    exact hd' ▸ hd
  · intro x' hx'
    rw [hbody] at hx'
    simp only [List.mem_cons, reduceCtorEq, Step.sub.injEq, List.not_mem_nil, or_false] at hx'
    exact hx' ▸ hx.regular
  · rw [hbody]
    refine (Runs.sub hx fun v a' hspan' _ => Runs.directive hd (h v S a' (hspan'.trans hspan))
      fun w _ _ _ => Runs.nil).congr ?_
    simp only [map_eq_pure_bind, bind_assoc]

/-- An emitter, then a directive that cannot fail. -/
theorem Leaves.mapped {g : r.Content → r'.Content} (hx : E.Leaves x r m) (hy : y.representation = r')
    (hbody : y.body = [.sub x, .directive d]) (hd : d.isPlain = true)
    (h : ∀ v (S : Stack), E.Applies d y.span (S.push (r.slot v)) (pure (S.push (r'.slot (g v))))) :
    E.Leaves y r' (g <$> m) := by
  rw [← bind_pure_comp]
  exact hx.andThen hy hbody hd fun v S => by rw [map_pure]; exact h v S

/-- Two emitters, then a directive on their slots. -/
theorem Leaves.both {k : r.Content → r'.Content → Evaluation σ r''.Content} (hx : E.Leaves x r m)
    (hy : E.Leaves y r' m') (hz : z.representation = r'') (hbody : z.body = [.sub x, .sub y, .directive d])
    (hd : d.isPlain = true)
    (h : ∀ u v (S : Stack), E.Applies d z.span ((S.push (r.slot u)).push (r'.slot v))
      ((fun w => S.push (r''.slot w)) <$> k u v)) :
    E.Leaves z r'' (do let u ← m; let v ← m'; k u v) := by
  refine .of_plain hz ?_ ?_ fun base a S hspan => ?_
  · intro d' hd'
    rw [hbody] at hd'
    simp only [List.mem_cons, reduceCtorEq, Step.directive.injEq, List.not_mem_nil, or_false, false_or] at hd'
    exact hd' ▸ hd
  · intro x' hx'
    rw [hbody] at hx'
    simp only [List.mem_cons, reduceCtorEq, Step.sub.injEq, List.not_mem_nil, or_false] at hx'
    obtain rfl | rfl := hx'
    · exact hx.regular
    · exact hy.regular
  · rw [hbody]
    refine (Runs.sub hx fun u a₁ h₁ _ => Runs.sub hy fun v a₂ h₂ _ =>
      Runs.directive hd (h u v S a₂ (h₂.trans (h₁.trans hspan))) fun w _ _ _ => Runs.nil).congr ?_
    simp only [map_eq_pure_bind, bind_assoc]

/-- Two emitters, then a directive that cannot fail. -/
theorem Leaves.combined {g : r.Content → r'.Content → r''.Content} (hx : E.Leaves x r m) (hy : E.Leaves y r' m')
    (hz : z.representation = r'') (hbody : z.body = [.sub x, .sub y, .directive d]) (hd : d.isPlain = true)
    (h : ∀ u v (S : Stack), E.Applies d z.span ((S.push (r.slot u)).push (r'.slot v))
      (pure (S.push (r''.slot (g u v))))) :
    E.Leaves z r'' (do let u ← m; let v ← m'; return g u v) :=
  hx.both hy hz hbody hd fun u v S => by rw [map_pure]; exact h u v S

end Shape

/-! ### Operands -/

/-- An emitter leaves the value of an operand in some form. -/
structure Computes (E : Setting σ) (x : Emitter) (o : Operand σ) : Prop where
  type : x.type = o.type
  span : x.span = o.span
  leaves : ∃ (r : Representation) (m : Evaluation σ r.Content), o.value = r.value <$> m ∧ E.Leaves x r m

theorem Leaves.computes {x : Emitter} {r : Representation} {m : Evaluation σ r.Content} {o : Operand σ}
    (h : E.Leaves x r m) (htype : x.type = o.type) (hspan : x.span = o.span) (hvalue : o.value = r.value <$> m) :
    E.Computes x o :=
  ⟨htype, hspan, r, m, hvalue, h⟩

theorem Computes.regular {x : Emitter} {o : Operand σ} (h : E.Computes x o) : E.Regular x := by
  obtain ⟨r, m, -, hx⟩ := h.leaves
  exact hx.regular

/-- A reference may count as boxed. -/
theorem Leaves.retag {x : Emitter} {r : Representation} {m : Evaluation σ r.Content} (h : E.Leaves x r m)
    (hr : ∀ content, r.slot content = .ref (r.value content)) :
    E.Leaves { x with representation := .boxed } .boxed (r.value <$> m) := by
  refine ⟨rfl, h.quiet, h.falls, h.subs, fun a S => ?_⟩
  rw [assemble_retag]
  refine (h.runs a S).congr ?_
  rw [← comp_map]
  congr 1
  funext content
  exact congrArg S.push (hr content)

theorem span_toBoxed (x : Emitter) : x.toBoxed.span = x.span := by
  unfold toBoxed
  split <;> rfl

namespace Computes

variable {x : Emitter} {o : Operand σ}

theorem boxed (h : E.Computes x o) : E.Leaves x.toBoxed .boxed o.value := by
  obtain ⟨r, m, hvalue, hx⟩ := h.leaves
  rw [hvalue, toBoxed, hx.representation]
  cases r with
  | boxed => exact hx.retag fun _ => rfl
  | exact k =>
    cases k with
    -- unboxed slots are boxed by an instruction, and references need none
    | int => exact hx.mapped rfl rfl rfl fun n S => .int (i := ⟨.boxInt, ()⟩) (fun _ => rfl) rfl (fun _ _ => rfl) n
    | float =>
      exact hx.mapped rfl rfl rfl fun x S => .float (i := ⟨.boxFloat, ()⟩) (fun _ => rfl) rfl (fun _ _ => rfl) x
    | bool => exact hx.mapped rfl rfl rfl fun b S => .bool (i := ⟨.boxBool, ()⟩) (fun _ => rfl) rfl (fun _ _ => rfl) b
    | _ => exact hx.retag fun _ => rfl

theorem int (h : E.Computes x o) : E.Leaves x.toInt (.exact .int) o.int := by
  have hspan : (x.toBoxed.andThen (.exact .int) (.known .int) [.emit .unboxInt]).span = o.span :=
    (span_toBoxed x).trans h.span
  have hunboxed : E.Leaves (x.toBoxed.andThen (.exact .int) (.known .int) [.emit .unboxInt]) (.exact .int) o.int :=
    h.boxed.andThen rfl rfl rfl fun v S => hspan ▸ .unboxInt v
  obtain ⟨r, m, hvalue, hx⟩ := h.leaves
  rw [toInt, hx.representation]
  cases r with
  | boxed => exact hunboxed
  | exact k =>
    cases k with
    | int =>
      -- nothing is emitted, and the conversion of an integer gives it back
      have hint : o.int = m := by
        rw [Operand.int, hvalue, bind_map_left]
        exact bind_pure m
      exact hint ▸ hx
    | _ => exact hunboxed

theorem float (h : E.Computes x o) : E.Leaves x.toFloat (.exact .float) o.float := by
  have hspan : (x.toBoxed.andThen (.exact .float) (.known .float) [.emit .unboxFloat]).span = o.span :=
    (span_toBoxed x).trans h.span
  have hunboxed : E.Leaves (x.toBoxed.andThen (.exact .float) (.known .float) [.emit .unboxFloat]) (.exact .float)
      o.float := h.boxed.andThen rfl rfl rfl fun v S => hspan ▸ .unboxFloat v
  obtain ⟨r, m, hvalue, hx⟩ := h.leaves
  rw [toFloat, hx.representation]
  cases r with
  | boxed => exact hunboxed
  | exact k =>
    cases k with
    | float =>
      have hfloat : o.float = m := by
        rw [Operand.float, hvalue, bind_map_left]
        exact bind_pure m
      exact hfloat ▸ hx
    | int =>
      have hfloat : o.float = Binary64.ofInt64 <$> m := by
        rw [Operand.float, hvalue, bind_map_left, ← bind_pure_comp]
        rfl
      rw [hfloat]
      exact hx.mapped rfl rfl rfl fun n S => .int (i := ⟨.intToFloat, ()⟩) (fun _ => rfl) rfl (fun _ _ => rfl) n
    | _ => exact hunboxed

theorem truth (h : E.Computes x o) : E.Leaves x.toBool (.exact .bool) o.truth := by
  have htruth : o.truth = Value.isTruthy <$> o.value := by rw [Operand.truth, bind_pure_comp]
  have htested : E.Leaves (x.toBoxed.andThen (.exact .bool) (.known .bool) [.invoke .truthy]) (.exact .bool)
      o.truth := by
    rw [htruth]
    exact h.boxed.mapped rfl rfl rfl fun v S => .invoke₁ rfl (.ref v)
  obtain ⟨r, m, hvalue, hx⟩ := h.leaves
  rw [Emitter.toBool, hx.representation]
  rw [hvalue, ← comp_map] at htruth
  cases r with
  | boxed => exact htested
  | exact k =>
    cases k with
    | bool =>
      have hbool : o.truth = m := htruth.trans (id_map m)
      exact hbool ▸ hx
    | int =>
      rw [htruth]
      exact hx.mapped rfl rfl rfl fun n S => .int (i := ⟨.intToBool, ()⟩) (fun _ => rfl) rfl (fun _ _ => rfl) n
    | float =>
      rw [htruth]
      exact hx.mapped rfl rfl rfl fun n S => .float (i := ⟨.floatToBool, ()⟩) (fun _ => rfl) rfl (fun _ _ => rfl) n
    | _ => exact htested

theorem text (h : E.Computes x o) : E.Leaves x.toText (.exact .string) o.text := by
  have htext : o.text = Value.text <$> o.value := by rw [Operand.text, bind_pure_comp]
  have hmade : E.Leaves (x.toBoxed.andThen (.exact .string) (.known .string) [.invoke .coerceToString]) (.exact .string)
      o.text := by
    rw [htext]
    exact h.boxed.mapped rfl rfl rfl fun v S => .invoke₁ rfl (.ref v)
  obtain ⟨r, m, hvalue, hx⟩ := h.leaves
  rw [toText, hx.representation]
  rw [hvalue, ← comp_map] at htext
  cases r with
  | boxed => exact hmade
  | exact k =>
    cases k with
    | string =>
      have hstring : o.text = m := by
        rw [htext]
        have heq : (Value.text ∘ (Representation.exact .string).value) = id := by
          funext s
          change (Value.string s).text = s
          rw [Value.text]
        rw [heq]
        exact id_map m
      exact hstring ▸ hx
    | int =>
      rw [htext]
      exact hx.mapped rfl rfl rfl fun n S => .int (i := ⟨.intToString, ()⟩) (fun _ => rfl) rfl (fun _ _ => rfl) n
    | float =>
      rw [htext]
      exact hx.mapped rfl rfl rfl fun n S => .float (i := ⟨.floatToString, ()⟩) (fun _ => rfl) rfl (fun _ _ => rfl) n
    | bool =>
      rw [htext]
      exact hx.mapped rfl rfl rfl fun n S => .bool (i := ⟨.boolToString, ()⟩) (fun _ => rfl) rfl (fun _ _ => rfl) n
    | _ => exact hmade

end Computes

end Setting

end TemplateExpr
