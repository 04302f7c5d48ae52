import TemplateExpr.Emitter.Operator
import TemplateExpr.Proofs.Execution.Conversion

/-!
# Arithmetic and comparison

The emitter of an operator computes the operator's meaning if the emitters of its operands compute theirs. What an
emitter knows of a type is the operand's static type, so both choose the same case.
-/

namespace TemplateExpr

open Evaluation Emitter

/-- A function that does not answer with a bool gives a reference. -/
theorem RuntimeFunction.resultSlot_of_returnsBool {f : RuntimeFunction} (h : f.returnsBool = false) (v : Value) :
    f.resultSlot v = .ref v := by
  cases v with
  | bool b => simp [resultSlot, h]
  | _ => rfl

namespace Setting

variable {σ : Type} {E : Setting σ} {span : Span} {l r : Emitter} {o p : Operand σ}

/-! ### Calls of the runtime library -/

/-- A call on one value with a value as its result. -/
theorem Applies.generic₁ {f : RuntimeFunction} (hf : f.arity = 1) (hbool : f.returnsBool = false) {x : Slot}
    {result : Except Fault Value} (h : f.apply [x.value] = result) {S : Stack} :
    E.Applies (.invoke f) span (S.push x) ((fun v => S.push (.ref v)) <$> lift result span) := by
  have happlies : E.Applies (.invoke f) span (S.push x) _ := Applies.invoke₁ hf x
  rw [h] at happlies
  simpa only [RuntimeFunction.resultSlot_of_returnsBool hbool] using happlies

/-- A call with a value as its result. -/
theorem Applies.generic {f : RuntimeFunction} (hf : f.arity = 2) (hbool : f.returnsBool = false) {x y : Slot}
    {result : Except Fault Value} (h : f.apply [x.value, y.value] = result) {S : Stack} :
    E.Applies (.invoke f) span ((S.push x).push y) ((fun v => S.push (.ref v)) <$> lift result span) := by
  have happlies : E.Applies (.invoke f) span ((S.push x).push y) _ := Applies.invoke₂ hf x y
  rw [h] at happlies
  simpa only [RuntimeFunction.resultSlot_of_returnsBool hbool] using happlies

theorem Applies.generic_ok {f : RuntimeFunction} (hf : f.arity = 2) (hbool : f.returnsBool = false) {x y : Slot}
    {v : Value} (h : f.apply [x.value, y.value] = .ok v) {S : Stack} :
    E.Applies (.invoke f) span ((S.push x).push y) (pure (S.push (.ref v))) := by
  have happlies : E.Applies (.invoke f) span ((S.push x).push y) _ := Applies.generic hf hbool h
  rwa [lift, map_pure] at happlies

/-- A call with a bool as its result. -/
theorem Applies.test {f : RuntimeFunction} (hf : f.arity = 2) (hbool : f.returnsBool = true) {x y : Slot}
    {result : Except Fault Bool} (h : f.apply [x.value, y.value] = result.map .bool) {S : Stack} :
    E.Applies (.invoke f) span ((S.push x).push y) ((fun b => S.push (.bool b)) <$> lift result span) := by
  have happlies : E.Applies (.invoke f) span ((S.push x).push y) _ := Applies.invoke₂ hf x y
  rw [h] at happlies
  cases result with
  | error g => exact happlies
  | ok b =>
    have hslot : f.resultSlot (.bool b) = .bool b := by simp [RuntimeFunction.resultSlot, hbool]
    simp only [Except.map, lift, map_pure, hslot] at happlies ⊢
    exact happlies

theorem Applies.test_ok {f : RuntimeFunction} (hf : f.arity = 2) (hbool : f.returnsBool = true) {x y : Slot} {b : Bool}
    (h : f.apply [x.value, y.value] = .ok (.bool b)) {S : Stack} :
    E.Applies (.invoke f) span ((S.push x).push y) (pure (S.push (.bool b))) := by
  have happlies : E.Applies (.invoke f) span ((S.push x).push y) ((fun b => S.push (.bool b)) <$> lift (.ok b) span) :=
    Applies.test hf hbool h
  rwa [lift, map_pure] at happlies

namespace Computes

theorem isKnownInt_iff (h : E.Computes l o) : l.isKnownInt = true ↔ o.type = .known .int := by
  simp [isKnownInt, h.type]

theorem isKnownFloat_iff (h : E.Computes l o) : l.isKnownFloat = true ↔ o.type = .known .float := by
  simp [isKnownFloat, h.type]

theorem isKnownString_iff (h : E.Computes l o) : l.isKnownString = true ↔ o.type = .known .string := by
  simp [isKnownString, h.type]

theorem isKnownNumber_iff (h : E.Computes l o) : l.isKnownNumber = true ↔ o.type.isNumber := by
  simp [isKnownNumber, h.type]

/-! ### Arithmetic -/

theorem arithmetic {onInts onFloats : Opcode} {function : RuntimeFunction} {f : Int64 → Int64 → Int64}
    {g : Float → Float → Float} {generic : Value → Value → Except Fault Value} (hl : E.Computes l o)
    (hr : E.Computes r p)
    (hints : ∀ a b (S : Stack), E.Applies (.emit onInts) span ((S.push (.int a)).push (.int b))
      (pure (S.push (.int (f a b)))))
    (hfloats : ∀ a b (S : Stack), E.Applies (.emit onFloats) span ((S.push (.float a)).push (.float b))
      (pure (S.push (.float (g a b)))))
    (harity : function.arity = 2) (hbool : function.returnsBool = false)
    (hgeneric : ∀ a b, function.apply [a, b] = generic a b) :
    E.Computes (Emitter.arithmetic onInts onFloats function span l r)
      ⟨.arithmetic o.type p.type, span, Operand.arithmetic f g generic span o p⟩ := by
  simp only [Emitter.arithmetic, Bool.and_eq_true, hl.isKnownInt_iff, hr.isKnownInt_iff, hl.isKnownNumber_iff,
    hr.isKnownNumber_iff, StaticType.arithmetic, Operand.arithmetic]
  by_cases hi : o.type = .known .int ∧ p.type = .known .int
  · simp only [if_pos hi]
    refine (hl.int.combined hr.int rfl rfl rfl hints).computes rfl rfl ?_
    simp only [map_bind]
    rfl
  · by_cases hn : o.type.isNumber ∧ p.type.isNumber
    · simp only [if_neg hi, if_pos hn]
      refine (hl.float.combined hr.float rfl rfl rfl hfloats).computes rfl rfl ?_
      simp only [map_bind]
      rfl
    · simp only [if_neg hi, if_neg hn]
      refine (hl.boxed.both hr.boxed rfl rfl rfl fun a b S =>
        .generic (x := .ref a) (y := .ref b) harity hbool (hgeneric a b)).computes rfl rfl ?_
      exact (id_map _).symm

theorem plus (hl : E.Computes l o) (hr : E.Computes r p) :
    E.Computes (Emitter.plus span l r) ⟨.plus o.type p.type, span, o.plus span p⟩ := by
  simp only [Emitter.plus, Bool.or_eq_true, hl.isKnownString_iff, hr.isKnownString_iff, StaticType.plus, Operand.plus]
  by_cases hs : o.type = .known .string ∨ p.type = .known .string
  · simp only [if_pos hs]
    have hconcat : ∀ (a b : String) (S : Stack), E.Applies (.invoke .stringConcat) span
        ((S.push (.ref (.string a))).push (.ref (.string b))) (pure (S.push (.ref (.string (a ++ b))))) := by
      intro a b S
      refine Applies.generic_ok rfl rfl ?_
      simp only [RuntimeFunction.apply, Slot.value, Value.text]
    refine (hl.text.combined hr.text rfl rfl rfl hconcat).computes rfl rfl ?_
    simp only [map_bind]
    rfl
  · simp only [if_neg hs]
    exact hl.arithmetic hr (fun a b S => .ints (i := ⟨.intAdd, ()⟩) (fun _ => rfl) rfl (fun _ _ => rfl) a b)
      (fun a b S => .floats (i := ⟨.floatAdd, ()⟩) (fun _ => rfl) rfl (fun _ _ => rfl) a b) rfl rfl fun a b => rfl

theorem divide (hl : E.Computes l o) (hr : E.Computes r p) :
    E.Computes (Emitter.divide span l r) ⟨.known .float, span, o.divide p⟩ := by
  have hfloats : ∀ (a b : Float) (S : Stack), E.Applies (.emit .floatDiv) span ((S.push (.float a)).push (.float b))
      (pure (S.push (.float (a / b)))) :=
    fun a b S => .floats (i := ⟨.floatDiv, ()⟩) (fun _ => rfl) rfl (fun _ _ => rfl) a b
  refine (hl.float.combined hr.float rfl rfl rfl hfloats).computes rfl rfl ?_
  simp only [map_bind, Operand.divide]
  rfl

theorem remainder (hl : E.Computes l o) (hr : E.Computes r p) :
    E.Computes (Emitter.remainder span l r) ⟨.known .int, span, o.remainder span p⟩ := by
  have hleaves : E.Leaves (Emitter.remainder span l r) (.exact .int) (do
      let a ← o.int
      let b ← p.int
      if b = 0 then raise .divideByZero span else return a % b) :=
    hl.int.both hr.int rfl rfl rfl fun a b S => .remainder a b
  refine hleaves.computes rfl rfl ?_
  change o.remainder span p = Value.int <$> _
  simp only [map_bind, Operand.remainder]
  refine bind_congr fun a => bind_congr fun b => ?_
  split <;> rfl

theorem negate (hl : E.Computes l o) : E.Computes (Emitter.negate span l) ⟨o.type.negate, span, o.negate span⟩ := by
  simp only [Emitter.negate, hl.isKnownInt_iff, hl.isKnownFloat_iff, StaticType.negate, Operand.negate]
  by_cases hi : o.type = .known .int
  · simp only [if_pos hi]
    refine (hl.int.mapped rfl rfl rfl fun n S =>
      .int (i := ⟨.intNeg, ()⟩) (fun _ => rfl) rfl (fun _ _ => rfl) n).computes rfl rfl ?_
    change _ = Value.int <$> (fun a => -a) <$> o.int
    rw [← comp_map, ← bind_pure_comp]
    rfl
  · by_cases hf : o.type = .known .float
    · simp only [if_neg hi, if_pos hf]
      refine (hl.float.mapped rfl rfl rfl fun x S =>
        .float (i := ⟨.floatNeg, ()⟩) (fun _ => rfl) rfl (fun _ _ => rfl) x).computes rfl rfl ?_
      change _ = Value.float <$> (fun a => -a) <$> o.float
      rw [← comp_map, ← bind_pure_comp]
      rfl
    · simp only [if_neg hi, if_neg hf]
      have hleaves : E.Leaves (unary .boxed .unknown span l.toBoxed [.invoke .negate]) .boxed
          (do let a ← o.value; lift a.negate span) :=
        hl.boxed.andThen rfl rfl rfl fun v S => .generic₁ (x := .ref v) rfl rfl rfl
      exact hleaves.computes rfl rfl (id_map _).symm

/-! ### Comparison -/

theorem relation {onInts onFloats : Opcode} {function : RuntimeFunction} {f : Int64 → Int64 → Bool}
    {g : Float → Float → Bool} {generic : Value → Value → Except Fault Bool} {reversed : Bool} (hl : E.Computes l o)
    (hr : E.Computes r p)
    (hints : ∀ a b (S : Stack), E.Applies (.emit onInts) span ((S.push (.int a)).push (.int b))
      (pure (S.push (.bool (f a b)))))
    (hfloats : ∀ a b (S : Stack), E.Applies (.emit onFloats) span ((S.push (.float a)).push (.float b))
      (pure (S.push (.bool (g a b)))))
    (harity : function.arity = 2) (hbool : function.returnsBool = true)
    (hgeneric : ∀ a b, function.apply [a, b] = (generic a b).map .bool) :
    E.Leaves (Emitter.relation onInts onFloats function reversed span l r) (.exact .bool)
      (Operand.relation f g generic reversed span o p) := by
  simp only [Emitter.relation, Bool.and_eq_true, hl.isKnownInt_iff, hr.isKnownInt_iff, hl.isKnownNumber_iff,
    hr.isKnownNumber_iff, Operand.relation]
  by_cases hi : o.type = .known .int ∧ p.type = .known .int
  · simp only [if_pos hi]
    exact hl.int.combined hr.int rfl rfl rfl hints
  · by_cases hn : o.type.isNumber ∧ p.type.isNumber
    · simp only [if_neg hi, if_pos hn]
      exact hl.float.combined hr.float rfl rfl rfl hfloats
    · simp only [if_neg hi, if_neg hn]
      cases reversed with
      | false =>
        exact hl.boxed.both hr.boxed rfl rfl rfl fun a b S =>
          .test (x := .ref a) (y := .ref b) harity hbool (hgeneric a b)
      | true =>
        exact hr.boxed.both hl.boxed rfl rfl rfl fun b a S =>
          .test (x := .ref b) (y := .ref a) harity hbool (hgeneric b a)

theorem stringEquality (hl : E.Computes l o) (hr : E.Computes r p) :
    E.Leaves (Emitter.stringEquality span l r) (.exact .bool) (o.stringEquality p) := by
  simp only [Emitter.stringEquality, hr.isKnownString_iff, hr.isKnownNumber_iff, Operand.stringEquality]
  by_cases hs : p.type = .known .string
  · simp only [if_pos hs]
    refine hl.text.combined hr.text rfl rfl rfl fun a b S => Applies.test_ok rfl rfl ?_
    change RuntimeFunction.apply .stringEquals [.string a, .string b] = _
    simp only [RuntimeFunction.apply, Value.text]
  · by_cases hn : p.type.isNumber
    · simp only [if_neg hs, if_pos hn]
      refine hl.text.combined hr.float rfl rfl rfl fun a b S => Applies.test_ok rfl rfl ?_
      change RuntimeFunction.apply .stringEqualsAsNumber [.string a, .float b] = _
      simp only [RuntimeFunction.apply, Value.number?, Value.text]
    · simp only [if_neg hs, if_neg hn]
      exact hl.text.combined hr.boxed rfl rfl rfl fun a b S => .test_ok rfl rfl rfl

theorem equality (hl : E.Computes l o) (hr : E.Computes r p) :
    E.Leaves (Emitter.equality span l r) (.exact .bool) (o.equality p) := by
  simp only [Emitter.equality, Bool.and_eq_true, hl.isKnownString_iff, hr.isKnownString_iff, hl.isKnownInt_iff,
    hr.isKnownInt_iff, hl.isKnownNumber_iff, hr.isKnownNumber_iff, Operand.equality]
  by_cases hs : o.type = .known .string
  · simp only [if_pos hs]
    exact hl.stringEquality hr
  · by_cases hs' : p.type = .known .string
    · simp only [if_neg hs, if_pos hs']
      exact hr.stringEquality hl
    · by_cases hi : o.type = .known .int ∧ p.type = .known .int
      · simp only [if_neg hs, if_neg hs', if_pos hi]
        exact hl.int.combined hr.int rfl rfl rfl fun a b S =>
          .ints (i := ⟨.intEq, ()⟩) (fun _ => rfl) rfl (fun _ _ => rfl) a b
      · by_cases hn : o.type.isNumber ∧ p.type.isNumber
        · simp only [if_neg hs, if_neg hs', if_neg hi, if_pos hn]
          exact hl.float.combined hr.float rfl rfl rfl fun a b S =>
            .floats (i := ⟨.floatEq, ()⟩) (fun _ => rfl) rfl (fun _ _ => rfl) a b
        · simp only [if_neg hs, if_neg hs', if_neg hi, if_neg hn]
          exact hl.boxed.combined hr.boxed rfl rfl rfl fun a b _ => .test_ok (x := .ref a) (y := .ref b) rfl rfl rfl

end Computes

/-- The complement of a bool. -/
theorem Leaves.complement {x y : Emitter} {m : Evaluation σ Bool} (h : E.Leaves x (.exact .bool) m)
    (hy : y.representation = .exact .bool) (hbody : y.body = [.sub x, .directive (.emit .not)]) :
    E.Leaves y (.exact .bool) ((!·) <$> m) :=
  h.mapped hy hbody rfl fun b _ => .bool (i := ⟨.not, ()⟩) (fun _ => rfl) rfl (fun _ _ => rfl) b

end Setting

end TemplateExpr
