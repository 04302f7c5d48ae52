import TemplateExpr.Proofs.Erasure.Denotes
import TemplateExpr.Proofs.Value.Agreement

/-!
# Operators that know types and operators that do not

Whatever the static types of its operands are, an operator denotes what it gives on their values when nothing is known
of types: the operation on integers or floats agrees with that on values of any kind, and the order in which the
operands are evaluated does not show. The one exception is a conditional with an integer in one branch and a float in
the other, which turns the integer into a float (`StaticType.Mixes`).
-/

namespace TemplateExpr

open Evaluation

namespace StaticType

/-- One of two types is that of integers and the other that of floats. -/
def Mixes (s t : StaticType) : Prop := s = .known .int ∧ t = .known .float ∨ s = .known .float ∧ t = .known .int

theorem isNumber_iff {t : StaticType} : t.isNumber = true ↔ t = .known .int ∨ t = .known .float := by
  cases t with
  | unknown => simp [isNumber]
  | known k => cases k <;> simp [isNumber, Kind.isNumber]

theorem Fits.type_eq {t : StaticType} {v : Value} (h : t.Fits v) (ht : t.isNumber = true) : t = .known v.kind := by
  obtain rfl | rfl := isNumber_iff.1 ht
  · exact congrArg _ (Eq.symm h)
  · exact congrArg _ (Eq.symm h)

/-- The declared type of a conditional counts if those of its branches have nothing in common. -/
theorem Fits.conditional {s t type : StaticType} {v : Value} (h : (StaticType.conditional .unknown s t).Fits v)
    (htype : type.Fits v) : (StaticType.conditional type s t).Fits v := by
  unfold StaticType.conditional at h ⊢
  split_ifs at h ⊢
  · exact h
  · exact h
  · exact h
  · exact htype

end StaticType

namespace Operand

variable {σ : Type} {D : StaticType → Value → Prop} {span : Span} {l r : Operand σ} {x y : Option Value}

/-- Operands that are known to be numbers, but not both to be integers. -/
private theorem floats_of_fits {u v : Value} {a b : Float} (hl : l.type.isNumber = true) (hr : r.type.isNumber = true)
    (hints : ¬ (l.type = .known .int ∧ r.type = .known .int)) (hu : u.number? = some a ∧ l.type.Fits u)
    (hv : v.number? = some b ∧ r.type.Fits v) : Value.Floats u v a b := by
  refine ⟨hu.1, hv.1, fun hkinds => hints ?_⟩
  rw [hu.2.type_eq hl, hv.2.type_eq hr, hkinds.1, hkinds.2]
  exact ⟨rfl, rfl⟩

/-! ### Arithmetic -/

theorem Denotes.arithmetic {onInts : Int64 → Int64 → Int64} {onFloats : Float → Float → Float}
    {generic : Value → Value → Except Fault Value}
    (hints : ∀ a b, generic (.int a) (.int b) = .ok (.int (onInts a b)))
    (hfloats : ∀ {u v a b}, Value.Floats u v a b → generic u v = .ok (.float (onFloats a b)))
    (hl : l.Denotes D x) (hr : r.Denotes D y) :
    Evaluation.Denotes D (Operand.arithmetic onInts onFloats generic span l r)
      (x.bind fun u => y.bind fun v => (generic u v).toOption)
      fun v u => u = v ∧ (StaticType.arithmetic l.type r.type).Fits v := by
  unfold Operand.arithmetic StaticType.arithmetic
  by_cases hi : l.type = .known .int ∧ r.type = .known .int
  · simp only [if_pos hi]
    refine (hl.knownInt hi.1).both (hr.knownInt hi.2) (fun a b => .pure _) ?_
    rintro _ a _ b rfl rfl
    rw [hints]
    exact .pure ⟨rfl, rfl⟩
  · simp only [if_neg hi]
    by_cases hn : l.type.isNumber ∧ r.type.isNumber
    · simp only [if_pos hn]
      refine (hl.knownNumber hn.1).both (hr.knownNumber hn.2) (fun a b => .pure _) ?_
      intro u a v b hu hv
      rw [hfloats (floats_of_fits hn.1 hn.2 hi hu hv)]
      exact .pure ⟨rfl, rfl⟩
    · simp only [if_neg hn]
      refine hl.same.both hr.same (fun a b => .lift _ _) ?_
      rintro _ u _ v rfl rfl
      exact (Evaluation.Denotes.lift _ _).mono fun a b h => ⟨h, trivial⟩

theorem Denotes.plus (hl : l.Denotes D x) (hr : r.Denotes D y) :
    Evaluation.Denotes D (Operand.plus span l r) (x.bind fun u => y.bind fun v => some (u.plus v))
      fun v u => u = v ∧ (StaticType.plus l.type r.type).Fits v := by
  unfold Operand.plus StaticType.plus
  by_cases hs : l.type = .known .string ∨ r.type = .known .string
  · simp only [if_pos hs]
    refine hl.text.combine hr.text ?_
    rintro u _ v _ ⟨rfl, hu⟩ ⟨rfl, hv⟩
    have hkind : u.kind = .string ∨ v.kind = .string := by
      refine hs.imp (fun h => ?_) fun h => ?_
      · rw [h] at hu
        exact hu
      · rw [h] at hv
        exact hv
    rw [Value.plus_of_string hkind]
    exact ⟨rfl, rfl⟩
  · simp only [if_neg hs]
    exact hl.arithmetic (fun a b => rfl) (fun h => congrArg _ h.plus) hr

theorem Denotes.divide (hl : l.Denotes D x) (hr : r.Denotes D y) :
    Evaluation.Denotes D (Operand.divide l r)
      ((x.bind Value.number?).bind fun a => (y.bind Value.number?).bind fun b => some (.float (a / b)))
      fun v u => u = v ∧ (StaticType.known .float).Fits v := by
  refine hl.float.combine hr.float ?_
  rintro a _ b _ rfl rfl
  exact ⟨rfl, rfl⟩

theorem Denotes.remainder (hl : l.Denotes D x) (hr : r.Denotes D y) :
    Evaluation.Denotes D (Operand.remainder span l r)
      ((x.bind Value.int?).bind fun a => (y.bind Value.int?).bind fun b => if b = 0 then none else some (.int (a % b)))
      fun v u => u = v ∧ (StaticType.known .int).Fits v := by
  refine hl.int.both hr.int (fun a b => ?_) ?_
  · split
    · exact .raise _ _
    · exact .pure _
  · rintro a _ b _ rfl rfl
    split
    · exact .raise _ _
    · exact .pure ⟨rfl, rfl⟩

theorem Denotes.negate (hl : l.Denotes D x) :
    Evaluation.Denotes D (l.negate span) (x.bind fun u => u.negate.toOption)
      fun v u => u = v ∧ l.type.negate.Fits v := by
  unfold Operand.negate StaticType.negate
  by_cases hi : l.type = .known .int
  · simp only [if_pos hi]
    refine (hl.knownInt hi).bind (fun a => .pure _) ?_
    rintro _ a rfl
    exact .pure ⟨rfl, rfl⟩
  · simp only [if_neg hi]
    by_cases hf : l.type = .known .float
    · simp only [if_pos hf]
      refine (hl.knownNumber (by rw [hf]; rfl)).bind (fun a => .pure _) ?_
      rintro u a ⟨ha, hu⟩
      rw [hf] at hu
      cases u with
      | float b =>
        cases ha
        exact .pure ⟨rfl, rfl⟩
      | _ => cases hu
    · simp only [if_neg hf]
      refine hl.same.bind (fun a => .lift _ _) ?_
      rintro _ u rfl
      exact (Evaluation.Denotes.lift _ _).mono fun a b h => ⟨h, trivial⟩

/-! ### Comparison -/

theorem Denotes.relation {onInts : Int64 → Int64 → Bool} {onFloats : Float → Float → Bool}
    {generic : Value → Value → Except Fault Bool} {f : Value → Value → Except Fault Bool} {reversed : Bool}
    (hf : ∀ u v, f u v = if reversed then generic v u else generic u v)
    (hints : ∀ a b, f (.int a) (.int b) = .ok (onInts a b))
    (hfloats : ∀ {u v a b}, Value.Floats u v a b → f u v = .ok (onFloats a b))
    (hl : l.Denotes D x) (hr : r.Denotes D y) :
    Evaluation.Denotes D (Operand.relation onInts onFloats generic reversed span l r)
      (x.bind fun u => y.bind fun v => (f u v).toOption) fun a b => b = a := by
  unfold Operand.relation
  by_cases hi : l.type = .known .int ∧ r.type = .known .int
  · rw [if_pos hi]
    refine (hl.knownInt hi.1).both (hr.knownInt hi.2) (fun a b => .pure _) ?_
    rintro _ a _ b rfl rfl
    rw [hints]
    exact .pure rfl
  · rw [if_neg hi]
    by_cases hn : l.type.isNumber ∧ r.type.isNumber
    · rw [if_pos hn]
      refine (hl.knownNumber hn.1).both (hr.knownNumber hn.2) (fun a b => .pure _) ?_
      intro u a v b hu hv
      rw [hfloats (floats_of_fits hn.1 hn.2 hi hu hv)]
      exact .pure rfl
    · rw [if_neg hn]
      cases reversed with
      | true =>
        refine hl.same.swapped hr.same (fun a b => .lift _ _) ?_
        rintro _ u _ v rfl rfl
        rw [hf]
        exact .lift _ _
      | false =>
        refine hl.same.both hr.same (fun a b => .lift _ _) ?_
        rintro _ u _ v rfl rfl
        rw [hf]
        exact .lift _ _

/-- The string is evaluated first, whichever side it is on. -/
private theorem Denotes.stringEquality {f : Value → Value → Bool} (hf : ∀ u v, u.kind = .string → f u v = u.looseEq v)
    (ht : l.type = .known .string) (hl : l.Denotes D x) (hr : r.Denotes D y) :
    Evaluation.Denotes D (Operand.stringEquality l r) (x.bind fun u => y.bind fun v => some (f u v))
      fun a b => b = a := by
  unfold Operand.stringEquality
  by_cases hs : r.type = .known .string
  · rw [if_pos hs]
    refine (hl.knownString ht).combine (hr.knownString hs) ?_
    rintro _ s _ t rfl rfl
    exact (hf (.string s) (.string t) rfl).symm
  · rw [if_neg hs]
    by_cases hn : r.type.isNumber
    · rw [if_pos hn]
      refine (hl.knownString ht).combine (hr.knownNumber hn) ?_
      rintro _ s v b rfl ⟨hb, -⟩
      rw [hf _ _ rfl]
      cases v with
      | int n =>
        cases hb
        rfl
      | float c =>
        cases hb
        rfl
      | _ => cases hb
    · rw [if_neg hn]
      refine (hl.knownString ht).combine hr.same ?_
      rintro _ s _ v rfl rfl
      exact (hf (.string s) v rfl).symm

theorem Denotes.equality (hl : l.Denotes D x) (hr : r.Denotes D y) :
    Evaluation.Denotes D (Operand.equality l r) (x.bind fun u => y.bind fun v => some (u.looseEq v))
      fun a b => b = a := by
  unfold Operand.equality
  by_cases hls : l.type = .known .string
  · rw [if_pos hls]
    exact hl.stringEquality (fun _ _ _ => rfl) hls hr
  · rw [if_neg hls]
    by_cases hrs : r.type = .known .string
    · -- the right side is evaluated first
      rw [if_pos hrs, Option.bind_comm]
      exact hr.stringEquality (f := fun v u => u.looseEq v) (fun v u hv => Value.looseEq_comm_of_string hv u) hrs hl
    · rw [if_neg hrs]
      by_cases hi : l.type = .known .int ∧ r.type = .known .int
      · rw [if_pos hi]
        refine (hl.knownInt hi.1).combine (hr.knownInt hi.2) ?_
        rintro _ a _ b rfl rfl
        rfl
      · rw [if_neg hi]
        by_cases hn : l.type.isNumber ∧ r.type.isNumber
        · rw [if_pos hn]
          refine (hl.knownNumber hn.1).combine (hr.knownNumber hn.2) ?_
          intro u a v b hu hv
          exact (floats_of_fits hn.1 hn.2 hi hu hv).looseEq.symm
        · rw [if_neg hn]
          refine hl.same.combine hr.same ?_
          rintro _ u _ v rfl rfl
          rfl

/-! ### Choices -/

theorem Denotes.shortCircuit (decided : Bool) (hl : l.Denotes D x) (hr : r.Denotes D y) :
    Evaluation.Denotes D (Operand.shortCircuit decided l r)
      (x.bind fun u => if u.isTruthy = decided then some (Value.bool decided)
        else y.bind fun v => some (Value.bool v.isTruthy))
      fun v b => v = Value.bool b := by
  refine hl.truth.bind (fun b => ?_) ?_
  · split
    · exact .pure decided
    · exact hr.truth.grows
  · rintro u _ rfl
    split
    · exact .pure rfl
    · have hright := hr.truth.bind (k := pure) (f := fun v => some (Value.bool v.isTruthy))
        (U := fun v b => v = Value.bool b) (fun b => .pure b) fun v b hb => .pure (by rw [hb])
      rwa [bind_pure] at hright

theorem Denotes.orElse {type : StaticType} (htype : ∀ v, D type v → type.Fits v) (hl : l.Denotes D x)
    (hr : r.Denotes D y) :
    Evaluation.Denotes D (l.orElse type r) (x.bind fun u => if u.isNull then y else some u)
      fun v u => u = v ∧ type.Fits v := by
  have hchoice : Evaluation.Denotes D (do let a ← l.value; if a.isNull then r.value else pure a)
      (x.bind fun u => if u.isNull then y else some u) fun v u => u = v := by
    refine hl.same.bind (fun a => ?_) ?_
    · split
      · exact hr.grows
      · exact .pure a
    · rintro _ u rfl
      split
      · exact hr.same
      · exact .pure rfl
  have hdeclared := hchoice.declared_same htype
  rwa [bind_assoc] at hdeclared

/-- The conversion that the branches have in common changes neither if they are not mixed. -/
private theorem Denotes.branch {t : Operand σ} (hmix : ¬ l.type.Mixes r.type) (ht : t = l ∨ t = r) (h : t.Denotes D x) :
    Evaluation.Denotes D (Operand.branch l r t) x
      fun v u => u = v ∧ (StaticType.conditional .unknown l.type r.type).Fits v := by
  unfold Operand.branch StaticType.conditional
  by_cases hi : l.type = .known .int ∧ r.type = .known .int
  · simp only [if_pos hi]
    have htype : t.type = .known .int := by
      obtain rfl | rfl := ht
      · exact hi.1
      · exact hi.2
    exact (h.knownInt htype).map fun v n hv => ⟨hv.symm, hv ▸ rfl⟩
  · simp only [if_neg hi]
    by_cases hn : l.type.isNumber ∧ r.type.isNumber
    · simp only [if_pos hn]
      -- of the four pairs of number types, two are mixed and one is the case before
      have hboth : l.type = .known .float ∧ r.type = .known .float := by
        obtain hl | hl := StaticType.isNumber_iff.1 hn.1 <;> obtain hr | hr := StaticType.isNumber_iff.1 hn.2
        · exact absurd ⟨hl, hr⟩ hi
        · exact absurd (.inl ⟨hl, hr⟩) hmix
        · exact absurd (.inr ⟨hl, hr⟩) hmix
        · exact ⟨hl, hr⟩
      have htype : t.type = .known .float := by
        obtain rfl | rfl := ht
        · exact hboth.1
        · exact hboth.2
      refine (h.knownNumber (by rw [htype]; rfl)).map ?_
      rintro v a ⟨ha, hv⟩
      rw [htype] at hv
      cases v with
      | float b =>
        cases ha
        exact ⟨rfl, rfl⟩
      | _ => cases hv
    · simp only [if_neg hn]
      by_cases hs : l.type = .known .string ∧ r.type = .known .string
      · simp only [if_pos hs]
        have htype : t.type = .known .string := by
          obtain rfl | rfl := ht
          · exact hs.1
          · exact hs.2
        exact (h.knownString htype).map fun v s hv => ⟨hv.symm, hv ▸ rfl⟩
      · simp only [if_neg hs]
        exact h.same.mono fun _ _ hvu => ⟨hvu, trivial⟩

theorem Denotes.conditional {type : StaticType} {c : Operand σ} {z : Option Value}
    (htype : ∀ v, D type v → type.Fits v) (hmix : ¬ l.type.Mixes r.type) (hc : c.Denotes D z) (hl : l.Denotes D x)
    (hr : r.Denotes D y) :
    Evaluation.Denotes D (Operand.conditional type c l r) (z.bind fun b => if b.isTruthy then x else y)
      fun v u => u = v ∧ (StaticType.conditional type l.type r.type).Fits v := by
  have hleft := (hl.branch hmix (.inl rfl)).declared htype
  have hright := (hr.branch hmix (.inr rfl)).declared htype
  refine hc.truth.bind (fun b => ?_) ?_
  · cases b with
    | true => exact hleft.grows
    | false => exact hright.grows
  · rintro u _ rfl
    cases u.isTruthy with
    | true => exact hleft.mono fun _ _ h => ⟨h.1, h.2.1.conditional h.2.2⟩
    | false => exact hright.mono fun _ _ h => ⟨h.1, h.2.1.conditional h.2.2⟩

end Operand

end TemplateExpr
