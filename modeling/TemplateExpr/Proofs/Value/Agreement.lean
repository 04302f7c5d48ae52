import TemplateExpr.Value.Dynamic

/-!
# Operators on values of known kinds

What the operators on values of any kind give when the kinds are known: on two integers what the operation on integers
gives, and on two numbers, at least one of which is a float (`Value.Floats`), what the operation on floats gives.
-/

namespace TemplateExpr

/-! ### Values -/

namespace Value

/-- Two numbers, at least one of which is a float. -/
structure Floats (u v : Value) (x y : Float) : Prop where
  left : u.number? = some x
  right : v.number? = some y
  notInts : ¬ (u.kind = .int ∧ v.kind = .int)

variable {u v : Value} {x y : Float}

theorem Floats.swap (h : Floats u v x y) : Floats v u y x := ⟨h.right, h.left, fun hi => h.notInts hi.symm⟩

/-- The pairs of kinds that two such numbers can have. -/
theorem Floats.cases (h : Floats u v x y) :
    (∃ a, u = .int a ∧ x = Binary64.ofInt64 a ∧ v = .float y) ∨
      (u = .float x ∧ ∃ b, v = .int b ∧ y = Binary64.ofInt64 b) ∨ (u = .float x ∧ v = .float y) := by
  obtain ⟨hx, hy, hints⟩ := h
  cases u with
  | int a =>
    cases v with
    | int b => exact absurd ⟨rfl, rfl⟩ hints
    | float b =>
      cases hx
      cases hy
      exact .inl ⟨a, rfl, rfl, rfl⟩
    | _ => cases hy
  | float a =>
    cases hx
    cases v with
    | int b =>
      cases hy
      exact .inr (.inl ⟨rfl, b, rfl, rfl⟩)
    | float b =>
      cases hy
      exact .inr (.inr ⟨rfl, rfl⟩)
    | _ => cases hy
  | _ => cases hx

theorem Floats.plus (h : Floats u v x y) : u.plus v = .float (x + y) := by
  obtain ⟨a, rfl, rfl, rfl⟩ | ⟨rfl, b, rfl, rfl⟩ | ⟨rfl, rfl⟩ := h.cases <;> rfl

theorem Floats.arithmetic (h : Floats u v x y) (symbol : String) (onInts : Int64 → Int64 → Int64)
    (onFloats : Float → Float → Float) : Value.arithmetic symbol onInts onFloats u v = .ok (.float (onFloats x y)) := by
  obtain ⟨a, rfl, rfl, rfl⟩ | ⟨rfl, b, rfl, rfl⟩ | ⟨rfl, rfl⟩ := h.cases <;> rfl

theorem Floats.looseEq (h : Floats u v x y) : u.looseEq v = (x == y) := by
  obtain ⟨a, rfl, rfl, rfl⟩ | ⟨rfl, b, rfl, rfl⟩ | ⟨rfl, rfl⟩ := h.cases
  · rfl
  · rfl
  · change Value.structuralEq (.float x) (.float y) = _
    rw [Value.structuralEq]

theorem Floats.order (h : Floats u v x y) : u.order v = .ok (Binary64.order x y) := by
  obtain ⟨a, rfl, rfl, rfl⟩ | ⟨rfl, b, rfl, rfl⟩ | ⟨rfl, rfl⟩ := h.cases <;> rfl

theorem plus_of_string (h : u.kind = .string ∨ v.kind = .string) : u.plus v = .string (u.text ++ v.text) := by
  obtain h | h := h
  · cases u with
    | string s => cases v <;> rfl
    | _ => cases h
  · cases v with
    | string s => cases u <;> rfl
    | _ => cases h

/-- With a string on one side it makes no difference on which. -/
theorem looseEq_comm_of_string (h : u.kind = .string) (v : Value) : v.looseEq u = u.looseEq v := by
  cases u with
  | string s =>
    cases v with
    | string t =>
      change (t == s) = (s == t)
      exact Bool.beq_comm
    | _ => rfl
  | _ => cases h

end Value

namespace Binary64

/-- Of two numbers, one is less, or the other, or they are equal. -/
theorem le_iff (x y : Float) : x ≤ y ↔ x < y ∨ (x == y) = true := by
  have hle : x ≤ y ↔ (x.toModel.unpack.compare y.toModel.unpack).any (·.isLE) = true := decide_eq_true_iff
  have hlt : x < y ↔ (x.toModel.unpack.compare y.toModel.unpack == some .lt) = true := decide_eq_true_iff
  have heq : (x == y) = (x.toModel.unpack.compare y.toModel.unpack == some .eq) := rfl
  rw [hle, hlt, heq]
  -- all three ask for the same comparison, which has no answer for a NaN
  cases x.toModel.unpack.compare y.toModel.unpack with
  | none => simp
  | some o => cases o <;> simp

theorem order_lt (x y : Float) : (order x y == some .lt) = decide (x < y) := by
  unfold order
  split
  · rename_i h
    simp [h]
  · rename_i h
    split
    · simp [h]
    · split <;> simp [h]

theorem order_le (x y : Float) : (order x y == some .lt || order x y == some .eq) = decide (x ≤ y) := by
  unfold order
  simp only [le_iff]
  split
  · rename_i h
    simp [h]
  · rename_i h
    split
    · rename_i he
      simp [he]
    · rename_i he
      split <;> simp [h, he]

end Binary64

namespace Value

variable {u v : Value} {x y : Float}

theorem lessThan_int (a b : Int64) : lessThan (.int a) (.int b) = .ok (decide (a < b)) := by
  simp only [lessThan, order, Except.map, compareOfLessAndEq]
  split
  · rename_i h
    simp [h]
  · rename_i h
    split <;> simp [h]

theorem lessThanOrEqual_int (a b : Int64) : lessThanOrEqual (.int a) (.int b) = .ok (decide (a ≤ b)) := by
  simp only [lessThanOrEqual, order, Except.map, compareOfLessAndEq, Int64.le_iff_lt_or_eq]
  split
  · rename_i h
    simp [h]
  · rename_i h
    split <;> simp [*]

theorem Floats.lessThan (h : Floats u v x y) : u.lessThan v = .ok (decide (x < y)) := by
  rw [Value.lessThan, h.order, ← Binary64.order_lt]
  rfl

theorem Floats.lessThanOrEqual (h : Floats u v x y) : u.lessThanOrEqual v = .ok (decide (x ≤ y)) := by
  rw [Value.lessThanOrEqual, h.order, ← Binary64.order_le]
  rfl

end Value

end TemplateExpr
