import TemplateExpr.RuntimeFunction

/-!
# Faults of the runtime library

The operators on values fail in one way only: an operand is of the wrong kind. So does a runtime function that is
given as many arguments as its arity says (`RuntimeFunction.apply_error`).
-/

namespace TemplateExpr

namespace Value

theorem order_error {a b : Value} {g : Fault} (h : a.order b = .error g) : ∃ cause, g = .type cause := by
  unfold order at h
  split at h
  · cases h
  · cases h
  · split at h
    · cases h
    · cases h
      exact ⟨_, rfl⟩

theorem arithmetic_error {symbol : String} {f : Int64 → Int64 → Int64} {k : Float → Float → Float} {a b : Value}
    {g : Fault} (h : arithmetic symbol f k a b = .error g) : ∃ cause, g = .type cause := by
  unfold arithmetic at h
  split at h
  · cases h
  · split at h
    · cases h
    · cases h
      exact ⟨_, rfl⟩

theorem negate_error {a : Value} {g : Fault} (h : a.negate = .error g) : ∃ cause, g = .type cause := by
  unfold negate at h
  split at h
  · cases h
  · cases h
  · cases h
    exact ⟨_, rfl⟩

theorem item_error {a b : Value} {g : Fault} (h : a.item b = .error g) : ∃ cause, g = .type cause := by
  unfold item at h
  split at h
  · cases h
  · cases h
  · cases h
    exact ⟨_, rfl⟩
  · cases h
  · cases h
    exact ⟨_, rfl⟩

end Value

/-- A mapped result fails as the result itself. -/
private theorem error_of_map_error {ε α β : Type} {f : α → β} {r : Except ε α} {e : ε} (h : r.map f = .error e) :
    r = .error e := by
  cases r with
  | ok a => cases h
  | error e' =>
    cases h
    rfl

theorem RuntimeFunction.apply_error {f : RuntimeFunction} {vs : List Value} {g : Fault} (hvs : vs.length = f.arity)
    (h : f.apply vs = .error g) : ∃ cause, g = .type cause := by
  unfold apply at h
  split at h
  case h_3 =>
    split at h
    · cases h
    · cases h
      exact ⟨_, rfl⟩
  case h_4 | h_5 =>
    simp only [Value.lessThan, Value.lessThanOrEqual] at h
    exact Value.order_error (error_of_map_error (error_of_map_error h))
  case h_7 | h_8 => exact Value.arithmetic_error h
  case h_9 => exact Value.negate_error h
  case h_14 => exact Value.item_error h
  case h_15 =>
    -- no other number of arguments is possible
    have harity : f.arity = 1 ∨ f.arity = 2 := by cases f <;> simp [arity]
    rcases harity with harity | harity
    · match vs, hvs.trans harity with
      | [a], _ => cases f <;> simp_all [arity]
    · match vs, hvs.trans harity with
      | [a, b], _ => cases f <;> simp_all [arity]
  all_goals cases h

end TemplateExpr
