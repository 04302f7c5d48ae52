import Mathlib
import TemplateExpr.Binary64.Basic

/-!
# Ranks of floating-point numbers

Every float but a NaN has a rank, made of its sign, its exponent and its significand (`Binary64.rank`). Ranks are
ordered lexicographically. One float is less than another if its rank is (`lt_iff`), and two are equal if their ranks
are (`beq_iff`), so that all laws of `<` and `==` come from those of a linear order: `==` is symmetric and transitive,
and only a NaN is not equal to itself.
-/

namespace TemplateExpr.Binary64

open Float.Model (UnpackedFloat)

/-- Sign, exponent and significand, as numbers that grow with the float. -/
abbrev Rank := Int ×ₗ Int ×ₗ Int

def Rank.of (sign exponent significand : Int) : Rank := toLex (sign, toLex (exponent, significand))

/-- The rank of an unpacked float. That of a NaN has no meaning. -/
def unpackedRank : UnpackedFloat → Rank
  | .notANumber | .zero _ => .of 0 0 0
  | .infinity .negative => .of (-2) 0 0
  | .finite .negative m e _ => .of (-1) (-e) (-m)
  | .finite .positive m e _ => .of 1 e m
  | .infinity .positive => .of 2 0 0

def rank (x : Float) : Rank := unpackedRank x.toModel.unpack

/-! ### Comparing ranks -/

theorem Rank.of_le_of_iff {s e m s' e' m' : Int} :
    Rank.of s e m ≤ .of s' e' m' ↔ s < s' ∨ s = s' ∧ (e < e' ∨ e = e' ∧ m ≤ m') := by
  simp [Rank.of, Prod.Lex.toLex_le_toLex]

private theorem compare_neg_neg (a b : Int) : compare (-a) (-b) = (compare a b).swap := by
  obtain h | rfl | h := lt_trichotomy a b
  · rw [compare_lt_iff_lt.2 h]
    exact compare_gt_iff_gt.2 (neg_lt_neg h)
  · simp
  · rw [compare_gt_iff_gt.2 h]
    exact compare_lt_iff_lt.2 (neg_lt_neg h)

private theorem compare_natCast (a b : Nat) : compare (a : Int) b = compare a b := by
  obtain h | rfl | h := lt_trichotomy a b
  · rw [compare_lt_iff_lt.2 h, compare_lt_iff_lt.2 (Int.ofNat_lt.2 h)]
  · simp
  · rw [compare_gt_iff_gt.2 h, compare_gt_iff_gt.2 (Int.ofNat_lt.2 h)]

/-- Numbers are compared as their ranks are. -/
private theorem compare_eq {x y : UnpackedFloat} (hx : x.isNaN = false) (hy : y.isNaN = false) :
    x.compare y = some (compare (unpackedRank x) (unpackedRank y)) := by
  cases x with
  | notANumber => cases hx
  | infinity s =>
    cases y with
    | notANumber => cases hy
    | infinity t => cases s <;> cases t <;> rfl
    | zero t => cases s <;> rfl
    | finite t n f hn => cases s <;> cases t <;> rfl
  | zero s =>
    cases y with
    | notANumber => cases hy
    | infinity t => cases t <;> rfl
    | zero t => rfl
    | finite t n f hn => cases t <;> rfl
  | finite s m e hm =>
    cases y with
    | notANumber => cases hy
    | infinity t => cases s <;> cases t <;> rfl
    | zero t => cases s <;> rfl
    | finite t n f hn =>
      cases s with
      | negative =>
        cases t with
        | negative =>
          change some ((compare e f).then (compare m n)).swap =
            some ((compare (-e) (-f)).then (compare (-(m : Int)) (-n)))
          rw [compare_neg_neg, compare_neg_neg, compare_natCast, Ordering.swap_then]
        | positive => rfl
      | positive =>
        cases t with
        | negative => rfl
        | positive =>
          change some ((compare e f).then (compare m n)) = some ((compare e f).then (compare (m : Int) n))
          rw [compare_natCast]

private theorem compare_eq_none {x y : UnpackedFloat} (h : x.isNaN = true ∨ y.isNaN = true) : x.compare y = none := by
  obtain h | h := h
  · cases x with
    | notANumber => rfl
    | _ => cases h
  · cases y with
    | notANumber => cases x <;> rfl
    | _ => cases h

private theorem compare_eq_some_iff {x y : UnpackedFloat} {o : Ordering} : x.compare y = some o ↔
    x.isNaN = false ∧ y.isNaN = false ∧ compare (unpackedRank x) (unpackedRank y) = o := by
  cases hx : x.isNaN with
  | true => simp [compare_eq_none (.inl hx)]
  | false =>
    cases hy : y.isNaN with
    | true => simp [compare_eq_none (.inr hy)]
    | false => simp [compare_eq hx hy]

/-! ### Floats -/

variable {x y z : Float}

theorem lt_iff : x < y ↔ x.isNaN = false ∧ y.isNaN = false ∧ rank x < rank y := by
  have hlt : x < y ↔ (x.toModel.unpack.compare y.toModel.unpack == some .lt) = true := decide_eq_true_iff
  rw [hlt, beq_iff_eq, compare_eq_some_iff, compare_lt_iff_lt]
  rfl

theorem beq_iff : (x == y) = true ↔ x.isNaN = false ∧ y.isNaN = false ∧ rank x = rank y := by
  change (x.toModel.unpack.compare y.toModel.unpack == some .eq) = true ↔ _
  rw [beq_iff_eq, compare_eq_some_iff, compare_eq_iff_eq]
  rfl

/-! ### Equality -/

theorem beq_symm (h : (x == y) = true) : (y == x) = true := by
  obtain ⟨hx, hy, hrank⟩ := beq_iff.1 h
  exact beq_iff.2 ⟨hy, hx, hrank.symm⟩

theorem beq_comm (x y : Float) : (x == y) = (y == x) := Bool.eq_iff_iff.2 ⟨beq_symm, beq_symm⟩

theorem beq_trans (hxy : (x == y) = true) (hyz : (y == z) = true) : (x == z) = true := by
  obtain ⟨hx, -, hrank⟩ := beq_iff.1 hxy
  obtain ⟨-, hz, hrank'⟩ := beq_iff.1 hyz
  exact beq_iff.2 ⟨hx, hz, hrank.trans hrank'⟩

/-- A float is equal to itself unless it is a NaN. -/
theorem beq_self_iff : (x == x) = true ↔ x.isNaN = false :=
  ⟨fun h => (beq_iff.1 h).1, fun h => beq_iff.2 ⟨h, h, rfl⟩⟩

end TemplateExpr.Binary64
