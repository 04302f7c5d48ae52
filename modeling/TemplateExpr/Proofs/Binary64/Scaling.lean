import TemplateExpr.Proofs.Binary64.Rounding

/-!
# Rounding sees the number only

Zeros at the end of a significand change nothing if the exponent is lowered with them: rounding shifts them out again,
with nothing left behind (`bare_shiftLeft_shiftRight`). So `m · 2 ^ e` is rounded to the same float in all its forms
(`round_eq_round`), and a float, in any form, to itself (`round_eq_of_canonical`). Natural numbers below `2 ^ 53` are
floats (`unpack_ofInt`).
-/

namespace TemplateExpr.Binary64

open Float.Model Float.Model.UnpackedFloat

/-! ### Zeros at the end -/

theorem bare_shiftLeft_shiftRight (m j k : Nat) : bare (m <<< j) >>> (j + k) = bare m >>> k := by
  induction k with
  | zero =>
    change bare (m <<< j) >>> j = bare m
    induction j generalizing m with
    | zero => rfl
    | succ j ih =>
      have hdouble : bare (m <<< (j + 1)) >>> j = bare (2 * m) := by
        rw [Nat.shiftLeft_succ_inside]
        exact ih (2 * m)
      rw [shiftRight_succ, hdouble]
      simp [bare, ExtendedMantissa.shiftRightOne]
  | succ k ih => rw [← Nat.add_assoc, shiftRight_succ, shiftRight_succ, ih]

variable {m : Nat} {e : Int}

theorem targetExponent_shiftLeft (hm : 0 < m) (e : Int) (j : Nat) :
    Format.binary64.targetExponent (totalExponent (m <<< j) (e - j)) =
      Format.binary64.targetExponent (totalExponent m e) := by
  rw [targetExponent_eq, targetExponent_eq, log2_shiftLeft hm]
  omega

/-- If nothing has to be shifted to the left, zeros at the end are shifted out again. -/
theorem roundWithAccuracy_shiftLeft (hm : 0 < m) (he : e ≤ Format.binary64.targetExponent (totalExponent m e))
    (s : Sign) (j : Nat) :
    roundWithAccuracy .binary64 s (m <<< j) (e - j) .exact = roundWithAccuracy .binary64 s m e .exact := by
  have hshift : shiftToTargetExponent .binary64 (m <<< j) (e - j) .exact =
      shiftToTargetExponent .binary64 m e .exact := by
    unfold shiftToTargetExponent
    rw [targetExponent_shiftLeft hm]
    generalize Format.binary64.targetExponent (totalExponent m e) = t at he
    have hamount : (t - (e - j)).toNat = j + (t - e).toNat := by omega
    unfold shiftToExponent
    simp only [hamount]
    exact Prod.ext (bare_shiftLeft_shiftRight m j _) (by simp only []; omega)
  simp only [roundWithAccuracy, hshift]

/-- Zeros at the end are either shifted out again, or they are what a shift to the left would have added. -/
theorem round_shiftLeft (hm : 0 < m) (e : Int) (s : Sign) (j : Nat) :
    UnpackedFloat.round .binary64 s (m <<< j) (e - j) = UnpackedFloat.round .binary64 s m e := by
  simp only [UnpackedFloat.round, decreaseExponent, targetExponent_shiftLeft hm]
  generalize htarget : Format.binary64.targetExponent (totalExponent m e) = t
  obtain ⟨k, hk⟩ := Nat.exists_eq_add_of_le (show (e - t).toNat ≤ j + (e - j - t).toNat by omega)
  have hleft : m <<< j <<< (e - j - t).toNat = m <<< (e - t).toNat <<< k := by
    rw [← Nat.shiftLeft_add, ← Nat.shiftLeft_add, hk]
  have hexponent : e - j - (e - j - t).toNat = e - (e - t).toNat - k := by omega
  rw [hleft, hexponent]
  refine roundWithAccuracy_shiftLeft (Nat.shiftLeft_pos_iff.2 hm) ?_ s k
  rw [targetExponent_shiftLeft hm, htarget]
  omega

/-- Rounding begins with a shift to the left, if one is needed. -/
theorem round_eq_roundWithAccuracy (he : e ≤ Format.binary64.targetExponent (totalExponent m e)) (s : Sign) :
    UnpackedFloat.round .binary64 s m e = roundWithAccuracy .binary64 s m e .exact := by
  have hnone : (e - Format.binary64.targetExponent (totalExponent m e)).toNat = 0 := by omega
  simp only [UnpackedFloat.round, decreaseExponent, hnone]
  rw [Nat.shiftLeft_zero, Int.natCast_zero, Int.sub_zero]

/-- Two forms of one number are rounded to the same float. -/
theorem round_eq_round {n a b : Nat} {f : Int} (hm : 0 < m) (hn : 0 < n) (heq : m * 2 ^ a = n * 2 ^ b)
    (hexponent : e - a = f - b) (s : Sign) :
    UnpackedFloat.round .binary64 s m e = UnpackedFloat.round .binary64 s n f := by
  rw [← round_shiftLeft hm e s a, ← round_shiftLeft hn f s b, Nat.shiftLeft_eq, Nat.shiftLeft_eq, heq, hexponent]

/-! ### Floats -/

/-- Canonical parts need no shift and no rounding. -/
theorem roundWithAccuracy_canonical (h : Canonical m e) (s : Sign) :
    roundWithAccuracy .binary64 s m e .exact = .finite s m e h.pos := by
  have hshift : shiftToTargetExponent .binary64 m e .exact = (bare m, e) := by
    simp only [shiftToTargetExponent, shiftToExponent, h.targetExponent_eq, Int.sub_self]
    exact Prod.ext rfl (Int.add_zero e)
  exact roundWithAccuracy_of_shifts s h.pos hshift hshift rfl

theorem round_canonical (h : Canonical m e) (s : Sign) :
    UnpackedFloat.round .binary64 s m e = .finite s m e h.pos := by
  rw [round_eq_roundWithAccuracy h.targetExponent_eq.ge, roundWithAccuracy_canonical h s]

/-- A natural number becomes the float that it is rounded to. -/
theorem unpack_ofInt_of_round {n : Nat} (hn : 0 < n) (h : Canonical m e)
    (hround : UnpackedFloat.round .binary64 .positive n 0 = .finite .positive m e h.pos) :
    (ofInt n).toModel.unpack = .finite .positive m e h.pos := by
  change UnpackedFloat.unpack .binary64 (UnpackedFloat.pack .binary64 (UnpackedFloat.ofInt .binary64
    (Sign.positive.apply n))) = _
  rw [ofInt_apply hn, hround]
  exact unpack_pack_finite h .positive

/-- A natural number that needs no more than 53 bits is a float. -/
theorem unpack_ofInt {n : Nat} (hn : 0 < n) (hlt : n < 2 ^ 53) :
    (ofInt n).toModel.unpack =
      .finite .positive (n <<< (52 - n.log2)) (n.log2 - 52) (Nat.shiftLeft_pos_iff.2 hn) := by
  have hlog : n.log2 < 53 := (Nat.log2_lt hn.ne').2 hlt
  have hpos : 0 < n <<< (52 - n.log2) := Nat.shiftLeft_pos_iff.2 hn
  have hcanonical : Canonical (n <<< (52 - n.log2)) (n.log2 - 52) := by
    refine ⟨hpos, (Nat.log2_lt hpos.ne').1 ?_, by omega, by omega, .inl (le_shiftLeft_log2 hn)⟩
    rw [log2_shiftLeft hn]
    omega
  refine unpack_ofInt_of_round hn hcanonical ?_
  rw [← round_canonical hcanonical]
  refine round_eq_round (a := 52 - n.log2) (b := 0) hn hpos ?_ (by omega) _
  rw [Nat.shiftLeft_eq, Nat.pow_zero, Nat.mul_one]

end TemplateExpr.Binary64
