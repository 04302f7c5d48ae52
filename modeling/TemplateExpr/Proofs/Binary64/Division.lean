import TemplateExpr.Proofs.Binary64.Rounding

/-!
# Quotients stay between floats

A significand that is the integer part of a fraction, with the two bits that tell whether something is missing
(`Truncates`), keeps that meaning when it is shifted to the right. Rounded, it does not cross an integer: it is at least
every integer that is not above the fraction, and at most every integer that is not below it (`Truncates.le_rounded`,
`Truncates.rounded_le`). So the quotient of two floats is rounded to a float that does not cross any other
(`unpack_div`).
-/

namespace TemplateExpr.Binary64

open Float.Model Float.Model.UnpackedFloat

/-! ### Integer parts -/

/-- The significand is the integer part of a fraction, and the bits behind it are zero if that is all of it. -/
structure Truncates (em : ExtendedMantissa) (num den : Nat) : Prop where
  mantissa : em.mantissa = num / den
  exact_iff : em.roundBit = false ∧ em.stickyBit = false ↔ den ∣ num

namespace Truncates

variable {em : ExtendedMantissa} {num den c : Nat}

theorem of_fraction (num den : Nat) :
    Truncates (.ofMantissaAndAccuracy (num / den) (accuracyOfFraction (num % den) den)) num den := by
  refine ⟨mantissa_ofMantissaAndAccuracy _ _, ?_⟩
  rw [Nat.dvd_iff_mod_eq_zero]
  unfold accuracyOfFraction
  split_ifs with hrest
  · exact ⟨fun _ => hrest, fun _ => ⟨rfl, rfl⟩⟩
  · refine ⟨fun h => ?_, fun h => absurd h hrest⟩
    cases hcompare : compare (2 * (num % den)) den <;> rw [hcompare] at h <;>
      simp [ExtendedMantissa.ofMantissaAndAccuracy] at h

private theorem shiftRightOne (h : Truncates em num den) : Truncates em.shiftRightOne num (den * 2) := by
  refine ⟨?_, ?_⟩
  · rw [← Nat.div_div_eq_div_mul, ← h.mantissa]
    rfl
  · have hbits : em.shiftRightOne.roundBit = false ∧ em.shiftRightOne.stickyBit = false ↔
        2 ∣ em.mantissa ∧ em.roundBit = false ∧ em.stickyBit = false := by
      simp [ExtendedMantissa.shiftRightOne, Nat.dvd_iff_mod_eq_zero]
    rw [hbits, h.exact_iff, h.mantissa]
    constructor
    · rintro ⟨hhalf, hwhole⟩
      exact (Nat.dvd_div_iff_mul_dvd hwhole).1 hhalf
    · intro hdvd
      have hwhole : den ∣ num := (Nat.dvd_mul_right den 2).trans hdvd
      exact ⟨(Nat.dvd_div_iff_mul_dvd hwhole).2 hdvd, hwhole⟩

theorem shiftRight (h : Truncates em num den) (k : Nat) : Truncates (em >>> k) num (den * 2 ^ k) := by
  induction k with
  | zero =>
    rw [Nat.pow_zero, Nat.mul_one]
    exact h
  | succ k ih =>
    rw [shiftRight_succ, Nat.pow_succ, ← Nat.mul_assoc]
    exact ih.shiftRightOne

theorem le_rounded (h : Truncates em num den) (hden : 0 < den) (hle : c * den ≤ num) : c ≤ em.roundedMantissa := by
  have hfloor : c ≤ em.mantissa := by
    rw [h.mantissa]
    exact (Nat.le_div_iff_mul_le hden).2 hle
  exact hfloor.trans (roundedMantissa_bounds em).1

theorem rounded_le (h : Truncates em num den) (hden : 0 < den) (hle : num ≤ c * den) : em.roundedMantissa ≤ c := by
  by_cases hdvd : den ∣ num
  · -- nothing is behind the significand
    obtain ⟨hround, hsticky⟩ := h.exact_iff.2 hdvd
    have hexact : em.roundedMantissa = em.mantissa := by
      obtain ⟨m, r, s⟩ := em
      cases hround
      cases hsticky
      rfl
    rw [hexact, h.mantissa]
    exact Nat.div_le_of_le_mul (by rwa [Nat.mul_comm])
  · have hlt : num < c * den := lt_of_le_of_ne hle fun heq => hdvd ⟨c, by rw [heq, Nat.mul_comm]⟩
    have hmantissa : em.mantissa < c := by
      rw [h.mantissa]
      exact (Nat.div_lt_iff_lt_mul hden).2 hlt
    have := (roundedMantissa_bounds em).2
    omega

end Truncates

/-! ### Quotients of floats -/

/-- A fraction whose integer part has 53 or 54 bits loses one place at most, and one more if it carries. Rounded, it
crosses no even number of its places. -/
private theorem roundWithAccuracy_fraction {num den : Nat} {e : Int} (hden : 0 < den) (he : -1074 ≤ e)
    (hlow : 2 ^ 52 ≤ num / den) (hhigh : num / den < 2 ^ 54) :
    ∃ (k j : Nat) (hk : 0 < k), j ≤ 2 ∧ 2 ^ 52 ≤ k ∧ k < 2 ^ 53 ∧
      (∀ s, roundWithAccuracy .binary64 s (num / den) e (accuracyOfFraction (num % den) den) =
        .finite s k (e + j) hk) ∧
      ∀ c, (c * 2 * den ≤ num → c * 2 ≤ k * 2 ^ j) ∧ (num ≤ c * 2 * den → k * 2 ^ j ≤ c * 2) := by
  have hlog : 52 ≤ (num / den).log2 := (Nat.le_log2 (by omega)).2 hlow
  have hlog' : (num / den).log2 < 54 := (Nat.log2_lt (by omega)).2 hhigh
  obtain ⟨d, hd⟩ := Nat.exists_eq_add_of_le hlog
  have htruncates := (Truncates.of_fraction num den).shiftRight d
  have hpos : 0 < den * 2 ^ d := Nat.mul_pos hden (Nat.two_pow_pos d)
  obtain ⟨k, g, hk, hround, hklow, hklt, hcases⟩ :=
    roundWithAccuracy_eq (accuracyOfFraction (num % den) den) hlow he rfl
  rw [hd, Nat.add_sub_cancel_left] at hcases
  generalize ExtendedMantissa.ofMantissaAndAccuracy _ _ >>> d = em at htruncates hcases
  obtain ⟨j, hj, rfl, hvalue⟩ : ∃ j : Nat, j ≤ 2 ∧ g = e + j ∧ k * 2 ^ j = em.roundedMantissa * 2 ^ d := by
    obtain ⟨rfl, rfl⟩ | ⟨hcarry, rfl, rfl⟩ := hcases
    · exact ⟨d, by omega, rfl, rfl⟩
    · refine ⟨d + 1, by omega, by omega, ?_⟩
      rw [hcarry, Nat.pow_succ]
      omega
  refine ⟨k, j, hk, hj, hklow, hklt, hround, fun c => ?_⟩
  rw [hvalue]
  -- one place is lost, or none
  obtain rfl | rfl : d = 0 ∨ d = 1 := by omega
  · rw [Nat.pow_zero, Nat.mul_one] at htruncates hpos ⊢
    exact ⟨htruncates.le_rounded hpos, htruncates.rounded_le hpos⟩
  · rw [Nat.pow_one, Nat.mul_comm den 2] at htruncates hpos
    rw [Nat.pow_one, Nat.mul_assoc]
    exact ⟨fun h => Nat.mul_le_mul_right 2 (htruncates.le_rounded hpos h),
      fun h => Nat.mul_le_mul_right 2 (htruncates.rounded_le hpos h)⟩

/-- The quotient of two floats in the middle of their range crosses no multiple of the unit `2 ^ (e - f - 52)`, of which
its own last place is a half at least. -/
theorem unpack_div {x y : Float} {m n : Nat} {e f : Int} {hm : 0 < m} {hn : 0 < n}
    (hx : x.toModel.unpack = .finite .positive m e hm) (hy : y.toModel.unpack = .finite .positive n f hn)
    (hmfull : 2 ^ 52 ≤ m) (hnfull : 2 ^ 52 ≤ n) (hlow : -1000 ≤ e - f) (hhigh : e - f ≤ 1000) :
    ∃ (k j : Nat) (hk : 0 < k), (x / y).toModel.unpack = .finite .positive k (e - f - 53 + j) hk ∧ j ≤ 2 ∧
      ∀ c, (c * n ≤ m * 2 ^ 52 → c * 2 ≤ k * 2 ^ j) ∧ (m * 2 ^ 52 ≤ c * n → k * 2 ^ j ≤ c * 2) := by
  have hmlt : m < 2 ^ 53 := (canonical_of_unpack hx).lt
  have hnlt : n < 2 ^ 53 := (canonical_of_unpack hy).lt
  have hdivCore : divCore .binary64 m e n f =
      (m * 2 ^ 53 / n, e - f - 53, accuracyOfFraction (m * 2 ^ 53 % n) n) := by
    have hmlog : m.log2 = 52 := (Nat.log2_eq_iff hm.ne').2 ⟨hmfull, hmlt⟩
    have hnlog : n.log2 = 52 := (Nat.log2_eq_iff hn.ne').2 ⟨hnfull, hnlt⟩
    have htarget : min (e - f) (Format.binary64.targetExponent (totalExponent m e - totalExponent n f)) =
        e - f - 53 := by
      rw [targetExponent_binary64, totalExponent, totalExponent, hmlog, hnlog]
      omega
    have hshift : (e - f - (e - f - 53)).toNat = 53 := by omega
    simp only [divCore, htarget, hshift, Nat.shiftLeft_eq]
  have hquotient : 2 ^ 52 ≤ m * 2 ^ 53 / n := (Nat.le_div_iff_mul_le hn).2 (Nat.mul_le_mul hmfull hnlt.le)
  have hquotient' : m * 2 ^ 53 / n < 2 ^ 54 := (Nat.div_lt_iff_lt_mul hn).2 (by omega)
  obtain ⟨k, j, hk, hj, hklow, hklt, hround, hgrid⟩ := roundWithAccuracy_fraction hn
    (show -1074 ≤ e - f - 53 by omega) hquotient hquotient'
  refine ⟨k, j, hk, ?_, hj, fun c => ?_⟩
  · change UnpackedFloat.unpack .binary64 (UnpackedFloat.pack .binary64
      (UnpackedFloat.div .binary64 x.toModel.unpack y.toModel.unpack)) = _
    rw [hx, hy]
    simp only [UnpackedFloat.div, hdivCore]
    rw [hround]
    exact unpack_pack_finite ⟨hk, hklt, by omega, by omega, .inl hklow⟩ _
  · have hnum : m * 2 ^ 53 = m * 2 ^ 52 * 2 := by rw [Nat.pow_succ, Nat.mul_assoc]
    obtain ⟨habove, hbelow⟩ := hgrid c
    rw [Nat.mul_right_comm, hnum] at habove hbelow
    exact ⟨fun h => habove (Nat.mul_le_mul_right 2 h), fun h => hbelow (Nat.mul_le_mul_right 2 h)⟩

end TemplateExpr.Binary64
