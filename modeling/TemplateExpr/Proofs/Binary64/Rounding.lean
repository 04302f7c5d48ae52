import TemplateExpr.Proofs.Binary64.Canonical
import TemplateExpr.Proofs.Binary64.Rank

/-!
# Conversion of integers is monotone

A greater integer never has a smaller nearest float (`rank_ofInt64_le`), although two integers can have the same.
Rounding a positive integer goes through these steps.

* (shift) The integer is shifted until its leading bit is the 53rd. What is shifted out to the right leaves two bits
  behind, so that the significand and these bits, read as one number (`weight`), still grow with the integer
  (`weight_shiftRight_le`).
* (round) The significand is rounded by the two bits, which is monotone too (`roundedMantissa_le`).
* (carry) If it has become a power of two, the exponent is one more (`roundWithAccuracy_eq`, `round_eq`).

Of two integers with leading bits at the same place, the weights decide; otherwise the exponents do (`rank_round_le`).
-/

namespace TemplateExpr.Binary64

open Float.Model Float.Model.UnpackedFloat

/-! ### Shifting -/

/-- A significand and the two bits behind it, as one number. -/
def weight (em : ExtendedMantissa) : Nat := 4 * em.mantissa + 2 * em.roundBit.toNat + em.stickyBit.toNat

/-- What is shifted out is only remembered as being there. -/
private theorem weight_shiftRightOne (em : ExtendedMantissa) :
    weight em.shiftRightOne = 2 * (weight em / 4) + min 1 (weight em % 4) := by
  obtain ⟨m, r, s⟩ := em
  have hm := Nat.mod_two_eq_zero_or_one m
  cases r <;> cases s <;> rcases hm with hm | hm <;> simp [weight, ExtendedMantissa.shiftRightOne, hm] <;> omega

theorem shiftRight_succ (em : ExtendedMantissa) (k : Nat) : em >>> (k + 1) = (em >>> k).shiftRightOne := rfl

theorem weight_shiftRight_le {a b : ExtendedMantissa} (h : weight a ≤ weight b) (k : Nat) :
    weight (a >>> k) ≤ weight (b >>> k) := by
  induction k with
  | zero => exact h
  | succ k ih =>
    rw [shiftRight_succ, shiftRight_succ, weight_shiftRightOne, weight_shiftRightOne]
    omega

theorem mantissa_shiftRight (em : ExtendedMantissa) (k : Nat) : (em >>> k).mantissa = em.mantissa / 2 ^ k := by
  induction k with
  | zero =>
    change em.mantissa = _
    simp
  | succ k ih =>
    rw [shiftRight_succ, Nat.pow_succ, ← Nat.div_div_eq_div_mul, ← ih]
    rfl

/-! ### Rounding -/

/-- The significand stays below a half, is made even at a half, and is one more above. -/
private theorem roundedMantissa_eq (em : ExtendedMantissa) :
    em.roundedMantissa = weight em / 4 +
      if weight em % 4 < 2 then 0 else if weight em % 4 = 2 then weight em / 4 % 2 else 1 := by
  obtain ⟨m, r, s⟩ := em
  have h : ∀ k < 4, (4 * m + k) / 4 = m ∧ (4 * m + k) % 4 = k := fun k hk => by omega
  cases r <;> cases s <;>
    simp [weight, ExtendedMantissa.roundedMantissa, ExtendedMantissa.accuracy, Accuracy.roundToNearestEven,
      Nat.add_assoc, h]

theorem roundedMantissa_le {a b : ExtendedMantissa} (h : weight a ≤ weight b) :
    a.roundedMantissa ≤ b.roundedMantissa := by
  rw [roundedMantissa_eq, roundedMantissa_eq]
  split_ifs <;> omega

theorem roundedMantissa_bounds (em : ExtendedMantissa) :
    em.mantissa ≤ em.roundedMantissa ∧ em.roundedMantissa ≤ em.mantissa + 1 := by
  have hmantissa : weight em / 4 = em.mantissa := by
    obtain ⟨m, r, s⟩ := em
    cases r <;> cases s <;> simp [weight] <;> omega
  rw [roundedMantissa_eq, hmantissa]
  split_ifs <;> omega

/-- Of a number with enough bits, the leading 53 are kept. -/
theorem div_two_pow_bounds {m : Nat} (hm : 2 ^ 52 ≤ m) :
    2 ^ 52 ≤ m / 2 ^ (m.log2 - 52) ∧ m / 2 ^ (m.log2 - 52) < 2 ^ 53 := by
  have hlow : 2 ^ m.log2 ≤ m := Nat.log2_self_le (by omega)
  have hhigh : m < 2 ^ (m.log2 + 1) := Nat.lt_log2_self
  have hlog : 52 ≤ m.log2 := (Nat.le_log2 (by omega)).2 hm
  have hpow : 2 ^ 52 * 2 ^ (m.log2 - 52) = 2 ^ m.log2 := by rw [← Nat.pow_add, Nat.add_sub_cancel' hlog]
  have hpos : 0 < 2 ^ (m.log2 - 52) := Nat.two_pow_pos _
  rw [Nat.le_div_iff_mul_le hpos, Nat.div_lt_iff_lt_mul hpos]
  rw [Nat.pow_succ] at hhigh
  constructor <;> nlinarith

/-- A significand with nothing behind it. -/
def bare (m : Nat) : ExtendedMantissa := ⟨m, false, false⟩

/-- A positive integer with its leading bit moved to the 53rd place. -/
def aligned (m : Nat) : ExtendedMantissa := bare (m <<< (52 - m.log2)) >>> (m.log2 - 52)

theorem log2_shiftLeft {m : Nat} (hm : 0 < m) (k : Nat) : (m <<< k).log2 = m.log2 + k := by
  have hlow : 2 ^ m.log2 ≤ m := Nat.log2_self_le hm.ne'
  have hhigh : m < 2 ^ (m.log2 + 1) := Nat.lt_log2_self
  have hpos : 0 < 2 ^ k := Nat.two_pow_pos k
  rw [Nat.shiftLeft_eq]
  refine (Nat.log2_eq_iff (Nat.mul_pos hm hpos).ne').2 ⟨?_, ?_⟩
  · rw [Nat.pow_add]
    exact Nat.mul_le_mul_right _ hlow
  · rw [Nat.add_right_comm, Nat.pow_add]
    exact Nat.mul_lt_mul_of_pos_right hhigh hpos

/-- Moved to the left, an integer has 53 bits at least. -/
theorem le_shiftLeft_log2 {m : Nat} (hm : 0 < m) : 2 ^ 52 ≤ m <<< (52 - m.log2) := by
  have hpos : 0 < m <<< (52 - m.log2) := by
    rw [Nat.shiftLeft_eq]
    exact Nat.mul_pos hm (Nat.two_pow_pos _)
  rw [← Nat.le_log2 hpos.ne', log2_shiftLeft hm]
  omega

/-- Of two integers whose leading bits are at the same place, the greater has the greater significand. -/
theorem roundedMantissa_aligned_le {m n : Nat} (h : m ≤ n) (hlog : m.log2 = n.log2) :
    (aligned m).roundedMantissa ≤ (aligned n).roundedMantissa := by
  have hweight : weight (bare (m <<< (52 - n.log2))) ≤ weight (bare (n <<< (52 - n.log2))) := by
    have := Nat.mul_le_mul_right (2 ^ (52 - n.log2)) h
    simp only [weight, bare, Nat.shiftLeft_eq, Bool.toNat_false]
    omega
  rw [aligned, aligned, hlog]
  exact roundedMantissa_le (weight_shiftRight_le hweight _)

/-! ### Rounding to a float -/

/-- The first shift leaves 53 bits. -/
private theorem shiftToTargetExponent_eq (m : Nat) {e : Int} (acc : Accuracy) (he : -1074 ≤ e) :
    shiftToTargetExponent .binary64 m e acc =
      (ExtendedMantissa.ofMantissaAndAccuracy m acc >>> (m.log2 - 52), e + (m.log2 - 52 : Nat)) := by
  have hshift : (Format.binary64.targetExponent (totalExponent m e) - e).toNat = m.log2 - 52 := by
    rw [targetExponent_eq]
    omega
  simp only [shiftToTargetExponent, shiftToExponent, hshift]

/-- What is left of rounding once both shifts are known. -/
theorem roundWithAccuracy_of_shifts {m n : Nat} {e f g : Int} {acc : Accuracy} {em em' : ExtendedMantissa}
    (s : Sign) (hn : 0 < n) (hfirst : shiftToTargetExponent .binary64 m e acc = (em, f))
    (hsecond : shiftToTargetExponent .binary64 em.roundedMantissa f .exact = (em', g)) (hmantissa : em'.mantissa = n) :
    roundWithAccuracy .binary64 s m e acc = .finite s n g hn := by
  subst hmantissa
  simp only [roundWithAccuracy, hfirst, hsecond]
  rw [dif_neg hn.ne']

theorem mantissa_ofMantissaAndAccuracy (m : Nat) (acc : Accuracy) :
    (ExtendedMantissa.ofMantissaAndAccuracy m acc).mantissa = m := by
  obtain _ | o := acc
  · rfl
  · cases o <;> rfl

/-- A number with enough bits is rounded to its 53 leading bits, and if that is a power of two, it takes one place
more. -/
theorem roundWithAccuracy_eq {m : Nat} {e : Int} {em : ExtendedMantissa} (acc : Accuracy) (hm : 2 ^ 52 ≤ m)
    (he : -1074 ≤ e) (hem : ExtendedMantissa.ofMantissaAndAccuracy m acc >>> (m.log2 - 52) = em) :
    ∃ (n : Nat) (f : Int) (hn : 0 < n), (∀ s, roundWithAccuracy .binary64 s m e acc = .finite s n f hn) ∧
      2 ^ 52 ≤ n ∧ n < 2 ^ 53 ∧
      (n = em.roundedMantissa ∧ f = e + (m.log2 - 52 : Nat) ∨
        em.roundedMantissa = 2 ^ 53 ∧ n = 2 ^ 52 ∧ f = e + (m.log2 - 52 : Nat) + 1) := by
  obtain ⟨hfloor, hceil⟩ := roundedMantissa_bounds em
  obtain ⟨hlow, hhigh⟩ := div_two_pow_bounds hm
  rw [← mantissa_ofMantissaAndAccuracy m acc, ← mantissa_shiftRight, mantissa_ofMantissaAndAccuracy, hem] at hlow hhigh
  have hfirst := shiftToTargetExponent_eq m acc he
  rw [hem] at hfirst
  have hsecond := shiftToTargetExponent_eq em.roundedMantissa (e := e + (m.log2 - 52 : Nat)) .exact (by omega)
  obtain hlt | heq : em.roundedMantissa < 2 ^ 53 ∨ em.roundedMantissa = 2 ^ 53 := by omega
  · have hstay : em.roundedMantissa.log2 = 52 := (Nat.log2_eq_iff (by omega)).2 ⟨by omega, hlt⟩
    rw [hstay, Nat.sub_self, Nat.cast_zero, Int.add_zero] at hsecond
    exact ⟨em.roundedMantissa, _, by omega, fun s => roundWithAccuracy_of_shifts s _ hfirst hsecond rfl, by omega, hlt,
      .inl ⟨rfl, rfl⟩⟩
  · -- the second shift takes the carry back
    have hlog : em.roundedMantissa.log2 = 53 := by rw [heq, Nat.log2_two_pow]
    have hcarry : (ExtendedMantissa.ofMantissaAndAccuracy em.roundedMantissa .exact >>> (53 - 52)).mantissa =
        2 ^ 52 := by
      rw [mantissa_shiftRight, mantissa_ofMantissaAndAccuracy, heq]
      rfl
    rw [hlog] at hsecond
    exact ⟨2 ^ 52, _, by omega, fun s => roundWithAccuracy_of_shifts s _ hfirst hsecond hcarry, le_rfl, by omega,
      .inr ⟨heq, rfl, rfl⟩⟩

/-- A positive integer is rounded to its 53 leading bits, and if that is a power of two, it takes one place more. -/
theorem round_eq {m : Nat} (hm : 0 < m) :
    ∃ (n : Nat) (e : Int) (hn : 0 < n), (∀ s, UnpackedFloat.round .binary64 s m 0 = .finite s n e hn) ∧
      2 ^ 52 ≤ n ∧ n < 2 ^ 53 ∧
      (n = (aligned m).roundedMantissa ∧ e = (m.log2 : Int) - 52 ∨
        (aligned m).roundedMantissa = 2 ^ 53 ∧ n = 2 ^ 52 ∧ e = (m.log2 : Int) - 51) := by
  have hshift : (0 - Format.binary64.targetExponent (totalExponent m 0)).toNat = 52 - m.log2 := by
    rw [targetExponent_eq]
    omega
  have hround (s : Sign) : UnpackedFloat.round .binary64 s m 0 = roundWithAccuracy .binary64 s (m <<< (52 - m.log2))
      (0 - (52 - m.log2 : Nat)) .exact := by
    simp only [UnpackedFloat.round, decreaseExponent, hshift]
  have hlog : (m <<< (52 - m.log2)).log2 - 52 = m.log2 - 52 := by
    rw [log2_shiftLeft hm]
    omega
  have haligned : ExtendedMantissa.ofMantissaAndAccuracy (m <<< (52 - m.log2)) .exact >>>
      ((m <<< (52 - m.log2)).log2 - 52) = aligned m := by
    rw [hlog]
    rfl
  obtain ⟨n, e, hn, hfinite, hlow, hhigh, hcases⟩ :=
    roundWithAccuracy_eq (e := 0 - (52 - m.log2 : Nat)) .exact (le_shiftLeft_log2 hm) (by omega) haligned
  rw [hlog] at hcases
  refine ⟨n, e, hn, fun s => (hround s).trans (hfinite s), hlow, hhigh, ?_⟩
  obtain ⟨heq, he⟩ | ⟨hcarry, heq, he⟩ := hcases
  · exact .inl ⟨heq, by omega⟩
  · exact .inr ⟨hcarry, heq, by omega⟩

/-! ### The order of converted integers -/

/-- Of two positive integers, the greater has the greater exponent, or the same and no smaller significand. With a minus
it is the other way round. -/
theorem rank_round_le {m n : Nat} (hm : 0 < m) (h : m ≤ n) :
    unpackedRank (UnpackedFloat.round .binary64 .positive m 0) ≤
      unpackedRank (UnpackedFloat.round .binary64 .positive n 0) ∧
    unpackedRank (UnpackedFloat.round .binary64 .negative n 0) ≤
      unpackedRank (UnpackedFloat.round .binary64 .negative m 0) := by
  obtain ⟨m', e, hm', hround, hlow, hhigh, hcarry⟩ := round_eq hm
  obtain ⟨n', f, hn', hround', hlow', hhigh', hcarry'⟩ := round_eq (hm.trans_le h)
  have hle : e < f ∨ e = f ∧ m' ≤ n' := by
    obtain hlog | hlog := ((Nat.le_log2 (hm.trans_le h).ne').2 ((Nat.log2_self_le hm.ne').trans h)).eq_or_lt
    · have hrounded := roundedMantissa_aligned_le h hlog
      omega
    · omega
  rw [hround, hround', hround, hround']
  constructor
  · exact Rank.of_le_of_iff.2 (.inr ⟨rfl, by omega⟩)
  · exact Rank.of_le_of_iff.2 (.inr ⟨rfl, by omega⟩)

/-- An integer is rounded without its sign. -/
private theorem ofInt_cases (n : Int) :
    (∃ k : Nat, 0 < k ∧ n = -k ∧ UnpackedFloat.ofInt .binary64 n = UnpackedFloat.round .binary64 .negative k 0) ∨
    (n = 0 ∧ UnpackedFloat.ofInt .binary64 n = .zero .positive) ∨
    ∃ k : Nat, 0 < k ∧ n = k ∧ UnpackedFloat.ofInt .binary64 n = UnpackedFloat.round .binary64 .positive k 0 := by
  unfold UnpackedFloat.ofInt UnpackedFloat.normalize
  obtain h | rfl | h := lt_trichotomy n 0
  · simp only [compare_lt_iff_lt.2 h]
    exact .inl ⟨(-n).toNat, by omega, by omega, rfl⟩
  · exact .inr (.inl ⟨rfl, rfl⟩)
  · simp only [compare_gt_iff_gt.2 h]
    exact .inr (.inr ⟨n.toNat, by omega, by omega, rfl⟩)

theorem ofInt_apply {n : Nat} (hn : 0 < n) (s : Sign) :
    UnpackedFloat.ofInt .binary64 (s.apply n) = UnpackedFloat.round .binary64 s n 0 := by
  cases s with
  | negative =>
    obtain ⟨k, hk, hneg, hround⟩ | ⟨hzero, -⟩ | ⟨k, hk, hpos, -⟩ := ofInt_cases (-n)
    · obtain rfl : n = k := by omega
      exact hround
    · omega
    · omega
  | positive =>
    obtain ⟨k, hk, hneg, -⟩ | ⟨hzero, -⟩ | ⟨k, hk, hpos, hround⟩ := ofInt_cases n
    · omega
    · omega
    · obtain rfl : n = k := by omega
      exact hround

private theorem rank_round {m : Nat} (hm : 0 < m) :
    ∃ n e : Int, unpackedRank (UnpackedFloat.round .binary64 .negative m 0) = .of (-1) (-e) (-n) ∧
      unpackedRank (UnpackedFloat.round .binary64 .positive m 0) = .of 1 e n := by
  obtain ⟨n, e, hn, hround, -⟩ := round_eq hm
  exact ⟨n, e, by rw [hround]; rfl, by rw [hround]; rfl⟩

/-- Of two integers, the greater has no smaller rank. -/
theorem rank_ofInt_le {m n : Int} (h : m ≤ n) :
    unpackedRank (UnpackedFloat.ofInt .binary64 m) ≤ unpackedRank (UnpackedFloat.ofInt .binary64 n) := by
  obtain ⟨i, hi, hmi, hm⟩ | ⟨hm0, hm⟩ | ⟨i, hi, hmi, hm⟩ := ofInt_cases m <;>
    obtain ⟨j, hj, hnj, hn⟩ | ⟨hn0, hn⟩ | ⟨j, hj, hnj, hn⟩ := ofInt_cases n <;> rw [hm, hn]
  case inl.inl => exact (rank_round_le hj (by omega)).2
  case inr.inr.inr.inr => exact (rank_round_le hi (by omega)).1
  -- where the signs differ, they decide
  case inl.inr.inl =>
    obtain ⟨k, e, hrank, -⟩ := rank_round hi
    rw [hrank]
    exact Rank.of_le_of_iff.2 (.inl (by decide))
  case inl.inr.inr =>
    obtain ⟨k, e, hrank, -⟩ := rank_round hi
    obtain ⟨l, f, -, hrank'⟩ := rank_round hj
    rw [hrank, hrank']
    exact Rank.of_le_of_iff.2 (.inl (by decide))
  case inr.inl.inr.inr =>
    obtain ⟨l, f, -, hrank⟩ := rank_round hj
    rw [hrank]
    exact Rank.of_le_of_iff.2 (.inl (by decide))
  all_goals omega

/-- An integer of 64 bits is not too great for a float. -/
theorem round_eq_finite {m : Nat} (hm : 0 < m) (hlt : m < 2 ^ 64) :
    ∃ (n : Nat) (e : Int) (h : Canonical n e), ∀ s, UnpackedFloat.round .binary64 s m 0 = .finite s n e h.pos := by
  obtain ⟨n, e, hn, hround, hlow, hhigh, hcarry⟩ := round_eq hm
  have hlog : m.log2 < 64 := (Nat.log2_lt hm.ne').2 hlt
  exact ⟨n, e, ⟨hn, hhigh, by omega, by omega, .inl hlow⟩, hround⟩

private theorem unpack_pack_round {m : Nat} (hm : 0 < m) (hlt : m < 2 ^ 64) (s : Sign) :
    UnpackedFloat.unpack .binary64 (UnpackedFloat.pack .binary64 (UnpackedFloat.round .binary64 s m 0)) =
      UnpackedFloat.round .binary64 s m 0 := by
  obtain ⟨n, e, hcanonical, hround⟩ := round_eq_finite hm hlt
  rw [hround]
  exact unpack_pack_finite hcanonical s

/-- A machine integer is small enough to lose nothing by being packed. -/
theorem unpack_ofInt64 (n : Int64) : (ofInt64 n).toModel.unpack = UnpackedFloat.ofInt .binary64 n.toInt := by
  have hlow : -2 ^ 63 ≤ n.toInt := Int64.le_toInt n
  have hhigh : n.toInt < 2 ^ 63 := Int64.toInt_lt n
  change UnpackedFloat.unpack .binary64 (UnpackedFloat.pack .binary64 (UnpackedFloat.ofInt .binary64 n.toInt)) = _
  obtain ⟨k, hk, hn, hround⟩ | ⟨hn, hround⟩ | ⟨k, hk, hn, hround⟩ := ofInt_cases n.toInt
  · rw [hround]
    exact unpack_pack_round hk (by omega) .negative
  · rw [hround]
    rfl
  · rw [hround]
    exact unpack_pack_round hk (by omega) .positive

theorem rank_ofInt64_le {m n : Int64} (h : m ≤ n) : rank (ofInt64 m) ≤ rank (ofInt64 n) := by
  rw [rank, rank, unpack_ofInt64, unpack_ofInt64]
  exact rank_ofInt_le (Int64.le_iff_toInt_le.1 h)

theorem isNaN_ofInt64 (n : Int64) : (ofInt64 n).isNaN = false := by
  change (ofInt64 n).toModel.unpack.isNaN = false
  rw [unpack_ofInt64]
  obtain ⟨k, hk, hn, hround⟩ | ⟨hn, hround⟩ | ⟨k, hk, hn, hround⟩ := ofInt_cases n.toInt
  · obtain ⟨m, e, hm, hfinite, -⟩ := round_eq hk
    rw [hround, hfinite]
    rfl
  · rw [hround]
    rfl
  · obtain ⟨m, e, hm, hfinite, -⟩ := round_eq hk
    rw [hround, hfinite]
    rfl

end TemplateExpr.Binary64
