import TemplateExpr.Binary64.Text
import TemplateExpr.Proofs.Binary64.Scaling
import TemplateExpr.Proofs.Decimal

/-!
# Decimals and the floats that they become

A decimal becomes a float by one rounding, so it does not matter how many of its zeros are among its digits
(`ofDecimal_settled`) or stand after its point (`ofDecimal_places`), and a decimal that is a float becomes that float
(`unpack_ofDecimal_exact`). The shortest decimal of a float is one that rounds to it, or its exact value. Either way it
becomes the float (`unpack_ofDecimal_shortest`).
-/

namespace TemplateExpr.Binary64

open Float.Model Float.Model.UnpackedFloat

variable {m : Nat} {e : Int}

/-! ### Decimals -/

/-- A whole decimal is rounded once. -/
private theorem ofScientific_natCast {n k : Nat} (hn : 0 < n) (hk : k ≤ 2048) :
    UnpackedFloat.ofScientific .binary64 n k = UnpackedFloat.round .binary64 .positive (n * 10 ^ k) 0 := by
  have hpos : 0 < n * 10 ^ k := Nat.mul_pos hn (Nat.pow_pos (by decide))
  have hsmall : ¬(k : Int) > 2 ^ Format.binary64.exponentBits := by
    norm_num
    omega
  have hlarge : ¬(k : Int) < -((2 ^ Format.binary64.exponentBits : Int) + n.log2) := by
    norm_num
    omega
  unfold UnpackedFloat.ofScientific
  rw [dif_neg hn.ne', if_neg hsmall, if_neg hlarge, if_pos (Int.natCast_nonneg k)]
  change roundWithAccuracy .binary64 .positive (n <<< 53 * 10 ^ k) (0 - (53 : Nat)) .exact = _
  have hproduct : n <<< 53 * 10 ^ k = (n * 10 ^ k) <<< 53 := by
    rw [Nat.shiftLeft_eq, Nat.shiftLeft_eq, Nat.mul_right_comm]
  have htarget : (0 : Int) - (53 : Nat) ≤
      Format.binary64.targetExponent (totalExponent ((n * 10 ^ k) <<< 53) (0 - (53 : Nat))) := by
    rw [targetExponent_shiftLeft hpos, targetExponent_eq]
    omega
  rw [hproduct, ← round_eq_roundWithAccuracy htarget, round_shiftLeft hpos]

theorem ofDecimal_natCast (n : Nat) {k : Nat} (hk : k ≤ 2048) : ofDecimal ⟨n, k⟩ = ofInt (n * 10 ^ k : Nat) := by
  obtain rfl | hn := Nat.eq_zero_or_pos n
  · rw [Nat.zero_mul]
    rfl
  · change Float.ofModel (.pack (UnpackedFloat.ofScientific .binary64 n k)) =
      Float.ofModel (.pack (UnpackedFloat.ofInt .binary64 (Sign.positive.apply (n * 10 ^ k : Nat))))
    rw [ofScientific_natCast hn hk, ofInt_apply (Nat.mul_pos hn (Nat.pow_pos (by decide)))]

/-- Zeros at the end of a decimal may as well be digits. -/
theorem ofDecimal_settled {d : Decimal} (h : d.exponent ≤ 2048) : ofDecimal d.settled = ofDecimal d := by
  unfold Decimal.settled
  split_ifs with hexponent
  · obtain ⟨n, k⟩ := d
    obtain ⟨k, rfl⟩ := Int.eq_ofNat_of_zero_le hexponent
    have hk : k ≤ 2048 := by simpa using h
    rw [Int.toNat_natCast, ofDecimal_natCast n hk]
    simpa using ofDecimal_natCast (n * 10 ^ k) (k := 0) (by omega)
  · rfl

theorem ofDecimal_settled_natCast (n : Nat) : ofDecimal (Decimal.settled ⟨n, 0⟩) = ofInt n := by
  rw [ofDecimal_settled (show (0 : Int) ≤ 2048 by decide)]
  simpa using ofDecimal_natCast n (k := 0) (by omega)

/-- A whole float is the float of its integer. -/
theorem unpack_ofInt_natural (h : Canonical m e) {n : Nat} (hnatural : natural? m e = some n) :
    (ofInt n).toModel.unpack = .finite .positive m e h.pos := by
  obtain ⟨a, b, heq, hexponent⟩ : ∃ a b : Nat, n * 2 ^ a = m * 2 ^ b ∧ (0 : Int) - a = e - b := by
    unfold natural? at hnatural
    split_ifs at hnatural with hpositive hwhole
    · cases hnatural
      refine ⟨0, e.toNat, ?_, by omega⟩
      rw [Nat.shiftLeft_eq, Nat.pow_zero, Nat.mul_one]
    · cases hnatural
      refine ⟨(-e).toNat, 0, ?_, by omega⟩
      rw [Nat.one_shiftLeft] at hwhole
      rw [Nat.shiftRight_eq_div_pow, Nat.div_mul_cancel (Nat.dvd_of_mod_eq_zero hwhole), Nat.pow_zero, Nat.mul_one]
  have hn : 0 < n := by
    have hpos : 0 < n * 2 ^ a := heq ▸ Nat.mul_pos h.pos (Nat.two_pow_pos b)
    exact Nat.pos_of_mul_pos_right hpos
  refine unpack_ofInt_of_round hn h ?_
  rw [round_eq_round hn h.pos heq hexponent, round_canonical h]

private theorem log2_mul_lt {a b : Nat} (ha : 0 < a) (hb : 0 < b) : (a * b).log2 < a.log2 + b.log2 + 2 := by
  rw [Nat.log2_lt (Nat.mul_pos ha hb).ne']
  have hlt : a * b < 2 ^ (a.log2 + 1) * 2 ^ (b.log2 + 1) := Nat.mul_lt_mul'' Nat.lt_log2_self Nat.lt_log2_self
  rw [← Nat.pow_add] at hlt
  rwa [show a.log2 + b.log2 + 2 = a.log2 + 1 + (b.log2 + 1) by omega]

private theorem ten_pow (k : Nat) : 10 ^ k = (5 ^ k) <<< k := by
  rw [Nat.shiftLeft_eq, ← Nat.mul_pow]

/-- A quotient that has finitely many binary places is given enough of them to leave no rest. -/
private theorem divCore_exact {a i k : Nat} (heq : a * 2 ^ i = m * 10 ^ k)
    (hle : min 0 (Format.binary64.targetExponent (totalExponent a 0 - totalExponent (10 ^ k) 0)) ≤ -(i : Int)) :
    ∃ j : Nat, -(i : Int) - j ≤ Format.binary64.targetExponent (totalExponent a 0 - totalExponent (10 ^ k) 0) ∧
      divCore .binary64 a 0 (10 ^ k) 0 = (m <<< j, -(i : Int) - j, .exact) := by
  have hten : 0 < 10 ^ k := Nat.pow_pos (by decide)
  obtain ⟨t, ht⟩ : ∃ t, t = min ((0 : Int) - 0) (Format.binary64.targetExponent
      (totalExponent a 0 - totalExponent (10 ^ k) 0)) := ⟨_, rfl⟩
  have hle' : t ≤ -(i : Int) := ht ▸ hle
  obtain ⟨j, rfl⟩ : ∃ j : Nat, t = -(i : Int) - j := ⟨(-(i : Int) - t).toNat, by omega⟩
  have hshift : ((0 : Int) - 0 - (-(i : Int) - j)).toNat = i + j := by omega
  have hnumerator : a <<< (i + j) = m <<< j * 10 ^ k := by
    rw [Nat.shiftLeft_eq, Nat.shiftLeft_eq, Nat.pow_add, ← Nat.mul_assoc, heq]
    ring
  refine ⟨j, ht.trans_le (min_le_right _ _), ?_⟩
  simp only [divCore, ← ht, hshift, hnumerator]
  rw [Nat.mul_div_cancel _ hten, Nat.mul_mod_left, accuracyOfFraction, if_pos rfl]

/-- A fraction whose denominator is a power of two is a decimal. -/
private theorem ofScientific_exact (h : Canonical m e) {k : Nat} (he : e = -k) (hk : 0 < k) :
    UnpackedFloat.ofScientific .binary64 (m * 5 ^ k) e = .finite .positive m e h.pos := by
  have hpos : 0 < m * 5 ^ k := Nat.mul_pos h.pos (Nat.pow_pos (by decide))
  have hge := h.ge
  have hsmall : ¬e > 2 ^ Format.binary64.exponentBits := by
    norm_num
    omega
  have hlarge : ¬e < -((2 ^ Format.binary64.exponentBits : Int) + (m * 5 ^ k).log2) := by
    norm_num
    omega
  have hplaces : (-e).toNat = k := by omega
  have heq : m * 5 ^ k * 2 ^ k = m * 10 ^ k := by
    rw [Nat.mul_assoc, ← Nat.mul_pow]
  have htarget : Format.binary64.targetExponent (totalExponent (m * 5 ^ k) 0 - totalExponent (10 ^ k) 0) ≤ e := by
    have hfive : 0 < 5 ^ k := Nat.pow_pos (by decide)
    have hlog := log2_mul_lt h.pos hfive
    have hlog' : m.log2 < 53 := (Nat.log2_lt h.pos.ne').2 h.lt
    rw [targetExponent_binary64, totalExponent, totalExponent, ten_pow, log2_shiftLeft hfive]
    omega
  obtain ⟨j, -, hcore⟩ := divCore_exact heq (he ▸ (min_le_right _ _).trans htarget)
  unfold UnpackedFloat.ofScientific
  rw [dif_neg hpos.ne', if_neg hsmall, if_neg hlarge, if_neg (by omega)]
  simp only [hplaces, UnpackedFloat.div, hcore, ← he]
  rw [roundWithAccuracy_shiftLeft h.pos h.targetExponent_eq.ge]
  exact roundWithAccuracy_canonical h _

/-- A whole number stays what it is with zeros after the point. -/
private theorem ofScientific_places {n k : Nat} (hn : 0 < n) (hk : k ≤ 2048) (hpos : 0 < k) :
    UnpackedFloat.ofScientific .binary64 (n * 10 ^ k) (-k) = UnpackedFloat.round .binary64 .positive n 0 := by
  have hten : 0 < 10 ^ k := Nat.pow_pos (by decide)
  have hsmall : ¬(-k : Int) > 2 ^ Format.binary64.exponentBits := by norm_num
  have hlarge : ¬(-k : Int) < -((2 ^ Format.binary64.exponentBits : Int) + (n * 10 ^ k).log2) := by
    norm_num
    omega
  have hplaces : (-(-k : Int)).toNat = k := by omega
  have hlog := log2_mul_lt hn hten
  have heq : n * 10 ^ k * 2 ^ 0 = n * 10 ^ k := by rw [Nat.pow_zero, Nat.mul_one]
  obtain ⟨j, hj, hcore⟩ := divCore_exact heq (min_le_left _ _)
  have htarget : (0 : Int) - j ≤ Format.binary64.targetExponent (totalExponent (n <<< j) (0 - j)) := by
    rw [targetExponent_shiftLeft hn]
    refine hj.trans ?_
    rw [targetExponent_binary64, targetExponent_binary64, totalExponent, totalExponent, totalExponent]
    omega
  unfold UnpackedFloat.ofScientific
  rw [dif_neg (Nat.mul_pos hn hten).ne', if_neg hsmall, if_neg hlarge, if_neg (by omega)]
  simp only [hplaces, UnpackedFloat.div, hcore]
  change roundWithAccuracy .binary64 .positive (n <<< j) (0 - j) .exact = _
  rw [← round_eq_roundWithAccuracy htarget, round_shiftLeft hn]

/-- Zeros after the point of a whole number make no difference. -/
theorem ofDecimal_places (n : Nat) {k : Nat} (hk : k ≤ 2048) : ofDecimal ⟨n * 10 ^ k, -k⟩ = ofInt n := by
  obtain rfl | hpos := Nat.eq_zero_or_pos k
  · simpa using ofDecimal_natCast n (k := 0) (by omega)
  obtain rfl | hn := Nat.eq_zero_or_pos n
  · rw [Nat.zero_mul]
    rfl
  · change Float.ofModel (.pack (UnpackedFloat.ofScientific .binary64 (n * 10 ^ k) (-k))) =
      Float.ofModel (.pack (UnpackedFloat.ofInt .binary64 (Sign.positive.apply n)))
    rw [ofScientific_places hn hk hpos, ofInt_apply hn]

/-- The exact value of a float becomes that float. -/
theorem unpack_ofDecimal_exact (h : Canonical m e) :
    (ofDecimal (exact m e)).toModel.unpack = .finite .positive m e h.pos := by
  unfold exact
  split_ifs with hexponent
  · rw [show (0 : Int) = (0 : Nat) from rfl, ofDecimal_natCast _ (by omega), Nat.pow_zero, Nat.mul_one]
    exact unpack_ofInt_natural h (by rw [natural?, if_pos hexponent])
  · have hscientific := ofScientific_exact h (k := (-e).toNat) (by omega) (by omega)
    change UnpackedFloat.unpack .binary64 (UnpackedFloat.pack .binary64
      (UnpackedFloat.ofScientific .binary64 (m * 5 ^ (-e).toNat) e)) = _
    rw [hscientific]
    exact unpack_pack_finite h .positive

/-! ### The shortest decimal -/

theorem unpack_of_roundsTo {d : Decimal} (h : roundsTo d m e = true) :
    ∃ hm, (ofDecimal d).toModel.unpack = .finite .positive m e hm := by
  unfold roundsTo at h
  split at h
  · rename_i m' e' hm hunpack
    simp only [Bool.and_eq_true, beq_iff_eq] at h
    obtain ⟨rfl, rfl⟩ := h
    exact ⟨hm, hunpack⟩
  · cases h

/-- A decimal with a greater exponent is zero or infinite. -/
theorem exponent_le_of_roundsTo {d : Decimal} (h : roundsTo d m e = true) : d.exponent ≤ 2048 := by
  by_contra hlt
  obtain ⟨hm, hunpack⟩ := unpack_of_roundsTo h
  change UnpackedFloat.unpack .binary64 (UnpackedFloat.pack .binary64
    (UnpackedFloat.ofScientific .binary64 d.digits d.exponent)) = _ at hunpack
  unfold UnpackedFloat.ofScientific at hunpack
  split_ifs at hunpack with hzero hlarge
  · cases hunpack
  · cases hunpack
  all_goals
    norm_num at hlarge
    omega

theorem roundsTo_of_onGrid? {q : Int} {d : Decimal} (h : onGrid? m e q = some d) : roundsTo d m e = true := by
  unfold onGrid? at h
  simp only at h
  split at h
  · split_ifs at h <;> cases h <;> assumption
  · cases h
    assumption
  · cases h
    assumption
  · cases h

/-- Whichever grid it is found on, the shortest decimal rounds to the float; if it is on none, it is the exact value. -/
private theorem shortest_cases (m : Nat) (e : Int) :
    shortest m e = exact m e ∨ roundsTo (shortest m e) m e = true := by
  unfold shortest
  simp only
  cases hfind : (List.range 18).findSome? fun (i : Nat) => onGrid? m e (leadingExponent m e + 1 - i) with
  | none => exact .inl rfl
  | some d =>
    obtain ⟨i, -, hgrid⟩ := List.exists_of_findSome?_eq_some hfind
    exact .inr (roundsTo_of_onGrid? hgrid)

theorem exponent_shortest_le (h : Canonical m e) : (shortest m e).exponent ≤ 2048 := by
  obtain hexact | hrounds := shortest_cases m e
  · have hle := h.le
    rw [hexact, exact]
    split_ifs <;> simp only [] <;> omega
  · exact exponent_le_of_roundsTo hrounds

/-- The shortest decimal becomes the float. -/
theorem unpack_ofDecimal_shortest (h : Canonical m e) :
    (ofDecimal (shortest m e)).toModel.unpack = .finite .positive m e h.pos := by
  obtain hexact | hrounds := shortest_cases m e
  · rw [hexact]
    exact unpack_ofDecimal_exact h
  · obtain ⟨hm, hunpack⟩ := unpack_of_roundsTo hrounds
    exact hunpack

theorem unpack_ofDecimal_settled_shortest (h : Canonical m e) :
    (ofDecimal (shortest m e).settled).toModel.unpack = .finite .positive m e h.pos := by
  rw [ofDecimal_settled (exponent_shortest_le h)]
  exact unpack_ofDecimal_shortest h

/-- A decimal without a digit other than zero becomes zero. -/
theorem digits_shortest_pos (h : Canonical m e) : 0 < (shortest m e).digits := by
  have hunpack := unpack_ofDecimal_shortest h
  generalize shortest m e = d at hunpack
  obtain ⟨n, q⟩ := d
  rw [Nat.pos_iff_ne_zero]
  rintro rfl
  have hzero : ofDecimal ⟨0, q⟩ = ofInt 0 := rfl
  have hzero' : (ofInt 0).toModel.unpack = .zero .positive := rfl
  rw [hzero, hzero'] at hunpack
  cases hunpack

end TemplateExpr.Binary64
