import TemplateExpr.Proofs.Binary64.Decimals
import TemplateExpr.Proofs.Binary64.Rank

/-!
# The text of a float reads back

Positional notation, with a sign or not, is read as the float of its decimal with that sign (`read?_signed`). The text
of a finite float is that of a decimal which becomes the float, and the text of an integer is that of the integer. So
both are read as floats equal to what was written (`read?_plain`, `read?_toString`); only a NaN, though its text is
read as one, is not equal to it.
-/

namespace TemplateExpr.Binary64

open Float.Model Float.Model.UnpackedFloat

variable {m : Nat} {e : Int}

/-! ### Signs and numbers -/

private theorem toLower_of_isDigit {c : Char} (hc : c.isDigit = true) : c.toLower = c := by
  refine Char.toLower_eq_of_not_isUpper fun hupper => ?_
  simp only [Char.isDigit, Char.isUpper, Bool.and_eq_true, decide_eq_true_eq, ge_iff_le, UInt32.le_iff_toNat_le]
    at hc hupper
  have hle : 'A'.val.toNat ≤ '9'.val.toNat := hupper.1.trans hc.2
  exact absurd hle (by decide)

/-- Beginning with a digit, a number is not one of the words. -/
theorem readUnsigned?_text (t : Decimal.NumberText) : readUnsigned? t.text = some (ofDecimal t.value) := by
  obtain ⟨c, cs, htext, hc⟩ := t.exists_cons
  have hword (w : Char) (ws : List Char) (hw : w.isDigit = false) : t.text.map Char.toLower ≠ w :: ws := by
    rw [htext, List.map_cons, toLower_of_isDigit hc]
    intro heq
    rw [(List.cons.inj heq).1, hw] at hc
    cases hc
  simp only [readUnsigned?, t.readUnsigned?_text]
  rw [if_neg, if_neg, Option.map_some]
  · exact hword 'n' _ (by decide)
  · rintro (hinf | hinf)
    · exact hword 'i' _ (by decide) hinf
    · exact hword 'i' _ (by decide) hinf

/-- A float with a sign put in front. -/
def withSign : Sign → Float → Float
  | .negative, x => -x
  | .positive, x => x

/-- A sign and a number are read as the sign and the float of the number's decimal. -/
theorem read?_signed (s : Sign) (t : Decimal.NumberText) :
    read? (signChars s ++ t.text) = some (withSign s (ofDecimal t.value)) := by
  cases s with
  | negative =>
    change (readUnsigned? t.text).map _ = _
    rw [readUnsigned?_text]
    rfl
  | positive =>
    obtain ⟨c, cs, htext, hc⟩ := t.exists_cons
    have hsign : Decimal.splitSign t.text = (false, t.text) := htext ▸ Decimal.splitSign_of_isDigit hc cs
    simp only [read?, signChars, List.nil_append, hsign, readUnsigned?_text]
    rfl

theorem read?_positional (s : Sign) (d : Decimal) :
    read? (signChars s ++ d.positional) = some (withSign s (ofDecimal d.settled)) := by
  obtain ⟨t, htext, hvalue, -⟩ := d.exists_positional
  rw [← htext, read?_signed, hvalue]

theorem unpack_withSign (h : Canonical m e) (s : Sign) {x : Float}
    (hx : x.toModel.unpack = .finite .positive m e h.pos) :
    (withSign s x).toModel.unpack = .finite s m e h.pos := by
  cases s with
  | negative =>
    change UnpackedFloat.unpack .binary64 (UnpackedFloat.pack .binary64 (UnpackedFloat.neg x.toModel.unpack)) = _
    rw [hx]
    exact unpack_pack_finite h .negative
  | positive => exact hx

/-- An integer is rounded without its sign, and gets it afterwards. -/
theorem unpack_withSign_ofInt {n : Nat} (hn : 0 < n) (hlt : n < 2 ^ 64) (s : Sign) :
    (withSign s (ofInt n)).toModel.unpack = UnpackedFloat.round .binary64 s n 0 := by
  obtain ⟨m, e, hcanonical, hround⟩ := round_eq_finite hn hlt
  rw [hround]
  exact unpack_withSign hcanonical s (unpack_ofInt_of_round hn hcanonical (hround .positive))

/-! ### The texts of numbers -/

theorem beq_of_unpack_eq {x y : Float} (h : x.toModel.unpack = y.toModel.unpack) : (x == y) = !y.isNaN := by
  have hnan : x.isNaN = y.isNaN := congrArg UnpackedFloat.isNaN h
  have hrank : rank x = rank y := congrArg unpackedRank h
  rw [Bool.eq_iff_iff, beq_iff, hnan, hrank]
  simp

/-- The text of a finite float is that of a decimal which becomes the float. -/
theorem plainChars_eq (h : Canonical m e) :
    ∃ d : Decimal, plainChars m e = d.positional ∧
      (ofDecimal d.settled).toModel.unpack = .finite .positive m e h.pos := by
  unfold plainChars
  split
  · rename_i n hnatural
    split_ifs with hlimit
    · refine ⟨⟨n, 0⟩, (Decimal.positional_natCast n).symm, ?_⟩
      rw [ofDecimal_settled_natCast]
      exact unpack_ofInt_natural h hnatural
    · exact ⟨_, rfl, unpack_ofDecimal_settled_shortest h⟩
  · exact ⟨_, rfl, unpack_ofDecimal_settled_shortest h⟩

theorem read?_zero : read? "0".toList = some (ofInt 0) := rfl

/-- The text of a float is read as a float that is equal to it, except that no float is equal to a NaN. -/
theorem read?_plain (x : Float) : ∃ y, read? (plain x).toList = some y ∧ (y == x) = !x.isNaN := by
  unfold plain
  cases hx : x.toModel.unpack with
  | notANumber => exact ⟨nan, rfl, beq_of_unpack_eq hx.symm⟩
  | infinity s =>
    cases s with
    | negative => exact ⟨-infinity, rfl, beq_of_unpack_eq hx.symm⟩
    | positive => exact ⟨infinity, rfl, beq_of_unpack_eq hx.symm⟩
  | zero s =>
    -- the sign is lost, but it does not matter to `==`
    have hnan : x.isNaN = false := by
      change x.toModel.unpack.isNaN = false
      rw [hx]
      rfl
    have hrank : rank (ofInt 0) = rank x := by
      rw [rank, rank, hx]
      rfl
    refine ⟨ofInt 0, read?_zero, ?_⟩
    rw [hnan]
    exact beq_iff.2 ⟨rfl, hnan, hrank⟩
  | finite s m e hm =>
    obtain ⟨d, htext, hd⟩ := plainChars_eq (canonical_of_unpack hx)
    refine ⟨withSign s (ofDecimal d.settled), ?_, ?_⟩
    · simp only [String.toList_ofList]
      rw [htext, read?_positional]
    · exact beq_of_unpack_eq ((unpack_withSign (canonical_of_unpack hx) s hd).trans hx.symm)

theorem toList_toString (n : Int) :
    ∃ s k, (toString n).toList = signChars s ++ Decimal.positional ⟨k, 0⟩ ∧ n = Sign.apply s k := by
  simp only [Decimal.positional_natCast, Decimal.toList_toString]
  split_ifs with hn
  · exact ⟨.negative, n.natAbs, rfl, by rw [Sign.apply]; omega⟩
  · exact ⟨.positive, n.natAbs, rfl, by rw [Sign.apply]; omega⟩

/-- The digits of an integer are read as the float nearest to it. -/
theorem read?_toString (n : Int64) : ∃ y, read? (toString n.toInt).toList = some y ∧ (y == ofInt64 n) = true := by
  have hlow : -2 ^ 63 ≤ n.toInt := Int64.le_toInt n
  have hhigh : n.toInt < 2 ^ 63 := Int64.toInt_lt n
  obtain ⟨s, k, htext, hn⟩ := toList_toString n.toInt
  have hlt : k < 2 ^ 64 := by
    cases s <;> simp only [Sign.apply] at hn <;> omega
  refine ⟨withSign s (ofInt k), ?_, ?_⟩
  · rw [htext, read?_positional, ofDecimal_settled_natCast]
  · have hunpack := unpack_ofInt64 n
    rw [hn] at hunpack
    obtain rfl | hk := Nat.eq_zero_or_pos k
    · have hrank : rank (withSign s (ofInt 0)) = rank (ofInt64 n) := by
        rw [rank, rank, hunpack]
        cases s <;> rfl
      refine beq_iff.2 ⟨?_, isNaN_ofInt64 n, hrank⟩
      cases s <;> rfl
    · rw [ofInt_apply hk] at hunpack
      rw [beq_of_unpack_eq ((unpack_withSign_ofInt hk hlt s).trans hunpack.symm), isNaN_ofInt64, Bool.not_false]

/-! ### The text in a listing -/

/-- The text of a finite float in a listing has a fraction or an exponent, and its decimal becomes the float. -/
theorem exists_listingChars (h : Canonical m e) :
    ∃ t : Decimal.NumberText, t.text = listingChars m e ∧ Decimal.IsWhole t.whole ∧ t.rest ≠ [] ∧
      (ofDecimal t.value).toModel.unpack = .finite .positive m e h.pos := by
  have hpos := digits_shortest_pos h
  unfold listingChars
  simp only
  split_ifs with hscientific hexponent
  · obtain ⟨t, htext, hvalue, hsuffix, hwhole⟩ := (shortest m e).exists_scientific
    refine ⟨t, htext, hwhole, ?_, hvalue ▸ unpack_ofDecimal_shortest h⟩
    unfold Decimal.NumberText.rest
    split_ifs
    · exact hsuffix
    · exact List.cons_ne_nil _ _
  · -- a zero is put after the point
    obtain ⟨t, n, htext, hsettled, hvalue, hfraction, hwhole⟩ := Decimal.exists_pointZero hexponent hpos
    refine ⟨t, htext, hwhole, ?_, ?_⟩
    · rw [Decimal.NumberText.rest, if_neg hfraction]
      exact List.cons_ne_nil _ _
    · have hunpack := unpack_ofDecimal_settled_shortest h
      have hplaces : ofDecimal ⟨n * 10 ^ 1, -1⟩ = ofInt n := ofDecimal_places n (by decide)
      have hwhole' : ofDecimal ⟨n, 0⟩ = ofInt n := by simpa using ofDecimal_places n (k := 0) (by decide)
      rw [hsettled, hwhole', ← hplaces, ← hvalue] at hunpack
      exact hunpack
  · obtain ⟨t, htext, hvalue, hsuffix, hfraction, hwhole⟩ := (shortest m e).exists_positional
    refine ⟨t, htext, hwhole hpos, ?_, hvalue ▸ unpack_ofDecimal_settled_shortest h⟩
    rw [Decimal.NumberText.rest, if_neg (mt hfraction.1 hexponent)]
    exact List.cons_ne_nil _ _

/-- The text of a finite float in a listing is a sign and a number, which are read as the float itself. -/
theorem exists_listing {x : Float} (hx : x.isFinite = true) :
    ∃ (s : Sign) (t : Decimal.NumberText), (listing x).toList = signChars s ++ t.text ∧ Decimal.IsWhole t.whole ∧
      t.rest ≠ [] ∧ withSign s (ofDecimal t.value) = x := by
  have hfinite : x.toModel.unpack.isFinite = true := hx
  unfold listing
  cases hunpack : x.toModel.unpack with
  | notANumber =>
    rw [hunpack] at hfinite
    cases hfinite
  | infinity s =>
    rw [hunpack] at hfinite
    cases hfinite
  | zero s =>
    refine ⟨s, ⟨['0'], ['0'], [], 0, ⟨by simp, by simp⟩, by simp, rfl⟩, ?_, ⟨⟨by simp, by simp⟩, .inl rfl⟩,
      List.cons_ne_nil _ _, ?_⟩
    · simp only [String.toList_append, String.toList_ofList]
      rfl
    · refine (eq_of_unpack_eq hx (hunpack.trans ?_)).symm
      cases s <;> rfl
  | finite s m e hm =>
    have hcanonical := canonical_of_unpack hunpack
    obtain ⟨t, htext, hwhole, hrest, ht⟩ := exists_listingChars hcanonical
    refine ⟨s, t, ?_, hwhole, hrest, ?_⟩
    · simp only [String.toList_ofList]
      rw [htext]
    · exact (eq_of_unpack_eq hx (hunpack.trans (unpack_withSign hcanonical s ht).symm)).symm

end TemplateExpr.Binary64
