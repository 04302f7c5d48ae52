import Mathlib
import TemplateExpr.Binary64.Basic

/-!
# Canonical floats

A finite float is written in one way only: with 53 bits, or with fewer at the least exponent (`Canonical`). Its exponent
is then the one that rounding aims at (`Canonical.targetExponent_eq`). A float's own parts are canonical
(`canonical_of_unpack`), and canonical parts can be packed and unpacked without loss (`unpack_pack_finite`). The bits of
a finite float follow from its parts, so that no two finite floats have the same (`eq_of_unpack_eq`).
-/

namespace TemplateExpr.Binary64

open Float.Model Float.Model.UnpackedFloat

/-- A significand and an exponent that a finite float has. -/
structure Canonical (m : Nat) (e : Int) : Prop where
  pos : 0 < m
  lt : m < 2 ^ 53
  ge : -1074 ≤ e
  le : e ≤ 971
  /-- Only at the least exponent may the leading bit be missing. -/
  full : 2 ^ 52 ≤ m ∨ e = -1074

/-- Rounding leaves 53 bits, or as many as there are from the least exponent on. -/
theorem targetExponent_binary64 (t : Int) : Format.binary64.targetExponent t = max (t - 53) (-1074) := by
  simp [Format.targetExponent, Format.mantissaBits, Format.minExponent]

theorem targetExponent_eq (m : Nat) (e : Int) :
    Format.binary64.targetExponent (totalExponent m e) = max ((m.log2 : Int) + e - 52) (-1074) := by
  rw [targetExponent_binary64, totalExponent]
  omega

theorem Canonical.targetExponent_eq {m : Nat} {e : Int} (h : Canonical m e) :
    Format.binary64.targetExponent (totalExponent m e) = e := by
  obtain ⟨hpos, hlt, hge, hle, hfull⟩ := h
  have hlog : m.log2 < 53 := (Nat.log2_lt hpos.ne').2 hlt
  rw [Binary64.targetExponent_eq]
  obtain hfull | rfl := hfull
  · have hlow : 52 ≤ m.log2 := (Nat.le_log2 hpos.ne').2 hfull
    omega
  · omega

/-! ### Packing -/

/-- The sign that is packed is the one that is unpacked. -/
private theorem unpackSign_packComponents {spec : Format} (s : Sign) (e : BitVec spec.exponentBits)
    (m : BitVec spec.mantissaBitsWithoutImplicit) : Sign.ofBitVec (unpackSign (packComponents spec s e m)) = s := by
  have h : unpackSign (packComponents spec s e m) = s.toBitVec := by
    apply BitVec.eq_of_getLsbD_eq
    intro i hi
    obtain rfl : i = 0 := by omega
    simp [unpackSign, packComponents, BitVec.getLsbD_append, BitVec.getElem_append]
  rw [h]
  cases s <;> rfl

/-- A significand of 53 bits loses its leading bit and gets it back. -/
private theorem unpack_pack_normal {m n : Nat} {e : Int} (hm : 0 < m) (s : Sign) (hlow : 2 ^ 52 ≤ m)
    (hhigh : m < 2 ^ 53) (hn : e + 1075 = n) (hpos : 0 < n) (hlt : n < 2047) :
    UnpackedFloat.unpack .binary64 (UnpackedFloat.pack .binary64 (.finite s m e hm)) = .finite s m e hm := by
  have hlog : m.log2 = 52 := (Nat.log2_eq_iff (by omega)).2 ⟨hlow, hhigh⟩
  have hbiased : (e + Format.binary64.exponentBias + Format.binary64.mantissaBitsWithoutImplicit).toNat = n := by
    simp [Format.exponentBias]
    omega
  have hpack : UnpackedFloat.pack .binary64 (.finite s m e hm) =
      packComponents .binary64 s (BitVec.ofNat 11 n) (BitVec.ofNat 52 m) := by
    simp only [UnpackedFloat.pack, hbiased, hlog]
    rw [if_neg (by simp; omega), if_pos (by decide)]
  have hexponent : (BitVec.ofNat 11 n).toNat = n := by
    rw [BitVec.toNat_ofNat, Nat.mod_eq_of_lt (by omega)]
  have hne (k : BitVec 11) (hk : n ≠ k.toNat) : BitVec.ofNat 11 n ≠ k := fun h => hk (by rw [← h, hexponent])
  have hones : BitVec.ofNat 11 n ≠ -1#11 := hne _ (show n ≠ 2047 by omega)
  have hzero : BitVec.ofNat 11 n ≠ 0#11 := hne _ (show n ≠ 0 by omega)
  have hmantissa : (1#1 ++ BitVec.ofNat 52 m).toNat = m := by
    rw [BitVec.toNat_append, ← Nat.shiftLeft_add_eq_or_of_lt (BitVec.isLt _), BitVec.toNat_ofNat]
    simp [Nat.shiftLeft_eq]
    omega
  rw [hpack]
  simp only [UnpackedFloat.unpack, unpackMantissa_packComponents, unpackExponent_packComponents,
    unpackSign_packComponents]
  rw [if_neg hones, if_neg hzero, UnpackedFloat.finite.injEq]
  refine ⟨rfl, hmantissa, ?_⟩
  rw [hexponent]
  simp [Format.exponentBias]
  omega

/-- A shorter significand has no leading bit to lose. -/
private theorem unpack_pack_subnormal {m : Nat} (hm : 0 < m) (s : Sign) (hlt : m < 2 ^ 52) :
    UnpackedFloat.unpack .binary64 (UnpackedFloat.pack .binary64 (.finite s m (-1074) hm)) =
      .finite s m (-1074) hm := by
  have hlog : m.log2 < 52 := (Nat.log2_lt hm.ne').2 hlt
  have hpack : UnpackedFloat.pack .binary64 (.finite s m (-1074) hm) =
      packComponents .binary64 s 0#11 (BitVec.ofNat 52 m) := by
    have hshort : m.log2 + 1 ≠ Format.binary64.mantissaBits := fun h => by
      change m.log2 + 1 = 53 at h
      omega
    simp only [UnpackedFloat.pack]
    rw [if_neg (by decide), if_neg hshort]
  have hmantissa : (BitVec.ofNat 52 m).toNat = m := by
    rw [BitVec.toNat_ofNat, Nat.mod_eq_of_lt hlt]
  have hne : BitVec.ofNat 52 m ≠ 0#52 := fun h => by
    rw [h] at hmantissa
    exact hm.ne hmantissa
  rw [hpack]
  simp only [UnpackedFloat.unpack, unpackMantissa_packComponents, unpackExponent_packComponents,
    unpackSign_packComponents]
  rw [if_neg (by decide), if_pos trivial, dif_neg hne, UnpackedFloat.finite.injEq]
  exact ⟨rfl, hmantissa, rfl⟩

/-- Canonical parts are neither too long nor too great to be packed. -/
theorem unpack_pack_finite {m : Nat} {e : Int} (h : Canonical m e) (s : Sign) :
    UnpackedFloat.unpack .binary64 (UnpackedFloat.pack .binary64 (.finite s m e h.pos)) = .finite s m e h.pos := by
  obtain ⟨hpos, hlt, hge, hle, hfull⟩ := h
  obtain hlow | hshort := Nat.lt_or_ge m (2 ^ 52)
  · obtain rfl : e = -1074 := by omega
    exact unpack_pack_subnormal hpos s hlow
  · obtain ⟨n, hn⟩ := Int.eq_ofNat_of_zero_le (show 0 ≤ e + 1075 by omega)
    exact unpack_pack_normal hpos s hshort hlt hn (by omega) (by omega)

/-- The bit that is not stored stands in front of the others. -/
private theorem toNat_lead (v : BitVec Format.binary64.mantissaBitsWithoutImplicit) :
    (1#1 ++ v).toNat = 2 ^ 52 + v.toNat := by
  rw [BitVec.toNat_append, ← Nat.shiftLeft_add_eq_or_of_lt (BitVec.isLt _)]
  simp [Nat.shiftLeft_eq]

/-- What a float is unpacked to is canonical. -/
theorem canonical_of_unpack {b : BitVec Format.binary64.numBits} {s : Sign} {m : Nat} {e : Int} {hm : 0 < m}
    (h : UnpackedFloat.unpack .binary64 b = .finite s m e hm) : Canonical m e := by
  have hmantissa : (unpackMantissa b).toNat < 2 ^ 52 := (unpackMantissa b).isLt
  have hexponent : (unpackExponent b).toNat < 2 ^ 11 := (unpackExponent b).isLt
  simp only [UnpackedFloat.unpack] at h
  split at h
  · split at h <;> cases h
  · rename_i hones
    have hne : (unpackExponent b).toNat ≠ 2047 := fun hall => hones (BitVec.eq_of_toNat_eq hall)
    split at h
    · rename_i hzero
      split at h
      · cases h
      · cases h
        refine ⟨hm, by omega, ?_, ?_, .inr ?_⟩ <;> simp [Format.exponentBias, hzero]
    · rename_i hpositive
      have hne' : (unpackExponent b).toNat ≠ 0 := fun hnone => hpositive (BitVec.eq_of_toNat_eq hnone)
      have hlead := toNat_lead (unpackMantissa b)
      cases h
      refine ⟨hm, by omega, ?_, ?_, .inl (by omega)⟩
      · simp [Format.exponentBias]
        omega
      · simp [Format.exponentBias]
        omega

/-! ### Bits -/

/-- The sign, the exponent and the significand are all there is to a pattern. -/
private theorem eq_of_fields {b b' : BitVec Format.binary64.numBits} (hsign : unpackSign b = unpackSign b')
    (hexponent : unpackExponent b = unpackExponent b') (hmantissa : unpackMantissa b = unpackMantissa b') : b = b' := by
  have hb (b : BitVec Format.binary64.numBits) : unpackSign b ++ unpackExponent b ++ unpackMantissa b = b := by
    simp only [unpackSign, unpackExponent, unpackMantissa, BitVec.extractLsb]
    ext i hi
    grind
  rw [← hb b, ← hb b', hsign, hexponent, hmantissa]

private theorem ofBitVec_inj {c c' : BitVec 1} (h : Sign.ofBitVec c = Sign.ofBitVec c') : c = c' := by
  have hc : ∀ c : BitVec 1, (Sign.ofBitVec c).toBitVec = c := by decide
  rw [← hc c, ← hc c', h]

/-- The sign, the biased exponent and the stored significand of a zero or a finite float. -/
def fields : UnpackedFloat → Option (Sign × Nat × Nat)
  | .zero s => some (s, 0, 0)
  | .finite s m e _ => some (s, if m < 2 ^ 52 then 0 else (e + 1075).toNat, m % 2 ^ 52)
  | _ => none

private theorem fields_unpack {b : BitVec Format.binary64.numBits}
    (h : (UnpackedFloat.unpack .binary64 b).isFinite = true) :
    fields (UnpackedFloat.unpack .binary64 b) =
      some (Sign.ofBitVec (unpackSign b), (unpackExponent b).toNat, (unpackMantissa b).toNat) := by
  have hlt : (unpackMantissa b).toNat < 2 ^ 52 := (unpackMantissa b).isLt
  simp only [UnpackedFloat.unpack] at h ⊢
  split_ifs at h ⊢ with hones hmantissa hzero hnone
  · cases h
  · cases h
  · rw [fields, hzero, hnone]
    rfl
  · rw [fields, if_pos hlt, Nat.mod_eq_of_lt hlt, hzero]
    rfl
  · rw [fields, toNat_lead, if_neg (by omega), Nat.add_mod_left, Nat.mod_eq_of_lt hlt]
    simp [Format.exponentBias]

/-- A finite float is known by its parts. -/
theorem eq_of_unpack_eq {x y : Float} (hx : x.isFinite = true) (h : x.toModel.unpack = y.toModel.unpack) : x = y := by
  obtain ⟨⟨b, hb⟩⟩ := x
  obtain ⟨⟨b', hb'⟩⟩ := y
  change UnpackedFloat.unpack .binary64 b.toBitVec = UnpackedFloat.unpack .binary64 b'.toBitVec at h
  change (UnpackedFloat.unpack .binary64 b.toBitVec).isFinite = true at hx
  have hfields := (fields_unpack hx).symm.trans ((congrArg fields h).trans (fields_unpack (h ▸ hx)))
  simp only [Option.some.injEq, Prod.mk.injEq] at hfields
  obtain ⟨hsign, hexponent, hmantissa⟩ := hfields
  have hbits : b.toBitVec = b'.toBitVec :=
    eq_of_fields (ofBitVec_inj hsign) (BitVec.eq_of_toNat_eq hexponent) (BitVec.eq_of_toNat_eq hmantissa)
  obtain rfl := UInt64.toBitVec_inj.1 hbits
  rfl

end TemplateExpr.Binary64
