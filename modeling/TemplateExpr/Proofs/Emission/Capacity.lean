import TemplateExpr.Emitter.Operator
import TemplateExpr.Proofs.Binary64.Division
import TemplateExpr.Proofs.Binary64.Scaling

/-!
# Room for a map

The room that is made for a map is computed with floats, and yet exact (`Emitter.mapCapacity_laws`). A number of entries
below `2 ^ 30` is a float, and so are all quarters of integers of that size. The quotient by the load factor is
therefore rounded to a float between the same quarters as before. As four thirds of an integer are at most two thirds
away from the integer above, that one stays the integer above (`Emitter.ceil_quotient`).
-/

namespace TemplateExpr

open Float.Model

/-- A float is rounded up to the integer that it does not exceed and that is less than one above it. -/
theorem Binary64.ceil_eq {x : Float} {m k c : Nat} {e : Int} {hm : 0 < m}
    (hx : x.toModel.unpack = .finite .positive m e hm) (he : e = -k) (hle : m ≤ c * 2 ^ k)
    (hlt : c * 2 ^ k < m + 2 ^ k) : Binary64.ceil x = c := by
  have hpos : 0 < 2 ^ k := Nat.two_pow_pos k
  have htoNat : e.toNat = 0 ∧ (-e).toNat = k := by omega
  rw [Binary64.ceil, hx]
  simp only [htoNat, Nat.shiftLeft_zero, Nat.one_shiftLeft, Nat.shiftRight_eq_div_pow]
  refine Nat.div_eq_of_lt_le ?_ ?_
  · omega
  · rw [Nat.add_mul]
    omega

namespace Emitter

theorem unpack_loadFactor : loadFactor.toModel.unpack = .finite .positive (3 * 2 ^ 51) (-53) (by decide) := rfl

/-- The quotient of a number of entries by the load factor, rounded up, is four thirds of the number, rounded up. -/
theorem ceil_quotient {n c : Nat} (hn : 0 < n) (hlt : n < 2 ^ 30) (hle : 4 * n ≤ 3 * c) (hnear : 3 * c ≤ 4 * n + 2) :
    Binary64.ceil (Binary64.ofInt n / loadFactor) = c := by
  have hlog : n.log2 < 30 := (Nat.log2_lt hn.ne').2 hlt
  obtain ⟨m, j, hm, hquotient, hj, hgrid⟩ := Binary64.unpack_div (Binary64.unpack_ofInt hn (by omega)) unpack_loadFactor
    (Binary64.le_shiftLeft_log2 hn) (by norm_num) (by omega) (by omega)
  -- one is `8 * q` of the finest units that the last place of the quotient can be
  obtain ⟨q, hq⟩ : ∃ q, q = 2 ^ (49 - n.log2) := ⟨_, rfl⟩
  have hentry : 2 ^ (52 - n.log2) = 8 * q := by
    rw [hq, show 52 - n.log2 = 49 - n.log2 + 3 by omega, Nat.pow_add]
    omega
  have hpower : 2 ^ (52 - n.log2 - j) * 2 ^ j = 8 * q := by
    rw [← hentry, ← Nat.pow_add, Nat.sub_add_cancel (by omega)]
  have hquarters (a : Nat) :
      (3 * a ≤ 16 * n → a * q * 2 ≤ m * 2 ^ j) ∧ (16 * n ≤ 3 * a → m * 2 ^ j ≤ a * q * 2) := by
    obtain ⟨habove, hbelow⟩ := hgrid (a * q)
    rw [Nat.shiftLeft_eq, hentry, show n * (8 * q) * 2 ^ 52 = 16 * n * (q * 2 ^ 51) by ring,
      show a * q * (3 * 2 ^ 51) = 3 * a * (q * 2 ^ 51) by ring] at habove hbelow
    exact ⟨fun h => habove (Nat.mul_le_mul_right _ h), fun h => hbelow (Nat.mul_le_mul_right _ h)⟩
  obtain ⟨b, rfl⟩ : ∃ b, c = b + 1 := Nat.exists_eq_add_one.2 (by omega)
  have habove : b * (8 * q) + 2 * q ≤ m * 2 ^ j := by
    have h := (hquarters (4 * b + 1)).1 (by omega)
    rwa [show (4 * b + 1) * q * 2 = b * (8 * q) + 2 * q by ring] at h
  have hbelow : m * 2 ^ j ≤ (b + 1) * (8 * q) := by
    have h := (hquarters (4 * (b + 1))).2 (by omega)
    rwa [show 4 * (b + 1) * q * 2 = (b + 1) * (8 * q) by ring] at h
  have hpos : 0 < q := hq ▸ Nat.two_pow_pos _
  refine Binary64.ceil_eq hquotient (k := 52 - n.log2 - j) (by omega) ?_ ?_
  · refine Nat.le_of_mul_le_mul_right ?_ (Nat.two_pow_pos j)
    rwa [Nat.mul_assoc, hpower]
  · refine Nat.lt_of_mul_lt_mul_right (a := 2 ^ j) ?_
    rw [Nat.mul_assoc, Nat.add_mul, hpower, Nat.add_mul]
    omega

/-! ### The room -/

private theorem ceil_four_thirds (n : Nat) : ⌈(4 * n / 3 : ℚ)⌉₊ = (4 * n + 2) / 3 := by
  apply le_antisymm
  · have hle : 4 * n ≤ (4 * n + 2) / 3 * 3 := by omega
    rw [Nat.ceil_le, div_le_iff₀ (by norm_num)]
    exact_mod_cast hle
  · have hceil := Nat.le_ceil (4 * n / 3 : ℚ)
    rw [div_le_iff₀ (by norm_num)] at hceil
    have hle : 4 * n ≤ ⌈(4 * n / 3 : ℚ)⌉₊ * 3 := by exact_mod_cast hceil
    omega

/-- The room in the three ranges; it never comes near the limit of the operand. -/
private theorem toNat_mapCapacity (n : Nat) : (mapCapacity n).toNat =
    if n < 3 then n + 1 else if n < 2 ^ 30 then (4 * n + 2) / 3 + 1 else 2 ^ 31 - 1 := by
  have hroom {k : Nat} (hk : k + 1 < 2 ^ 32) : (UInt32.ofNat k + 1).toNat = k + 1 := by
    rw [UInt32.toNat_add, UInt32.toNat_ofNat', UInt32.toNat_one]
    omega
  have hgreatest : greatestTable = 2 ^ 30 := rfl
  unfold mapCapacity
  rw [hgreatest]
  split_ifs with hsmall hlarge
  · exact hroom (by omega)
  · rw [ceil_quotient (c := (4 * n + 2) / 3) (by omega) hlarge (by omega) (by omega)]
    exact hroom (by omega)
  · rfl

/-- The room is one more than four thirds of the number of entries, rounded up, with all the rounding of floats in
between. It grows with the number, the operand that holds it never wraps, and a load of three quarters is kept. -/
theorem mapCapacity_laws (n : Nat) :
    (mapCapacity n).toNat =
        (if n < 3 then n + 1 else if n < 2 ^ 30 then ⌈(4 * n / 3 : ℚ)⌉₊ + 1 else 2 ^ 31 - 1) ∧
      (3 ≤ n → n < 2 ^ 30 → Binary64.ceil (Binary64.ofInt n / loadFactor) = ⌈(4 * n / 3 : ℚ)⌉₊ ∧
        ⌈(4 * n / 3 : ℚ)⌉₊ + 1 < 2 ^ 32) ∧
      (∀ m, m ≤ n → mapCapacity m ≤ mapCapacity n) ∧
      (n < 2 ^ 30 → 4 * n ≤ 3 * (mapCapacity n).toNat) := by
  rw [ceil_four_thirds]
  refine ⟨toNat_mapCapacity n, fun hlow hhigh => ?_, fun m hle => ?_, fun hhigh => ?_⟩
  · exact ⟨ceil_quotient (by omega) hhigh (by omega) (by omega), by omega⟩
  · rw [UInt32.le_iff_toNat_le, toNat_mapCapacity, toNat_mapCapacity]
    split_ifs <;> omega
  · rw [toNat_mapCapacity]
    split_ifs <;> omega

/-- The last number of entries before the greatest room. -/
theorem mapCapacity_laws_greatest :
    Binary64.ceil (Binary64.ofInt (2 ^ 30 - 1 : Nat) / loadFactor) = 1431655764 ∧
      mapCapacity 2 ≤ mapCapacity (2 ^ 30 - 1) ∧ 4 * (2 ^ 30 - 1) ≤ 3 * (mapCapacity (2 ^ 30 - 1)).toNat := by
  obtain ⟨-, hexact, hmono, hload⟩ := mapCapacity_laws (2 ^ 30 - 1)
  refine ⟨(hexact (by norm_num) (by norm_num)).1.trans ?_, hmono 2 (by norm_num), hload (by norm_num)⟩
  norm_num [Nat.ceil_eq_iff]

end Emitter

end TemplateExpr
