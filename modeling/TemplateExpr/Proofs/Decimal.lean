import Mathlib
import TemplateExpr.Decimal

/-!
# Decimals read back

The text of a number has three parts (`NumberText`), and is read part by part (`NumberText.readUnsigned?_text`). In
positional notation the places up to the point are filled with zeros, so that reading gives the decimal with these
zeros among its digits (`settled`), which is the decimal itself if it has places after the point
(`exists_positional`). Scientific notation keeps digits and exponent apart, so that reading gives the decimal itself
(`exists_scientific`).
-/

namespace TemplateExpr.Decimal

/-- The same number without a positive exponent. -/
def settled (d : Decimal) : Decimal := if 0 ≤ d.exponent then ⟨d.digits * 10 ^ d.exponent.toNat, 0⟩ else d

/-! ### Digits -/

/-- Only digits, and at least one. -/
structure IsNumeral (cs : List Char) : Prop where
  ne_nil : cs ≠ []
  isDigit : ∀ c ∈ cs, c.isDigit = true

theorem IsNumeral.append {cs fs : List Char} (h : IsNumeral cs) (hfs : ∀ c ∈ fs, c.isDigit = true) :
    IsNumeral (cs ++ fs) :=
  ⟨fun hnil => h.ne_nil (List.append_eq_nil_iff.1 hnil).1, fun c hc => (List.mem_append.1 hc).elim (h.isDigit c) (hfs c)⟩

theorem isNumeral_digitChars (n : Nat) : IsNumeral (digitChars n) :=
  ⟨Nat.toDigits_ne_nil, fun _ hc => Nat.isDigit_of_mem_toDigits (by decide) (by decide) hc⟩

theorem ofDigits_digitChars (n : Nat) : ofDigits (digitChars n) = n := Nat.ofDigitChars_ten_toDigits

/-- A whole number as it is written: no zeros in front, unless it is one itself. -/
structure IsWhole (cs : List Char) : Prop extends IsNumeral cs where
  bare : cs = ['0'] ∨ cs.head? ≠ some '0'

/-- No positive number begins with a zero. -/
theorem head?_digitChars {n : Nat} (hn : 0 < n) : (digitChars n).head? ≠ some '0' := by
  unfold digitChars
  induction n using Nat.strongRecOn with
  | ind n ih =>
    rw [Nat.toDigits_eq_if (by decide)]
    split_ifs with hlt
    · intro h
      have hzero := Option.some.inj h
      interval_cases n <;> revert hzero <;> decide
    · rw [List.head?_append_of_ne_nil _ Nat.toDigits_ne_nil]
      exact ih (n / 10) (by omega) (by omega)

theorem isWhole_digitChars (n : Nat) : IsWhole (digitChars n) := by
  refine ⟨isNumeral_digitChars n, ?_⟩
  obtain rfl | hn := Nat.eq_zero_or_pos n
  · exact .inl rfl
  · exact .inr (head?_digitChars hn)

/-- The text of an integer is a sign, if there is one, and the digits. -/
theorem toList_toString (n : Int) : (toString n).toList = (if n < 0 then ['-'] else []) ++ digitChars n.natAbs := by
  rw [Int.toString_eq_repr, Int.repr_eq_if]
  split_ifs with hle hlt hlt
  · omega
  · rw [Nat.toList_repr, List.nil_append, show n.toNat = n.natAbs by omega]
    rfl
  · rw [String.toList_append, Nat.toList_repr, show (-n).toNat = n.natAbs by omega]
    rfl
  · omega

private theorem isDigit_of_mem_zeros {k : Nat} {c : Char} (hc : c ∈ zeros k) : c.isDigit = true := by
  obtain rfl := List.eq_of_mem_replicate hc
  rfl

/-- Zeros in front count nothing, and every zero at the end counts ten times. -/
private theorem ofDigits_zeros_append (k : Nat) (cs : List Char) : ofDigits (zeros k ++ cs) = ofDigits cs := by
  change Nat.ofDigitChars 10 (List.replicate k '0' ++ cs) 0 = Nat.ofDigitChars 10 cs 0
  rw [Nat.ofDigitChars_append, Nat.ofDigitChars_replicate_zero, Nat.mul_zero]

private theorem ofDigits_append_zeros (cs : List Char) (k : Nat) : ofDigits (cs ++ zeros k) = ofDigits cs * 10 ^ k := by
  change Nat.ofDigitChars 10 (cs ++ List.replicate k '0') 0 = Nat.ofDigitChars 10 cs 0 * 10 ^ k
  rw [Nat.ofDigitChars_append, Nat.ofDigitChars_replicate_zero, Nat.mul_comm]

theorem positional_natCast (n : Nat) : positional ⟨n, 0⟩ = digitChars n := by
  simp [positional, zeros]

/-! ### Texts and their parts -/

/-- What comes first is split off where the first other character stands. -/
theorem takeWhile_append_stop {p : Char → Bool} {cs rest : List Char} (h : ∀ c ∈ cs, p c = true)
    (hstop : ∀ c ∈ rest.head?, p c = false) : (cs ++ rest).takeWhile p = cs ∧ (cs ++ rest).dropWhile p = rest := by
  rw [List.takeWhile_append_of_pos h, List.dropWhile_append_of_pos h]
  cases rest with
  | nil => exact ⟨List.append_nil cs, rfl⟩
  | cons c rest =>
    have hc : ¬ p c = true := Bool.eq_false_iff.1 (hstop c rfl)
    rw [List.takeWhile_cons_of_neg hc, List.dropWhile_cons_of_neg hc]
    exact ⟨List.append_nil cs, rfl⟩

/-- What begins with a digit is not taken for a sign and something behind it. -/
theorem splitSign_of_isDigit {c : Char} (hc : c.isDigit = true) (cs : List Char) :
    splitSign (c :: cs) = (false, c :: cs) := by
  unfold splitSign
  split
  · rename_i heq
    obtain ⟨rfl, -⟩ := List.cons.inj heq
    exact absurd hc (by decide)
  · rename_i heq
    obtain ⟨rfl, -⟩ := List.cons.inj heq
    exact absurd hc (by decide)
  · rfl

private theorem mem_splitSign {cs : List Char} {c : Char} (hc : c ∈ cs) : c ∈ ['+', '-'] ∨ c ∈ (splitSign cs).2 := by
  unfold splitSign
  split
  · obtain rfl | hc := List.mem_cons.1 hc
    · exact .inl (by decide)
    · exact .inr hc
  · obtain rfl | hc := List.mem_cons.1 hc
    · exact .inl (by decide)
    · exact .inr hc
  · exact .inr hc

/-- The text of an unsigned number in its parts: digits, perhaps a point and more digits, perhaps an exponent. -/
structure NumberText where
  whole : List Char
  fraction : List Char
  suffix : List Char
  exponent : Int
  isNumeral : IsNumeral whole
  isDigit : ∀ c ∈ fraction, c.isDigit = true
  reads : readExponent? suffix = some exponent

namespace NumberText

variable (t : NumberText)

/-- What follows the first digits. -/
def rest : List Char := if t.fraction = [] then t.suffix else '.' :: (t.fraction ++ t.suffix)

def text : List Char := t.whole ++ t.rest

def value : Decimal := ⟨ofDigits (t.whole ++ t.fraction), t.exponent - t.fraction.length⟩

/-- Without an exponent the text ends with its digits. -/
theorem text_of_suffix (hsuffix : t.suffix = []) :
    t.text = t.whole ++ if t.fraction = [] then [] else '.' :: t.fraction := by
  rw [text, rest, hsuffix, List.append_nil]

/-- The letter of an exponent is neither a digit nor a point. -/
theorem head?_suffix : ∀ c ∈ t.suffix.head?, c.isDigit = false ∧ c ≠ '.' := by
  have hreads := t.reads
  cases hsuffix : t.suffix with
  | nil => exact nofun
  | cons c es =>
    rintro _ ⟨⟩
    rw [hsuffix, readExponent?] at hreads
    split_ifs at hreads with hc
    obtain rfl | rfl := hc <;> exact ⟨by decide, by decide⟩

/-- The letter, perhaps a sign, and digits. -/
theorem mem_suffix {c : Char} (hc : c ∈ t.suffix) : c.isDigit = true ∨ c ∈ ['e', 'E', '+', '-'] := by
  have hreads := t.reads
  obtain ⟨l, es, hsuffix⟩ := List.exists_cons_of_ne_nil (List.ne_nil_of_mem hc)
  rw [hsuffix] at hc hreads
  rw [readExponent?] at hreads
  split_ifs at hreads with hl
  obtain rfl | hc := List.mem_cons.1 hc
  · obtain rfl | rfl := hl <;> exact .inr (by decide)
  · have hsplit := mem_splitSign hc
    generalize splitSign es = split at hreads hsplit
    obtain ⟨negative, ds⟩ := split
    have hdigits : ¬(ds.isEmpty = true ∨ ¬ds.all Char.isDigit = true) := fun h => by
      simp only at hreads
      rw [if_pos h] at hreads
      cases hreads
    rw [not_or, not_not, List.all_eq_true] at hdigits
    obtain hsign | hmem := hsplit
    · exact .inr (List.mem_cons_of_mem _ (List.mem_cons_of_mem _ hsign))
    · exact .inl (hdigits.2 c hmem)

/-- The characters of an unsigned number. -/
theorem mem_text {c : Char} (hc : c ∈ t.text) : c.isDigit = true ∨ c ∈ ['.', 'e', 'E', '+', '-'] := by
  obtain hc | hc := List.mem_append.1 hc
  · exact .inl (t.isNumeral.isDigit c hc)
  · unfold rest at hc
    split_ifs at hc
    · exact (t.mem_suffix hc).imp id (List.mem_cons_of_mem _)
    · obtain rfl | hc := List.mem_cons.1 hc
      · exact .inr (by decide)
      · obtain hc | hc := List.mem_append.1 hc
        · exact .inl (t.isDigit c hc)
        · exact (t.mem_suffix hc).imp id (List.mem_cons_of_mem _)

theorem head?_rest : ∀ c ∈ t.rest.head?, c.isDigit = false := by
  unfold rest
  split_ifs
  · exact fun c hc => (t.head?_suffix c hc).1
  · rintro _ ⟨⟩
    rfl

/-- If a point follows the first digits, another digit follows the point. -/
theorem rest_cases (h : t.rest ≠ []) :
    (∃ c cs, t.rest = c :: cs ∧ c ≠ '.') ∨ ∃ f cs, t.rest = '.' :: f :: cs ∧ f.isDigit = true := by
  unfold rest at h ⊢
  split_ifs at h ⊢ with hfraction
  · obtain ⟨c, cs, hsuffix⟩ := List.exists_cons_of_ne_nil h
    exact .inl ⟨c, cs, hsuffix, (t.head?_suffix c (by rw [hsuffix]; rfl)).2⟩
  · obtain ⟨f, fs, hfs⟩ := List.exists_cons_of_ne_nil hfraction
    exact .inr ⟨f, fs ++ t.suffix, by rw [hfs, List.cons_append], t.isDigit f (hfs ▸ List.mem_cons_self)⟩

theorem readUnsigned?_text : readUnsigned? t.text = some t.value := by
  obtain ⟨hwhole, hrest⟩ := takeWhile_append_stop t.isNumeral.isDigit t.head?_rest
  have hne := t.isNumeral.ne_nil
  have hreads := t.reads
  unfold readUnsigned? text value
  simp only [hwhole, hrest]
  by_cases hfraction : t.fraction = []
  · rw [rest, if_pos hfraction]
    cases hsuffix : t.suffix with
    | nil =>
      rw [hsuffix] at hreads
      simp [hfraction, hne, hreads]
    | cons c es =>
      have hc : c ≠ '.' := (t.head?_suffix c (by rw [hsuffix]; rfl)).2
      rw [hsuffix] at hreads
      simp [hfraction, hne, hreads, hc]
  · obtain ⟨hplaces, hsuffix⟩ := takeWhile_append_stop t.isDigit fun c hc => (t.head?_suffix c hc).1
    rw [rest, if_neg hfraction]
    simp [hplaces, hsuffix, hne, hreads]

/-- A number begins with a digit. -/
theorem exists_cons : ∃ c cs, t.text = c :: cs ∧ c.isDigit = true := by
  obtain ⟨c, cs, hwhole⟩ := List.exists_cons_of_ne_nil t.isNumeral.ne_nil
  refine ⟨c, cs ++ t.rest, ?_, t.isNumeral.isDigit c (hwhole ▸ List.mem_cons_self)⟩
  rw [text, hwhole, List.cons_append]

end NumberText

/-! ### Positional notation -/

/-- Positional notation has no exponent, and a point only if there are places after it. -/
theorem exists_positional (d : Decimal) : ∃ t : NumberText, t.text = d.positional ∧ t.value = d.settled ∧
    t.suffix = [] ∧ (t.fraction = [] ↔ 0 ≤ d.exponent) ∧ (0 < d.digits → IsWhole t.whole) := by
  have hds := isNumeral_digitChars d.digits
  have hhead := head?_digitChars (n := d.digits)
  have hread := ofDigits_digitChars d.digits
  simp only [positional, settled]
  generalize digitChars d.digits = ds at hds hhead hread
  split_ifs with hexponent hplaces
  · -- the places up to the point are filled
    have hwhole : IsNumeral (ds ++ zeros d.exponent.toNat) := hds.append fun _ => isDigit_of_mem_zeros
    refine ⟨⟨_, [], [], 0, hwhole, nofun, rfl⟩, List.append_nil _, ?_, rfl, iff_of_true rfl hexponent,
      fun hpos => ⟨hwhole, .inr ?_⟩⟩
    · rw [NumberText.value, List.append_nil, ofDigits_append_zeros, hread]
      rfl
    · rw [List.head?_append_of_ne_nil _ hds.ne_nil]
      exact hhead hpos
  · -- the point is among the digits
    generalize hk : ds.length - (-d.exponent).toNat = k
    have hlength : d.exponent = 0 - (ds.drop k).length := by
      rw [List.length_drop]
      omega
    have hfraction : ds.drop k ≠ [] := fun hnil => by
      rw [hnil, List.length_nil] at hlength
      omega
    have hwhole : IsNumeral (ds.take k) := by
      refine ⟨fun hnil => ?_, fun c hc => hds.isDigit c (List.mem_of_mem_take hc)⟩
      obtain hzero | hnil := List.take_eq_nil_iff.1 hnil
      · omega
      · exact hds.ne_nil hnil
    refine ⟨⟨_, ds.drop k, [], 0, hwhole, fun c hc => hds.isDigit c (List.mem_of_mem_drop hc), rfl⟩, ?_, ?_, rfl,
      iff_of_false hfraction hexponent, fun hpos => ⟨hwhole, .inr ?_⟩⟩
    · rw [NumberText.text_of_suffix _ rfl, if_neg hfraction]
    · rw [NumberText.value, List.take_append_drop, hread, ← hlength]
    · rw [List.head?_take, if_neg (by omega)]
      exact hhead hpos
  · -- the point is before the digits
    generalize hk : (-d.exponent).toNat - ds.length = k
    have hlength : d.exponent = 0 - (zeros k ++ ds).length := by
      rw [List.length_append, zeros, List.length_replicate]
      omega
    have hfraction : zeros k ++ ds ≠ [] := fun hnil => hds.ne_nil (List.append_eq_nil_iff.1 hnil).2
    have hdigit : ∀ c ∈ zeros k ++ ds, c.isDigit = true := fun c hc =>
      (List.mem_append.1 hc).elim isDigit_of_mem_zeros (hds.isDigit c)
    have hwhole : IsWhole ['0'] := isWhole_digitChars 0
    refine ⟨⟨_, zeros k ++ ds, [], 0, hwhole.toIsNumeral, hdigit, rfl⟩, ?_, ?_, rfl, iff_of_false hfraction hexponent,
      fun _ => hwhole⟩
    · rw [NumberText.text_of_suffix _ rfl, if_neg hfraction]
      rfl
    · have hzeros : ofDigits (['0'] ++ (zeros k ++ ds)) = d.digits := by
        rw [← hread]
        exact ofDigits_zeros_append (k + 1) ds
      rw [NumberText.value, hzeros, ← hlength]

/-- With a zero put after its point, a whole number has one place more. -/
theorem exists_pointZero {d : Decimal} (hexponent : 0 ≤ d.exponent) (hpos : 0 < d.digits) :
    ∃ (t : NumberText) (n : Nat), t.text = d.positional ++ ['.', '0'] ∧ d.settled = ⟨n, 0⟩ ∧
      t.value = ⟨n * 10 ^ 1, -1⟩ ∧ t.fraction ≠ [] ∧ IsWhole t.whole := by
  obtain ⟨t, htext, hvalue, hsuffix, hfraction, hwhole⟩ := d.exists_positional
  have hnone := hfraction.2 hexponent
  refine ⟨⟨t.whole, ['0'], [], 0, t.isNumeral, by simp, rfl⟩, d.digits * 10 ^ d.exponent.toNat, ?_, ?_, ?_,
    List.cons_ne_nil _ _, hwhole hpos⟩
  · change t.whole ++ ['.', '0'] = _
    rw [← htext, t.text_of_suffix hsuffix, if_pos hnone, List.append_nil]
  · rw [settled, if_pos hexponent]
  · rw [settled, if_pos hexponent, NumberText.value, hnone, List.append_nil] at hvalue
    change Decimal.mk (ofDigits (t.whole ++ zeros 1)) (0 - 1) = _
    rw [ofDigits_append_zeros, (Decimal.mk.inj hvalue).1]
    rfl

theorem isDigit_or_eq_of_mem_positional {d : Decimal} {c : Char} (hc : c ∈ d.positional) :
    c.isDigit = true ∨ c = '.' := by
  obtain ⟨t, htext, -, hsuffix, -⟩ := d.exists_positional
  rw [← htext, t.text_of_suffix hsuffix, List.mem_append] at hc
  obtain hc | hc := hc
  · exact .inl (t.isNumeral.isDigit c hc)
  · split_ifs at hc
    · cases hc
    · obtain rfl | hc := List.mem_cons.1 hc
      · exact .inr rfl
      · exact .inl (t.isDigit c hc)

/-! ### Scientific notation -/

theorem readExponent?_toString (n : Int) : readExponent? ('e' :: (toString n).toList) = some n := by
  obtain ⟨c, ds, hds⟩ := List.exists_cons_of_ne_nil (isNumeral_digitChars n.natAbs).ne_nil
  have hdigit := (isNumeral_digitChars n.natAbs).isDigit
  have hread := ofDigits_digitChars n.natAbs
  rw [hds] at hdigit hread
  have hall : (c :: ds).all Char.isDigit = true := List.all_eq_true.2 hdigit
  have hsign : splitSign (toString n).toList = (decide (n < 0), c :: ds) := by
    rw [toList_toString, hds]
    split_ifs with hlt
    · rw [decide_eq_true hlt]
      rfl
    · rw [decide_eq_false hlt]
      exact splitSign_of_isDigit (hdigit c List.mem_cons_self) ds
  rw [readExponent?, if_pos (.inl rfl), hsign]
  simp only [hall, hread, decide_eq_true_eq]
  rw [if_neg (by simp)]
  split_ifs <;> congr 1 <;> omega

/-- Scientific notation has one digit before the point. -/
theorem exists_scientific (d : Decimal) : ∃ t : NumberText, t.text = d.scientific ∧ t.value = d ∧ t.suffix ≠ [] ∧
    IsWhole t.whole := by
  obtain ⟨hne, hdigit⟩ := isNumeral_digitChars d.digits
  have hread := ofDigits_digitChars d.digits
  obtain ⟨c, fs, hds⟩ := List.exists_cons_of_ne_nil hne
  rw [hds] at hdigit hread
  have hwhole : IsWhole [c] := by
    refine ⟨⟨List.cons_ne_nil c [], fun c' hc' => hdigit c' (List.mem_singleton.1 hc' ▸ List.mem_cons_self)⟩, ?_⟩
    obtain rfl | hc := eq_or_ne c '0'
    · exact .inl rfl
    · exact .inr (by simpa using hc)
  have hexponent : d.leadingExponent - fs.length = d.exponent := by
    rw [leadingExponent, digitCount, hds, List.length_cons]
    omega
  refine ⟨⟨[c], fs, _, _, hwhole.toIsNumeral, fun c' hc' => hdigit c' (List.mem_cons_of_mem c hc'),
    readExponent?_toString d.leadingExponent⟩, ?_, ?_, List.cons_ne_nil _ _, hwhole⟩
  · simp only [NumberText.text, NumberText.rest, scientific, hds]
    cases fs <;> rfl
  · simp only [NumberText.value, List.singleton_append, hread, hexponent]

end TemplateExpr.Decimal
