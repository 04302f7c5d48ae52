import TemplateExpr.Json.Basic
import TemplateExpr.Proofs.Binary64.Reading
import TemplateExpr.Proofs.Json.Basic

/-!
# Numbers in a document read back

An integer is written as its digits alone and is read as an integer (`number?_toString`). A finite real number is
written with a fraction or an exponent, so that it is never read as an integer, and is read as itself
(`number?_listing`). A number ends where a character stands that no number has (`readValue?_number`).
-/

namespace TemplateExpr.Json

open Decimal (NumberText IsWhole)
open Float.Model.UnpackedFloat (Sign)

variable {cs rest : List Char}

theorem skipSpace_cons {c : Char} (hc : isSpace c = false) (cs : List Char) : skipSpace (c :: cs) = c :: cs := by
  rw [skipSpace, List.dropWhile_cons_of_neg (by rw [hc]; exact Bool.false_ne_true)]

/-! ### The end of a number -/

/-- The characters of a number. -/
def isNumberChar (c : Char) : Bool := c.isDigit || c = '.' || c = 'e' || c = 'E' || c = '-' || c = '+'

/-- The rest of a text in which a number before it has come to its end. -/
def EndsNumber (rest : List Char) : Prop := ∀ c ∈ rest.head?, isNumberChar c = false

theorem endsNumber_cons {c : Char} (hc : isNumberChar c = false) (rest : List Char) : EndsNumber (c :: rest) := by
  rintro _ ⟨⟩
  exact hc

theorem splitNumber_append (h : ∀ c ∈ cs, isNumberChar c = true) (hrest : EndsNumber rest) :
    splitNumber (cs ++ rest) = (cs, rest) := by
  change (cs ++ rest).span isNumberChar = (cs, rest)
  obtain ⟨hcs, hrest⟩ := Decimal.takeWhile_append_stop h hrest
  rw [List.span_eq_takeWhile_dropWhile, hcs, hrest]

theorem isNumberChar_of_mem_signed {s : Sign} {t : NumberText} {c : Char} (hc : c ∈ Binary64.signChars s ++ t.text) :
    isNumberChar c = true := by
  obtain hc | hc := List.mem_append.1 hc
  · cases s with
    | negative =>
      obtain rfl := List.mem_singleton.1 hc
      rfl
    | positive => cases hc
  · obtain hdigit | hother := t.mem_text hc
    · rw [isNumberChar, hdigit]
      rfl
    · have hall : ∀ c ∈ ['.', 'e', 'E', '+', '-'], isNumberChar c = true := by simp [isNumberChar]
      exact hall c hother

/-- A number begins with a minus or a digit. -/
theorem exists_cons_signed (s : Sign) (t : NumberText) :
    ∃ c rest, Binary64.signChars s ++ t.text = c :: rest ∧ (c = '-' ∨ c.isDigit = true) := by
  obtain ⟨c, rest, htext, hc⟩ := t.exists_cons
  cases s with
  | negative => exact ⟨'-', t.text, rfl, .inl rfl⟩
  | positive => exact ⟨c, rest, htext, .inr hc⟩

/-! ### Numbers -/

theorem wholeOk_of_isWhole (h : IsWhole cs) : wholeOk cs = true := by
  obtain ⟨⟨hne, -⟩, rfl | hhead⟩ := h
  · rfl
  · obtain ⟨c, cs, rfl⟩ := List.exists_cons_of_ne_nil hne
    have hc : c ≠ '0' := fun h => hhead (congrArg some h)
    unfold wholeOk
    split
    · rename_i heq
      cases heq
    · rfl
    · rename_i heq
      cases heq
      exact bne_iff_ne.2 hc

theorem number?_toString {n : Int} (h : isInteger n = true) : number? (toString n).toList = some (integer n) := by
  have hwhole := Decimal.isWhole_digitChars n.natAbs
  have hread := Decimal.ofDigits_digitChars n.natAbs
  rw [Decimal.toList_toString]
  generalize Decimal.digitChars n.natAbs = ds at hwhole hread
  have hdigits : ds.takeWhile Char.isDigit = ds := List.takeWhile_eq_self_iff.2 hwhole.isDigit
  have hnone : ds.dropWhile Char.isDigit = [] := List.dropWhile_eq_nil_iff.2 hwhole.isDigit
  have hok := wholeOk_of_isWhole hwhole
  obtain ⟨c, cs, hds⟩ := List.exists_cons_of_ne_nil hwhole.ne_nil
  have hc : c ≠ '-' := by
    rintro rfl
    exact absurd (hwhole.isDigit '-' (hds ▸ List.mem_cons_self)) (by decide)
  split_ifs with hn
  · simp [number?, hdigits, hnone, hok, hread, abs_of_neg hn, h, hn.ne]
  · subst hds
    simp [number?, hdigits, hnone, hok, hread, abs_of_nonneg (Int.not_lt.1 hn), h, hc]

/-- A number with more than its first digits is read as a real one. -/
private theorem number?_signed (s : Sign) {t : NumberText} (hwhole : IsWhole t.whole) (hrest : t.rest ≠ []) :
    number? (Binary64.signChars s ++ t.text) = real? (Binary64.signChars s ++ t.text) := by
  obtain ⟨hdigits, hrest'⟩ := Decimal.takeWhile_append_stop t.isNumeral.isDigit t.head?_rest
  have hok := wholeOk_of_isWhole hwhole
  obtain ⟨c, cs, htext, hc⟩ := t.exists_cons
  have hc' : c ≠ '-' := by
    rintro rfl
    exact absurd hc (by decide)
  rw [← NumberText.text, htext] at hdigits hrest'
  rw [htext]
  obtain ⟨d, ds, hr, hd⟩ | ⟨f, fs, hr, hf⟩ := t.rest_cases hrest
  · cases s
    · simp [number?, Binary64.signChars, hdigits, hrest', hok, hr, hd]
    · simp [number?, Binary64.signChars, hdigits, hrest', hok, hr, hd, hc']
  · cases s
    · simp [number?, Binary64.signChars, hdigits, hrest', hok, hr, hf]
    · simp [number?, Binary64.signChars, hdigits, hrest', hok, hr, hf, hc']

theorem number?_listing {x : Float} (hx : x.isFinite = true) : number? (Binary64.listing x).toList = some (real x) := by
  obtain ⟨s, t, htext, hwhole, hrest, hvalue⟩ := Binary64.exists_listing hx
  rw [htext, number?_signed s hwhole hrest, real?, Binary64.read?_signed, hvalue]
  simp [hx]

private theorem ne_of_begins {c d : Char} (hc : c = '-' ∨ c.isDigit = true) (hd : (d != '-' && !d.isDigit) = true) :
    c ≠ d := by
  rintro rfl
  obtain rfl | hc := hc
  · exact absurd hd (by decide)
  · simp [hc] at hd

/-- A number begins neither with a blank nor with a bracket. -/
theorem isSpace_of_begins {c : Char} (hc : c = '-' ∨ c.isDigit = true) : isSpace c = false ∧ c ≠ ']' := by
  have hne (d : Char) (hd : (d != '-' && !d.isDigit) = true) : c ≠ d := ne_of_begins hc hd
  refine ⟨?_, hne ']' (by decide)⟩
  simp [isSpace, hne ' ' (by decide), hne '\n' (by decide), hne '\t' (by decide), hne '\r' (by decide)]

/-- The text of a number is known by its first character, and is read up to its end. -/
theorem readValue?_number {v : Json} {c : Char} (hc : c = '-' ∨ c.isDigit = true)
    (hall : ∀ d ∈ c :: cs, isNumberChar d = true) (hv : number? (c :: cs) = some v) (hrest : EndsNumber rest)
    (fuel : Nat) : readValue? (fuel + 1) (c :: cs ++ rest) = some (v, rest) := by
  have hne (d : Char) (hd : (d != '-' && !d.isDigit) = true) : c ≠ d := ne_of_begins hc hd
  have hsplit := splitNumber_append hall hrest
  rw [List.cons_append] at hsplit ⊢
  rw [readValue?, skipSpace_cons (isSpace_of_begins hc).1]
  simp [hsplit, hv, hne '"' (by decide), hne '[' (by decide), hne '\x7b' (by decide), hne 'n' (by decide),
    hne 't' (by decide), hne 'f' (by decide)]

end TemplateExpr.Json
