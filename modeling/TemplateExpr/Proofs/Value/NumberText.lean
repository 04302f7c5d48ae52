import TemplateExpr.Proofs.Binary64.Reading
import TemplateExpr.RuntimeFunction

/-!
# A number equals its text

The text of a number has no blanks in it, so that trimming takes away only what is put around it (`Text.trim_append`),
and it is read as a float equal to the number. Hence the language's `==` between the two is true on either side, and so
is the comparison of a text with a number; only a NaN does not equal its text (`Value.comparesWithText`).
-/

namespace TemplateExpr

open Float.Model Float.Model.UnpackedFloat

/-! ### Blanks -/

namespace Text

private theorem dropWhile_blanks {before cs : List Char} (hbefore : ∀ c ∈ before, isBlank c = true) (hne : cs ≠ [])
    (hcs : ∀ c ∈ cs, isBlank c = false) (after : List Char) :
    (before ++ (cs ++ after)).dropWhile isBlank = cs ++ after := by
  obtain ⟨c, cs, rfl⟩ := List.exists_cons_of_ne_nil hne
  rw [List.dropWhile_append_of_pos hbefore, List.cons_append, List.dropWhile_cons_of_neg]
  rw [hcs c List.mem_cons_self]
  exact Bool.false_ne_true

/-- Blanks around a text without any are all that trimming takes away. -/
theorem trim_append {before cs after : List Char} (hbefore : ∀ c ∈ before, isBlank c = true)
    (hafter : ∀ c ∈ after, isBlank c = true) (hcs : ∀ c ∈ cs, isBlank c = false) :
    trim (before ++ cs ++ after) = cs := by
  unfold trim
  obtain rfl | hne := eq_or_ne cs []
  · have hall : ∀ c ∈ before ++ after, isBlank c = true := fun c hc =>
      (List.mem_append.1 hc).elim (hbefore c) (hafter c)
    rw [List.append_nil, List.dropWhile_eq_nil_iff.2 hall]
    rfl
  · have hend : (after.reverse ++ (cs.reverse ++ [])).dropWhile isBlank = cs.reverse ++ [] :=
      dropWhile_blanks (fun c hc => hafter c (List.mem_reverse.1 hc)) (by simpa using hne)
        (fun c hc => hcs c (List.mem_reverse.1 hc)) []
    rw [List.append_nil] at hend
    rw [List.append_assoc, dropWhile_blanks hbefore hne hcs, List.reverse_append, hend, List.reverse_reverse]

theorem not_isBlank_of_isDigit {c : Char} (hc : c.isDigit = true) : isBlank c = false := by
  rw [Char.isDigit_iff_toNat] at hc
  simp [isBlank, blankRanges] at hc ⊢
  omega

end Text

namespace Binary64

private theorem not_isBlank_of_mem_signed {s : Sign} {d : Decimal} {c : Char} (hc : c ∈ signChars s ++ d.positional) :
    Text.isBlank c = false := by
  obtain hc | hc := List.mem_append.1 hc
  · cases s with
    | negative =>
      obtain rfl := List.mem_singleton.1 hc
      rfl
    | positive => cases hc
  · obtain hdigit | rfl := Decimal.isDigit_or_eq_of_mem_positional hc
    · exact Text.not_isBlank_of_isDigit hdigit
    · rfl

theorem not_isBlank_of_mem_plain {x : Float} {c : Char} (hc : c ∈ (plain x).toList) : Text.isBlank c = false := by
  have hword (cs : List Char) (h : cs.any Text.isBlank = false) (hmem : c ∈ cs) : Text.isBlank c = false :=
    Bool.eq_false_iff.2 (List.any_eq_false.1 h c hmem)
  unfold plain at hc
  split at hc
  · exact hword "NaN".toList rfl hc
  · rename_i s hx
    cases s with
    | negative => exact hword "-Infinity".toList rfl hc
    | positive => exact hword "Infinity".toList rfl hc
  · exact hword "0".toList rfl hc
  · rename_i s m e hm hx
    obtain ⟨d, htext, -⟩ := plainChars_eq (canonical_of_unpack hx)
    rw [String.toList_ofList, htext] at hc
    exact not_isBlank_of_mem_signed hc

theorem not_isBlank_of_mem_toString {n : Int} {c : Char} (hc : c ∈ (toString n).toList) : Text.isBlank c = false := by
  obtain ⟨s, k, htext, -⟩ := toList_toString n
  rw [htext] at hc
  exact not_isBlank_of_mem_signed hc

end Binary64

/-! ### Numbers -/

namespace Value

/-- The text of the value, with any blanks around it, compares with the value in this way. -/
def ComparesWithText (v : Value) (result : Bool) : Prop :=
  ∃ t, RuntimeFunction.coerceToString.apply [v] = .ok (.string t) ∧
    ∀ before after : List Char, (∀ c ∈ before, Text.isBlank c = true) → (∀ c ∈ after, Text.isBlank c = true) →
      let s := Value.string (String.ofList (before ++ t.toList ++ after))
      RuntimeFunction.genericEquals.apply [s, v] = .ok (.bool result) ∧
        RuntimeFunction.genericEquals.apply [v, s] = .ok (.bool result) ∧
        RuntimeFunction.stringEqualsAsNumber.apply [s, v] = .ok (.bool result)

theorem comparesWithText_of_read {v : Value} {x : Float} {result : Bool} (hv : v.number? = some x)
    (hblank : ∀ c ∈ v.text.toList, Text.isBlank c = false)
    (hread : ∃ y, Binary64.read? v.text.toList = some y ∧ (y == x) = result) : v.ComparesWithText result := by
  obtain ⟨y, hy, heq⟩ := hread
  refine ⟨v.text, rfl, fun before after hbefore hafter => ?_⟩
  have hequals : textEqualsNumber (String.ofList (before ++ v.text.toList ++ after)) x = result := by
    rw [textEqualsNumber, String.toList_ofList, Text.trim_append hbefore hafter hblank, hy]
    exact heq
  rw [← hequals]
  cases v with
  | int n =>
    cases hv
    exact ⟨rfl, rfl, rfl⟩
  | float z =>
    cases hv
    exact ⟨rfl, rfl, rfl⟩
  | _ => cases hv

/-- An integer equals its text, and a float does unless it is a NaN. -/
theorem comparesWithText :
    (∀ n : Int64, (int n).ComparesWithText true) ∧ ∀ x : Float, (float x).ComparesWithText (!x.isNaN) := by
  refine ⟨fun n => ?_, fun x => ?_⟩
  · exact comparesWithText_of_read rfl (fun c hc => Binary64.not_isBlank_of_mem_toString hc) (Binary64.read?_toString n)
  · exact comparesWithText_of_read rfl (fun c hc => Binary64.not_isBlank_of_mem_plain hc) (Binary64.read?_plain x)

/-- Past `2 ^ 53` an integer is more exact than the float that its text is read as, and still equals it. -/
theorem comparesWithText_pastExact :
    RuntimeFunction.genericEquals.apply [.string "\u00a09007199254740993 ", .int 9007199254740993] =
      .ok (.bool true) := by
  obtain ⟨t, htext, hequal⟩ := comparesWithText.1 9007199254740993
  cases htext
  exact (hequal ['\u00a0'] [' '] (by simp [Text.isBlank, Text.blankRanges]) (by simp [Text.isBlank, Text.blankRanges])).1

end Value

end TemplateExpr
