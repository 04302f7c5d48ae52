import Mathlib
import TemplateExpr.Json.Basic
import TemplateExpr.Json.Reader

/-!
# Strings in a document read back

A string is written character by character (`toList_writeString`), each as its escape, and every escape is read as its
character (`readString?_escape`).
-/

namespace TemplateExpr.Json

/-! ### Writing -/

/-- A character as it stands in a string. -/
def escape (c : Char) : List Char :=
  match c with
  | '"' => ['\\', '"']
  | '\\' => ['\\', '\\']
  | '\n' => ['\\', 'n']
  | '\r' => ['\\', 'r']
  | '\t' => ['\\', 't']
  | c => if c.toNat < 0x20 then ['\\', 'u', '0', '0', hexDigit (c.toNat / 16), hexDigit c.toNat] else [c]

theorem toList_writeChar (out : String) (c : Char) : (writeChar out c).toList = out.toList ++ escape c := by
  by_cases hquote : c = '"'
  · subst hquote
    exact String.toList_append ..
  by_cases hback : c = '\\'
  · subst hback
    exact String.toList_append ..
  by_cases hline : c = '\n'
  · subst hline
    exact String.toList_append ..
  by_cases hreturn : c = '\r'
  · subst hreturn
    exact String.toList_append ..
  by_cases htab : c = '\t'
  · subst htab
    exact String.toList_append ..
  by_cases hlow : c.toNat < 0x20
  · simp [writeChar, escape, hlow]
  · simp [writeChar, escape, hlow]

/-- A string between its quotes. -/
def quoted (s : String) : List Char := '"' :: (s.toList.flatMap escape ++ ['"'])

theorem toList_writeString (out s : String) : (writeString out s).toList = out.toList ++ quoted s := by
  have hfold (cs : List Char) (out : String) :
      (cs.foldl writeChar out).toList = out.toList ++ cs.flatMap escape := by
    induction cs generalizing out with
    | nil => simp
    | cons c cs ih => rw [List.foldl_cons, ih, toList_writeChar, List.flatMap_cons, List.append_assoc]
  rw [writeString, String.foldl_eq_foldl_toList, String.toList_push, hfold, String.toList_push, quoted]
  simp

/-! ### Reading -/

theorem hexValue?_hexDigit (n : Nat) : Text.hexValue? (hexDigit n) = some (n % 16) := by
  have hall : ∀ k < 16, Text.hexValue? (Nat.digitChar k) = some k := by decide
  exact hall _ (Nat.mod_lt n (by decide))

theorem character?_toNat (c : Char) : character? c.toNat = some c := by
  have hvalid : c.toNat.isValidChar := c.valid
  rw [character?, dif_pos hvalid]
  exact congrArg some (Char.ext (UInt32.ofNat_toNat))

/-- A control character is escaped by its number, which has two digits. -/
private theorem readEscapedCode?_control {c : Char} (hc : c.toNat < 0x20) (cs : List Char) :
    readEscapedCode? ('0' :: '0' :: hexDigit (c.toNat / 16) :: hexDigit c.toNat :: cs) = some (c, cs) := by
  have hzero : Text.hexValue? '0' = some 0 := by decide
  have hcode : c.toNat / 16 % 16 * 16 + c.toNat % 16 = c.toNat := by omega
  have hunit : readUnit? ('0' :: '0' :: hexDigit (c.toNat / 16) :: hexDigit c.toNat :: cs) = some (c.toNat, cs) := by
    simp [readUnit?, hzero, hexValue?_hexDigit, hcode]
  have hlow : ¬(0xD800 ≤ c.toNat ∧ c.toNat < 0xDC00) := by omega
  rw [readEscapedCode?, hunit]
  simp [hlow, character?_toNat]

/-- An escape is read as its character. -/
theorem readString?_escape (fuel : Nat) (done : List Char) (c : Char) (cs : List Char) :
    readString? (fuel + 1) done (escape c ++ cs) = readString? fuel (c :: done) cs := by
  unfold escape
  split
  · rfl
  · rfl
  · rfl
  · rfl
  · rfl
  · rename_i hquote hback _ _ _
    split_ifs with hlow
    · simp [readString?, readEscapedCode?_control hlow]
    · rw [List.singleton_append, readString?, if_neg hlow]
      · exact hquote
      · exact fun _ h => (hback h).elim
      · exact fun _ _ h => (hback h).elim

/-- A string is read up to its closing quote, with one step for each of its characters. -/
theorem readString?_flatMap (cs : List Char) {fuel : Nat} (hfuel : cs.length < fuel) (done rest : List Char) :
    readString? fuel done (cs.flatMap escape ++ '"' :: rest) = some (String.ofList (done.reverse ++ cs), rest) := by
  induction cs generalizing fuel done with
  | nil =>
    obtain ⟨fuel, rfl⟩ := Nat.exists_eq_succ_of_ne_zero (Nat.ne_zero_of_lt hfuel)
    simp [readString?]
  | cons c cs ih =>
    obtain ⟨fuel, rfl⟩ := Nat.exists_eq_succ_of_ne_zero (Nat.ne_zero_of_lt hfuel)
    rw [List.flatMap_cons, List.append_assoc, readString?_escape, ih (Nat.lt_of_succ_lt_succ hfuel), List.reverse_cons,
      List.append_assoc, List.singleton_append]

theorem length_le_length_flatMap (cs : List Char) : cs.length ≤ (cs.flatMap escape).length := by
  induction cs with
  | nil => exact Nat.zero_le _
  | cons c cs ih =>
    have hc : 1 ≤ (escape c).length := by
      unfold escape
      split
      · exact Nat.le_succ 1
      · exact Nat.le_succ 1
      · exact Nat.le_succ 1
      · exact Nat.le_succ 1
      · exact Nat.le_succ 1
      · split_ifs <;> simp
    rw [List.flatMap_cons, List.length_append, List.length_cons]
    omega

/-- The text of a string is read as the string. -/
theorem readString?_quoted (s : String) (fuel : Nat) (hfuel : (quoted s).length ≤ fuel + 1) (rest : List Char) :
    ∃ cs, quoted s ++ rest = '"' :: cs ∧ readString? fuel [] cs = some (s, rest) := by
  refine ⟨s.toList.flatMap escape ++ '"' :: rest, by simp [quoted], ?_⟩
  have hlength := length_le_length_flatMap s.toList
  rw [quoted, List.length_cons, List.length_append, List.length_singleton] at hfuel
  rw [readString?_flatMap s.toList (by omega)]
  simp

end TemplateExpr.Json
