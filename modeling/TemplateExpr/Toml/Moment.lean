import TemplateExpr.Decimal

/-!
# Dates and times in TOML

A date is written year-month-day and a time of day hour:minute:second, each part with all its digits; a second may
have a fraction, and there may be a leap second. Between a date and its time stands a `T` or a blank, and only such
a time may have an offset. Dates and times are checked and skipped; nothing of them is kept.
-/

namespace TemplateExpr.Toml

/-- Reads a number that has exactly so many digits and lies between bounds. -/
def readField? (width low high : Nat) (cs : List Char) : Option (Nat × List Char) :=
  let ds := cs.take width
  let n := Decimal.ofDigits ds
  if ds.length = width ∧ ds.all Char.isDigit ∧ low ≤ n ∧ n ≤ high then some (n, cs.drop width) else none

/-- Skips one character, which must be the given one. -/
def skipChar? (c : Char) : List Char → Option (List Char)
  | d :: cs => if c = d then some cs else none
  | [] => none

def isLeapYear (year : Nat) : Bool := year % 4 = 0 && (year % 100 != 0 || year % 400 = 0)

def daysInMonth (year month : Nat) : Nat :=
  if month = 2 then if isLeapYear year then 29 else 28
  else if month = 4 ∨ month = 6 ∨ month = 9 ∨ month = 11 then 30
  else 31

def skipDate? (cs : List Char) : Option (List Char) := do
  let (year, cs) ← readField? 4 0 9999 cs
  let (month, cs) ← readField? 2 1 12 (← skipChar? '-' cs)
  let (_, cs) ← readField? 2 1 (daysInMonth year month) (← skipChar? '-' cs)
  some cs

def skipTime? (cs : List Char) : Option (List Char) := do
  let (_, cs) ← readField? 2 0 23 cs
  let (_, cs) ← readField? 2 0 59 (← skipChar? ':' cs)
  let (_, cs) ← readField? 2 0 60 (← skipChar? ':' cs)
  match cs with
  | '.' :: c :: rest => some (if c.isDigit then rest.dropWhile Char.isDigit else cs)
  | _ => some cs

/-- Skips the offset of a time, if there is one. -/
def skipOffset (cs : List Char) : List Char :=
  match cs with
  | 'Z' :: cs | 'z' :: cs => cs
  | '+' :: rest | '-' :: rest =>
    let offset : Option (List Char) := do
      let (_, rest) ← readField? 2 0 23 rest
      let (_, rest) ← readField? 2 0 59 (← skipChar? ':' rest)
      some rest
    offset.getD cs
  | cs => cs

/-- Skips the time that belongs to a date, if there is one. -/
def skipTimeOfDate (cs : List Char) : List Char :=
  match cs with
  | 'T' :: rest | 't' :: rest | ' ' :: rest =>
    match skipTime? rest with
    | some rest => skipOffset rest
    | none => cs
  | cs => cs

/-- Skips a date, with or without a time, or a time of day. -/
def skipMoment? (cs : List Char) : Option (List Char) :=
  match skipDate? cs with
  | some cs => some (skipTimeOfDate cs)
  | none => skipTime? cs

example : isLeapYear 2000 = true ∧ isLeapYear 1900 = false ∧ isLeapYear 2024 = true := by decide
example : skipMoment? "1979-05-27 07:32:00.5+23:59".toList = some [] := by decide
example : skipMoment? "1979-05-27 ]".toList = some [' ', ']'] := by decide
example : skipMoment? "2023-02-29".toList = none := by decide

end TemplateExpr.Toml
