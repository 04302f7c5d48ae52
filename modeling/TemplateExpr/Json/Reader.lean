import TemplateExpr.Binary64.Text
import TemplateExpr.Json.Basic
import TemplateExpr.Text

/-!
# Reading JSON

A number without fraction and exponent is an integer if it lies between `-2 ^ 63` and `2 ^ 64 - 1` and is not
written `-0`; every other number is real and is rounded to the nearest floating-point number, which has to be
finite. A string may not hold half of a surrogate pair. Of several members of one name an object keeps the last.
-/

namespace TemplateExpr.Json

/-- The characters that may stand between the parts of a document. -/
def isSpace (c : Char) : Bool := c = ' ' || c = '\n' || c = '\t' || c = '\r'

def skipSpace (cs : List Char) : List Char := cs.dropWhile isSpace

/-! ### Strings -/

/-- Reads four hexadecimal digits. -/
def readUnit? : List Char → Option (Nat × List Char)
  | a :: b :: c :: d :: cs => do
    let a ← Text.hexValue? a
    let b ← Text.hexValue? b
    let c ← Text.hexValue? c
    let d ← Text.hexValue? d
    some (((a * 16 + b) * 16 + c) * 16 + d, cs)
  | _ => none

def character? (code : Nat) : Option Char :=
  if h : code.isValidChar then some ⟨code.toUInt32, by
    have : code < 4294967296 := by rcases h with h | h <;> omega
    simpa [UInt32.isValidChar, Nat.mod_eq_of_lt this] using h⟩
  else none

/-- Reads what follows the letter of a numeric escape: one unit, or the two units of a surrogate pair. -/
def readEscapedCode? (cs : List Char) : Option (Char × List Char) := do
  let (high, cs) ← readUnit? cs
  if 0xD800 ≤ high ∧ high < 0xDC00 then
    match cs with
    | '\\' :: 'u' :: cs =>
      let (low, cs) ← readUnit? cs
      if 0xDC00 ≤ low ∧ low < 0xE000 then
        let c ← character? (0x10000 + (high - 0xD800) * 0x400 + (low - 0xDC00))
        some (c, cs)
      else none
    | _ => none
  else
    let c ← character? high
    some (c, cs)

def simpleEscape? : Char → Option Char
  | '"' => some '"'
  | '\\' => some '\\'
  | '/' => some '/'
  | 'b' => some '\x08'
  | 'f' => some '\x0c'
  | 'n' => some '\n'
  | 'r' => some '\r'
  | 't' => some '\t'
  | _ => none

/-- Reads up to the closing quote; `done` holds the characters read so far, last one first. -/
def readString? : Nat → List Char → List Char → Option (String × List Char)
  | 0, _, _ => none
  | fuel + 1, done, cs =>
    match cs with
    | '"' :: cs => some (String.ofList done.reverse, cs)
    | '\\' :: 'u' :: cs => do
      let (c, cs) ← readEscapedCode? cs
      readString? fuel (c :: done) cs
    | '\\' :: c :: cs => do
      let c ← simpleEscape? c
      readString? fuel (c :: done) cs
    | c :: cs => if c.toNat < 0x20 then none else readString? fuel (c :: done) cs
    | [] => none

/-! ### Numbers -/

/-- The integers that are kept apart from the real numbers. -/
def isInteger (n : Int) : Bool := -0x8000000000000000 ≤ n && n < UInt64.size

/-- Splits off the characters that a number may be made of. -/
def splitNumber (cs : List Char) : List Char × List Char :=
  cs.span fun c => c.isDigit || c = '.' || c = 'e' || c = 'E' || c = '-' || c = '+'

/-- Whether the whole part of a number is written without needless zeros. -/
def wholeOk : List Char → Bool
  | [] => false
  | ['0'] => true
  | c :: _ => c != '0'

/-- Reads a number that is not kept as an integer. -/
def real? (cs : List Char) : Option Json :=
  match Binary64.read? cs with
  | some x => if x.isFinite then some (real x) else none
  | none => none

/-- Reads a whole number text. -/
def number? (cs : List Char) : Option Json := do
  let (negative, body) :=
    match cs with
    | '-' :: r => (true, r)
    | r => (false, r)
  let whole := body.takeWhile Char.isDigit
  let rest := body.dropWhile Char.isDigit
  if !wholeOk whole then none
  else if rest.isEmpty then
    let n : Int := if negative then -(Decimal.ofDigits whole : Int) else Decimal.ofDigits whole
    if isInteger n && !(negative && n == 0) then some (integer n)
    else real? cs
  else
    let fractionOk :=
      match rest with
      | '.' :: d :: _ => d.isDigit
      | '.' :: [] => false
      | _ => true
    if !fractionOk then none
    else real? cs

/-! ### Documents -/

def word? (word : String) (value : Json) (cs : List Char) : Option (Json × List Char) :=
  let w := word.toList
  if w.isPrefixOf cs then some (value, cs.drop w.length) else none

/-- The members of an object, given the last one first: of several of one name the last counts. -/
def membersOf (written : List (String × Json)) : List (String × Json) :=
  (written.eraseDupsBy fun a b => a.1 == b.1).reverse

mutual

/-- Reads one document, with the rest of the text. -/
def readValue? : Nat → List Char → Option (Json × List Char)
  | 0, _ => none
  | fuel + 1, cs =>
    match skipSpace cs with
    | '"' :: cs => do
      let (s, cs) ← readString? fuel [] cs
      some (string s, cs)
    | '[' :: cs =>
      match skipSpace cs with
      | ']' :: cs => some (array [], cs)
      | cs => readElements? fuel [] cs
    | '\x7b' :: cs =>
      match skipSpace cs with
      | '\x7d' :: cs => some (object [], cs)
      | cs => readMembers? fuel [] cs
    | 'n' :: cs => word? "ull" null cs
    | 't' :: cs => word? "rue" (bool true) cs
    | 'f' :: cs => word? "alse" (bool false) cs
    | cs => do
      let (text, rest) := splitNumber cs
      let n ← number? text
      some (n, rest)

/-- Reads the elements of an array up to its closing bracket; `done` holds those already read, last one first. -/
def readElements? : Nat → List Json → List Char → Option (Json × List Char)
  | 0, _, _ => none
  | fuel + 1, done, cs => do
    let (v, cs) ← readValue? fuel cs
    match skipSpace cs with
    | ',' :: cs => readElements? fuel (v :: done) cs
    | ']' :: cs => some (array (v :: done).reverse, cs)
    | _ => none

/-- Reads the members of an object up to its closing brace; `done` holds those already read, last one first. -/
def readMembers? : Nat → List (String × Json) → List Char → Option (Json × List Char)
  | 0, _, _ => none
  | fuel + 1, done, cs =>
    match skipSpace cs with
    | '"' :: cs => do
      let (k, cs) ← readString? fuel [] cs
      match skipSpace cs with
      | ':' :: cs =>
        let (v, cs) ← readValue? fuel cs
        match skipSpace cs with
        | ',' :: cs => readMembers? fuel ((k, v) :: done) cs
        | '\x7d' :: cs => some (object (membersOf ((k, v) :: done)), cs)
        | _ => none
      | _ => none
    | _ => none

end

/-- Reads a text that is one document. Every step but a few reads a character, so the fuel never runs out. -/
def read? (text : String) : Option Json := do
  let cs := text.toList
  let (v, rest) ← readValue? (2 * cs.length + 3) cs
  if (skipSpace rest).isEmpty then some v else none

end TemplateExpr.Json
