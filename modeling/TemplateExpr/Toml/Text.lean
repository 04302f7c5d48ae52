import TemplateExpr.Text

/-!
# Texts in TOML

What may stand between the parts of a document, and strings. A string is quoted, with escapes between double quotes
and without between single ones, and stays on its line; between three quotes it may go over several lines. A
backslash at the end of a line then joins it with the next one that is not blank.
-/

namespace TemplateExpr.Toml

/-! ### Blanks, newlines and comments -/

def isBlank (c : Char) : Bool := c = ' ' || c = '\t'

def skipBlanks (cs : List Char) : List Char := cs.dropWhile isBlank

/-- Characters that may stand in comments and in strings: a tab, and what is not a control character. -/
def isPrintable (c : Char) : Bool := c = '\t' || (0x20 ≤ c.toNat && c.toNat != 0x7F)

/-- The rest after a newline. -/
def newline? : List Char → Option (List Char)
  | '\n' :: cs => some cs
  | '\r' :: '\n' :: cs => some cs
  | _ => none

/-- The rest after a newline, or at the end of the document. -/
def lineEnd? (cs : List Char) : Option (List Char) := if cs.isEmpty then some [] else newline? cs

/-- Skips blanks and newlines. -/
def skipBlankLines : List Char → List Char
  | ' ' :: cs | '\t' :: cs | '\n' :: cs => skipBlankLines cs
  | '\r' :: '\n' :: cs => skipBlankLines cs
  | cs => cs

/-- Skips blanks and a comment. -/
def skipComment (cs : List Char) : List Char :=
  match skipBlanks cs with
  | '#' :: cs => cs.dropWhile isPrintable
  | cs => cs

/-- Skips blanks, comments and newlines. -/
def skipLines : Nat → List Char → List Char
  | 0, cs => cs
  | fuel + 1, cs =>
    let cs := skipComment cs
    match newline? cs with
    | some cs => skipLines fuel cs
    | none => cs

/-! ### Escapes -/

/-- Reads the character whose code has the given number of hexadecimal digits. -/
def readCode? (digits : Nat) (cs : List Char) : Option (Char × List Char) := do
  if cs.length < digits then none
  let values ← (cs.take digits).mapM Text.hexValue?
  let code := values.foldl (fun n d => 16 * n + d) 0
  if code.isValidChar then some (Char.ofNat code, cs.drop digits) else none

def simpleEscape? : Char → Option Char
  | 'b' => some '\x08'
  | 't' => some '\t'
  | 'n' => some '\n'
  | 'f' => some '\x0c'
  | 'r' => some '\r'
  | '"' => some '"'
  | '\\' => some '\\'
  | _ => none

/-- Reads the character that a backslash and what follows it stand for. -/
def readEscape? : List Char → Option (Char × List Char)
  | 'u' :: cs => readCode? 4 cs
  | 'U' :: cs => readCode? 8 cs
  | c :: cs => (simpleEscape? c).map (·, cs)
  | [] => none

/-! ### Strings -/

/-- Reads up to a closing double quote; `done` holds the characters read so far, last one first. -/
def readEscaped? : Nat → List Char → List Char → Option (String × List Char)
  | 0, _, _ => none
  | fuel + 1, done, cs =>
    match cs with
    | [] => none
    | '"' :: cs => some (String.ofList done.reverse, cs)
    | '\\' :: cs => do
      let (c, cs) ← readEscape? cs
      readEscaped? fuel (c :: done) cs
    | c :: cs => if isPrintable c then readEscaped? fuel (c :: done) cs else none

/-- Reads a string on one line. -/
def readQuoted? : List Char → Option (String × List Char)
  | '"' :: cs => readEscaped? (cs.length + 1) [] cs
  | '\'' :: cs =>
    match cs.span fun c => isPrintable c && c != '\'' with
    | (text, '\'' :: rest) => some (String.ofList text, rest)
    | _ => none
  | _ => none

/-- Skips the end of a line that a backslash joins with the next one that is not blank. -/
def skipJoin? (cs : List Char) : Option (List Char) := (newline? (skipBlanks cs)).map skipBlankLines

/-- Reads up to three closing quotes; `done` holds the characters read so far, last one first. Fewer quotes belong
to the string, and so do one or two more that stand right before the closing ones. -/
def readLong? (quote : Char) (escapes : Bool) : Nat → List Char → List Char → Option (String × List Char)
  | 0, _, _ => none
  | fuel + 1, done, cs =>
    let quotes := cs.takeWhile (· = quote)
    if 3 ≤ quotes.length then
      let inner := min (quotes.length - 3) 2
      some (String.ofList (done.reverse ++ quotes.take inner), cs.drop (inner + 3))
    else
      match newline? cs, cs with
      | some cs, _ => readLong? quote escapes fuel ('\n' :: done) cs
      | none, [] => none
      | none, c :: cs =>
        if escapes && c = '\\' then
          match skipJoin? cs with
          | some cs => readLong? quote escapes fuel done cs
          | none => do
            let (c, cs) ← readEscape? cs
            readLong? quote escapes fuel (c :: done) cs
        else if isPrintable c then readLong? quote escapes fuel (c :: done) cs
        else none

/-- Reads a string. A newline right after three opening quotes does not belong to it. -/
def readString? (cs : List Char) : Option (String × List Char) :=
  let long (quote : Char) (escapes : Bool) (cs : List Char) : Option (String × List Char) :=
    readLong? quote escapes (cs.length + 1) [] ((newline? cs).getD cs)
  match cs with
  | '"' :: '"' :: '"' :: cs => long '"' true cs
  | '\'' :: '\'' :: '\'' :: cs => long '\'' false cs
  | cs => readQuoted? cs

end TemplateExpr.Toml
