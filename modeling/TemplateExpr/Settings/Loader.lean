import TemplateExpr.Compilation.Basic
import TemplateExpr.Settings.Decode
import TemplateExpr.Settings.FileTree
import TemplateExpr.Text

/-!
# Loading settings

The effective settings have three layers: variables of the environment win over the project's file, which wins over
the defaults. The file is the one in the nearest directory from the start upwards that has an entry of its name,
whatever that entry is; if it cannot be read or is not right, loading fails and looks no further.
-/

namespace TemplateExpr

inductive SettingsError where
  | notFound (path : TreePath)
  | unreadable
  | malformed
  | invalid (setting : InvalidSetting)
  deriving DecidableEq

/-- Message of an error; the words for an unreadable or a malformed file are left to whoever read it. -/
def SettingsError.message? : SettingsError → Option String
  | notFound p => some ("Configuration file not found: " ++ p.text)
  | invalid s => some ("Invalid value for '" ++ s.field ++ "': " ++ s.reason)
  | _ => none

/-- Name of the file with a project's settings. -/
def settingsFileName : String := "stencil.toml"

/-- Variables of the environment. -/
abbrev Variables := List (String × String)

/-- Effective settings, and the directory of the project if it has a file. -/
structure Settings where
  project : Project := {}
  root : Option TreePath := none
  deriving DecidableEq, Inhabited

namespace Project

/-- Settings of a text, checked. -/
def ofText (text : String) : Except SettingsError Project :=
  match ofToml? text with
  | none => .error .malformed
  | some p =>
    match p.check with
    | .ok () => .ok p
    | .error e => .error (.invalid e)

/-- Settings of the file at the end of a path. -/
def load (t : FileTree) (p : TreePath) : Except SettingsError Project :=
  match t.entry p with
  | .error .notFound => .error (.notFound p)
  | .error _ => .error .unreadable
  | .ok .directory => .error .unreadable
  | .ok (.file content) =>
    match String.fromUTF8? content with
    | some text => ofText text
    | none => .error .unreadable

/-! ### Variables -/

/-- The words for true, in any mixture of cases; all else is false. -/
def isTrueWord (text : String) : Bool :=
  let word := text.toList.map Char.toLower
  word = "true".toList || word = "1".toList || word = "yes".toList

/-- Why a text is no number of 64 bits. -/
inductive NumberError where
  | empty
  | invalidDigit
  | tooLarge

def NumberError.message : NumberError → String
  | empty => "cannot parse integer from empty string"
  | invalidDigit => "invalid digit found in string"
  | tooLarge => "number too large to fit in target type"

/-- Reads digits from left to right; `value` is that of the digits before. -/
def readDigits : Nat → List Char → Except NumberError Nat
  | value, [] => .ok value
  | value, c :: cs =>
    if c.isDigit then
      let value := 10 * value + Decimal.digitValue c
      if value < UInt64.size then readDigits value cs else .error .tooLarge
    else .error .invalidDigit

/-- Reads a number with blanks around it and perhaps a plus sign. -/
def readNumber (text : String) : Except NumberError Nat :=
  match Text.trim text.toList with
  | [] => .error .empty
  | ['+'] => .error .invalidDigit
  | '+' :: cs => readDigits 0 cs
  | cs => readDigits 0 cs

/-- The settings that variables make. -/
def ofVariables (vars : Variables) : Except SettingsError Project := do
  let validate := (vars.lookup "STENCIL_VALIDATE").map isTrueWord
  let debugInfo := (vars.lookup "STENCIL_DEBUG_INFO").map isTrueWord
  let compiler : Option CompilerSettings :=
    if validate.isSome || debugInfo.isSome then some ⟨validate, debugInfo⟩ else none
  match vars.lookup "STENCIL_MAX_STACK_DEPTH" with
  | none => return ⟨compiler, none⟩
  | some text =>
    match readNumber text with
    | .ok n => return ⟨compiler, some ⟨some n⟩⟩
    | .error e => .error (.invalid ⟨"STENCIL_MAX_STACK_DEPTH", e.message⟩)

/-- Lays the settings of the variables over a project's and checks the result, unless they are to be ignored. -/
def applyVariables (p : Project) (ignoreVariables : Bool) (vars : Variables) : Except SettingsError Project := do
  if ignoreVariables then return p
  let p := p.overlay (← ofVariables vars)
  match p.check with
  | .ok () => return p
  | .error e => .error (.invalid e)

end Project

namespace Settings

/-- Looks for a project's file in a directory and those above it. -/
def find (t : FileTree) (directory : TreePath) : Except SettingsError (Project × Option TreePath) :=
  let file := directory.child settingsFileName
  if t.contains file then (Project.load t file).map fun p => (p, some directory)
  else
    match h : directory.parent? with
    | some above =>
      have := TreePath.length_components_parent? h
      find t above
    | none => .ok ({}, none)
  termination_by directory.components.length

/-- Settings for work in a directory. -/
def ofDirectory (t : FileTree) (vars : Variables) (ignoreVariables : Bool) (start : TreePath) :
    Except SettingsError Settings := do
  let (project, root) ← find t start
  let project ← project.applyVariables ignoreVariables vars
  return ⟨project, root⟩

/-- Settings with an explicit file. -/
def ofFile (t : FileTree) (vars : Variables) (ignoreVariables : Bool) (file : TreePath) :
    Except SettingsError Settings := do
  let project ← Project.load t file
  let project ← project.applyVariables ignoreVariables vars
  return ⟨project, file.parent?⟩

def isProject (s : Settings) : Bool := s.root.isSome

def compileOptions (s : Settings) : CompileOptions := ⟨s.project.validateBytecode, s.project.debugInfo⟩

end Settings

end TemplateExpr
