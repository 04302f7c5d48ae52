import TemplateExpr.Settings.Project
import TemplateExpr.Toml.Reader

/-!
# Settings from statements

The settings that the statements of a file make. A section is opened by a header, given as an inline table, or made
by dotted keys of the root table; only the last may be continued later. A section may also be an array of the
values of its fields in order. A key that is no setting, a key that is set twice and a value of the wrong type are
all refused.
-/

namespace TemplateExpr

namespace Toml.Value

def bool? : Value → Option Bool
  | bool b => some b
  | _ => none

def nat? : Value → Option Nat
  | int n => if 0 ≤ n then some n.toNat else none
  | _ => none

end Toml.Value

namespace CompilerSettings

/-- Sets a field that is not set yet. -/
def assign? (s : CompilerSettings) (field : String) (v : Toml.Value) : Option CompilerSettings :=
  match field, s with
  | "validate", ⟨none, _⟩ => v.bool?.map fun b => { s with validate := some b }
  | "debug_info", ⟨_, none⟩ => v.bool?.map fun b => { s with debugInfo := some b }
  | _, _ => none

/-- The fields in their order; values beyond them are not looked at. -/
def ofArray? : List Toml.Value → Option CompilerSettings
  | v :: d :: _ => return ⟨some (← v.bool?), some (← d.bool?)⟩
  | _ => none

end CompilerSettings

namespace MachineSettings

/-- Sets the field if it is not set yet. -/
def assign? (s : MachineSettings) (field : String) (v : Toml.Value) : Option MachineSettings :=
  match field, s with
  | "max_stack_depth", ⟨none⟩ => v.nat?.map fun n => ⟨some n⟩
  | _, _ => none

/-- The field; values beyond it are not looked at. -/
def ofArray? : List Toml.Value → Option MachineSettings
  | d :: _ => return ⟨some (← d.nat?)⟩
  | _ => none

end MachineSettings

namespace Toml

/-- A section as far as it has been read. -/
inductive Section (α : Type) where
  | absent
  /-- Made by dotted keys, which may go on. -/
  | dotted (settings : α)
  /-- Opened by a header or given as a value. -/
  | closed (settings : α)

namespace Section

variable {α : Type}

/-- Sets a field of a section, if there is one of that name that is not set yet. -/
abbrev Setter (α : Type) := α → String → Value → Option α

def settings? : Section α → Option α
  | absent => none
  | dotted s | closed s => some s

/-- Opens a section by its header. -/
def openHeader? [Inhabited α] : Section α → Option (Section α)
  | absent => some (closed default)
  | _ => none

/-- Sets a field under the header of its section. -/
def assign? (set : Setter α) (field : String) (v : Value) : Section α → Option (Section α)
  | closed s => (set s field v).map closed
  | _ => none

/-- Sets a field by a dotted key. -/
def assignDotted? [Inhabited α] (set : Setter α) (field : String) (v : Value) :
    Section α → Option (Section α)
  | absent => (set default field v).map dotted
  | dotted s => (set s field v).map dotted
  | closed _ => none

/-- Gives a section as a value. -/
def assignWhole? [Inhabited α] (set : Setter α) (ofArray : List Value → Option α) (v : Value) :
    Section α → Option (Section α)
  | absent =>
    match v with
    | .table entries =>
      (entries.foldlM (fun s (path, v) =>
        match path with
        | [field] => set s field v
        | _ => none) default).map closed
    | .array elements => (ofArray elements).map closed
    | _ => none
  | _ => none

end Section

/-- Which table the assignments belong to. -/
inductive OpenTable where
  | root
  | compiler
  | machine

/-- The sections as far as the statements have been read. -/
structure Reading where
  table : OpenTable := .root
  compiler : Section CompilerSettings := .absent
  machine : Section MachineSettings := .absent

def Reading.statement? (r : Reading) : Statement → Option Reading
  | .header ["compiler"] => r.compiler.openHeader?.map fun c => { r with table := .compiler, compiler := c }
  | .header ["vm"] => r.machine.openHeader?.map fun m => { r with table := .machine, machine := m }
  | .header _ => none
  | .assign path v =>
    match r.table, path with
    | .root, ["compiler"] =>
      (r.compiler.assignWhole? CompilerSettings.assign? CompilerSettings.ofArray? v).map fun c =>
        { r with compiler := c }
    | .root, ["vm"] =>
      (r.machine.assignWhole? MachineSettings.assign? MachineSettings.ofArray? v).map fun m =>
        { r with machine := m }
    | .root, ["compiler", field] =>
      (r.compiler.assignDotted? CompilerSettings.assign? field v).map fun c => { r with compiler := c }
    | .root, ["vm", field] =>
      (r.machine.assignDotted? MachineSettings.assign? field v).map fun m => { r with machine := m }
    | .compiler, [field] =>
      (r.compiler.assign? CompilerSettings.assign? field v).map fun c => { r with compiler := c }
    | .machine, [field] => (r.machine.assign? MachineSettings.assign? field v).map fun m => { r with machine := m }
    | _, _ => none

end Toml

/-- The settings that a file makes; `none` if its text is malformed. -/
def Project.ofToml? (text : String) : Option Project := do
  let statements ← Toml.read? text
  let r ← statements.foldlM Toml.Reading.statement? ({} : Toml.Reading)
  return ⟨r.compiler.settings?, r.machine.settings?⟩

end TemplateExpr
