/-!
# Project settings

The settings of a project come in two sections, each optional and with optional fields, so that a file sets only
what it names. Layers are merged with `overlay`, field by field, the upper layer winning. What no layer sets has a
default.
-/

namespace TemplateExpr

structure CompilerSettings where
  validate : Option Bool := none
  debugInfo : Option Bool := none
  deriving DecidableEq, Inhabited

structure MachineSettings where
  maxStackDepth : Option Nat := none
  deriving DecidableEq, Inhabited

/-- The settings that one layer makes. -/
structure Project where
  compiler : Option CompilerSettings := none
  machine : Option MachineSettings := none
  deriving DecidableEq, Inhabited

/-- A value that a setting may not have. -/
structure InvalidSetting where
  field : String
  reason : String
  deriving DecidableEq

/-- Height of the stack that a machine allows if nothing else is set. -/
def defaultMaxStackDepth : Nat := 1024

namespace CompilerSettings

/-- The settings of `upper`, and below them those of `lower`. -/
def overlay (lower upper : CompilerSettings) : CompilerSettings :=
  ⟨upper.validate.or lower.validate, upper.debugInfo.or lower.debugInfo⟩

end CompilerSettings

namespace MachineSettings

/-- The settings of `upper`, and below them those of `lower`. -/
def overlay (lower upper : MachineSettings) : MachineSettings :=
  ⟨upper.maxStackDepth.or lower.maxStackDepth⟩

end MachineSettings

namespace Project

/-- The settings of `upper`, and below them those of `lower`. A section is there if one of the layers has it. -/
def overlay (lower upper : Project) : Project where
  compiler := upper.compiler.elim lower.compiler fun u => some ((lower.compiler.getD {}).overlay u)
  machine := upper.machine.elim lower.machine fun u => some ((lower.machine.getD {}).overlay u)

/-- Whether finished programs are validated. -/
def validateBytecode (p : Project) : Bool := (p.compiler.bind CompilerSettings.validate).getD true

/-- Whether programs have debug tables. -/
def debugInfo (p : Project) : Bool := (p.compiler.bind CompilerSettings.debugInfo).getD true

/-- Greatest height of the machine's stack. -/
def maxStackDepth (p : Project) : Nat := (p.machine.bind MachineSettings.maxStackDepth).getD defaultMaxStackDepth

/-- What is wrong with the settings: a machine needs room for at least one value. -/
def check (p : Project) : Except InvalidSetting Unit :=
  if p.machine.bind MachineSettings.maxStackDepth = some 0 then
    .error ⟨"vm.max_stack_depth", "stack depth must be at least 1"⟩
  else .ok ()

end Project

end TemplateExpr
