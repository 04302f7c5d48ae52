import TemplateExpr.Bytecode.Validation
import TemplateExpr.Emitter.Operator

/-!
# Environments

The compilation of variables, fields, items and calls is not the compiler's own: an environment supplies it. The
compiler has compiled the operands of such a node and hands their emitters over. An environment may refuse a node,
and the first node that is refused ends the compilation.
-/

namespace TemplateExpr

/-- What a refused node is. -/
inductive Construct where
  | variable
  | field
  | item
  | call
  | longCall
  | longList
  | unknownName (name : String)
  | custom (text : String)
  deriving DecidableEq

def Construct.text : Construct → String
  | .variable => "variable reference"
  | .field => "field access"
  | .item => "item access"
  | .call => "function call"
  | .longCall => "function call with more than 255 arguments"
  | .longList => "list literal of this size"
  | .unknownName n => "unknown name " ++ n
  | .custom t => t

/-- Why a tree has no program. -/
inductive CompileError where
  | unsupported (construct : Construct) (span : Span)
  | assembly (errors : List AssemblyError)
  | validation (errors : List ValidationError)
  deriving DecidableEq

def CompileError.message : CompileError → String
  | unsupported c s => "unsupported " ++ c.text ++ " at " ++ s.text
  | assembly es => "assembly failed: " ++ String.intercalate "; " (es.map AssemblyError.message)
  | validation es => "invalid bytecode: " ++ String.intercalate "; " (es.map ValidationError.message)

/-- How the nodes that refer to something are compiled, from their names, declared types, spans and the emitters of
their operands. -/
structure Environment where
  variableRef : String → StaticType → Span → Except CompileError Emitter
  field : Emitter → String → StaticType → Span → Except CompileError Emitter
  item : Emitter → Emitter → StaticType → Span → Except CompileError Emitter
  call : String → List Emitter → StaticType → Span → Except CompileError Emitter

namespace Environment

/-- Nothing is in scope. -/
def empty : Environment where
  variableRef _ _ s := .error (.unsupported .variable s)
  field _ _ _ s := .error (.unsupported .field s)
  item _ _ _ s := .error (.unsupported .item s)
  call _ _ _ s := .error (.unsupported .call s)

/-- Variables are globals of the machine, fields and items are looked up by the runtime library, and calls go to
native functions. -/
def global : Environment where
  variableRef name type span := .ok (.make .boxed type false span 0 [.directive (.getGlobal name)])
  field base name type span := .ok (.getItem type base.constant span base.toBoxed (.string name span))
  item base key type span := .ok (.getItem type (base.constant && key.constant) span base.toBoxed key.toBoxed)
  call name arguments type span :=
    if 255 < arguments.length then .error (.unsupported .longCall span)
    else .ok (.nativeCall name type span arguments)

/-- Only variables are in scope, and of these the ones for which the table has an emitter. -/
def ofTable (table : String → Option (Span → Emitter)) : Environment :=
  { empty with
    variableRef := fun name _ span =>
      match table name with
      | some emitter => .ok (emitter span)
      | none => .error (.unsupported (.unknownName name) span) }

end Environment

end TemplateExpr
