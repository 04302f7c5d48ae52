import TemplateExpr.Assembler.Basic

/-!
# Emitters

An emitter is the compiled form of an expression that is not yet assembled: how it leaves its value, what is known
of its type, whether it is constant, and its code. The code is a sequence of directives and of other emitters, so
that an emitter that converts or combines others contains them, each once.

The labels that an emitter uses are its own, numbered from zero; they are made when its assembly begins. Assembly
runs under the emitter's span and restores the span that was set before.
-/

namespace TemplateExpr

/-- A step of an emitter's code. -/
inductive Step (ε : Type) where
  | directive (d : Directive)
  | sub (e : ε)

structure Emitter where
  representation : Representation
  type : StaticType
  constant : Bool
  span : Span
  /-- Number of labels of its own. -/
  labels : Nat
  body : List (Step Emitter)
  deriving Inhabited

/-- Numbers the labels of a directive from a base. -/
def Directive.shift (base : Nat) : Directive → Directive
  | .mark label => .mark (base + label)
  | .jump kind label => .jump kind (base + label)
  | d => d

namespace Emitter

/-- The type that is known beside a representation: if that is of one kind, its own. -/
def typeFor (representation : Representation) (declared : StaticType) : StaticType :=
  match representation with
  | .boxed => declared
  | .exact k => .known k

def make (representation : Representation) (type : StaticType) (constant : Bool) (span : Span) (labels : Nat)
    (body : List (Step Emitter)) : Emitter :=
  ⟨representation, typeFor representation type, constant, span, labels, body⟩

/-- An emitter that runs directives. Labels that they make are made at the beginning. -/
def ofDirectives (representation : Representation) (type : StaticType) (constant : Bool) (span : Span)
    (ds : List Directive) : Emitter :=
  let isLabel : Directive → Bool := fun d => match d with
    | .newLabel => true
    | _ => false
  make representation type constant span (ds.countP isLabel) ((ds.filter fun d => !isLabel d).map .directive)

/-! ### Constants -/

def null (span : Span) : Emitter := make (.exact .null) (.known .null) true span 0 [.directive .pushNull]

def bool (b : Bool) (span : Span) : Emitter :=
  make (.exact .bool) (.known .bool) true span 0 [.directive (.pushBool b)]

def int (n : Int64) (span : Span) : Emitter :=
  make (.exact .int) (.known .int) true span 0 [.directive (.pushInt n)]

def float (x : Float) (span : Span) : Emitter :=
  make (.exact .float) (.known .float) true span 0 [.directive (.pushFloat x)]

def string (s : String) (span : Span) : Emitter :=
  make (.exact .string) (.known .string) true span 0 [.directive (.pushConstant (.string s))]

def emptyList (span : Span) : Emitter := make .boxed (.known .list) true span 0 [.directive (.emit .emptyList)]

def emptyMap (span : Span) : Emitter := make .boxed (.known .map) true span 0 [.directive (.emit .emptyMap)]

/-! ### What is known of the value -/

def isKnownInt (e : Emitter) : Bool := e.type == .known .int

def isKnownFloat (e : Emitter) : Bool := e.type == .known .float

def isKnownNumber (e : Emitter) : Bool := e.type.isNumber

def isKnownString (e : Emitter) : Bool := e.type == .known .string

/-! ### Conversions -/

/-- Runs an emitter, then directives, under the same span. -/
def andThen (e : Emitter) (representation : Representation) (type : StaticType) (tail : List Directive) :
    Emitter :=
  make representation type e.constant e.span 0 (.sub e :: tail.map .directive)

/-- Boxes the value; strings, lists, maps and null already are references to values. -/
def toBoxed (e : Emitter) : Emitter :=
  match e.representation with
  | .exact .int => e.andThen .boxed e.type [.emit .boxInt]
  | .exact .float => e.andThen .boxed e.type [.emit .boxFloat]
  | .exact .bool => e.andThen .boxed e.type [.emit .boxBool]
  | _ => { e with representation := .boxed }

/-- Unboxes an integer. A value of another kind fails when the code runs. -/
def toInt (e : Emitter) : Emitter :=
  match e.representation with
  | .exact .int => e
  | _ => e.toBoxed.andThen (.exact .int) (.known .int) [.emit .unboxInt]

/-- Widens an integer or unboxes a number. A value of another kind fails when the code runs. -/
def toFloat (e : Emitter) : Emitter :=
  match e.representation with
  | .exact .float => e
  | .exact .int => e.andThen (.exact .float) (.known .float) [.emit .intToFloat]
  | _ => e.toBoxed.andThen (.exact .float) (.known .float) [.emit .unboxFloat]

/-- Tests whether the value is truthy. -/
def toBool (e : Emitter) : Emitter :=
  match e.representation with
  | .exact .bool => e
  | .exact .int => e.andThen (.exact .bool) (.known .bool) [.emit .intToBool]
  | .exact .float => e.andThen (.exact .bool) (.known .bool) [.emit .floatToBool]
  | _ => e.toBoxed.andThen (.exact .bool) (.known .bool) [.invoke .truthy]

/-- Makes the text of the value. -/
def toText (e : Emitter) : Emitter :=
  match e.representation with
  | .exact .string => e
  | .exact .int => e.andThen (.exact .string) (.known .string) [.emit .intToString]
  | .exact .float => e.andThen (.exact .string) (.known .string) [.emit .floatToString]
  | .exact .bool => e.andThen (.exact .string) (.known .string) [.emit .boolToString]
  | _ => e.toBoxed.andThen (.exact .string) (.known .string) [.invoke .coerceToString]

/-- Converts to a representation. Nothing converts to null, lists and maps, so these are boxed unless it is one. -/
def convert (e : Emitter) (target : Representation) : Emitter :=
  match target with
  | .exact .int => e.toInt
  | .exact .float => e.toFloat
  | .exact .bool => e.toBool
  | .exact .string => e.toText
  | .boxed => e.toBoxed
  | .exact _ => if e.representation = target then e else e.toBoxed

/-! ### Assembly -/

mutual

/-- Runs the emitter's code on an assembler. -/
def assemble : Emitter → Assembler → Assembler
  | ⟨_, _, _, span, labels, body⟩, a =>
    let previous := a.span
    let base := a.labels.size
    let a := assembleSteps base body { a.newLabels labels with span }
    { a with span := previous }

/-- Runs the steps of an emitter whose labels begin at `base`. -/
def assembleSteps (base : Nat) : List (Step Emitter) → Assembler → Assembler
  | [], a => a
  | .directive d :: steps, a => assembleSteps base steps (a.apply (d.shift base))
  | .sub e :: steps, a => assembleSteps base steps (assemble e a)

end

end Emitter

end TemplateExpr
