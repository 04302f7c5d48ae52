import TemplateExpr.Emitter.Basic

/-!
# Emitters for operators

Each operator picks the instructions that fit the static types of its operands: integer instructions for two
integers, float instructions for two numbers, and calls of the runtime library when too little is known. The
operators that skip an operand branch; every operand runs at most once.
-/

namespace TemplateExpr.Emitter

/-- Runs two emitters, then directives. -/
def binary (representation : Representation) (type : StaticType) (span : Span) (left right : Emitter)
    (tail : List Directive) : Emitter :=
  make representation type (left.constant && right.constant) span 0
    (.sub left :: .sub right :: tail.map .directive)

/-- Runs an emitter, then directives. -/
def unary (representation : Representation) (type : StaticType) (span : Span) (operand : Emitter)
    (tail : List Directive) : Emitter :=
  make representation type operand.constant span 0 (.sub operand :: tail.map .directive)

/-! ### Arithmetic -/

/-- `+`, `-` and `*`, given the instruction for integers, that for floats and the runtime function. -/
def arithmetic (onInts onFloats : Opcode) (generic : RuntimeFunction) (span : Span) (left right : Emitter) :
    Emitter :=
  if left.isKnownInt && right.isKnownInt then
    binary (.exact .int) (.known .int) span left.toInt right.toInt [.emit onInts]
  else if left.isKnownNumber && right.isKnownNumber then
    binary (.exact .float) (.known .float) span left.toFloat right.toFloat [.emit onFloats]
  else
    binary .boxed .unknown span left.toBoxed right.toBoxed [.invoke generic]

/-- `+` joins texts if one side is known to be a string. -/
def plus (span : Span) (left right : Emitter) : Emitter :=
  if left.isKnownString || right.isKnownString then
    binary (.exact .string) (.known .string) span left.toText right.toText [.invoke .stringConcat]
  else arithmetic .intAdd .floatAdd .plus span left right

/-- `/` always divides floats. -/
def divide (span : Span) (left right : Emitter) : Emitter :=
  binary (.exact .float) (.known .float) span left.toFloat right.toFloat [.emit .floatDiv]

/-- `%` always takes the remainder of integers. -/
def remainder (span : Span) (left right : Emitter) : Emitter :=
  binary (.exact .int) (.known .int) span left.toInt right.toInt [.emit .intRem]

def negate (span : Span) (operand : Emitter) : Emitter :=
  if operand.isKnownInt then unary (.exact .int) (.known .int) span operand.toInt [.emit .intNeg]
  else if operand.isKnownFloat then unary (.exact .float) (.known .float) span operand.toFloat [.emit .floatNeg]
  else unary .boxed .unknown span operand.toBoxed [.invoke .negate]

/-! ### Comparison -/

/-- A comparison of two emitters that leaves a bool. -/
def comparison (span : Span) (left right : Emitter) (tail : Directive) : Emitter :=
  binary (.exact .bool) (.known .bool) span left right [tail]

/-- An order relation. Values that are not known to be numbers are compared by the runtime function, on the
operands in the given order or, if it is `reversed`, with the right one first. -/
def relation (onInts onFloats : Opcode) (generic : RuntimeFunction) (reversed : Bool) (span : Span)
    (left right : Emitter) : Emitter :=
  if left.isKnownInt && right.isKnownInt then comparison span left.toInt right.toInt (.emit onInts)
  else if left.isKnownNumber && right.isKnownNumber then
    comparison span left.toFloat right.toFloat (.emit onFloats)
  else if reversed then comparison span right.toBoxed left.toBoxed (.invoke generic)
  else comparison span left.toBoxed right.toBoxed (.invoke generic)

/-- Equality of an operand that is known to be a string, which runs first, with another. -/
def stringEquality (span : Span) (string other : Emitter) : Emitter :=
  if other.isKnownString then comparison span string.toText other.toText (.invoke .stringEquals)
  else if other.isKnownNumber then comparison span string.toText other.toFloat (.invoke .stringEqualsAsNumber)
  else comparison span string.toText other.toBoxed (.invoke .genericEquals)

def equality (span : Span) (left right : Emitter) : Emitter :=
  if left.isKnownString then stringEquality span left right
  else if right.isKnownString then stringEquality span right left
  else if left.isKnownInt && right.isKnownInt then comparison span left.toInt right.toInt (.emit .intEq)
  else if left.isKnownNumber && right.isKnownNumber then
    comparison span left.toFloat right.toFloat (.emit .floatEq)
  else comparison span left.toBoxed right.toBoxed (.invoke .genericEquals)

/-- `!=` is the complement of `==`. -/
def inequality (span : Span) (left right : Emitter) : Emitter :=
  unary (.exact .bool) (.known .bool) span (equality span left right) [.emit .not]

/-! ### Logic -/

/-- `and` and `or`: if the left side is `decided`, so is the whole, and the right side is skipped. -/
def shortCircuit (decided : Bool) (span : Span) (left right : Emitter) : Emitter :=
  make (.exact .bool) (.known .bool) (left.constant && right.constant) span 2
    [.sub left.toBool, .directive (.jump (if decided then .ifTrue else .ifFalse) 0), .sub right.toBool,
      .directive (.jump .always 1), .directive (.mark 0), .directive (.pushBool decided), .directive (.mark 1)]

def not (span : Span) (operand : Emitter) : Emitter :=
  unary (.exact .bool) (.known .bool) span operand.toBool [.emit .not]

/-- The left side unless it is null. It runs once and stays on the stack for the test. -/
def orElse (type : StaticType) (span : Span) (left right : Emitter) : Emitter :=
  make .boxed type (left.constant && right.constant) span 1
    [.sub left.toBoxed, .directive (.emit .dup), .directive (.invoke .isNull), .directive (.jump .ifFalse 0),
      .directive (.emit .pop), .sub right.toBoxed, .directive (.mark 0)]

/-- The representation that two branches share: unboxed when their types agree on one. -/
def commonRepresentation (onTrue onFalse : Emitter) : Representation :=
  if onTrue.isKnownInt && onFalse.isKnownInt then .exact .int
  else if onTrue.isKnownNumber && onFalse.isKnownNumber then .exact .float
  else if onTrue.isKnownString && onFalse.isKnownString then .exact .string
  else .boxed

def conditional (type : StaticType) (span : Span) (condition onTrue onFalse : Emitter) : Emitter :=
  let target := commonRepresentation onTrue onFalse
  make target type (condition.constant && onTrue.constant && onFalse.constant) span 2
    [.sub condition.toBool, .directive (.jump .ifFalse 0), .sub (onTrue.convert target),
      .directive (.jump .always 1), .directive (.mark 0), .sub (onFalse.convert target), .directive (.mark 1)]

/-! ### Calls -/

/-- `base[key]` on boxed operands. -/
def getItem (type : StaticType) (constant : Bool) (span : Span) (base key : Emitter) : Emitter :=
  make .boxed type constant span 0 [.sub base, .sub key, .directive (.invoke .getItem)]

/-- A call of a native function with boxed arguments. It is never constant. -/
def nativeCall (name : String) (type : StaticType) (span : Span) (arguments : List Emitter) : Emitter :=
  make .boxed type false span 0
    (arguments.map (fun e => .sub e.toBoxed) ++ [.directive (.callNative name arguments.length)])

/-! ### Collections -/

/-- Reciprocal of the room that a hash table takes for an entry. -/
def loadFactor : Float := 0.75

/-- From this many entries on, a hash table has the greatest room it can have. -/
def greatestTable : Nat := 1 <<< 30

/-- Room that lets a hash table hold a number of entries without growing. -/
def mapCapacity (n : Nat) : UInt32 :=
  if n < 3 then UInt32.ofNat n + 1
  else if n < greatestTable then UInt32.ofNat (Binary64.ceil (Binary64.ofInt n / loadFactor)) + 1
  else 2147483647

/-- A list that is not empty: its elements are boxed and appended in order. -/
def list (span : Span) (elements : List Emitter) : Emitter :=
  make (.exact .list) (.known .list) (elements.all Emitter.constant) span 0
    (.directive (.newList (UInt32.ofNat elements.length)) ::
      elements.flatMap fun e => [.sub e.toBoxed, .directive (.emit .listAppend)])

/-- A map that is not empty: keys are made texts and values boxed, and the entries are inserted in order. -/
def map (span : Span) (entries : List (Emitter × Emitter)) : Emitter :=
  make (.exact .map) (.known .map) (entries.all fun e => e.1.constant && e.2.constant) span 0
    (.directive (.newMap (mapCapacity entries.length)) ::
      entries.flatMap fun e => [.sub e.1.toText, .sub e.2.toBoxed, .directive (.emit .mapPut)])

end TemplateExpr.Emitter
