import TemplateExpr.Compilation.Environment
import TemplateExpr.Expr.Basic

/-!
# Compilation

An expression is compiled to an emitter, operands before the node that has them, and a program is assembled from
that emitter once. The program leaves the value of the expression as the only one on the stack when it halts.
-/

namespace TemplateExpr

def Literal.emitter : Literal → Span → Emitter
  | .null => .null
  | .bool b => .bool b
  | .int n => .int n
  | .float x => .float x
  | .string s => .string s

def UnaryOp.emitter : UnaryOp → Span → Emitter → Emitter
  | .negate => .negate
  | .not => .not

/-- Emitter of an operator; only the last one needs the declared type. -/
def BinaryOp.emitter (type : StaticType) : BinaryOp → Span → Emitter → Emitter → Emitter
  | .add => .plus
  | .sub => .arithmetic .intSub .floatSub .minus
  | .mul => .arithmetic .intMul .floatMul .times
  | .div => .divide
  | .mod => .remainder
  | .eq => .equality
  | .ne => .inequality
  | .lt => .relation .intLt .floatLt .lessThan false
  | .le => .relation .intLe .floatLe .lessThanOrEqual false
  | .gt => .relation .intGt .floatGt .lessThan true
  | .ge => .relation .intGe .floatGe .lessThanOrEqual true
  | .and => .shortCircuit false
  | .or => .shortCircuit true
  | .orElse => .orElse type

/-- A list literal has at most as many elements as a capacity can count. -/
def listEmitter (span : Span) (elements : List Emitter) : Except CompileError Emitter :=
  if elements.isEmpty then .ok (.emptyList span)
  else if elements.length < UInt32.size then .ok (.list span elements)
  else .error (.unsupported .longList span)

def mapEmitter (span : Span) (entries : List (Emitter × Emitter)) : Emitter :=
  if entries.isEmpty then .emptyMap span else .map span entries

namespace Expr

mutual

/-- Emitter of an expression. -/
def compile (env : Environment) : Expr → Except CompileError Emitter
  | literal v s => .ok (v.emitter s)
  | var n t s => env.variableRef n t s
  | field b n t s => do env.field (← compile env b) n t s
  | item b k t s => do env.item (← compile env b) (← compile env k) t s
  | call n as t s => do env.call n (← compileList env as []) t s
  | unary o e _ s => do return o.emitter s (← compile env e)
  | binary o l r t s => do return o.emitter t s (← compile env l) (← compile env r)
  | conditional c a b t s => do return .conditional t s (← compile env c) (← compile env a) (← compile env b)
  | list es s => do listEmitter s (← compileList env es [])
  | map es s => do return mapEmitter s (← compileEntries env es [])

/-- Emitters of the elements, after those in `done`, which has the last one first. -/
def compileList (env : Environment) : List Expr → List Emitter → Except CompileError (List Emitter)
  | [], done => .ok done.reverse
  | e :: es, done =>
    match compile env e with
    | .ok x => compileList env es (x :: done)
    | .error err => .error err

/-- Emitters of the entries, after those in `done`, which has the last one first. -/
def compileEntries (env : Environment) :
    List (Expr × Expr) → List (Emitter × Emitter) → Except CompileError (List (Emitter × Emitter))
  | [], done => .ok done.reverse
  | (k, v) :: es, done =>
    match compile env k with
    | .error err => .error err
    | .ok x =>
      match compile env v with
      | .ok y => compileEntries env es ((x, y) :: done)
      | .error err => .error err

end

end Expr

structure CompileOptions where
  /-- Whether the finished program is validated. -/
  validate : Bool := true
  /-- Whether the program has a debug table. -/
  debugInfo : Bool := true
  deriving DecidableEq

/-- A compiled expression: its program, what the program leaves, and the greatest height of the stack. -/
structure Program where
  bytecode : Bytecode
  representation : Representation
  type : StaticType
  constant : Bool
  maxStackDepth : Nat

/-- Assembles the program of an emitter. -/
def Emitter.program (e : Emitter) (options : CompileOptions) : Except CompileError Program := do
  let a := e.assemble { Assembler.new with debugInfo := options.debugInfo }
  let bytecode ← a.finish.mapError .assembly
  if options.validate then bytecode.validate.mapError .validation
  return ⟨bytecode, e.representation, e.type, e.constant, a.maxDepth⟩

/-- Compiles a whole expression. -/
def ExprRoot.compile (env : Environment) (options : CompileOptions) (root : ExprRoot) :
    Except CompileError Program := do
  (← root.expr.compile env).program options

end TemplateExpr
