import TemplateExpr.Machine.Execute

/-!
# Running programs

A run executes one instruction after another from offset zero until the program halts or fails. Native functions
are the host's: they may have a state, which the run threads through their calls, and they may fail with errors of
their own. Every call that is made is recorded.

A program with a backward jump may run forever, so `run?` is told how many steps it may take; it answers nothing if
these do not suffice.
-/

namespace TemplateExpr

/-- A function of the host, which may read and change the host's state. -/
abbrev Native (σ : Type) := List Value → σ → Except RuntimeError Value × σ

/-- A call of a native function. -/
structure NativeCall where
  name : String
  arguments : List Value

structure State (σ : Type) where
  stack : Stack
  /-- Offset of the next instruction. -/
  ip : Nat
  /-- Offset of the instruction that was begun last. -/
  start : Nat
  host : σ
  calls : Array NativeCall

/-- Where a run stands after a step. -/
inductive Progress (σ : Type) where
  | running (s : State σ)
  | done (result : Except RuntimeError Value) (s : State σ)

/-- The state in which a run begins. -/
def State.initial {σ : Type} (host : σ) : State σ := ⟨.empty, 0, 0, host, #[]⟩

namespace Context

/-- Span of the instruction at an offset, or the dummy span. -/
def spanAt (c : Context) (offset : Nat) : Span := (c.bytecode.spanAt? offset).getD .dummy

variable {σ : Type}

/-- Makes a call, records it and pushes its result. -/
def callNative (c : Context) (natives : String → Option (Native σ)) (start : Nat) (name : String)
    (arguments : List Value) (stack : Stack) (ip : Nat) (host : σ) (calls : Array NativeCall) : Progress σ :=
  match natives name with
  | none => .done (.error ⟨.unknownFunction name, c.spanAt start⟩) ⟨stack, ip, start, host, calls⟩
  | some f =>
    let calls := calls.push ⟨name, arguments⟩
    match f arguments host with
    | (.error e, host) => .done (.error e) ⟨stack, ip, start, host, calls⟩
    | (.ok v, host) =>
      match stack.checkedPush c.limit (.ref v) with
      | .ok stack => .running ⟨stack, ip, start, host, calls⟩
      | .error f => .done (.error ⟨f, c.spanAt start⟩) ⟨.empty, ip, start, host, calls⟩

/-- Executes one instruction. -/
def step (c : Context) (natives : String → Option (Native σ)) (s : State σ) : Progress σ :=
  match s with
  | ⟨stack, start, _, host, calls⟩ =>
    let fail (f : Fault) (host : σ) (calls : Array NativeCall) : Progress σ :=
      .done (.error ⟨f, c.spanAt start⟩) ⟨.empty, start, start, host, calls⟩
    match c.bytecode.fetch start with
    | .outside | .unknown _ => fail .unknownOpcode host calls
    | .truncated o operand => fail (c.bytecode.truncationFault o operand) host calls
    | .instruction i =>
      match i.execute c (start + i.size) stack with
      | .error f => fail f host calls
      | .ok (.next stack ip) => .running ⟨stack, ip, start, host, calls⟩
      | .ok (.call name arguments stack ip) => c.callNative natives start name arguments stack ip host calls
      | .ok (.halt v) => .done (.ok v) ⟨.empty, start, start, host, calls⟩

/-- Runs a program for at most `fuel` steps. -/
def runFrom? (c : Context) (natives : String → Option (Native σ)) :
    Nat → State σ → Option (Except RuntimeError Value × State σ)
  | 0, _ => none
  | fuel + 1, s =>
    match c.step natives s with
    | .running s => runFrom? c natives fuel s
    | .done result s => some (result, s)

/-- Runs a program from its beginning for at most `fuel` steps. -/
def run? (c : Context) (natives : String → Option (Native σ)) (fuel : Nat) (host : σ) :
    Option (Except RuntimeError Value × State σ) :=
  c.runFrom? natives fuel (.initial host)

end Context

end TemplateExpr
