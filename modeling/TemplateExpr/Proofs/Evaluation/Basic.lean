import TemplateExpr.Machine.Run

/-!
# Evaluations

What it means to evaluate a template expression, without a machine: an evaluation looks at the world outside of the
program, may change it by calling native functions, and gives a value or fails. The world also remembers the value of
every node that has a declared type, in the order of their evaluation; nothing depends on that record.
-/

namespace TemplateExpr

/-- What an evaluation can see and change. -/
structure World (σ : Type) where
  host : σ
  calls : Array NativeCall
  /-- Declared types of the nodes that have been evaluated, with their values. -/
  declared : Array (StaticType × Value)

/-- The world before anything is evaluated. -/
def World.initial {σ : Type} (host : σ) : World σ := ⟨host, #[], #[]⟩

/-- Why there is no value. -/
inductive Failure where
  /-- The expression itself failed, at a span of its source. -/
  | raised (fault : Fault) (span : Span)
  /-- A native function failed. -/
  | native (error : RuntimeError)

/-- The error that a failure is reported as. -/
def Failure.error : Failure → RuntimeError
  | raised f s => ⟨f, s⟩
  | native e => e

def Evaluation (σ α : Type) := World σ → Except Failure α × World σ

namespace Evaluation

variable {σ α β : Type}

instance : Monad (Evaluation σ) where
  pure a w := (.ok a, w)
  bind m k w := match m w with
    | (.ok a, w) => k a w
    | (.error e, w) => (.error e, w)

theorem bind_ok {m : Evaluation σ α} {k : α → Evaluation σ β} {w w' : World σ} {a : α} (h : m w = (.ok a, w')) :
    (m >>= k) w = k a w' := by
  change (match m w with | (.ok a, w) => k a w | (.error e, w) => (.error e, w)) = _
  rw [h]

theorem bind_error {m : Evaluation σ α} {k : α → Evaluation σ β} {w w' : World σ} {e : Failure}
    (h : m w = (.error e, w')) : (m >>= k) w = (.error e, w') := by
  change (match m w with | (.ok a, w) => k a w | (.error e, w) => (.error e, w)) = _
  rw [h]

instance : LawfulMonad (Evaluation σ) := by
  refine LawfulMonad.mk' (Evaluation σ) ?_ ?_ ?_
  · intro α m
    funext w
    change (match m w with | (.ok a, w) => _ | (.error e, w) => _) = m w
    rcases m w with ⟨e | a, w'⟩ <;> rfl
  · intros
    rfl
  · intro α β γ m k l
    funext w
    rcases h : m w with ⟨e | a, w'⟩
    · rw [bind_error h, bind_error (bind_error h)]
    · have hk : (m >>= k) w = k a w' := bind_ok h
      rw [bind_ok h]
      change (match (m >>= k) w with | (.ok b, w) => l b w | (.error e, w) => (.error e, w)) = _
      rw [hk]
      rfl

theorem map_ok {m : Evaluation σ α} {f : α → β} {w w' : World σ} {v : α} (h : m w = (.ok v, w')) :
    (f <$> m) w = (.ok (f v), w') := by
  rw [← bind_pure_comp, bind_ok h]
  rfl

theorem map_error {m : Evaluation σ α} {f : α → β} {w w' : World σ} {e : Failure}
    (h : m w = (.error e, w')) : (f <$> m) w = (.error e, w') := by
  rw [← bind_pure_comp, bind_error h]

/-- Fails at a span. -/
def raise (f : Fault) (span : Span) : Evaluation σ α := fun w => (.error (.raised f span), w)

/-- Gives a result, or fails at a span. -/
def lift (r : Except Fault α) (span : Span) : Evaluation σ α :=
  match r with
  | .ok a => pure a
  | .error f => raise f span

/-- Gives the value of a node with a declared type, and records both. -/
def declare (type : StaticType) (v : Value) : Evaluation σ Value := fun w =>
  (.ok v, { w with declared := w.declared.push (type, v) })

end Evaluation

/-- What the names of an expression refer to. -/
structure Scope (σ : Type) where
  globals : OrderedMap Value
  natives : String → Option (Native σ)

namespace Scope

open Evaluation

variable {σ : Type}

def global (scope : Scope σ) (name : String) (span : Span) : Evaluation σ Value :=
  match scope.globals.get? name with
  | some v => pure v
  | none => raise (.undefinedVariable name) span

/-- Calls a native function. The call is recorded, whether or not it fails. -/
def call (scope : Scope σ) (name : String) (arguments : List Value) (span : Span) : Evaluation σ Value := fun w =>
  match scope.natives name with
  | none => raise (.unknownFunction name) span w
  | some f =>
    let calls := w.calls.push ⟨name, arguments⟩
    match f arguments w.host with
    | (.ok v, host) => (.ok v, { w with host, calls })
    | (.error e, host) => (.error (.native e), { w with host, calls })

end Scope

end TemplateExpr
