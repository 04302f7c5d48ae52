import TemplateExpr.Proofs.Evaluation.Operator

/-!
# What expressions mean

Every node has a static type, found from its operands upwards, and every expression has an evaluation. Only the
declared types of variables, fields, items, calls and of the operators that choose one of their operands are looked
at.
-/

namespace TemplateExpr

def Literal.value : Literal → Value
  | null => .null
  | bool b => .bool b
  | int n => .int n
  | float x => .float x
  | string s => .string s

namespace Expr

/-! ### Structural induction -/

/-- Induction on expressions, with the hypothesis for all elements of a list and for the keys and values of a map. -/
@[elab_as_elim]
theorem induct {P : Expr → Prop} (literal : ∀ v s, P (.literal v s)) (var : ∀ n t s, P (.var n t s))
    (field : ∀ b n t s, P b → P (.field b n t s)) (item : ∀ b k t s, P b → P k → P (.item b k t s))
    (call : ∀ n as t s, (∀ a ∈ as, P a) → P (.call n as t s)) (unary : ∀ o e t s, P e → P (.unary o e t s))
    (binary : ∀ o l r t s, P l → P r → P (.binary o l r t s))
    (conditional : ∀ c a b t s, P c → P a → P b → P (.conditional c a b t s))
    (list : ∀ es s, (∀ e ∈ es, P e) → P (.list es s))
    (map : ∀ es s, (∀ e ∈ es, P e.1 ∧ P e.2) → P (.map es s)) (e : Expr) : P e :=
  -- the motives for elements, for entries and for a single entry
  @Expr.rec P (fun es => ∀ e ∈ es, P e) (fun es => ∀ e ∈ es, P e.1 ∧ P e.2) (fun e => P e.1 ∧ P e.2)
    literal var field item call unary binary conditional list map nofun
    (fun _ _ h hs e he => (List.mem_cons.1 he).elim (fun heq => heq ▸ h) (hs e)) nofun
    (fun _ _ h hs e he => (List.mem_cons.1 he).elim (fun heq => heq ▸ h) (hs e)) (fun _ _ h h' => ⟨h, h'⟩) e

/-! ### Static types -/

/-- What is known of an expression's value before it is evaluated. -/
def staticType : Expr → StaticType
  | literal v _ => v.type
  | var _ t _ | field _ _ t _ | item _ _ t _ | call _ _ t _ => t
  | unary o e _ _ => o.type e.staticType
  | binary o l r t _ => o.type t l.staticType r.staticType
  | conditional _ a b t _ => .conditional t a.staticType b.staticType
  | list _ _ => .known .list
  | map _ _ => .known .map

/-! ### Evaluation -/

open Evaluation

variable {σ : Type}

mutual

def evaluate (scope : Scope σ) : Expr → Evaluation σ Value
  | literal v _ => pure v.value
  | var n t s => do declare t (← scope.global n s)
  | field b n t s => do
    let base ← evaluate scope b
    let v ← lift (base.item (.string n)) s
    declare t v
  | item b k t s => do
    let base ← evaluate scope b
    let key ← evaluate scope k
    let v ← lift (base.item key) s
    declare t v
  | call n as t s => do
    let arguments ← evaluateList scope as
    let v ← scope.call n arguments s
    declare t v
  | unary o e _ s => o.evaluate s ⟨e.staticType, e.span, evaluate scope e⟩
  | binary o l r t s =>
    o.evaluate t s ⟨l.staticType, l.span, evaluate scope l⟩ ⟨r.staticType, r.span, evaluate scope r⟩
  | conditional c a b t _ =>
    Operand.conditional t ⟨c.staticType, c.span, evaluate scope c⟩ ⟨a.staticType, a.span, evaluate scope a⟩
      ⟨b.staticType, b.span, evaluate scope b⟩
  | list es _ => do return .list (← evaluateList scope es).toArray
  | map es _ => do return .map (.ofList (← evaluateEntries scope es))

/-- The values of expressions, from left to right. -/
def evaluateList (scope : Scope σ) : List Expr → Evaluation σ (List Value)
  | [] => pure []
  | e :: es => do
    let v ← evaluate scope e
    return v :: (← evaluateList scope es)

/-- The keys and values of entries, each key before its value. A key is the text of its expression's value. -/
def evaluateEntries (scope : Scope σ) : List (Expr × Expr) → Evaluation σ (List (String × Value))
  | [] => pure []
  | (k, v) :: es => do
    let key ← evaluate scope k
    let value ← evaluate scope v
    return (key.text, value) :: (← evaluateEntries scope es)

end

end Expr

end TemplateExpr
