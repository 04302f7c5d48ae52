import TemplateExpr.Proofs.Erasure.Dynamic
import TemplateExpr.Proofs.Value.Equality

/-!
# Evaluations without calls

Only native functions look at the world, so an expression without calls always has the same result: a value, or none
(`Expr.steady`). Its declared types may be wrong, since a conversion then fails whenever it is carried out.

The value is built by insertion if the globals are. This is shown along the way, because an operator that looks into a
map depends on it.
-/

namespace TemplateExpr

namespace Evaluation

variable {σ α β γ : Type}

/-- An evaluation has this result whatever the world is like, or fails if there is none. -/
def Gives (m : Evaluation σ α) (r : Option α) : Prop := ∀ w, (m w).1.toOption = r

/-- An evaluation has the same result whatever the world is like, which has a property. -/
def Steady (P : α → Prop) (m : Evaluation σ α) : Prop := ∃ r, m.Gives r ∧ ∀ a ∈ r, P a

variable {m : Evaluation σ α} {m' : Evaluation σ β} {r : Option α} {s : Option β} {P : α → Prop} {Q : β → Prop}

/-! ### Results -/

theorem Gives.pure (a : α) : (pure a : Evaluation σ α).Gives (some a) := fun _ => rfl

theorem Gives.raise (f : Fault) (span : Span) : (raise f span : Evaluation σ α).Gives none := fun _ => rfl

theorem Gives.lift (x : Except Fault α) (span : Span) : (lift x span : Evaluation σ α).Gives x.toOption := by
  cases x with
  | error f => exact .raise f span
  | ok a => exact .pure a

theorem Gives.bind {k : α → Evaluation σ β} {f : α → Option β} (h : m.Gives r)
    (hk : ∀ a ∈ r, (k a).Gives (f a)) : (m >>= k).Gives (r.bind f) := by
  intro w
  have hm := h w
  rcases hw : m w with ⟨e | a, w'⟩
  · rw [hw] at hm
    rw [bind_error hw, ← hm]
    rfl
  · rw [hw] at hm
    rw [bind_ok hw, ← hm]
    exact hk a hm.symm w'

theorem Gives.map (f : α → β) (h : m.Gives r) : (do return f (← m) : Evaluation σ β).Gives (r.map f) := by
  rw [Option.map_eq_bind]
  exact h.bind fun a _ => .pure (f a)

/-- Two evaluations, one after the other. -/
theorem Gives.both {k : α → β → Evaluation σ γ} {f : α → β → Option γ} (h : m.Gives r) (h' : m'.Gives s)
    (hk : ∀ a ∈ r, ∀ b ∈ s, (k a b).Gives (f a b)) :
    (do let a ← m; let b ← m'; k a b : Evaluation σ γ).Gives (r.bind fun a => s.bind fun b => f a b) :=
  h.bind fun a ha => h'.bind (hk a ha)

/-- The order of two evaluations does not show. -/
theorem Gives.swapped {k : α → β → Evaluation σ γ} {f : α → β → Option γ} (h : m.Gives r) (h' : m'.Gives s)
    (hk : ∀ a ∈ r, ∀ b ∈ s, (k a b).Gives (f a b)) :
    (do let b ← m'; let a ← m; k a b : Evaluation σ γ).Gives (r.bind fun a => s.bind fun b => f a b) := by
  rw [Option.bind_comm]
  exact h'.both h fun b hb a ha => hk a ha b hb

/-! ### Steadiness -/

theorem Steady.pure {a : α} (h : P a) : (pure a : Evaluation σ α).Steady P :=
  ⟨some a, .pure a, fun _ ha => Option.some.inj ha ▸ h⟩

theorem Steady.raise (f : Fault) (span : Span) : (raise f span : Evaluation σ α).Steady P :=
  ⟨none, .raise f span, nofun⟩

theorem Steady.lift {x : Except Fault α} (h : ∀ a, x = .ok a → P a) (span : Span) :
    (lift x span : Evaluation σ α).Steady P := by
  cases x with
  | error f => exact .raise f span
  | ok a => exact .pure (h a rfl)

theorem Steady.bind {k : α → Evaluation σ β} (h : m.Steady P) (hk : ∀ a, P a → (k a).Steady Q) :
    (m >>= k).Steady Q := by
  obtain ⟨r, hr, hP⟩ := h
  cases r with
  | none => exact ⟨none, hr.bind (f := fun _ => none) nofun, nofun⟩
  | some a =>
    obtain ⟨s, hs, hQ⟩ := hk a (hP a rfl)
    refine ⟨s, ?_, hQ⟩
    have hbind : (m >>= k).Gives ((some a).bind fun _ => s) := hr.bind fun b hb => Option.some.inj hb ▸ hs
    exact hbind

theorem Steady.map {f : α → β} (h : m.Steady P) (hf : ∀ a, P a → Q (f a)) :
    (do return f (← m) : Evaluation σ β).Steady Q := h.bind fun a ha => .pure (hf a ha)

/-- Two evaluations whose results are taken together. -/
theorem Steady.combine {R : γ → Prop} {f : α → β → γ} (h : m.Steady P) (h' : m'.Steady Q)
    (hf : ∀ a b, P a → Q b → R (f a b)) : (do let a ← m; let b ← m'; return f a b : Evaluation σ γ).Steady R :=
  h.bind fun a ha => h'.map fun b hb => hf a b ha hb

theorem Steady.declare {P : Value → Prop} {v : Value} (h : P v) (t : StaticType) :
    (declare t v : Evaluation σ Value).Steady P :=
  ⟨some v, fun _ => rfl, fun _ hv => Option.some.inj hv ▸ h⟩

end Evaluation

/-! ### Operators on values -/

namespace Value

variable {u v w : Value}

theorem Built.plus (u v : Value) : (u.plus v).Built := by
  unfold Value.plus
  split
  · exact .int _
  · split
    · exact .float _
    · exact .string _

theorem Built.of_arithmetic {symbol : String} {onInts : Int64 → Int64 → Int64} {onFloats : Float → Float → Float}
    (h : arithmetic symbol onInts onFloats u v = .ok w) : w.Built := by
  unfold arithmetic at h
  split at h
  · cases h
    exact .int _
  · split at h
    · cases h
      exact .float _
    · cases h

theorem Built.of_negate (h : u.negate = .ok w) : w.Built := by
  unfold negate at h
  split at h
  · cases h
    exact .int _
  · cases h
    exact .float _
  · cases h

/-- What is found in a value was in it, or is null. -/
theorem Built.of_item (hu : u.Built) (h : u.item v = .ok w) : w.Built := by
  unfold item at h
  split at h
  · cases h
    exact .null
  · rename_i elements i
    cases h
    unfold elementAt
    split
    · exact .null
    · cases helement : elements[i.toNatClampNeg]? with
      | none => exact .null
      | some w => exact hu.of_mem_list w (Array.mem_of_getElem? helement)
  · cases h
  · rename_i entries
    cases h
    cases hentry : entries.get? v.text with
    | none => exact .null
    | some w => exact hu.of_get? hentry
  · cases h

end Value

/-! ### Operators on operands -/

namespace Operand

open Evaluation

variable {σ : Type} {o l r : Operand σ} {span : Span} {x : Option Value}

theorem gives_int (h : o.value.Gives x) : o.int.Gives (x.bind Value.int?) := by
  refine h.bind fun v _ => ?_
  cases v with
  | int n => exact .pure n
  | _ => exact .raise _ _

theorem gives_float (h : o.value.Gives x) : o.float.Gives (x.bind Value.number?) := by
  refine h.bind fun v _ => ?_
  cases v.number? with
  | some a => exact .pure a
  | none => exact .raise _ _

theorem gives_text (h : o.value.Gives x) : o.text.Gives (x.map Value.text) := h.map Value.text

/-- Nothing is asked of a number, a truth or a text. -/
abbrev Any {α : Type} (_ : α) : Prop := True

theorem steady_int (h : o.value.Steady Value.Built) : o.int.Steady Any :=
  let ⟨_, hx, _⟩ := h
  ⟨_, gives_int hx, fun _ _ => trivial⟩

theorem steady_float (h : o.value.Steady Value.Built) : o.float.Steady Any :=
  let ⟨_, hx, _⟩ := h
  ⟨_, gives_float hx, fun _ _ => trivial⟩

theorem steady_truth (h : o.value.Steady Value.Built) : o.truth.Steady Any := h.map fun _ _ => trivial

theorem steady_text (h : o.value.Steady Value.Built) : o.text.Steady Any := h.map fun _ _ => trivial

theorem steady_arithmetic {onInts : Int64 → Int64 → Int64} {onFloats : Float → Float → Float}
    {generic : Value → Value → Except Fault Value} (hgeneric : ∀ u v w, generic u v = .ok w → w.Built)
    (hl : l.value.Steady Value.Built) (hr : r.value.Steady Value.Built) :
    (Operand.arithmetic onInts onFloats generic span l r).Steady Value.Built := by
  unfold Operand.arithmetic
  split
  · exact (steady_int hl).combine (steady_int hr) fun _ _ _ _ => .int _
  · split
    · exact (steady_float hl).combine (steady_float hr) fun _ _ _ _ => .float _
    · exact hl.bind fun u _ => hr.bind fun v _ => .lift (hgeneric u v) _

theorem steady_relation {onInts : Int64 → Int64 → Bool} {onFloats : Float → Float → Bool}
    {generic : Value → Value → Except Fault Bool} {reversed : Bool} (hl : l.value.Steady Value.Built)
    (hr : r.value.Steady Value.Built) : (relation onInts onFloats generic reversed span l r).Steady Any := by
  unfold relation
  split
  · exact (steady_int hl).combine (steady_int hr) fun _ _ _ _ => trivial
  · split
    · exact (steady_float hl).combine (steady_float hr) fun _ _ _ _ => trivial
    · split
      · exact hr.bind fun v _ => hl.bind fun u _ => .lift (fun _ _ => trivial) _
      · exact hl.bind fun u _ => hr.bind fun v _ => .lift (fun _ _ => trivial) _

private theorem steady_stringEquality (hl : l.value.Steady Value.Built) (hr : r.value.Steady Value.Built) :
    (stringEquality l r).Steady Any := by
  unfold stringEquality
  split
  · exact (steady_text hl).combine (steady_text hr) fun _ _ _ _ => trivial
  · split
    · exact (steady_text hl).combine (steady_float hr) fun _ _ _ _ => trivial
    · exact (steady_text hl).combine hr fun _ _ _ _ => trivial

theorem steady_equality (hl : l.value.Steady Value.Built) (hr : r.value.Steady Value.Built) :
    (equality l r).Steady Any := by
  unfold equality
  split
  · exact steady_stringEquality hl hr
  · split
    · exact steady_stringEquality hr hl
    · split
      · exact (steady_int hl).combine (steady_int hr) fun _ _ _ _ => trivial
      · split
        · exact (steady_float hl).combine (steady_float hr) fun _ _ _ _ => trivial
        · exact hl.combine hr fun _ _ _ _ => trivial

theorem steady_shortCircuit (decided : Bool) (hl : l.value.Steady Value.Built) (hr : r.value.Steady Value.Built) :
    (shortCircuit decided l r).Steady Any := by
  refine (steady_truth hl).bind fun b _ => ?_
  split
  · exact .pure trivial
  · exact steady_truth hr

theorem steady_branch (h : o.value.Steady Value.Built) : (branch l r o).Steady Value.Built := by
  unfold branch
  split
  · exact (steady_int h).map fun _ _ => .int _
  · split
    · exact (steady_float h).map fun _ _ => .float _
    · split
      · exact (steady_text h).map fun _ _ => .string _
      · exact h

theorem steady_conditional {type : StaticType} {c : Operand σ} (hc : c.value.Steady Value.Built)
    (hl : l.value.Steady Value.Built) (hr : r.value.Steady Value.Built) :
    (conditional type c l r).Steady Value.Built := by
  refine (steady_truth hc).bind fun b _ => ?_
  refine (steady_branch ?_).bind fun v hv => .declare hv type
  cases b with
  | true => exact hl
  | false => exact hr

end Operand

section Operator

open Evaluation Operand

variable {σ : Type} {l r : Operand σ} {span : Span}

theorem UnaryOp.steady (op : UnaryOp) (h : l.value.Steady Value.Built) : (op.evaluate span l).Steady Value.Built := by
  cases op with
  | not => exact (steady_truth h).map fun _ _ => .bool _
  | negate =>
    change (l.negate span).Steady _
    unfold Operand.negate
    split
    · exact (steady_int h).map fun _ _ => .int _
    · split
      · exact (steady_float h).map fun _ _ => .float _
      · exact h.bind fun u _ => .lift (fun _ => .of_negate) _

theorem BinaryOp.steady (op : BinaryOp) {type : StaticType} (hl : l.value.Steady Value.Built)
    (hr : r.value.Steady Value.Built) : (op.evaluate type span l r).Steady Value.Built := by
  cases op with
  | add =>
    change (Operand.plus span l r).Steady _
    unfold Operand.plus
    split
    · exact (steady_text hl).combine (steady_text hr) fun _ _ _ _ => .string _
    · refine steady_arithmetic ?_ hl hr
      rintro u v _ ⟨⟩
      exact .plus u v
  | sub | mul => exact steady_arithmetic (fun _ _ _ => .of_arithmetic) hl hr
  | div => exact (steady_float hl).combine (steady_float hr) fun _ _ _ _ => .float _
  | mod =>
    refine (steady_int hl).bind fun a _ => (steady_int hr).bind fun b _ => ?_
    split
    · exact .raise _ _
    · exact .pure (.int _)
  | eq | ne => exact (steady_equality hl hr).map fun _ _ => .bool _
  | lt | le | gt | ge => exact (steady_relation hl hr).map fun _ _ => .bool _
  | and | or => exact (steady_shortCircuit _ hl hr).map fun _ _ => .bool _
  | orElse =>
    refine hl.bind fun a ha => ?_
    split
    · exact hr.bind fun v hv => .declare hv type
    · exact (Steady.pure ha).bind fun v hv => .declare hv type

end Operator

/-! ### Expressions -/

namespace Expr

open Evaluation

def isCall : Expr → Bool
  | call .. => true
  | _ => false

/-- Neither the expression nor a part of it is a call. -/
def CallFree (e : Expr) : Prop := e.All fun n => n.isCall = false

variable {σ : Type} {scope : Scope σ}

private theorem steady_list {es : List Expr} (h : ∀ e ∈ es, (e.evaluate scope).Steady Value.Built) :
    (evaluateList scope es).Steady fun vs => ∀ v ∈ vs, v.Built := by
  induction es with
  | nil => exact .pure nofun
  | cons e es ih =>
    rw [evaluateList]
    refine (h e List.mem_cons_self).combine (ih fun e he => h e (List.mem_cons_of_mem _ he)) ?_
    exact fun v vs hv hvs => List.forall_mem_cons.2 ⟨hv, hvs⟩

private theorem steady_entries {es : List (Expr × Expr)}
    (h : ∀ e ∈ es, (e.1.evaluate scope).Steady Value.Built ∧ (e.2.evaluate scope).Steady Value.Built) :
    (evaluateEntries scope es).Steady fun ps => ∀ p ∈ ps, p.2.Built := by
  induction es with
  | nil => exact .pure nofun
  | cons e es ih =>
    obtain ⟨hk, hv⟩ := h e List.mem_cons_self
    rw [evaluateEntries]
    refine hk.bind fun k _ => hv.combine (ih fun e he => h e (List.mem_cons_of_mem _ he)) ?_
    exact fun v ps hv hps => List.forall_mem_cons.2 ⟨hv, hps⟩

/-- An expression without calls always has the same result. -/
theorem steady (hglobals : (Value.map scope.globals).Built) {e : Expr} (h : e.CallFree) :
    (e.evaluate scope).Steady Value.Built := by
  induction e using Expr.induct with
  | literal v s =>
    rw [evaluate]
    cases v with
    | null => exact .pure .null
    | bool b => exact .pure (.bool b)
    | int n => exact .pure (.int n)
    | float x => exact .pure (.float x)
    | string s => exact .pure (.string s)
  | var n t s =>
    rw [evaluate]
    refine Steady.bind (P := Value.Built) ?_ fun v hv => .declare hv t
    unfold Scope.global
    cases hv : scope.globals.get? n with
    | some v => exact .pure (hglobals.of_get? hv)
    | none => exact .raise _ _
  | field b n t s ih =>
    rw [evaluate]
    exact (ih h.2).bind fun u hu => (Steady.lift (fun _ => hu.of_item) s).bind fun v hv => .declare hv t
  | item b k t s ihb ihk =>
    rw [evaluate]
    exact (ihb h.2.1).bind fun u hu => (ihk h.2.2).bind fun v _ =>
      (Steady.lift (fun _ => hu.of_item) s).bind fun v hv => .declare hv t
  | call n as t s ih =>
    have hcall : (call n as t s).isCall = false := h.1
    cases hcall
  | unary o e t s ih =>
    rw [evaluate]
    exact o.steady (ih h.2)
  | binary o l r t s ihl ihr =>
    rw [evaluate]
    exact o.steady (ihl h.2.1) (ihr h.2.2)
  | conditional c a b t s ihc iha ihb =>
    rw [evaluate]
    exact Operand.steady_conditional (ihc h.2.1) (iha h.2.2.1) (ihb h.2.2.2)
  | list es s ih =>
    rw [evaluate]
    refine (steady_list fun e he => ih e he (allList_iff.1 h.2 e he)).map fun vs hvs => .list ?_
    simpa using hvs
  | map es s ih =>
    rw [evaluate]
    refine (steady_entries fun e he => ?_).map fun ps hps => .map hps
    exact ⟨(ih e he).1 (allEntries_iff.1 h.2 e he).1, (ih e he).2 (allEntries_iff.1 h.2 e he).2⟩

end Expr

end TemplateExpr
