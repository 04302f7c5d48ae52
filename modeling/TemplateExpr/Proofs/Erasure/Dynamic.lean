import Mathlib.Tactic.SplitIfs
import TemplateExpr.Proofs.Evaluation.Expr

/-!
# Expressions without types

An expression still has a meaning when its declared types are not looked at: every operator finds out for itself what
its operands are (`Expr.dynamic`). Native functions that are pure have answers, so this meaning is a value or nothing.

`Expr.erase` replaces all declared types by `unknown`. The meaning stays the same (`Expr.dynamic_erase`), but not the
static types of the nodes above (`Expr.staticType_erase`), which decide how an expression is compiled.
-/

namespace TemplateExpr

/-! ### Operators -/

def Value.int? : Value → Option Int64
  | int n => some n
  | _ => none

def UnaryOp.dynamic (o : Option Value) : UnaryOp → Option Value
  | .negate => do (← o).negate.toOption
  | .not => do return .bool (!(← o).isTruthy)

def BinaryOp.dynamic (l r : Option Value) : BinaryOp → Option Value
  | .add => do return (← l).plus (← r)
  | .sub => do ((← l).minus (← r)).toOption
  | .mul => do ((← l).times (← r)).toOption
  | .div => do return .float ((← l.bind Value.number?) / (← r.bind Value.number?))
  | .mod => do
    let a ← l.bind Value.int?
    let b ← r.bind Value.int?
    if b = 0 then none else return .int (a % b)
  | .eq => do return .bool ((← l).looseEq (← r))
  | .ne => do return .bool (!(← l).looseEq (← r))
  | .lt => do return .bool (← ((← l).lessThan (← r)).toOption)
  | .le => do return .bool (← ((← l).lessThanOrEqual (← r)).toOption)
  | .gt => do
    let a ← l
    let b ← r
    return .bool (← (b.lessThan a).toOption)
  | .ge => do
    let a ← l
    let b ← r
    return .bool (← (b.lessThanOrEqual a).toOption)
  | .and => do
    if (← l).isTruthy = false then return .bool false else return .bool (← r).isTruthy
  | .or => do
    if (← l).isTruthy then return .bool true else return .bool (← r).isTruthy
  | .orElse => do
    let a ← l
    if a.isNull then r else return a

/-! ### Expressions -/

/-- What names refer to, if the answers of native functions depend on nothing but their arguments. -/
structure Names where
  global : String → Option Value
  call : String → List Value → Option Value

namespace Expr

mutual

/-- The value of an expression, if it has one, found without types. -/
def dynamic (names : Names) : Expr → Option Value
  | literal v _ => some v.value
  | var n _ _ => names.global n
  | field b n _ _ => do ((← dynamic names b).item (.string n)).toOption
  | item b k _ _ => do ((← dynamic names b).item (← dynamic names k)).toOption
  | call n as _ _ => do names.call n (← dynamicList names as)
  | unary o e _ _ => o.dynamic (dynamic names e)
  | binary o l r _ _ => o.dynamic (dynamic names l) (dynamic names r)
  | conditional c a b _ _ => do if (← dynamic names c).isTruthy then dynamic names a else dynamic names b
  | list es _ => do return .list (← dynamicList names es).toArray
  | map es _ => do return .map (.ofList (← dynamicEntries names es))

def dynamicList (names : Names) : List Expr → Option (List Value)
  | [] => some []
  | e :: es => do return (← dynamic names e) :: (← dynamicList names es)

def dynamicEntries (names : Names) : List (Expr × Expr) → Option (List (String × Value))
  | [] => some []
  | (k, v) :: es => do return ((← dynamic names k).text, ← dynamic names v) :: (← dynamicEntries names es)

end

/-! ### Erasure -/

mutual

/-- The expression with every declared type replaced by `unknown`. -/
def erase : Expr → Expr
  | literal v s => literal v s
  | var n _ s => var n .unknown s
  | field b n _ s => field (erase b) n .unknown s
  | item b k _ s => item (erase b) (erase k) .unknown s
  | call n as _ s => call n (eraseList as) .unknown s
  | unary o e _ s => unary o (erase e) .unknown s
  | binary o l r _ s => binary o (erase l) (erase r) .unknown s
  | conditional c a b _ s => conditional (erase c) (erase a) (erase b) .unknown s
  | list es s => list (eraseList es) s
  | map es s => map (eraseEntries es) s

def eraseList : List Expr → List Expr
  | [] => []
  | e :: es => erase e :: eraseList es

def eraseEntries : List (Expr × Expr) → List (Expr × Expr)
  | [] => []
  | (k, v) :: es => (erase k, erase v) :: eraseEntries es

end

theorem eraseList_eq (es : List Expr) : eraseList es = es.map erase := by
  induction es with
  | nil => rfl
  | cons e es ih => rw [eraseList, ih, List.map_cons]

theorem eraseEntries_eq (es : List (Expr × Expr)) : eraseEntries es = es.map fun e => (e.1.erase, e.2.erase) := by
  induction es with
  | nil => rfl
  | cons e es ih => rw [eraseEntries, ih, List.map_cons]

private theorem dynamicList_map (names : Names) {es : List Expr}
    (h : ∀ e ∈ es, e.erase.dynamic names = e.dynamic names) :
    dynamicList names (es.map erase) = dynamicList names es := by
  induction es with
  | nil => rfl
  | cons e es ih =>
    simp only [List.map_cons, dynamicList, h e List.mem_cons_self, ih fun e he => h e (List.mem_cons_of_mem _ he)]

private theorem dynamicEntries_map (names : Names) {es : List (Expr × Expr)}
    (h : ∀ e ∈ es, e.1.erase.dynamic names = e.1.dynamic names ∧ e.2.erase.dynamic names = e.2.dynamic names) :
    dynamicEntries names (es.map fun e => (e.1.erase, e.2.erase)) = dynamicEntries names es := by
  induction es with
  | nil => rfl
  | cons e es ih =>
    obtain ⟨hk, hv⟩ := h e List.mem_cons_self
    simp only [List.map_cons, dynamicEntries, hk, hv, ih fun e he => h e (List.mem_cons_of_mem _ he)]

/-- The meaning of an expression does not come from its declared types. -/
theorem dynamic_erase (names : Names) (e : Expr) : e.erase.dynamic names = e.dynamic names := by
  induction e using Expr.induct with
  | literal v s => rfl
  | var n t s => rfl
  | field b n t s ih => rw [erase, dynamic, dynamic, ih]
  | item b k t s ihb ihk => rw [erase, dynamic, dynamic, ihb, ihk]
  | call n as t s ih => rw [erase, dynamic, dynamic, eraseList_eq, dynamicList_map names ih]
  | unary o e t s ih => rw [erase, dynamic, dynamic, ih]
  | binary o l r t s ihl ihr => rw [erase, dynamic, dynamic, ihl, ihr]
  | conditional c a b t s ihc iha ihb => rw [erase, dynamic, dynamic, ihc, iha, ihb]
  | list es s ih => rw [erase, dynamic, dynamic, eraseList_eq, dynamicList_map names ih]
  | map es s ih => rw [erase, dynamic, dynamic, eraseEntries_eq, dynamicEntries_map names ih]

/-! ### Static types that are no longer known -/

section Weaken

variable {l l' r r' : StaticType}

private theorem arithmetic_unknown_left (t : StaticType) : StaticType.arithmetic .unknown t = .unknown := by
  simp [StaticType.arithmetic, StaticType.isNumber]

private theorem arithmetic_unknown_right (t : StaticType) : StaticType.arithmetic t .unknown = .unknown := by
  simp [StaticType.arithmetic, StaticType.isNumber]

private theorem arithmetic_weaken (hl : l' = l ∨ l' = .unknown) (hr : r' = r ∨ r' = .unknown) :
    l'.arithmetic r' = l.arithmetic r ∨ l'.arithmetic r' = .unknown := by
  obtain rfl | rfl := hl
  · obtain rfl | rfl := hr
    · exact .inl rfl
    · exact .inr (arithmetic_unknown_right l')
  · exact .inr (arithmetic_unknown_left r')

private theorem plus_weaken (hl : l' = l ∨ l' = .unknown) (hr : r' = r ∨ r' = .unknown) :
    l'.plus r' = l.plus r ∨ l'.plus r' = .unknown := by
  unfold StaticType.plus
  by_cases hs : l' = .known .string ∨ r' = .known .string
  · have hs' : l = .known .string ∨ r = .known .string := by
      obtain rfl | rfl := hs
      · exact .inl ((hl.resolve_right nofun).symm)
      · exact .inr ((hr.resolve_right nofun).symm)
    rw [if_pos hs, if_pos hs']
    exact .inl rfl
  · rw [if_neg hs]
    obtain rfl | rfl := hl
    · obtain rfl | rfl := hr
      · rw [if_neg hs]
        exact .inl rfl
      · exact .inr (arithmetic_unknown_right l')
    · exact .inr (arithmetic_unknown_left r')

private theorem negate_weaken (hl : l' = l ∨ l' = .unknown) : l'.negate = l.negate ∨ l'.negate = .unknown := by
  obtain rfl | rfl := hl
  · exact .inl rfl
  · exact .inr rfl

private theorem conditional_weaken (t : StaticType) (hl : l' = l ∨ l' = .unknown) (hr : r' = r ∨ r' = .unknown) :
    StaticType.conditional .unknown l' r' = .conditional t l r ∨ StaticType.conditional .unknown l' r' = .unknown := by
  obtain rfl | rfl := hl
  · obtain rfl | rfl := hr
    · unfold StaticType.conditional
      split_ifs
      · exact .inl rfl
      · exact .inl rfl
      · exact .inl rfl
      · exact .inr rfl
    · exact .inr (by simp [StaticType.conditional, StaticType.isNumber])
  · exact .inr (by simp [StaticType.conditional, StaticType.isNumber])

end Weaken

/-- Of the static types, some are no longer known, and the others are as before. -/
theorem staticType_erase (e : Expr) : e.erase.staticType = e.staticType ∨ e.erase.staticType = .unknown := by
  induction e using Expr.induct with
  | literal v s => exact .inl rfl
  | var n t s => exact .inr rfl
  | field b n t s ih => exact .inr rfl
  | item b k t s ihb ihk => exact .inr rfl
  | call n as t s ih => exact .inr rfl
  | unary o e t s ih =>
    cases o with
    | not => exact .inl rfl
    | negate => exact negate_weaken ih
  | binary o l r t s ihl ihr =>
    cases o with
    | orElse => exact .inr rfl
    | add => exact plus_weaken ihl ihr
    | sub => exact arithmetic_weaken ihl ihr
    | mul => exact arithmetic_weaken ihl ihr
    | _ => exact .inl rfl
  | conditional c a b t s ihc iha ihb => exact conditional_weaken t iha ihb
  | list es s ih => exact .inl rfl
  | map es s ih => exact .inl rfl

/-! ### Nodes -/

mutual

/-- Every node of the expression satisfies a predicate. -/
def All (P : Expr → Prop) : Expr → Prop
  | literal v s => P (literal v s)
  | var n t s => P (var n t s)
  | field b n t s => P (field b n t s) ∧ All P b
  | item b k t s => P (item b k t s) ∧ All P b ∧ All P k
  | call n as t s => P (call n as t s) ∧ AllList P as
  | unary o e t s => P (unary o e t s) ∧ All P e
  | binary o l r t s => P (binary o l r t s) ∧ All P l ∧ All P r
  | conditional c a b t s => P (conditional c a b t s) ∧ All P c ∧ All P a ∧ All P b
  | list es s => P (list es s) ∧ AllList P es
  | map es s => P (map es s) ∧ AllEntries P es

def AllList (P : Expr → Prop) : List Expr → Prop
  | [] => True
  | e :: es => All P e ∧ AllList P es

def AllEntries (P : Expr → Prop) : List (Expr × Expr) → Prop
  | [] => True
  | (k, v) :: es => All P k ∧ All P v ∧ AllEntries P es

end

theorem allList_iff {P : Expr → Prop} {es : List Expr} : AllList P es ↔ ∀ e ∈ es, e.All P := by
  induction es with
  | nil => simp [AllList]
  | cons e es ih => simp [AllList, ih]

theorem allEntries_iff {P : Expr → Prop} {es : List (Expr × Expr)} :
    AllEntries P es ↔ ∀ e ∈ es, e.1.All P ∧ e.2.All P := by
  induction es with
  | nil => simp [AllEntries]
  | cons e es ih => simp [AllEntries, ih, and_assoc]

theorem All.mono {P Q : Expr → Prop} (hPQ : ∀ e, P e → Q e) {e : Expr} (h : e.All P) : e.All Q := by
  induction e using Expr.induct with
  | literal v s => exact hPQ _ h
  | var n t s => exact hPQ _ h
  | field b n t s ih => exact ⟨hPQ _ h.1, ih h.2⟩
  | item b k t s ihb ihk => exact ⟨hPQ _ h.1, ihb h.2.1, ihk h.2.2⟩
  | call n as t s ih => exact ⟨hPQ _ h.1, allList_iff.2 fun a ha => ih a ha (allList_iff.1 h.2 a ha)⟩
  | unary o e t s ih => exact ⟨hPQ _ h.1, ih h.2⟩
  | binary o l r t s ihl ihr => exact ⟨hPQ _ h.1, ihl h.2.1, ihr h.2.2⟩
  | conditional c a b t s ihc iha ihb => exact ⟨hPQ _ h.1, ihc h.2.1, iha h.2.2.1, ihb h.2.2.2⟩
  | list es s ih => exact ⟨hPQ _ h.1, allList_iff.2 fun a ha => ih a ha (allList_iff.1 h.2 a ha)⟩
  | map es s ih =>
    refine ⟨hPQ _ h.1, allEntries_iff.2 fun a ha => ?_⟩
    obtain ⟨hk, hv⟩ := allEntries_iff.1 h.2 a ha
    exact ⟨(ih a ha).1 hk, (ih a ha).2 hv⟩

/-- What every node has once it is erased, every node of the erased expression has. -/
theorem All.erase {P Q : Expr → Prop} (hPQ : ∀ e, P e → Q e.erase) {e : Expr} (h : e.All P) : e.erase.All Q := by
  induction e using Expr.induct with
  | literal v s => exact hPQ _ h
  | var n t s => exact hPQ _ h
  | field b n t s ih => exact ⟨hPQ _ h.1, ih h.2⟩
  | item b k t s ihb ihk => exact ⟨hPQ _ h.1, ihb h.2.1, ihk h.2.2⟩
  | call n as t s ih =>
    refine ⟨hPQ _ h.1, ?_⟩
    rw [eraseList_eq, allList_iff]
    simp only [List.mem_map, forall_exists_index, and_imp, forall_apply_eq_imp_iff₂]
    exact fun a ha => ih a ha (allList_iff.1 h.2 a ha)
  | unary o e t s ih => exact ⟨hPQ _ h.1, ih h.2⟩
  | binary o l r t s ihl ihr => exact ⟨hPQ _ h.1, ihl h.2.1, ihr h.2.2⟩
  | conditional c a b t s ihc iha ihb => exact ⟨hPQ _ h.1, ihc h.2.1, iha h.2.2.1, ihb h.2.2.2⟩
  | list es s ih =>
    refine ⟨hPQ _ h.1, ?_⟩
    rw [eraseList_eq, allList_iff]
    simp only [List.mem_map, forall_exists_index, and_imp, forall_apply_eq_imp_iff₂]
    exact fun a ha => ih a ha (allList_iff.1 h.2 a ha)
  | map es s ih =>
    refine ⟨hPQ _ h.1, ?_⟩
    rw [eraseEntries_eq, allEntries_iff]
    simp only [List.mem_map, forall_exists_index, and_imp, forall_apply_eq_imp_iff₂]
    intro a ha
    obtain ⟨hk, hv⟩ := allEntries_iff.1 h.2 a ha
    exact ⟨(ih a ha).1 hk, (ih a ha).2 hv⟩

end Expr

end TemplateExpr
