import Mathlib
import TemplateExpr.Proofs.Erasure.Correct
import TemplateExpr.Proofs.Evaluation.Steady

/-!
# Comparisons the other way round

A comparison of two expressions without calls comes to the same as its converse with the expressions exchanged, and
`!=` comes to the opposite of `==` (`ExprRoot.comparison_laws`). How the two sides are compared depends on their types,
which need not be true:

* (order) of operands that are not known to be numbers, `a > b` evaluates `b` first and asks whether `b < a`, so that it
  is `b < a` throughout (`Operand.matches_relation`);
* (equality) a known string is always evaluated first, on whichever side it is, and in the other cases the comparison of
  the two values is symmetric (`Operand.matches_equality`).
-/

namespace TemplateExpr

open Evaluation

namespace Evaluation

variable {σ α β γ : Type}

/-- Two evaluations have the same result, whatever the world is like. -/
def Matches (m m' : Evaluation σ α) : Prop := ∃ r, m.Gives r ∧ m'.Gives r

/-- The order in which two results are found makes no difference. -/
theorem Matches.swapped {m : Evaluation σ α} {m' : Evaluation σ β} {x : Option α} {y : Option β} {f : α → β → γ}
    {g : β → α → γ} (hm : m.Gives x) (hm' : m'.Gives y) (hfg : ∀ a ∈ x, ∀ b ∈ y, f a b = g b a) :
    Matches (do let a ← m; let b ← m'; return f a b : Evaluation σ γ) (do let b ← m'; let a ← m; return g b a) := by
  refine ⟨_, hm.both (f := fun a b => some (f a b)) hm' fun a _ b _ => .pure _, ?_⟩
  exact hm.swapped hm' fun a ha b hb => hfg a ha b hb ▸ .pure _

end Evaluation

namespace Operand

variable {σ : Type} {l r : Operand σ}

/-! ### Reversal -/

theorem matches_relation (onInts : Int64 → Int64 → Bool) (onFloats : Float → Float → Bool)
    (generic : Value → Value → Except Fault Bool) (span span' : Span) (hl : l.value.Steady Value.Built)
    (hr : r.value.Steady Value.Built) :
    Matches (relation onInts onFloats generic false span l r)
      (relation (fun a b => onInts b a) (fun a b => onFloats b a) generic true span' r l) := by
  obtain ⟨x, hx, -⟩ := hl
  obtain ⟨y, hy, -⟩ := hr
  unfold relation
  by_cases hi : l.type = .known .int ∧ r.type = .known .int
  · rw [if_pos hi, if_pos hi.symm]
    exact Matches.swapped (gives_int hx) (gives_int hy) fun _ _ _ _ => rfl
  · have hi' : ¬ (r.type = .known .int ∧ l.type = .known .int) := fun h => hi h.symm
    rw [if_neg hi, if_neg hi']
    by_cases hn : l.type.isNumber ∧ r.type.isNumber
    · rw [if_pos hn, if_pos hn.symm]
      exact Matches.swapped (gives_float hx) (gives_float hy) fun _ _ _ _ => rfl
    · have hn' : ¬ (r.type.isNumber ∧ l.type.isNumber) := fun h => hn h.symm
      rw [if_neg hn, if_neg hn']
      -- both evaluate the left side of the first relation first, and differ in the span of a fault
      exact ⟨_, hx.both hy fun u _ v _ => .lift (generic u v) span, hx.both hy fun u _ v _ => .lift (generic u v) span'⟩

theorem matches_equality (hl : l.value.Steady Value.Built) (hr : r.value.Steady Value.Built) :
    Matches (equality l r) (equality r l) := by
  have hself : Matches (equality l r) (equality l r) := by
    obtain ⟨b, hb, -⟩ := steady_equality hl hr
    exact ⟨b, hb, hb⟩
  obtain ⟨x, hx, hxbuilt⟩ := hl
  obtain ⟨y, hy, hybuilt⟩ := hr
  unfold equality at hself ⊢
  by_cases hls : l.type = .known .string
  · rw [if_pos hls] at hself ⊢
    by_cases hrs : r.type = .known .string
    · rw [if_pos hrs]
      unfold stringEquality
      rw [if_pos hrs, if_pos hls]
      exact Matches.swapped (gives_text hx) (gives_text hy) fun _ _ _ _ => Bool.beq_comm
    · -- the string is evaluated first, whichever side it is on
      rwa [if_neg hrs, if_pos hls]
  · rw [if_neg hls] at hself ⊢
    by_cases hrs : r.type = .known .string
    · rw [if_pos hrs] at hself ⊢
      rwa [if_pos hrs]
    · rw [if_neg hrs, if_neg hrs, if_neg hls]
      by_cases hi : l.type = .known .int ∧ r.type = .known .int
      · rw [if_pos hi, if_pos hi.symm]
        exact Matches.swapped (gives_int hx) (gives_int hy) fun _ _ _ _ => Bool.beq_comm
      · have hi' : ¬ (r.type = .known .int ∧ l.type = .known .int) := fun h => hi h.symm
        rw [if_neg hi, if_neg hi']
        by_cases hn : l.type.isNumber ∧ r.type.isNumber
        · rw [if_pos hn, if_pos hn.symm]
          exact Matches.swapped (gives_float hx) (gives_float hy) fun a _ b _ => Binary64.beq_comm a b
        · have hn' : ¬ (r.type.isNumber ∧ l.type.isNumber) := fun h => hn h.symm
          rw [if_neg hn, if_neg hn']
          exact Matches.swapped hx hy fun u hu v hv => Value.looseEq_comm (hxbuilt u hu) (hybuilt v hv)

end Operand

/-! ### Operators -/

namespace BinaryOp

/-- The comparison that exchanging the operands makes of a comparison. -/
def converse? : BinaryOp → Option BinaryOp
  | lt => some gt
  | gt => some lt
  | le => some ge
  | ge => some le
  | eq => some eq
  | ne => some ne
  | _ => none

variable {σ : Type} {op op' : BinaryOp} {l r : Operand σ}

theorem exists_reversed (hop : op.converse? = some op') (type type' : StaticType) (span span' : Span)
    (hl : l.value.Steady Value.Built) (hr : r.value.Steady Value.Built) :
    ∃ outcome : Option Bool, (op.evaluate type span l r).Gives (outcome.map Value.bool) ∧
      (op'.evaluate type' span' r l).Gives (outcome.map Value.bool) := by
  cases op with
  | lt | le =>
    cases hop
    obtain ⟨b, h, h'⟩ := Operand.matches_relation _ _ _ span span' hl hr
    exact ⟨b, h.map Value.bool, h'.map Value.bool⟩
  | gt | ge =>
    cases hop
    obtain ⟨b, h, h'⟩ := Operand.matches_relation _ _ _ span' span hr hl
    exact ⟨b, h'.map Value.bool, h.map Value.bool⟩
  | eq =>
    cases hop
    obtain ⟨b, h, h'⟩ := Operand.matches_equality hl hr
    exact ⟨b, h.map Value.bool, h'.map Value.bool⟩
  | ne =>
    cases hop
    obtain ⟨b, h, h'⟩ := Operand.matches_equality hl hr
    refine ⟨b.map not, ?_, ?_⟩ <;> rw [Option.map_map]
    · exact h.map fun b => Value.bool !b
    · exact h'.map fun b => Value.bool !b
  | _ => cases hop

/-- `!=` is the complement of `==`. -/
theorem exists_complement (type type' : StaticType) (span span' : Span) (hl : l.value.Steady Value.Built)
    (hr : r.value.Steady Value.Built) :
    ∃ outcome : Option Bool, (eq.evaluate type span l r).Gives (outcome.map Value.bool) ∧
      (ne.evaluate type' span' l r).Gives ((outcome.map not).map Value.bool) := by
  obtain ⟨b, hb, -⟩ := Operand.steady_equality hl hr
  refine ⟨b, hb.map Value.bool, ?_⟩
  rw [Option.map_map]
  exact hb.map fun b => Value.bool !b

end BinaryOp

/-! ### Programs -/

/-- The program is that of a comparison, whatever type is declared for it and wherever it stands. -/
def Program.Compares (p : Program) (op : BinaryOp) (a b : Expr) : Prop :=
  ∃ type span whole options, (ExprRoot.mk (.binary op a b type span) whole).compile .global options = .ok p

/-- With room for its stack the program always ends with this truth value, or always fails if there is none. -/
def Program.Returns {σ : Type} (p : Program) (scope : Scope σ) (outcome : Option Bool) : Prop :=
  ∀ limit host, p.maxStackDepth ≤ limit → ∃ n result last,
    (∀ fuel, n ≤ fuel →
      (Context.mk p.bytecode scope.globals limit).run? scope.natives fuel host = some (result, last)) ∧
    result.toOption = outcome.map Value.bool

namespace ExprRoot

variable {σ : Type} {scope : Scope σ} {a b : Expr}

theorem returns_of_gives {root : ExprRoot} {options : CompileOptions} {p : Program} {outcome : Option Bool}
    (h : root.compile .global options = .ok p) (hgives : (root.expr.evaluate scope).Gives (outcome.map Value.bool)) :
    p.Returns scope outcome := by
  intro limit host hlimit
  obtain ⟨result, last, hends, hok⟩ :=
    ends_ok_iff h (not_hitsLimit_of_compile h scope.globals scope.natives hlimit host)
  obtain ⟨n, hn⟩ := hends.runFrom?
  refine ⟨n, result, last, hn, Option.ext fun v => ?_⟩
  rw [← hgives (.initial host), ← hok v]
  cases result <;> simp [Except.toOption]

/-- Of two expressions without calls, a comparison and its converse with the expressions exchanged both fail or both
have the same result, and `!=` fails exactly if `==` does and else has the opposite result. -/
theorem comparison_laws (ha : a.CallFree) (hb : b.CallFree) (hglobals : (Value.map scope.globals).Built) :
    (∀ (op op' : BinaryOp) (p p' : Program), op.converse? = some op' → p.Compares op a b → p'.Compares op' b a →
      ∃ outcome, p.Returns scope outcome ∧ p'.Returns scope outcome) ∧
    ∀ p p' : Program, p.Compares .eq a b → p'.Compares .ne a b →
      ∃ outcome, p.Returns scope outcome ∧ p'.Returns scope (outcome.map not) := by
  have hsteady := Expr.steady hglobals ha
  have hsteady' := Expr.steady hglobals hb
  constructor
  · rintro op op' p p' hop ⟨type, span, whole, options, hp⟩ ⟨type', span', whole', options', hp'⟩
    obtain ⟨outcome, h, h'⟩ := BinaryOp.exists_reversed (l := ⟨a.staticType, a.span, a.evaluate scope⟩)
      (r := ⟨b.staticType, b.span, b.evaluate scope⟩) hop type type' span span' hsteady hsteady'
    refine ⟨outcome, returns_of_gives hp ?_, returns_of_gives hp' ?_⟩
    · rwa [Expr.evaluate]
    · rwa [Expr.evaluate]
  · rintro p p' ⟨type, span, whole, options, hp⟩ ⟨type', span', whole', options', hp'⟩
    obtain ⟨outcome, h, h'⟩ := BinaryOp.exists_complement (l := ⟨a.staticType, a.span, a.evaluate scope⟩)
      (r := ⟨b.staticType, b.span, b.evaluate scope⟩) type type' span span' hsteady hsteady'
    refine ⟨outcome, returns_of_gives hp ?_, returns_of_gives hp' ?_⟩
    · rwa [Expr.evaluate]
    · rwa [Expr.evaluate]

/-- A variable that is wrongly declared to be a float. -/
def misdeclared : Expr := .var "x" (.known .float) ⟨0, 1⟩

/-- Where the variable is a string. -/
def stringScope : Scope Unit := ⟨.ofList [("x", .string "9")], fun _ => none⟩

/-- `x > 9` and `9 < x` compare numbers, and `x == 9` and `x != 9` too. -/
theorem comparison_laws_misdeclared :
    ∃ p p' q q' : Program, p.Compares .gt misdeclared (.literal (.int 9) ⟨4, 5⟩) ∧
      p'.Compares .lt (.literal (.int 9) ⟨4, 5⟩) misdeclared ∧ q.Compares .eq misdeclared (.literal (.int 9) ⟨4, 5⟩) ∧
      q'.Compares .ne misdeclared (.literal (.int 9) ⟨4, 5⟩) ∧
      (∃ outcome, p.Returns stringScope outcome ∧ p'.Returns stringScope outcome) ∧
      ∃ outcome, q.Returns stringScope outcome ∧ q'.Returns stringScope (outcome.map not) := by
  have hcompile : ∀ (op : BinaryOp) (a b : Expr) (type : StaticType) (n : Nat),
      (((ExprRoot.mk (.binary op a b type ⟨0, 5⟩) ⟨0, 5⟩).compile .global {}).map
        Program.maxStackDepth).toOption = some n → ∃ p : Program, p.Compares op a b := by
    intro op a b type n h
    obtain ⟨p, hp, -⟩ := exists_of_map h
    exact ⟨p, type, _, _, _, hp⟩
  obtain ⟨p, hp⟩ := hcompile .gt misdeclared (.literal (.int 9) ⟨4, 5⟩) .unknown 2 (by cbv)
  obtain ⟨p', hp'⟩ := hcompile .lt (.literal (.int 9) ⟨4, 5⟩) misdeclared .unknown 2 (by cbv)
  obtain ⟨q, hq⟩ := hcompile .eq misdeclared (.literal (.int 9) ⟨4, 5⟩) .unknown 2 (by cbv)
  obtain ⟨q', hq'⟩ := hcompile .ne misdeclared (.literal (.int 9) ⟨4, 5⟩) .unknown 2 (by cbv)
  have hglobals : (Value.map stringScope.globals).Built := .map (by simp [Value.Built.string])
  have hlaws := comparison_laws (a := misdeclared) (b := .literal (.int 9) ⟨4, 5⟩) rfl rfl hglobals
  exact ⟨p, p', q, q', hp, hp', hq, hq', hlaws.1 .gt .lt p p' rfl hp hp', hlaws.2 q q' hq hq'⟩

end ExprRoot

end TemplateExpr
