import Mathlib.Data.List.Forall2
import TemplateExpr.Compilation.Basic
import TemplateExpr.Proofs.Evaluation.Expr

/-!
# Induction on compiled expressions

With the globals of the machine in scope, the emitter of a node is made of the emitters of its operands. So what is
true of the emitters of leaves, and of a node's emitter if it is of those of the operands, is true of all expressions
that are compiled (`Expr.induct_compile`). This is where the compiler is followed through its lists, and where what it
refuses is put aside.
-/

namespace TemplateExpr

/-- A sequence that succeeds, step by step. -/
theorem Except.of_bind_eq_ok {ε α β : Type} {r : Except ε α} {k : α → Except ε β} {b : β} (h : r >>= k = .ok b) :
    ∃ a, r = .ok a ∧ k a = .ok b := by
  cases r with
  | error e => cases h
  | ok a => exact ⟨a, rfl, h⟩

/-- The elements may be looked up in the list on the left. -/
theorem forall₂_of_mem {α β : Type} {R S : α → β → Prop} {as : List α} {bs : List β}
    (h : List.Forall₂ R as bs) (himp : ∀ a b, a ∈ as → R a b → S a b) : List.Forall₂ S as bs := by
  have hmem : List.Forall₂ (fun a b => a ∈ as ∧ R a b) as bs :=
    (List.forall₂_and_left as bs).2 ⟨fun a ha => ha, h⟩
  exact hmem.imp fun a b hab => himp a b hab.1 hab.2

namespace Expr

/-! ### Lists of expressions -/

/-- Lists are compiled element by element. -/
theorem forall₂_of_compileList {env : Environment} {es : List Expr} {done xs : List Emitter}
    (h : compileList env es done = .ok xs) :
    ∃ ys, xs = done.reverse ++ ys ∧ List.Forall₂ (fun (e : Expr) y => e.compile env = .ok y) es ys := by
  induction es generalizing done with
  | nil =>
    rw [compileList] at h
    cases h
    exact ⟨[], (List.append_nil _).symm, .nil⟩
  | cons e es ih =>
    rw [compileList] at h
    split at h
    · rename_i y hy
      obtain ⟨ys, rfl, hys⟩ := ih h
      exact ⟨y :: ys, by simp, .cons hy hys⟩
    · cases h

/-- Maps are compiled entry by entry. -/
theorem forall₂_of_compileEntries {env : Environment} {es : List (Expr × Expr)} {done xs : List (Emitter × Emitter)}
    (h : compileEntries env es done = .ok xs) :
    ∃ ys, xs = done.reverse ++ ys ∧
      List.Forall₂ (fun (e : Expr × Expr) (y : Emitter × Emitter) =>
        e.1.compile env = .ok y.1 ∧ e.2.compile env = .ok y.2) es ys := by
  induction es generalizing done with
  | nil =>
    rw [compileEntries] at h
    cases h
    exact ⟨[], (List.append_nil _).symm, .nil⟩
  | cons e es ih =>
    obtain ⟨k, v⟩ := e
    rw [compileEntries] at h
    split at h
    · cases h
    · rename_i x hx
      split at h
      · rename_i y hy
        obtain ⟨ys, rfl, hys⟩ := ih h
        exact ⟨(x, y) :: ys, by simp, .cons ⟨hx, hy⟩ hys⟩
      · cases h

/-! ### Induction -/

/-- An operand that is compiled, with what is known of its emitter. -/
structure Compiled (P : Expr → Emitter → Prop) (e : Expr) (x : Emitter) : Prop where
  compile : e.compile .global = .ok x
  holds : P e x

/-- Induction on expressions that are compiled with the globals of the machine in scope. -/
theorem induct_compile {P : Expr → Emitter → Prop} (literal : ∀ v s, P (.literal v s) (v.emitter s))
    (var : ∀ n t s, P (.var n t s) (.make .boxed t false s 0 [.directive (.getGlobal n)]))
    (field : ∀ b x n t s, Compiled P b x →
      P (.field b n t s) (.getItem t x.constant s x.toBoxed (.string n s)))
    (item : ∀ b k x y t s, Compiled P b x → Compiled P k y →
      P (.item b k t s) (.getItem t (x.constant && y.constant) s x.toBoxed y.toBoxed))
    (call : ∀ n as xs t s, List.Forall₂ (Compiled P) as xs → xs.length ≤ 255 →
      P (.call n as t s) (.nativeCall n t s xs))
    (unary : ∀ o e x t s, Compiled P e x → P (.unary o e t s) (o.emitter s x))
    (binary : ∀ o l r x y t s, Compiled P l x → Compiled P r y → P (.binary o l r t s) (o.emitter t s x y))
    (conditional : ∀ c a b x y z t s, Compiled P c x → Compiled P a y → Compiled P b z →
      P (.conditional c a b t s) (.conditional t s x y z))
    (emptyList : ∀ s, P (.list [] s) (.emptyList s))
    (list : ∀ es xs s, es ≠ [] → List.Forall₂ (Compiled P) es xs → P (.list es s) (.list s xs))
    (emptyMap : ∀ s, P (.map [] s) (.emptyMap s))
    (map : ∀ es xs s, es ≠ [] →
      List.Forall₂ (fun (e : Expr × Expr) (x : Emitter × Emitter) => Compiled P e.1 x.1 ∧ Compiled P e.2 x.2) es xs →
      P (.map es s) (.map s xs))
    {e : Expr} {x : Emitter} (h : e.compile .global = .ok x) : P e x := by
  induction e using induct generalizing x with
  | literal v s =>
    rw [compile] at h
    cases h
    exact literal v s
  | var n t s =>
    rw [compile] at h
    cases h
    exact var n t s
  | field b n t s ih =>
    rw [compile] at h
    obtain ⟨y, hy, h⟩ := Except.of_bind_eq_ok h
    cases h
    exact field b y n t s ⟨hy, ih hy⟩
  | item b k t s ihb ihk =>
    rw [compile] at h
    obtain ⟨y, hy, h⟩ := Except.of_bind_eq_ok h
    obtain ⟨z, hz, h⟩ := Except.of_bind_eq_ok h
    cases h
    exact item b k y z t s ⟨hy, ihb hy⟩ ⟨hz, ihk hz⟩
  | call n as t s ih =>
    rw [compile] at h
    obtain ⟨xs, hxs, h⟩ := Except.of_bind_eq_ok h
    obtain ⟨ys, rfl, hys⟩ := forall₂_of_compileList hxs
    simp only [Environment.global] at h
    split at h
    · cases h
    · rename_i hlength
      cases h
      exact call n as _ t s (forall₂_of_mem hys fun e y he hy => ⟨hy, ih e he hy⟩) (Nat.not_lt.1 hlength)
  | unary o e t s ih =>
    rw [compile] at h
    obtain ⟨y, hy, h⟩ := Except.of_bind_eq_ok h
    cases h
    exact unary o e y t s ⟨hy, ih hy⟩
  | binary o l r t s ihl ihr =>
    rw [compile] at h
    obtain ⟨y, hy, h⟩ := Except.of_bind_eq_ok h
    obtain ⟨z, hz, h⟩ := Except.of_bind_eq_ok h
    cases h
    exact binary o l r y z t s ⟨hy, ihl hy⟩ ⟨hz, ihr hz⟩
  | conditional c a b t s ihc iha ihb =>
    rw [compile] at h
    obtain ⟨x, hx, h⟩ := Except.of_bind_eq_ok h
    obtain ⟨y, hy, h⟩ := Except.of_bind_eq_ok h
    obtain ⟨z, hz, h⟩ := Except.of_bind_eq_ok h
    cases h
    exact conditional c a b x y z t s ⟨hx, ihc hx⟩ ⟨hy, iha hy⟩ ⟨hz, ihb hz⟩
  | list es s ih =>
    rw [compile] at h
    obtain ⟨xs, hxs, h⟩ := Except.of_bind_eq_ok h
    obtain ⟨ys, rfl, hys⟩ := forall₂_of_compileList hxs
    cases hys with
    | nil =>
      cases h
      exact emptyList s
    | @cons e y es ys hy hys =>
      have hlist : (if (y :: ys).length < UInt32.size then Except.ok (Emitter.list s (y :: ys))
          else Except.error (CompileError.unsupported .longList s)) = .ok x := h
      split at hlist
      · cases hlist
        exact list (e :: es) (y :: ys) s (List.cons_ne_nil e es)
          (forall₂_of_mem (.cons hy hys) fun e y he hy => ⟨hy, ih e he hy⟩)
      · cases hlist
  | map es s ih =>
    rw [compile] at h
    obtain ⟨xs, hxs, h⟩ := Except.of_bind_eq_ok h
    obtain ⟨ys, rfl, hys⟩ := forall₂_of_compileEntries hxs
    cases h
    cases hys with
    | nil => exact emptyMap s
    | @cons e y es ys hy hys =>
      exact map (e :: es) (y :: ys) s (List.cons_ne_nil e es)
        (forall₂_of_mem (.cons hy hys) fun e y he hy => ⟨⟨hy.1, (ih e he).1 hy.1⟩, hy.2, (ih e he).2 hy.2⟩)

end Expr

end TemplateExpr
