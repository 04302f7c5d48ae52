import Mathlib.Data.List.Perm.Basic
import TemplateExpr.Proofs.Compilation.Nodes

/-!
# Refusal

Which node ends a compilation. Operands are compiled from left to right, and then the node that has them
(`Expr.postorder`). If an environment refuses some nodes for what they are and takes all others (`Refusals`), the first
node in this order that is refused ends the compilation, with its construct and its span (`Expr.compile_reports`). That
it would be skipped when the program runs makes no difference.

The environments meant are those with nothing in scope, with the globals of the machine, and with some variables only
(`Environment.Lacks`).
-/

namespace TemplateExpr

/-! ### Order of compilation -/

namespace Expr

mutual

/-- The nodes of an expression in the order in which they are compiled. -/
def postorder : Expr → List Expr
  | literal v s => [literal v s]
  | var n t s => [var n t s]
  | field b n t s => postorder b ++ [field b n t s]
  | item b k t s => postorder b ++ (postorder k ++ [item b k t s])
  | call n as t s => postorderList as ++ [call n as t s]
  | unary o e t s => postorder e ++ [unary o e t s]
  | binary o l r t s => postorder l ++ (postorder r ++ [binary o l r t s])
  | conditional c a b t s => postorder c ++ (postorder a ++ (postorder b ++ [conditional c a b t s]))
  | list es s => postorderList es ++ [list es s]
  | map es s => postorderEntries es ++ [map es s]

def postorderList : List Expr → List Expr
  | [] => []
  | e :: es => postorder e ++ postorderList es

def postorderEntries : List (Expr × Expr) → List Expr
  | [] => []
  | (k, v) :: es => postorder k ++ (postorder v ++ postorderEntries es)

end

@[simp] theorem postorderList_eq (es : List Expr) : postorderList es = es.flatMap postorder := by
  induction es with
  | nil => rfl
  | cons e es ih => rw [postorderList, ih, List.flatMap_cons]

@[simp] theorem postorderEntries_eq (es : List (Expr × Expr)) :
    postorderEntries es = es.flatMap fun e => e.1.postorder ++ e.2.postorder := by
  induction es with
  | nil => rfl
  | cons e es ih => rw [postorderEntries, ih, List.flatMap_cons, List.append_assoc]

theorem perm_postorder (e : Expr) : e.postorder.Perm e.nodes := by
  induction e using induct with
  | literal v s => exact .refl _
  | var n t s => exact .refl _
  | field b n t s ih =>
    rw [postorder, nodes]
    exact (List.perm_append_singleton _ _).trans (ih.cons _)
  | item b k t s ihb ihk =>
    rw [postorder, nodes, ← List.append_assoc]
    exact (List.perm_append_singleton _ _).trans ((ihb.append ihk).cons _)
  | call n as t s ih =>
    rw [postorder, nodes, postorderList_eq, nodesList_eq]
    exact (List.perm_append_singleton _ _).trans ((List.Perm.flatMap_left _ ih).cons _)
  | unary o e t s ih =>
    rw [postorder, nodes]
    exact (List.perm_append_singleton _ _).trans (ih.cons _)
  | binary o l r t s ihl ihr =>
    rw [postorder, nodes, ← List.append_assoc]
    exact (List.perm_append_singleton _ _).trans ((ihl.append ihr).cons _)
  | conditional c a b t s ihc iha ihb =>
    rw [postorder, nodes, ← List.append_assoc, ← List.append_assoc]
    exact (List.perm_append_singleton _ _).trans (((ihc.append iha).append ihb).cons _)
  | list es s ih =>
    rw [postorder, nodes, postorderList_eq, nodesList_eq]
    exact (List.perm_append_singleton _ _).trans ((List.Perm.flatMap_left _ ih).cons _)
  | map es s ih =>
    rw [postorder, nodes, postorderEntries_eq, nodesEntries_eq]
    exact (List.perm_append_singleton _ _).trans
      ((List.Perm.flatMap_left _ fun e he => (ih e he).1.append (ih e he).2).cons _)

end Expr

/-! ### What is refused -/

/-- What an environment refuses, and as what construct. -/
structure Refusals where
  variableRef : String → Option Construct
  field : Option Construct
  item : Option Construct
  /-- A call may be refused for its number of arguments. -/
  call : Nat → Option Construct

namespace Refusals

/-- All that refers to something. -/
def all : Refusals := ⟨fun _ => some .variable, some .field, some .item, fun _ => some .call⟩

/-- Only calls with more arguments than a byte can count. -/
def longCalls : Refusals := ⟨fun _ => none, none, none, fun n => if 255 < n then some .longCall else none⟩

/-- All but some variables. -/
def allBut (refused : String → Option Construct) : Refusals := { all with variableRef := refused }

/-- The construct as which a node is refused. A list literal may be too long in every environment. -/
def of? (r : Refusals) : Expr → Option Construct
  | .var n _ _ => r.variableRef n
  | .field .. => r.field
  | .item .. => r.item
  | .call _ as _ _ => r.call as.length
  | .list es _ => if UInt32.size ≤ es.length then some .longList else none
  | _ => none

/-- The error of the first node that is refused. -/
def first? (r : Refusals) (ns : List Expr) : Option CompileError :=
  ns.findSome? fun n => (r.of? n).map (.unsupported · n.span)

end Refusals

/-- A compilation fails with the error, or it succeeds if there is none. -/
def Reports {α : Type} (r : Except CompileError α) : Option CompileError → Prop
  | some err => r = .error err
  | none => ∃ a, r = .ok a

/-- An environment refuses just these nodes. -/
structure Environment.Refuses (env : Environment) (r : Refusals) : Prop where
  variableRef : ∀ n t s, Reports (env.variableRef n t s) ((r.variableRef n).map (.unsupported · s))
  field : ∀ x n t s, Reports (env.field x n t s) (r.field.map (.unsupported · s))
  item : ∀ x y t s, Reports (env.item x y t s) (r.item.map (.unsupported · s))
  call : ∀ n xs t s, Reports (env.call n xs t s) ((r.call xs.length).map (.unsupported · s))

/-- Nothing is in scope, or the globals of the machine are, or only variables and of these not all. -/
inductive Environment.Lacks : Environment → Refusals → Prop
  | nothing : Lacks .empty .all
  | globals : Lacks .global .longCalls
  | someVariables {env : Environment} {refused : String → Option Construct} :
    (∀ n t s, Reports (env.variableRef n t s) ((refused n).map (.unsupported · s))) →
    env.field = Environment.empty.field → env.item = Environment.empty.item → env.call = Environment.empty.call →
    Lacks env (.allBut refused)

/-! ### The first refusal -/

namespace Reports

variable {α β : Type} {r : Except CompileError α} {k : α → Except CompileError β} {o p : Option CompileError}

/-- Of two steps, the second is taken if the first does not fail. -/
theorem bind (h : Reports r o) (hk : ∀ a, r = .ok a → Reports (k a) p) : Reports (r >>= k) (o.or p) := by
  cases o with
  | some err =>
    cases h
    exact rfl
  | none =>
    obtain ⟨a, rfl⟩ := h
    exact hk a rfl

theorem eq_error_iff (h : Reports r o) (err : CompileError) : r = .error err ↔ o = some err := by
  cases o with
  | some err' =>
    cases h
    simp
  | none =>
    obtain ⟨a, rfl⟩ := h
    simp

end Reports

namespace Refusals

variable (r : Refusals)

theorem first?_append (ns ms : List Expr) : r.first? (ns ++ ms) = (r.first? ns).or (r.first? ms) :=
  List.findSome?_append

theorem first?_singleton (n : Expr) : r.first? [n] = (r.of? n).map (.unsupported · n.span) :=
  List.findSome?_singleton

theorem first?_eq_some_iff {ns : List Expr} {err : CompileError} : r.first? ns = some err ↔
    ∃ before n after c, ns = before ++ n :: after ∧ (∀ m ∈ before, r.of? m = none) ∧ r.of? n = some c ∧
      err = .unsupported c n.span := by
  rw [first?, List.findSome?_eq_some_iff]
  constructor
  · rintro ⟨before, n, after, hsplit, hn, hbefore⟩
    obtain ⟨c, hc, rfl⟩ := Option.map_eq_some_iff.1 hn
    exact ⟨before, n, after, c, hsplit, fun m hm => Option.map_eq_none_iff.1 (hbefore m hm), hc, rfl⟩
  · rintro ⟨before, n, after, c, hsplit, hbefore, hc, rfl⟩
    exact ⟨before, n, after, hsplit, by rw [hc]; rfl, fun m hm => by rw [hbefore m hm]; rfl⟩

theorem first?_eq_none_iff {ns : List Expr} : r.first? ns = none ↔ ∀ n ∈ ns, r.of? n = none := by
  rw [first?, List.findSome?_eq_none_iff]
  exact forall₂_congr fun n _ => Option.map_eq_none_iff

end Refusals

namespace Environment

theorem empty_refuses : empty.Refuses .all where
  variableRef _ _ _ := rfl
  field _ _ _ _ := rfl
  item _ _ _ _ := rfl
  call _ _ _ _ := rfl

theorem global_refuses : global.Refuses .longCalls where
  variableRef _ _ _ := ⟨_, rfl⟩
  field _ _ _ _ := ⟨_, rfl⟩
  item _ _ _ _ := ⟨_, rfl⟩
  call n xs t s := by
    simp only [global, Refusals.longCalls]
    split
    · exact rfl
    · exact ⟨_, rfl⟩

theorem Lacks.refuses {env : Environment} {r : Refusals} (h : env.Lacks r) : env.Refuses r := by
  cases h with
  | nothing => exact empty_refuses
  | globals => exact global_refuses
  | someVariables hvariable hfield hitem hcall =>
    exact ⟨hvariable, hfield ▸ empty_refuses.field, hitem ▸ empty_refuses.item, hcall ▸ empty_refuses.call⟩

/-- A table has just the variables for which it has an emitter. -/
theorem ofTable_lacks (table : String → Option (Span → Emitter)) :
    (ofTable table).Lacks (.allBut fun n => if (table n).isSome then none else some (.unknownName n)) := by
  refine .someVariables (fun n t s => ?_) rfl rfl rfl
  simp only [ofTable]
  cases table n with
  | some emitter => exact ⟨_, rfl⟩
  | none => exact rfl

end Environment

namespace Expr

variable {env : Environment} {r : Refusals} {es : List Expr}

private theorem reports_compileList (h : ∀ e ∈ es, Reports (e.compile env) (r.first? e.postorder))
    (done : List Emitter) : Reports (compileList env es done) (r.first? (es.flatMap postorder)) := by
  induction es generalizing done with
  | nil => exact ⟨_, compileList.eq_1 ..⟩
  | cons e es ih =>
    have hstep : compileList env (e :: es) done = e.compile env >>= fun x => compileList env es (x :: done) := by
      rw [compileList]
      cases e.compile env <;> rfl
    rw [hstep, List.flatMap_cons, Refusals.first?_append]
    exact (h e List.mem_cons_self).bind fun x _ => ih (fun e he => h e (List.mem_cons_of_mem _ he)) _

private theorem reports_compileEntries {es : List (Expr × Expr)}
    (h : ∀ e ∈ es, Reports (e.1.compile env) (r.first? e.1.postorder) ∧
      Reports (e.2.compile env) (r.first? e.2.postorder))
    (done : List (Emitter × Emitter)) :
    Reports (compileEntries env es done) (r.first? (es.flatMap fun e => e.1.postorder ++ e.2.postorder)) := by
  induction es generalizing done with
  | nil => exact ⟨_, compileEntries.eq_1 ..⟩
  | cons e es ih =>
    obtain ⟨k, v⟩ := e
    have hstep : compileEntries env ((k, v) :: es) done =
        k.compile env >>= fun x => v.compile env >>= fun y => compileEntries env es ((x, y) :: done) := by
      rw [compileEntries]
      cases k.compile env with
      | error err => rfl
      | ok x => cases v.compile env <;> rfl
    obtain ⟨hk, hv⟩ := h (k, v) List.mem_cons_self
    rw [hstep, List.flatMap_cons, List.append_assoc, Refusals.first?_append, Refusals.first?_append]
    exact hk.bind fun x _ => hv.bind fun y _ => ih (fun e he => h e (List.mem_cons_of_mem _ he)) _

private theorem length_of_compileList {xs : List Emitter} (h : compileList env es [] = .ok xs) :
    xs.length = es.length := by
  obtain ⟨ys, rfl, hys⟩ := forall₂_of_compileList h
  exact hys.length_eq.symm

private theorem reports_listEmitter {s : Span} {xs : List Emitter} (hlength : xs.length = es.length) :
    Reports (listEmitter s xs) (r.first? [list es s]) := by
  rw [Refusals.first?_singleton, Refusals.of?, listEmitter, ← hlength]
  cases xs with
  | nil => exact ⟨_, rfl⟩
  | cons x xs =>
    rw [if_neg (show ¬ (x :: xs).isEmpty = true from Bool.false_ne_true)]
    by_cases hlong : UInt32.size ≤ (x :: xs).length
    · rw [if_pos hlong, if_neg (by omega)]
      exact rfl
    · rw [if_neg hlong, if_pos (by omega)]
      exact ⟨_, rfl⟩

/-- A compilation fails with the error of the first node that is refused, if there is one. -/
theorem compile_reports (h : env.Refuses r) (e : Expr) : Reports (e.compile env) (r.first? e.postorder) := by
  induction e using induct with
  | literal v s => exact ⟨_, compile.eq_1 ..⟩
  | var n t s =>
    rw [compile, postorder, Refusals.first?_singleton]
    exact h.variableRef n t s
  | field b n t s ih =>
    rw [compile, postorder, Refusals.first?_append, Refusals.first?_singleton]
    exact ih.bind fun x _ => h.field x n t s
  | item b k t s ihb ihk =>
    rw [compile, postorder, Refusals.first?_append, Refusals.first?_append, Refusals.first?_singleton]
    exact ihb.bind fun x _ => ihk.bind fun y _ => h.item x y t s
  | call n as t s ih =>
    rw [compile, postorder, postorderList_eq, Refusals.first?_append, Refusals.first?_singleton]
    refine (reports_compileList ih []).bind fun xs hxs => ?_
    rw [Refusals.of?, ← length_of_compileList hxs]
    exact h.call n xs t s
  | unary o e t s ih =>
    rw [compile, postorder, Refusals.first?_append]
    exact ih.bind fun x _ => ⟨_, rfl⟩
  | binary o l r t s ihl ihr =>
    rw [compile, postorder, Refusals.first?_append, Refusals.first?_append]
    exact ihl.bind fun x _ => ihr.bind fun y _ => ⟨_, rfl⟩
  | conditional c a b t s ihc iha ihb =>
    rw [compile, postorder, Refusals.first?_append, Refusals.first?_append, Refusals.first?_append]
    exact ihc.bind fun x _ => iha.bind fun y _ => ihb.bind fun z _ => ⟨_, rfl⟩
  | list es s ih =>
    rw [compile, postorder, postorderList_eq, Refusals.first?_append]
    exact (reports_compileList ih []).bind fun xs hxs => reports_listEmitter (length_of_compileList hxs)
  | map es s ih =>
    rw [compile, postorder, postorderEntries_eq, Refusals.first?_append]
    exact (reports_compileEntries ih []).bind fun xs _ => ⟨_, rfl⟩

/-! ### Which expressions are accepted -/

/-- A compilation succeeds if no node is oversized, and else refuses one. -/
def Accepts {α : Type} (r : Except CompileError α) (ns : List Expr) : Prop :=
  match r with
  | .ok _ => ∀ n ∈ ns, n.isOversized = false
  | .error err => (∃ c s, err = .unsupported c s) ∧ ∃ n ∈ ns, n.isOversized = true

private theorem of?_longCalls (n : Expr) : (Refusals.longCalls.of? n).isSome = n.isOversized := by
  cases n with
  | call n as t s => simp [Refusals.of?, Refusals.longCalls, isOversized, apply_ite Option.isSome]
  | list es s => simp [Refusals.of?, isOversized, apply_ite Option.isSome]
  | _ => rfl

/-- An expression is accepted exactly if none of its nodes is oversized. -/
theorem accepts_compile (e : Expr) : Accepts (e.compile .global) e.nodes := by
  have hreports := compile_reports Environment.global_refuses e
  cases hfirst : Refusals.longCalls.first? e.postorder with
  | none =>
    rw [hfirst] at hreports
    obtain ⟨x, hx⟩ := hreports
    rw [hx]
    intro n hn
    rw [← of?_longCalls, (Refusals.first?_eq_none_iff _).1 hfirst n (e.perm_postorder.mem_iff.2 hn)]
    rfl
  | some err =>
    rw [hfirst] at hreports
    obtain ⟨before, n, after, c, hsplit, -, hc, rfl⟩ := (Refusals.first?_eq_some_iff _).1 hfirst
    have hn : n ∈ e.postorder := hsplit ▸ List.mem_append_cons_self
    rw [show e.compile .global = _ from hreports]
    exact ⟨⟨_, _, rfl⟩, n, e.perm_postorder.mem_iff.1 hn, by rw [← of?_longCalls, hc]; rfl⟩

/-! ### Which node is told -/

/-- A compilation fails exactly if a node is refused, and then with the construct and the span of the first in the order
of compilation; and so does the compilation of a whole program. -/
theorem compile_eq_error_iff (h : env.Lacks r) (e : Expr) :
    ((∃ err, e.compile env = .error err) ↔ ∃ n ∈ e.nodes, (r.of? n).isSome = true) ∧
      (∀ err, e.compile env = .error err ↔ ∃ before n after c, e.postorder = before ++ n :: after ∧
        (∀ m ∈ before, r.of? m = none) ∧ r.of? n = some c ∧ err = .unsupported c n.span) ∧
      ∀ err span options, e.compile env = .error err → ExprRoot.compile env options ⟨e, span⟩ = .error err := by
  have hreports := compile_reports h.refuses e
  refine ⟨?_, fun err => (hreports.eq_error_iff err).trans (Refusals.first?_eq_some_iff r),
    fun err span options herr => ?_⟩
  · have hfails : (∃ err, e.compile env = .error err) ↔ r.first? e.postorder ≠ none := by
      simp only [hreports.eq_error_iff, Option.ne_none_iff_exists']
    rw [hfails, ne_eq, Refusals.first?_eq_none_iff]
    simp [e.perm_postorder.mem_iff, Option.isSome_iff_ne_none]
  · rw [ExprRoot.compile, herr]
    rfl

/-- `n ? f(not n, y.a) : [x]`. -/
def refusedConditional : Expr :=
  .conditional (.var "n" .unknown ⟨0, 1⟩)
    (.call "f" [.unary .not (.var "n" .unknown ⟨10, 11⟩) .unknown ⟨6, 11⟩,
      .field (.var "y" .unknown ⟨13, 14⟩) "a" .unknown ⟨13, 16⟩] .unknown ⟨4, 17⟩)
    (.list [.var "x" .unknown ⟨21, 22⟩] ⟨20, 23⟩) .unknown ⟨0, 23⟩

/-- If only `n` is in scope, the lookup of the field, the call and `x` are refused too, but `y` is the first. -/
theorem compile_refusedConditional :
    refusedConditional.compile (.ofTable fun name => if name = "n" then some (Emitter.int 5) else none) =
      .error (.unsupported (.unknownName "y") ⟨13, 14⟩) := by
  refine ((compile_eq_error_iff (Environment.ofTable_lacks _) refusedConditional).2.1 _).2 ?_
  refine ⟨[.var "n" .unknown ⟨0, 1⟩, .var "n" .unknown ⟨10, 11⟩,
      .unary .not (.var "n" .unknown ⟨10, 11⟩) .unknown ⟨6, 11⟩],
    .var "y" .unknown ⟨13, 14⟩, _, _, rfl, ?_, rfl, rfl⟩
  intro m hm
  rw [List.mem_cons, List.mem_cons, List.mem_singleton] at hm
  obtain rfl | rfl | rfl := hm <;> rfl

end Expr

end TemplateExpr
