import TemplateExpr.Proofs.Assembler.Layout
import TemplateExpr.Proofs.Compilation.Nodes
import TemplateExpr.Proofs.Emission.Script

/-!
# Hallmarks of nodes

Most directives of a compiled expression convert values or depend on the types that are known. The others are the
hallmarks of the node that they stem from (`Directive.hallmark?`, `Expr.hallmarks`): it pushes a literal or the name of
a field, reads a global, calls a native function, looks up an item, or jumps. From the hallmarks alone it can be told
which constants an expression needs and what it refers to.
-/

namespace TemplateExpr

/-! ### Hallmarks -/

/-- The directive, without the number of its label, if it is a hallmark. -/
def Directive.hallmark? : Directive → Option Directive
  | pushInt n => some (.pushInt n)
  | pushFloat x => some (.pushFloat x)
  | pushConstant v => some (.pushConstant v)
  | getGlobal name => some (.getGlobal name)
  | callNative name count => some (.callNative name count)
  | invoke f => if f = .getItem then some (.invoke .getItem) else none
  | jump kind _ => some (.jump kind 0)
  | _ => none

/-- The hallmarks that a node has in its code, without those of its operands. -/
def Expr.hallmarks : Expr → List Directive
  | literal (.int n) _ => [.pushInt n]
  | literal (.float x) _ => [.pushFloat x]
  | literal (.string s) _ => [.pushConstant (.string s)]
  | var n _ _ => [.getGlobal n]
  | field _ n _ _ => [.pushConstant (.string n), .invoke .getItem]
  | item .. => [.invoke .getItem]
  | call n as _ _ => [.callNative n as.length]
  | binary .and .. => [.jump .ifFalse 0, .jump .always 0]
  | binary .or .. => [.jump .ifTrue 0, .jump .always 0]
  | binary .orElse .. => [.jump .ifFalse 0]
  | conditional .. => [.jump .ifFalse 0, .jump .always 0]
  | _ => []

namespace Directive

theorem isStatic_hallmark? : Emitter.IsStatic hallmark? where
  shift d base := by cases d <;> rfl
  newLabel := rfl
  setSpan _ := rfl

/-- What depends on hallmarks alone. -/
def OfHallmark {β : Type} (f : Directive → Option β) : Prop := ∀ d, d.hallmark?.bind f = f d

theorem ofHallmark_constant? : OfHallmark constant? := by
  intro d
  cases d with
  | invoke f => cases f <;> rfl
  | _ => rfl

theorem ofHallmark_reference? : OfHallmark reference? := by
  intro d
  cases d with
  | invoke f => cases f <;> rfl
  | _ => rfl

/-- The kind of a jump. -/
def jumpKind? : Directive → Option JumpKind
  | jump kind _ => some kind
  | _ => none

theorem ofHallmark_jumpKind? : OfHallmark jumpKind? := by
  intro d
  cases d with
  | invoke f => cases f <;> rfl
  | _ => rfl

variable {β : Type} {f : Directive → Option β}

theorem OfHallmark.filterMap (h : OfHallmark f) (ds : List Directive) :
    (ds.filterMap hallmark?).filterMap f = ds.filterMap f := by
  rw [List.filterMap_filterMap]
  exact congrArg (List.filterMap · ds) (funext h)

/-- What is read off the script of an emitter, from the hallmarks in its code. -/
theorem OfHallmark.perm_script (h : OfHallmark f) {x : Emitter} {ds : List Directive}
    (hx : (x.directives.filterMap hallmark?).Perm ds) (a : Assembler) :
    ((x.script a).filterMap f).Perm (ds.filterMap f) := by
  rw [← h.filterMap, Emitter.filterMap_script isStatic_hallmark?]
  exact hx.filterMap f

end Directive

/-! ### What is known of the nodes -/

namespace Expr

/-- What a node refers to outside of the program. -/
def reference? : Expr → Option Reference
  | var n _ _ => some (.global n)
  | field .. | item .. => some .item
  | call n as _ _ => some (.native n as.length)
  | _ => none

variable {es : List Expr}

/-- One constant for each node that needs one. -/
theorem length_constants (h : ∀ e ∈ es, e.isOversized = false) :
    ((es.flatMap hallmarks).filterMap Directive.constant?).length = es.countP namesConstant := by
  induction es with
  | nil => rfl
  | cons e es ih =>
    have hrest := ih fun e he => h e (List.mem_cons_of_mem _ he)
    have hone : (e.hallmarks.filterMap Directive.constant?).length = if e.namesConstant then 1 else 0 := by
      cases e with
      | literal v s => cases v <;> rfl
      | call n as t s =>
        have hcount : as.length < 256 := by simpa [isOversized, Nat.lt_succ_iff] using h _ List.mem_cons_self
        simp [hallmarks, namesConstant, Directive.constant?, hcount]
      | binary o l r t s => cases o <;> rfl
      | _ => rfl
    rw [List.flatMap_cons, List.filterMap_append, List.length_append, hone, hrest, List.countP_cons, Nat.add_comm]

theorem filterMap_reference? (es : List Expr) :
    (es.flatMap hallmarks).filterMap Directive.reference? = es.filterMap reference? := by
  induction es with
  | nil => rfl
  | cons e es ih =>
    have hone : e.hallmarks.filterMap Directive.reference? = e.reference?.toList := by
      cases e with
      | literal v s => cases v <;> rfl
      | binary o l r t s => cases o <;> rfl
      | _ => rfl
    rw [List.flatMap_cons, List.filterMap_append, hone, ih, List.filterMap_cons]
    cases e.reference? <;> rfl

theorem filterMap_jumpKind? (h : ∀ e ∈ es, e.isBranch = false) :
    (es.flatMap hallmarks).filterMap Directive.jumpKind? = [] := by
  induction es with
  | nil => rfl
  | cons e es ih =>
    have hone : e.hallmarks.filterMap Directive.jumpKind? = [] := by
      have he := h e List.mem_cons_self
      cases e with
      | literal v s => cases v <;> rfl
      | conditional c a b t s => cases he
      | binary o l r t s => cases o <;> first | rfl | cases he
      | _ => rfl
    rw [List.flatMap_cons, List.filterMap_append, hone, ih fun e he => h e (List.mem_cons_of_mem _ he)]
    rfl

end Expr

end TemplateExpr
