import TemplateExpr.Proofs.Compilation.Emitter

/-!
# Nodes

The nodes of an expression (`Expr.nodes`), and what is asked of a node alone: whether it needs a constant of the pool,
whether it is too long for the operands of its instruction, and whether it chooses between its operands.
-/

namespace TemplateExpr

namespace Expr

mutual

/-- The nodes of an expression, from itself downwards. -/
def nodes : Expr → List Expr
  | literal v s => [literal v s]
  | var n t s => [var n t s]
  | field b n t s => field b n t s :: nodes b
  | item b k t s => item b k t s :: (nodes b ++ nodes k)
  | call n as t s => call n as t s :: nodesList as
  | unary o e t s => unary o e t s :: nodes e
  | binary o l r t s => binary o l r t s :: (nodes l ++ nodes r)
  | conditional c a b t s => conditional c a b t s :: (nodes c ++ nodes a ++ nodes b)
  | list es s => list es s :: nodesList es
  | map es s => map es s :: nodesEntries es

def nodesList : List Expr → List Expr
  | [] => []
  | e :: es => nodes e ++ nodesList es

def nodesEntries : List (Expr × Expr) → List Expr
  | [] => []
  | (k, v) :: es => nodes k ++ nodes v ++ nodesEntries es

end

@[simp] theorem nodesList_eq (es : List Expr) : nodesList es = es.flatMap nodes := by
  induction es with
  | nil => rfl
  | cons e es ih => rw [nodesList, ih, List.flatMap_cons]

@[simp] theorem nodesEntries_eq (es : List (Expr × Expr)) :
    nodesEntries es = es.flatMap fun e => e.1.nodes ++ e.2.nodes := by
  induction es with
  | nil => rfl
  | cons e es ih => rw [nodesEntries, ih, List.flatMap_cons]

/-- Induction on an expression all of whose nodes have a property: in every case the node itself has it. -/
theorem induct_nodes {Q P : Expr → Prop} (literal : ∀ v s, Q (.literal v s) → P (.literal v s))
    (var : ∀ n t s, Q (.var n t s) → P (.var n t s)) (field : ∀ b n t s, Q (.field b n t s) → P b → P (.field b n t s))
    (item : ∀ b k t s, Q (.item b k t s) → P b → P k → P (.item b k t s))
    (call : ∀ n as t s, Q (.call n as t s) → (∀ a ∈ as, P a) → P (.call n as t s))
    (unary : ∀ o e t s, Q (.unary o e t s) → P e → P (.unary o e t s))
    (binary : ∀ o l r t s, Q (.binary o l r t s) → P l → P r → P (.binary o l r t s))
    (conditional : ∀ c a b t s, Q (.conditional c a b t s) → P c → P a → P b → P (.conditional c a b t s))
    (list : ∀ es s, Q (.list es s) → (∀ e ∈ es, P e) → P (.list es s))
    (map : ∀ es s, Q (.map es s) → (∀ e ∈ es, P e.1 ∧ P e.2) → P (.map es s)) {e : Expr}
    (h : ∀ n ∈ e.nodes, Q n) : P e := by
  have hself {e : Expr} (h : ∀ n ∈ e.nodes, Q n) : Q e := h e (by cases e <;> exact List.mem_cons_self)
  induction e using induct with
  | literal v s => exact literal v s (hself h)
  | var n t s => exact var n t s (hself h)
  | field b n t s ih => exact field b n t s (hself h) (ih fun m hm => h m (by simp [nodes, hm]))
  | item b k t s ihb ihk =>
    exact item b k t s (hself h) (ihb fun m hm => h m (by simp [nodes, hm])) (ihk fun m hm => h m (by simp [nodes, hm]))
  | call n as t s ih =>
    refine call n as t s (hself h) fun a ha => ih a ha fun m hm => h m ?_
    rw [nodes, nodesList_eq]
    exact List.mem_cons_of_mem _ (List.mem_flatMap.2 ⟨a, ha, hm⟩)
  | unary o e t s ih => exact unary o e t s (hself h) (ih fun m hm => h m (by simp [nodes, hm]))
  | binary o l r t s ihl ihr =>
    exact binary o l r t s (hself h) (ihl fun m hm => h m (by simp [nodes, hm]))
      (ihr fun m hm => h m (by simp [nodes, hm]))
  | conditional c a b t s ihc iha ihb =>
    exact conditional c a b t s (hself h) (ihc fun m hm => h m (by simp [nodes, hm]))
      (iha fun m hm => h m (by simp [nodes, hm])) (ihb fun m hm => h m (by simp [nodes, hm]))
  | list es s ih =>
    refine list es s (hself h) fun e he => ih e he fun m hm => h m ?_
    rw [nodes, nodesList_eq]
    exact List.mem_cons_of_mem _ (List.mem_flatMap.2 ⟨e, he, hm⟩)
  | map es s ih =>
    have hbelow : ∀ e ∈ es, ∀ m ∈ e.1.nodes ++ e.2.nodes, Q m := fun e he m hm => h m (by
      rw [nodes, nodesEntries_eq]
      exact List.mem_cons_of_mem _ (List.mem_flatMap.2 ⟨e, he, hm⟩))
    exact map es s (hself h) fun e he => ⟨(ih e he).1 fun m hm => hbelow e he m (List.mem_append_left _ hm),
      (ih e he).2 fun m hm => hbelow e he m (List.mem_append_right _ hm)⟩

/-- Literals that are constants of the pool, and nodes that have a name there. -/
def namesConstant : Expr → Bool
  | literal (.int _) _ | literal (.float _) _ | literal (.string _) _ => true
  | var .. | field .. | call .. => true
  | _ => false

/-- Calls with too many arguments, and list literals with too many elements, for the operands of their instructions. -/
def isOversized : Expr → Bool
  | call _ as _ _ => decide (255 < as.length)
  | list es _ => decide (UInt32.size ≤ es.length)
  | _ => false

/-- The nodes that choose between their operands. -/
def isBranch : Expr → Bool
  | binary .and .. | binary .or .. | binary .orElse .. | conditional .. => true
  | _ => false

end Expr

end TemplateExpr
