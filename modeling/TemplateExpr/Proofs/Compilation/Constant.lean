import Mathlib
import TemplateExpr.Proofs.Compilation.Once
import TemplateExpr.Proofs.Machine.Correspondence

/-!
# Constant programs

A program is flagged as constant exactly if its expression has no variable and no call, in whatever operand, skipped
branch or element they may stand.

* (flag) Conversions keep the flag, and a node that combines others is constant if all of them are
  (`Expr.constant_of_compile`, by induction on the expression).
* (code) The code of such a program has no instruction that reads a global or calls a function
  (`Emitter.Makes.isExternal_eq_false`).
* (runs) So its runs are the same whatever the globals and the functions are, and make no call
  (`ExprRoot.constant_sound`).
-/

namespace TemplateExpr

/-! ### The flag of an emitter -/

namespace Emitter

variable (e left right : Emitter) (span : Span)

@[simp] theorem constant_make (representation : Representation) (type : StaticType) (constant : Bool) (labels : Nat)
    (body : List (Step Emitter)) : (make representation type constant span labels body).constant = constant := rfl

@[simp] theorem constant_andThen (representation : Representation) (type : StaticType) (tail : List Directive) :
    (e.andThen representation type tail).constant = e.constant := rfl

@[simp] theorem constant_binary (representation : Representation) (type : StaticType) (tail : List Directive) :
    (binary representation type span left right tail).constant = (left.constant && right.constant) := rfl

@[simp] theorem constant_comparison (tail : Directive) :
    (comparison span left right tail).constant = (left.constant && right.constant) := rfl

@[simp] theorem constant_unary (representation : Representation) (type : StaticType) (tail : List Directive) :
    (unary representation type span e tail).constant = e.constant := rfl

@[simp] theorem constant_toBoxed : e.toBoxed.constant = e.constant := by
  unfold toBoxed
  split <;> rfl

@[simp] theorem constant_toInt : e.toInt.constant = e.constant := by
  unfold toInt
  split <;> simp

@[simp] theorem constant_toFloat : e.toFloat.constant = e.constant := by
  unfold toFloat
  split <;> simp

@[simp] theorem constant_toBool : e.toBool.constant = e.constant := by
  unfold toBool
  split <;> simp

@[simp] theorem constant_toText : e.toText.constant = e.constant := by
  unfold toText
  split <;> simp

theorem constant_arithmetic (onInts onFloats : Opcode) (generic : RuntimeFunction) :
    (arithmetic onInts onFloats generic span left right).constant = (left.constant && right.constant) := by
  unfold arithmetic
  split
  · simp
  · split <;> simp

theorem constant_relation (onInts onFloats : Opcode) (generic : RuntimeFunction) (reversed : Bool) :
    (relation onInts onFloats generic reversed span left right).constant = (left.constant && right.constant) := by
  unfold relation
  repeat' split
  all_goals simp [Bool.and_comm]

theorem constant_stringEquality :
    (stringEquality span left right).constant = (left.constant && right.constant) := by
  unfold stringEquality
  repeat' split
  all_goals simp

theorem constant_equality : (equality span left right).constant = (left.constant && right.constant) := by
  unfold equality
  repeat' split
  all_goals simp [constant_stringEquality, Bool.and_comm]

theorem constant_plus : (plus span left right).constant = (left.constant && right.constant) := by
  unfold plus
  split
  · simp
  · exact constant_arithmetic ..

theorem constant_negate : (negate span e).constant = e.constant := by
  unfold negate
  repeat' split
  all_goals simp

end Emitter

theorem Literal.constant_emitter (v : Literal) (span : Span) : (v.emitter span).constant = true := by
  cases v <;> rfl

theorem UnaryOp.constant_emitter (op : UnaryOp) (span : Span) (x : Emitter) :
    (op.emitter span x).constant = x.constant := by
  cases op with
  | negate => exact x.constant_negate span
  | not => exact (Emitter.constant_unary ..).trans x.constant_toBool

/-- Every operator is constant exactly if both sides are, also those that may skip the right one. -/
theorem BinaryOp.constant_emitter (op : BinaryOp) (type : StaticType) (span : Span) (x y : Emitter) :
    (op.emitter type span x y).constant = (x.constant && y.constant) := by
  cases op with
  | add => exact x.constant_plus y span
  | sub | mul => exact x.constant_arithmetic y span ..
  | div => simp [BinaryOp.emitter, Emitter.divide]
  | mod => simp [BinaryOp.emitter, Emitter.remainder]
  | eq => exact x.constant_equality y span
  | ne => exact (Emitter.constant_unary ..).trans (x.constant_equality y span)
  | lt | le | gt | ge => exact x.constant_relation y span ..
  | and | or | orElse => rfl

/-! ### The flag of an expression -/

namespace Expr

/-- The nodes that refer to globals and functions. -/
def isExternal : Expr → Bool
  | var .. | call .. => true
  | _ => false

/-- Neither the expression nor a part of it is external. -/
def isClosed (e : Expr) : Bool := e.nodes.all fun n => !n.isExternal

/-- An expression is closed if its node is not external and its parts are closed. -/
theorem isClosed_of_nodes {e : Expr} (parts : List Expr) (hnodes : e.nodes = e :: parts.flatMap nodes)
    (hinternal : e.isExternal = false) : e.isClosed = parts.all isClosed := by
  rw [isClosed, hnodes, List.all_cons, hinternal, List.all_flatMap]
  rfl

private theorem all_constant {es : List Expr} {xs : List Emitter}
    (h : List.Forall₂ (fun (e : Expr) (x : Emitter) => x.constant = e.isClosed) es xs) :
    xs.all Emitter.constant = es.all isClosed := by
  induction h with
  | nil => rfl
  | cons hx _ ih => rw [List.all_cons, List.all_cons, hx, ih]

private theorem all_constants {es : List (Expr × Expr)} {xs : List (Emitter × Emitter)}
    (h : List.Forall₂ (fun (e : Expr × Expr) (x : Emitter × Emitter) =>
      x.1.constant = e.1.isClosed ∧ x.2.constant = e.2.isClosed) es xs) :
    (xs.all fun x => x.1.constant && x.2.constant) = (es.flatMap fun e => [e.1, e.2]).all isClosed := by
  induction h with
  | nil => rfl
  | cons hx _ ih =>
    rw [List.all_cons, List.flatMap_cons, List.all_append, ih, hx.1, hx.2]
    simp

/-- The emitter of an expression is constant exactly if no variable and no call is in the expression. -/
theorem constant_of_compile {e : Expr} {x : Emitter} (h : e.compile .global = .ok x) : x.constant = e.isClosed := by
  refine induct_compile (P := fun e x => x.constant = e.isClosed) ?literal ?var ?field ?item ?call ?unary ?binary
    ?conditional ?emptyList ?list ?emptyMap ?map h
  case literal => exact fun v s => v.constant_emitter s
  case var => exact fun n t s => rfl
  case field =>
    intro b y n t s hb
    rw [isClosed_of_nodes [b] (by simp [nodes]) rfl]
    simp [Emitter.getItem, hb.holds]
  case item =>
    intro b k y z t s hb hk
    rw [isClosed_of_nodes [b, k] (by simp [nodes]) rfl]
    simp [Emitter.getItem, hb.holds, hk.holds]
  case call => exact fun n as xs t s _ _ => rfl
  case unary =>
    intro o e y t s he
    rw [isClosed_of_nodes [e] (by simp [nodes]) rfl, o.constant_emitter, he.holds]
    simp
  case binary =>
    intro o l r y z t s hl hr
    rw [isClosed_of_nodes [l, r] (by simp [nodes]) rfl, o.constant_emitter, hl.holds, hr.holds]
    simp
  case conditional =>
    intro c a b x y z t s hc ha hb
    rw [isClosed_of_nodes [c, a, b] (by simp [nodes]) rfl]
    simp [Emitter.conditional, hc.holds, ha.holds, hb.holds, Bool.and_assoc]
  case emptyList => exact fun s => rfl
  case list =>
    intro es xs s _ hes
    rw [isClosed_of_nodes es (by simp [nodes]) rfl, ← all_constant (hes.imp fun e y hy => hy.holds)]
    rfl
  case emptyMap => exact fun s => rfl
  case map =>
    intro es xs s _ hes
    rw [isClosed_of_nodes (es.flatMap fun e => [e.1, e.2]) (by simp [nodes, List.flatMap_assoc]) rfl,
      ← all_constants (hes.imp fun e y hy => ⟨hy.1.holds, hy.2.holds⟩)]
    rfl

theorem isClosed_iff (e : Expr) : e.isClosed = true ↔ ∀ n ∈ e.nodes, n.isExternal = false := by
  simp [isClosed]

end Expr

/-! ### Programs without external instructions -/

/-- A variable or a function, which may be another one whenever the program runs. -/
def Reference.isExternal : Reference → Bool
  | global _ | native .. => true
  | item => false

theorem Expr.isExternal_of_reference? {e : Expr} {r : Reference} (h : e.reference? = some r) :
    e.isExternal = r.isExternal := by
  cases e <;> cases h <;> rfl

theorem Instruction.isExternal_of_reference? {b : Bytecode} {i : Instruction} {r : Reference}
    (h : b.reference? i = some r) : i.isExternal = r.isExternal := by
  obtain ⟨o, x⟩ := i
  cases o
  case getGlobal =>
    obtain ⟨name, -, rfl⟩ := Option.map_eq_some_iff.1 h
    rfl
  case callNative =>
    obtain ⟨name, -, rfl⟩ := Option.map_eq_some_iff.1 h
    rfl
  case invoke =>
    simp only [Bytecode.reference?] at h
    split at h <;> cases h
    rfl
  all_goals cases h

theorem Instruction.refers_of_isExternal {i : Instruction} (h : i.isExternal = true) : i.refers = true := by
  obtain ⟨o, x⟩ := i
  cases o
  case getGlobal | callNative => rfl
  all_goals cases h

namespace Emitter

variable {x : Emitter} {options : CompileOptions} {p : Program} {e : Expr}

/-- The code of a closed expression has no external instruction: it would refer to what some node refers to. -/
theorem Makes.isExternal_eq_false (h : x.Makes options p) (hx : e.compile .global = .ok x)
    (hclosed : e.isClosed = true) {q : Placed} (hq : q ∈ p.bytecode.split.1) :
    q.instruction.isExternal = false := by
  refine Bool.eq_false_iff.2 fun hexternal => ?_
  have hsome := (h.valid hx).isSome_reference? hq
  rw [Instruction.refers_of_isExternal hexternal] at hsome
  obtain ⟨r, hr⟩ := Option.isSome_iff_exists.1 hsome
  obtain ⟨ps, hps, hsplit⟩ := h.exists_lists
  rw [hsplit] at hq
  have hmem : r ∈ ps.filterMap fun q => p.bytecode.reference? q.instruction :=
    List.mem_filterMap.2 ⟨q, List.mem_toArray.1 hq, hr⟩
  obtain ⟨n, hn, hnr⟩ := List.mem_filterMap.1 ((h.perm_references hx hps).mem_iff.1 hmem)
  have hinternal := e.isClosed_iff.1 hclosed n hn
  rw [Expr.isExternal_of_reference? hnr, ← Instruction.isExternal_of_reference? hr, hexternal] at hinternal
  cases hinternal

end Emitter

namespace Bytecode.Valid

variable {σ τ : Type} {b : Bytecode}

/-- A valid program without external instructions runs the same for all globals and functions, and makes no call. -/
theorem run?_toHost (h : b.Valid) (hinternal : ∀ q ∈ b.split.1, q.instruction.isExternal = false)
    (globals globals' : OrderedMap Value) (limit : Nat) (natives : String → Option (Native σ))
    (natives' : String → Option (Native τ)) (fuel : Nat) (host : σ) (host' : τ) :
    (Context.mk b globals' limit).run? natives' fuel host' =
      ((Context.mk b globals limit).run? natives fuel host).map (Prod.map id (State.toHost host')) := by
  have hobserve : ((Context.mk b globals limit).run? natives fuel host).map (Prod.map id (State.toHost host')) =
      ((Context.mk b globals' limit).run? natives' fuel host').map (Prod.map id id) := by
    refine Context.runFrom?_observe (P := fun s => b.Expects s.ip s.stack.height)
      (fun s t hs hstep => step (c := ⟨b, globals, limit⟩) h hs hstep) ?_ h.initial fuel
    rintro s ⟨⟨q, hq, hoffset⟩, -⟩
    have hfetch : b.fetch s.ip = .instruction q.instruction := hoffset ▸ h.fetch hq
    exact Context.step_toHost hfetch (hinternal q hq) globals globals' limit natives natives' host'
  rw [Prod.map_id, Option.map_id] at hobserve
  exact hobserve.symm

end Bytecode.Valid

namespace ExprRoot

variable {root : ExprRoot} {options : CompileOptions} {p : Program}

/-- A program is flagged as constant exactly if its expression has no variable and no call. A run of such a program
ends, and it ends the same for all globals and all functions, none of which it has called. -/
theorem constant_sound (h : root.compile .global options = .ok p) :
    (p.constant = true ↔ ∀ n ∈ root.expr.nodes, n.isExternal = false) ∧
    (p.constant = true → ∀ limit, ∃ n result stack ip start,
      ∀ {σ : Type} (globals : OrderedMap Value) (natives : String → Option (Native σ)) (host : σ) (fuel : Nat),
        n ≤ fuel → (Context.mk p.bytecode globals limit).run? natives fuel host =
          some (result, ⟨stack, ip, start, host, #[]⟩)) := by
  obtain ⟨x, hx, hprogram⟩ := Except.of_bind_eq_ok h
  have hmakes := Emitter.makes_of_program hprogram
  have hconstant : p.constant = root.expr.isClosed := by
    obtain ⟨b, -, rfl⟩ := Emitter.eq_of_program hprogram
    exact Expr.constant_of_compile hx
  rw [hconstant]
  refine ⟨root.expr.isClosed_iff, fun hclosed limit => ?_⟩
  have hvalid := hmakes.valid hx
  -- a run on nothing shows how all runs end
  obtain ⟨result, last, hrun, -⟩ := hvalid.exists_run? (c := ⟨p.bytecode, .empty, limit⟩) (hmakes.isForward hx)
    (fun _ => none) ()
  refine ⟨p.bytecode.split.1.size, result, last.stack, last.ip, last.start,
    fun globals natives host fuel hfuel => ?_⟩
  rw [hvalid.run?_toHost (fun q hq => hmakes.isExternal_eq_false hx hclosed hq) .empty globals limit (fun _ => none)
    natives fuel () host, hrun fuel hfuel]
  rfl

/-- `[1, 2 / 0][false ? 0 : 1]`, which divides floats. -/
def closedItem : ExprRoot :=
  .ofExpr (.item
    (.list [.literal (.int 1) ⟨1, 2⟩,
      .binary .div (.literal (.int 2) ⟨4, 5⟩) (.literal (.int 0) ⟨8, 9⟩) (.known .float) ⟨4, 9⟩] ⟨0, 10⟩)
    (.conditional (.literal (.bool false) ⟨11, 16⟩) (.literal (.int 0) ⟨19, 20⟩) (.literal (.int 1) ⟨23, 24⟩)
      (.known .int) ⟨11, 24⟩) .unknown ⟨0, 25⟩)

/-- `true or name`, of which the variable is never read. -/
def skippedName : ExprRoot :=
  .ofExpr (.binary .or (.literal (.bool true) ⟨0, 4⟩) (.var "name" .unknown ⟨8, 12⟩) (.known .bool) ⟨0, 12⟩)

/-- The item is constant and found on any machine; the other expression is not constant, though its variable makes no
difference. -/
theorem constant_sound_closedItem :
    (∃ p, closedItem.compile .global {} = .ok p ∧ p.constant = true ∧ ∃ n result stack ip start,
      ∀ {σ : Type} (globals : OrderedMap Value) (natives : String → Option (Native σ)) (host : σ) (fuel : Nat),
        n ≤ fuel → (Context.mk p.bytecode globals 4).run? natives fuel host =
          some (result, ⟨stack, ip, start, host, #[]⟩)) ∧
    ∃ p, skippedName.compile .global {} = .ok p ∧ p.constant = false := by
  obtain ⟨p, hp, -⟩ : ∃ p, closedItem.compile .global {} = .ok p ∧ p.maxStackDepth = 3 := exists_of_map (by cbv)
  obtain ⟨q, hq, -⟩ : ∃ q, skippedName.compile .global {} = .ok q ∧ q.maxStackDepth = 1 := exists_of_map (by cbv)
  have hconstant := (constant_sound hp).1.2 (by decide)
  refine ⟨⟨p, hp, hconstant, (constant_sound hp).2 hconstant 4⟩, q, hq, Bool.eq_false_iff.2 fun hflag => ?_⟩
  have hname := (constant_sound hq).1.1 hflag (.var "name" .unknown ⟨8, 12⟩) (.tail _ (.tail _ (.head _)))
  cases hname

end ExprRoot

end TemplateExpr
