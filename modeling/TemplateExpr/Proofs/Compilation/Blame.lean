import TemplateExpr.Proofs.Compilation.Correct
import TemplateExpr.Proofs.Emission.Trace

/-!
# Which node a command is blamed on

Every command of a compiled expression stems from a node, and an error at the command is told with that node's span
(`Expr.Blames`). What loads a leaf is blamed on the leaf, and what a node does with its operands on the node. A
conversion is blamed on the operand that is converted, whichever node needs it (`Expr.BlamesConverted`).

The debug table tells just this (`ExprRoot.debug_of_compile`): it has an entry for each instruction, in the order of the
code, and whoever asks for a byte of an instruction gets the span of its node. Only the halt belongs to no node.
-/

namespace TemplateExpr

/-! ### Commands of nodes -/

/-- What an operand is converted by. -/
def Command.conversions : List Command :=
  [.plain .boxInt, .plain .boxFloat, .plain .boxBool, .plain .unboxInt, .plain .unboxFloat, .plain .intToFloat,
    .plain .intToBool, .plain .floatToBool, .plain .intToString, .plain .floatToString, .plain .boolToString,
    .runtime .truthy, .runtime .coerceToString]

def Literal.load : Literal → Command
  | null => .plain .pushNull
  | bool b => .plain (if b then .pushTrue else .pushFalse)
  | int n => ⟨.constInt, .constant (.int n)⟩
  | float x => ⟨.constFloat, .constant (.float x)⟩
  | string s => ⟨.constant, .constant (.string s)⟩

/-- What an operator can be carried out by, once it has its operand. -/
def UnaryOp.ways : UnaryOp → List Command
  | .negate => [.plain .intNeg, .plain .floatNeg, .runtime .negate]
  | .not => [.plain .not]

namespace BinaryOp

/-- What two operands can be compared by for equality. -/
def equalities : List Command :=
  [.plain .intEq, .plain .floatEq, .runtime .stringEquals, .runtime .stringEqualsAsNumber, .runtime .genericEquals]

/-- What an operator can be carried out by, once it has both operands. There is nothing for those that choose one. -/
def ways : BinaryOp → List (List Command)
  | add => [[.plain .intAdd], [.plain .floatAdd], [.runtime .plus], [.runtime .stringConcat]]
  | sub => [[.plain .intSub], [.plain .floatSub], [.runtime .minus]]
  | mul => [[.plain .intMul], [.plain .floatMul], [.runtime .times]]
  | div => [[.plain .floatDiv]]
  | mod => [[.plain .intRem]]
  | eq => equalities.map fun c => [c]
  | ne => equalities.map fun c => [c, .plain .not]
  | lt => [[.plain .intLt], [.plain .floatLt], [.runtime .lessThan]]
  | le => [[.plain .intLe], [.plain .floatLe], [.runtime .lessThanOrEqual]]
  | gt => [[.plain .intGt], [.plain .floatGt], [.runtime .lessThan]]
  | ge => [[.plain .intGe], [.plain .floatGe], [.runtime .lessThanOrEqual]]
  | and | or | orElse => []

/-- Whether the right operand is evaluated first. For `>` and `>=` the runtime library is asked the other way round, and
in an equality a string comes first. -/
def swaps (left right : StaticType) : BinaryOp → Bool
  | gt | ge => !(left.isNumber && right.isNumber)
  | eq | ne => left != .known .string && right == .known .string
  | _ => false

/-- The operands in the order in which they are evaluated. -/
def operands (l r : Expr) (o : BinaryOp) : Expr × Expr :=
  if o.swaps l.staticType r.staticType then (r, l) else (l, r)

end BinaryOp

/-! ### Blame -/

namespace Expr

mutual

/-- The code of an expression, each command with the span of the node that it is blamed on. -/
inductive Blames : Expr → List (Command × Span) → Prop
  | literal (v : Literal) (s : Span) : Blames (.literal v s) [(v.load, s)]
  | var (n : String) (t : StaticType) (s : Span) : Blames (.var n t s) [(⟨.getGlobal, .constant (.string n)⟩, s)]
  | field {b : Expr} {us : List (Command × Span)} (n : String) (t : StaticType) (s : Span) : BlamesConverted b us →
    Blames (.field b n t s) (us ++ [(⟨.constant, .constant (.string n)⟩, s), (.runtime .getItem, s)])
  | item {b k : Expr} {us vs : List (Command × Span)} (t : StaticType) (s : Span) : BlamesConverted b us →
    BlamesConverted k vs → Blames (.item b k t s) (us ++ (vs ++ [(.runtime .getItem, s)]))
  | call {as : List Expr} {uss : List (List (Command × Span))} (n : String) (t : StaticType) (s : Span) :
    List.Forall₂ BlamesConverted as uss →
    Blames (.call n as t s) (uss.flatten ++ [(⟨.callNative, .call n as.length⟩, s)])
  | unary {o : UnaryOp} {e : Expr} {us : List (Command × Span)} {c : Command} (t : StaticType) (s : Span) :
    BlamesConverted e us → c ∈ o.ways → Blames (.unary o e t s) (us ++ [(c, s)])
  | binary {o : BinaryOp} {l r : Expr} {us vs : List (Command × Span)} {cs : List Command} (t : StaticType) (s : Span) :
    BlamesConverted (o.operands l r).1 us → BlamesConverted (o.operands l r).2 vs → cs ∈ o.ways →
    Blames (.binary o l r t s) (us ++ (vs ++ cs.map (·, s)))
  | and {l r : Expr} {us vs : List (Command × Span)} (t : StaticType) (s : Span) : BlamesConverted l us →
    BlamesConverted r vs → Blames (.binary .and l r t s)
      (us ++ ((.plain .jumpIfFalse, s) :: (vs ++ [(.plain .jump, s), (.plain .pushFalse, s)])))
  | or {l r : Expr} {us vs : List (Command × Span)} (t : StaticType) (s : Span) : BlamesConverted l us →
    BlamesConverted r vs → Blames (.binary .or l r t s)
      (us ++ ((.plain .jumpIfTrue, s) :: (vs ++ [(.plain .jump, s), (.plain .pushTrue, s)])))
  | orElse {l r : Expr} {us vs : List (Command × Span)} (t : StaticType) (s : Span) : BlamesConverted l us →
    BlamesConverted r vs → Blames (.binary .orElse l r t s)
      (us ++ ((.plain .dup, s) :: (.runtime .isNull, s) :: (.plain .jumpIfFalse, s) :: (.plain .pop, s) :: vs))
  | conditional {c a b : Expr} {us vs ws : List (Command × Span)} (t : StaticType) (s : Span) : BlamesConverted c us →
    BlamesConverted a vs → BlamesConverted b ws → Blames (.conditional c a b t s)
      (us ++ ((.plain .jumpIfFalse, s) :: (vs ++ ((.plain .jump, s) :: ws))))
  | emptyList (s : Span) : Blames (.list [] s) [(.plain .emptyList, s)]
  | list {es : List Expr} {uss : List (List (Command × Span))} (s : Span) : es ≠ [] →
    List.Forall₂ BlamesConverted es uss → Blames (.list es s)
      ((⟨.newList, .capacity (UInt32.ofNat es.length)⟩, s) :: uss.flatMap fun us => us ++ [(.plain .listAppend, s)])
  | emptyMap (s : Span) : Blames (.map [] s) [(.plain .emptyMap, s)]
  | map {es : List (Expr × Expr)} {uss : List (List (Command × Span) × List (Command × Span))} (s : Span) : es ≠ [] →
    List.Forall₂ BlamesConverted (es.map Prod.fst) (uss.map Prod.fst) →
    List.Forall₂ BlamesConverted (es.map Prod.snd) (uss.map Prod.snd) → Blames (.map es s)
      ((⟨.newMap, .capacity (Emitter.mapCapacity es.length)⟩, s) ::
        uss.flatMap fun us => us.1 ++ (us.2 ++ [(.plain .mapPut, s)]))

/-- The code of an operand and of the conversions that it goes through. -/
inductive BlamesConverted : Expr → List (Command × Span) → Prop
  | intro {e : Expr} {us : List (Command × Span)} {cs : List Command} : Blames e us →
    cs ⊆ Command.conversions → BlamesConverted e (us ++ cs.map (·, e.span))

end

end Expr

/-! ### Conversions -/

namespace Emitter

variable {x y : Emitter} {d : Directive} {c : Command} {r : Representation} {type : StaticType}

/-- An emitter goes on from another with conversions, under the same span. -/
structure Converts (x y : Emitter) : Prop where
  span : y.span = x.span
  trace : ∃ cs : List Command, cs ⊆ Command.conversions ∧ y.trace = x.trace ++ cs.map (·, x.span)

theorem Converts.refl (x : Emitter) : x.Converts x := ⟨rfl, [], List.nil_subset _, (List.append_nil _).symm⟩

theorem Converts.andThen (h : x.Converts y) (hd : d.untargeted? = some c) (hc : c ∈ Command.conversions) :
    x.Converts (y.andThen r type [d]) := by
  obtain ⟨hspan, cs, hcs, htrace⟩ := h
  refine ⟨hspan, cs ++ [c], List.append_subset.2 ⟨hcs, List.cons_subset.2 ⟨hc, List.nil_subset _⟩⟩, ?_⟩
  rw [trace_eq]
  change traceOf y.span [.sub y, .directive d] = _
  simp [traceOf, hd, htrace, hspan]

namespace Converts

theorem emit {o : Opcode} (h : x.Converts y) (ho : .plain o ∈ Command.conversions) :
    x.Converts (y.andThen r type [.emit o]) :=
  h.andThen (Directive.untargeted?_emit o) ho

theorem invoke {f : RuntimeFunction} (h : x.Converts y) (hf : .runtime f ∈ Command.conversions) :
    x.Converts (y.andThen r type [.invoke f]) :=
  h.andThen (Directive.untargeted?_invoke f) hf

theorem toBoxed (x : Emitter) : x.Converts x.toBoxed := by
  unfold Emitter.toBoxed
  split
  case h_4 => exact ⟨rfl, [], List.nil_subset _, by rw [trace_eq, x.trace_eq]; exact (List.append_nil _).symm⟩
  all_goals exact (refl x).emit (by simp [Command.conversions])

theorem toInt (x : Emitter) : x.Converts x.toInt := by
  unfold Emitter.toInt
  split
  · exact .refl x
  · exact (toBoxed x).emit (by simp [Command.conversions])

theorem toFloat (x : Emitter) : x.Converts x.toFloat := by
  unfold Emitter.toFloat
  split
  · exact .refl x
  · exact (refl x).emit (by simp [Command.conversions])
  · exact (toBoxed x).emit (by simp [Command.conversions])

theorem toBool (x : Emitter) : x.Converts x.toBool := by
  unfold Emitter.toBool
  split
  · exact .refl x
  · exact (refl x).emit (by simp [Command.conversions])
  · exact (refl x).emit (by simp [Command.conversions])
  · exact (toBoxed x).invoke (by simp [Command.conversions])

theorem toText (x : Emitter) : x.Converts x.toText := by
  unfold Emitter.toText
  split
  · exact .refl x
  case h_5 => exact (toBoxed x).invoke (by simp [Command.conversions])
  all_goals exact (refl x).emit (by simp [Command.conversions])

theorem convert (x : Emitter) (target : Representation) : x.Converts (x.convert target) := by
  unfold Emitter.convert
  split
  · exact toInt x
  · exact toFloat x
  · exact toBool x
  · exact toText x
  · exact toBoxed x
  · split
    · exact .refl x
    · exact toBoxed x

end Converts

/-! ### Operators -/

/-- An emitter is the code of an expression. -/
structure StandsFor (x : Emitter) (e : Expr) : Prop where
  type : x.type = e.staticType
  span : x.span = e.span
  blames : e.Blames x.trace

variable {e l r : Expr} {s : Span} {t : StaticType} {representation : Representation}

theorem StandsFor.converted (h : x.StandsFor e) (hy : x.Converts y) : e.BlamesConverted y.trace := by
  obtain ⟨-, cs, hcs, htrace⟩ := hy
  rw [htrace, h.span]
  exact .intro h.blames hcs

theorem trace_unary (hd : d.untargeted? = some c) :
    (unary representation type s x [d]).trace = x.trace ++ [(c, s)] := by
  rw [trace_eq]
  change traceOf s [.sub x, .directive d] = _
  simp [traceOf, hd]

theorem trace_binary (hd : d.untargeted? = some c) :
    (binary representation type s x y [d]).trace = x.trace ++ (y.trace ++ [(c, s)]) := by
  rw [trace_eq]
  change traceOf s [.sub x, .sub y, .directive d] = _
  simp [traceOf, hd]

private theorem blames_unary {o : UnaryOp} (hx : e.BlamesConverted x.trace) (hd : d.untargeted? = some c)
    (hc : c ∈ o.ways) : (Expr.unary o e t s).Blames (unary representation type s x [d]).trace := by
  rw [trace_unary hd]
  exact .unary t s hx hc

private theorem blames_binary {o : BinaryOp} (hx : (o.operands l r).1.BlamesConverted x.trace)
    (hy : (o.operands l r).2.BlamesConverted y.trace) (hd : d.untargeted? = some c) (hc : [c] ∈ o.ways) :
    (Expr.binary o l r t s).Blames (binary representation type s x y [d]).trace := by
  rw [trace_binary hd]
  exact .binary t s hx hy hc

namespace StandsFor

theorem boxed (h : x.StandsFor e) : e.BlamesConverted x.toBoxed.trace := h.converted (.toBoxed x)

theorem int (h : x.StandsFor e) : e.BlamesConverted x.toInt.trace := h.converted (.toInt x)

theorem float (h : x.StandsFor e) : e.BlamesConverted x.toFloat.trace := h.converted (.toFloat x)

theorem bool (h : x.StandsFor e) : e.BlamesConverted x.toBool.trace := h.converted (.toBool x)

theorem text (h : x.StandsFor e) : e.BlamesConverted x.toText.trace := h.converted (.toText x)

theorem negate (h : x.StandsFor e) : (Expr.unary .negate e t s).Blames (Emitter.negate s x).trace := by
  unfold Emitter.negate
  split_ifs
  · exact blames_unary h.int (Directive.untargeted?_emit _) (by simp [UnaryOp.ways])
  · exact blames_unary h.float (Directive.untargeted?_emit _) (by simp [UnaryOp.ways])
  · exact blames_unary h.boxed (Directive.untargeted?_invoke _) (by simp [UnaryOp.ways])

theorem not (h : x.StandsFor e) : (Expr.unary .not e t s).Blames (Emitter.not s x).trace :=
  blames_unary h.bool (Directive.untargeted?_emit _) (by simp [UnaryOp.ways])

theorem arithmetic {o : BinaryOp} {onInts onFloats : Opcode} {generic : RuntimeFunction} (hx : x.StandsFor l)
    (hy : y.StandsFor r) (hoperands : o.operands l r = (l, r)) (hints : [.plain onInts] ∈ o.ways)
    (hfloats : [.plain onFloats] ∈ o.ways) (hgeneric : [.runtime generic] ∈ o.ways) :
    (Expr.binary o l r t s).Blames (Emitter.arithmetic onInts onFloats generic s x y).trace := by
  unfold Emitter.arithmetic
  split_ifs
  · exact blames_binary (hoperands ▸ hx.int) (hoperands ▸ hy.int) (Directive.untargeted?_emit _) hints
  · exact blames_binary (hoperands ▸ hx.float) (hoperands ▸ hy.float) (Directive.untargeted?_emit _) hfloats
  · exact blames_binary (hoperands ▸ hx.boxed) (hoperands ▸ hy.boxed) (Directive.untargeted?_invoke _) hgeneric

theorem plus (hx : x.StandsFor l) (hy : y.StandsFor r) :
    (Expr.binary .add l r t s).Blames (Emitter.plus s x y).trace := by
  unfold Emitter.plus
  split
  · exact blames_binary hx.text hy.text (Directive.untargeted?_invoke _) (by simp [BinaryOp.ways])
  · exact hx.arithmetic hy rfl (by simp [BinaryOp.ways]) (by simp [BinaryOp.ways]) (by simp [BinaryOp.ways])

/-- An order relation asks the runtime library with the right operand first if it is reversed. -/
theorem relation {o : BinaryOp} {onInts onFloats : Opcode} {generic : RuntimeFunction} {reversed : Bool}
    (hx : x.StandsFor l) (hy : y.StandsFor r)
    (hswaps : o.swaps l.staticType r.staticType =
      (reversed && !(l.staticType.isNumber && r.staticType.isNumber)))
    (hints : [.plain onInts] ∈ o.ways) (hfloats : [.plain onFloats] ∈ o.ways) (hgeneric : [.runtime generic] ∈ o.ways) :
    (Expr.binary o l r t s).Blames (Emitter.relation onInts onFloats generic reversed s x y).trace := by
  have hnumbers : (x.isKnownNumber && y.isKnownNumber) = (l.staticType.isNumber && r.staticType.isNumber) := by
    rw [isKnownNumber, isKnownNumber, hx.type, hy.type]
  rw [← hnumbers] at hswaps
  unfold Emitter.relation
  split_ifs with hint hnumber hreversed
  · have hnumber : (x.isKnownNumber && y.isKnownNumber) = true := by
      simp only [isKnownInt, Bool.and_eq_true, beq_iff_eq] at hint
      simp [isKnownNumber, hint, StaticType.isNumber, Kind.isNumber]
    have hoperands : o.operands l r = (l, r) := by simp [BinaryOp.operands, hswaps, hnumber]
    exact blames_binary (hoperands ▸ hx.int) (hoperands ▸ hy.int) (Directive.untargeted?_emit _) hints
  · have hoperands : o.operands l r = (l, r) := by simp [BinaryOp.operands, hswaps, hnumber]
    exact blames_binary (hoperands ▸ hx.float) (hoperands ▸ hy.float) (Directive.untargeted?_emit _) hfloats
  · have hoperands : o.operands l r = (r, l) := by simp [BinaryOp.operands, hswaps, hnumber, hreversed]
    exact blames_binary (hoperands ▸ hy.boxed) (hoperands ▸ hx.boxed) (Directive.untargeted?_invoke _) hgeneric
  · have hoperands : o.operands l r = (l, r) := by simp [BinaryOp.operands, hswaps, hreversed]
    exact blames_binary (hoperands ▸ hx.boxed) (hoperands ▸ hy.boxed) (Directive.untargeted?_invoke _) hgeneric

/-- An emitter compares two operands for equality, by one command. -/
private def Equates (x : Emitter) (s : Span) (e f : Expr) : Prop :=
  ∃ us vs c, x.trace = us ++ (vs ++ [(c, s)]) ∧ c ∈ BinaryOp.equalities ∧ e.BlamesConverted us ∧ f.BlamesConverted vs

private theorem equates_comparison (hx : l.BlamesConverted x.trace) (hy : r.BlamesConverted y.trace)
    (hd : d.untargeted? = some c) (hc : c ∈ BinaryOp.equalities) : Equates (comparison s x y d) s l r :=
  ⟨_, _, c, trace_binary hd, hc, hx, hy⟩

private theorem equates_stringEquality (hx : x.StandsFor l) (hy : y.StandsFor r) :
    Equates (Emitter.stringEquality s x y) s l r := by
  unfold Emitter.stringEquality
  split_ifs
  · exact equates_comparison hx.text hy.text (Directive.untargeted?_invoke _) (by simp [BinaryOp.equalities])
  · exact equates_comparison hx.text hy.float (Directive.untargeted?_invoke _) (by simp [BinaryOp.equalities])
  · exact equates_comparison hx.text hy.boxed (Directive.untargeted?_invoke _) (by simp [BinaryOp.equalities])

/-- A string is evaluated first, even if it is the right operand. -/
private theorem equates_equality {o : BinaryOp} (hx : x.StandsFor l) (hy : y.StandsFor r)
    (hswaps : o.swaps l.staticType r.staticType =
      (l.staticType != .known .string && r.staticType == .known .string)) :
    Equates (Emitter.equality s x y) s (o.operands l r).1 (o.operands l r).2 := by
  have hleft : x.isKnownString = (l.staticType == .known .string) := by rw [isKnownString, hx.type]
  have hright : y.isKnownString = (r.staticType == .known .string) := by rw [isKnownString, hy.type]
  rw [bne, ← hleft, ← hright] at hswaps
  unfold Emitter.equality
  split_ifs with hl hr
  · rw [show o.operands l r = (l, r) by simp [BinaryOp.operands, hswaps, hl]]
    exact equates_stringEquality hx hy
  · rw [show o.operands l r = (r, l) by simp [BinaryOp.operands, hswaps, hl, hr]]
    exact equates_stringEquality hy hx
  all_goals rw [show o.operands l r = (l, r) by simp [BinaryOp.operands, hswaps, hr]]
  · exact equates_comparison hx.int hy.int (Directive.untargeted?_emit _) (by simp [BinaryOp.equalities])
  · exact equates_comparison hx.float hy.float (Directive.untargeted?_emit _) (by simp [BinaryOp.equalities])
  · exact equates_comparison hx.boxed hy.boxed (Directive.untargeted?_invoke _) (by simp [BinaryOp.equalities])

theorem equality (hx : x.StandsFor l) (hy : y.StandsFor r) :
    (Expr.binary .eq l r t s).Blames (Emitter.equality s x y).trace := by
  obtain ⟨us, vs, c, htrace, hc, hus, hvs⟩ := equates_equality (o := .eq) (s := s) hx hy rfl
  rw [htrace]
  exact .binary t s hus hvs (List.mem_map_of_mem hc)

theorem inequality (hx : x.StandsFor l) (hy : y.StandsFor r) :
    (Expr.binary .ne l r t s).Blames (Emitter.inequality s x y).trace := by
  obtain ⟨us, vs, c, htrace, hc, hus, hvs⟩ := equates_equality (o := .ne) (s := s) hx hy rfl
  rw [Emitter.inequality, trace_unary (Directive.untargeted?_emit _), htrace, List.append_assoc, List.append_assoc]
  exact .binary t s hus hvs (List.mem_map_of_mem hc)

/-! ### Branches -/

theorem shortCircuit (hx : x.StandsFor l) (hy : y.StandsFor r) (decided : Bool) :
    (Expr.binary (if decided then .or else .and) l r t s).Blames (Emitter.shortCircuit decided s x y).trace := by
  rw [trace_eq]
  cases decided with
  | false => exact .and t s hx.bool hy.bool
  | true => exact .or t s hx.bool hy.bool

theorem orElse (hx : x.StandsFor l) (hy : y.StandsFor r) :
    (Expr.binary .orElse l r t s).Blames (Emitter.orElse type s x y).trace := by
  have htrace : (Emitter.orElse type s x y).trace = x.toBoxed.trace ++ ((.plain .dup, s) :: (.runtime .isNull, s) ::
      (.plain .jumpIfFalse, s) :: (.plain .pop, s) :: y.toBoxed.trace) := by
    rw [Emitter.orElse, trace_make]
    simp [traceOf, JumpKind.instruction]
  rw [htrace]
  exact .orElse t s hx.boxed hy.boxed

theorem conditional {f : Expr} {z : Emitter} (hz : z.StandsFor f) (hx : x.StandsFor l) (hy : y.StandsFor r) :
    (Expr.conditional f l r t s).Blames (Emitter.conditional type s z x y).trace := by
  have htrace : ∀ target, (make target type (z.constant && x.constant && y.constant) s 2
      [.sub z.toBool, .directive (.jump .ifFalse 0), .sub (x.convert target), .directive (.jump .always 1),
        .directive (.mark 0), .sub (y.convert target), .directive (.mark 1)]).trace =
      z.toBool.trace ++ ((.plain .jumpIfFalse, s) ::
        ((x.convert target).trace ++ ((.plain .jump, s) :: (y.convert target).trace))) := fun target => by
    rw [trace_make]
    simp [traceOf, JumpKind.instruction]
  rw [Emitter.conditional, htrace]
  exact .conditional t s hz.bool (hx.converted (.convert x _)) (hy.converted (.convert y _))

/-! ### Lookups, calls and collections -/

theorem field {constant : Bool} {n : String} (h : x.StandsFor e) :
    (Expr.field e n t s).Blames (Emitter.getItem type constant s x.toBoxed (.string n s)).trace := by
  rw [Emitter.getItem, trace_make]
  exact .field n t s h.boxed

theorem item {constant : Bool} (hx : x.StandsFor l) (hy : y.StandsFor r) :
    (Expr.item l r t s).Blames (Emitter.getItem type constant s x.toBoxed y.toBoxed).trace := by
  rw [Emitter.getItem, trace_make]
  exact .item t s hx.boxed hy.boxed

theorem nativeCall {as : List Expr} {xs : List Emitter} (h : List.Forall₂ (fun e (x : Emitter) => x.StandsFor e) as xs)
    (n : String) : (Expr.call n as t s).Blames (Emitter.nativeCall n type s xs).trace := by
  have htrace : (Emitter.nativeCall n type s xs).trace =
      (xs.map fun x => x.toBoxed.trace).flatten ++ [(⟨.callNative, .call n as.length⟩, s)] := by
    rw [Emitter.nativeCall, trace_make, traceOf_append, List.map_eq_flatMap, traceOf_flatMap, h.length_eq,
      ← List.flatMap_def]
    simp [traceOf]
    rfl
  rw [htrace]
  exact .call n t s (List.forall₂_map_right_iff.2 (h.imp fun _ _ h => h.boxed))

theorem list {es : List Expr} {xs : List Emitter} (h : List.Forall₂ (fun e (x : Emitter) => x.StandsFor e) es xs)
    (hne : es ≠ []) : (Expr.list es s).Blames (Emitter.list s xs).trace := by
  have htrace : (Emitter.list s xs).trace = (⟨.newList, .capacity (UInt32.ofNat es.length)⟩, s) ::
      (xs.map fun x => x.toBoxed.trace).flatMap fun us => us ++ [(.plain .listAppend, s)] := by
    rw [Emitter.list, trace_make, traceOf, traceOf_flatMap, h.length_eq, List.flatMap_map]
    simp [traceOf]
    rfl
  rw [htrace]
  exact .list s hne (List.forall₂_map_right_iff.2 (h.imp fun _ _ h => h.boxed))

theorem map {es : List (Expr × Expr)} {xs : List (Emitter × Emitter)}
    (h : List.Forall₂ (fun (e : Expr × Expr) (x : Emitter × Emitter) => x.1.StandsFor e.1 ∧ x.2.StandsFor e.2) es xs)
    (hne : es ≠ []) : (Expr.map es s).Blames (Emitter.map s xs).trace := by
  have htrace : (Emitter.map s xs).trace = (⟨.newMap, .capacity (mapCapacity es.length)⟩, s) ::
      (xs.map fun x => (x.1.toText.trace, x.2.toBoxed.trace)).flatMap
        fun us => us.1 ++ (us.2 ++ [(.plain .mapPut, s)]) := by
    rw [Emitter.map, trace_make, traceOf, traceOf_flatMap, h.length_eq, List.flatMap_map]
    simp [traceOf]
    rfl
  rw [htrace]
  refine .map s hne ?_ ?_
  · rw [List.map_map]
    exact List.forall₂_map_left_iff.2 (List.forall₂_map_right_iff.2 (h.imp fun _ _ h => h.1.text))
  · rw [List.map_map]
    exact List.forall₂_map_left_iff.2 (List.forall₂_map_right_iff.2 (h.imp fun _ _ h => h.2.boxed))

end StandsFor

/-! ### Expressions -/

theorem blames_unaryOp {o : UnaryOp} (h : x.StandsFor e) : (Expr.unary o e t s).Blames (o.emitter s x).trace := by
  cases o with
  | negate => exact h.negate
  | not => exact h.not

theorem blames_binaryOp {o : BinaryOp} (hx : x.StandsFor l) (hy : y.StandsFor r) :
    (Expr.binary o l r t s).Blames (o.emitter t s x y).trace := by
  cases o with
  | add => exact hx.plus hy
  | sub | mul =>
    exact hx.arithmetic hy rfl (by simp [BinaryOp.ways]) (by simp [BinaryOp.ways]) (by simp [BinaryOp.ways])
  | div => exact blames_binary hx.float hy.float (Directive.untargeted?_emit _) (by simp [BinaryOp.ways])
  | mod => exact blames_binary hx.int hy.int (Directive.untargeted?_emit _) (by simp [BinaryOp.ways])
  | eq => exact hx.equality hy
  | ne => exact hx.inequality hy
  | lt | le | gt | ge =>
    exact hx.relation hy rfl (by simp [BinaryOp.ways]) (by simp [BinaryOp.ways]) (by simp [BinaryOp.ways])
  | and => exact hx.shortCircuit hy false
  | or => exact hx.shortCircuit hy true
  | orElse => exact hx.orElse hy

end Emitter

namespace Setting

open Emitter

variable {σ : Type}

/-- An emitter that is blamed like an expression is its code, for type and span are computed with it. -/
private theorem standsFor (E : Setting σ) {e : Expr} {x : Emitter}
    (h : e.Compiled (fun e x => e.Blames x.trace) x) : x.StandsFor e := by
  have hcomputes : E.Computes x (E.operand e) := computes_of_compile h.compile
  exact ⟨hcomputes.type, hcomputes.span, h.holds⟩

/-- The emitter of an expression emits the expression's code, each command with the span of the node to blame. -/
theorem blames_of_compile (E : Setting σ) {e : Expr} {x : Emitter} (h : e.compile .global = .ok x) :
    e.Blames x.trace := by
  refine Expr.induct_compile (P := fun e x => e.Blames x.trace) ?literal ?var ?field ?item ?call ?unary ?binary
    ?conditional ?emptyList ?list ?emptyMap ?map h
  case literal =>
    intro v s
    cases v <;> exact .literal _ s
  case var => exact fun n t s => .var n t s
  case field => exact fun b y n t s hb => (E.standsFor hb).field
  case item => exact fun b k y z t s hb hk => (E.standsFor hb).item (E.standsFor hk)
  case call => exact fun n as xs t s has _ => StandsFor.nativeCall (has.imp fun _ _ => E.standsFor) n
  case unary => exact fun o e y t s he => blames_unaryOp (E.standsFor he)
  case binary => exact fun o l r y z t s hl hr => blames_binaryOp (E.standsFor hl) (E.standsFor hr)
  case conditional =>
    exact fun c a b x y z t s hc ha hb => (E.standsFor hc).conditional (E.standsFor ha) (E.standsFor hb)
  case emptyList => exact fun s => .emptyList s
  case list => exact fun es xs s hne hes => StandsFor.list (hes.imp fun _ _ => E.standsFor) hne
  case emptyMap => exact fun s => .emptyMap s
  case map =>
    exact fun es xs s hne hes => StandsFor.map (hes.imp fun _ _ h => ⟨E.standsFor h.1, E.standsFor h.2⟩) hne

end Setting

/-! ### The debug table -/

/-- With spans recorded, the debug table of a compiled expression has an entry for each instruction, in the order of the
code. So at all bytes of an instruction the span is found of the node that its command is blamed on. -/
theorem ExprRoot.debug_of_compile {root : ExprRoot} {options : CompileOptions} {p : Program}
    (h : root.compile .global options = .ok p) (hdebug : options.debugInfo = true) :
    (∃ ls : List Line, p.bytecode.split = ((ls.map Line.placed).toArray, #[]) ∧
      p.bytecode.debug.toList = ls.map Line.entry ∧ ls.Pairwise (fun l k => l.placed.offset < k.placed.offset) ∧
      (∀ l ∈ ls, p.bytecode.command? l.placed = some l.command ∧
        ∀ o, l.placed.offset ≤ o → o < l.placed.stop → p.bytecode.spanAt? o = some l.span) ∧
      ∃ ts, root.expr.Blames ts ∧ ls.map Line.trace = ts ++ [(.plain .halt, .dummy)]) ∧
    ∀ (x : Emitter) (a : Assembler), (x.assemble a).span = a.span := by
  obtain ⟨x, hx, hmakes⟩ := makes_of_compile h
  let E := Setting.ofProgram hmakes .empty 0 fun _ => (none : Option (Native Unit))
  have hregular : E.Regular x := (Setting.computes_of_compile hx).regular
  have hkeeps := hregular.keeps options.assembler
  have hrecords := hregular.records (Emitter.precedes_assembler options) (.refl _) hdebug
  obtain ⟨ls, hsplits, htable, hcommand, htrace⟩ :=
    hmakes.closes.exists_lines hrecords rfl rfl (hkeeps.debugInfo.trans hdebug)
  rw [← hmakes.bytecode] at hsplits htable hcommand
  rw [x.span_assemble] at htrace
  refine ⟨⟨ls, Bytecode.split_of_splits hsplits, htable, ?_, fun l hl => ⟨hcommand l hl, fun o hlow hhigh => ?_⟩, ?_⟩,
    Emitter.span_assemble⟩
  · refine (List.pairwise_map.1 hsplits.pairwise).imp fun {l k} hstop => ?_
    have hsize : l.placed.offset < l.placed.stop := Nat.lt_add_of_pos_right (Nat.succ_pos _)
    omega
  · exact Bytecode.spanAt?_of_lines hsplits htable hl hlow hhigh
  · exact ⟨x.trace, E.blames_of_compile hx, htrace⟩

/-- The zero is evaluated before the call that it is compared with, and it is blamed for its own boxing. So is the
remainder, which is an arm, while the condition is blamed for the two jumps around it. -/
theorem ExprRoot.debug_of_compile_twoVisits : ∃ p ts, twoVisits.compile .global {} = .ok p ∧
    twoVisits.expr.Blames ts ∧ ts.map Prod.snd = [⟨11, 12⟩, ⟨11, 12⟩, ⟨0, 8⟩, ⟨0, 12⟩, ⟨0, 36⟩, ⟨15, 23⟩, ⟨15, 23⟩,
      ⟨26, 27⟩, ⟨15, 27⟩, ⟨15, 27⟩, ⟨0, 36⟩, ⟨30, 36⟩] := by
  obtain ⟨p, hp, hspans⟩ : ∃ p, twoVisits.compile .global {} = .ok p ∧ p.bytecode.debug.toList.map DebugEntry.span =
      [⟨11, 12⟩, ⟨11, 12⟩, ⟨0, 8⟩, ⟨0, 12⟩, ⟨0, 36⟩, ⟨15, 23⟩, ⟨15, 23⟩, ⟨26, 27⟩, ⟨15, 27⟩, ⟨15, 27⟩, ⟨0, 36⟩,
        ⟨30, 36⟩] ++ [.dummy] := exists_of_map (by cbv)
  obtain ⟨⟨ls, -, htable, -, -, ts, hblames, htrace⟩, -⟩ := debug_of_compile hp rfl
  have hsnd : ls.map Line.span = ts.map Prod.snd ++ [.dummy] := by
    have := congrArg (List.map Prod.snd) htrace
    rwa [List.map_append, List.map_map] at this
  rw [htable, List.map_map] at hspans
  exact ⟨p, ts, hp, hblames, List.append_cancel_right (hsnd.symm.trans hspans)⟩

end TemplateExpr
