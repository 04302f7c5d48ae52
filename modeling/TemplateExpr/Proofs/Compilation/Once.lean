import TemplateExpr.Proofs.Compilation.Defects
import TemplateExpr.Proofs.Validation.Forward

/-!
# Every part of an expression runs once at most

All jumps of a compiled expression lead forward, and its code has one instruction for each node that calls a native
function, reads a global or looks up an item. So a program runs through its code once at most, and has made each call of
the expression once at most when it ends (`ExprRoot.once_of_compile`).
-/

namespace TemplateExpr

open Assembler

/-- Instructions that refer to something outside of the program. -/
def Instruction.refers : Instruction → Bool
  | ⟨.getGlobal, _⟩ | ⟨.callNative, _⟩ => true
  | ⟨.invoke, f⟩ => decide (RuntimeFunction.ofCode? f = some .getItem)
  | _ => false

namespace Bytecode

variable {b : Bytecode} {p : Placed}

/-- What a valid program refers to is in the pool. -/
theorem Valid.isSome_reference? (h : b.Valid) (hp : p ∈ b.split.1) :
    (b.reference? p.instruction).isSome = p.instruction.refers := by
  have hd := h.operands p hp
  obtain ⟨offset, ⟨o, x⟩⟩ := p
  cases o
  case getGlobal =>
    obtain ⟨v, hv, haccepts⟩ := constant_of_operandDefect? rfl rfl hd
    obtain ⟨name, -, hname⟩ := nameAt_of_accepts hv haccepts
    simp only [reference?, Instruction.refers]
    rw [hname]
    rfl
  case callNative =>
    obtain ⟨index, count⟩ := x
    obtain ⟨v, hv, haccepts⟩ := constant_of_operandDefect? rfl rfl hd
    obtain ⟨name, -, hname⟩ := nameAt_of_accepts hv haccepts
    simp only [reference?, Instruction.refers]
    rw [hname]
    rfl
  case invoke =>
    simp only [reference?, Instruction.refers]
    split <;> rename_i hf <;> simp [hf]
  all_goals rfl

end Bytecode

namespace Emitter

variable {x : Emitter} {options : CompileOptions} {p : Program} {e : Expr}

/-- The instructions of a program are those of its script. -/
theorem Makes.exists_lists (h : x.Makes options p) :
    ∃ ps : List Placed, Lists (x.assemble options.assembler) new (x.programScript options) ps ∧
      p.bytecode.split = (ps.toArray, #[]) := by
  obtain ⟨ps, hps⟩ := h.closes.exists_lists (.refl new) (x.run_programScript options)
  refine ⟨ps, hps, ?_⟩
  rw [h.bytecode]
  exact Bytecode.split_of_splits (hps.splits h.closes)

/-- The program refers to what the nodes of its expression refer to. -/
theorem Makes.perm_references (h : x.Makes options p) (hx : e.compile .global = .ok x) {ps : List Placed}
    (hps : Lists (x.assemble options.assembler) new (x.programScript options) ps) :
    (ps.filterMap fun q => p.bytecode.reference? q.instruction).Perm (e.nodes.filterMap Expr.reference?) := by
  rw [h.bytecode, hps.filterMap_reference?, ← Expr.filterMap_reference?]
  exact Directive.ofHallmark_reference?.perm_script (carries_of_compile hx).perm _

theorem Makes.valid (h : x.Makes options p) (hx : e.compile .global = .ok x) : p.bytecode.Valid := by
  rw [h.bytecode]
  exact Bytecode.valid_of_validate ((carries_of_compile hx).validate h.closes)

theorem Makes.isForward (h : x.Makes options p) (hx : e.compile .global = .ok x) : p.bytecode.IsForward := by
  intro q hq d hd
  obtain ⟨ps, hps, hsplit⟩ := h.exists_lists
  rw [hsplit] at hq
  rw [← x.run_programScript] at hps
  exact ((carries_of_compile hx).orderly options).forward hps (List.mem_toArray.1 hq) hd

end Emitter

namespace ExprRoot

variable {root : ExprRoot} {options : CompileOptions} {p : Program}

/-- A compiled expression has no jump that leads back and one instruction for each node that refers to something. So a
run goes from instruction to instruction, each further on in the code, it ends after as many steps as there are
instructions, if not before, and the calls that it has made are calls of the expression, each made once at most. -/
theorem once_of_compile (h : root.compile .global options = .ok p) :
    p.bytecode.split.2 = #[] ∧
    (∀ q ∈ p.bytecode.split.1, ∀ d, Bytecode.jumpDistance? q.instruction = some d → (q.stop : Int) ≤ q.stop + d) ∧
    (∀ q ∈ p.bytecode.split.1, (p.bytecode.reference? q.instruction).isSome = q.instruction.refers) ∧
    (p.bytecode.split.1.toList.filterMap fun q => p.bytecode.reference? q.instruction).Perm
      (root.expr.nodes.filterMap Expr.reference?) ∧
    ∀ {σ : Type} (globals : OrderedMap Value) (natives : String → Option (Native σ)) (limit : Nat) (host : σ),
      (∀ s : State σ, (Context.mk p.bytecode globals limit).Steps natives (.initial host) s →
        ∃ q ∈ p.bytecode.split.1, q.offset = s.ip) ∧
      (∀ s t u : State σ, (Context.mk p.bytecode globals limit).Steps natives (.initial host) s →
        (Context.mk p.bytecode globals limit).step natives s = .running t →
        (Context.mk p.bytecode globals limit).Steps natives t u → s.ip < u.ip) ∧
      ∃ result last, (∀ fuel, p.bytecode.split.1.size ≤ fuel →
          (Context.mk p.bytecode globals limit).run? natives fuel host = some (result, last)) ∧
        (last.calls.toList.map NativeCall.reference).Subperm (root.expr.nodes.filterMap Expr.reference?) := by
  obtain ⟨x, hx, hmakes⟩ := makes_of_compile h
  obtain ⟨ps, hps, hsplit⟩ := hmakes.exists_lists
  have hreferences := hmakes.perm_references hx hps
  have hvalid := hmakes.valid hx
  have hforward := hmakes.isForward hx
  have hlist : p.bytecode.split.1.toList = ps := by rw [hsplit]
  rw [← hlist] at hreferences
  refine ⟨by rw [hsplit], fun q hq d hd => ?_, fun q hq => hvalid.isSome_reference? hq, hreferences,
    fun globals natives limit host => ⟨fun s hs => ?_, fun s t u hs hstep hu => ?_, ?_⟩⟩
  · have := hforward q hq d hd
    omega
  · obtain ⟨_, q, _, hstands⟩ := hvalid.stands_of_steps (c := ⟨p.bytecode, globals, limit⟩) hforward hs
    exact ⟨q, hstands.mem, hstands.ip⟩
  · exact hvalid.lt_of_steps (c := ⟨p.bytecode, globals, limit⟩) hforward hs hstep hu
  · obtain ⟨result, last, hrun, hsub⟩ :=
      hvalid.exists_run? (c := ⟨p.bytecode, globals, limit⟩) hforward natives host
    exact ⟨result, last, hrun, hsub.subperm.trans hreferences.subperm⟩

/-- Both calls of the expression are in the code, and each may be made once. -/
theorem once_of_compile_twoVisits : ∃ p, twoVisits.compile .global {} = .ok p ∧
    (p.bytecode.split.1.toList.filterMap fun q => p.bytecode.reference? q.instruction).Perm
      [.native "visits" 0, .native "visits" 0] ∧
    ∃ result last, (∀ fuel, p.bytecode.split.1.size ≤ fuel →
        (Context.mk p.bytecode .empty 8).run? visits fuel 0 = some (result, last)) ∧
      (last.calls.toList.map NativeCall.reference).Subperm [.native "visits" 0, .native "visits" 0] := by
  obtain ⟨p, hp, -⟩ := compile_twoVisits
  obtain ⟨-, -, -, hreferences, hruns⟩ := once_of_compile hp
  exact ⟨p, hp, hreferences, (hruns .empty visits 8 0).2.2⟩

end ExprRoot

end TemplateExpr
