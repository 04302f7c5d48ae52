import TemplateExpr.Proofs.Assembler.Directive
import TemplateExpr.Proofs.Machine.StackEffect
import TemplateExpr.Proofs.Validation.Splitting

/-!
# How directives lie in the finished program

When an assembler closes without errors, each directive on the way either emits an instruction, which stands in the
finished program where it was emitted and does what the assembler has assumed of it (`Emits`), or emits nothing and
changes nothing for the code to come (`Stays`). So the code is the instructions of the directives, one after another,
and the halt at its end (`Lists`, `Closes.exists_lists`).
-/

namespace TemplateExpr

/-! ### What an instruction refers to -/

/-- Something outside of the program that an instruction reads or calls. -/
inductive Reference where
  | global (name : String)
  | native (name : String) (count : Nat)
  /-- An item of a list or a map. -/
  | item
  deriving DecidableEq

def Directive.reference? : Directive → Option Reference
  | getGlobal name => some (.global name)
  | callNative name count => some (.native name count)
  | invoke f => if f = .getItem then some .item else none
  | _ => none

/-- What an instruction refers to, as far as its name is in the pool. -/
def Bytecode.reference? (b : Bytecode) (i : Instruction) : Option Reference :=
  match i with
  | ⟨.getGlobal, index⟩ => (b.nameAt index).toOption.map .global
  | ⟨.callNative, index, count⟩ => (b.nameAt index).toOption.map fun name => .native name (UInt8.toNat count)
  | ⟨.invoke, f⟩ => if RuntimeFunction.ofCode? f = some .getItem then some .item else none
  | _ => none

namespace Assembler

variable {a z : Assembler} {d : Directive} {i : Instruction} {ds : List Directive} {ps : List Placed}

/-! ### One directive -/

/-- A directive emits an instruction that stands in the finished program. -/
structure Emits (z a : Assembler) (d : Directive) (i : Instruction) : Prop where
  fetch : z.close.bytecode.fetch a.offset = .instruction i
  offset : (a.apply d).offset = a.offset + i.size
  depth : ∃ e, i.stackEffect? = some e ∧ e.pops ≤ a.depth ∧ (a.apply d).depth = a.depth - e.pops + e.pushes
  maxDepth : (a.apply d).maxDepth = max a.maxDepth (a.apply d).depth
  reachable : (a.apply d).reachable = true ↔ a.reachable = true ∧ i.opcode ≠ .jump
  halt : i.opcode = .halt → d = .emit .halt
  operand : Bytecode.operandDefect? z.close.bytecode.constants i = none
  reference : z.close.bytecode.reference? i = d.reference?
  jump : ∀ dist, Bytecode.jumpDistance? i = some dist → ∃ kind label target depth, d = .jump kind label ∧
    z.labels[label]? = some ⟨some target, depth⟩ ∧ ((a.offset + i.size : Nat) : Int) + dist = target

/-- A directive emits nothing and changes nothing for the code to come. -/
structure Stays (a : Assembler) (d : Directive) : Prop where
  offset : (a.apply d).offset = a.offset
  maxDepth : (a.apply d).maxDepth = a.maxDepth
  reachable : a.reachable = true → (a.apply d).reachable = true ∧ (a.apply d).depth = a.depth
  reference : d.reference? = none

/-- An instruction names what its directive has added, and nothing is wrong with that. -/
private theorem operand_of_instruction? {b : Bytecode} {index : UInt16} (h : d.instruction? index = some i)
    (hconstant : ∀ v, d.constant? = some v → b.constants[index.toNat]? = some v) :
    Bytecode.operandDefect? b.constants i = none ∧ b.reference? i = d.reference? := by
  have hname : ∀ name, b.constants[index.toNat]? = some (.string name) → b.nameAt index = .ok name := by
    intro name hv
    obtain ⟨_, heq, hat⟩ := Bytecode.nameAt_of_accepts hv rfl
    cases heq
    exact hat
  cases d with
  | emit o =>
    simp only [Directive.instruction?] at h
    cases o <;> cases h <;> exact ⟨rfl, rfl⟩
  | pushBool v => cases v <;> cases h <;> exact ⟨rfl, rfl⟩
  | pushInt n =>
    cases h
    simp [Bytecode.operandDefect?, Opcode.constantNeed?, Bytecode.constantIndex?, hconstant _ rfl,
      ConstantNeed.accepts, Bytecode.reference?, Directive.reference?]
  | pushFloat x =>
    cases h
    simp [Bytecode.operandDefect?, Opcode.constantNeed?, Bytecode.constantIndex?, hconstant _ rfl,
      ConstantNeed.accepts, Bytecode.reference?, Directive.reference?]
  | pushConstant v =>
    cases h
    simp [Bytecode.operandDefect?, Opcode.constantNeed?, Bytecode.constantIndex?, hconstant _ rfl,
      ConstantNeed.accepts, Bytecode.reference?, Directive.reference?]
  | getGlobal name =>
    cases h
    simp [Bytecode.operandDefect?, Opcode.constantNeed?, Bytecode.constantIndex?, hconstant _ rfl,
      ConstantNeed.accepts, Bytecode.reference?, Directive.reference?, hname _ (hconstant _ rfl), Except.toOption]
  | callNative name count =>
    simp only [Directive.instruction?] at h
    split at h
    · rename_i hcount
      cases h
      have hv := hconstant (.string name) (by simp only [Directive.constant?, if_pos hcount])
      have hnat : (UInt8.ofNat count).toNat = count := by rw [UInt8.toNat_ofNat', Nat.mod_eq_of_lt hcount]
      simp [Bytecode.operandDefect?, Opcode.constantNeed?, Bytecode.constantIndex?, hv, ConstantNeed.accepts,
        Bytecode.reference?, Directive.reference?, hname _ hv, Except.toOption, hnat]
    · cases h
  | invoke f =>
    cases h
    simp [Bytecode.operandDefect?, Bytecode.reference?, Directive.reference?, RuntimeFunction.ofCode?_code]
  | _ => cases h <;> exact ⟨rfl, rfl⟩

namespace Closes

private theorem emits_instruction (h : z.Closes) (ha : Assembler.new.Precedes a)
    (hi : d.instruction? (a.withConstant d).2 = some i) (happly : a.apply d = (a.withConstant d).1.instruction i)
    (hz : (a.apply d).Precedes z) : Emits z a d i := by
  obtain ⟨e, he, -⟩ := Directive.stackEffect?_of_instruction? hi
  obtain ⟨hdistance, hjump⟩ := Directive.jumpDistance?_of_instruction? hi
  have hsame := a.sameCode_withConstant d
  rw [happly] at hz
  have hpops := h.depth_instruction he hz
  have heq := instruction_of_pops he hpops.1
  have hoperand := operand_of_instruction? (b := z.close.bytecode) hi (by
    intro v hv
    have hconstant : a.withConstant d = a.addConstant v := by simp only [withConstant, hv]
    rw [hconstant] at hz ⊢
    exact h.constant_addConstant ((precedes_instruction _ i).trans hz))
  refine ⟨?_, ?_, ⟨e, he, ?_, ?_⟩, ?_, ?_, Directive.eq_halt_of_instruction? hi, hoperand.1, hoperand.2, ?_⟩
  · rw [← hsame.offset]
    exact h.fetch_instruction (ha.trans (a.precedes_withConstant d)) hz
  · rw [happly, offset_instruction, hsame.offset]
  · rw [← hsame.depth]
    exact hpops.1
  · rw [happly, hpops.2.1, hsame.depth]
  · rw [happly, heq, ← hsame.maxDepth]
    rfl
  · rw [happly, reachable_instruction, hsame.reachable]
    exact (and_iff_left hjump).symm
  · intro dist hdist
    rw [hdistance] at hdist
    cases hdist

private theorem emits_jump (h : z.Closes) (ha : Assembler.new.Precedes a) {kind : JumpKind} {label : Nat}
    (hz : (a.jump kind label).Precedes z) : ∃ i, Emits z a (.jump kind label) i := by
  obtain ⟨dist, target, depth, hlabel, htarget, hfetch⟩ := h.fetch_distance ha hz
  have hpops := h.pops_jump (kind.stackEffect?_instruction 0) hz
  have heq := instruction_of_pops (kind.stackEffect?_instruction 0) hpops
  refine ⟨_, hfetch, ?_, ⟨_, kind.stackEffect?_instruction dist, hpops, ?_⟩, ?_, ?_, ?_, ?_, ?_, ?_⟩
  · rw [size_jump]
    exact offset_jump a kind label
  · change (a.jump kind label).depth = _
    rw [depth_jump, heq]
    rfl
  · change (a.jump kind label).maxDepth = max _ (a.jump kind label).depth
    rw [depth_jump, maxDepth_jump, heq]
    rfl
  · change (a.jump kind label).reachable = true ↔ _
    rw [reachable_jump]
    cases kind <;> simp [JumpKind.instruction]
  · intro hhalt
    cases kind <;> cases hhalt
  · cases kind <;> rfl
  · cases kind <;> rfl
  · intro d hd
    rw [kind.jumpDistance?_instruction] at hd
    cases hd
    exact ⟨kind, label, target, depth, rfl, hlabel, by rw [size_jump]; exact htarget⟩

/-- Every directive on the way to a finished program emits an instruction or stays. -/
theorem emits_or_stays (h : z.Closes) (ha : Assembler.new.Precedes a) (hz : (a.apply d).Precedes z) :
    (∃ i, Emits z a d i) ∨ a.Stays d := by
  refine apply_cases (P := fun d b => a.apply d = b → b.Precedes z → (∃ i, Emits z a d i) ∨ a.Stays d)
    ?instruction ?jump ?mark ?newLabel ?setSpan ?setDebugInfo ?refusedOpcode ?refusedCall d
    rfl hz
  case instruction =>
    intro d i hi happly hz
    exact .inl ⟨i, h.emits_instruction ha hi happly (happly ▸ hz)⟩
  case jump => exact fun kind label _ hz => .inl (h.emits_jump ha hz)
  case mark =>
    exact fun label _ _ => .inr ⟨offset_mark a label, maxDepth_mark a label, fun hr => mark_of_reachable hr label, rfl⟩
  -- what is refused is reported
  case refusedOpcode =>
    intro o e _ _ hz
    have herrors := h.errors_of_precedes hz
    simp [report] at herrors
  case refusedCall =>
    intro name count e _ _ hz
    have herrors := h.errors_of_precedes hz
    simp [report] at herrors
  all_goals intros; exact .inr ⟨rfl, rfl, fun hr => ⟨hr, rfl⟩, rfl⟩

end Closes

/-! ### All directives -/

/-- The instructions of a finished program from a place on, beside the directives that are still to come there. -/
inductive Lists (z : Assembler) : Assembler → List Directive → List Placed → Prop
  | halt : Lists z z [] [⟨z.offset, ⟨.halt, ()⟩⟩]
  | emit {a : Assembler} {d : Directive} {i : Instruction} {ds : List Directive} {ps : List Placed} (hd : Emits z a d i)
    (hds : Lists z (a.apply d) ds ps) : Lists z a (d :: ds) (⟨a.offset, i⟩ :: ps)
  | stay {a : Assembler} {d : Directive} {ds : List Directive} {ps : List Placed} (hd : a.Stays d)
    (hds : Lists z (a.apply d) ds ps) : Lists z a (d :: ds) ps

theorem Closes.exists_lists (h : z.Closes) (ha : Assembler.new.Precedes a) (hz : a.run ds = z) :
    ∃ ps, Lists z a ds ps := by
  induction ds generalizing a with
  | nil =>
    subst hz
    exact ⟨_, .halt⟩
  | cons d ds ih =>
    obtain ⟨ps, hps⟩ := ih (ha.trans (a.precedes_apply d)) hz
    obtain ⟨i, hi⟩ | hstays := h.emits_or_stays ha (hz ▸ (a.apply d).precedes_run ds)
    · exact ⟨_, .emit hi hps⟩
    · exact ⟨ps, .stay hstays hps⟩

namespace Lists

/-- The code from a place on is what is listed there. -/
theorem splits (h : Lists z a ds ps) (hz : z.Closes) : z.close.bytecode.Splits a.offset ps := by
  induction h with
  | halt =>
    refine .next hz.fetch_halt ?_
    have hstop : z.close.bytecode.Splits z.close.bytecode.code.size [] := .stop
    rwa [hz.size_close] at hstop
  | emit hd _ ih => exact .next hd.fetch (hd.offset ▸ ih)
  | stay hd _ ih => exact hd.offset ▸ ih

/-- The last instruction is the halt. -/
theorem getLast?_eq (h : Lists z a ds ps) : ps.getLast? = some ⟨z.offset, ⟨.halt, ()⟩⟩ := by
  induction h with
  | halt => rfl
  | emit _ _ ih => rw [List.getLast?_cons, ih]; rfl
  | stay _ _ ih => exact ih

/-- An instruction stands where it is listed first. -/
theorem exists_head (h : Lists z a ds ps) : ∃ p ∈ ps, p.offset = a.offset := by
  induction h with
  | halt => exact ⟨_, List.mem_cons_self, rfl⟩
  | emit _ _ _ => exact ⟨_, List.mem_cons_self, rfl⟩
  | stay hd _ ih => exact hd.offset ▸ ih

/-- Every instruction but the halt comes from a directive. -/
theorem exists_emits (h : Lists z a ds ps) {p : Placed} (hp : p ∈ ps) :
    p = ⟨z.offset, ⟨.halt, ()⟩⟩ ∨ ∃ before d after, ds = before ++ d :: after ∧ p.offset = (a.run before).offset ∧
      Emits z (a.run before) d p.instruction := by
  induction h with
  | halt => exact .inl (List.mem_singleton.1 hp)
  | @emit a d i ds ps hd _ ih =>
    obtain rfl | hp := List.mem_cons.1 hp
    · exact .inr ⟨[], d, ds, rfl, rfl, hd⟩
    · obtain heq | ⟨before, d', after, rfl, hoffset, hemits⟩ := ih hp
      · exact .inl heq
      · exact .inr ⟨d :: before, d', after, rfl, hoffset, hemits⟩
  | @stay a d ds ps hd _ ih =>
    obtain heq | ⟨before, d', after, rfl, hoffset, hemits⟩ := ih hp
    · exact .inl heq
    · exact .inr ⟨d :: before, d', after, rfl, hoffset, hemits⟩

/-- What comes after some of the directives is listed there. -/
theorem of_append {before after : List Directive} (h : Lists z a (before ++ after) ps) :
    ∃ qs, qs <:+ ps ∧ Lists z (a.run before) after qs := by
  induction before generalizing a ps with
  | nil => exact ⟨ps, List.suffix_rfl, h⟩
  | cons d before ih =>
    cases h with
    | emit hd hds =>
      obtain ⟨qs, hqs, h⟩ := ih hds
      exact ⟨qs, hqs.trans (List.suffix_cons _ _), h⟩
    | stay hd hds => exact ih hds

/-- The code refers to what the directives refer to, in the same order. -/
theorem filterMap_reference? (h : Lists z a ds ps) :
    ps.filterMap (fun p => z.close.bytecode.reference? p.instruction) = ds.filterMap Directive.reference? := by
  induction h with
  | halt => rfl
  | emit hd _ ih => rw [List.filterMap_cons, List.filterMap_cons, hd.reference, ih]
  | stay hd _ ih => rw [List.filterMap_cons, hd.reference, ih]

end Lists

end Assembler

end TemplateExpr
