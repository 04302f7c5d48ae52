import TemplateExpr.Proofs.Assembler.Validity
import TemplateExpr.Proofs.Bytecode.Command

/-!
# The code is what the directives say

The directives that are given to an assembler say which commands its code consists of, at which offsets, and where the
jumps lead. `layout` reads this off the directives alone, by counting bytes. If the assembler finishes, everything that
reads its program finds just these commands there (`decode_of_finish`).

* (one directive) What a directive has emitted stands in the finished program and has the directive's command
  (`Closes.emits_command`).
* (labels) A label is where the layout has it, since it cannot be marked twice (`Closes.places`).
* (all directives) By induction on the directives, the code is their commands, one after another, and a halt
  (`Closes.exists_layout`).
-/

namespace TemplateExpr

/-- What a directive emits, given the places of the labels. -/
def Directive.command? (place : Nat → Option Nat) : Directive → Option Command
  | emit o => some ⟨o, .none⟩
  | pushNull => some ⟨.pushNull, .none⟩
  | pushBool b => some ⟨if b then .pushTrue else .pushFalse, .none⟩
  | pushInt n => some ⟨.constInt, .constant (.int n)⟩
  | pushFloat x => some ⟨.constFloat, .constant (.float x)⟩
  | pushConstant v => some ⟨.constant, .constant v⟩
  | invoke f => some ⟨.invoke, .function f⟩
  | getGlobal name => some ⟨.getGlobal, .constant (.string name)⟩
  | callNative name count => some ⟨.callNative, .call name count⟩
  | newList capacity => some ⟨.newList, .capacity capacity⟩
  | newMap capacity => some ⟨.newMap, .capacity capacity⟩
  | jump kind label => (place label).map fun t => ⟨(kind.instruction 0).opcode, .target t⟩
  | newLabel | mark _ | setSpan _ | setDebugInfo _ => none

/-- Number of bytes that are emitted. -/
def Directive.size (d : Directive) : Nat := ((d.command? fun _ => some 0).map Command.size).getD 0

def Directive.marked? : Directive → Option Nat
  | mark label => some label
  | _ => none

/-- The offset at which a label is marked last, if the code begins at the given one. -/
def placeFrom? (label : Nat) : Nat → List Directive → Option Nat
  | _, [] => none
  | offset, d :: ds =>
    (placeFrom? label (offset + d.size) ds).or (if d.marked? = some label then some offset else none)

/-- The commands from an offset on, each with its place, and the halt after them. -/
def layoutFrom (place : Nat → Option Nat) : Nat → List Directive → List (Nat × Command)
  | offset, [] => [(offset, ⟨.halt, .none⟩)]
  | offset, d :: ds =>
    match d.command? place with
    | some c => (offset, c) :: layoutFrom place (offset + c.size) ds
    | none => layoutFrom place offset ds

/-- The commands that directives stand for, each with its place. -/
def layout (ds : List Directive) : List (Nat × Command) := layoutFrom (fun label => placeFrom? label 0 ds) 0 ds

/-! ### One directive -/

namespace Directive

variable {d : Directive} {place : Nat → Option Nat} {c : Command}

theorem size_of_command? (h : d.command? place = some c) : d.size = c.size := by
  cases d with
  | jump kind label =>
    obtain ⟨t, -, rfl⟩ := Option.map_eq_some_iff.1 h
    rfl
  | _ => cases h <;> rfl

theorem size_of_none (h : ∀ place, d.command? place = none) : d.size = 0 := by
  rw [size, h]
  rfl

/-- The instruction of a directive stands for its command if it names the directive's constant. -/
theorem command?_of_instruction? {b : Bytecode} {index : UInt16} {i : Instruction} (h : d.instruction? index = some i)
    (hconstant : ∀ v, d.constant? = some v → b.constants[index.toNat]? = some v) (place : Nat → Option Nat)
    (offset : Nat) : ∃ c, d.command? place = some c ∧ b.command? ⟨offset, i⟩ = some c := by
  cases d with
  | emit o =>
    simp only [instruction?] at h
    refine ⟨_, rfl, ?_⟩
    cases o <;> cases h <;> rfl
  | pushBool v => cases v <;> cases h <;> exact ⟨_, rfl, rfl⟩
  | pushInt n =>
    cases h
    exact ⟨_, rfl, by simp [Bytecode.command?, Bytecode.meaning?, Opcode.operandForm, hconstant _ rfl]⟩
  | pushFloat x =>
    cases h
    exact ⟨_, rfl, by simp [Bytecode.command?, Bytecode.meaning?, Opcode.operandForm, hconstant _ rfl]⟩
  | pushConstant v =>
    cases h
    exact ⟨_, rfl, by simp [Bytecode.command?, Bytecode.meaning?, Opcode.operandForm, hconstant _ rfl]⟩
  | getGlobal name =>
    cases h
    exact ⟨_, rfl, by simp [Bytecode.command?, Bytecode.meaning?, Opcode.operandForm, hconstant _ rfl]⟩
  | callNative name count =>
    simp only [instruction?] at h
    split at h
    · rename_i hcount
      cases h
      have hv := hconstant (.string name) (by simp only [constant?, if_pos hcount])
      have hnat : (UInt8.ofNat count).toNat = count := by rw [UInt8.toNat_ofNat', Nat.mod_eq_of_lt hcount]
      exact ⟨_, rfl, by simp [Bytecode.command?, Bytecode.meaning?, Opcode.operandForm, hv, hnat]⟩
    · cases h
  | invoke f =>
    cases h
    exact ⟨_, rfl, by simp [Bytecode.command?, Bytecode.meaning?, Opcode.operandForm, RuntimeFunction.ofCode?_code]⟩
  | pushNull => cases h; exact ⟨_, rfl, rfl⟩
  | newList n => cases h; exact ⟨_, rfl, rfl⟩
  | newMap n => cases h; exact ⟨_, rfl, rfl⟩
  | newLabel | mark l | jump kind l | setSpan s | setDebugInfo e => cases h

end Directive

namespace Assembler

variable {a z : Assembler} {d : Directive} {ds : List Directive} {place : Nat → Option Nat} {label target : Nat}

/-- These are the places of the labels. -/
def Places (z : Assembler) (place : Nat → Option Nat) : Prop :=
  ∀ label target depth, z.labels[label]? = some ⟨some target, depth⟩ → place label = some target

namespace Closes

/-- A directive emits its command, or has none and emits nothing. -/
theorem emits_command (h : z.Closes) (ha : new.Precedes a) (hz : (a.apply d).Precedes z) (hplace : z.Places place) :
    (∃ i c, z.close.bytecode.fetch a.offset = .instruction i ∧ (a.apply d).offset = a.offset + i.size ∧
        d.command? place = some c ∧ z.close.bytecode.command? ⟨a.offset, i⟩ = some c) ∨
      (a.apply d).offset = a.offset ∧ ∀ place, d.command? place = none := by
  refine apply_cases (P := fun d b => a.apply d = b → b.Precedes z →
    (∃ i c, z.close.bytecode.fetch a.offset = .instruction i ∧ b.offset = a.offset + i.size ∧
        d.command? place = some c ∧ z.close.bytecode.command? ⟨a.offset, i⟩ = some c) ∨
      b.offset = a.offset ∧ ∀ place, d.command? place = none)
    ?instruction ?jump ?mark ?newLabel ?setSpan ?setDebugInfo ?refusedOpcode ?refusedCall d rfl hz
  case instruction =>
    intro d i hi _ hz
    have hoffset := (a.sameCode_withConstant d).offset
    have hfetch := h.fetch_instruction (ha.trans (a.precedes_withConstant d)) hz
    have hconstant : ∀ v, d.constant? = some v →
        z.close.bytecode.constants[(a.withConstant d).2.toNat]? = some v := by
      intro v hv
      have heq : a.withConstant d = a.addConstant v := by simp only [withConstant, hv]
      rw [heq] at hz ⊢
      exact h.constant_addConstant ((precedes_instruction _ i).trans hz)
    obtain ⟨c, hc, hcommand⟩ := Directive.command?_of_instruction? hi hconstant place a.offset
    rw [hoffset] at hfetch
    exact .inl ⟨i, c, hfetch, by rw [offset_instruction, hoffset], hc, hcommand⟩
  case jump =>
    intro kind label _ hz
    obtain ⟨dist, target, depth, hlabel, htarget, hfetch⟩ := h.fetch_distance ha hz
    refine .inl ⟨_, ⟨(kind.instruction 0).opcode, .target target⟩, hfetch, ?_, ?_, ?_⟩
    · rw [size_jump]
      exact offset_jump a kind label
    · simp only [Directive.command?, hplace label target depth hlabel, Option.map_some]
    · have hmeaning : ((a.offset + 3 : Nat) + dist.toInt).toNat?.map Meaning.target = some (.target target) := by
        rw [htarget]
        rfl
      cases kind <;> exact congrArg (Option.map _) hmeaning
  case mark => exact fun label _ _ => .inr ⟨offset_mark a label, fun _ => rfl⟩
  -- what is refused is reported
  case refusedOpcode =>
    intro o e _ _ hz
    have herrors := h.errors_of_precedes hz
    simp [report] at herrors
  case refusedCall =>
    intro name count e _ _ hz
    have herrors := h.errors_of_precedes hz
    simp [report] at herrors
  all_goals intros; exact .inr ⟨rfl, fun _ => rfl⟩

theorem offset_apply (h : z.Closes) (ha : new.Precedes a) (hz : (a.apply d).Precedes z) :
    (a.apply d).offset = a.offset + d.size := by
  have hplace : z.Places fun label => z.labels[label]?.bind LabelState.offset := by
    intro label target depth hlabel
    dsimp only
    rw [hlabel]
    rfl
  obtain ⟨i, c, -, hoffset, hc, hcommand⟩ | ⟨hoffset, hnone⟩ := h.emits_command ha hz hplace
  · rw [hoffset, Directive.size_of_command? hc, Bytecode.size_of_command? hcommand]
  · rw [hoffset, Directive.size_of_none hnone]
    rfl

/-! ### Labels -/

/-- A label that has a place is not marked again. -/
theorem not_mem_mark (h : z.Closes) {known : Option Nat} (hl : a.labels[label]? = some ⟨some target, known⟩)
    (hz : (a.run ds).Precedes z) : .mark label ∉ ds := by
  intro hmem
  obtain ⟨before, after, rfl⟩ := List.append_of_mem hmem
  obtain ⟨⟨offset, known'⟩, hst, hkeeps, -⟩ := (a.precedes_run before).labels label _ hl
  obtain rfl : offset = some target := hkeeps target rfl
  rw [run_append, run_cons] at hz
  have herrors := h.errors_of_precedes ((precedes_run _ after).trans hz)
  simp only [apply, Assembler.mark, hst] at herrors
  simp [report] at herrors

private theorem placeFrom?_eq_none {offset : Nat} (hmark : .mark label ∉ ds) : placeFrom? label offset ds = none := by
  induction ds generalizing offset with
  | nil => rfl
  | cons d ds ih =>
    have hd : d.marked? ≠ some label := by
      intro heq
      cases d <;> cases heq
      exact hmark List.mem_cons_self
    rw [placeFrom?, ih fun hmem => hmark (List.mem_cons_of_mem _ hmem), if_neg hd]
    rfl

/-- The last mark of a label tells its place. -/
private theorem placeFrom?_append (h : z.Closes) {before after : List Directive} (ha : new.Precedes a)
    (hz : (a.run (before ++ .mark label :: after)).Precedes z) (hmark : .mark label ∉ after) :
    placeFrom? label a.offset (before ++ .mark label :: after) = some (a.run before).offset := by
  induction before generalizing a with
  | nil =>
    rw [List.nil_append, placeFrom?, placeFrom?_eq_none hmark, Option.none_or]
    exact if_pos rfl
  | cons d before ih =>
    have hd : (a.apply d).Precedes z := (precedes_run _ _).trans hz
    rw [List.cons_append, placeFrom?, ← h.offset_apply ha hd, ih (ha.trans (a.precedes_apply d)) hz]
    rfl

/-- The labels are where they are marked. -/
theorem places (h : z.Closes) (hz : new.run ds = z) : z.Places fun label => placeFrom? label 0 ds := by
  intro label target depth hlabel
  obtain ⟨before, after, rfl, hplace, known, hknown⟩ := exists_mark new ds (by simp [new]) (hz ▸ hlabel)
  obtain ⟨known', hmarked⟩ := exists_place_mark hknown
  have hafter : ((new.run before).apply (.mark label)).run after = z := by rw [← hz, run_append, run_cons]
  rw [← hplace]
  exact h.placeFrom?_append (.refl new) (hz ▸ .refl _) (h.not_mem_mark hmarked (hafter ▸ .refl _))

/-! ### All directives -/

/-- The code from a place on is the commands of the directives that come there, and the halt. -/
theorem exists_layout (h : z.Closes) (hplace : z.Places place) (ha : new.Precedes a) (hz : a.run ds = z) :
    ∃ ps, z.close.bytecode.Splits a.offset ps ∧
      List.Forall₂ (fun p l => p.offset = l.1 ∧ z.close.bytecode.command? p = some l.2) ps
        (layoutFrom place a.offset ds) := by
  induction ds generalizing a with
  | nil =>
    obtain rfl : a = z := hz
    have hstop : a.close.bytecode.Splits a.close.bytecode.code.size [] := .stop
    rw [h.size_close] at hstop
    exact ⟨[⟨a.offset, ⟨.halt, ()⟩⟩], .next h.fetch_halt hstop, .cons ⟨rfl, rfl⟩ .nil⟩
  | cons d ds ih =>
    have hd : (a.apply d).Precedes z := hz ▸ (a.apply d).precedes_run ds
    obtain ⟨ps, hps, hlayout⟩ := ih (ha.trans (a.precedes_apply d)) hz
    rw [layoutFrom]
    obtain ⟨i, c, hfetch, hoffset, hc, hcommand⟩ | ⟨hoffset, hnone⟩ := h.emits_command ha hd hplace
    · rw [hoffset] at hps hlayout
      rw [← Bytecode.size_of_command? hcommand] at hlayout
      rw [hc]
      exact ⟨⟨a.offset, i⟩ :: ps, .next hfetch hps, .cons ⟨rfl, hcommand⟩ hlayout⟩
    · rw [hoffset] at hps hlayout
      rw [hnone]
      exact ⟨ps, hps, hlayout⟩

/-- Nothing is wrong with the operands and the jumps. -/
theorem sound_of_splits (h : z.Closes) (hz : new.run ds = z) {ps : List Placed} (hps : z.close.bytecode.Splits 0 ps)
    {p : Placed} (hp : p ∈ ps) : Bytecode.operandDefect? z.close.bytecode.constants p.instruction = none ∧
      Bytecode.jumpDefect? (z.close.bytecode.starts ps.toArray) p = none := by
  obtain ⟨qs, hqs⟩ := h.exists_lists (.refl new) hz
  obtain rfl : ps = qs := by
    have hsplit := (Bytecode.split_of_splits hps).symm.trans (Bytecode.split_of_splits (hqs.splits h))
    simpa using hsplit
  refine ⟨?_, Bytecode.jumpDefect?_of_mem hps fun dist hdist => exists_target hqs hz hp hdist⟩
  obtain rfl | ⟨before, d, after, -, -, hemits⟩ := hqs.exists_emits hp
  · rfl
  · exact hemits.operand

end Closes

/-- If the assembler finishes, its program is what its directives say: the validator, the machine and the listing find
the same instructions there, one for each command, all of them with the operands that the directives have given and with
jumps to where the labels are marked. -/
theorem decode_of_finish {b : Bytecode} (h : (new.run ds).finish = .ok b) :
    ∃ ps, b.split = (ps.toArray, #[]) ∧
      List.Forall₂ (fun p l => p.offset = l.1 ∧ b.Shows p l.2) ps (layout ds) ∧
      (∀ p ∈ ps, Bytecode.jumpDefect? (b.starts ps.toArray) p = none) ∧
      b.code.toList = ps.flatMap (fun p => p.instruction.bytes) ∧
      b.opcodes.toList = ps.map (fun p => p.instruction.opcode) ∧
      b.listing = ps.foldl (fun out p => out ++ b.lineOf p) b.heading := by
  obtain ⟨hcloses, rfl⟩ := Closes.of_finish (new.precedes_run ds) h
  obtain ⟨ps, hps, hlayout⟩ := hcloses.exists_layout (hcloses.places rfl) (.refl new) rfl
  have hsound := fun p hp => hcloses.sound_of_splits rfl hps (p := p) hp
  refine ⟨ps, Bytecode.split_of_splits hps, ?_, fun p hp => (hsound p hp).2, hps.bytes_eq, hps.opcodes_eq,
    hps.listing_eq⟩
  refine ((List.forall₂_and_left _ _).2 ⟨fun p hp => And.intro (hps.fetch_of_mem hp) (hsound p hp).1, hlayout⟩).imp ?_
  rintro p l ⟨⟨hfetch, hoperand⟩, hoffset, hcommand⟩
  exact ⟨hoffset, Bytecode.shows_of_command? hcommand hfetch hoperand⟩

/-- A loop that is left by a jump forward and repeated by a jump back. -/
def pollLoop : List Directive :=
  [.newLabel, .newLabel, .mark 0, .callNative "pending" 0, .invoke .truthy, .jump .ifFalse 1, .newList 3, .emit .pop,
    .jump .always 0, .mark 1, .getGlobal "result"]

theorem decode_of_finish_pollLoop :
    layout pollLoop = [(0, ⟨.callNative, .call "pending" 0⟩), (4, ⟨.invoke, .function .truthy⟩),
      (6, ⟨.jumpIfFalse, .target 18⟩), (9, ⟨.newList, .capacity 3⟩), (14, ⟨.pop, .none⟩), (15, ⟨.jump, .target 0⟩),
      (18, ⟨.getGlobal, .constant (.string "result")⟩), (21, ⟨.halt, .none⟩)] ∧
    ∃ b ps, (new.run pollLoop).finish = .ok b ∧ b.split = (ps.toArray, #[]) ∧
      List.Forall₂ (fun p l => p.offset = l.1 ∧ b.Shows p l.2) ps (layout pollLoop) := by
  refine ⟨rfl, ?_⟩
  obtain ⟨b, hb⟩ : ∃ b, (new.run pollLoop).finish = .ok b := ⟨_, rfl⟩
  obtain ⟨ps, hsplit, hshows, -⟩ := decode_of_finish hb
  exact ⟨b, ps, hb, hsplit, hshows⟩

end Assembler

end TemplateExpr
