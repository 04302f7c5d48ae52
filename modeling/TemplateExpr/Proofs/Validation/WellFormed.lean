import TemplateExpr.Proofs.Bytecode.Listing
import TemplateExpr.Proofs.Validation.Completeness
import TemplateExpr.Proofs.Validation.Passes
import TemplateExpr.Proofs.Validation.Soundness

/-!
# Well-formed programs

A program is well-formed if its bytes are those of instructions of which the last one halts, jumps lead to
instructions, operands name what they should, and there are heights of the stack that agree along every way from the
first instruction (`WellFormed`). This says nothing of how the validator finds it out.

The validator accepts exactly the well-formed programs, and it comes to an end with every program
(`validate_iff_wellFormed`):

* (accepted) what it has split the code into is a witness, with the heights that it has found (`Valid.wellFormed`);
* (well-formed) the heights that are given are those that it must find, at the instructions that can be reached
  (`WellFormed.assigns`).
-/

namespace TemplateExpr.Bytecode

/-! ### The definition -/

/-- Instructions at their places, one after another. -/
def placedFrom : Nat → List Instruction → List Placed
  | _, [] => []
  | offset, i :: is => ⟨offset, i⟩ :: placedFrom (offset + i.size) is

/-- From an instruction control goes on to the next one, unless it halts or always jumps, and to where it may jump. -/
inductive Flows (ps : List Placed) (p q : Placed) : Prop
  | next : p.instruction.opcode ≠ .halt → p.instruction.opcode ≠ .jump → q ∈ ps → q.offset = p.stop → Flows ps p q
  | jump {d : Int} : jumpDistance? p.instruction = some d → q ∈ ps → (q.offset : Int) = p.stop + d → Flows ps p q

/-- Instructions that control may come to from the first one. -/
inductive Reached (ps : List Placed) : Placed → Prop
  | first {p : Placed} : ps.head? = some p → Reached ps p
  | flow {p q : Placed} : Reached ps p → Flows ps p q → Reached ps q

/-- Heights of the stack at the offsets of the instructions that can be reached: from zero at the first one, always
enough for the instruction, changed by its effect along every way, and one where it halts. -/
structure Levels (ps : List Placed) (height : Nat → Nat) : Prop where
  first : height 0 = 0
  flow : ∀ p, Reached ps p → ∃ e, p.instruction.stackEffect? = some e ∧ e.pops ≤ height p.offset ∧
    ∀ q, Flows ps p q → height q.offset + e.pops = height p.offset + e.pushes
  halt : ∀ p, Reached ps p → p.instruction.opcode = .halt → height p.offset = 1

/-- The instructions are those of the code, and nothing is wrong with them. -/
structure WellFormed (b : Bytecode) (is : List Instruction) : Prop where
  bytes : b.code.toList = is.flatMap Instruction.bytes
  last : ∃ i, is.getLast? = some i ∧ i.opcode = .halt
  jumps : ∀ p ∈ placedFrom 0 is, ∀ d, jumpDistance? p.instruction = some d →
    ∃ q ∈ placedFrom 0 is, (q.offset : Int) = p.stop + d
  constants : ∀ i ∈ is, ∀ n, constantIndex? i = some n →
    ∃ need v, i.opcode.constantNeed? = some need ∧ b.constants[n]? = some v ∧ need.accepts v = true
  functions : ∀ i ∈ is, ∀ code, i = ⟨.invoke, code⟩ → ∃ f : RuntimeFunction, f.code = code
  levels : ∃ height, Levels (placedFrom 0 is) height

variable {b : Bytecode} {offset : Nat} {is : List Instruction} {ps : List Placed} {p q : Placed}

/-! ### Places -/

theorem map_placedFrom (offset : Nat) (is : List Instruction) :
    (placedFrom offset is).map Placed.instruction = is := by
  induction is generalizing offset with
  | nil => rfl
  | cons i is ih => rw [placedFrom, List.map_cons, ih]

/-- Code that is split has its instructions at the places where these come one after another. -/
theorem Splits.eq_placedFrom (h : b.Splits offset ps) : ps = placedFrom offset (ps.map Placed.instruction) := by
  induction h with
  | stop => rfl
  | next _ _ ih => rw [List.map_cons, placedFrom, ← ih]

/-- Code that has the bytes of instructions is split into these. -/
theorem splits_placedFrom (hle : offset ≤ b.code.size)
    (h : b.code.toList.drop offset = is.flatMap Instruction.bytes) : b.Splits offset (placedFrom offset is) := by
  induction is generalizing offset with
  | nil =>
    have hge : b.code.size ≤ offset := by
      rw [← Array.length_toList]
      exact List.drop_eq_nil_iff.1 h
    obtain rfl := Nat.le_antisymm hle hge
    exact .stop
  | cons i is ih =>
    rw [List.flatMap_cons] at h
    have hfetch := (fetch_eq_instruction_iff b offset i).2 ⟨_, h.symm⟩
    refine .next hfetch (ih (stop_le_of_fetch hfetch) ?_)
    rw [← List.drop_drop, h, List.drop_left' i.length_bytes]

theorem Flows.mem (h : Flows ps p q) : q ∈ ps := by
  cases h <;> assumption

theorem Reached.mem (h : Reached ps p) : p ∈ ps := by
  cases h with
  | first hp => exact List.mem_of_head? hp
  | flow _ hflows => exact hflows.mem

/-- Control goes where the validator follows. -/
theorem Flows.mem_successors (h : Flows ps p q) : q.offset ∈ successors p := by
  cases h with
  | next hhalt hjump _ hoffset => exact mem_successors_iff.2 ⟨hhalt, .inl ⟨hoffset, hjump⟩⟩
  | @jump d hd _ hoffset =>
    have hhalt : p.instruction.opcode ≠ .halt := by
      obtain ⟨offset, ⟨o, x⟩⟩ := p
      rintro rfl
      cases hd
    exact mem_successors_iff.2 ⟨hhalt, .inr ⟨d, hd, by rw [← hoffset, Int.toNat_natCast]⟩⟩

/-! ### Operands -/

/-- Nothing is wrong with the name of a constant of the right kind. -/
private theorem operandDefect?_constant {constants : Array Value} {i : Instruction} {need : ConstantNeed} {n : Nat}
    (hneed : i.opcode.constantNeed? = some need) (hindex : constantIndex? i = some n) :
    operandDefect? constants i = none ↔ ∃ v, constants[n]? = some v ∧ need.accepts v = true := by
  unfold operandDefect?
  split
  · cases hneed
  · simp only [hneed, hindex]
    cases constants[n]? with
    | none => simp
    | some v => simp

/-- Nothing is wrong with an operand that names a constant of the right kind or a runtime function. -/
theorem operandDefect?_eq_none_iff {constants : Array Value} {i : Instruction} :
    operandDefect? constants i = none ↔
      (∀ n, constantIndex? i = some n →
        ∃ need v, i.opcode.constantNeed? = some need ∧ constants[n]? = some v ∧ need.accepts v = true) ∧
      ∀ code, i = ⟨.invoke, code⟩ → ∃ f : RuntimeFunction, f.code = code := by
  obtain ⟨o, x⟩ := i
  cases o
  case invoke =>
    obtain hnone | ⟨f, hf⟩ := Option.eq_none_or_eq_some (RuntimeFunction.ofCode? x)
    · refine iff_of_false ?_ ?_
      · simp [operandDefect?, hnone]
      · rintro ⟨-, h⟩
        obtain ⟨f, rfl⟩ := h x rfl
        rw [RuntimeFunction.ofCode?_code] at hnone
        cases hnone
    · refine iff_of_true ?_ ⟨?_, ?_⟩
      · simp [operandDefect?, hf]
      · rintro _ ⟨⟩
      · rintro code ⟨⟩
        exact ⟨f, RuntimeFunction.code_of_ofCode? hf⟩
  case constInt | constFloat | constant | getGlobal | callNative =>
    rw [operandDefect?_constant rfl rfl]
    constructor
    · rintro ⟨v, hv⟩
      constructor
      · rintro n ⟨⟩
        exact ⟨_, v, rfl, hv⟩
      · rintro _ ⟨⟩
    · rintro ⟨h, -⟩
      obtain ⟨need, v, ⟨⟩, hv⟩ := h _ rfl
      exact ⟨v, hv⟩
  -- all others have no operand that names anything
  all_goals
    refine iff_of_true rfl ⟨?_, ?_⟩
    · rintro _ ⟨⟩
    · rintro _ ⟨⟩

/-! ### Accepted programs are well-formed -/

namespace Valid

/-- Where control may come to, the validator has found a height. -/
theorem exists_height (h : b.Valid) (hp : Reached b.split.1.toList p) :
    ∃ n, (b.heights #[]).1[p.offset]? = some (some n) := by
  induction hp with
  | first hp =>
    obtain ⟨ps, hps⟩ := List.head?_eq_some_iff.1 hp
    have hoffset := (hps ▸ h.splits).offset_head
    exact ⟨0, hoffset ▸ h.initial.2⟩
  | @flow p q hp hflows ih =>
    obtain ⟨n, hn⟩ := ih
    have hmem := Array.mem_def.2 hp.mem
    obtain ⟨e, he⟩ := h.stackEffect hmem
    obtain ⟨-, -, hnext⟩ := h.settled hn p.instruction e (h.fetch hmem) he
    refine ⟨_, hnext q.offset hflows.mem_successors ?_⟩
    rw [h.heights.size_eq, Array.size_replicate]
    exact offset_lt_of_fetch (h.fetch (Array.mem_def.2 hflows.mem))

/-- The heights that the validator has found agree along every way. -/
theorem levels (h : b.Valid) :
    Levels b.split.1.toList fun offset => ((b.heights #[]).1[offset]?.bind id).getD 0 := by
  have hfound : ∀ {offset n : Nat}, (b.heights #[]).1[offset]? = some (some n) →
      ((b.heights #[]).1[offset]?.bind id).getD 0 = n := fun hn => by rw [hn]; rfl
  refine ⟨hfound h.initial.2, fun p hp => ?_, fun p hp hhalt => ?_⟩
  · have hmem := Array.mem_def.2 hp.mem
    obtain ⟨n, hn⟩ := h.exists_height hp
    obtain ⟨e, he⟩ := h.stackEffect hmem
    obtain ⟨hpops, -, hnext⟩ := h.settled hn p.instruction e (h.fetch hmem) he
    refine ⟨e, he, by rwa [hfound hn], fun q hflows => ?_⟩
    have hlt : q.offset < (b.heights #[]).1.size := by
      rw [h.heights.size_eq, Array.size_replicate]
      exact offset_lt_of_fetch (h.fetch (Array.mem_def.2 hflows.mem))
    rw [hfound hn, hfound (hnext q.offset hflows.mem_successors hlt)]
    omega
  · have hmem := Array.mem_def.2 hp.mem
    obtain ⟨n, hn⟩ := h.exists_height hp
    obtain ⟨e, he⟩ := h.stackEffect hmem
    obtain ⟨-, hone, -⟩ := h.settled hn p.instruction e (h.fetch hmem) he
    rw [Instruction.stackEffect?, hhalt] at he
    cases he
    rw [hfound hn]
    exact hone hhalt

theorem wellFormed (h : b.Valid) : b.WellFormed (b.split.1.toList.map Placed.instruction) := by
  have hplaced := h.splits.eq_placedFrom
  have hoperand : ∀ i ∈ b.split.1.toList.map Placed.instruction, operandDefect? b.constants i = none := by
    rintro _ hi
    obtain ⟨p, hp, rfl⟩ := List.mem_map.1 hi
    exact h.operands p (Array.mem_def.2 hp)
  refine ⟨?_, ?_, ?_, fun i hi => (operandDefect?_eq_none_iff.1 (hoperand i hi)).1,
    fun i hi => (operandDefect?_eq_none_iff.1 (hoperand i hi)).2, ?_⟩
  · rw [List.flatMap_map, ← h.splits.bytes_eq, List.drop_zero]
  · obtain ⟨p, hp⟩ := Option.ne_none_iff_exists'.1 h.nonempty
    refine ⟨p.instruction, ?_, h.halts p hp⟩
    rw [List.getLast?_map, Array.getLast?_toList, hp]
    rfl
  · rw [← hplaced]
    intro p hp d hd
    obtain ⟨q, hq, hoffset⟩ := h.lands (Array.mem_def.2 hp) hd
    exact ⟨q, Array.mem_def.1 hq, hoffset⟩
  · rw [← hplaced]
    exact ⟨_, h.levels⟩

end Valid

/-! ### Well-formed programs are accepted -/

namespace WellFormed

theorem splits (h : b.WellFormed is) : b.Splits 0 (placedFrom 0 is) := splits_placedFrom (Nat.zero_le _) h.bytes

/-- The last instruction at its place. -/
theorem getLast? (h : b.WellFormed is) :
    ∃ p, (placedFrom 0 is).getLast? = some p ∧ p.instruction.opcode = .halt := by
  obtain ⟨i, hi, hhalt⟩ := h.last
  rw [← map_placedFrom 0 is, List.getLast?_map] at hi
  obtain ⟨p, hp, rfl⟩ := Option.map_eq_some_iff.1 hi
  exact ⟨p, hp, hhalt⟩

/-- The heights that are given, at the places that control may come to. -/
theorem assigns (h : b.WellFormed is) {height : Nat → Nat} (hlevels : Levels (placedFrom 0 is) height) :
    b.Assigns fun offset n => ∃ p, Reached (placedFrom 0 is) p ∧ p.offset = offset ∧ height offset = n where
  start := by
    obtain ⟨i, hi, -⟩ := h.last
    cases is with
    | nil => cases hi
    | cons i is => exact ⟨⟨0, i⟩, .first rfl, rfl, hlevels.first⟩
  unique := by
    rintro _ _ _ ⟨-, -, -, rfl⟩ ⟨-, -, -, rfl⟩
    rfl
  settled := by
    rintro _ _ ⟨p, hp, rfl, rfl⟩
    obtain ⟨e, he, hpops, hflow⟩ := hlevels.flow p hp
    refine ⟨p.instruction, e, h.splits.fetch_of_mem hp.mem, he, hpops, fun hhalt => ?_, fun next hnext => ?_⟩
    · have hone := hlevels.halt p hp hhalt
      rw [Instruction.stackEffect?, hhalt] at he
      cases he
      exact hone
    · -- what may come next is an instruction, and control goes there
      obtain ⟨q, hq, rfl⟩ : ∃ q, Flows (placedFrom 0 is) p q ∧ q.offset = next := by
        obtain ⟨hhalt, ⟨rfl, hjump⟩ | ⟨d, hd, rfl⟩⟩ := mem_successors_iff.1 hnext
        · obtain ⟨last, hlast, hlasthalt⟩ := h.getLast?
          obtain ⟨q, hq, hoffset⟩ := h.splits.next_of_last
            (fun p hp => Option.some.inj (hlast.symm.trans hp) ▸ hlasthalt) hp.mem hhalt
          exact ⟨q, .next hhalt hjump hq hoffset, hoffset⟩
        · obtain ⟨q, hq, hoffset⟩ := h.jumps p hp.mem d hd
          refine ⟨q, .jump hd hq hoffset, ?_⟩
          change q.offset = ((p.stop : Int) + d).toNat
          rw [← hoffset, Int.toNat_natCast]
      have := hflow q hq
      exact ⟨q, hp.flow hq, rfl, by omega⟩

theorem validate (h : b.WellFormed is) : b.validate = .ok () := by
  obtain ⟨height, hlevels⟩ := h.levels
  refine validate_of_assigns h.splits h.getLast? h.jumps (fun p hp => ?_) (h.assigns hlevels)
  have hi : p.instruction ∈ is := map_placedFrom 0 is ▸ List.mem_map_of_mem hp
  exact operandDefect?_eq_none_iff.2 ⟨h.constants _ hi, h.functions _ hi⟩

end WellFormed

/-- The validator accepts exactly the well-formed programs. Its worklist comes to an end with every program, after two
passes for each byte of the code at most and one for the start. -/
theorem validate_iff_wellFormed (b : Bytecode) :
    (b.validate = .ok () ↔ ∃ is, b.WellFormed is) ∧
      ∀ errors n, 2 * b.code.size + 1 ≤ n →
        (Worklist.pass b)^[n] (.start b errors) = ⟨[], (b.heights errors).1, (b.heights errors).2⟩ := by
  refine ⟨⟨fun h => ⟨_, (valid_of_validate h).wellFormed⟩, fun ⟨_, h⟩ => h.validate⟩, fun errors n hn => ?_⟩
  rw [← Worklist.measure_start b errors] at hn
  exact Worklist.passes_eq b hn

end TemplateExpr.Bytecode
