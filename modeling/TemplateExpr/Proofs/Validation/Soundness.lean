import Mathlib
import TemplateExpr.Proofs.Machine.Step
import TemplateExpr.Proofs.Validation.Heights
import TemplateExpr.Proofs.Validation.Splitting

/-!
# Valid programs run safely

* (checks) what the validator has found out about a program that it accepts (`valid_of_validate`);
* (invariant) the machine stands at the start of an instruction, with the stack as high as the validator has computed
  for that offset (`Expects`), which every step preserves (`Valid.step`);
* (safety) under the invariant the machine cannot raise a fault that validation is to rule out (`Valid.raises`).
-/

namespace TemplateExpr.Bytecode

/-! ### The checks -/

/-- What the validator finds out. -/
structure Valid (b : Bytecode) : Prop where
  splits : b.Splits 0 b.split.1.toList
  jumps : ∀ p ∈ b.split.1, jumpDefect? (b.starts b.split.1) p = none
  operands : ∀ p ∈ b.split.1, operandDefect? b.constants p.instruction = none
  heights : b.Completes [(0, 0)] (Array.replicate b.code.size none) (b.heights #[]).1
  halts : ∀ p, b.split.1.back? = some p → p.instruction.opcode = .halt
  nonempty : b.split.1.back? ≠ none

private theorem collect_list {check : Placed → Option Defect} {placed : List Placed} {errors : Array ValidationError}
    (h : placed.foldl (fun errors p =>
      match check p with
      | some d => errors.push ⟨p.offset, d⟩
      | none => errors) errors = #[]) : errors = #[] ∧ ∀ p ∈ placed, check p = none := by
  induction placed generalizing errors with
  | nil => exact ⟨h, nofun⟩
  | cons p placed ih =>
    obtain ⟨herrors, hplaced⟩ := ih h
    cases hp : check p with
    | none =>
      simp only [hp] at herrors
      refine ⟨herrors, fun q hq => ?_⟩
      obtain rfl | hq := List.mem_cons.1 hq
      · exact hp
      · exact hplaced q hq
    | some d =>
      simp only [hp] at herrors
      simp at herrors

/-- A check that adds no error finds nothing wrong. -/
theorem of_collect {check : Placed → Option Defect} {placed : Array Placed} {errors : Array ValidationError}
    (h : collect check placed errors = #[]) : errors = #[] ∧ ∀ p ∈ placed, check p = none := by
  unfold collect at h
  rw [← Array.foldl_toList] at h
  obtain ⟨herrors, hplaced⟩ := collect_list h
  exact ⟨herrors, fun p hp => hplaced p (Array.mem_def.1 hp)⟩

/-- The heights are only checked when nothing else is wrong. -/
private theorem errors_of_validate {b : Bytecode} (h : b.validate = .ok ()) :
    collect (fun p => operandDefect? b.constants p.instruction) b.split.1
        (collect (jumpDefect? (b.starts b.split.1)) b.split.1 b.split.2) = #[] ∧
      (b.heights #[]).2 = #[] ∧ terminatorErrors b.split.1 = [] := by
  have hnone : b.validationErrors = [] := by
    unfold validate at h
    split at h
    · assumption
    · cases h
  generalize hall : collect (fun p => operandDefect? b.constants p.instruction) b.split.1
    (collect (jumpDefect? (b.starts b.split.1)) b.split.1 b.split.2) = errors
  have heq : b.validationErrors =
      (if errors.isEmpty then (b.heights errors).2 else errors).toList ++ terminatorErrors b.split.1 := hall ▸ rfl
  rw [heq] at hnone
  obtain ⟨herrors, hterminator⟩ := List.append_eq_nil_iff.1 hnone
  rw [Array.toList_eq_nil_iff] at herrors
  split at herrors
  · rename_i hempty
    have hnil := Array.isEmpty_iff.1 hempty
    rw [hnil] at herrors
    exact ⟨hnil, herrors, hterminator⟩
  · rename_i hempty
    exact absurd (Array.isEmpty_iff.2 herrors) hempty

theorem valid_of_validate {b : Bytecode} (h : b.validate = .ok ()) : b.Valid := by
  obtain ⟨hall, hheights, hterminator⟩ := errors_of_validate h
  obtain ⟨hjump, hoperands⟩ := of_collect hall
  obtain ⟨hsplit, hjumps⟩ := of_collect hjump
  refine ⟨splits_of_split hsplit, hjumps, hoperands, completes_of_heights hheights, ?_, ?_⟩
  · intro p hp
    unfold terminatorErrors at hterminator
    simp only [hp] at hterminator
    split at hterminator
    · assumption
    · cases hterminator
  · intro hback
    unfold terminatorErrors at hterminator
    simp only [hback] at hterminator
    cases hterminator

private theorem starts_list {placed : List Placed} {marks : Array Bool} {offset : Nat}
    (h : (placed.foldl (fun marks p => marks.setIfInBounds p.offset true) marks)[offset]? = some true) :
    marks[offset]? = some true ∨ ∃ p ∈ placed, p.offset = offset := by
  induction placed generalizing marks with
  | nil => exact .inl h
  | cons p placed ih =>
    obtain hmarks | ⟨q, hq, hoffset⟩ := ih h
    · by_cases hp : p.offset = offset
      · exact .inr ⟨p, List.mem_cons_self, hp⟩
      · rw [Array.getElem?_setIfInBounds_ne hp] at hmarks
        exact .inl hmarks
    · exact .inr ⟨q, List.mem_cons_of_mem _ hq, hoffset⟩

/-- Where a start is marked, an instruction was found. -/
theorem of_starts {b : Bytecode} {placed : Array Placed} {offset : Nat}
    (h : (b.starts placed)[offset]? = some true) : ∃ p ∈ placed, p.offset = offset := by
  unfold starts at h
  rw [← Array.foldl_toList] at h
  obtain h | ⟨p, hp, hoffset⟩ := starts_list h
  · rw [Array.getElem?_replicate] at h
    split at h <;> cases h
  · exact ⟨p, Array.mem_def.2 hp, hoffset⟩

/-! ### The invariant -/

/-- An instruction was found at the offset, and the stack is expected to have this height there. -/
def Expects (b : Bytecode) (offset height : Nat) : Prop :=
  (∃ p ∈ b.split.1, p.offset = offset) ∧ (b.heights #[]).1[offset]? = some (some height)

namespace Valid

variable {b : Bytecode} {p : Placed}

theorem fetch (h : b.Valid) (hp : p ∈ b.split.1) : b.fetch p.offset = .instruction p.instruction :=
  h.splits.fetch_of_mem (Array.mem_def.1 hp)

/-- Every instruction of a valid program has a known effect. -/
theorem stackEffect (h : b.Valid) (hp : p ∈ b.split.1) : ∃ e, p.instruction.stackEffect? = some e := by
  have hd := h.operands p hp
  obtain ⟨offset, ⟨o, x⟩⟩ := p
  cases o
  case invoke =>
    simp only [operandDefect?] at hd
    split at hd
    · rename_i hsome
      obtain ⟨f, hf⟩ := Option.isSome_iff_exists.1 hsome
      exact ⟨⟨f.arity, 1⟩, Option.map_eq_some_iff.2 ⟨f, hf, rfl⟩⟩
    · cases hd
  all_goals exact ⟨_, rfl⟩

theorem settled (h : b.Valid) {offset height : Nat} (ho : (b.heights #[]).1[offset]? = some (some height)) :
    b.Settled (b.heights #[]).1 offset height := by
  obtain hold | hsettled := h.heights.settles offset height ho
  · rw [Array.getElem?_replicate] at hold
    split at hold <;> cases hold
  · exact hsettled

/-- An instruction that does not halt is followed by another. -/
theorem next (h : b.Valid) (hp : p ∈ b.split.1) (hhalt : p.instruction.opcode ≠ .halt) :
    ∃ q ∈ b.split.1, q.offset = p.stop := by
  have hlast : ∀ p, b.split.1.toList.getLast? = some p → p.instruction.opcode = .halt := by
    rw [Array.getLast?_toList]
    exact h.halts
  obtain ⟨q, hq, hoffset⟩ := h.splits.next_of_last hlast (Array.mem_def.1 hp) hhalt
  exact ⟨q, Array.mem_def.2 hq, hoffset⟩

/-- A jump of a valid program leads to an instruction. -/
theorem lands (h : b.Valid) (hp : p ∈ b.split.1) {d : Int} (hd : jumpDistance? p.instruction = some d) :
    ∃ q ∈ b.split.1, (q.offset : Int) = p.stop + d := by
  have hdefect := h.jumps p hp
  unfold jumpDefect? at hdefect
  simp only [hd, Option.bind_some] at hdefect
  split at hdefect
  · cases hdefect
  · rename_i hrange
    split at hdefect
    · rename_i hmark
      obtain ⟨q, hq, hoffset⟩ := of_starts hmark
      exact ⟨q, hq, by omega⟩
    · cases hdefect

theorem target (h : b.Valid) (hp : p ∈ b.split.1) {d : Int16} (hd : jumpDistance? p.instruction = some d.toInt) :
    jumpTarget p.stop d = ((p.stop : Int) + d.toInt).toNat ∧ ∃ q ∈ b.split.1, q.offset = jumpTarget p.stop d := by
  obtain ⟨q, hq, hoffset⟩ := h.lands hp hd
  have htarget : jumpTarget p.stop d = ((p.stop : Int) + d.toInt).toNat := by
    simp only [jumpTarget]
    rw [if_neg (by omega)]
  exact ⟨htarget, q, hq, by omega⟩

/-- Wherever an instruction leads, an instruction stands, and the validator has followed that way. -/
theorem successor (h : b.Valid) (hp : p ∈ b.split.1) {ip : Nat} (hip : p.instruction.LeadsTo p.stop ip) :
    ip ∈ successors p ∧ ∃ q ∈ b.split.1, q.offset = ip := by
  obtain ⟨rfl, hjump, hhalt⟩ | ⟨d, hd, rfl⟩ := hip
  · exact ⟨mem_successors_iff.2 ⟨hhalt, .inl ⟨rfl, hjump⟩⟩, h.next hp hhalt⟩
  · obtain ⟨htarget, hq⟩ := h.target hp hd
    have hhalt : p.instruction.opcode ≠ .halt := by
      obtain ⟨offset, ⟨o, x⟩⟩ := p
      rintro rfl
      cases hd
    exact ⟨mem_successors_iff.2 ⟨hhalt, .inr ⟨d.toInt, hd, htarget⟩⟩, hq⟩

variable {σ : Type} {c : Context} {natives : String → Option (Native σ)}

/-- The run begins where the validator begins. -/
theorem initial (h : b.Valid) : b.Expects 0 0 := by
  have hpos : 0 < b.code.size := by
    refine Nat.pos_of_ne_zero fun hzero => h.nonempty ?_
    have hnil := h.splits.eq_nil_of_le (Nat.le_of_eq hzero)
    rw [Array.toList_eq_nil_iff] at hnil
    rw [hnil]
    rfl
  obtain ⟨p, hp, hoffset⟩ := h.splits.head_of_lt hpos
  refine ⟨⟨p, Array.mem_def.2 hp, hoffset⟩, ?_⟩
  exact h.heights.reaches (0, 0) List.mem_cons_self (by rw [Array.size_replicate]; exact hpos)

theorem step (h : c.bytecode.Valid) {s t : State σ} (hs : c.bytecode.Expects s.ip s.stack.height)
    (hstep : c.step natives s = .running t) : c.bytecode.Expects t.ip t.stack.height := by
  obtain ⟨⟨p, hp, hoffset⟩, hheight⟩ := hs
  have hfetch : c.bytecode.fetch s.ip = .instruction p.instruction := hoffset ▸ h.fetch hp
  obtain ⟨e, he⟩ := h.stackEffect hp
  obtain ⟨hreplaces, hleads⟩ := Context.step_running hfetch he hstep
  rw [← hoffset] at hleads
  obtain ⟨hnext, q, hq, hqt⟩ := h.successor hp hleads
  refine ⟨⟨q, hq, hqt⟩, ?_⟩
  obtain ⟨-, -, hall⟩ := h.settled hheight p.instruction e hfetch he
  rw [hreplaces.height]
  apply hall t.ip
  · rw [← hoffset]
    exact hnext
  · rw [h.heights.size_eq, Array.size_replicate, ← hqt]
    exact offset_lt_of_fetch (h.fetch hq)

/-- What the machine complains of is nothing that the validator has ruled out. -/
theorem raises (h : c.bytecode.Valid) {s : State σ} (hs : c.bytecode.Expects s.ip s.stack.height)
    {e : RuntimeError} (he : c.Raises natives s e) : e.fault.preventable = false := by
  obtain ⟨⟨p, hp, hoffset⟩, hheight⟩ := hs
  have hfetch : c.bytecode.fetch s.ip = .instruction p.instruction := hoffset ▸ h.fetch hp
  obtain ⟨effect, heffect⟩ := h.stackEffect hp
  obtain ⟨hpops, hhalts, -⟩ := h.settled hheight p.instruction effect hfetch heffect
  -- what the table allows is what the validator has checked: slots, the halt and the operand
  obtain hfail | ⟨name, hname⟩ | hover := he.instruction hfetch
  · have hrespects := p.instruction.execute_respects c (s.ip + p.instruction.size) s.stack heffect
    rw [hfail] at hrespects
    refine Bool.eq_false_iff.2 fun hprevent => ?_
    obtain ⟨-, hlt⟩ | ⟨hhalt, hne, -⟩ | hdefect := hrespects hprevent
    · exact absurd hlt (Nat.not_lt.2 hpops)
    · have hone := hhalts hhalt
      rw [Instruction.stackEffect?, hhalt] at heffect
      cases heffect
      exact hne hone
    · exact hdefect (h.operands p hp)
  · rw [hname]
    rfl
  · rw [hover]
    rfl

end Valid

/-- A program that the validator accepts stands, whenever it runs, at an instruction that the validator has found,
with the stack as high as the validator has computed for it; and the machine raises none of the faults that validation
rules out. -/
theorem validate_sound {σ : Type} {b : Bytecode} (h : b.validate = .ok ()) (globals : OrderedMap Value)
    (natives : String → Option (Native σ)) (limit : Nat) (host : σ) (s : State σ)
    (hs : (Context.mk b globals limit).Steps natives (.initial host) s) :
    (∃ p ∈ b.split.1, p.offset = s.ip ∧ b.fetch s.ip = .instruction p.instruction) ∧
      (b.heights #[]).1[s.ip]? = some (some s.stack.height) ∧
      ∀ e, (Context.mk b globals limit).Raises natives s e → e.fault.preventable = false := by
  have hvalid := valid_of_validate h
  have hexpects : b.Expects s.ip s.stack.height :=
    hs.preserves (P := fun s => b.Expects s.ip s.stack.height) hvalid.initial
      fun _ _ hu hstep => Valid.step (c := ⟨b, globals, limit⟩) hvalid hu hstep
  obtain ⟨p, hp, hoffset⟩ := hexpects.1
  refine ⟨⟨p, hp, hoffset, hoffset ▸ hvalid.fetch hp⟩, hexpects.2, fun e he => ?_⟩
  exact Valid.raises (c := ⟨b, globals, limit⟩) hvalid hexpects he

/-- A program that pushes null and drops it, forever; the two instructions at its end are never reached. -/
def backwardLoop : Bytecode := ⟨#[0x01, 0x11, 0x50, 0xFF, 0xFB, 0x01, 0xFF], #[], #[]⟩

/-- The second time that the loop begins, the stack is again as high as the validator has computed. -/
theorem validate_sound_backwardLoop :
    backwardLoop.validate = .ok () ∧
      (Context.mk backwardLoop .empty 8).Steps (fun _ => none) (.initial ()) ⟨.empty, 0, 2, (), #[]⟩ ∧
      (backwardLoop.heights #[]).1[0]? = some (some 0) := by
  have hvalid : backwardLoop.validate = .ok () := by cbv
  have hsteps : (Context.mk backwardLoop .empty 8).Steps (fun _ => none) (.initial ()) ⟨.empty, 0, 2, (), #[]⟩ :=
    .head (t := ⟨Stack.empty.push (.ref .null), 1, 0, (), #[]⟩) rfl
      (.head (t := ⟨.empty, 2, 1, (), #[]⟩) rfl (.head rfl (.refl _)))
  exact ⟨hvalid, hsteps, (validate_sound hvalid .empty (fun _ => none) 8 () _ hsteps).2.1⟩

end TemplateExpr.Bytecode
