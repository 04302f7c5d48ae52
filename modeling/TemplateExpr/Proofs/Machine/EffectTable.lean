import TemplateExpr.Proofs.Machine.Step

/-!
# The table of stack effects and the machine

Every instruction that can be executed at all has an entry in the table (`Instruction.exists_stackEffect?`). The
machine does what the entry says and nothing else:

* (too few slots) an instruction always fails on fewer slots than its entry takes (`Instruction.execute_of_lt`), and
  only then misses one (`Instruction.lt_of_underflow`);
* (enough slots) where a step goes on, it has left all slots below those that its entry takes as they were
  (`Stack.Replaces.lowest`).

The main result, `Context.step_exact`, says so of every state of a run.
-/

namespace TemplateExpr

/-! ### Slots below -/

namespace Stack

/-- So many of the lowest slots, the topmost of them first. -/
def lowest (s : Stack) (count : Nat) : List Slot := s.slots.drop (s.height - count)

/-- What is below the slots that are replaced stays as it is. -/
theorem Replaces.lowest {s t : Stack} {e : StackEffect} (h : s.Replaces e t) :
    t.lowest (s.height - e.pops) = s.lowest (s.height - e.pops) := by
  have hheight := h.height
  obtain ⟨hpops, top, htop, hslots⟩ := h
  have habove : t.height - (s.height - e.pops) = top.length := by omega
  have hbelow : s.height - (s.height - e.pops) = e.pops := by omega
  rw [Stack.lowest, Stack.lowest, habove, hbelow, hslots, List.drop_left]

end Stack

/-! ### Operands that are refused -/

/-- A malformed operand is the cause of the failure. -/
def Fault.Refuses {α : Type} (r : Except Fault α) : Prop := ∃ cause, r = .error (.operand cause)

theorem Fault.Refuses.bind {α β : Type} {r : Except Fault α} (h : Refuses r) (k : α → Except Fault β) :
    Refuses (r >>= k) := by
  obtain ⟨cause, rfl⟩ := h
  exact ⟨cause, rfl⟩

theorem Fault.Refuses.map {α β : Type} {r : Except Fault α} (h : Refuses r) (f : α → β) : Refuses (r.map f) := by
  obtain ⟨cause, rfl⟩ := h
  exact ⟨cause, rfl⟩

open Fault

/-- The machine looks constants up as the validator does, and takes no others. -/
theorem Bytecode.refuses_constant {b : Bytecode} {i : Instruction} {need : ConstantNeed} {index : UInt16} {d : Defect}
    {α : Type} {k : Value → Except Fault α} (hneed : i.opcode.constantNeed? = some need)
    (hindex : constantIndex? i = some index.toNat) (h : operandDefect? b.constants i = some d)
    (hk : ∀ v, need.accepts v = false → Refuses (k v)) : Refuses (b.constantAt index >>= k) := by
  unfold operandDefect? at h
  split at h
  · cases hneed
  · simp only [hneed, hindex] at h
    unfold constantAt
    split at h
    · rename_i hnone
      rw [hnone]
      exact ⟨_, rfl⟩
    · rename_i v hv
      rw [hv]
      split at h
      · cases h
      · rename_i haccepts
        exact hk v (Bool.eq_false_iff.2 haccepts)

theorem Bytecode.refuses_nameAt {b : Bytecode} {i : Instruction} {index : UInt16} {d : Defect}
    (hneed : i.opcode.constantNeed? = some .name) (hindex : constantIndex? i = some index.toNat)
    (h : operandDefect? b.constants i = some d) : Refuses (b.nameAt index) := by
  refine refuses_constant hneed hindex h fun v hv => ?_
  cases v with
  | string s => cases hv
  | _ => exact ⟨_, rfl⟩

namespace Instruction

variable {c : Context} {stop : Nat} {s : Stack} {i : Instruction} {e : StackEffect}

/-- An operand that the validator objects to is refused before the stack is looked at. -/
theorem refuses_of_operandDefect? {d : Defect} (h : Bytecode.operandDefect? c.bytecode.constants i = some d)
    (stop : Nat) (s : Stack) : Refuses (i.execute c stop s) := by
  obtain ⟨o, x⟩ := i
  cases o
  case constInt =>
    refine (Refuses.bind (Bytecode.refuses_constant rfl rfl h fun v hv => ?_) _).map _
    cases v with
    | int n => cases hv
    | _ => exact ⟨_, rfl⟩
  case constFloat =>
    refine (Refuses.bind (Bytecode.refuses_constant rfl rfl h fun v hv => ?_) _).map _
    cases v with
    | float x => cases hv
    | _ => exact ⟨_, rfl⟩
  case constant => exact (Bytecode.refuses_constant rfl rfl h nofun).map _
  case getGlobal => exact (Refuses.bind (Bytecode.refuses_nameAt rfl rfl h) _).map _
  case callNative => exact Refuses.bind (Bytecode.refuses_nameAt rfl rfl h) _
  case invoke =>
    have hnone : RuntimeFunction.ofCode? x = none := by
      cases hf : RuntimeFunction.ofCode? x with
      | none => rfl
      | some f => simp [Bytecode.operandDefect?, hf] at h
    have hinvoke : s.invoke c.limit x = .error (.operand (.unknownFunction x)) := by
      unfold Stack.invoke
      rw [hnone]
    exact Refuses.map ⟨_, hinvoke⟩ _
  all_goals cases h

/-! ### Instructions on too few slots -/

/-- Only a runtime function that does not exist has no entry in the table. -/
theorem exists_stackEffect? (h : ∀ code, i = ⟨.invoke, code⟩ → (RuntimeFunction.ofCode? code).isSome = true) :
    ∃ e, i.stackEffect? = some e := by
  obtain ⟨o, x⟩ := i
  cases o
  case invoke =>
    obtain ⟨f, hf⟩ := Option.isSome_iff_exists.1 (h x rfl)
    exact ⟨⟨f.arity, 1⟩, Option.map_eq_some_iff.2 ⟨f, hf, rfl⟩⟩
  all_goals exact ⟨_, rfl⟩

/-- Where slots are missing, no instruction goes on, wants a call or halts. -/
theorem execute_of_lt (he : i.stackEffect? = some e) (hlt : s.height < e.pops) :
    ∃ f, i.execute c stop s = .error f := by
  have hr := i.execute_respects c stop s he
  cases hexec : i.execute c stop s with
  | error f => exact ⟨f, rfl⟩
  | ok action =>
    rw [hexec] at hr
    cases action with
    | next t ip => exact absurd hr.1.1 (Nat.not_le.2 hlt)
    | call name arguments t ip => exact absurd hr.1.1 (Nat.not_le.2 hlt)
    | halt v =>
      have hhalt : i.opcode = .halt := hr
      rw [stackEffect?, hhalt] at he
      cases he
      exact absurd hlt (Nat.not_lt_zero _)

/-- An instruction misses a slot only if there are fewer than it takes. -/
theorem lt_of_underflow (he : i.stackEffect? = some e) (h : i.execute c stop s = .error .stackUnderflow) :
    s.height < e.pops := by
  have hr := i.execute_respects c stop s he
  rw [h] at hr
  obtain ⟨-, hlt⟩ | ⟨-, -, himbalance⟩ | hdefect := hr rfl
  · exact hlt
  · cases himbalance
  · obtain ⟨d, hd⟩ := Option.ne_none_iff_exists'.1 hdefect
    obtain ⟨cause, hoperand⟩ := refuses_of_operandDefect? hd stop s
    rw [h] at hoperand
    cases hoperand

end Instruction

/-! ### Steps -/

namespace Context

variable {σ : Type}

/-- A step of the machine against the table: it fails on too few slots, it misses a slot only then, and where it goes
on it has replaced as many slots as the table says and touched none below. -/
theorem step_exact (c : Context) (natives : String → Option (Native σ)) (s : State σ) {i : Instruction}
    (hi : c.bytecode.fetch s.ip = .instruction i)
    (hf : ∀ code, i = ⟨.invoke, code⟩ → (RuntimeFunction.ofCode? code).isSome = true) :
    ∃ e, i.stackEffect? = some e ∧
      (s.stack.height < e.pops → ∃ err, c.Raises natives s err) ∧
      (∀ err, c.Raises natives s err → err.fault = .stackUnderflow → s.stack.height < e.pops) ∧
      ∀ t, c.step natives s = .running t →
        e.pops ≤ s.stack.height ∧ t.stack.height = s.stack.height - e.pops + e.pushes ∧
          t.stack.lowest (s.stack.height - e.pops) = s.stack.lowest (s.stack.height - e.pops) := by
  obtain ⟨e, he⟩ := Instruction.exists_stackEffect? hf
  refine ⟨e, he, fun hlt => ?_, fun err hraises hunderflow => ?_, fun t ht => ?_⟩
  · obtain ⟨f, hexec⟩ : ∃ f, i.execute c (s.ip + i.size) s.stack = .error f := Instruction.execute_of_lt he hlt
    refine ⟨⟨f, c.spanAt s.ip⟩, ⟨.empty, s.ip, s.ip, s.host, s.calls⟩, ?_, not_nativeError_of_calls rfl _⟩
    rw [step_instruction natives hi, hexec]
  · obtain hfail | ⟨name, hname⟩ | hover := hraises.instruction hi
    · exact Instruction.lt_of_underflow he (hunderflow ▸ hfail)
    · rw [hunderflow] at hname
      cases hname
    · rw [hunderflow] at hover
      cases hover
  · have hreplaces := (step_running hi he ht).1
    exact ⟨hreplaces.1, hreplaces.height, hreplaces.lowest⟩

/-- A call of a native function with two arguments, as the first instruction of a program. -/
def callOfTwo : Context := ⟨⟨#[0x62, 0x00, 0x00, 0x02, 0xFF], #[.string "first"], #[]⟩, .empty, 3⟩

/-- A host whose only function answers with its first argument. -/
def firstOnly (name : String) : Option (Native Unit) :=
  if name = "first" then some fun arguments host => (.ok (arguments.headD .null), host) else none

/-- On one slot the call fails; on three it replaces the upper two and leaves the lowest. -/
theorem step_exact_callOfTwo :
    let one := Stack.empty.push (.ref .null)
    let three := (one.push (.int 5)).push (.bool true)
    callOfTwo.bytecode.fetch 0 = .instruction ⟨.callNative, 0, 2⟩ ∧
      (∃ err, callOfTwo.Raises firstOnly ⟨one, 0, 0, (), #[]⟩ err) ∧
      ∃ t, callOfTwo.step firstOnly ⟨three, 0, 0, (), #[]⟩ = .running t ∧ t.stack.height = 2 ∧
        t.stack.lowest 1 = [.ref .null] := by
  intro one three
  have hi : callOfTwo.bytecode.fetch 0 = .instruction ⟨.callNative, 0, 2⟩ := rfl
  obtain ⟨e, he, hfails, -, -⟩ := callOfTwo.step_exact firstOnly ⟨one, 0, 0, (), #[]⟩ hi nofun
  obtain ⟨e', he', -, -, hgoes⟩ := callOfTwo.step_exact firstOnly ⟨three, 0, 0, (), #[]⟩ hi nofun
  cases he
  cases he'
  obtain ⟨-, hheight, hlowest⟩ := hgoes ⟨one.push (.ref (.int 5)), 4, 0, (), #[⟨"first", [.int 5, .bool true]⟩]⟩ rfl
  exact ⟨hi, hfails (by decide), _, rfl, hheight, hlowest⟩

end Context

end TemplateExpr
