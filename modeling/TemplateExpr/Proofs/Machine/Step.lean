import TemplateExpr.Proofs.Machine.Run
import TemplateExpr.Proofs.Machine.StackEffect

/-!
# One step of a run

A step executes the instruction that it comes to, or finds none and fails (`step_instruction`, `step_fault`). A step that
is not the last replaces slots as the table of stack effects says and goes to a place to which its instruction leads
(`step_running`). If the machine raises an error at an instruction, the instruction itself failed, or a native function is
missing, or there was no room for its result (`Raises.instruction`).
-/

namespace TemplateExpr

namespace Bytecode

/-- What is wrong at an offset at which no instruction stands. -/
def fetchFault? (b : Bytecode) (offset : Nat) : Option Fault :=
  match b.fetch offset with
  | .outside | .unknown _ => some .unknownOpcode
  | .truncated o operand => some (b.truncationFault o operand)
  | .instruction _ => none

theorem fetch_cases (b : Bytecode) (offset : Nat) :
    (∃ i, b.fetch offset = .instruction i) ∨ ∃ f, b.fetchFault? offset = some f := by
  unfold fetchFault?
  cases b.fetch offset with
  | instruction i => exact .inl ⟨i, rfl⟩
  | _ => exact .inr ⟨_, rfl⟩

end Bytecode

namespace Context

variable {σ : Type} {c : Context} {natives : String → Option (Native σ)}

/-- A step at an instruction, case by case. -/
theorem step_instruction (natives : String → Option (Native σ)) {s : State σ} {i : Instruction}
    (hi : c.bytecode.fetch s.ip = .instruction i) :
    c.step natives s = match i.execute c (s.ip + i.size) s.stack with
      | .error f => .done (.error ⟨f, c.spanAt s.ip⟩) ⟨.empty, s.ip, s.ip, s.host, s.calls⟩
      | .ok (.next stack ip) => .running ⟨stack, ip, s.ip, s.host, s.calls⟩
      | .ok (.call name arguments stack ip) => c.callNative natives s.ip name arguments stack ip s.host s.calls
      | .ok (.halt v) => .done (.ok v) ⟨.empty, s.ip, s.ip, s.host, s.calls⟩ := by
  unfold step
  split
  rewrite [hi]
  rfl

/-- A step where no instruction stands. -/
theorem step_fault (natives : String → Option (Native σ)) {s : State σ} {f : Fault}
    (hf : c.bytecode.fetchFault? s.ip = some f) :
    c.step natives s = .done (.error ⟨f, c.spanAt s.ip⟩) ⟨.empty, s.ip, s.ip, s.host, s.calls⟩ := by
  unfold Bytecode.fetchFault? at hf
  cases hi : c.bytecode.fetch s.ip with
  | instruction i =>
    rw [hi] at hf
    cases hf
  | _ =>
    rw [hi] at hf
    cases hf
    unfold step
    split
    rewrite [hi]
    rfl

/-- A call that goes on has pushed a reference. -/
theorem callNative_running {start ip : Nat} {name : String} {arguments : List Value} {stack : Stack} {host : σ}
    {calls : Array NativeCall} {t : State σ}
    (h : c.callNative natives start name arguments stack ip host calls = .running t) :
    t.ip = ip ∧ ∃ v, t.stack = stack.push (.ref v) := by
  unfold callNative at h
  split at h
  · cases h
  · dsimp only at h
    split at h
    · cases h
    · rename_i v _ _
      obtain hpush | hpush := stack.checkedPush_cases c.limit (.ref v)
      · rw [hpush] at h
        cases h
        exact ⟨rfl, _, rfl⟩
      · rw [hpush] at h
        cases h

/-- A call by which the machine ends the run. -/
theorem callNative_raises {start ip : Nat} {name : String} {arguments : List Value} {stack : Stack} {s last : State σ}
    {e : RuntimeError} (h : c.callNative natives start name arguments stack ip s.host s.calls = .done (.error e) last)
    (hnative : ¬ NativeError natives s last e) :
    (e.fault = .unknownFunction name ∨ e.fault = .stackOverflow c.limit) ∧ e.span = c.spanAt start := by
  unfold callNative at h
  split at h
  · cases h
    exact ⟨.inl rfl, rfl⟩
  · rename_i f hf
    dsimp only at h
    split at h
    · rename_i e' host' hcall
      cases h
      exact absurd ⟨name, f, arguments, hf, rfl, hcall⟩ hnative
    · rename_i v _ _
      obtain hpush | hpush := stack.checkedPush_cases c.limit (.ref v)
      · rw [hpush] at h
        cases h
      · rw [hpush] at h
        cases h
        exact ⟨.inr rfl, rfl⟩

theorem step_running {s t : State σ} {i : Instruction} {e : StackEffect}
    (hi : c.bytecode.fetch s.ip = .instruction i) (he : i.stackEffect? = some e)
    (h : c.step natives s = .running t) : s.stack.Replaces e t.stack ∧ i.LeadsTo (s.ip + i.size) t.ip := by
  have hr := i.execute_respects c (s.ip + i.size) s.stack he
  rw [step_instruction natives hi] at h
  revert h hr
  cases i.execute c (s.ip + i.size) s.stack with
  | error f => exact fun h => nomatch h
  | ok action =>
    cases action with
    | next stack ip =>
      intro h hr
      cases h
      exact hr
    | halt v => exact fun h => nomatch h
    | call name arguments stack ip =>
      intro h hr
      obtain ⟨⟨hle, top, htop, hslots⟩, hpushes, -, hip, hhalt, hjump⟩ := hr
      obtain ⟨htip, v, hv⟩ := callNative_running h
      refine ⟨⟨hle, [.ref v], hpushes.symm, ?_⟩, .inl ⟨htip.trans hip, hjump, hhalt⟩⟩
      rw [hv, Stack.slots_push, hslots, List.length_eq_zero_iff.1 htop]
      rfl

/-- What the machine may complain of at an instruction. -/
theorem Raises.instruction {s : State σ} {i : Instruction} {e : RuntimeError} (h : c.Raises natives s e)
    (hi : c.bytecode.fetch s.ip = .instruction i) :
    i.execute c (s.ip + i.size) s.stack = .error e.fault ∨ (∃ name, e.fault = .unknownFunction name) ∨
      e.fault = .stackOverflow c.limit := by
  obtain ⟨last, hstep, hnative⟩ := h
  rw [step_instruction natives hi] at hstep
  split at hstep
  · rename_i f hf
    cases hstep
    exact .inl hf
  · cases hstep
  · rename_i name arguments stack ip _
    obtain hname | hover := (callNative_raises hstep hnative).1
    · exact .inr (.inl ⟨name, hname⟩)
    · exact .inr (.inr hover)
  · cases hstep

end Context

end TemplateExpr
