import TemplateExpr.Proofs.Validation.Forward

/-!
# Runs that correspond

Two machines whose steps look the same have runs that look the same, for every number of steps (`runFrom?_observe`).
There are two uses.

* (outside) An instruction that neither reads a global nor calls a function does the same whatever is outside of the
  program, and makes no call (`step_toHost`).
* (debug table) Programs that differ in their debug tables do the same, but for the spans of errors (`run?_debug`).
-/

namespace TemplateExpr

/-- What is seen of a step: the next state, or the result and the last state. -/
def Progress.observe {σ τ α : Type} (g : Except RuntimeError Value → α) (f : State σ → State τ) :
    Progress σ → State τ ⊕ α × State τ
  | .running s => .inl (f s)
  | .done result s => .inr (g result, f s)

namespace Context

variable {σ τ α : Type} {c c' : Context} {natives : String → Option (Native σ)} {natives' : String → Option (Native τ)}

/-- If the same is seen of a step and of that of the other machine, in all states that a run may come to, then the same
is seen of the runs. -/
theorem runFrom?_observe {P : State σ → Prop} {f : State σ → State τ} {g g' : Except RuntimeError Value → α}
    (hkeeps : ∀ s t, P s → c.step natives s = .running t → P t)
    (hstep : ∀ s, P s → (c.step natives s).observe g f = (c'.step natives' (f s)).observe g' id) {s : State σ}
    (hs : P s) (fuel : Nat) :
    (c.runFrom? natives fuel s).map (Prod.map g f) = (c'.runFrom? natives' fuel (f s)).map (Prod.map g' id) := by
  induction fuel generalizing s with
  | zero => rfl
  | succ fuel ih =>
    have hnow := hstep s hs
    unfold runFrom?
    cases hprogress : c.step natives s with
    | done result last =>
      rw [hprogress] at hnow
      cases hprogress' : c'.step natives' (f s) with
      | running t' =>
        rw [hprogress'] at hnow
        cases hnow
      | done result' last' =>
        rw [hprogress'] at hnow
        exact congrArg some (Sum.inr.inj hnow)
    | running t =>
      rw [hprogress] at hnow
      cases hprogress' : c'.step natives' (f s) with
      | done result' last' =>
        rw [hprogress'] at hnow
        cases hnow
      | running t' =>
        rw [hprogress'] at hnow
        obtain rfl : f t = t' := Sum.inl.inj hnow
        exact ih (hkeeps s t hs hprogress)

end Context

/-! ### What is outside -/

namespace Instruction

variable {i : Instruction}

/-- Instructions that read a global or call a native function. -/
def isExternal : Instruction → Bool
  | ⟨.getGlobal, _⟩ | ⟨.callNative, _⟩ => true
  | _ => false

/-- All others do not depend on the globals. -/
theorem execute_globals (h : i.isExternal = false) (b : Bytecode) (globals globals' : OrderedMap Value)
    (limit stop : Nat) (s : Stack) :
    i.execute ⟨b, globals, limit⟩ stop s = i.execute ⟨b, globals', limit⟩ stop s := by
  obtain ⟨o, x⟩ := i
  cases o
  case getGlobal => cases h
  all_goals rfl

theorem execute_ne_call (h : i.isExternal = false) (c : Context) (stop : Nat) (s : Stack) (name : String)
    (arguments : List Value) (t : Stack) (ip : Nat) : i.execute c stop s ≠ .ok (.call name arguments t ip) := by
  intro hcall
  have href := reference_of_call hcall
  obtain ⟨o, x⟩ := i
  cases o
  case callNative | getGlobal => cases h
  case invoke =>
    simp only [Bytecode.reference?] at href
    split at href <;> cases href
  all_goals cases href

end Instruction

/-- The state of another host, of whose functions none has been called. -/
def State.toHost {σ τ : Type} (host : τ) (s : State σ) : State τ := ⟨s.stack, s.ip, s.start, host, #[]⟩

namespace Context

variable {σ τ : Type}

/-- A step at an instruction that is not external is the same whatever the globals and the functions are. -/
theorem step_toHost {b : Bytecode} {s : State σ} {i : Instruction} (hi : b.fetch s.ip = .instruction i)
    (hinternal : i.isExternal = false) (globals globals' : OrderedMap Value) (limit : Nat)
    (natives : String → Option (Native σ)) (natives' : String → Option (Native τ)) (host : τ) :
    ((Context.mk b globals limit).step natives s).observe id (State.toHost host) =
      ((Context.mk b globals' limit).step natives' (s.toHost host)).observe id id := by
  have hi' : b.fetch (s.toHost host).ip = .instruction i := hi
  rw [step_instruction (c := ⟨b, globals, limit⟩) natives hi,
    step_instruction (c := ⟨b, globals', limit⟩) natives' hi']
  dsimp only [State.toHost]
  rw [i.execute_globals hinternal b globals' globals]
  cases hexec : i.execute ⟨b, globals, limit⟩ (s.ip + i.size) s.stack with
  | error f => rfl
  | ok action =>
    cases action with
    | next stack ip => rfl
    | halt v => rfl
    | call name arguments stack ip => exact (i.execute_ne_call hinternal _ _ _ _ _ _ _ hexec).elim

end Context

/-! ### Debug tables -/

/-- An instruction does not look at the debug table. -/
theorem Instruction.execute_debug (code : Array UInt8) (constants : Array Value) (debug debug' : Array DebugEntry)
    (globals : OrderedMap Value) (limit stop : Nat) (s : Stack) (i : Instruction) :
    i.execute ⟨⟨code, constants, debug⟩, globals, limit⟩ stop s =
      i.execute ⟨⟨code, constants, debug'⟩, globals, limit⟩ stop s := by
  obtain ⟨o, x⟩ := i
  cases o <;> rfl

namespace Context

variable {σ : Type} {b b' : Bytecode}

/-- A step looks at the debug table for the span of its error only. -/
theorem step_debug (hcode : b.code = b'.code) (hconstants : b.constants = b'.constants) (globals : OrderedMap Value)
    (limit : Nat) (natives : String → Option (Native σ)) (s : State σ) :
    ((Context.mk b globals limit).step natives s).observe (Except.mapError RuntimeError.fault) id =
      ((Context.mk b' globals limit).step natives s).observe (Except.mapError RuntimeError.fault) id := by
  obtain ⟨code, constants, debug⟩ := b
  obtain ⟨_, _, debug'⟩ := b'
  subst hcode hconstants
  obtain ⟨i, hi⟩ | ⟨f, hf⟩ := Bytecode.fetch_cases ⟨code, constants, debug⟩ s.ip
  · have hi' : Bytecode.fetch ⟨code, constants, debug'⟩ s.ip = .instruction i := hi
    rw [step_instruction (c := ⟨⟨code, constants, debug⟩, globals, limit⟩) natives hi,
      step_instruction (c := ⟨⟨code, constants, debug'⟩, globals, limit⟩) natives hi',
      i.execute_debug code constants debug debug']
    cases i.execute ⟨⟨code, constants, debug'⟩, globals, limit⟩ (s.ip + i.size) s.stack with
    | error f => rfl
    | ok action =>
      cases action with
      | next stack ip => rfl
      | halt v => rfl
      | call name arguments stack ip =>
        dsimp only [callNative]
        cases natives name with
        | none => rfl
        | some f =>
          dsimp only
          rcases f arguments s.host with ⟨e | v, host⟩
          · rfl
          · dsimp only
            cases stack.checkedPush limit (.ref v) <;> rfl
  · have hf' : Bytecode.fetchFault? ⟨code, constants, debug'⟩ s.ip = some f := hf
    rw [step_fault (c := ⟨⟨code, constants, debug⟩, globals, limit⟩) natives hf,
      step_fault (c := ⟨⟨code, constants, debug'⟩, globals, limit⟩) natives hf']
    rfl

/-- Runs of programs that differ in their debug tables end at the same step and in the same state, with the same value
or the same fault. -/
theorem run?_debug (hcode : b.code = b'.code) (hconstants : b.constants = b'.constants) (globals : OrderedMap Value)
    (limit : Nat) (natives : String → Option (Native σ)) (fuel : Nat) (host : σ) :
    ((Context.mk b globals limit).run? natives fuel host).map (Prod.map (Except.mapError RuntimeError.fault) id) =
      ((Context.mk b' globals limit).run? natives fuel host).map
        (Prod.map (Except.mapError RuntimeError.fault) id) :=
  runFrom?_observe (P := fun _ => True) (f := id) (fun _ _ _ _ => trivial)
    (fun s _ => step_debug hcode hconstants globals limit natives s) trivial fuel

/-- What the machine complains of is said to be at the instruction that it has come to. -/
theorem Raises.span {c : Context} {natives : String → Option (Native σ)} {s : State σ} {e : RuntimeError}
    (h : c.Raises natives s e) : e.span = c.spanAt s.ip := by
  obtain ⟨last, hstep, hnative⟩ := h
  obtain ⟨i, hi⟩ | ⟨f, hf⟩ := c.bytecode.fetch_cases s.ip
  · rw [step_instruction natives hi] at hstep
    split at hstep
    · cases hstep
      rfl
    · cases hstep
    · exact (callNative_raises hstep hnative).2
    · cases hstep
  · rw [step_fault natives hf] at hstep
    obtain ⟨hresult, -⟩ := Progress.done.inj hstep
    cases hresult
    rfl

/-- An empty table knows no spans. -/
theorem Raises.span_eq_dummy {c : Context} {natives : String → Option (Native σ)} {s : State σ} {e : RuntimeError}
    (h : c.Raises natives s e) (hdebug : c.bytecode.debug = #[]) : e.span = .dummy := by
  rw [h.span, spanAt, Bytecode.spanAt?, hdebug]
  rfl

end Context

end TemplateExpr
