import TemplateExpr.Proofs.Machine.Step

/-!
# The limit of the stack

A machine with a lower limit does the same as one with a higher limit until it comes to its limit, and its stack is
never higher than that.

* (instructions) what has no room for its result reports so, and all else is the same (`Instruction.limited`);
* (runs) a run that does not come to the limit ends the same with more room (`Ends.of_le`), and the limit bounds the
  height of the stack (`Steps.height_le`).
-/

namespace TemplateExpr

variable {limit limit' : Nat}

/-! ### Operations on the stack -/

namespace Stack

/-- Results of an operation that ends with a push, under a limit and under a higher one. -/
structure Rises (limit : Nat) (r r' : Except Fault Stack) : Prop where
  eq_or : r = r' ∨ r = .error (.stackOverflow limit)
  height_le : ∀ t, r = .ok t → t.height ≤ limit

theorem rises_checkedPush (hle : limit ≤ limit') (s : Stack) (x : Slot) :
    Rises limit (s.checkedPush limit x) (s.checkedPush limit' x) := by
  unfold checkedPush
  split
  · rename_i hlt
    rw [if_pos (Nat.lt_of_lt_of_le hlt hle)]
    refine ⟨.inl rfl, fun t ht => ?_⟩
    cases ht
    exact hlt
  · exact ⟨.inr rfl, nofun⟩

theorem rises_error (f : Fault) : Rises limit (.error f) (.error f) := ⟨.inl rfl, nofun⟩

theorem Rises.bind {α : Type} {m : Except Fault α} {k k' : α → Except Fault Stack} (h : ∀ a, Rises limit (k a) (k' a)) :
    Rises limit (m >>= k) (m >>= k') := by
  cases m with
  | error f => exact rises_error f
  | ok a => exact h a

section Operations

variable (hle : limit ≤ limit') (s : Stack)

include hle

theorem rises_mapInt (f : Int64 → Slot) : Rises limit (s.mapInt limit f) (s.mapInt limit' f) :=
  Rises.bind fun _ => rises_checkedPush hle _ _

theorem rises_mapFloat (f : Float → Slot) : Rises limit (s.mapFloat limit f) (s.mapFloat limit' f) :=
  Rises.bind fun _ => rises_checkedPush hle _ _

theorem rises_mapBool (f : Bool → Slot) : Rises limit (s.mapBool limit f) (s.mapBool limit' f) :=
  Rises.bind fun _ => rises_checkedPush hle _ _

theorem rises_mapInts (f : Int64 → Int64 → Slot) : Rises limit (s.mapInts limit f) (s.mapInts limit' f) :=
  Rises.bind fun _ => Rises.bind fun _ => rises_checkedPush hle _ _

theorem rises_mapFloats (f : Float → Float → Slot) : Rises limit (s.mapFloats limit f) (s.mapFloats limit' f) :=
  Rises.bind fun _ => Rises.bind fun _ => rises_checkedPush hle _ _

theorem rises_intRemainder : Rises limit (s.intRemainder limit) (s.intRemainder limit') := by
  refine Rises.bind fun a => Rises.bind fun b => ?_
  dsimp only
  split
  · exact rises_error _
  · exact rises_checkedPush hle _ _

theorem rises_duplicate : Rises limit (s.duplicate limit) (s.duplicate limit') :=
  Rises.bind fun _ => rises_checkedPush hle _ _

theorem rises_unboxInt : Rises limit (s.unboxInt limit) (s.unboxInt limit') := by
  refine Rises.bind fun a => ?_
  split
  · exact rises_checkedPush hle _ _
  · exact rises_error _

theorem rises_unboxFloat : Rises limit (s.unboxFloat limit) (s.unboxFloat limit') := by
  refine Rises.bind fun a => ?_
  dsimp only
  split
  · exact rises_checkedPush hle _ _
  · exact rises_error _

theorem rises_invoke (code : UInt8) : Rises limit (s.invoke limit code) (s.invoke limit' code) := by
  unfold invoke
  split
  · exact rises_error _
  · exact Rises.bind fun _ => Rises.bind fun _ => rises_checkedPush hle _ _

end Operations

end Stack

/-! ### Instructions -/

namespace Instruction

open Stack

variable {b : Bytecode} {globals : OrderedMap Value} {stop : Nat} {s : Stack}

/-- What an instruction does under a limit: the same as under a higher one, unless there is no room, and the stack is
not higher afterwards than it was, or than the limit. Calls look at the limit later. -/
structure Limited (limit : Nat) (s : Stack) (r r' : Except Fault Action) : Prop where
  eq_or : r = r' ∨ r = .error (.stackOverflow limit)
  next : ∀ t ip, r = .ok (.next t ip) → t.height ≤ max s.height limit

private theorem limited_next {r r' : Except Fault Stack} (h : Rises limit r r') :
    Limited limit s (r.map fun t => .next t stop) (r'.map fun t => .next t stop) := by
  obtain ⟨rfl | rfl, hheight⟩ := h
  · cases r with
    | error f => exact ⟨.inl rfl, nofun⟩
    | ok t =>
      refine ⟨.inl rfl, fun t' ip ht => ?_⟩
      cases ht
      exact Nat.le_trans (hheight t rfl) (Nat.le_max_right _ _)
  · exact ⟨.inr rfl, nofun⟩

/-- An instruction that leaves no more slots than it takes does not look at the limit. -/
private theorem limited_of_effect {i : Instruction} {e : StackEffect} (he : i.stackEffect? = some e)
    (hpushes : e.pushes ≤ e.pops)
    (heq : i.execute ⟨b, globals, limit⟩ stop s = i.execute ⟨b, globals, limit'⟩ stop s) :
    Limited limit s (i.execute ⟨b, globals, limit⟩ stop s) (i.execute ⟨b, globals, limit'⟩ stop s) := by
  have hrespects := i.execute_respects ⟨b, globals, limit⟩ stop s he
  refine ⟨.inl heq, fun t ip ht => ?_⟩
  rw [ht] at hrespects
  obtain ⟨hreplaces, -⟩ := hrespects
  have hheight := hreplaces.height
  have hpops := hreplaces.1
  omega

/-- Every instruction under a limit and under a higher one. -/
theorem limited (hle : limit ≤ limit') (b : Bytecode) (globals : OrderedMap Value) (stop : Nat) (s : Stack)
    (i : Instruction) :
    Limited limit s (i.execute ⟨b, globals, limit⟩ stop s) (i.execute ⟨b, globals, limit'⟩ stop s) := by
  obtain ⟨o, x⟩ := i
  cases o
  case callNative =>
    obtain ⟨index, count⟩ := x
    have hexec : ∀ limit : Nat, execute ⟨b, globals, limit⟩ stop s ⟨.callNative, index, count⟩ =
        (b.nameAt index >>= fun name => s.popValues count.toNat >>= fun p => .ok (.call name p.1 p.2 stop)) :=
      fun _ => rfl
    rw [hexec, hexec]
    cases b.nameAt index with
    | error f => exact ⟨.inl rfl, nofun⟩
    | ok name => cases s.popValues count.toNat <;> exact ⟨.inl rfl, nofun⟩
  case pop | listAppend | mapPut | jump | jumpIfFalse | jumpIfTrue | halt =>
    exact limited_of_effect rfl (by decide) rfl
  -- all others end with a push
  all_goals refine limited_next ?_
  case pushNull | pushTrue | pushFalse | emptyList | emptyMap | newList | newMap => exact rises_checkedPush hle ..
  case constInt | constFloat | constant => exact Rises.bind fun _ => rises_checkedPush hle ..
  case getGlobal =>
    refine Rises.bind fun name => ?_
    dsimp only
    split
    · exact rises_checkedPush hle ..
    · exact rises_error _
  case dup => exact rises_duplicate hle s
  case intRem => exact rises_intRemainder hle s
  case unboxInt => exact rises_unboxInt hle s
  case unboxFloat => exact rises_unboxFloat hle s
  case invoke => exact rises_invoke hle s x
  case intAdd | intSub | intMul | intEq | intLt | intLe | intGt | intGe => exact rises_mapInts hle ..
  case floatAdd | floatSub | floatMul | floatDiv | floatEq | floatLt | floatLe | floatGt | floatGe =>
    exact rises_mapFloats hle ..
  case intNeg | intToFloat | intToBool | intToString | boxInt => exact rises_mapInt hle ..
  case floatNeg | floatToBool | floatToString | boxFloat => exact rises_mapFloat hle ..
  case not | boolToString | boxBool => exact rises_mapBool hle ..

end Instruction

/-! ### Runs -/

namespace Context

variable {σ : Type} {b : Bytecode} {globals : OrderedMap Value} {natives : String → Option (Native σ)}
  {s t last : State σ} {result : Except RuntimeError Value}

/-- A call looks at the limit when it has its answer. -/
private theorem callNative_limited (hle : limit ≤ limit') (b : Bytecode) (globals : OrderedMap Value)
    (natives : String → Option (Native σ)) (s : State σ) (name : String) (arguments : List Value) (stack : Stack)
    (ip : Nat) :
    (Context.mk b globals limit).callNative natives s.ip name arguments stack ip s.host s.calls =
        (Context.mk b globals limit').callNative natives s.ip name arguments stack ip s.host s.calls ∨
      ∃ span last, (Context.mk b globals limit).callNative natives s.ip name arguments stack ip s.host s.calls =
        .done (.error ⟨.stackOverflow limit, span⟩) last ∧
          ¬ NativeError natives s last ⟨.stackOverflow limit, span⟩ := by
  unfold callNative
  cases hf : natives name with
  | none => exact .inl rfl
  | some f =>
    dsimp only
    rcases hans : f arguments s.host with ⟨e | v, host⟩
    · exact .inl rfl
    · obtain heq | hover := (Stack.rises_checkedPush hle stack (.ref v)).eq_or
      · dsimp only
        rw [heq]
        cases stack.checkedPush limit' (.ref v) <;> exact .inl rfl
      · dsimp only
        rw [hover]
        exact .inr ⟨_, _, rfl, not_nativeError_of_ok hf rfl hans _⟩

/-- A step under a limit: the same as under a higher one, or the machine comes to its limit. -/
theorem step_limited (hle : limit ≤ limit') (natives : String → Option (Native σ)) (s : State σ) :
    (Context.mk b globals limit).step natives s = (Context.mk b globals limit').step natives s ∨
      ∃ span, (Context.mk b globals limit).Raises natives s ⟨.stackOverflow limit, span⟩ := by
  obtain ⟨i, hi⟩ | ⟨f, hf⟩ := b.fetch_cases s.ip
  · have hstep := step_instruction (c := ⟨b, globals, limit⟩) natives hi
    have hstep' := step_instruction (c := ⟨b, globals, limit'⟩) natives hi
    obtain heq | hover := (i.limited hle b globals (s.ip + i.size) s.stack).eq_or
    · rw [heq] at hstep
      cases hexec : i.execute ⟨b, globals, limit'⟩ (s.ip + i.size) s.stack with
      | error f =>
        rw [hexec] at hstep hstep'
        exact .inl (hstep.trans hstep'.symm)
      | ok action =>
        rw [hexec] at hstep hstep'
        cases action with
        | next stack ip => exact .inl (hstep.trans hstep'.symm)
        | halt v => exact .inl (hstep.trans hstep'.symm)
        | call name arguments stack ip =>
          obtain hcall | ⟨span, last, hcall, hnative⟩ :=
            callNative_limited hle b globals natives s name arguments stack ip
          · exact .inl (hstep.trans (hcall.trans hstep'.symm))
          · exact .inr ⟨span, last, hstep.trans hcall, hnative⟩
    · rw [hover] at hstep
      exact .inr ⟨_, _, hstep, not_nativeError_of_calls rfl _⟩
  · exact .inl ((step_fault (c := ⟨b, globals, limit⟩) natives hf).trans
      (step_fault (c := ⟨b, globals, limit'⟩) natives hf).symm)

/-- The result of a call has found room. -/
private theorem height_le_of_callNative {c : Context} {start ip : Nat} {name : String} {arguments : List Value}
    {stack : Stack} {host : σ} {calls : Array NativeCall}
    (h : c.callNative natives start name arguments stack ip host calls = .running t) : t.stack.height ≤ c.limit := by
  unfold callNative at h
  split at h
  · cases h
  · dsimp only at h
    split at h
    · cases h
    · split at h
      · rename_i hpush
        cases h
        exact (Stack.rises_checkedPush (Nat.le_refl _) _ _).height_le _ hpush
      · cases h

private theorem height_le_of_step {c : Context} (h : c.step natives s = .running t) :
    t.stack.height ≤ max s.stack.height c.limit := by
  obtain ⟨i, hi⟩ | ⟨f, hf⟩ := c.bytecode.fetch_cases s.ip
  · have hlimited := i.limited (Nat.le_refl c.limit) c.bytecode c.globals (s.ip + i.size) s.stack
    rw [step_instruction natives hi] at h
    split at h
    · cases h
    · rename_i hexec
      cases h
      exact hlimited.next _ _ hexec
    · exact Nat.le_trans (height_le_of_callNative h) (Nat.le_max_right _ _)
    · cases h
  · rw [step_fault natives hf] at h
    cases h

/-- The stack does not grow beyond the limit. -/
theorem Steps.height_le_max {c : Context} (h : c.Steps natives s t) :
    t.stack.height ≤ max s.stack.height c.limit := by
  refine h.preserves (P := fun t => t.stack.height ≤ max s.stack.height c.limit) (Nat.le_max_left _ _)
    fun u v hu hstep => ?_
  have := height_le_of_step hstep
  omega

/-- The stack is never higher than the limit. -/
theorem Steps.height_le {c : Context} {host : σ} (h : c.Steps natives (.initial host) t) :
    t.stack.height ≤ c.limit :=
  Nat.le_trans h.height_le_max (Nat.max_le.2 ⟨Nat.zero_le _, Nat.le_refl _⟩)

/-- A run that does not come to its limit ends the same with more room. -/
theorem Ends.of_le (hle : limit ≤ limit') (h : (Context.mk b globals limit).Ends natives s result last)
    (hroom : ∀ t span, (Context.mk b globals limit).Steps natives s t →
      ¬ (Context.mk b globals limit).Raises natives t ⟨.stackOverflow limit, span⟩) :
    (Context.mk b globals limit').Ends natives s result last := by
  obtain ⟨t, ht, hdone⟩ := h
  have hsame : ∀ u, (Context.mk b globals limit).Steps natives s u →
      (Context.mk b globals limit').step natives u = (Context.mk b globals limit).step natives u := by
    intro u hu
    obtain heq | ⟨span, hraises⟩ := step_limited hle natives u
    · exact heq.symm
    · exact absurd hraises (hroom u span hu)
  refine ⟨t, ?_, (hsame t ht).trans hdone⟩
  clear hdone
  induction ht with
  | refl => exact .refl s
  | tail hu hstep ih => exact ih.tail ((hsame _ hu).trans hstep)

end Context

end TemplateExpr
