import TemplateExpr.Proofs.Assembler.Height
import TemplateExpr.Proofs.Evaluation.Basic
import TemplateExpr.Proofs.Machine.Run
import TemplateExpr.Proofs.Machine.Step

/-!
# Code that carries out an evaluation

A piece of code is what an assembler emits on the way from one state to another. In a finished program it carries out
an evaluation of stacks (`Setting.Runs`) if a run that enters it

* (success) leaves it at its end with the stack that the evaluation gives,
* (failure) ends in it with the error that the evaluation fails with,

and has then made the same calls. Only the limit of the stack may come in between, and only if it is lower than the
greatest height that the assembler has tracked.

Pieces are put together by `Runs.bind`; the rules for single instructions are `Runs.push`, `Runs.next`, `Runs.raise` and
`Runs.call`.
-/

namespace TemplateExpr

/-- The faults that an expression can have; all others are faults of the bytecode or of the machine's limits. -/
def Fault.isOwn : Fault → Bool
  | .type _ | .divideByZero | .undefinedVariable _ | .unknownFunction _ => true
  | _ => false

/-- A finished program, what it runs on, and the assembler that it was closed from. -/
structure Setting (σ : Type) where
  context : Context
  natives : String → Option (Native σ)
  last : Assembler
  closes : last.Closes
  bytecode_eq : context.bytecode = last.close.bytecode

namespace Setting

open Evaluation Assembler

variable {σ α : Type} (E : Setting σ)

def scope : Scope σ := ⟨E.context.globals, E.natives⟩

/-- The machine is at a place of the code, with a stack and in a world. -/
structure At (a : Assembler) (S : Stack) (w : World σ) (s : State σ) : Prop where
  stack : s.stack = S
  ip : s.ip = a.offset
  host : s.host = w.host
  calls : s.calls = w.calls

/-- The code that is emitted next can be reached. -/
structure Begins (a : Assembler) : Prop where
  begun : Assembler.new.Precedes a
  reachable : a.reachable = true

/-- The machine ends the run because the limit of the stack is too low for the program. -/
def Overflows (a : Assembler) (S : Stack) (t : State σ) : Prop :=
  (∃ span, E.context.Raises E.natives t ⟨.stackOverflow E.context.limit, span⟩) ∧
    E.context.limit + a.depth < S.height + E.last.maxDepth

/-- How a failure of the evaluation shows in the last step. The span is only found if spans are recorded. -/
def Reports (a : Assembler) (t : State σ) (result : Except RuntimeError Value) (last : State σ) : Failure → Prop
  | .raised f span => f.isOwn = true ∧ ∃ found, result = .error ⟨f, found⟩ ∧ (a.debugInfo = true → found = span)
  | .native e => result = .error e ∧ Context.NativeError E.natives t last e

/-- What a run through a piece of code must come to, by the outcome of the evaluation. -/
def Outcome (a b : Assembler) (S : Stack) (s : State σ) : Except Failure Stack × World σ → Prop
  | (.ok T, w) => b.reachable = true ∧ T.height + a.depth = S.height + b.depth ∧
    E.context.Leads E.natives a.offset b.offset (At b T w) (fun t _ _ => E.Overflows a S t) s
  | (.error e, w) => E.context.Leads E.natives a.offset b.offset (fun _ => False)
    (fun t result last => (E.Reports a t result last e ∧ last.host = w.host ∧ last.calls = w.calls) ∨
      E.Overflows a S t) s

/-- The code between two states of the assembler carries out an evaluation that begins with a stack. -/
def Runs (a b : Assembler) (S : Stack) (m : Evaluation σ Stack) : Prop :=
  Begins a → b.Precedes E.last → ∀ w s, At a S w s → E.Outcome a b S s (m w)

variable {E} {a b c : Assembler} {S T : Stack}

/-! ### Composition -/

theorem Begins.of_precedes (h : Begins a) (hb : a.Precedes b) (hr : b.reachable = true) : Begins b :=
  ⟨h.begun.trans hb, hr⟩

/-- An overflow after a piece of code is one before it. -/
theorem Overflows.before {t : State σ} (h : E.Overflows b T t) (hheight : T.height + a.depth = S.height + b.depth) :
    E.Overflows a S t :=
  ⟨h.1, by have := h.2; omega⟩

theorem Reports.before {e : Failure} {result : Except RuntimeError Value} {t last : State σ}
    (h : E.Reports b t result last e) (hdebug : b.debugInfo = a.debugInfo) : E.Reports a t result last e := by
  cases e with
  | raised f span =>
    obtain ⟨hf, found, heq, hspan⟩ := h
    exact ⟨hf, found, heq, fun ha => hspan (hdebug.trans ha)⟩
  | native e => exact h

/-- A run that fails in a piece of code does not come to the next. -/
theorem Outcome.error {s : State σ} {e : Failure} {w : World σ} (h : E.Outcome a b S s (.error e, w))
    (hbc : b.offset ≤ c.offset) : E.Outcome a c S s (.error e, w) :=
  Context.Leads.mono h (Nat.le_refl _) hbc (fun _ h => h) fun _ _ _ h => h

/-- A single step comes to the end of a piece of code. -/
theorem Outcome.of_step {w w' : World σ} {s t : State σ} (hs : At a S w s)
    (hstep : E.context.step E.natives s = .running t) (ht : At b T w' t) (hlt : a.offset < b.offset)
    (hreachable : b.reachable = true) (hheight : T.height + a.depth = S.height + b.depth) :
    E.Outcome a b S s (.ok T, w') := by
  refine ⟨hreachable, hheight, ?_⟩
  exact Context.Leads.step ⟨Nat.le_of_eq hs.ip.symm, by rw [hs.ip]; exact hlt⟩ hstep (Context.Leads.here ht)

/-- A run that leaves a piece of code at its end goes on in the next. -/
theorem Outcome.trans {s : State σ} {w : World σ} {r : Except Failure Stack × World σ}
    (h : E.Outcome a b S s (.ok T, w)) (hr : ∀ t, At b T w t → E.Outcome b c T t r) (hab : a.offset ≤ b.offset)
    (hbc : b.offset ≤ c.offset) (hkeeps : a.Keeps b) : E.Outcome a c S s r := by
  obtain ⟨hreachable, hheight, hleads⟩ := h
  have hfirst : E.context.Leads E.natives a.offset c.offset (At b T w) (fun t _ _ => E.Overflows a S t) s :=
    hleads.mono (Nat.le_refl _) hbc (fun _ h => h) fun _ _ _ h => h
  rcases r with ⟨e | U, w'⟩
  · refine Context.Leads.bind (hfirst.mono (Nat.le_refl _) (Nat.le_refl _) (fun _ h => h) fun _ _ _ h => .inr h) ?_
    intro t ht
    refine Context.Leads.mono (hr t ht) hab (Nat.le_refl _) (fun _ h => h) ?_
    rintro u result last (⟨hreports, hworld⟩ | hover)
    · exact .inl ⟨hreports.before hkeeps.debugInfo, hworld⟩
    · exact .inr (hover.before hheight)
  · -- the heights are known from any state between the two
    obtain ⟨hreachable', hheight', -⟩ := hr ⟨T, b.offset, 0, w.host, w.calls⟩ ⟨rfl, rfl, rfl, rfl⟩
    refine ⟨hreachable', by omega, hfirst.bind fun t ht => ?_⟩
    exact (hr t ht).2.2.mono hab (Nat.le_refl _) (fun _ h => h) fun _ _ _ h => h.before hheight

/-- Two pieces of code, one after the other. -/
theorem Runs.bind {m : Evaluation σ α} {f : α → Stack} {k : α → Evaluation σ Stack} (h : E.Runs a b S (f <$> m))
    (hk : ∀ v, E.Runs b c (f v) (k v)) (hab : a.Precedes b) (hbc : b.Precedes c) (hkeeps : a.Keeps b) :
    E.Runs a c S (m >>= k) := by
  intro ha hc w s hs
  have hfirst := h ha (hbc.trans hc) w s hs
  rcases hm : m w with ⟨e | v, w'⟩
  · rw [map_error hm] at hfirst
    rw [bind_error hm]
    exact hfirst.error hbc.offset_le
  · rw [map_ok hm] at hfirst
    rw [bind_ok hm]
    refine hfirst.trans (fun t ht => ?_) hab.offset_le hbc.offset_le hkeeps
    exact hk v (ha.of_precedes hab hfirst.1) hc w' t ht

theorem Runs.congr {m m' : Evaluation σ Stack} (h : E.Runs a b S m) (heq : m = m') : E.Runs a b S m' := heq ▸ h

/-- Recording the value of a node is not seen by the machine. -/
theorem Runs.declare {m : Evaluation σ α} {f : α → Stack} (type : StaticType) (g : α → Value)
    (h : E.Runs a b S (f <$> m)) :
    E.Runs a b S (f <$> (m >>= fun v => (fun _ => v) <$> Evaluation.declare type (g v))) := by
  intro ha hb w s hs
  have hout := h ha hb w s hs
  rcases hm : m w with ⟨e | v, w'⟩
  · rw [map_error hm] at hout
    rw [map_error (bind_error hm)]
    exact hout
  · rw [map_ok hm] at hout
    have hrecord : (m >>= fun v => (fun _ => v) <$> Evaluation.declare type (g v)) w =
        (.ok v, { w' with declared := w'.declared.push (type, g v) }) := bind_ok hm
    rw [map_ok hrecord]
    obtain ⟨hreachable, hheight, hleads⟩ := hout
    refine ⟨hreachable, hheight, hleads.mono (Nat.le_refl _) (Nat.le_refl _) (fun t ht => ?_) fun _ _ _ h => h⟩
    exact ⟨ht.stack, ht.ip, ht.host, ht.calls⟩

/-- Only offset, height, reachability and the recording of spans matter to a run. -/
theorem Runs.of_same {a' b' : Assembler} {m : Evaluation σ Stack} (h : E.Runs a' b' S m) (ha : a.Precedes a')
    (hb : b'.Precedes b) (hoffset : a'.offset = a.offset) (hdepth : a'.depth = a.depth)
    (hreachable : a'.reachable = a.reachable) (hdebug : a'.debugInfo = a.debugInfo) (hoffset' : b'.offset = b.offset)
    (hdepth' : b'.depth = b.depth) (hreachable' : b'.reachable = b.reachable) : E.Runs a b S m := by
  intro hbegins hlast w s hs
  have hout := h (hbegins.of_precedes ha (hreachable.trans hbegins.reachable)) (hb.trans hlast) w s
    ⟨hs.stack, hs.ip.trans hoffset.symm, hs.host, hs.calls⟩
  have hover : ∀ t, E.Overflows a' S t → E.Overflows a S t := fun t h => h.before (by rw [hdepth])
  rcases hm : m w with ⟨e | T, w'⟩
  · rw [hm] at hout
    refine Context.Leads.mono hout (Nat.le_of_eq hoffset.symm) (Nat.le_of_eq hoffset') (fun _ h => h) ?_
    rintro u result last (⟨hreports, hworld⟩ | h)
    · exact .inl ⟨hreports.before hdebug, hworld⟩
    · exact .inr (hover u h)
  · rw [hm] at hout
    obtain ⟨hr, hheight, hleads⟩ := hout
    refine ⟨hreachable'.symm.trans hr, by rw [← hdepth, ← hdepth']; exact hheight, ?_⟩
    refine hleads.mono (Nat.le_of_eq hoffset.symm) (Nat.le_of_eq hoffset') (fun t ht => ?_) fun _ _ _ h => hover _ h
    exact ⟨ht.stack, ht.ip.trans hoffset', ht.host, ht.calls⟩

/-- A new constant emits no code. -/
theorem Runs.of_constant {v : Value} {m : Evaluation σ Stack} (h : E.Runs (a.addConstant v).1 b S m) :
    E.Runs a b S m :=
  h.of_same (precedes_addConstant a v) (.refl b) (offset_addConstant a v) (depth_addConstant a v)
    (reachable_addConstant a v) (keeps_addConstant a v).debugInfo rfl rfl rfl

/-- What a piece of code does may depend on the finished program. -/
theorem Runs.of_last {m : Evaluation σ Stack} (h : b.Precedes E.last → E.Runs a b S m) : E.Runs a b S m :=
  fun ha hb => h hb ha hb

/-! ### Single instructions -/

section Instruction

variable {i : Instruction} {effect : StackEffect}

/-- The machine finds the instruction where it was emitted. -/
theorem fetch_instruction (ha : Begins a) (hb : (a.instruction i).Precedes E.last) {w : World σ} {s : State σ}
    (hs : At a S w s) : E.context.bytecode.fetch s.ip = .instruction i := by
  rw [E.bytecode_eq, hs.ip]
  exact E.closes.fetch_instruction ha.begun hb

private theorem offset_lt (a : Assembler) (i : Instruction) : a.offset < (a.instruction i).offset := by
  rw [offset_instruction]
  exact Nat.lt_add_of_pos_right (Nat.succ_pos _)

/-- Where the instruction stands. -/
private theorem inside (i : Instruction) {w : World σ} {s : State σ} (hs : At a S w s) :
    a.offset ≤ s.ip ∧ s.ip < (a.instruction i).offset := by
  rw [hs.ip]
  exact ⟨Nat.le_refl _, offset_lt a i⟩

theorem spanAt_eq (hb : (a.instruction i).Precedes E.last) (hdebug : a.debugInfo = true) {w : World σ} {s : State σ}
    (hs : At a S w s) : E.context.spanAt s.ip = a.span := by
  rw [Context.spanAt, E.bytecode_eq, hs.ip, E.closes.spanAt? hb hdebug]
  rfl

/-- A push beyond the limit. -/
private theorem overflows (hb : (a.instruction i).Precedes E.last) (he : i.stackEffect? = some effect)
    (hheight : T.height + 1 + effect.pops = S.height + effect.pushes) (hlimit : ¬ T.height < E.context.limit)
    {t last : State σ} {span : Span}
    (hstep : E.context.step E.natives t = .done (.error ⟨.stackOverflow E.context.limit, span⟩) last)
    (hnative : ∀ e, ¬ Context.NativeError E.natives t last e) : E.Overflows a S t := by
  obtain ⟨hpops, hdepth, hmax⟩ := E.closes.depth_instruction he hb
  exact ⟨⟨span, last, hstep, hnative _⟩, by omega⟩

/-- An instruction that takes slots off and pushes one. -/
theorem Runs.push {x : Slot} (he : i.stackEffect? = some effect)
    (hheight : T.height + 1 + effect.pops = S.height + effect.pushes)
    (hexec : ∀ stop, i.execute E.context stop S = (T.checkedPush E.context.limit x).map fun s => .next s stop) :
    E.Runs a (a.instruction i) S (pure (T.push x)) := by
  intro ha hb w s hs
  obtain ⟨hpops, hdepth, hmax⟩ := E.closes.depth_instruction he hb
  have hreachable : (a.instruction i).reachable = true := by rw [reachable_instruction, ha.reachable]
  have hafter : (T.push x).height + a.depth = S.height + (a.instruction i).depth := by
    rw [Stack.height_push]
    omega
  have hstep := Context.step_instruction E.natives (fetch_instruction ha hb hs)
  rw [hs.stack, hexec] at hstep
  by_cases hlimit : T.height < E.context.limit
  · simp only [Stack.checkedPush, if_pos hlimit, Except.map] at hstep
    refine Outcome.of_step hs hstep ?_ (offset_lt a i) hreachable hafter
    exact ⟨rfl, by rw [hs.ip, offset_instruction], hs.host, hs.calls⟩
  · simp only [Stack.checkedPush, if_neg hlimit, Except.map] at hstep
    refine ⟨hreachable, hafter, Context.Leads.done (inside i hs) hstep ?_⟩
    refine overflows hb he hheight hlimit hstep fun e => ?_
    exact Context.not_nativeError_of_calls rfl e

/-- An instruction that changes the stack in place. -/
theorem Runs.next (he : i.stackEffect? = some effect) (hheight : T.height + effect.pops = S.height + effect.pushes)
    (hexec : ∀ stop, i.execute E.context stop S = .ok (.next T stop)) :
    E.Runs a (a.instruction i) S (pure T) := by
  intro ha hb w s hs
  obtain ⟨hpops, hdepth, hmax⟩ := E.closes.depth_instruction he hb
  have hstep := Context.step_instruction E.natives (fetch_instruction ha hb hs)
  rw [hs.stack, hexec] at hstep
  refine Outcome.of_step hs hstep ?_ (offset_lt a i) (by rw [reachable_instruction, ha.reachable]) (by omega)
  exact ⟨rfl, by rw [hs.ip, offset_instruction], hs.host, hs.calls⟩

/-- An instruction that fails by the program's own doing. -/
theorem Runs.raise {f : Fault} (hf : f.isOwn = true)
    (hexec : ∀ stop, i.execute E.context stop S = .error f) :
    E.Runs a (a.instruction i) S (Evaluation.raise f a.span) := by
  intro ha hb w s hs
  have hstep := Context.step_instruction E.natives (fetch_instruction ha hb hs)
  rw [hs.stack, hexec] at hstep
  refine Context.Leads.done (inside i hs) hstep (.inl ⟨⟨hf, _, rfl, fun hdebug => ?_⟩, hs.host, hs.calls⟩)
  exact spanAt_eq hb hdebug hs

/-- An instruction that calls a native function and pushes its result. -/
theorem Runs.call {name : String} {arguments : List Value} (he : i.stackEffect? = some effect)
    (hheight : T.height + 1 + effect.pops = S.height + effect.pushes)
    (hexec : ∀ stop, i.execute E.context stop S = .ok (.call name arguments T stop)) :
    E.Runs a (a.instruction i) S ((fun v => T.push (.ref v)) <$> E.scope.call name arguments a.span) := by
  intro ha hb w s hs
  obtain ⟨hpops, hdepth, hmax⟩ := E.closes.depth_instruction he hb
  have hstep := Context.step_instruction E.natives (fetch_instruction ha hb hs)
  rw [hs.stack, hexec] at hstep
  simp only [Context.callNative] at hstep
  -- the machine and the evaluation ask for the same function and give it the same arguments
  cases hnative : E.natives name with
  | none =>
    have hcall : E.scope.call name arguments a.span w = (.error (.raised (.unknownFunction name) a.span), w) := by
      simp only [Scope.call, scope, hnative]
      rfl
    simp only [hnative] at hstep
    rw [map_error hcall]
    refine Context.Leads.done (inside i hs) hstep (.inl ⟨⟨rfl, _, rfl, fun hdebug => ?_⟩, hs.host, hs.calls⟩)
    exact spanAt_eq hb hdebug hs
  | some f =>
    simp only [hnative, hs.host, hs.calls] at hstep
    rcases hf : f arguments w.host with ⟨e | v, host⟩
    · have hcall : E.scope.call name arguments a.span w =
          (.error (.native e), { w with host, calls := w.calls.push ⟨name, arguments⟩ }) := by
        simp only [Scope.call, scope, hnative, hf]
      simp only [hf] at hstep
      rw [map_error hcall]
      refine Context.Leads.done (inside i hs) hstep (.inl ⟨⟨rfl, name, f, arguments, hnative, ?_, ?_⟩, rfl, rfl⟩)
      · rw [hs.calls]
      · rw [hs.host]
        exact hf
    · have hcall : E.scope.call name arguments a.span w =
          (.ok v, { w with host, calls := w.calls.push ⟨name, arguments⟩ }) := by
        simp only [Scope.call, scope, hnative, hf]
      have hreachable : (a.instruction i).reachable = true := by rw [reachable_instruction, ha.reachable]
      have hafter : (T.push (.ref v)).height + a.depth = S.height + (a.instruction i).depth := by
        rw [Stack.height_push]
        omega
      rw [map_ok hcall]
      by_cases hlimit : T.height < E.context.limit
      · simp only [hf, Stack.checkedPush, if_pos hlimit] at hstep
        refine Outcome.of_step hs hstep ?_ (offset_lt a i) hreachable hafter
        exact ⟨rfl, by rw [hs.ip, offset_instruction], rfl, rfl⟩
      · simp only [hf, Stack.checkedPush, if_neg hlimit] at hstep
        refine ⟨hreachable, hafter, Context.Leads.done (inside i hs) hstep ?_⟩
        refine overflows hb he hheight hlimit hstep fun e => ?_
        exact Context.not_nativeError_of_ok hnative (by rw [hs.calls]) (by rw [hs.host]; exact hf) e

end Instruction

end Setting

end TemplateExpr
