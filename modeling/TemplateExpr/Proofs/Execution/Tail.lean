import TemplateExpr.Proofs.Assembler.Directive
import TemplateExpr.Proofs.Execution.Directive
import TemplateExpr.Proofs.Machine.Limit

/-!
# Directives on the topmost slot

What is appended to an emitter's code has the slot that the emitter leaves, and nothing else, to work on. A directive
there turns the slot into another or fails (`Directive.Turns`), and so do several, one after another, up to the first
that fails (`Directive.Turn`). The machine does the same with the code that they emit (`Setting.delivers_of_turn`); it
has room for the results, since it had room for the slot.
-/

namespace TemplateExpr

theorem Stack.checkedPush_of_lt {s : Stack} {limit : Nat} (h : s.height < limit) (x : Slot) :
    s.checkedPush limit x = .ok (s.push x) :=
  if_pos h

namespace Directive

/-! ### What directives do to a slot -/

/-- The directive emits an instruction that, where there is room, replaces the topmost slot or fails. -/
def Turns (d : Directive) (x : Slot) (r : Except Fault Slot) : Prop :=
  ∃ i : Instruction, (∀ a : Assembler, a.apply d = a.instruction i) ∧
    ∀ (c : Context) (stop : Nat) (S : Stack), S.height < c.limit →
      i.execute c stop (S.push x) = r.map fun y => .next (S.push y) stop

section Instruction

variable {d : Directive} {i : Instruction} {x y : Slot}

theorem Turns.ok (hd : ∀ a : Assembler, a.apply d = a.instruction i)
    (hexec : ∀ (c : Context) (stop : Nat) (S : Stack),
      i.execute c stop (S.push x) = (S.checkedPush c.limit y).map fun s => .next s stop) : d.Turns x (.ok y) := by
  refine ⟨i, hd, fun c stop S hroom => ?_⟩
  rw [hexec, Stack.checkedPush_of_lt hroom]
  rfl

theorem Turns.error {f : Fault} (hd : ∀ a : Assembler, a.apply d = a.instruction i)
    (hexec : ∀ (c : Context) (stop : Nat) (S : Stack), i.execute c stop (S.push x) = .error f) :
    d.Turns x (.error f) :=
  ⟨i, hd, fun c stop S _ => hexec c stop S⟩

/-- A runtime function of one value that does not fail. -/
theorem Turns.invoke {f : RuntimeFunction} {v : Value} (hf : f.arity = 1) (happly : f.apply [x.value] = .ok v) :
    (Directive.invoke f).Turns x (.ok (f.resultSlot v)) := by
  refine .ok (i := ⟨.invoke, f.code⟩) (fun _ => rfl) fun c stop S => ?_
  have hpop : (S.push x).popValues f.arity = .ok ([x.value], S) := by
    rw [hf]
    exact Stack.popValues_of_slots (show (S.push x).slots = [x].reverse ++ S.slots from rfl)
  change ((S.push x).invoke c.limit f.code).map _ = _
  simp only [Stack.invoke, RuntimeFunction.ofCode?_code, hpop]
  dsimp only [bind, Except.bind]
  rw [happly]

end Instruction

/-- Directives replace the topmost slot one after another, up to the first that fails. -/
inductive Turn : List Directive → Slot → Except Fault Slot → Prop
  | nil {x : Slot} : Turn [] x (.ok x)
  | cons {d : Directive} {ds : List Directive} {x y : Slot} {r : Except Fault Slot} (h : d.Turns x (.ok y))
    (hds : Turn ds y r) : Turn (d :: ds) x r
  | fail {d : Directive} {ds : List Directive} {x : Slot} {f : Fault} (h : d.Turns x (.error f)) :
    Turn (d :: ds) x (.error f)

/-- More directives have the slot that the first ones give, if these do not fail. -/
theorem Turn.append {ds es : List Directive} {x : Slot} {r : Except Fault Slot} {k : Slot → Except Fault Slot}
    (h : Turn ds x r) (hes : ∀ y, r = .ok y → Turn es y (k y)) : Turn (ds ++ es) x (r >>= k) := by
  induction h with
  | nil => exact hes _ rfl
  | cons hd _ ih => exact .cons hd (ih hes)
  | fail hd => exact .fail hd

end Directive

namespace Setting

open Assembler

variable {σ : Type} (E : Setting σ)

/-! ### The machine -/

/-- What a run through a piece of code must come to: a slot above the stack at the end of the code, or a fault in it,
without a call. The span of the fault is only found if spans are recorded. -/
def Delivers (a b : Assembler) (S : Stack) (s : State σ) : Except Fault Slot → Prop
  | .ok x => ∃ t, E.context.StepsIn E.natives a.offset b.offset s t ∧ t.ip = b.offset ∧ t.stack = S.push x ∧
      t.host = s.host ∧ t.calls = s.calls
  | .error f => ∃ t found last, E.context.StepsIn E.natives a.offset b.offset s t ∧
      (a.offset ≤ t.ip ∧ t.ip < b.offset) ∧ E.context.step E.natives t = .done (.error ⟨f, found⟩) last ∧
      (a.debugInfo = true → found = a.span) ∧ last.host = s.host ∧ last.calls = s.calls

variable {E} {a b c : Assembler} {S : Stack} {s t : State σ}

/-- A step into the code is taken before the rest of it. -/
theorem Delivers.head {r : Except Fault Slot} (h : E.Delivers b c S t r) (hab : a.offset ≤ b.offset)
    (hs : a.offset ≤ s.ip ∧ s.ip < c.offset) (hstep : E.context.step E.natives s = .running t)
    (hhost : t.host = s.host) (hcalls : t.calls = s.calls) (hkeeps : a.Keeps b) : E.Delivers a c S s r := by
  cases r with
  | ok x =>
    obtain ⟨u, hu, hip, hstack, hhost', hcalls'⟩ := h
    exact ⟨u, .head hs hstep (hu.mono hab (Nat.le_refl _)), hip, hstack, hhost'.trans hhost, hcalls'.trans hcalls⟩
  | error f =>
    obtain ⟨u, found, last, hu, hin, hdone, hspan, hhost', hcalls'⟩ := h
    refine ⟨u, found, last, .head hs hstep (hu.mono hab (Nat.le_refl _)), ⟨Nat.le_trans hab hin.1, hin.2⟩, hdone,
      fun hdebug => ?_, hhost'.trans hhost, hcalls'.trans hcalls⟩
    rw [← hkeeps.span]
    exact hspan (hkeeps.debugInfo.trans hdebug)

/-- Where a directive's code stands, and the span that is recorded for it. -/
private theorem placed_of_turns {d : Directive} {x : Slot} {r : Except Fault Slot} (hd : d.Turns x r)
    (hlast : (a.apply d).Precedes E.last) : a.offset < (a.apply d).offset ∧ a.Keeps (a.apply d) ∧
      (a.debugInfo = true → E.context.spanAt a.offset = a.span) := by
  obtain ⟨i, happly, -⟩ := hd
  rw [happly] at hlast ⊢
  refine ⟨?_, keeps_instruction a i, fun hdebug => ?_⟩
  · rw [offset_instruction]
    exact Nat.lt_add_of_pos_right (Nat.succ_pos _)
  · rw [Context.spanAt, E.bytecode_eq, E.closes.spanAt? hlast hdebug]
    rfl

/-- The step of the machine at a directive's code. -/
private theorem step_turns {d : Directive} {x : Slot} {r : Except Fault Slot} (hd : d.Turns x r)
    (ha : Assembler.new.Precedes a) (hlast : (a.apply d).Precedes E.last) (hip : s.ip = a.offset)
    (hstack : s.stack = S.push x) (hroom : S.height < E.context.limit) :
    E.context.step E.natives s = match r with
      | .ok y => .running ⟨S.push y, (a.apply d).offset, s.ip, s.host, s.calls⟩
      | .error f => .done (.error ⟨f, E.context.spanAt a.offset⟩) ⟨.empty, s.ip, s.ip, s.host, s.calls⟩ := by
  obtain ⟨i, happly, hexec⟩ := hd
  rw [happly] at hlast ⊢
  have hfetch : E.context.bytecode.fetch s.ip = .instruction i := by
    rw [E.bytecode_eq, hip]
    exact E.closes.fetch_instruction ha hlast
  rw [Context.step_instruction E.natives hfetch, hstack, hexec _ _ _ hroom, offset_instruction, hip]
  cases r <;> rfl

/-- The machine does with the topmost slot what the directives say. -/
theorem delivers_of_turn {ds : List Directive} {x : Slot} {r : Except Fault Slot} (h : Directive.Turn ds x r)
    (ha : Assembler.new.Precedes a) (hlast : (a.run ds).Precedes E.last) (hip : s.ip = a.offset)
    (hstack : s.stack = S.push x) (hroom : S.height < E.context.limit) : E.Delivers a (a.run ds) S s r := by
  induction h generalizing a s with
  | nil => exact ⟨s, .refl s, hip, hstack, rfl, rfl⟩
  | @cons d ds x y r hd _ ih =>
    have hrest := precedes_run (a.apply d) ds
    obtain ⟨hlt, hkeeps, -⟩ := placed_of_turns hd (hrest.trans hlast)
    have hinside : a.offset ≤ s.ip ∧ s.ip < (a.run (d :: ds)).offset :=
      ⟨Nat.le_of_eq hip.symm, hip ▸ Nat.lt_of_lt_of_le hlt hrest.offset_le⟩
    exact (ih (ha.trans (precedes_apply a d)) hlast rfl rfl).head (Nat.le_of_lt hlt) hinside
      (step_turns hd ha (hrest.trans hlast) hip hstack hroom) rfl rfl hkeeps
  | @fail d ds x f hd =>
    have hrest := precedes_run (a.apply d) ds
    obtain ⟨hlt, -, hspan⟩ := placed_of_turns hd (hrest.trans hlast)
    have hinside : a.offset ≤ s.ip ∧ s.ip < (a.run (d :: ds)).offset :=
      ⟨Nat.le_of_eq hip.symm, hip ▸ Nat.lt_of_lt_of_le hlt hrest.offset_le⟩
    exact ⟨s, _, _, .refl s, hinside, step_turns hd ha (hrest.trans hlast) hip hstack hroom, hspan, rfl, rfl⟩

end Setting

end TemplateExpr
