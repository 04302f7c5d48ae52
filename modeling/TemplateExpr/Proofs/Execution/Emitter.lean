import TemplateExpr.Proofs.Assembler.Reachability
import TemplateExpr.Proofs.Execution.Setting

/-!
# Emitters that carry out an evaluation

An emitter leaves one slot above the stack that it finds, of the kind that its representation promises
(`Setting.Leaves`). The content of the slot comes from an evaluation, so an emitter of integers goes with an evaluation
of integers, and so on; a boxed value is a reference to any value.

The emitters inside are of the same sort (`Setting.Regular`). The code of an emitter is put together step by step
(`Leaves.of_steps`, `Runs.sub`, `Runs.directive`).
-/

namespace TemplateExpr

/-! ### Contents of slots -/

namespace Kind

/-- What a value of a kind holds. -/
abbrev Content : Kind → Type
  | null => Unit
  | bool => Bool
  | int => Int64
  | float => Float
  | string => String
  | list => Array Value
  | map => OrderedMap Value

def value : (k : Kind) → k.Content → Value
  | null, _ => .null
  | bool, b => .bool b
  | int, n => .int n
  | float, x => .float x
  | string, s => .string s
  | list, elements => .list elements
  | map, entries => .map entries

/-- The slot of a value whose kind is known. -/
def slot : (k : Kind) → k.Content → Slot
  | bool, b => .bool b
  | int, n => .int n
  | float, x => .float x
  | k, content => .ref (k.value content)

theorem kind_value (k : Kind) (content : k.Content) : (k.value content).kind = k := by
  cases k <;> rfl

end Kind

namespace Representation

abbrev Content : Representation → Type
  | exact k => k.Content
  | boxed => Value

def value : (r : Representation) → r.Content → Value
  | exact k, content => k.value content
  | boxed, v => v

def slot : (r : Representation) → r.Content → Slot
  | exact k, content => k.slot content
  | boxed, v => .ref v

theorem value_slot (r : Representation) (content : r.Content) : (r.slot content).value = r.value content := by
  cases r with
  | exact k => cases k <;> rfl
  | boxed => rfl

end Representation

/-! ### Directives -/

namespace Directive

/-- Neither changes what is recorded of spans nor is about a label. -/
def isPlain : Directive → Bool
  | mark _ | jump _ _ | setSpan _ | setDebugInfo _ => false
  | _ => true

/-- Does not change what is recorded of spans. -/
def isQuiet : Directive → Bool
  | setSpan _ | setDebugInfo _ => false
  | _ => true

theorem isQuiet_of_isPlain {d : Directive} (h : d.isPlain = true) : d.isQuiet = true := by
  cases d <;> first | rfl | cases h

theorem shift_of_isPlain {d : Directive} (h : d.isPlain = true) (base : Nat) : d.shift base = d := by
  cases d <;> first | rfl | cases h

theorem isQuiet_shift (d : Directive) (base : Nat) : (d.shift base).isQuiet = d.isQuiet := by
  cases d <;> rfl

end Directive

namespace Assembler

theorem keeps_emit (a : Assembler) (o : Opcode) : a.Keeps (a.emit o) := by
  unfold emit
  split
  · exact keeps_instruction a _
  · exact ⟨rfl, rfl⟩

private theorem keeps_constant (a : Assembler) (v : Value) (i : UInt16 → Instruction) :
    a.Keeps ((a.addConstant v).1.instruction (i (a.addConstant v).2)) :=
  (keeps_addConstant a v).trans (keeps_instruction _ _)

theorem keeps_apply (a : Assembler) {d : Directive} (hd : d.isQuiet = true) : a.Keeps (a.apply d) := by
  cases d with
  | emit o => exact keeps_emit a o
  | pushNull => exact keeps_emit a .pushNull
  | pushBool b => exact keeps_emit a (if b then .pushTrue else .pushFalse)
  | pushInt n => exact keeps_constant a (.int n) fun index => ⟨.constInt, index⟩
  | pushFloat x => exact keeps_constant a (.float x) fun index => ⟨.constFloat, index⟩
  | pushConstant v => exact keeps_constant a v fun index => ⟨.constant, index⟩
  | invoke f => exact keeps_instruction a ⟨.invoke, f.code⟩
  | getGlobal name => exact keeps_constant a (.string name) fun index => ⟨.getGlobal, index⟩
  | callNative name count =>
    simp only [apply, callNative]
    split
    · exact keeps_constant a (.string name) fun index => ⟨.callNative, index, UInt8.ofNat count⟩
    · exact ⟨rfl, rfl⟩
  | newList capacity => exact keeps_instruction a ⟨.newList, capacity⟩
  | newMap capacity => exact keeps_instruction a ⟨.newMap, capacity⟩
  | newLabel => exact ⟨rfl, rfl⟩
  | mark label => exact keeps_mark a label
  | jump kind label => exact keeps_jump a kind label
  | setSpan span => cases hd
  | setDebugInfo enabled => cases hd

end Assembler

namespace Setting

open Evaluation Assembler Emitter

variable {σ α : Type} {E : Setting σ}

/-! ### Emitters -/

/-- The emitter, and all emitters inside, leave a slot of the kind that is promised. -/
inductive Regular (E : Setting σ) : Emitter → Prop
  | intro {x : Emitter} (m : Evaluation σ x.representation.Content)
    (quiet : ∀ d, Step.directive d ∈ x.body → d.isQuiet = true) (falls : falls x.labels x.body = true)
    (subs : ∀ y, Step.sub y ∈ x.body → Regular E y)
    (runs : ∀ a S, E.Runs a (x.assemble a) S ((fun v => S.push (x.representation.slot v)) <$> m)) : Regular E x

/-- The emitter leaves a slot with what an evaluation gives. -/
structure Leaves (E : Setting σ) (x : Emitter) (r : Representation) (m : Evaluation σ r.Content) : Prop where
  representation : x.representation = r
  quiet : ∀ d, Step.directive d ∈ x.body → d.isQuiet = true
  falls : Emitter.falls x.labels x.body = true
  subs : ∀ y, Step.sub y ∈ x.body → E.Regular y
  runs : ∀ a S, E.Runs a (x.assemble a) S ((fun v => S.push (r.slot v)) <$> m)

theorem Leaves.regular {x : Emitter} {r : Representation} {m : Evaluation σ r.Content} (h : E.Leaves x r m) :
    E.Regular x := by
  obtain ⟨rfl, hquiet, hfalls, hsubs, hruns⟩ := h
  exact .intro m hquiet hfalls hsubs hruns

theorem Regular.leaves {x : Emitter} (h : E.Regular x) : ∃ m, E.Leaves x x.representation m := by
  cases h with
  | intro m quiet falls subs runs => exact ⟨m, rfl, quiet, falls, subs, runs⟩

/-! ### Steps -/

/-- Steps that keep the span keep it together. -/
private theorem keeps_assembleSteps (base : Nat) {steps : List (Step Emitter)}
    (hquiet : ∀ d, Step.directive d ∈ steps → d.isQuiet = true)
    (hsubs : ∀ y, Step.sub y ∈ steps → ∀ a : Assembler, a.Keeps (y.assemble a)) (a : Assembler) :
    a.Keeps (assembleSteps base steps a) := by
  induction steps generalizing a with
  | nil =>
    rw [assembleSteps]
    exact .refl a
  | cons step steps ih =>
    have hrest := ih (fun d hd => hquiet d (List.mem_cons_of_mem _ hd)) fun y hy => hsubs y (List.mem_cons_of_mem _ hy)
    cases step with
    | directive d =>
      rw [assembleSteps]
      have hd := hquiet d List.mem_cons_self
      exact (keeps_apply a ((d.isQuiet_shift base).trans hd)).trans (hrest _)
    | sub y =>
      rw [assembleSteps]
      exact (hsubs y List.mem_cons_self a).trans (hrest _)

theorem Regular.keeps {x : Emitter} (h : E.Regular x) (a : Assembler) : a.Keeps (x.assemble a) := by
  induction h generalizing a with
  | @intro x m quiet falls subs runs ih =>
    obtain ⟨r, t, c, span, labels, body⟩ := x
    have h := keeps_assembleSteps a.labels.size quiet ih { a.newLabels labels with span }
    rw [assemble]
    exact ⟨rfl, h.debugInfo⟩

/-- An emitter runs its steps under its own span, with labels of its own. -/
theorem Leaves.of_steps {x : Emitter} {r : Representation} {m : Evaluation σ r.Content} (hr : x.representation = r)
    (hquiet : ∀ d, Step.directive d ∈ x.body → d.isQuiet = true) (hfalls : Emitter.falls x.labels x.body = true)
    (hsubs : ∀ y, Step.sub y ∈ x.body → E.Regular y)
    (hruns : ∀ (base : Nat) (a : Assembler) (S : Stack), a.span = x.span → base + x.labels ≤ a.labels.size →
      E.Runs a (assembleSteps base x.body a) S ((fun v => S.push (r.slot v)) <$> m)) : E.Leaves x r m := by
  refine ⟨hr, hquiet, hfalls, hsubs, fun a S => ?_⟩
  obtain ⟨r', t, c, span, labels, body⟩ := x
  rw [assemble]
  -- the labels and the span are set before the first step, and neither emits code
  refine (hruns a.labels.size { a.newLabels labels with span } S rfl ?_).of_same ?_ ?_ rfl rfl rfl rfl rfl rfl rfl
  · simp [newLabels]
  · exact (precedes_newLabels a labels).trans (.of_eq rfl rfl rfl id (Nat.le_refl _))
  · exact .of_eq rfl rfl rfl id (Nat.le_refl _)

/-- An emitter without jumps and labels. -/
theorem Leaves.of_plain {x : Emitter} {r : Representation} {m : Evaluation σ r.Content} (hr : x.representation = r)
    (hplain : ∀ d, Step.directive d ∈ x.body → d.isPlain = true) (hsubs : ∀ y, Step.sub y ∈ x.body → E.Regular y)
    (hruns : ∀ (base : Nat) (a : Assembler) (S : Stack), a.span = x.span →
      E.Runs a (assembleSteps base x.body a) S ((fun v => S.push (r.slot v)) <$> m)) : E.Leaves x r m := by
  refine .of_steps hr (fun d hd => Directive.isQuiet_of_isPlain (hplain d hd))
    (falls_of_forall fun label hd => ?_) hsubs fun base a S hspan _ => hruns base a S hspan
  cases hplain _ hd

theorem Runs.nil {base : Nat} {a : Assembler} {S : Stack} : E.Runs a (assembleSteps base [] a) S (pure S) := by
  intro ha _ w s hs
  rw [assembleSteps]
  exact ⟨ha.reachable, rfl, Context.Leads.here hs⟩

/-- An emitter, and what comes after it. -/
theorem Runs.sub {base : Nat} {a : Assembler} {S : Stack} {x : Emitter} {r : Representation}
    {m : Evaluation σ r.Content} {steps : List (Step Emitter)} {k : r.Content → Evaluation σ Stack}
    (hx : E.Leaves x r m)
    (hsteps : ∀ v a', a'.span = a.span → a.labels.size ≤ a'.labels.size →
      E.Runs a' (assembleSteps base steps a') (S.push (r.slot v)) (k v)) :
    E.Runs a (assembleSteps base (.sub x :: steps) a) S (m >>= k) := by
  have hkeeps := hx.regular.keeps a
  have hprecedes := x.precedes_assemble a
  rw [assembleSteps]
  exact (hx.runs a S).bind (fun v => hsteps v (x.assemble a) hkeeps.span hprecedes.labels_size) hprecedes
    (precedes_assembleSteps steps _ base) hkeeps

/-- A directive that is not about a label, and what comes after it. -/
theorem Runs.directive {base : Nat} {a : Assembler} {S : Stack} {d : Directive} {m : Evaluation σ α} {f : α → Stack}
    {steps : List (Step Emitter)} {k : α → Evaluation σ Stack} (hd : d.isPlain = true)
    (h : E.Runs a (a.apply d) S (f <$> m))
    (hsteps : ∀ v a', a'.span = a.span → a.labels.size ≤ a'.labels.size →
      E.Runs a' (assembleSteps base steps a') (f v) (k v)) :
    E.Runs a (assembleSteps base (.directive d :: steps) a) S (m >>= k) := by
  have hkeeps := keeps_apply a (Directive.isQuiet_of_isPlain hd)
  have hprecedes := precedes_apply a d
  rw [assembleSteps, Directive.shift_of_isPlain hd]
  exact h.bind (fun v => hsteps v (a.apply d) hkeeps.span hprecedes.labels_size) hprecedes
    (precedes_assembleSteps steps _ base) hkeeps

/-- A directive that cannot fail, and what comes after it. -/
theorem Runs.plain {base : Nat} {a : Assembler} {S T : Stack} {d : Directive} {m : Evaluation σ Stack}
    {steps : List (Step Emitter)} (hd : d.isPlain = true) (h : E.Runs a (a.apply d) S (pure T))
    (hsteps : ∀ a', a'.span = a.span → a.labels.size ≤ a'.labels.size →
      E.Runs a' (assembleSteps base steps a') T m) :
    E.Runs a (assembleSteps base (.directive d :: steps) a) S m := by
  have hunit : E.Runs a (a.apply d) S ((fun _ => T) <$> (pure () : Evaluation σ Unit)) := by rwa [map_pure]
  exact (Runs.directive hd hunit fun _ => hsteps).congr (pure_bind () fun _ => m)

end Setting

end TemplateExpr
