import TemplateExpr.Proofs.Assembler.Encoding
import TemplateExpr.Proofs.Execution.Emitter
import TemplateExpr.Proofs.Validation.Forward

/-!
# Traces of emitters

The trace of an emitter is its code, command by command, each with the span that the emitter has whose own command it is
(`Emitter.trace`). Where a jump leads is left out, so that a trace does not depend on the code around it.

If spans are recorded, every command gets an entry in the debug table, with the span of the trace (`Records`). This
holds

* of a directive, whose command gets the span that is set (`Closes.records_apply`);
* of an emitter, which sets its own span and restores the old one (`Emitter.span_assemble`), by induction on the
  emitters inside (`Setting.Regular.records`).

In a table with such entries the span of a command is found at all its bytes (`Bytecode.spanAt?_of_lines`).
-/

namespace TemplateExpr

/-! ### Lines -/

namespace Command

/-- A command that is all in its opcode. -/
def plain (o : Opcode) : Command := ⟨o, .none⟩

/-- A call of the runtime library. -/
def runtime (f : RuntimeFunction) : Command := ⟨.invoke, .function f⟩

/-- The command, wherever it leads. -/
def untargeted : Command → Command
  | ⟨o, .target _⟩ => .plain o
  | c => c

end Command

/-- An instruction at its place, with the command that it is and the span that is recorded of it. -/
structure Line where
  placed : Placed
  command : Command
  span : Span

def Line.entry (l : Line) : DebugEntry := ⟨l.placed.offset, l.span⟩

/-- What a trace says of a line. -/
def Line.trace (l : Line) : Command × Span := (l.command.untargeted, l.span)

/-- If each of the instructions has its entry, the span of an instruction is found at all its bytes. -/
theorem Bytecode.spanAt?_of_lines {b : Bytecode} {offset : Nat} {ls : List Line}
    (hsplits : b.Splits offset (ls.map Line.placed)) (hdebug : b.debug.toList = ls.map Line.entry) {l : Line}
    (hl : l ∈ ls) {o : Nat} (hlow : l.placed.offset ≤ o) (hhigh : o < l.placed.stop) : b.spanAt? o = some l.span := by
  obtain ⟨before, more, rfl⟩ := List.append_of_mem hl
  have hpairwise := hsplits.pairwise
  rw [List.map_append, List.map_cons, List.pairwise_append, List.pairwise_cons] at hpairwise
  rw [List.map_append, List.map_cons] at hdebug
  refine spanAt?_of_later hdebug hlow fun e he => ?_
  obtain ⟨l', hl', rfl⟩ := List.mem_map.1 he
  have hstop : l.placed.stop ≤ l'.placed.offset := hpairwise.2.1.1 _ (List.mem_map_of_mem hl')
  exact Nat.lt_of_lt_of_le hhigh hstop

/-! ### One directive -/

/-- What a directive emits, wherever its label is. -/
def Directive.untargeted? (d : Directive) : Option Command := (d.command? fun _ => some 0).map Command.untargeted

namespace Directive

theorem untargeted?_of_command? {d : Directive} {place : Nat → Option Nat} {c : Command}
    (h : d.command? place = some c) : d.untargeted? = some c.untargeted := by
  cases d with
  | jump kind label =>
    obtain ⟨t, -, rfl⟩ := Option.map_eq_some_iff.1 h
    rfl
  | _ => cases h <;> rfl

@[simp] theorem untargeted?_emit (o : Opcode) : (emit o).untargeted? = some (.plain o) := rfl

@[simp] theorem untargeted?_invoke (f : RuntimeFunction) : (invoke f).untargeted? = some (.runtime f) := rfl

@[simp] theorem untargeted?_jump (kind : JumpKind) (label : Nat) :
    (jump kind label).untargeted? = some (.plain (kind.instruction 0).opcode) := rfl

@[simp] theorem untargeted?_mark (label : Nat) : (mark label).untargeted? = none := rfl

theorem untargeted?_shift (d : Directive) (base : Nat) : (d.shift base).untargeted? = d.untargeted? := by
  cases d <;> rfl

end Directive

namespace Assembler

variable {a b c z : Assembler} {d : Directive} {ts us : List (Command × Span)}

/-- On the way from one state of the assembler to another, just the commands of the trace have been emitted, and each
has got an entry with its span. -/
def Records (z a b : Assembler) (ts : List (Command × Span)) : Prop :=
  ∃ ls : List Line, ls.map Line.trace = ts ∧ (∀ l ∈ ls, z.close.bytecode.command? l.placed = some l.command) ∧
    b.bytecode.debug.toList = a.bytecode.debug.toList ++ ls.map Line.entry ∧
    ∀ ps, z.close.bytecode.Splits b.offset ps → z.close.bytecode.Splits a.offset (ls.map Line.placed ++ ps)

theorem Records.nil (z a : Assembler) : Records z a a [] :=
  ⟨[], rfl, List.forall_mem_nil _, (List.append_nil _).symm, fun _ h => h⟩

theorem Records.append (h : Records z a b ts) (h' : Records z b c us) : Records z a c (ts ++ us) := by
  obtain ⟨ls, rfl, hcommand, hdebug, hsplits⟩ := h
  obtain ⟨ks, rfl, hcommand', hdebug', hsplits'⟩ := h'
  refine ⟨ls ++ ks, List.map_append, fun l hl => ?_, ?_, fun ps hps => ?_⟩
  · exact (List.mem_append.1 hl).elim (hcommand l) (hcommand' l)
  · rw [hdebug', hdebug, List.map_append, List.append_assoc]
  · rw [List.map_append, List.append_assoc]
    exact hsplits _ (hsplits' ps hps)

private theorem debug_withConstant (a : Assembler) (d : Directive) :
    (a.withConstant d).1.bytecode.debug = a.bytecode.debug := by
  unfold withConstant addConstant
  split
  · split <;> rfl
  · rfl

private theorem keeps_withConstant (a : Assembler) (d : Directive) : a.Keeps (a.withConstant d).1 := by
  unfold withConstant
  split
  · exact keeps_addConstant a _
  · exact .refl a

theorem bytecode_mark (a : Assembler) (label : Nat) : (a.mark label).bytecode = a.bytecode := by
  unfold mark
  split
  · dsimp only
    split <;> simp
  · rfl
  · rfl

/-- The table gets an entry for the place of the directive if that has code. -/
theorem debug_apply (hd : d.isQuiet = true) (hdebug : a.debugInfo = true) :
    (a.apply d).bytecode.debug.toList =
      a.bytecode.debug.toList ++ if (a.apply d).offset = a.offset then [] else [⟨a.offset, a.span⟩] := by
  refine apply_cases (P := fun d b => d.isQuiet = true → b.bytecode.debug.toList =
    a.bytecode.debug.toList ++ if b.offset = a.offset then [] else [⟨a.offset, a.span⟩])
    ?instruction ?jump ?mark ?newLabel ?setSpan ?setDebugInfo ?refusedOpcode ?refusedCall d hd
  case instruction =>
    intro d i _ _
    have hoffset := (a.sameCode_withConstant d).offset
    have hkeeps := keeps_withConstant a d
    have hpos : 0 < i.size := Nat.succ_pos _
    rw [bytecode_instruction, debug_emitBytes, offset_instruction, debug_withConstant, hoffset, hkeeps.span,
      hkeeps.debugInfo, if_pos hdebug, if_neg (by omega)]
  case jump =>
    intro kind label _
    rw [bytecode_jump, bytecode_instruction, debug_emitBytes, offset_jump, if_pos hdebug, if_neg (by omega)]
  case mark =>
    intro label _
    rw [bytecode_mark, offset_mark, if_pos rfl, List.append_nil]
  case setSpan => exact fun _ hd => Bool.noConfusion hd
  case setDebugInfo => exact fun _ hd => Bool.noConfusion hd
  all_goals intros; exact (congrArg _ (if_pos rfl)).trans (List.append_nil _) |>.symm

/-- The command of a directive is noted with the span that is set. -/
theorem Closes.records_apply (h : z.Closes) (ha : new.Precedes a) (hz : (a.apply d).Precedes z) (hd : d.isQuiet = true)
    (hdebug : a.debugInfo = true) : Records z a (a.apply d) (d.untargeted?.map (·, a.span)).toList := by
  have hplace : z.Places fun label => z.labels[label]?.bind LabelState.offset := by
    intro label target depth hlabel
    dsimp only
    rw [hlabel]
    rfl
  have htable := debug_apply hd hdebug
  obtain ⟨i, c, hfetch, hoffset, hc, hcommand⟩ | ⟨hoffset, hnone⟩ := h.emits_command ha hz hplace
  · have hpos : 0 < i.size := Nat.succ_pos _
    rw [if_neg (by omega)] at htable
    rw [Directive.untargeted?_of_command? hc]
    refine ⟨[⟨⟨a.offset, i⟩, c, a.span⟩], rfl, fun l hl => ?_, htable, fun ps hps => ?_⟩
    · obtain rfl := List.mem_singleton.1 hl
      exact hcommand
    · rw [hoffset] at hps
      exact .next hfetch hps
  · rw [if_pos hoffset] at htable
    rw [Directive.untargeted?, hnone]
    exact ⟨[], rfl, List.forall_mem_nil _, htable, fun ps (hps : z.close.bytecode.Splits _ ps) => hoffset ▸ hps⟩

/-- The last command is the halt. -/
theorem Closes.records_halt (h : z.Closes) (hdebug : z.debugInfo = true) :
    Records z z (z.emit .halt) [(.plain .halt, z.span)] := by
  have hoffset : (z.emit .halt).offset = z.offset + 1 := offset_instruction z ⟨.halt, ()⟩
  refine ⟨[⟨⟨z.offset, ⟨.halt, ()⟩⟩, .plain .halt, z.span⟩], rfl, fun l hl => ?_, ?_, fun ps hps => ?_⟩
  · obtain rfl := List.mem_singleton.1 hl
    rfl
  · change (z.instruction ⟨.halt, ()⟩).bytecode.debug.toList = _
    rw [bytecode_instruction, debug_emitBytes, if_pos hdebug]
    rfl
  · rw [hoffset] at hps
    exact .next h.fetch_halt hps

/-- The lines of a finished program, which has been recorded from its beginning. -/
theorem Closes.exists_lines (h : z.Closes) (hrecords : Records z a z ts) (hoffset : a.offset = 0)
    (hempty : a.bytecode.debug = #[]) (hdebug : z.debugInfo = true) :
    ∃ ls : List Line, z.close.bytecode.Splits 0 (ls.map Line.placed) ∧
      z.close.bytecode.debug.toList = ls.map Line.entry ∧
      (∀ l ∈ ls, z.close.bytecode.command? l.placed = some l.command) ∧
      ls.map Line.trace = ts ++ [(.plain .halt, z.span)] := by
  obtain ⟨ls, htrace, hcommand, htable, hsplits⟩ := hrecords.append (h.records_halt hdebug)
  have hend : (z.emit .halt).offset = z.close.bytecode.code.size :=
    (offset_instruction z ⟨.halt, ()⟩).trans h.size_close.symm
  refine ⟨ls, ?_, ?_, hcommand, htrace⟩
  · have hsplit := hsplits [] (hend ▸ .stop)
    rwa [List.append_nil, hoffset] at hsplit
  · rw [h.debug_close, htable, hempty]
    rfl

end Assembler

/-! ### Emitters -/

namespace Emitter

open Assembler

mutual

/-- The code of an emitter, with the spans under which it is emitted. -/
def trace : Emitter → List (Command × Span)
  | ⟨_, _, _, span, _, body⟩ => traceOf span body

/-- The code of the steps of an emitter with a span. -/
def traceOf (span : Span) : List (Step Emitter) → List (Command × Span)
  | [] => []
  | .directive d :: steps => (d.untargeted?.map (·, span)).toList ++ traceOf span steps
  | .sub x :: steps => trace x ++ traceOf span steps

end

theorem trace_eq (x : Emitter) : x.trace = traceOf x.span x.body := by
  obtain ⟨r, t, c, span, labels, body⟩ := x
  rw [trace]

theorem trace_make (representation : Representation) (type : StaticType) (constant : Bool) (span : Span) (labels : Nat)
    (body : List (Step Emitter)) : (make representation type constant span labels body).trace = traceOf span body := by
  rw [trace_eq]
  rfl

theorem traceOf_append (span : Span) (steps steps' : List (Step Emitter)) :
    traceOf span (steps ++ steps') = traceOf span steps ++ traceOf span steps' := by
  induction steps with
  | nil => rw [List.nil_append, traceOf, List.nil_append]
  | cons step steps ih =>
    cases step with
    | directive d => rw [List.cons_append, traceOf, traceOf, ih, List.append_assoc]
    | sub x => rw [List.cons_append, traceOf, traceOf, ih, List.append_assoc]

theorem traceOf_flatMap {α : Type} (span : Span) (f : α → List (Step Emitter)) (as : List α) :
    traceOf span (as.flatMap f) = as.flatMap fun a => traceOf span (f a) := by
  induction as with
  | nil => rw [List.flatMap_nil, traceOf, List.flatMap_nil]
  | cons a as ih => rw [List.flatMap_cons, traceOf_append, ih, List.flatMap_cons]

/-- The span that was set before an emitter is set again after it. -/
theorem span_assemble (x : Emitter) (a : Assembler) : (x.assemble a).span = a.span := by
  obtain ⟨r, t, c, span, labels, body⟩ := x
  rw [assemble]

end Emitter

namespace Setting

open Assembler

variable {σ : Type} {E : Setting σ} {x : Emitter} {a : Assembler}

private theorem records_assembleSteps {base : Nat} {steps : List (Step Emitter)}
    (hquiet : ∀ d, Step.directive d ∈ steps → d.isQuiet = true) (hsubs : ∀ y, Step.sub y ∈ steps → E.Regular y)
    (hrecords : ∀ y, Step.sub y ∈ steps → ∀ a, new.Precedes a → (y.assemble a).Precedes E.last → a.debugInfo = true →
      Records E.last a (y.assemble a) y.trace)
    (ha : new.Precedes a) (hlast : (Emitter.assembleSteps base steps a).Precedes E.last) (hdebug : a.debugInfo = true) :
    Records E.last a (Emitter.assembleSteps base steps a) (Emitter.traceOf a.span steps) := by
  induction steps generalizing a with
  | nil =>
    rw [Emitter.assembleSteps, Emitter.traceOf]
    exact .nil _ _
  | cons step steps ih =>
    have hrest := fun a => ih (a := a) (fun d hd => hquiet d (List.mem_cons_of_mem _ hd))
      (fun y hy => hsubs y (List.mem_cons_of_mem _ hy)) fun y hy => hrecords y (List.mem_cons_of_mem _ hy)
    cases step with
    | directive d =>
      have hd := (d.isQuiet_shift base).trans (hquiet d List.mem_cons_self)
      have hkeeps := keeps_apply a hd
      rw [Emitter.assembleSteps] at hlast ⊢
      have hnext := hrest _ (ha.trans (a.precedes_apply _)) hlast (hkeeps.debugInfo.trans hdebug)
      have hhere := E.closes.records_apply ha ((Emitter.precedes_assembleSteps _ _ _).trans hlast) hd hdebug
      rw [hkeeps.span] at hnext
      rw [d.untargeted?_shift] at hhere
      rw [Emitter.traceOf]
      exact hhere.append hnext
    | sub y =>
      have hkeeps := (hsubs y List.mem_cons_self).keeps a
      rw [Emitter.assembleSteps] at hlast ⊢
      have hnext := hrest _ (ha.trans (y.precedes_assemble _)) hlast (hkeeps.debugInfo.trans hdebug)
      have hhere := hrecords y List.mem_cons_self a ha ((Emitter.precedes_assembleSteps _ _ _).trans hlast) hdebug
      rw [hkeeps.span] at hnext
      rw [Emitter.traceOf]
      exact hhere.append hnext

/-- If spans are recorded, an emitter gets the entries of its trace. -/
theorem Regular.records (h : E.Regular x) (ha : new.Precedes a) (hlast : (x.assemble a).Precedes E.last)
    (hdebug : a.debugInfo = true) : Records E.last a (x.assemble a) x.trace := by
  induction h generalizing a with
  | @intro x m quiet falls subs runs ih =>
    obtain ⟨r, t, c, span, labels, body⟩ := x
    rw [Emitter.assemble] at hlast ⊢
    rw [Emitter.trace]
    have hbegin : a.Precedes { a.newLabels labels with span } :=
      (a.precedes_newLabels labels).trans (.of_eq rfl rfl rfl id (Nat.le_refl _))
    have hend : (Emitter.assembleSteps a.labels.size body { a.newLabels labels with span }).Precedes
        { Emitter.assembleSteps a.labels.size body { a.newLabels labels with span } with span := a.span } :=
      .of_eq rfl rfl rfl id (Nat.le_refl _)
    exact records_assembleSteps quiet subs (fun y hy a ha hlast hdebug => ih y hy ha hlast hdebug) (ha.trans hbegin)
      (hend.trans hlast) hdebug

end Setting

end TemplateExpr
