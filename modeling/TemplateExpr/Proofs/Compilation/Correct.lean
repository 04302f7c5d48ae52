import Mathlib
import TemplateExpr.Proofs.Compilation.Emitter

/-!
# Compiled programs

A program is the closed code of its emitter, so it is a setting of its own (`Setting.ofProgram`). Its run

* (ending) ends as the evaluation that the emitter computes, or for the limit of the stack (`Computes.ends`);
* (main result) ends exactly like the evaluation of the expression if the limit is not lower than the program says
  (`ExprRoot.run_eq_evaluate`).
-/

namespace TemplateExpr

open Evaluation Assembler

/-- The assembler with which the assembly of a program begins. -/
def CompileOptions.assembler (options : CompileOptions) : Assembler :=
  { Assembler.new with debugInfo := options.debugInfo }

/-! ### Programs -/

namespace Emitter

variable {x : Emitter} {options : CompileOptions} {p : Program}

/-- What a finished program says of its emitter. -/
structure Makes (x : Emitter) (options : CompileOptions) (p : Program) : Prop where
  closes : (x.assemble options.assembler).Closes
  bytecode : p.bytecode = (x.assemble options.assembler).close.bytecode
  representation : p.representation = x.representation
  maxStackDepth : p.maxStackDepth = (x.assemble options.assembler).maxDepth

theorem precedes_assembler (options : CompileOptions) : Assembler.new.Precedes options.assembler :=
  .of_eq rfl rfl rfl id (Nat.le_refl _)

/-- A program that is made is finished from its emitter's assembly; a validation that is asked for changes nothing. -/
theorem eq_of_program (h : x.program options = .ok p) : ∃ b, (x.assemble options.assembler).finish = .ok b ∧
    p = ⟨b, x.representation, x.type, x.constant, (x.assemble options.assembler).maxDepth⟩ := by
  change ((x.assemble options.assembler).finish.mapError CompileError.assembly >>= fun b => _) = _ at h
  obtain ⟨b, hb, h⟩ := Except.of_bind_eq_ok h
  refine ⟨b, ?_, ?_⟩
  · cases hf : (x.assemble options.assembler).finish with
    | error es =>
      rw [hf] at hb
      cases hb
    | ok b' =>
      rw [hf] at hb
      cases hb
      rfl
  · split at h
    · obtain ⟨_, -, hrest⟩ := Except.of_bind_eq_ok h
      cases hrest
      rfl
    · cases h
      rfl

theorem makes_of_program (h : x.program options = .ok p) : x.Makes options p := by
  obtain ⟨b, hfinish, rfl⟩ := eq_of_program h
  obtain ⟨hcloses, heq⟩ := Closes.of_finish ((precedes_assembler options).trans (x.precedes_assemble _)) hfinish
  exact ⟨hcloses, heq, rfl, rfl⟩

end Emitter

/-- How it is found that something is compiled, and what its program is like. -/
theorem exists_of_map {α : Type} {r : Except CompileError Program} {f : Program → α} {a : α}
    (h : (r.map f).toOption = some a) : ∃ p, r = .ok p ∧ f p = a := by
  cases r with
  | error e => cases h
  | ok p => exact ⟨p, rfl, Option.some.inj h⟩

theorem ExprRoot.makes_of_compile {root : ExprRoot} {options : CompileOptions} {p : Program}
    (h : root.compile .global options = .ok p) :
    ∃ x, root.expr.compile .global = .ok x ∧ x.Makes options p := by
  obtain ⟨x, hx, hp⟩ := Except.of_bind_eq_ok h
  exact ⟨x, hx, Emitter.makes_of_program hp⟩

namespace Setting

variable {σ : Type} {E : Setting σ} {x : Emitter} {options : CompileOptions} {p : Program} {o : Operand σ}

/-- A program, what it runs on, and the assembler that it was closed from. -/
def ofProgram (h : x.Makes options p) (globals : OrderedMap Value) (limit : Nat)
    (natives : String → Option (Native σ)) : Setting σ :=
  ⟨⟨p.bytecode, globals, limit⟩, natives, x.assemble options.assembler, h.closes, h.bytecode⟩

/-! ### Endings -/

/-- How the last step ends a run that carries out a whole evaluation. -/
def Finishes (E : Setting σ) (a : Assembler) (t : State σ) (result : Except RuntimeError Value) (last : State σ) :
    Except Failure Value × World σ → Prop
  | (.ok v, w) => result = .ok v ∧ last.host = w.host ∧ last.calls = w.calls
  | (.error e, w) => E.Reports a t result last e ∧ last.host = w.host ∧ last.calls = w.calls

/-- A fault that is not the expression's own comes from a native function. -/
theorem Finishes.nativeError {a : Assembler} {t last : State σ} {r : Except Failure Value × World σ} {f : Fault}
    {span : Span} (h : E.Finishes a t (.error ⟨f, span⟩) last r) (hf : f.isOwn = false) :
    Context.NativeError E.natives t last ⟨f, span⟩ := by
  rcases r with ⟨e | v, w⟩
  · obtain ⟨hreports, -⟩ := h
    cases e with
    | raised g span' =>
      obtain ⟨hown, found, heq, -⟩ := hreports
      cases heq
      rw [hf] at hown
      cases hown
    | native e =>
      obtain ⟨heq, hans⟩ := hreports
      cases heq
      exact hans
  · obtain ⟨heq, -⟩ := h
    cases heq

theorem Finishes.ok_iff {a : Assembler} {t last : State σ} {result : Except RuntimeError Value}
    {r : Except Failure Value × World σ} (h : E.Finishes a t result last r) (v : Value) :
    result = .ok v ↔ r.1.toOption = some v := by
  rcases r with ⟨e | u, w⟩
  · obtain ⟨hreports, -⟩ := h
    have herror : ∃ e, result = .error e := by
      cases e with
      | raised f span =>
        obtain ⟨-, found, heq, -⟩ := hreports
        exact ⟨_, heq⟩
      | native e => exact ⟨e, hreports.1⟩
    obtain ⟨e, rfl⟩ := herror
    exact ⟨nofun, nofun⟩
  · obtain ⟨rfl, -⟩ := h
    constructor <;> rintro ⟨⟩ <;> rfl

/-- With one slot on the stack the program halts with its content. -/
private theorem step_halt {r : Representation} {v : r.Content} {w : World σ} {s : State σ}
    (hs : At E.last (Stack.empty.push (r.slot v)) w s) :
    ∃ last, E.context.step E.natives s = .done (.ok (r.value v)) last ∧ last.host = w.host ∧ last.calls = w.calls := by
  have hhalt : E.context.bytecode.fetch s.ip = .instruction ⟨.halt, ()⟩ := by
    rw [E.bytecode_eq, hs.ip]
    exact E.closes.fetch_halt
  have hstep := Context.step_instruction E.natives hhalt
  rw [hs.stack] at hstep
  have hexec : ∀ stop, (⟨.halt, ()⟩ : Instruction).execute E.context stop (Stack.empty.push (r.slot v)) =
      .ok (.halt (r.slot v).value) := fun _ => rfl
  rw [hexec, r.value_slot] at hstep
  exact ⟨_, hstep, hs.host, hs.calls⟩

/-- The run of a program ends as the evaluation that its emitter computes, or for the limit of the stack. -/
theorem Computes.ends (hx : E.Computes x o) (hlast : E.last = x.assemble options.assembler) (host : σ) :
    ∃ t result last, E.context.Steps E.natives (.initial host) t ∧ E.context.step E.natives t = .done result last ∧
      (E.Finishes options.assembler t result last (o.value (.initial host)) ∨
        (∃ span, E.context.Raises E.natives t ⟨.stackOverflow E.context.limit, span⟩) ∧
          E.context.limit < E.last.maxDepth) := by
  obtain ⟨r, m, hvalue, hleaves⟩ := hx.leaves
  have hbegins : Begins options.assembler := ⟨Emitter.precedes_assembler options, rfl⟩
  have hover : ∀ t, E.Overflows options.assembler .empty t →
      (∃ span, E.context.Raises E.natives t ⟨.stackOverflow E.context.limit, span⟩) ∧
        E.context.limit < E.last.maxDepth := by
    rintro t ⟨hraises, hlt⟩
    exact ⟨hraises, by simpa [CompileOptions.assembler, Assembler.new, Stack.empty] using hlt⟩
  have hout := hleaves.runs options.assembler .empty hbegins (hlast ▸ .refl _) (.initial host) (.initial host)
    ⟨rfl, rfl, rfl, rfl⟩
  rw [hvalue]
  rcases hm : m (.initial host) with ⟨e | v, w⟩
  · rw [map_error hm] at hout ⊢
    obtain ⟨t, result, last, ht, hdone, h | h⟩ := Context.Leads.ends hout
    · exact ⟨t, result, last, ht, hdone, .inl h⟩
    · exact ⟨t, result, last, ht, hdone, .inr (hover t h)⟩
  · rw [map_ok hm] at hout ⊢
    -- after the last emitter comes the halt
    obtain ⟨t, ht, hat⟩ | ⟨t, result, last, ht, -, hdone, h⟩ := hout.2.2
    · rw [← hlast] at hat
      obtain ⟨last, hdone, hworld⟩ := step_halt hat
      exact ⟨t, _, last, ht.steps, hdone, .inl ⟨rfl, hworld⟩⟩
    · exact ⟨t, result, last, ht.steps, hdone, .inr (hover t h)⟩

end Setting

namespace ExprRoot

variable {σ : Type} {root : ExprRoot} {options : CompileOptions} {p : Program}

/-- The run of a compiled expression ends as its evaluation does, or for the limit of the stack. -/
theorem ends_of_compile (h : root.compile .global options = .ok p) (globals : OrderedMap Value) (limit : Nat)
    (natives : String → Option (Native σ)) (host : σ) :
    ∃ (E : Setting σ) (t : State σ) (result : Except RuntimeError Value) (last : State σ),
      E.context = ⟨p.bytecode, globals, limit⟩ ∧ E.natives = natives ∧
      E.context.Steps natives (.initial host) t ∧ E.context.step natives t = .done result last ∧
      (E.Finishes options.assembler t result last (root.expr.evaluate ⟨globals, natives⟩ (.initial host)) ∨
        E.context.HitsLimit natives host ∧ limit < p.maxStackDepth) := by
  obtain ⟨x, hx, hp⟩ := makes_of_compile h
  have hcomputes : (Setting.ofProgram hp globals limit natives).Computes x _ := Setting.computes_of_compile hx
  obtain ⟨t, result, last, ht, hdone, hfinishes⟩ := hcomputes.ends rfl host
  refine ⟨_, t, result, last, rfl, rfl, ht, hdone, hfinishes.imp_right ?_⟩
  rintro ⟨⟨span, hraises⟩, hlt⟩
  exact ⟨⟨t, span, ht, hraises⟩, hp.maxStackDepth ▸ hlt⟩

/-- With room for its stack, a compiled expression never comes to the limit. -/
theorem not_hitsLimit_of_compile (h : root.compile .global options = .ok p) (globals : OrderedMap Value)
    (natives : String → Option (Native σ)) {limit : Nat} (hlimit : p.maxStackDepth ≤ limit) (host : σ) :
    ¬ (Context.mk p.bytecode globals limit).HitsLimit natives host := by
  rintro ⟨u, span, hu, last', hdone', hnative⟩
  obtain ⟨E, t, result, last, hcontext, rfl, ht, hdone, hfinishes | ⟨-, hlt⟩⟩ :=
    ends_of_compile h globals limit natives host
  · rw [hcontext] at ht hdone
    obtain rfl := ht.eq_of_done hdone hu hdone'
    rw [hdone] at hdone'
    cases hdone'
    exact hnative (hfinishes.nativeError rfl)
  · omega

/-- With spans recorded and room for its stack, a compiled expression runs exactly as it is evaluated: to the same value
or the same error, with the same calls of native functions. -/
theorem run_eq_evaluate (h : root.compile .global options = .ok p) (hdebug : options.debugInfo = true)
    (globals : OrderedMap Value) (natives : String → Option (Native σ)) {limit : Nat} (hlimit : p.maxStackDepth ≤ limit)
    (host : σ) : ∃ n last, (∀ fuel, n ≤ fuel → (Context.mk p.bytecode globals limit).run? natives fuel host =
        some ((root.expr.evaluate ⟨globals, natives⟩ (.initial host)).1.mapError Failure.error, last)) ∧
      last.host = (root.expr.evaluate ⟨globals, natives⟩ (.initial host)).2.host ∧
      last.calls = (root.expr.evaluate ⟨globals, natives⟩ (.initial host)).2.calls := by
  obtain ⟨E, t, result, last, hcontext, hnatives, ht, hdone, hfinishes | ⟨-, hlt⟩⟩ :=
    ends_of_compile h globals limit natives host
  · rw [hcontext] at ht hdone
    obtain ⟨n, hn⟩ := Context.Ends.runFrom? ⟨t, ht, hdone⟩
    refine ⟨n, last, ?_⟩
    rcases heval : root.expr.evaluate ⟨globals, natives⟩ (.initial host) with ⟨e | v, w⟩
    · rw [heval] at hfinishes
      obtain ⟨hreports, hworld⟩ := hfinishes
      have herror : result = .error e.error := by
        cases e with
        | raised f span =>
          obtain ⟨-, found, heq, hspan⟩ := hreports
          rw [heq, hspan hdebug]
          rfl
        | native e => exact hreports.1
      subst herror
      exact ⟨hn, hworld⟩
    · rw [heval] at hfinishes
      obtain ⟨rfl, hworld⟩ := hfinishes
      exact ⟨hn, hworld⟩
  · omega

/-- `visits() > 0 ? visits() % 0 : "none"`. -/
def twoVisits : ExprRoot :=
  .ofExpr (.conditional
    (.binary .gt (.call "visits" [] .unknown ⟨0, 8⟩) (.literal (.int 0) ⟨11, 12⟩) (.known .bool) ⟨0, 12⟩)
    (.binary .mod (.call "visits" [] (.known .int) ⟨15, 23⟩) (.literal (.int 0) ⟨26, 27⟩) (.known .int) ⟨15, 27⟩)
    (.literal (.string "none") ⟨30, 36⟩) .unknown ⟨0, 36⟩)

theorem compile_twoVisits : ∃ p, twoVisits.compile .global {} = .ok p ∧ p.maxStackDepth = 2 :=
  exists_of_map (by cbv)

/-- A native function that counts its calls. -/
def visits (name : String) : Option (Native Int64) :=
  if name = "visits" then some fun _ n => (.ok (.int (n + 1)), n + 1) else none

/-- Both calls are made before the remainder fails. -/
theorem run_eq_evaluate_twoVisits :
    ∃ p, twoVisits.compile .global {} = .ok p ∧ p.maxStackDepth ≤ 8 ∧
      ∃ n last, (∀ fuel, n ≤ fuel → (Context.mk p.bytecode .empty 8).run? visits fuel 0 =
          some (.error ⟨.divideByZero, ⟨15, 27⟩⟩, last)) ∧
        last.host = 2 ∧ last.calls = #[⟨"visits", []⟩, ⟨"visits", []⟩] := by
  have heval : twoVisits.expr.evaluate ⟨.empty, visits⟩ (.initial 0) = (.error (.raised .divideByZero ⟨15, 27⟩),
      ⟨2, #[⟨"visits", []⟩, ⟨"visits", []⟩], #[(.unknown, .int 1), (.known .int, .int 2)]⟩) := by rfl
  obtain ⟨p, hp, hdepth⟩ := compile_twoVisits
  have hlimit : p.maxStackDepth ≤ 8 := by omega
  have hrun := run_eq_evaluate hp rfl .empty visits hlimit 0
  rw [heval] at hrun
  exact ⟨p, hp, hlimit, hrun⟩

end ExprRoot

end TemplateExpr
