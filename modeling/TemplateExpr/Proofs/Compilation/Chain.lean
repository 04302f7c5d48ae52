import Mathlib
import TemplateExpr.Proofs.Compilation.Correct
import TemplateExpr.Proofs.Execution.Occurrence
import TemplateExpr.Proofs.Execution.Tail

/-!
# Chains of conversions

An emitter may be converted again and again. Whatever it leaves, and in whatever form, its code runs once, and what
comes after it converts the value as the runtime library does, conversion by conversion, up to the first that fails.

* (slots) The directives that a conversion appends turn every slot of the one representation into a slot of the other,
  with the converted value (`Converts`).
* (emitters) A conversion keeps the code of its emitter and appends such directives (`Emitter.Extends`). Conversions
  that do so can be composed (`Extends.trans`), and so can those of a chain (`Emitter.extends_convertAll`).
* (runs) Where the emitter's code leaves a slot as promised (`Setting.Yields`), a run goes on to a slot with the
  converted value or to the fault of the first conversion that fails (`Emitter.convertAll_sound`).
-/

namespace TemplateExpr

/-! ### Conversions of values -/

/-- A conversion that an emitter has. -/
inductive Conversion where
  | boxed
  | int
  | float
  | bool
  | text
  | convert (target : Representation)

namespace Value

/-- Only an integer counts as an integer. -/
def asInt : Value → Except Fault Value
  | .int n => .ok (.int n)
  | v => .error (.type (.notInt v.kind))

/-- A number, as a float. -/
def asFloat (v : Value) : Except Fault Value :=
  match v.number? with
  | some x => .ok (.float x)
  | none => .error (.type (.notNumber v.kind))

end Value

namespace Conversion

/-- What the conversion makes of a value. Boxing keeps the value, and nothing converts to null, lists and maps. -/
def value : Conversion → Value → Except Fault Value
  | boxed | convert .boxed | convert (.exact .null) | convert (.exact .list) | convert (.exact .map) => .ok
  | int | convert (.exact .int) => Value.asInt
  | float | convert (.exact .float) => Value.asFloat
  | bool | convert (.exact .bool) => fun v => .ok (.bool v.isTruthy)
  | text | convert (.exact .string) => fun v => .ok (.string v.text)

/-- The converted emitter. -/
def emitter : Conversion → Emitter → Emitter
  | boxed => Emitter.toBoxed
  | int => Emitter.toInt
  | float => Emitter.toFloat
  | bool => Emitter.toBool
  | text => Emitter.toText
  | convert target => fun x => x.convert target

end Conversion

/-! ### Slots -/

/-- The directives turn every slot of one representation into one of the other, with the value that a function gives,
or fail as it does. -/
def Converts (ds : List Directive) (r r' : Representation) (f : Value → Except Fault Value) : Prop :=
  ∀ x, r.Holds x → ∃ result, Directive.Turn ds x result ∧ result.map Slot.value = f x.value ∧
    ∀ y, result = .ok y → r'.Holds y

namespace Converts

variable {r r' r'' : Representation} {ds es : List Directive} {f g : Value → Except Fault Value}

/-- Without directives every slot stays what it is. -/
theorem nil (h : ∀ x, r.Holds x → f x.value = .ok x.value ∧ r'.Holds x) : Converts [] r r' f := by
  intro x hx
  obtain ⟨hvalue, hx'⟩ := h x hx
  refine ⟨.ok x, .nil, hvalue.symm, fun y hy => ?_⟩
  cases hy
  exact hx'

private theorem exists_of_turns {d : Directive} {x y : Slot} (h : d.Turns x (.ok y)) (hy : r'.Holds y)
    (hvalue : f x.value = .ok y.value) : ∃ result, Directive.Turn [d] x result ∧
      result.map Slot.value = f x.value ∧ ∀ y, result = .ok y → r'.Holds y := by
  refine ⟨.ok y, .cons h .nil, hvalue.symm, fun z hz => ?_⟩
  cases hz
  exact hy

theorem append (h : Converts ds r r' f) (h' : Converts es r' r'' g) :
    Converts (ds ++ es) r r'' fun v => f v >>= g := by
  intro x hx
  obtain ⟨result, hturn, hvalue, hholds⟩ := h x hx
  cases result with
  | error e =>
    refine ⟨.error e, hturn.append (k := .ok) nofun, ?_, nofun⟩
    beta_reduce
    rw [← hvalue]
    rfl
  | ok y =>
    obtain ⟨result', hturn', hvalue', hholds'⟩ := h' y (hholds y rfl)
    refine ⟨result', hturn.append (k := fun _ => result') fun z hz => ?_, ?_, hholds'⟩
    · cases hz
      exact hturn'
    · beta_reduce
      rw [← hvalue]
      exact hvalue'

/-! ### The directives of conversions -/

section Instruction

variable {d : Directive} {i : Instruction}

theorem int {g : Int64 → Slot} (hd : ∀ a : Assembler, a.apply d = a.instruction i)
    (hexec : ∀ (c : Context) (stop : Nat) (S : Stack),
      i.execute c stop S = (S.mapInt c.limit g).map fun s => .next s stop)
    (hg : ∀ n, r'.Holds (g n) ∧ f (.int n) = .ok (g n).value) : Converts [d] (.exact .int) r' f := by
  rintro _ ⟨n, rfl⟩
  exact exists_of_turns (.ok hd fun c stop S => hexec c stop _) (hg n).1 (hg n).2

theorem float {g : Float → Slot} (hd : ∀ a : Assembler, a.apply d = a.instruction i)
    (hexec : ∀ (c : Context) (stop : Nat) (S : Stack),
      i.execute c stop S = (S.mapFloat c.limit g).map fun s => .next s stop)
    (hg : ∀ x, r'.Holds (g x) ∧ f (.float x) = .ok (g x).value) : Converts [d] (.exact .float) r' f := by
  rintro _ ⟨x, rfl⟩
  exact exists_of_turns (.ok hd fun c stop S => hexec c stop _) (hg x).1 (hg x).2

theorem bool {g : Bool → Slot} (hd : ∀ a : Assembler, a.apply d = a.instruction i)
    (hexec : ∀ (c : Context) (stop : Nat) (S : Stack),
      i.execute c stop S = (S.mapBool c.limit g).map fun s => .next s stop)
    (hg : ∀ b, r'.Holds (g b) ∧ f (.bool b) = .ok (g b).value) : Converts [d] (.exact .bool) r' f := by
  rintro _ ⟨b, rfl⟩
  exact exists_of_turns (.ok hd fun c stop S => hexec c stop _) (hg b).1 (hg b).2

/-- A runtime function of one value that does not fail. -/
theorem invoke {h : RuntimeFunction} {g : Value → Value} (harity : h.arity = 1)
    (happly : ∀ v, h.apply [v] = .ok (g v))
    (hg : ∀ v, r'.Holds (h.resultSlot (g v)) ∧ f v = .ok (h.resultSlot (g v)).value) :
    Converts [.invoke h] .boxed r' f := by
  rintro _ ⟨v, rfl⟩
  exact exists_of_turns (.invoke harity (happly v)) (hg v).1 (hg v).2

end Instruction

theorem unboxInt : Converts [.emit .unboxInt] .boxed (.exact .int) Value.asInt := by
  rintro _ ⟨v, rfl⟩
  cases v with
  | int n => exact exists_of_turns (.ok (i := ⟨.unboxInt, ()⟩) (fun _ => rfl) fun _ _ _ => rfl) ⟨_, rfl⟩ rfl
  | _ => exact ⟨_, .fail (.error (i := ⟨.unboxInt, ()⟩) (fun _ => rfl) fun _ _ _ => rfl), rfl, nofun⟩

theorem unboxFloat : Converts [.emit .unboxFloat] .boxed (.exact .float) Value.asFloat := by
  rintro _ ⟨v, rfl⟩
  cases v with
  | int n => exact exists_of_turns (.ok (i := ⟨.unboxFloat, ()⟩) (fun _ => rfl) fun _ _ _ => rfl) ⟨_, rfl⟩ rfl
  | float x => exact exists_of_turns (.ok (i := ⟨.unboxFloat, ()⟩) (fun _ => rfl) fun _ _ _ => rfl) ⟨_, rfl⟩ rfl
  | _ => exact ⟨_, .fail (.error (i := ⟨.unboxFloat, ()⟩) (fun _ => rfl) fun _ _ _ => rfl), rfl, nofun⟩

end Converts

/-! ### Emitters -/

namespace Emitter

variable {x y z : Emitter} {f g : Value → Except Fault Value}

/-- A representation of one kind determines the type. -/
def Typed (x : Emitter) : Prop := ∀ k, x.representation = .exact k → x.type = .known k

/-- The assembler that has run the emitter's code, still under the emitter's span. -/
def resume (x : Emitter) (a : Assembler) : Assembler := { x.assemble a with span := x.span }

theorem typed_make (r : Representation) (type : StaticType) (constant : Bool) (span : Span) (labels : Nat)
    (body : List (Step Emitter)) : (make r type constant span labels body).Typed := by
  intro k hk
  change r = .exact k at hk
  subst hk
  rfl

/-- The code of an emitter is under its own span, and the one before is set again. -/
theorem assemble_eq_resume (x : Emitter) (a : Assembler) : x.assemble a = { x.resume a with span := a.span } := by
  obtain ⟨r, t, c, span, labels, body⟩ := x
  rw [resume, assemble]

theorem resume_andThen (x : Emitter) (r : Representation) (type : StaticType) {d : Directive}
    (hd : d.isPlain = true) (a : Assembler) : (x.andThen r type [d]).resume a = (x.resume a).apply d := by
  have hbegin : x.assemble { a.newLabels 0 with span := x.span } = x.resume a := by
    obtain ⟨r', t, c, span, labels, body⟩ := x
    rw [resume, assemble, assemble]
    simp [Assembler.newLabels]
  have hrun : (x.andThen r type [d]).assemble a = { (x.resume a).apply d with span := a.span } := by
    rw [andThen, make, assemble]
    change { assembleSteps a.labels.size [.sub x, .directive d] { a.newLabels 0 with span := x.span } with
      span := a.span } = _
    rw [assembleSteps, assembleSteps, assembleSteps, Directive.shift_of_isPlain hd, hbegin]
  have hspan : ((x.resume a).apply d).span = x.span :=
    (Assembler.keeps_apply (x.resume a) (Directive.isQuiet_of_isPlain hd)).span
  rw [resume, hrun]
  change { (x.resume a).apply d with span := x.span } = _
  rw [← hspan]

/-- `y` has the code of `x`, once, and directives after it that convert what `x` leaves as a function of values says. -/
structure Extends (x y : Emitter) (f : Value → Except Fault Value) : Prop where
  span : y.span = x.span
  constant : y.constant = x.constant
  typed : x.Typed → y.Typed
  code : ∃ tail : List Directive, (∀ d ∈ tail, d.isPlain = true) ∧ (∀ a, y.resume a = (x.resume a).run tail) ∧
    Converts tail x.representation y.representation f

namespace Extends

theorem andThen {r r' : Representation} {type : StaticType} {d : Directive} (hr : x.representation = r)
    (hd : d.isPlain = true) (h : Converts [d] r r' f) : x.Extends (x.andThen r' type [d]) f where
  span := rfl
  constant := rfl
  typed _ := typed_make _ _ _ _ _ _
  code := ⟨[d], by simpa using hd, x.resume_andThen r' type hd, hr ▸ h⟩

/-- Nothing is to be done for slots that stay as they are. -/
theorem same {r : Representation} (hr : x.representation = r) (h : ∀ s, r.Holds s → f s.value = .ok s.value) :
    x.Extends x f := by
  subst hr
  exact ⟨rfl, rfl, id, [], nofun, fun _ => rfl, .nil fun s hs => ⟨h s hs, hs⟩⟩

/-- A reference may count as boxed. -/
theorem retag {r : Representation} (hr : x.representation = r) (h : ∀ s, r.Holds s → Representation.boxed.Holds s) :
    x.Extends { x with representation := .boxed } .ok := by
  subst hr
  refine ⟨rfl, rfl, fun _ => nofun, [], nofun, fun a => ?_, .nil fun s hs => ⟨rfl, h s hs⟩⟩
  rw [resume, assemble_retag]
  rfl

theorem trans (h : x.Extends y f) (h' : y.Extends z g) : x.Extends z fun v => f v >>= g := by
  obtain ⟨tail, hplain, hcode, hconverts⟩ := h.code
  obtain ⟨tail', hplain', hcode', hconverts'⟩ := h'.code
  refine ⟨h'.span.trans h.span, h'.constant.trans h.constant, fun hx => h'.typed (h.typed hx), tail ++ tail', ?_, ?_,
    hconverts.append hconverts'⟩
  · intro d hd
    exact (List.mem_append.1 hd).elim (hplain d) (hplain' d)
  · intro a
    rw [hcode', hcode, Assembler.run_append]

end Extends

/-! ### One conversion -/

variable (x)

theorem extends_toBoxed : x.Extends x.toBoxed .ok := by
  rw [toBoxed]
  cases hr : x.representation with
  | boxed => exact .retag hr fun _ hs => hs
  | exact k =>
    cases k with
    -- unboxed slots are boxed by an instruction, and references need none
    | int =>
      exact .andThen hr rfl (.int (i := ⟨.boxInt, ()⟩) (fun _ => rfl) (fun _ _ _ => rfl) fun _ => ⟨⟨_, rfl⟩, rfl⟩)
    | float =>
      exact .andThen hr rfl (.float (i := ⟨.boxFloat, ()⟩) (fun _ => rfl) (fun _ _ _ => rfl) fun _ => ⟨⟨_, rfl⟩, rfl⟩)
    | bool =>
      exact .andThen hr rfl (.bool (i := ⟨.boxBool, ()⟩) (fun _ => rfl) (fun _ _ _ => rfl) fun _ => ⟨⟨_, rfl⟩, rfl⟩)
    | _ =>
      refine .retag hr ?_
      rintro s ⟨v, hv, -⟩
      exact ⟨v, hv⟩

theorem representation_toBoxed : x.toBoxed.representation = .boxed := by
  unfold toBoxed
  split <;> rfl

/-- A conversion of boxed values has the value boxed first. -/
theorem extends_toBoxed_andThen {r : Representation} {type : StaticType} {d : Directive} (hd : d.isPlain = true)
    (h : Converts [d] .boxed r f) : x.Extends (x.toBoxed.andThen r type [d]) f :=
  x.extends_toBoxed.trans (.andThen x.representation_toBoxed hd h)

theorem extends_toInt : x.Extends x.toInt Value.asInt := by
  have hunboxed : x.Extends (x.toBoxed.andThen (.exact .int) (.known .int) [.emit .unboxInt]) Value.asInt :=
    x.extends_toBoxed_andThen rfl .unboxInt
  rw [toInt]
  cases hr : x.representation with
  | boxed => exact hunboxed
  | exact k =>
    cases k with
    | int =>
      refine .same hr ?_
      rintro _ ⟨n, rfl⟩
      rfl
    | _ => exact hunboxed

theorem extends_toFloat : x.Extends x.toFloat Value.asFloat := by
  have hunboxed : x.Extends (x.toBoxed.andThen (.exact .float) (.known .float) [.emit .unboxFloat]) Value.asFloat :=
    x.extends_toBoxed_andThen rfl .unboxFloat
  rw [toFloat]
  cases hr : x.representation with
  | boxed => exact hunboxed
  | exact k =>
    cases k with
    | float =>
      refine .same hr ?_
      rintro _ ⟨y, rfl⟩
      rfl
    | int =>
      exact .andThen hr rfl (.int (i := ⟨.intToFloat, ()⟩) (fun _ => rfl) (fun _ _ _ => rfl) fun _ => ⟨⟨_, rfl⟩, rfl⟩)
    | _ => exact hunboxed

theorem extends_toBool : x.Extends x.toBool fun v => .ok (.bool v.isTruthy) := by
  have htested : x.Extends (x.toBoxed.andThen (.exact .bool) (.known .bool) [.invoke .truthy])
      fun v => .ok (.bool v.isTruthy) :=
    x.extends_toBoxed_andThen rfl (.invoke rfl (fun _ => rfl) fun _ => ⟨⟨_, rfl⟩, rfl⟩)
  rw [toBool]
  cases hr : x.representation with
  | boxed => exact htested
  | exact k =>
    cases k with
    | bool =>
      refine .same hr ?_
      rintro _ ⟨b, rfl⟩
      rfl
    | int =>
      exact .andThen hr rfl (.int (i := ⟨.intToBool, ()⟩) (fun _ => rfl) (fun _ _ _ => rfl) fun _ => ⟨⟨_, rfl⟩, rfl⟩)
    | float =>
      exact .andThen hr rfl
        (.float (i := ⟨.floatToBool, ()⟩) (fun _ => rfl) (fun _ _ _ => rfl) fun _ => ⟨⟨_, rfl⟩, rfl⟩)
    | _ => exact htested

theorem extends_toText : x.Extends x.toText fun v => .ok (.string v.text) := by
  have hmade : x.Extends (x.toBoxed.andThen (.exact .string) (.known .string) [.invoke .coerceToString])
      fun v => .ok (.string v.text) :=
    x.extends_toBoxed_andThen rfl (.invoke rfl (fun _ => rfl) fun _ => ⟨⟨_, rfl, rfl⟩, rfl⟩)
  rw [toText]
  cases hr : x.representation with
  | boxed => exact hmade
  | exact k =>
    cases k with
    | string =>
      refine .same hr ?_
      rintro _ ⟨v, rfl, hkind⟩
      -- the text of a string is the string
      cases v with
      | string t =>
        change Except.ok (Value.string (Value.string t).text) = .ok (Value.string t)
        rw [Value.text]
      | _ => cases hkind
    | int =>
      exact .andThen hr rfl
        (.int (i := ⟨.intToString, ()⟩) (fun _ => rfl) (fun _ _ _ => rfl) fun _ => ⟨⟨_, rfl, rfl⟩, rfl⟩)
    | float =>
      exact .andThen hr rfl
        (.float (i := ⟨.floatToString, ()⟩) (fun _ => rfl) (fun _ _ _ => rfl) fun _ => ⟨⟨_, rfl, rfl⟩, rfl⟩)
    | bool =>
      exact .andThen hr rfl
        (.bool (i := ⟨.boolToString, ()⟩) (fun _ => rfl) (fun _ _ _ => rfl) fun _ => ⟨⟨_, rfl, rfl⟩, rfl⟩)
    | _ => exact hmade

/-- Null, lists and maps are what they are, or boxed. -/
private theorem extends_unless {target : Representation} :
    x.Extends (if x.representation = target then x else x.toBoxed) .ok := by
  split
  · exact .same rfl fun _ _ => rfl
  · exact x.extends_toBoxed

/-- Every conversion converts as it converts values. -/
theorem extends_emitter (c : Conversion) : x.Extends (c.emitter x) c.value := by
  cases c with
  | boxed => exact x.extends_toBoxed
  | int => exact x.extends_toInt
  | float => exact x.extends_toFloat
  | bool => exact x.extends_toBool
  | text => exact x.extends_toText
  | convert target =>
    cases target with
    | boxed => exact x.extends_toBoxed
    | exact k =>
      cases k with
      | int => exact x.extends_toInt
      | float => exact x.extends_toFloat
      | bool => exact x.extends_toBool
      | string => exact x.extends_toText
      | null => exact x.extends_unless
      | list => exact x.extends_unless
      | map => exact x.extends_unless

/-! ### Chains -/

/-- The emitter after a chain of conversions. -/
def convertAll (cs : List Conversion) : Emitter := cs.foldl (fun x c => c.emitter x) x

/-- A chain of conversions converts in order, up to the first conversion that fails. -/
theorem extends_convertAll (cs : List Conversion) :
    x.Extends (x.convertAll cs) fun v => cs.foldlM (fun v (c : Conversion) => c.value v) v := by
  induction cs generalizing x with
  | nil => exact .same rfl fun _ _ => rfl
  | cons c cs ih => exact (x.extends_emitter c).trans (ih (c.emitter x))

end Emitter

/-! ### Runs -/

namespace Setting

open Assembler

variable {σ : Type} {E : Setting σ} {x : Emitter} {a : Assembler}

/-- A run that leaves the emitter's code, with whatever stack it has entered it, does so at its end, with one slot more,
of the kind that is promised. -/
def Yields (E : Setting σ) (x : Emitter) (a : Assembler) : Prop :=
  ∀ s t, s.ip = a.offset → E.context.StepsIn E.natives a.offset (x.assemble a).offset s t →
    ¬ (a.offset ≤ t.ip ∧ t.ip < (x.assemble a).offset) →
    t.ip = (x.assemble a).offset ∧ ∃ slot, t.stack = s.stack.push slot ∧ x.representation.Holds slot

/-- An emitter that carries out an evaluation leaves what it promises. -/
theorem Leaves.yields {r : Representation} {m : Evaluation σ r.Content} (h : E.Leaves x r m) (ha : Begins a)
    (hlast : (x.assemble a).Precedes E.last) : E.Yields x a := by
  intro s t hs hsteps hleft
  rw [h.representation]
  exact h.slot_of_left ha hlast hs hsteps hleft

end Setting

namespace Emitter

open Assembler

variable {x y : Emitter} {f : Value → Except Fault Value}

theorem Extends.precedes (h : x.Extends y f) (a : Assembler) : (x.assemble a).Precedes (y.assemble a) := by
  obtain ⟨tail, -, hcode, -⟩ := h.code
  have hresume : (x.assemble a).Precedes (x.resume a) := .of_eq rfl rfl rfl id (Nat.le_refl _)
  rw [y.assemble_eq_resume, hcode]
  exact (hresume.trans (precedes_run _ tail)).trans (.of_eq rfl rfl rfl id (Nat.le_refl _))

/-- Where a run leaves the code of an emitter, the directives after it take over. -/
theorem Extends.delivers {σ : Type} {E : Setting σ} {a : Assembler} {s t : State σ} {slot : Slot} (h : x.Extends y f)
    (ha : Assembler.new.Precedes a) (hlast : (y.assemble a).Precedes E.last) (hsteps : E.context.Steps E.natives s t)
    (hip : t.ip = (x.assemble a).offset) (hstack : t.stack = s.stack.push slot) (hslot : x.representation.Holds slot) :
    ∃ result, E.Delivers (x.resume a) (y.assemble a) s.stack t result ∧ result.map Slot.value = f slot.value ∧
      ∀ slot', result = .ok slot' → y.representation.Holds slot' := by
  obtain ⟨tail, -, hcode, hconverts⟩ := h.code
  obtain ⟨result, hturn, hvalue, hholds⟩ := hconverts slot hslot
  refine ⟨result, ?_, hvalue, hholds⟩
  rw [y.assemble_eq_resume, hcode] at hlast ⊢
  have hbegun : Assembler.new.Precedes (x.resume a) :=
    (ha.trans (x.precedes_assemble a)).trans (.of_eq rfl rfl rfl id (Nat.le_refl _))
  have hend : ((x.resume a).run tail).Precedes { (x.resume a).run tail with span := a.span } :=
    .of_eq rfl rfl rfl id (Nat.le_refl _)
  -- there was room for the slot
  have hroom : s.stack.height < E.context.limit := by
    have hheight := hsteps.height_le_max
    rw [hstack, Stack.height_push] at hheight
    omega
  exact Setting.delivers_of_turn hturn hbegun (hend.trans hlast) hip hstack hroom

/-- A chain of conversions keeps the span and the constant flag of an emitter, determines the type if its representation
is of one kind, and appends directives to the emitter's code. If a run leaves that code with a slot as promised, it goes
on to a slot that holds the value converted in order, or to the fault of the first conversion that fails. -/
theorem convertAll_sound (x : Emitter) (cs : List Conversion) :
    (x.convertAll cs).span = x.span ∧ (x.convertAll cs).constant = x.constant ∧
    (x.Typed → (x.convertAll cs).Typed) ∧
    (∃ tail : List Directive, (∀ d ∈ tail, d.isPlain = true) ∧
      ∀ a, (x.convertAll cs).assemble a = { (x.resume a).run tail with span := a.span }) ∧
    ∀ {σ : Type} (E : Setting σ) (a : Assembler), Assembler.new.Precedes a →
      ((x.convertAll cs).assemble a).Precedes E.last → E.Yields x a → ∀ s t : State σ, s.ip = a.offset →
      E.context.StepsIn E.natives a.offset (x.assemble a).offset s t →
      ¬ (a.offset ≤ t.ip ∧ t.ip < (x.assemble a).offset) →
      ∃ slot, t.stack = s.stack.push slot ∧ x.representation.Holds slot ∧
        ∃ result, E.Delivers (x.resume a) ((x.convertAll cs).assemble a) s.stack t result ∧
          result.map Slot.value = cs.foldlM (fun v c => c.value v) slot.value ∧
          ∀ slot', result = .ok slot' → (x.convertAll cs).representation.Holds slot' := by
  have hextends := x.extends_convertAll cs
  refine ⟨hextends.span, hextends.constant, hextends.typed, ?_, fun E a ha hlast hyields s t hs hsteps hleft => ?_⟩
  · obtain ⟨tail, hplain, hcode, -⟩ := hextends.code
    refine ⟨tail, hplain, fun a => ?_⟩
    rw [assemble_eq_resume, hcode]
  · obtain ⟨hip, slot, hstack, hslot⟩ := hyields s t hs hsteps hleft
    exact ⟨slot, hstack, hslot, hextends.delivers ha hlast hsteps.steps hip hstack hslot⟩

/-- A literal `7`. -/
def seven : Emitter := .int 7 ⟨0, 1⟩

/-- The text of a number is not read as an integer again: the program fails where its literal is. -/
theorem convertAll_sound_seven : ∃ p, (seven.convertAll [.float, .text, .int]).program {} = .ok p ∧
    ∃ t last : State Unit, (Context.mk p.bytecode .empty 1).Steps (fun _ => none) (.initial ()) t ∧
      (Context.mk p.bytecode .empty 1).step (fun _ => none) t =
        .done (.error ⟨.type (.notInt .string), ⟨0, 1⟩⟩) last := by
  obtain ⟨p, hp, hdepth⟩ : ∃ p, (seven.convertAll [.float, .text, .int]).program {} = .ok p ∧ p.maxStackDepth = 1 :=
    exists_of_map (by cbv)
  have hmakes := makes_of_program hp
  let E : Setting Unit := .ofProgram hmakes .empty 1 fun _ => none
  have hleaves : E.Leaves seven (.exact .int) (pure 7) := .constant rfl rfl rfl fun _ => .pushInt 7
  have hbegins : Setting.Begins (CompileOptions.assembler {}) := ⟨precedes_assembler {}, rfl⟩
  have hlast := (seven.extends_convertAll [.float, .text, .int]).precedes (CompileOptions.assembler {})
  have hrun := hleaves.runs _ .empty hbegins hlast (.initial ()) (State.initial ()) ⟨rfl, rfl, rfl, rfl⟩
  obtain ⟨-, -, ⟨t, hsteps, hat⟩ | ⟨t, _, _, _, _, _, -, hlt⟩⟩ := hrun
  · obtain ⟨slot, hstack, -, result, hdelivers, hvalue, -⟩ :=
      (convertAll_sound seven [.float, .text, .int]).2.2.2.2 E _ (precedes_assembler {}) (.refl _)
        (hleaves.yields hbegins hlast) (State.initial ()) t rfl hsteps (by rw [hat.ip]; omega)
    obtain rfl : slot = .int 7 := by
      have hpush := congrArg Stack.pop? (hstack.symm.trans hat.stack)
      cases hpush
      rfl
    cases result with
    | ok y => cases hvalue
    | error f =>
      cases hvalue
      obtain ⟨u, found, last, hu, -, hdone, hspan, -⟩ := hdelivers
      obtain rfl := hspan rfl
      exact ⟨p, hp, u, last, hsteps.steps.trans hu.steps, hdone⟩
  · -- the program has room for its only slot
    rw [show E.last.maxDepth = 1 from hmakes.maxStackDepth.symm.trans hdepth] at hlt
    exact absurd hlt (Nat.lt_irrefl 1)

end Emitter

end TemplateExpr
