import TemplateExpr.Proofs.Execution.Emitter

/-!
# What each directive does to the stack

A directive applied under a span carries out an evaluation on a stack that has the right slots on top
(`Setting.Applies`). The rules for instructions of one shape are stated once, for any instruction that the machine
executes in that way (`Applies.ints`, `Applies.floats` and so on).
-/

namespace TemplateExpr

namespace Stack

/-- Values pushed one after another, as references. -/
def pushAll (s : Stack) (vs : List Value) : Stack := vs.foldl (fun s v => s.push (.ref v)) s

theorem slots_pushAll (s : Stack) (vs : List Value) :
    (s.pushAll vs).slots = (vs.map Slot.ref).reverse ++ s.slots := by
  induction vs generalizing s with
  | nil => rfl
  | cons v vs ih =>
    rw [pushAll, List.foldl_cons]
    change ((s.push (.ref v)).pushAll vs).slots = _
    rw [ih, slots_push]
    simp

theorem height_pushAll (s : Stack) (vs : List Value) : (s.pushAll vs).height = s.height + vs.length := by
  rw [height_eq, slots_pushAll, s.height_eq]
  simp [Nat.add_comm]

/-- Arguments are taken off in the order in which they were pushed. -/
theorem popValues_of_slots {s t : Stack} {xs : List Slot} (h : s.slots = xs.reverse ++ t.slots) :
    s.popValues xs.length = .ok (xs.map Slot.value, t) := by
  rcases s with ⟨slots, height, rfl⟩
  rcases t with ⟨slots', height', rfl⟩
  simp only at h
  subst h
  have hle : ¬ (xs.reverse ++ slots').length < xs.length := by simp
  simp only [popValues, popMany?, if_neg hle]
  congr 2
  · rw [List.take_left' List.length_reverse, List.reverse_reverse]
  · ext1
    exact List.drop_left' List.length_reverse

theorem popValues_pushAll (s : Stack) (vs : List Value) : (s.pushAll vs).popValues vs.length = .ok (vs, s) := by
  have h := popValues_of_slots (s.slots_pushAll vs)
  have hvalues : List.map Slot.value (vs.map Slot.ref) = vs := by
    rw [List.map_map]
    exact List.map_id vs
  rwa [List.length_map, hvalues] at h

end Stack

namespace Setting

open Evaluation Assembler

variable {σ : Type} {E : Setting σ} {d : Directive} {i : Instruction} {span : Span} {S : Stack}

/-- A directive that is given under a span carries out an evaluation. -/
def Applies (E : Setting σ) (d : Directive) (span : Span) (S : Stack) (m : Evaluation σ Stack) : Prop :=
  ∀ a, a.span = span → E.Runs a (a.apply d) S m

/-! ### Instructions of one shape -/

section Shape

variable {f : Int64 → Slot} {g : Float → Slot} {l : Bool → Slot} {f₂ : Int64 → Int64 → Slot} {g₂ : Float → Float → Slot}

/-- An instruction that pushes a slot. -/
theorem Applies.leaf (hd : ∀ a : Assembler, a.apply d = a.instruction i) (he : i.stackEffect? = some ⟨0, 1⟩) {x : Slot}
    (hexec : ∀ stop S, i.execute E.context stop S = (S.checkedPush E.context.limit x).map fun s => .next s stop) :
    E.Applies d span S (pure (S.push x)) := by
  intro a _
  rw [hd]
  exact Runs.push he rfl fun stop => hexec stop S

theorem Applies.int (hd : ∀ a : Assembler, a.apply d = a.instruction i) (he : i.stackEffect? = some ⟨1, 1⟩)
    (hexec : ∀ stop S, i.execute E.context stop S = (S.mapInt E.context.limit f).map fun s => .next s stop)
    (n : Int64) : E.Applies d span (S.push (.int n)) (pure (S.push (f n))) := by
  intro a _
  rw [hd]
  exact Runs.push he rfl fun stop => hexec stop _

theorem Applies.float (hd : ∀ a : Assembler, a.apply d = a.instruction i) (he : i.stackEffect? = some ⟨1, 1⟩)
    (hexec : ∀ stop S, i.execute E.context stop S = (S.mapFloat E.context.limit g).map fun s => .next s stop)
    (x : Float) : E.Applies d span (S.push (.float x)) (pure (S.push (g x))) := by
  intro a _
  rw [hd]
  exact Runs.push he rfl fun stop => hexec stop _

theorem Applies.bool (hd : ∀ a : Assembler, a.apply d = a.instruction i) (he : i.stackEffect? = some ⟨1, 1⟩)
    (hexec : ∀ stop S, i.execute E.context stop S = (S.mapBool E.context.limit l).map fun s => .next s stop)
    (b : Bool) : E.Applies d span (S.push (.bool b)) (pure (S.push (l b))) := by
  intro a _
  rw [hd]
  exact Runs.push he rfl fun stop => hexec stop _

theorem Applies.ints (hd : ∀ a : Assembler, a.apply d = a.instruction i) (he : i.stackEffect? = some ⟨2, 1⟩)
    (hexec : ∀ stop S, i.execute E.context stop S = (S.mapInts E.context.limit f₂).map fun s => .next s stop)
    (m n : Int64) : E.Applies d span ((S.push (.int m)).push (.int n)) (pure (S.push (f₂ m n))) := by
  intro a _
  rw [hd]
  exact Runs.push he rfl fun stop => hexec stop _

theorem Applies.floats (hd : ∀ a : Assembler, a.apply d = a.instruction i) (he : i.stackEffect? = some ⟨2, 1⟩)
    (hexec : ∀ stop S, i.execute E.context stop S = (S.mapFloats E.context.limit g₂).map fun s => .next s stop)
    (x y : Float) : E.Applies d span ((S.push (.float x)).push (.float y)) (pure (S.push (g₂ x y))) := by
  intro a _
  rw [hd]
  exact Runs.push he rfl fun stop => hexec stop _

end Shape

/-! ### Single instructions -/

/-- The remainder of a division by zero fails. -/
theorem Applies.remainder (m n : Int64) : E.Applies (.emit .intRem) span ((S.push (.int m)).push (.int n))
    ((fun k => S.push (.int k)) <$> if n = 0 then raise .divideByZero span else pure (m % n)) := by
  intro a ha
  change E.Runs a (a.instruction ⟨.intRem, ()⟩) _ _
  by_cases hn : n = 0
  · subst hn ha
    exact Runs.raise rfl fun stop => rfl
  · rw [if_neg hn, map_pure]
    refine Runs.push rfl rfl fun stop => ?_
    change Except.map _ (if n = 0 then .error .divideByZero else S.checkedPush _ _) = _
    rw [if_neg hn]

theorem Applies.dup (x : Slot) : E.Applies (.emit .dup) span (S.push x) (pure ((S.push x).push x)) := by
  intro a _
  change E.Runs a (a.instruction ⟨.dup, ()⟩) _ _
  exact Runs.push rfl rfl fun stop => rfl

theorem Applies.pop (x : Slot) : E.Applies (.emit .pop) span (S.push x) (pure S) := by
  intro a _
  change E.Runs a (a.instruction ⟨.pop, ()⟩) _ _
  exact Runs.next rfl rfl fun stop => rfl

/-- Unboxing fails for a value that is no integer. -/
theorem Applies.unboxInt (v : Value) : E.Applies (.emit .unboxInt) span (S.push (.ref v))
    ((fun n => S.push (.int n)) <$> match v with
      | .int n => pure n
      | v => raise (.type (.notInt v.kind)) span) := by
  intro a ha
  change E.Runs a (a.instruction ⟨.unboxInt, ()⟩) _ _
  subst ha
  cases v with
  | int n =>
    rw [map_pure]
    exact Runs.push rfl rfl fun stop => rfl
  | _ => exact Runs.raise rfl fun stop => rfl

/-- Unboxing fails for a value that is no number. -/
theorem Applies.unboxFloat (v : Value) : E.Applies (.emit .unboxFloat) span (S.push (.ref v))
    ((fun x => S.push (.float x)) <$> match v.number? with
      | some x => pure x
      | none => raise (.type (.notNumber v.kind)) span) := by
  intro a ha
  change E.Runs a (a.instruction ⟨.unboxFloat, ()⟩) _ _
  subst ha
  cases v with
  | int n =>
    simp only [Value.number?]
    rw [map_pure]
    exact Runs.push rfl rfl fun stop => rfl
  | float x =>
    simp only [Value.number?]
    rw [map_pure]
    exact Runs.push rfl rfl fun stop => rfl
  | _ => exact Runs.raise rfl fun stop => rfl

theorem Applies.listAppend (elements : Array Value) (x : Slot) :
    E.Applies (.emit .listAppend) span ((S.push (.ref (.list elements))).push x)
      (pure (S.push (.ref (.list (elements.push x.value))))) := by
  intro a _
  change E.Runs a (a.instruction ⟨.listAppend, ()⟩) _ _
  exact Runs.next rfl rfl fun stop => rfl

theorem Applies.mapPut (entries : OrderedMap Value) (k : String) (x : Slot) :
    E.Applies (.emit .mapPut) span (((S.push (.ref (.map entries))).push (.ref (.string k))).push x)
      (pure (S.push (.ref (.map (entries.insert k x.value))))) := by
  intro a _
  change E.Runs a (a.instruction ⟨.mapPut, ()⟩) _ _
  refine Runs.next rfl rfl fun stop => ?_
  have htext : (Value.string k).text = k := by rw [Value.text]
  have hexec : (Instruction.mk .mapPut ()).execute E.context stop
      (((S.push (.ref (.map entries))).push (.ref (.string k))).push x) =
      .ok (.next (S.push (.ref (.map (entries.insert (Value.string k).text x.value)))) stop) := rfl
  rw [hexec, htext]

/-! ### The runtime library -/

/-- A runtime function fails at the span of its call. -/
private theorem runs_invoke {a : Assembler} {f : RuntimeFunction} {vs : List Value} {T : Stack}
    (hpop : T.popValues f.arity = .ok (vs, S)) (hvs : vs.length = f.arity) (hheight : T.height = S.height + f.arity) :
    E.Runs a (a.instruction ⟨.invoke, f.code⟩) T ((fun v => S.push (f.resultSlot v)) <$> lift (f.apply vs) a.span) := by
  have heffect : (Instruction.mk .invoke f.code).stackEffect? = some ⟨f.arity, 1⟩ := by
    change (RuntimeFunction.ofCode? f.code).map _ = _
    rw [RuntimeFunction.ofCode?_code]
    rfl
  have hexec : ∀ stop, (Instruction.mk .invoke f.code).execute E.context stop T =
      (f.apply vs >>= fun v => S.checkedPush E.context.limit (f.resultSlot v)).map fun s => .next s stop := by
    intro stop
    change (T.invoke E.context.limit f.code).map _ = _
    simp only [Stack.invoke, RuntimeFunction.ofCode?_code, hpop]
    rfl
  cases hv : f.apply vs with
  | error g =>
    obtain ⟨cause, rfl⟩ := RuntimeFunction.apply_error hvs hv
    refine Runs.raise rfl fun stop => ?_
    rw [hexec, hv]
    rfl
  | ok v =>
    simp only [lift]
    rw [map_pure]
    refine Runs.push heffect (by simp only; omega) fun stop => ?_
    rw [hexec, hv]
    rfl

theorem Applies.invoke₁ {f : RuntimeFunction} (hf : f.arity = 1) (x : Slot) : E.Applies (.invoke f) span (S.push x)
    ((fun v => S.push (f.resultSlot v)) <$> lift (f.apply [x.value]) span) := by
  intro a ha
  subst ha
  refine runs_invoke ?_ hf.symm (by rw [hf, Stack.height_push])
  rw [hf]
  exact Stack.popValues_of_slots (show (S.push x).slots = [x].reverse ++ S.slots from rfl)

theorem Applies.invoke₂ {f : RuntimeFunction} (hf : f.arity = 2) (x y : Slot) :
    E.Applies (.invoke f) span ((S.push x).push y)
      ((fun v => S.push (f.resultSlot v)) <$> lift (f.apply [x.value, y.value]) span) := by
  intro a ha
  subst ha
  refine runs_invoke ?_ hf.symm (by rw [hf, Stack.height_push, Stack.height_push])
  rw [hf]
  exact Stack.popValues_of_slots (show ((S.push x).push y).slots = [x, y].reverse ++ S.slots from rfl)

/-! ### Constants and names -/

/-- An instruction that names a constant finds it. -/
private theorem runs_constant {a : Assembler} {v : Value} {i : UInt16 → Instruction} {m : Evaluation σ Stack}
    (h : ∀ index, E.context.bytecode.constants[index.toNat]? = some v → ∀ b : Assembler, b.span = a.span →
      E.Runs b (b.instruction (i index)) S m) :
    E.Runs a ((a.addConstant v).1.instruction (i (a.addConstant v).2)) S m := by
  refine Runs.of_last fun hb => Runs.of_constant (v := v) ?_
  have hconstant := E.closes.constant_addConstant ((precedes_instruction _ _).trans hb)
  rw [← E.bytecode_eq] at hconstant
  exact h _ hconstant _ (keeps_addConstant a v).span

theorem Applies.pushInt (n : Int64) : E.Applies (.pushInt n) span S (pure (S.push (.int n))) := by
  intro a _
  refine runs_constant (v := .int n) (i := fun index => ⟨.constInt, index⟩) fun index hindex b _ => ?_
  refine Runs.push rfl rfl fun stop => ?_
  obtain ⟨k, hk, h⟩ := Bytecode.intAt_of_accepts hindex rfl
  cases hk
  change Except.map _ (E.context.bytecode.intAt index >>= fun n => _) = _
  rw [h]
  rfl

theorem Applies.pushFloat (x : Float) : E.Applies (.pushFloat x) span S (pure (S.push (.float x))) := by
  intro a _
  refine runs_constant (v := .float x) (i := fun index => ⟨.constFloat, index⟩) fun index hindex b _ => ?_
  refine Runs.push rfl rfl fun stop => ?_
  obtain ⟨k, hk, h⟩ := Bytecode.floatAt_of_accepts hindex rfl
  cases hk
  change Except.map _ (E.context.bytecode.floatAt index >>= fun n => _) = _
  rw [h]
  rfl

theorem Applies.pushConstant (v : Value) : E.Applies (.pushConstant v) span S (pure (S.push (.ref v))) := by
  intro a _
  refine runs_constant (v := v) (i := fun index => ⟨.constant, index⟩) fun index hindex b _ => ?_
  refine Runs.push rfl rfl fun stop => ?_
  change Except.map _ (E.context.bytecode.constantAt index >>= fun n => _) = _
  simp only [Bytecode.constantAt, hindex]
  rfl

theorem Applies.getGlobal (name : String) : E.Applies (.getGlobal name) span S
    ((fun v => S.push (.ref v)) <$> E.scope.global name span) := by
  intro a ha
  subst ha
  refine runs_constant (v := .string name) (i := fun index => ⟨.getGlobal, index⟩) fun index hindex b hb => ?_
  obtain ⟨k, hk, h⟩ := Bytecode.nameAt_of_accepts hindex rfl
  cases hk
  have hexec : ∀ stop, (Instruction.mk .getGlobal index).execute E.context stop S =
      Except.map (fun s => .next s stop) ((E.context.globals.get? name).elim (.error (.undefinedVariable name))
        fun v => S.checkedPush E.context.limit (.ref v)) := by
    intro stop
    change Except.map _ (E.context.bytecode.nameAt index >>= fun name => _) = _
    rw [h]
    dsimp only [bind, Except.bind]
    cases E.context.globals.get? name <;> rfl
  rw [← hb]
  simp only [Scope.global, scope]
  cases hv : E.context.globals.get? name with
  | none =>
    simp only [hv] at hexec
    exact Runs.raise rfl hexec
  | some v =>
    simp only [hv] at hexec
    dsimp only
    rw [map_pure]
    exact Runs.push rfl rfl hexec

/-- A native function is called on the values that were pushed. -/
theorem Applies.callNative (name : String) {vs : List Value} (hvs : vs.length < 256) :
    E.Applies (.callNative name vs.length) span (S.pushAll vs)
      ((fun v => S.push (.ref v)) <$> E.scope.call name vs span) := by
  intro a ha
  subst ha
  have happly : a.apply (.callNative name vs.length) = (a.addConstant (.string name)).1.instruction
      ⟨.callNative, (a.addConstant (.string name)).2, UInt8.ofNat vs.length⟩ := by
    change a.callNative name vs.length = _
    simp only [Assembler.callNative, if_pos hvs]
  rw [happly]
  refine runs_constant (v := .string name) (i := fun index => ⟨.callNative, index, UInt8.ofNat vs.length⟩)
    fun index hindex b hb => ?_
  obtain ⟨k, hk, h⟩ := Bytecode.nameAt_of_accepts hindex rfl
  cases hk
  -- the count fits into its byte
  have hcount : (UInt8.ofNat vs.length).toNat = vs.length := by
    rw [UInt8.toNat_ofNat']
    exact Nat.mod_eq_of_lt hvs
  rw [← hb]
  refine Runs.call rfl ?_ fun stop => ?_
  · simp only [hcount, Stack.height_pushAll]
    omega
  · change (E.context.bytecode.nameAt index >>= fun name =>
      (S.pushAll vs).popValues (UInt8.ofNat vs.length).toNat >>= fun p => Except.ok (Action.call name p.1 p.2 stop)) = _
    rw [h, hcount, Stack.popValues_pushAll]
    rfl

end Setting

end TemplateExpr
