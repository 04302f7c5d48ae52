import TemplateExpr.Proofs.Erasure.Dynamic

/-!
# Evaluations and what they denote

An evaluation denotes an optional value if it succeeds exactly when there is one, with a result that stands in a given
relation to it (`Evaluation.Denotes`). This may depend on the declared types, so it is only asked for if in the end all
that was declared can be relied upon. Then all that was declared on the way can be too, since the record only grows;
that is the other half of the notion, and what makes the rule for sequences go through (`Denotes.bind`).

An operand that denotes a value has conversions that denote views of it, and more is known of these if the static type
of the operand is.
-/

namespace TemplateExpr

/-- Whether a value is of the kind that is known. Only integers, floats and strings are relied upon. -/
def StaticType.Fits : StaticType → Value → Prop
  | known .int, v => v.kind = .int
  | known .float, v => v.kind = .float
  | known .string, v => v.kind = .string
  | _, _ => True

theorem StaticType.Fits.number? {t : StaticType} {v : Value} (h : t.Fits v) (ht : t.isNumber = true) :
    ∃ x, v.number? = some x := by
  cases t with
  | unknown => cases ht
  | known k =>
    cases k with
    | int =>
      cases v with
      | int n => exact ⟨_, rfl⟩
      | _ => cases h
    | float =>
      cases v with
      | float x => exact ⟨x, rfl⟩
      | _ => cases h
    | _ => cases ht

/-- Everything that was declared satisfies a relation between types and values. -/
def World.Honest {σ : Type} (D : StaticType → Value → Prop) (w : World σ) : Prop := ∀ p ∈ w.declared, D p.1 p.2

namespace Evaluation

variable {σ α β γ α' β' γ' : Type} {D : StaticType → Value → Prop}

/-- What is honest after an evaluation was so before it. -/
def Grows (D : StaticType → Value → Prop) (m : Evaluation σ β) : Prop := ∀ w, (m w).2.Honest D → w.Honest D

/-- An evaluation succeeds exactly if there is a value, and its result is related to it. -/
structure Denotes (D : StaticType → Value → Prop) (m : Evaluation σ β) (r : Option α) (V : α → β → Prop) : Prop where
  grows : m.Grows D
  gives : ∀ w, (m w).2.Honest D → Option.Rel V r (m w).1.toOption

/-! ### Growth -/

theorem Grows.pure (b : β) : Grows D (pure b : Evaluation σ β) := fun _ h => h

theorem Grows.raise (f : Fault) (span : Span) : Grows D (raise f span : Evaluation σ β) := fun _ h => h

theorem Grows.lift (r : Except Fault β) (span : Span) : Grows D (lift r span : Evaluation σ β) := by
  cases r with
  | error f => exact .raise f span
  | ok b => exact .pure b

theorem Grows.declare (t : StaticType) (v : Value) : Grows D (declare t v : Evaluation σ Value) :=
  fun _ h p hp => h p (Array.mem_push_of_mem _ hp)

theorem Grows.bind {m : Evaluation σ β} {k : β → Evaluation σ γ} (h : m.Grows D) (hk : ∀ b, (k b).Grows D) :
    (m >>= k).Grows D := by
  intro w hw
  rcases hm : m w with ⟨e | b, w'⟩
  · rw [bind_error hm] at hw
    exact h w (by rw [hm]; exact hw)
  · rw [bind_ok hm] at hw
    exact h w (by rw [hm]; exact hk b w' hw)

/-! ### Rules -/

namespace Denotes

variable {m : Evaluation σ β} {m' : Evaluation σ β'} {r : Option α} {r' : Option α'} {V : α → β → Prop}
  {V' : α' → β' → Prop}

theorem pure {a : α} {b : β} (h : V a b) : Denotes D (pure b : Evaluation σ β) (some a) V :=
  ⟨.pure b, fun _ _ => .some h⟩

theorem raise (f : Fault) (span : Span) : Denotes D (raise f span : Evaluation σ β) (none : Option α) V :=
  ⟨.raise f span, fun _ _ => .none⟩

theorem lift (x : Except Fault β) (span : Span) :
    Denotes D (lift x span : Evaluation σ β) x.toOption fun a b => b = a := by
  cases x with
  | error f => exact .raise f span
  | ok b => exact .pure rfl

theorem toOption_eq {m : Evaluation σ β} {r : Option β} (h : Denotes D m r fun a b => b = a) {w : World σ}
    (hw : (m w).2.Honest D) : (m w).1.toOption = r := by
  have hrel := h.gives w hw
  generalize (m w).1.toOption = x at hrel
  cases hrel with
  | some hab => rw [hab]
  | none => rfl

theorem mono {U : α → β → Prop} (h : Denotes D m r V) (hVU : ∀ a b, V a b → U a b) : Denotes D m r U := by
  refine ⟨h.grows, fun w hw => ?_⟩
  have hrel := h.gives w hw
  generalize (m w).1.toOption = x at hrel
  cases hrel with
  | some hab => exact .some (hVU _ _ hab)
  | none => exact .none

theorem bind {k : β → Evaluation σ γ} {f : α → Option α'} {U : α' → γ → Prop} (h : Denotes D m r V)
    (hgrows : ∀ b, (k b).Grows D) (hk : ∀ a b, V a b → Denotes D (k b) (f a) U) : Denotes D (m >>= k) (r.bind f) U := by
  refine ⟨h.grows.bind hgrows, fun w hw => ?_⟩
  rcases hm : m w with ⟨e | b, w'⟩
  · rw [bind_error hm] at hw ⊢
    have hrel := h.gives w (by rw [hm]; exact hw)
    rw [hm] at hrel
    cases hrel with
    | none => exact .none
  · rw [bind_ok hm] at hw ⊢
    -- what is honest in the end was honest in between
    have hrel := h.gives w (by rw [hm]; exact hgrows b w' hw)
    rw [hm] at hrel
    cases hrel with
    | some hab => exact (hk _ b hab).gives w' hw

theorem map {f : β → γ} {U : α → γ → Prop} (h : Denotes D m r V) (hf : ∀ a b, V a b → U a (f b)) :
    Denotes D (do return f (← m)) r U := by
  have hbind : Denotes D (do return f (← m)) (r.bind some) U :=
    h.bind (fun b => .pure (f b)) fun a b hab => .pure (hf a b hab)
  rwa [Option.bind_fun_some] at hbind

/-- Two evaluations, one after the other. -/
theorem both {k : β → β' → Evaluation σ γ} {f : α → α' → Option γ'} {U : γ' → γ → Prop} (h : Denotes D m r V)
    (h' : Denotes D m' r' V') (hgrows : ∀ b b', (k b b').Grows D)
    (hk : ∀ a b a' b', V a b → V' a' b' → Denotes D (k b b') (f a a') U) :
    Denotes D (do let b ← m; let b' ← m'; k b b') (r.bind fun a => r'.bind fun a' => f a a') U :=
  h.bind (fun b => h'.grows.bind (hgrows b)) fun a b hab => h'.bind (hgrows b) fun a' b' hab' => hk a b a' b' hab hab'

/-- Two evaluations whose results are taken together. -/
theorem combine {g : β → β' → γ} {f : α → α' → γ'} {U : γ' → γ → Prop} (h : Denotes D m r V) (h' : Denotes D m' r' V')
    (hk : ∀ a b a' b', V a b → V' a' b' → U (f a a') (g b b')) :
    Denotes D (do let b ← m; let b' ← m'; return g b b') (r.bind fun a => r'.bind fun a' => some (f a a')) U :=
  h.both h' (fun b b' => .pure (g b b')) fun a b a' b' hab hab' => .pure (hk a b a' b' hab hab')

/-- The order of two evaluations is not seen in the result. -/
theorem swapped {k : β → β' → Evaluation σ γ} {f : α → α' → Option γ'} {U : γ' → γ → Prop} (h : Denotes D m r V)
    (h' : Denotes D m' r' V') (hgrows : ∀ b b', (k b b').Grows D)
    (hk : ∀ a b a' b', V a b → V' a' b' → Denotes D (k b b') (f a a') U) :
    Denotes D (do let b' ← m'; let b ← m; k b b') (r.bind fun a => r'.bind fun a' => f a a') U := by
  have hboth := h'.both (k := fun b' b => k b b') (f := fun a' a => f a a') h (fun b' b => hgrows b b')
    fun a' b' a b hab' hab => hk a b a' b' hab hab'
  rwa [Option.bind_comm] at hboth

/-- A value that is declared can be relied upon if what is declared can. -/
theorem declared {m : Evaluation σ Value} {r : Option Value} {P : Value → Prop} {t : StaticType}
    (ht : ∀ v, D t v → t.Fits v) (h : Denotes D m r fun v u => u = v ∧ P v) :
    Denotes D (m >>= declare t) r fun v u => u = v ∧ P v ∧ t.Fits v := by
  have hbind : Denotes D (m >>= declare t) (r.bind some) fun v u => u = v ∧ P v ∧ t.Fits v := by
    refine h.bind (fun v => .declare t v) ?_
    rintro _ v ⟨rfl, hv⟩
    exact ⟨.declare t v, fun _ hw => .some ⟨rfl, hv, ht v (hw (t, v) Array.mem_push_self)⟩⟩
  rwa [Option.bind_fun_some] at hbind

theorem declared_same {m : Evaluation σ Value} {r : Option Value} {t : StaticType} (ht : ∀ v, D t v → t.Fits v)
    (h : Denotes D m r fun v u => u = v) : Denotes D (m >>= declare t) r fun v u => u = v ∧ t.Fits v := by
  have htrue : Denotes D m r fun v u => u = v ∧ True := h.mono fun _ _ hvu => ⟨hvu, trivial⟩
  exact (htrue.declared ht).mono fun _ _ hvu => ⟨hvu.1, hvu.2.2⟩

end Denotes

end Evaluation

/-! ### Operands -/

namespace Operand

open Evaluation

variable {σ : Type} {D : StaticType → Value → Prop} {o : Operand σ} {r : Option Value}

/-- An operand has this value, which is of the operand's static type. -/
def Denotes (D : StaticType → Value → Prop) (o : Operand σ) (r : Option Value) : Prop :=
  Evaluation.Denotes D o.value r fun v u => u = v ∧ o.type.Fits v

theorem Denotes.agrees (h : o.Denotes D r) : Evaluation.Denotes D o.value r fun v u => u = v ∧ o.type.Fits v := h

theorem Denotes.same (h : o.Denotes D r) : Evaluation.Denotes D o.value r fun v u => u = v :=
  h.agrees.mono fun _ _ hvu => hvu.1

theorem Denotes.int (h : o.Denotes D r) : Evaluation.Denotes D o.int (r.bind Value.int?) fun a b => b = a := by
  refine h.agrees.bind (fun v => ?_) ?_
  · cases v with
    | int n => exact .pure n
    | _ => exact .raise _ _
  · rintro _ v ⟨rfl, -⟩
    cases v with
    | int n => exact .pure rfl
    | _ => exact .raise _ _

theorem Denotes.float (h : o.Denotes D r) : Evaluation.Denotes D o.float (r.bind Value.number?) fun a b => b = a := by
  refine h.agrees.bind (fun v => ?_) ?_
  · cases v.number? with
    | some x => exact .pure x
    | none => exact .raise _ _
  · rintro _ v ⟨rfl, -⟩
    cases v.number? with
    | some x => exact .pure rfl
    | none => exact .raise _ _

theorem Denotes.truth (h : o.Denotes D r) : Evaluation.Denotes D o.truth r fun v b => b = v.isTruthy :=
  h.agrees.map fun v u hvu => by rw [hvu.1]

theorem Denotes.text (h : o.Denotes D r) : Evaluation.Denotes D o.text r fun v s => s = v.text ∧ o.type.Fits v :=
  h.agrees.map fun v u hvu => ⟨by rw [hvu.1], hvu.2⟩

/-! ### Conversions of operands whose type is known -/

theorem Denotes.knownInt (h : o.Denotes D r) (ht : o.type = .known .int) :
    Evaluation.Denotes D o.int r fun v n => v = .int n := by
  have hbind : Evaluation.Denotes D o.int (r.bind some) fun v n => v = .int n := by
    refine h.agrees.bind (fun v => ?_) ?_
    · cases v with
      | int n => exact .pure n
      | _ => exact .raise _ _
    · rintro _ v ⟨rfl, hfits⟩
      rw [ht] at hfits
      cases v with
      | int n => exact .pure rfl
      | _ => cases hfits
  rwa [Option.bind_fun_some] at hbind

theorem Denotes.knownNumber (h : o.Denotes D r) (ht : o.type.isNumber = true) :
    Evaluation.Denotes D o.float r fun v x => v.number? = some x ∧ o.type.Fits v := by
  have hbind : Evaluation.Denotes D o.float (r.bind some) fun v x => v.number? = some x ∧ o.type.Fits v := by
    refine h.agrees.bind (fun v => ?_) ?_
    · cases v.number? with
      | some x => exact .pure x
      | none => exact .raise _ _
    · rintro _ v ⟨rfl, hfits⟩
      obtain ⟨x, hx⟩ := hfits.number? ht
      rw [hx]
      exact .pure ⟨hx, hfits⟩
  rwa [Option.bind_fun_some] at hbind

theorem Denotes.knownString (h : o.Denotes D r) (ht : o.type = .known .string) :
    Evaluation.Denotes D o.text r fun v s => v = .string s := by
  refine h.text.mono ?_
  rintro v _ ⟨rfl, hfits⟩
  rw [ht] at hfits
  cases v with
  | string s => rw [Value.text]
  | _ => cases hfits

end Operand

end TemplateExpr
