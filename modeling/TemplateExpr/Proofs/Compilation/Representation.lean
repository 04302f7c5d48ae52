import TemplateExpr.Proofs.Compilation.Correct
import TemplateExpr.Proofs.Execution.Occurrence

/-!
# Representations can be relied upon

Whatever types an expression declares,

* (parts) the code of every emitter inside the program leaves the stack as it was with one slot more, of the kind that
  the emitter promises, whenever a run completes it;
* (whole) with room for its stack the program ends with a value of the kind that it promises, with a fault of the
  expression's own or with an error that a native function has returned.

The main result `ExprRoot.representations_sound` has both.
-/

namespace TemplateExpr

open Evaluation Assembler

/-! ### Parts -/

namespace Emitter

/-- The code of a part of an emitter, or of a compiled expression that counts as boxed there. -/
def IsPart (y : Emitter) (b : Assembler) (x : Emitter) (a : Assembler) : Prop :=
  y.Occurs b x a ∨ (∃ e : Expr, e.compile .global = .ok y) ∧ Occurs { y with representation := .boxed } b x a

end Emitter

namespace Setting

variable {σ : Type} {E : Setting σ} {x y : Emitter} {a b : Assembler}

/-- A part of a finished program leaves what it promises, where it stands. -/
theorem Regular.leaves_of_isPart (h : E.Regular x) (hy : y.IsPart b x a) (ha : Begins a)
    (hlast : (x.assemble a).Precedes E.last) :
    (∃ m, E.Leaves y y.representation m) ∧ Begins b ∧ (y.assemble b).Precedes E.last := by
  obtain hy | ⟨⟨e, he⟩, hy⟩ := hy
  · obtain ⟨hregular, hplace⟩ := h.of_occurs hy ha hlast
    exact ⟨hregular.leaves, hplace⟩
  · obtain ⟨-, hbegins, hprecedes⟩ := h.of_occurs hy ha hlast
    rw [Emitter.assemble_retag] at hprecedes
    have hcomputes : E.Computes y _ := computes_of_compile he
    exact ⟨hcomputes.regular.leaves, hbegins, hprecedes⟩

/-- The value that a run gives is of the kind that the emitter promises. -/
theorem Computes.kind_eq {o : Operand σ} (h : E.Computes x o) {w w' : World σ} {v : Value}
    (hv : o.value w = (.ok v, w')) {k : Kind} (hk : x.representation = .exact k) : v.kind = k := by
  obtain ⟨r, m, hvalue, hx⟩ := h.leaves
  obtain rfl : r = .exact k := hx.representation.symm.trans hk
  rw [hvalue] at hv
  rcases hm : m w with ⟨e | content, w''⟩
  · rw [map_error hm] at hv
    cases hv
  · rw [map_ok hm] at hv
    cases hv
    exact k.kind_value content

end Setting

/-! ### The whole -/

/-- What a run may end with: a value as promised, a fault of the expression's own, or an error that a native function
has returned in the last step. -/
def Representation.Permits {σ : Type} (r : Representation) (natives : String → Option (Native σ)) (t last : State σ) :
    Except RuntimeError Value → Prop
  | .ok v => ∀ k, r = .exact k → v.kind = k
  | .error e => e.fault.isOwn = true ∨ Context.NativeError natives t last e

theorem Setting.Finishes.permits {σ : Type} {E : Setting σ} {x : Emitter} {o : Operand σ} {a : Assembler}
    {t last : State σ} {result : Except RuntimeError Value} {w : World σ}
    (h : E.Finishes a t result last (o.value w)) (hx : E.Computes x o) :
    x.representation.Permits E.natives t last result := by
  rcases hvalue : o.value w with ⟨e | v, w'⟩
  · rw [hvalue] at h
    cases e with
    | raised f span =>
      obtain ⟨⟨hown, found, rfl, -⟩, -⟩ := h
      exact .inl hown
    | native e =>
      obtain ⟨⟨rfl, hnative⟩, -⟩ := h
      exact .inr hnative
  · rw [hvalue] at h
    obtain ⟨rfl, -⟩ := h
    exact fun k hk => hx.kind_eq hvalue hk

namespace ExprRoot

variable {σ : Type} {root : ExprRoot} {options : CompileOptions} {p : Program}

/-- The parts of a program leave the slots that they promise, and with room for its stack the program ends with the
value that it promises or with an error that it may end with. -/
theorem representations_sound (h : root.compile .global options = .ok p) (globals : OrderedMap Value)
    (natives : String → Option (Native σ)) (limit : Nat) :
    (∃ x, root.expr.compile .global = .ok x ∧ p.bytecode = (x.assemble options.assembler).close.bytecode ∧
      ∀ (y : Emitter) (b : Assembler), y.IsPart b x options.assembler → ∀ s t : State σ, s.ip = b.offset →
        (Context.mk p.bytecode globals limit).StepsIn natives b.offset (y.assemble b).offset s t →
        ¬ (b.offset ≤ t.ip ∧ t.ip < (y.assemble b).offset) →
        t.ip = (y.assemble b).offset ∧ ∃ slot, t.stack = s.stack.push slot ∧ y.representation.Holds slot) ∧
    (p.maxStackDepth ≤ limit → ∀ host : σ, ∃ t result last,
      (Context.mk p.bytecode globals limit).Steps natives (.initial host) t ∧
        (Context.mk p.bytecode globals limit).step natives t = .done result last ∧
        (∃ n, ∀ fuel, n ≤ fuel →
          (Context.mk p.bytecode globals limit).run? natives fuel host = some (result, last)) ∧
        p.representation.Permits natives t last result) := by
  obtain ⟨x, hx, hp⟩ := makes_of_compile h
  have hcomputes : (Setting.ofProgram hp globals limit natives).Computes x _ := Setting.computes_of_compile hx
  refine ⟨⟨x, hx, hp.bytecode, fun y b hy s t hs hsteps hleft => ?_⟩, fun hlimit host => ?_⟩
  · obtain ⟨⟨m, hleaves⟩, hbegins, hprecedes⟩ := hcomputes.regular.leaves_of_isPart hy
      ⟨Emitter.precedes_assembler options, rfl⟩ (.refl _)
    exact hleaves.slot_of_left hbegins hprecedes hs hsteps hleft
  · obtain ⟨t, result, last, ht, hdone, hfinishes | ⟨-, hlt⟩⟩ := hcomputes.ends rfl host
    · refine ⟨t, result, last, ht, hdone, Context.Ends.runFrom? ⟨t, ht, hdone⟩, ?_⟩
      rw [hp.representation]
      exact hfinishes.permits hcomputes
    · exact absurd (hp.maxStackDepth ▸ hlimit) (Nat.not_le.2 hlt)

/-- A native function that always answers with a text. -/
def greeting (_ : String) : Option (Native Unit) := some fun _ s => (.ok (.string "hello"), s)

/-- The first call leaves its text above the number with which it is compared, as a reference as its code promises. The
comparison is a fault of the expression's own. -/
theorem representations_sound_greeting :
    ∃ p, twoVisits.compile .global {} = .ok p ∧ p.maxStackDepth ≤ 8 ∧
      (∃ x y b, twoVisits.expr.compile .global = .ok x ∧
        (Expr.call "visits" [] .unknown ⟨0, 8⟩).compile .global = .ok y ∧
        Emitter.IsPart y b x (CompileOptions.assembler {}) ∧ ∃ s t : State Unit, s.ip = b.offset ∧
          s.stack = Stack.empty.push (.ref (.int 0)) ∧
          (Context.mk p.bytecode .empty 8).StepsIn greeting b.offset (y.assemble b).offset s t ∧
          t.ip = (y.assemble b).offset ∧ ∃ slot, t.stack = s.stack.push slot ∧ y.representation.Holds slot) ∧
      ∃ t result last, (Context.mk p.bytecode .empty 8).Steps greeting (.initial ()) t ∧
        (Context.mk p.bytecode .empty 8).step greeting t = .done result last ∧
        (∃ n, ∀ fuel, n ≤ fuel → (Context.mk p.bytecode .empty 8).run? greeting fuel () = some (result, last)) ∧
        p.representation.Permits greeting t last result := by
  let s : State Unit := ⟨Stack.empty.push (.ref (.int 0)), 4, 0, (), #[]⟩
  let t : State Unit := ⟨s.stack.push (.ref (.string "hello")), 8, 4, (), #[⟨"visits", []⟩]⟩
  obtain ⟨p, hp, hrun⟩ : ∃ p, twoVisits.compile .global {} = .ok p ∧
      (p.maxStackDepth, (Context.mk p.bytecode .empty 8).step greeting s) = (2, .running t) :=
    exists_of_map (by cbv)
  obtain ⟨hdepth, hstep⟩ := Prod.mk.inj hrun
  have hlimit : p.maxStackDepth ≤ 8 := by omega
  obtain ⟨⟨x, hx, -, hparts⟩, hwhole⟩ := representations_sound hp .empty greeting 8
  obtain ⟨y, b, hy, hpart, hbegin, hend⟩ : ∃ y b, (Expr.call "visits" [] .unknown ⟨0, 8⟩).compile .global = .ok y ∧
      y.IsPart b x (CompileOptions.assembler {}) ∧ s.ip = b.offset ∧ t.ip = (y.assemble b).offset := by
    cases hx.symm.trans (show twoVisits.expr.compile .global = .ok _ by cbv)
    -- the call is the second part of the condition, which is the first part of the whole
    exact ⟨_, _, by cbv, .inl (@Emitter.Occurs.inside _ _ _ _ _ [] _ rfl
      (@Emitter.Occurs.inside _ _ _ _ _ [_] _ rfl .here)), by cbv, by cbv⟩
  have hsteps : (Context.mk p.bytecode .empty 8).StepsIn greeting b.offset (y.assemble b).offset s t :=
    .head ⟨Nat.le_of_eq hbegin.symm, hend ▸ (by decide : s.ip < t.ip)⟩ hstep (.refl t)
  exact ⟨p, hp, hlimit, ⟨x, y, b, hx, hy, hpart, s, t, hbegin, rfl, hsteps,
    hparts y b hpart s t hbegin hsteps (by omega)⟩, hwhole hlimit ()⟩

end ExprRoot

end TemplateExpr
