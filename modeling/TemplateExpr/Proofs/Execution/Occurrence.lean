import TemplateExpr.Proofs.Execution.Emitter

/-!
# Emitters inside others

An emitter that is assembled has a place for each emitter inside it (`Emitter.Occurs`). In a finished program all these
places are reachable, and a run that enters one and leaves it has added one slot to its stack, of the kind that the
emitter there promises (`Setting.Regular.slot_of_left`). Which of its branches the run has taken makes no difference.
-/

namespace TemplateExpr

/-- What a representation promises of a slot. -/
def Representation.Holds : Representation → Slot → Prop
  | exact .int, x => ∃ n, x = .int n
  | exact .float, x => ∃ y, x = .float y
  | exact .bool, x => ∃ b, x = .bool b
  | exact k, x => ∃ v, x = .ref v ∧ v.kind = k
  | boxed, x => ∃ v, x = .ref v

theorem Representation.holds_slot (r : Representation) (content : r.Content) : r.Holds (r.slot content) := by
  cases r with
  | boxed => exact ⟨_, rfl⟩
  | exact k =>
    cases k with
    | int => exact ⟨_, rfl⟩
    | float => exact ⟨_, rfl⟩
    | bool => exact ⟨_, rfl⟩
    | _ => exact ⟨_, rfl, rfl⟩

namespace Emitter

open Assembler

/-- `y` is assembled on `b` when another emitter, of which it is a part, is assembled on an assembler. -/
inductive Occurs (y : Emitter) (b : Assembler) : Emitter → Assembler → Prop
  | here : Occurs y b y b
  | inside {x z : Emitter} {a : Assembler} {before after : List (Step Emitter)}
    (hbody : x.body = before ++ .sub z :: after)
    (h : Occurs y b z (assembleSteps a.labels.size before { a.newLabels x.labels with span := x.span })) :
    Occurs y b x a

theorem assembleSteps_append (base : Nat) (before after : List (Step Emitter)) (a : Assembler) :
    assembleSteps base (before ++ after) a = assembleSteps base after (assembleSteps base before a) := by
  induction before generalizing a with
  | nil => rw [assembleSteps, List.nil_append]
  | cons step before ih =>
    cases step with
    | directive d => simp only [List.cons_append, assembleSteps, ih]
    | sub y => simp only [List.cons_append, assembleSteps, ih]

/-- An emitter with its steps up to one of those inside. -/
private theorem precedes_inside {x z : Emitter} {before after : List (Step Emitter)}
    (hbody : x.body = before ++ .sub z :: after) (a : Assembler) :
    (z.assemble (assembleSteps a.labels.size before { a.newLabels x.labels with span := x.span })).Precedes
      (x.assemble a) := by
  obtain ⟨r, t, c, span, labels, body⟩ := x
  subst hbody
  rw [assemble, assembleSteps_append, assembleSteps]
  exact (precedes_assembleSteps after _ _).trans (.of_eq rfl rfl rfl id (Nat.le_refl _))

end Emitter

namespace Setting

open Assembler Emitter Evaluation

variable {σ : Type} {E : Setting σ} {x y z : Emitter} {a b : Assembler}

/-! ### Reachability -/

/-- An emitter leads on to what comes after it. -/
theorem Regular.reachable (h : E.Regular x) (hr : a.reachable = true) (herrors : (x.assemble a).errors = #[]) :
    (x.assemble a).reachable = true := by
  induction h generalizing a with
  | @intro x m quiet hfalls subs runs ih =>
    obtain ⟨r, t, c, span, labels, body⟩ := x
    rw [assemble] at herrors ⊢
    refine reachable_assembleSteps hfalls (fun y hy a hr herrors => ih y hy hr herrors) hr ?_ herrors
    simp [newLabels]

/-- Where an emitter inside begins, the code can be reached. -/
private theorem Regular.begins_inside {before after : List (Step Emitter)} (h : E.Regular x)
    (hbody : x.body = before ++ .sub z :: after) (ha : Begins a) (hlast : (x.assemble a).Precedes E.last) :
    Begins (assembleSteps a.labels.size before { a.newLabels x.labels with span := x.span }) := by
  cases h with
  | intro m quiet hfalls subs runs =>
    have hbegin : a.Precedes { a.newLabels x.labels with span := x.span } :=
      (precedes_newLabels a x.labels).trans (.of_eq rfl rfl rfl id (Nat.le_refl _))
    have hprecedes := precedes_assembleSteps before { a.newLabels x.labels with span := x.span } a.labels.size
    have herrors := E.closes.errors_of_precedes
      ((z.precedes_assemble _).trans ((precedes_inside hbody a).trans hlast))
    refine ⟨ha.begun.trans (hbegin.trans hprecedes), ?_⟩
    rw [hbody] at hfalls
    refine reachable_assembleSteps (falls_before hfalls) ?_ ha.reachable ?_ herrors
    · intro y hy a hr herrors
      refine (subs y ?_).reachable hr herrors
      rw [hbody]
      exact List.mem_append_left _ hy
    · simp [newLabels]

/-- What is known of an emitter in a finished program is known of all emitters inside. -/
theorem Regular.of_occurs (h : E.Regular x) (hy : y.Occurs b x a) (ha : Begins a)
    (hlast : (x.assemble a).Precedes E.last) : E.Regular y ∧ Begins b ∧ (y.assemble b).Precedes E.last := by
  induction hy with
  | here => exact ⟨h, ha, hlast⟩
  | @inside x z a before after hbody _ ih =>
    refine ih ?_ (h.begins_inside hbody ha hlast) ((precedes_inside hbody a).trans hlast)
    cases h with
    | intro m quiet hfalls subs runs =>
      refine subs z ?_
      rw [hbody]
      exact List.mem_append_right _ List.mem_cons_self

/-! ### Completion -/

/-- A run that enters the code of an emitter and leaves it does so at its end, with one slot more. -/
theorem Leaves.slot_of_left {r : Representation} {m : Evaluation σ r.Content} (h : E.Leaves x r m) (ha : Begins a)
    (hlast : (x.assemble a).Precedes E.last) {s t : State σ} (hs : s.ip = a.offset)
    (hsteps : E.context.StepsIn E.natives a.offset (x.assemble a).offset s t)
    (hleft : ¬ (a.offset ≤ t.ip ∧ t.ip < (x.assemble a).offset)) :
    t.ip = (x.assemble a).offset ∧ ∃ slot, t.stack = s.stack.push slot ∧ r.Holds slot := by
  have hout := h.runs a s.stack ha hlast ⟨s.host, s.calls, #[]⟩ s ⟨rfl, hs, rfl, rfl⟩
  rcases hm : m ⟨s.host, s.calls, #[]⟩ with ⟨e | v, w⟩
  · rw [map_error hm] at hout
    obtain ⟨_, _, hfalse⟩ | ⟨u, result, last, hu, hin, hdone, -⟩ := hout
    · exact hfalse.elim
    · exact absurd (hu.in_of_done hin hdone hsteps) hleft
  · rw [map_ok hm] at hout
    obtain ⟨u, hu, hat⟩ | ⟨u, result, last, hu, hin, hdone, -⟩ := hout.2.2
    · have hend : ¬ (a.offset ≤ u.ip ∧ u.ip < (x.assemble a).offset) := by
        rw [hat.ip]
        omega
      obtain rfl := hu.eq_of_left hend hsteps hleft
      exact ⟨hat.ip, r.slot v, hat.stack, r.holds_slot v⟩
    · exact absurd (hu.in_of_done hin hdone hsteps) hleft

end Setting

end TemplateExpr
