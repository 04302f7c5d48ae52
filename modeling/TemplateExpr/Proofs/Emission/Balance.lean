import TemplateExpr.Proofs.Assembler.Orderly
import TemplateExpr.Proofs.Emission.Script

/-!
# Balanced emitters

An emitter is balanced if its own code, in which the emitters inside count as one push, keeps to the rules, leaves one
value and marks all labels, and the emitters inside are balanced (`Emitter.Balanced`). This can be seen from the code
alone. Wherever a balanced emitter is assembled, its script then keeps to the rules, leaves one value more, and does not
touch the labels that were there (`Emitter.Balanced.adds`).
-/

namespace TemplateExpr

namespace Outline

/-- The outline after the steps of an emitter, if they keep to the rules. -/
def steps? : Outline → List (Step Emitter) → Option Outline
  | o, [] => some o
  | o, .directive d :: steps => (o.step? d).bind fun o => o.steps? steps
  | o, .sub _ :: steps => if o.reachable then { o with height := o.height + 1 }.steps? steps else none

/-- The outline in which the steps of an emitter with a number of labels begin. -/
def begin (labels : Nat) : Outline := ⟨0, true, List.replicate labels (false, none)⟩

end Outline

namespace Emitter

open Assembler

inductive Balanced : Emitter → Prop
  | intro {x : Emitter} (labels : List LabelOutline)
    (hsteps : (Outline.begin x.labels).steps? x.body = some ⟨1, true, labels⟩)
    (hlabels : ∀ p ∈ labels, p.1 = true) (hmakes : Step.directive .newLabel ∉ x.body)
    (hsubs : ∀ y, Step.sub y ∈ x.body → Balanced y) : Balanced x

/-- What the script of a balanced emitter does to an outline. -/
def Adds (x : Emitter) (a : Assembler) : Prop :=
  ∃ more, a.outline.run? (x.script a) = some ⟨a.outline.height + 1, true, a.outline.labels ++ more⟩ ∧
    ∀ p ∈ more, p.1 = true

private theorem run?_scriptSteps {steps : List (Step Emitter)} {a : Assembler} {o o' : Outline} {height n : Nat}
    {before after : List LabelOutline} (h : o.steps? steps = some o') (hmakes : Step.directive .newLabel ∉ steps)
    (hsubs : ∀ y, Step.sub y ∈ steps → ∀ (b : Assembler) (m : Nat), b.outline.reachable = true → b.Clean m → y.Adds b)
    (ha : a.outline = o.inside height before after) (hclean : a.Clean n) :
    ∃ more, a.outline.run? (scriptSteps before.length steps a) = some (o'.inside height before (after ++ more)) ∧
      ∀ p ∈ more, p.1 = true := by
  induction steps generalizing a o n after with
  | nil =>
    cases h
    refine ⟨[], ?_, nofun⟩
    rw [scriptSteps, Outline.run?_nil, ha, List.append_nil]
  | cons step steps ih =>
    have hmakes' : Step.directive .newLabel ∉ steps := fun hmem => hmakes (List.mem_cons_of_mem _ hmem)
    have hsubs' := fun y hy => hsubs y (List.mem_cons_of_mem _ hy)
    cases step with
    | directive d =>
      obtain ⟨o₁, hd, hsteps⟩ := Option.bind_eq_some_iff.1 h
      have hlabel : d ≠ .newLabel := by
        rintro rfl
        exact hmakes List.mem_cons_self
      have hstep := (Outline.allows_of_step? hd).inside height before after hlabel
      rw [← ha] at hstep
      obtain ⟨houtline, hclean'⟩ := follows hstep hclean
      obtain ⟨more, hrun, hmore⟩ := ih hsteps hmakes' hsubs' houtline hclean'
      refine ⟨more, ?_, hmore⟩
      rw [scriptSteps, Outline.run?_cons, hstep.step?_eq, ← houtline]
      exact hrun
    | sub y =>
      rw [Outline.steps?] at h
      split at h
      · rename_i hr
        have hreachable : a.outline.reachable = true := by
          rw [ha]
          exact hr
        obtain ⟨new, hy, hnew⟩ := hsubs y List.mem_cons_self a n hreachable hclean
        -- the new labels come after all others
        have houtline : (⟨a.outline.height + 1, true, a.outline.labels ++ new⟩ : Outline) =
            Outline.inside { o with height := o.height + 1 } height before (after ++ new) := by
          rw [ha]
          simp [Outline.inside, hr, Nat.add_assoc]
        rw [houtline] at hy
        obtain ⟨houtline', hclean'⟩ := outline_run hy hclean
        rw [run_script] at houtline' hclean'
        obtain ⟨more, hrun, hmore⟩ := ih h hmakes' hsubs' houtline' hclean'
        refine ⟨new ++ more, ?_, fun p hp => ?_⟩
        · rw [scriptSteps, Outline.run?_append, hy, ← houtline', ← List.append_assoc]
          exact hrun
        · obtain hp | hp := List.mem_append.1 hp
          · exact hnew p hp
          · exact hmore p hp
      · cases h

private theorem run?_newLabels (o : Outline) (count : Nat) :
    o.run? (List.replicate count .newLabel) =
      some { o with labels := o.labels ++ List.replicate count (false, none) } := by
  induction count generalizing o with
  | zero => simp
  | succ count ih =>
    rw [List.replicate_succ, Outline.run?_cons]
    simp only [Outline.step?, Option.bind_some, ih]
    simp [List.replicate_succ]

theorem Balanced.adds {x : Emitter} (h : x.Balanced) {a : Assembler} {n : Nat} (hr : a.outline.reachable = true)
    (hclean : a.Clean n) : x.Adds a := by
  induction h generalizing a n with
  | @intro x labels hsteps hlabels hmakes _ ih =>
    obtain ⟨r, t, c, span, count, body⟩ := x
    have hnew := run?_newLabels a.outline count
    obtain ⟨houtline, hclean'⟩ := outline_run hnew hclean
    rw [run_newLabels] at houtline hclean'
    have hbegin : (⟨a.outline.height, a.outline.reachable, a.outline.labels ++ List.replicate count (false, none)⟩ :
        Outline) = (Outline.begin count).inside a.outline.height a.outline.labels [] := by
      rw [hr]
      simp [Outline.inside, Outline.begin]
    have hspan : Assembler.outline { a.newLabels count with span } = (a.newLabels count).outline := rfl
    obtain ⟨more, hrun, hmore⟩ := run?_scriptSteps hsteps hmakes
      (fun y hy b m hb hclean => ih y hy hb hclean) (hspan.trans (houtline.trans hbegin))
      (hclean'.of_eq rfl rfl rfl (Nat.le_refl _))
    have hsize : a.outline.labels.length = a.labels.size := by simp [outline]
    refine ⟨labels.map (fun p => (p.1, p.2.map (a.outline.height + ·))) ++ more, ?_, fun p hp => ?_⟩
    · rw [script, Outline.run?_append, hnew, Option.bind_some, Outline.run?_cons, Outline.step?, Option.bind_some,
        Outline.run?_append, ← houtline, ← hspan, ← hsize, hrun]
      simp [Outline.run?_cons, Outline.step?, Outline.inside]
    · obtain hp | hp := List.mem_append.1 hp
      · obtain ⟨q, hq, rfl⟩ := List.mem_map.1 hp
        exact hlabels q hq
      · exact hmore p hp

/-- The script of a balanced emitter is orderly, whether or not spans are recorded. -/
theorem Balanced.orderly {x : Emitter} (h : x.Balanced) (enabled : Bool) :
    Orderly (.setDebugInfo enabled :: x.script (new.apply (.setDebugInfo enabled))) := by
  obtain ⟨more, hrun, hmore⟩ := h.adds (a := new.apply (.setDebugInfo enabled)) rfl
    (clean_new.of_eq rfl rfl rfl (Nat.le_refl _))
  exact ⟨true, more, hrun, hmore⟩

/-! ### Emitters without labels -/

/-- A directive that emits an instruction with a given effect. -/
structure Performs (d : Directive) (e : StackEffect) : Prop where
  effect : d.effect? = some e
  jump : ∀ kind label, d ≠ .jump kind label
  halt : d ≠ .emit .halt

variable {x : Emitter} {d : Directive} {e : StackEffect} {steps : List (Step Emitter)} {n : Nat}

theorem steps?_directive (h : Performs d e) (hpops : e.pops ≤ n) :
    Outline.steps? ⟨n, true, []⟩ (.directive d :: steps) = Outline.steps? ⟨n - e.pops + e.pushes, true, []⟩ steps := by
  have hallows := Outline.Allows.instruction (o := ⟨n, true, []⟩) h.effect h.jump h.halt rfl hpops
  rw [Outline.steps?, hallows.step?_eq]
  rfl

theorem steps?_subs (ys : List Emitter) :
    Outline.steps? ⟨n, true, []⟩ (ys.map .sub ++ steps) = Outline.steps? ⟨n + ys.length, true, []⟩ steps := by
  induction ys generalizing n with
  | nil => rfl
  | cons y ys ih =>
    change Outline.steps? ⟨n + 1, true, []⟩ (ys.map .sub ++ steps) = _
    rw [ih, List.length_cons, Nat.add_right_comm, Nat.add_assoc]

/-- Emitters, then a directive that takes their values and leaves one. -/
theorem Balanced.of_subs {ys : List Emitter} (hlabels : x.labels = 0) (hbody : x.body = ys.map .sub ++ [.directive d])
    (hd : Performs d ⟨ys.length, 1⟩) (hys : ∀ y ∈ ys, y.Balanced) : x.Balanced := by
  refine .intro [] ?_ nofun ?_ ?_
  · rw [hlabels, hbody]
    change Outline.steps? ⟨0, true, []⟩ _ = _
    rw [steps?_subs, steps?_directive hd (by simp)]
    simp [Outline.steps?]
  · rw [hbody]
    intro hmem
    obtain hmem | hmem := List.mem_append.1 hmem
    · obtain ⟨y, -, hy⟩ := List.mem_map.1 hmem
      cases hy
    · cases List.mem_singleton.1 hmem
      cases hd.effect
  · rw [hbody]
    intro y hmem
    obtain hmem | hmem := List.mem_append.1 hmem
    · obtain ⟨y', hy', heq⟩ := List.mem_map.1 hmem
      cases heq
      exact hys y hy'
    · cases List.mem_singleton.1 hmem

end Emitter

end TemplateExpr
