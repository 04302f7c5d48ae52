import Mathlib.Logic.Basic
import TemplateExpr.Settings.Project

/-!
# Layers of settings

* (laws) How layers are grouped does not matter, an empty layer changes nothing, and a layer that is laid twice is laid
  once (`IsOverlay`). These laws hold of a single optional value, hence of the sections, which are made of such values,
  hence of optional sections, and hence of projects (`Project.isOverlay`).
* (settings) What layers make a setting is what the last of them that sets it makes it (`Project.Setting.made?_foldl`).
  So a setting that no layer sets has its default, and the result is right if all layers are.
-/

namespace TemplateExpr

/-! ### The laws -/

/-- The laws of laying a value over a lower one, with an empty value that sets nothing. -/
structure IsOverlay {α : Type} (lay : α → α → α) (empty : α) : Prop where
  assoc (a b c : α) : lay (lay a b) c = lay a (lay b c)
  empty_lay (a : α) : lay empty a = a
  lay_empty (a : α) : lay a empty = a
  twice (a b : α) : lay (lay a b) b = lay a b

/-- The upper of two optional values counts, if there is one. -/
theorem isOverlay_or (α : Type) : IsOverlay (fun lower upper : Option α => upper.or lower) none where
  assoc a b c := Option.or_assoc.symm
  empty_lay a := Option.or_none
  lay_empty a := Option.none_or
  twice a b := by cases b <;> rfl

/-- Lays an optional section over another. A section is there if one of the two is. -/
def overlaySection {α : Type} (lay : α → α → α) (empty : α) (lower upper : Option α) : Option α :=
  upper.elim lower fun u => some (lay (lower.getD empty) u)

/-- A section that is absent sets nothing, and neither does one that is empty. -/
theorem IsOverlay.overlaySection {α : Type} {lay : α → α → α} {empty : α} (h : IsOverlay lay empty) :
    IsOverlay (overlaySection lay empty) none where
  assoc a b c := by
    cases c with
    | none => rfl
    | some w =>
      cases b with
      | none =>
        -- the middle section is made only for the upper one
        exact congrArg (fun v => some (lay (a.getD empty) v)) (h.empty_lay w).symm
      | some v => exact congrArg some (h.assoc (a.getD empty) v w)
  empty_lay a := by
    cases a with
    | none => rfl
    | some u => exact congrArg some (h.empty_lay u)
  lay_empty a := rfl
  twice a b := by
    cases b with
    | none => rfl
    | some v => exact congrArg some (h.twice (a.getD empty) v)

theorem CompilerSettings.isOverlay : IsOverlay overlay {} where
  assoc _ _ _ := congrArg₂ mk ((isOverlay_or Bool).assoc ..) ((isOverlay_or Bool).assoc ..)
  empty_lay a :=
    congrArg₂ mk ((isOverlay_or Bool).empty_lay a.validate) ((isOverlay_or Bool).empty_lay a.debugInfo)
  lay_empty _ := rfl
  twice _ _ := congrArg₂ mk ((isOverlay_or Bool).twice ..) ((isOverlay_or Bool).twice ..)

theorem MachineSettings.isOverlay : IsOverlay overlay {} where
  assoc _ _ _ := congrArg mk ((isOverlay_or Nat).assoc ..)
  empty_lay a := congrArg mk ((isOverlay_or Nat).empty_lay a.maxStackDepth)
  lay_empty _ := rfl
  twice _ _ := congrArg mk ((isOverlay_or Nat).twice ..)

namespace Project

theorem isOverlay : IsOverlay overlay {} := by
  have hc := CompilerSettings.isOverlay.overlaySection
  have hm := MachineSettings.isOverlay.overlaySection
  exact {
    assoc := fun a b c => congrArg₂ mk (hc.assoc ..) (hm.assoc ..)
    empty_lay := fun a => congrArg₂ mk (hc.empty_lay a.compiler) (hm.empty_lay a.machine)
    lay_empty := fun a => rfl
    twice := fun a b => congrArg₂ mk (hc.twice ..) (hm.twice ..) }

end Project

/-! ### Single settings -/

/-- The settings that a project has. -/
inductive Project.Setting where
  | validate
  | debugInfo
  | maxStackDepth

namespace Project.Setting

/-- The values that a setting can have. -/
abbrev Value : Setting → Type
  | validate | debugInfo => Bool
  | maxStackDepth => Nat

/-- What a layer makes the setting, if it sets it. -/
def made? : (s : Setting) → Project → Option s.Value
  | validate, p => p.compiler.bind CompilerSettings.validate
  | debugInfo, p => p.compiler.bind CompilerSettings.debugInfo
  | maxStackDepth, p => p.machine.bind MachineSettings.maxStackDepth

/-- What the setting is if nothing sets it. -/
def default : (s : Setting) → s.Value
  | validate | debugInfo => true
  | maxStackDepth => defaultMaxStackDepth

/-- What the setting is in the end. -/
def effective : (s : Setting) → Project → s.Value
  | validate, p => p.validateBytecode
  | debugInfo, p => p.debugInfo
  | maxStackDepth, p => p.maxStackDepth

/-- What the last of some layers that sets the setting makes it. -/
def lastMade? (s : Setting) (layers : List Project) : Option s.Value := layers.reverse.findSome? s.made?

theorem effective_eq (s : Setting) (p : Project) : s.effective p = (s.made? p).getD s.default := by
  cases s <;> rfl

/-- A layer changes the settings that it sets, and no others. -/
theorem made?_overlay (s : Setting) (lower upper : Project) :
    s.made? (lower.overlay upper) = (s.made? upper).or (s.made? lower) := by
  obtain ⟨c, m⟩ := lower
  obtain ⟨d, n⟩ := upper
  cases s with
  | validate | debugInfo => cases c <;> cases d <;> simp [made?, Project.overlay, CompilerSettings.overlay]
  | maxStackDepth => cases m <;> cases n <;> simp [made?, Project.overlay, MachineSettings.overlay]

theorem made?_foldl (s : Setting) (base : Project) (layers : List Project) :
    s.made? (layers.foldl Project.overlay base) = s.lastMade? (base :: layers) := by
  induction layers generalizing base with
  | nil => simp [lastMade?]
  | cons layer layers ih =>
    rw [List.foldl_cons, ih]
    cases h : s.made? layer with
    | none => simp [lastMade?, List.findSome?_append, made?_overlay, h]
    | some v => simp [lastMade?, List.findSome?_append, made?_overlay, h]

/-- If no layer sets the setting, the layers leave it as it is below them. -/
theorem made?_foldl_of_unset {base : Project} {layers : List Project} {s : Setting}
    (h : ∀ p ∈ layers, s.made? p = none) : s.made? (layers.foldl Project.overlay base) = s.made? base := by
  rw [made?_foldl, lastMade?, List.reverse_cons, List.findSome?_append, List.findSome?_eq_none_iff.2 (by simpa using h)]
  simp

end Project.Setting

namespace Project

theorem check_eq_ok_iff {p : Project} : p.check = .ok () ↔ Setting.maxStackDepth.made? p ≠ some 0 := by
  unfold check
  split
  · rename_i h
    exact ⟨nofun, fun hne => absurd h hne⟩
  · rename_i h
    exact ⟨fun _ => h, fun _ => rfl⟩

theorem check_foldl {base : Project} {layers : List Project} (h : ∀ p ∈ base :: layers, p.check = .ok ()) :
    (layers.foldl overlay base).check = .ok () := by
  rw [check_eq_ok_iff, Setting.made?_foldl]
  intro hlast
  obtain ⟨p, hp, hzero⟩ := List.exists_of_findSome?_eq_some hlast
  exact check_eq_ok_iff.1 (h p (List.mem_reverse.1 hp)) hzero

/-- Layers of settings follow the laws of an overlay. What they make a setting is what the last of them that sets it
makes it, so that layers which do not set it leave it alone, and the result is right if all of them are. -/
theorem overlay_laws :
    IsOverlay overlay {} ∧
    ∀ (base : Project) (layers : List Project),
      (∀ s : Setting, s.effective (layers.foldl overlay base) = (s.lastMade? (base :: layers)).getD s.default) ∧
      (∀ s : Setting, (∀ p ∈ layers, s.made? p = none) → s.made? (layers.foldl overlay base) = s.made? base) ∧
      ((∀ p ∈ base :: layers, p.check = .ok ()) → (layers.foldl overlay base).check = .ok ()) := by
  refine ⟨isOverlay, fun base layers => ⟨fun s => ?_, fun s h => Setting.made?_foldl_of_unset h, check_foldl⟩⟩
  rw [Setting.effective_eq, Setting.made?_foldl]

/-- A section that is empty, one that is set in part and a layer without sections, over settings of both flags. -/
theorem overlay_laws_partialSections :
    let base : Project := { compiler := some ⟨some false, some true⟩ }
    let layers : List Project :=
      [{ compiler := some {} }, { compiler := some ⟨none, some false⟩, machine := some ⟨some 8⟩ }, {}]
    ((∀ p ∈ layers, Setting.validate.made? p = none) ∧
      Setting.validate.made? (layers.foldl overlay base) = Setting.validate.made? base) ∧
    (∀ p ∈ base :: layers, p.check = .ok ()) ∧ (layers.foldl overlay base).check = .ok () := by
  intro base layers
  have hunset : ∀ p ∈ layers, Setting.validate.made? p = none := by decide
  have hcheck : ∀ p ∈ base :: layers, p.check = .ok () := by simp [base, layers, check]
  obtain ⟨-, hkept, hright⟩ := overlay_laws.2 base layers
  exact ⟨⟨hunset, hkept .validate hunset⟩, hcheck, hright hcheck⟩

end Project

end TemplateExpr
