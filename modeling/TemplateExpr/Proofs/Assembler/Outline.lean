import TemplateExpr.Proofs.Assembler.Directive

/-!
# Outlines

The outline of an assembler is what it knows of heights and labels, without code and offsets. Directives that keep to
the rules can be followed on the outline alone (`Outline.step?`): code is only emitted where it can be reached, finds
the slots that it takes, and does not halt; a label is jumped to before it is marked, and all paths bring it one height.

An assembler that is given such directives has the outline that was foretold, and reports nothing but that its pool is
full (`outline_run`, `Clean`). Other code around does not matter (`Outline.Allows.inside`).
-/

namespace TemplateExpr

/-- What is known of a label: whether it is placed, and the height that is noted for it. -/
abbrev LabelOutline := Bool × Option Nat

structure Outline where
  height : Nat
  reachable : Bool
  labels : List LabelOutline

def LabelState.outline (st : LabelState) : LabelOutline := (st.offset.isSome, st.depth)

def Assembler.outline (a : Assembler) : Outline := ⟨a.depth, a.reachable, a.labels.toList.map LabelState.outline⟩

namespace Outline

/-- The height with which the code goes on at a label, if that is agreed upon. -/
def meet? (o : Outline) (known : Option Nat) : Option Nat :=
  if o.reachable then if known.getD o.height = o.height then some o.height else none else known

/-- The outline after a directive that keeps to the rules. -/
def step? (o : Outline) : Directive → Option Outline
  | .newLabel => some { o with labels := o.labels ++ [(false, none)] }
  | .setSpan _ | .setDebugInfo _ => some o
  | .mark label =>
    match o.labels[label]? with
    | some (false, known) => (o.meet? known).map fun n => ⟨n, true, o.labels.set label (true, some n)⟩
    | _ => none
  | .jump kind label =>
    match o.labels[label]? with
    | some (false, known) =>
      let n := o.height - kind.effect.pops
      if o.reachable ∧ kind.effect.pops ≤ o.height ∧ known.getD n = n then
        some ⟨n, kind != .always, o.labels.set label (false, some n)⟩
      else none
    | _ => none
  | .emit .halt => none
  | d =>
    match d.effect? with
    | some e => if o.reachable ∧ e.pops ≤ o.height then some { o with height := o.height - e.pops + e.pushes } else none
    | none => none

def run? (o : Outline) (ds : List Directive) : Option Outline := ds.foldlM step? o

@[simp] theorem run?_nil (o : Outline) : o.run? [] = some o := rfl

theorem run?_cons (o : Outline) (d : Directive) (ds : List Directive) :
    o.run? (d :: ds) = (o.step? d).bind fun o => o.run? ds := rfl

theorem run?_append (o : Outline) (ds es : List Directive) :
    o.run? (ds ++ es) = (o.run? ds).bind fun o => o.run? es := List.foldlM_append

/-- The rules that a directive can keep to. -/
inductive Allows (o : Outline) : Directive → Outline → Prop
  | newLabel : Allows o .newLabel { o with labels := o.labels ++ [(false, none)] }
  | setSpan {span : Span} : Allows o (.setSpan span) o
  | setDebugInfo {enabled : Bool} : Allows o (.setDebugInfo enabled) o
  | mark {label n : Nat} {known : Option Nat} (hl : o.labels[label]? = some (false, known))
    (hn : o.meet? known = some n) : Allows o (.mark label) ⟨n, true, o.labels.set label (true, some n)⟩
  | jump {kind : JumpKind} {label n : Nat} {known : Option Nat} (hl : o.labels[label]? = some (false, known))
    (hr : o.reachable = true) (hn : o.height = n + kind.effect.pops) (hknown : known.getD n = n) :
    Allows o (.jump kind label) ⟨n, kind != .always, o.labels.set label (false, some n)⟩
  | instruction {d : Directive} {e : StackEffect} (he : d.effect? = some e) (hjump : ∀ kind label, d ≠ .jump kind label)
    (hhalt : d ≠ .emit .halt) (hr : o.reachable = true) (hpops : e.pops ≤ o.height) :
    Allows o d { o with height := o.height - e.pops + e.pushes }

variable {o o' : Outline} {d : Directive}

theorem allows_of_step? (h : o.step? d = some o') : o.Allows d o' := by
  unfold step? at h
  split at h
  · cases h
    exact .newLabel
  · cases h
    exact .setSpan
  · cases h
    exact .setDebugInfo
  · split at h
    · rename_i known hl
      obtain ⟨n, hn, rfl⟩ := Option.map_eq_some_iff.1 h
      exact .mark hl hn
    · cases h
  · split at h
    · rename_i known hl
      dsimp only at h
      split at h
      · rename_i hcond
        obtain ⟨hr, hpops, hknown⟩ := hcond
        cases h
        exact .jump hl hr (Nat.sub_add_cancel hpops).symm hknown
      · cases h
    · cases h
  · cases h
  · rename_i hjump hhalt
    split at h
    · rename_i e he
      split at h
      · rename_i hcond
        cases h
        exact .instruction he hjump hhalt hcond.1 hcond.2
      · cases h
    · cases h

theorem Allows.step?_eq (h : o.Allows d o') : o.step? d = some o' := by
  cases h with
  | newLabel => rfl
  | setSpan => rfl
  | setDebugInfo => rfl
  | mark hl hn => simp only [step?, hl, hn, Option.map_some]
  | @jump kind label n known hl hr hn hknown =>
    have hsub : o.height - kind.effect.pops = n := by omega
    have hle : kind.effect.pops ≤ o.height := by omega
    simp only [step?, hl, hr, hsub, hle, hknown, and_self, if_true]
  | instruction he hjump hhalt hr hpops =>
    unfold step?
    split
    case h_1 | h_2 | h_3 | h_4 => cases he
    case h_5 => exact absurd rfl (hjump _ _)
    case h_6 => exact absurd rfl hhalt
    case h_7 =>
      have hcond : o.reachable = true ∧ _ := ⟨hr, hpops⟩
      rw [he]
      exact if_pos hcond

theorem Allows.exists_mark {label : Nat} (h : o.Allows (.mark label) o') :
    ∃ known n, o.labels[label]? = some (false, known) ∧ o.meet? known = some n ∧
      o' = ⟨n, true, o.labels.set label (true, some n)⟩ := by
  cases h with
  | mark hl hn => exact ⟨_, _, hl, hn, rfl⟩
  | instruction he => cases he

theorem Allows.exists_jump {kind : JumpKind} {label : Nat} (h : o.Allows (.jump kind label) o') :
    ∃ known n, o.labels[label]? = some (false, known) ∧ o.reachable = true ∧ o.height = n + kind.effect.pops ∧
      known.getD n = n ∧ o' = ⟨n, kind != .always, o.labels.set label (false, some n)⟩ := by
  cases h with
  | jump hl hr hn hknown => exact ⟨_, _, hl, hr, hn, hknown, rfl⟩
  | instruction _ hjump => exact absurd rfl (hjump kind label)

/-! ### Other code around -/

/-- The outline in the middle of other code: on a stack that is higher, and between other labels. -/
def inside (o : Outline) (height : Nat) (before after : List LabelOutline) : Outline :=
  ⟨height + o.height, o.reachable, before ++ o.labels.map (fun p => (p.1, p.2.map (height + ·))) ++ after⟩

private theorem getElem?_inside (height : Nat) (before after : List LabelOutline) {label : Nat} {p : LabelOutline}
    (h : o.labels[label]? = some p) :
    (o.inside height before after).labels[before.length + label]? = some (p.1, p.2.map (height + ·)) := by
  have hlt : label < o.labels.length := (List.getElem?_eq_some_iff.1 h).1
  simp only [inside]
  rw [List.append_assoc, List.getElem?_append_right (Nat.le_add_right _ _), Nat.add_sub_cancel_left,
    List.getElem?_append_left (by simpa using hlt), List.getElem?_map, h]
  rfl

private theorem set_inside {height : Nat} {before after : List LabelOutline} {label n : Nat} {placed : Bool}
    (h : label < o.labels.length) :
    (o.inside height before after).labels.set (before.length + label) (placed, some (height + n)) =
      before ++ (o.labels.set label (placed, some n)).map (fun p => (p.1, p.2.map (height + ·))) ++ after := by
  simp only [inside]
  rw [List.append_assoc, List.set_append_right _ _ (Nat.le_add_right _ _), Nat.add_sub_cancel_left,
    List.set_append_left _ _ (by simpa using h), List.map_set, List.append_assoc]
  rfl

private theorem meet?_inside {height n : Nat} {before after : List LabelOutline} {known : Option Nat}
    (h : o.meet? known = some n) :
    (o.inside height before after).meet? (known.map (height + ·)) = some (height + n) := by
  unfold meet? at h ⊢
  change (if o.reachable = true then _ else _) = _
  split at h
  · split at h
    · rename_i hr heq
      cases h
      rw [if_pos hr]
      refine if_pos ?_
      cases known with
      | none => rfl
      | some m => exact congrArg (height + ·) heq
    · cases h
  · rename_i hr
    rw [if_neg hr, h]
    rfl

theorem Allows.inside (h : o.Allows d o') (height : Nat) (before after : List LabelOutline) (hd : d ≠ .newLabel) :
    (o.inside height before after).Allows (d.shift before.length) (o'.inside height before after) := by
  cases h with
  | newLabel => exact absurd rfl hd
  | setSpan => exact .setSpan
  | setDebugInfo => exact .setDebugInfo
  | @mark label n known hl hn =>
    have hmark := Allows.mark (getElem?_inside height before after hl)
      (meet?_inside hn)
    rw [set_inside (List.getElem?_eq_some_iff.1 hl).1] at hmark
    exact hmark
  | @jump kind label n known hl hr hn hknown =>
    have hheight : (o.inside height before after).height = (height + n) + kind.effect.pops := by
      simp only [inside]
      omega
    have hmeets : (known.map (height + ·)).getD (height + n) = height + n := by
      cases known with
      | none => rfl
      | some m => exact congrArg (height + ·) hknown
    have hjump := Allows.jump (getElem?_inside height before after hl) hr hheight hmeets
    rw [set_inside (List.getElem?_eq_some_iff.1 hl).1] at hjump
    exact hjump
  | @instruction d e he hjump hhalt hr hpops =>
    have hshift : d.shift before.length = d := by
      cases d with
      | mark label => cases he
      | jump kind label => exact absurd rfl (hjump _ _)
      | _ => rfl
    have hle : e.pops ≤ (o.inside height before after).height := Nat.le_trans hpops (Nat.le_add_left _ _)
    have hstep := Allows.instruction (o := o.inside height before after) he hjump hhalt hr hle
    have hheight : (o.inside height before after).height - e.pops + e.pushes =
        height + (o.height - e.pops + e.pushes) := by
      simp only [inside]
      omega
    rw [hheight] at hstep
    rw [hshift]
    exact hstep

end Outline

/-! ### The assembler follows its outline -/

def Directive.addsConstant (d : Directive) : Bool := d.constant?.isSome

namespace Assembler

variable {a : Assembler} {d : Directive} {ds : List Directive} {o : Outline} {n : Nat}

/-- Of as many constants as are counted, those beyond the limit have been reported, and nothing else. Jumps are to
labels that have been made. -/
structure Clean (a : Assembler) (constants : Nat) : Prop where
  errors : a.errors.toList = List.replicate (constants - poolLimit) (.poolOverflow poolLimit)
  size : a.bytecode.constants.size = min constants poolLimit
  fixups : ∀ f ∈ a.fixups, f.label < a.labels.size

theorem Clean.of_eq {b : Assembler} (h : a.Clean n) (herrors : b.errors = a.errors)
    (hconstants : b.bytecode.constants = a.bytecode.constants) (hfixups : b.fixups = a.fixups)
    (hlabels : a.labels.size ≤ b.labels.size) : b.Clean n where
  errors := herrors ▸ h.errors
  size := hconstants ▸ h.size
  fixups f hf := Nat.lt_of_lt_of_le (h.fixups f (hfixups ▸ hf)) hlabels

theorem clean_new : new.Clean 0 := ⟨rfl, rfl, by simp [new]⟩

private theorem constants_emitBytes (a : Assembler) (i : Instruction) :
    (a.emitBytes i).bytecode.constants = a.bytecode.constants := by
  unfold emitBytes
  cases a.debugInfo <;> rfl

private theorem clean_withConstant (h : a.Clean n) (d : Directive) :
    (a.withConstant d).1.Clean (n + if d.addsConstant then 1 else 0) := by
  unfold withConstant Directive.addsConstant
  cases d.constant? with
  | none => exact h
  | some v =>
    have herrors := h.errors
    have hsize := h.size
    change (a.addConstant v).1.Clean (n + 1)
    by_cases hlt : a.bytecode.constants.size < poolLimit
    · have hle : n + 1 ≤ poolLimit := by omega
      rw [addConstant, if_pos hlt]
      refine ⟨?_, ?_, h.fixups⟩
      · rw [Nat.sub_eq_zero_of_le (Nat.le_of_succ_le hle)] at herrors
        change a.errors.toList = List.replicate (n + 1 - poolLimit) _
        rw [Nat.sub_eq_zero_of_le hle, herrors]
      · change (a.bytecode.constants.push v).size = min (n + 1) poolLimit
        rw [Array.size_push]
        omega
    · -- the pool is full, and one more constant is one more error
      have hmore : n + 1 - poolLimit = n - poolLimit + 1 := by omega
      rw [addConstant, if_neg hlt]
      refine ⟨?_, ?_, h.fixups⟩
      · change (a.errors.push _).toList = List.replicate (n + 1 - poolLimit) _
        rw [Array.toList_push, herrors, hmore, List.replicate_succ']
      · change a.bytecode.constants.size = min (n + 1) poolLimit
        omega

theorem outline_label {label : Nat} {known : Option Nat} (h : a.outline.labels[label]? = some (false, known)) :
    a.labels[label]? = some ⟨none, known⟩ := by
  simp only [outline, List.getElem?_map, Array.getElem?_toList, Option.map_eq_some_iff] at h
  obtain ⟨⟨offset, depth⟩, hget, heq⟩ := h
  obtain ⟨hoffset, rfl⟩ := Prod.mk.inj heq
  cases offset with
  | none => exact hget
  | some offset => cases hoffset

private theorem outline_setLabel (labels : Array LabelState) (label : Nat) (st : LabelState) :
    (labels.setIfInBounds label st).toList.map LabelState.outline =
      (labels.toList.map LabelState.outline).set label st.outline := by
  rw [Array.toList_setIfInBounds, List.map_set]

/-- A label that gets a height is noted with it, whether or not it was known. -/
private theorem mergeDepth_eq_set {label m : Nat} {place known : Option Nat}
    (hl : a.labels[label]? = some ⟨place, known⟩) (hknown : known.getD m = m) :
    a.mergeDepth label m = { a with labels := a.labels.setIfInBounds label ⟨place, some m⟩ } := by
  unfold mergeDepth
  simp only [hl]
  cases known with
  | none => rfl
  | some k =>
    obtain rfl : k = m := hknown
    have hsame : a.labels.setIfInBounds label ⟨place, some k⟩ = a.labels := by
      obtain ⟨hlt, hget⟩ := Array.getElem?_eq_some_iff.1 hl
      rw [← Array.toList_inj, Array.toList_setIfInBounds, ← hget]
      exact List.set_getElem_self hlt
    simp only [if_true, hsame]

private theorem mark_eq {label m : Nat} {known : Option Nat} (hl : a.labels[label]? = some ⟨none, known⟩)
    (hm : a.outline.meet? known = some m) : a.mark label = { a with
      labels := a.labels.setIfInBounds label ⟨some a.offset, some m⟩, depth := m, reachable := true } := by
  have hplaced : (a.labels.setIfInBounds label ⟨some a.offset, known⟩)[label]? = some ⟨some a.offset, known⟩ :=
    Array.getElem?_setIfInBounds_self_of_lt (Array.getElem?_eq_some_iff.1 hl).1
  unfold Outline.meet? at hm
  change (if a.reachable = true then if known.getD a.depth = a.depth then some a.depth else none else known) = _ at hm
  simp only [mark, hl]
  split at hm
  · rename_i hr
    split at hm
    · rename_i hknown
      cases hm
      rw [if_pos hr, mergeDepth_eq_set (a := { a with
        labels := a.labels.setIfInBounds label ⟨some a.offset, known⟩ }) hplaced hknown]
      simp only [Array.setIfInBounds_setIfInBounds]
    · cases hm
  · rename_i hr
    subst hm
    rw [if_neg hr]
    rfl

theorem jump_eq {kind : JumpKind} {label m : Nat} {known : Option Nat}
    (hl : a.labels[label]? = some ⟨none, known⟩) (hm : a.depth = m + kind.effect.pops) (hknown : known.getD m = m) :
    a.jump kind label = { a.emitBytes (kind.instruction 0) with
      depth := m, maxDepth := max a.maxDepth m, labels := a.labels.setIfInBounds label ⟨none, some m⟩,
      fixups := a.fixups.push ⟨a.offset + 1, label⟩, reachable := a.reachable && kind != .always } := by
  have hpops : kind.effect.pops ≤ a.depth := by omega
  have hdepth : a.depth - kind.effect.pops + kind.effect.pushes = m := by
    cases kind <;> simp only [JumpKind.effect] at hm ⊢ <;> omega
  subst hdepth
  have hmerge := mergeDepth_eq_set (a := { (a.emitBytes (kind.instruction 0)).applyEffect kind.effect with
    fixups := a.fixups.push ⟨a.offset + 1, label⟩ }) hl hknown
  unfold jump
  rw [instruction_of_pops (kind.stackEffect?_instruction 0) hpops]
  exact congrArg (fun b : Assembler => { b with reachable := b.reachable && kind != JumpKind.always }) hmerge

theorem follows (h : a.outline.Allows d o) (hclean : a.Clean n) :
    (a.apply d).outline = o ∧ (a.apply d).Clean (n + if d.addsConstant then 1 else 0) := by
  refine apply_cases (P := fun d b => a.outline.Allows d o → b.outline = o ∧
    b.Clean (n + if d.addsConstant then 1 else 0))
    ?instruction ?jump ?mark ?newLabel ?setSpan ?setDebugInfo ?refusedOpcode ?refusedCall d h
  case instruction =>
    intro d i hi hstep
    cases hstep with
    | @instruction _ e he hjump hhalt hr hpops =>
      obtain ⟨_, hi', he'⟩ := Directive.stackEffect?_of_instruction? hi
      rw [he] at he'
      cases he'
      have hsame := a.sameCode_withConstant d
      rw [instruction_of_pops hi' (hsame.depth ▸ hpops)]
      refine ⟨?_, (clean_withConstant hclean d).of_eq rfl (constants_emitBytes _ i) rfl (Nat.le_refl _)⟩
      simp only [outline, applyEffect]
      rw [← hsame.depth, ← hsame.reachable, ← hsame.labels]
      rfl
    | _ => cases hi
  case jump =>
    intro kind label hstep
    obtain ⟨known, m, hl, hr, hn, hknown, rfl⟩ := hstep.exists_jump
    have hl := outline_label hl
    have hreachable : a.reachable = true := hr
    rw [jump_eq hl hn hknown]
    refine ⟨?_, hclean.errors, ?_, fun f hf => ?_⟩
    · simp only [outline, outline_setLabel, hreachable, Bool.true_and]
      rfl
    · exact (congrArg Array.size (constants_emitBytes a _)).trans hclean.size
    · rw [Array.size_setIfInBounds]
      obtain hf | rfl := Array.mem_push.1 hf
      · exact hclean.fixups f hf
      · exact (Array.getElem?_eq_some_iff.1 hl).1
  case mark =>
    intro label hstep
    obtain ⟨known, m, hl, hm, rfl⟩ := hstep.exists_mark
    rw [mark_eq (outline_label hl) hm]
    refine ⟨?_, hclean.of_eq rfl rfl rfl (by simp)⟩
    simp only [outline, outline_setLabel]
    rfl
  case newLabel =>
    intro hstep
    cases hstep with
    | newLabel =>
      refine ⟨?_, hclean.of_eq rfl rfl rfl (by simp [newLabels])⟩
      simp [outline, newLabels, LabelState.outline]
    | instruction he hjump hhalt hr hpops => cases he
  case setSpan =>
    intro span hstep
    cases hstep with
    | setSpan => exact ⟨rfl, hclean.of_eq rfl rfl rfl (Nat.le_refl _)⟩
    | instruction he hjump hhalt hr hpops => cases he
  case setDebugInfo =>
    intro enabled hstep
    cases hstep with
    | setDebugInfo => exact ⟨rfl, hclean.of_eq rfl rfl rfl (Nat.le_refl _)⟩
    | instruction he hjump hhalt hr hpops => cases he
  case refusedOpcode =>
    intro o e hd hstep
    cases hstep with
    | instruction he hjump hhalt hr hpops =>
      rw [hd] at he
      cases he
  case refusedCall =>
    intro name count e hd hstep
    cases hstep with
    | instruction he hjump hhalt hr hpops =>
      rw [hd] at he
      cases he

/-- An assembler that is given directives that keep to the rules has the outline that was foretold. -/
theorem outline_run (h : a.outline.run? ds = some o) (hclean : a.Clean n) :
    (a.run ds).outline = o ∧ (a.run ds).Clean (n + ds.countP Directive.addsConstant) := by
  induction ds generalizing a n with
  | nil => exact ⟨Option.some.inj h, hclean⟩
  | cons d ds ih =>
    rw [Outline.run?_cons] at h
    obtain ⟨o', hd, hds⟩ := Option.bind_eq_some_iff.1 h
    obtain ⟨rfl, hclean'⟩ := follows (Outline.allows_of_step? hd) hclean
    have hrest := ih hds hclean'
    rw [List.countP_cons, run_cons, Nat.add_comm (ds.countP _), ← Nat.add_assoc]
    exact hrest

end Assembler

end TemplateExpr
