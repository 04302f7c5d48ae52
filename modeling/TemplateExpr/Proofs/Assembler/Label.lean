import TemplateExpr.Proofs.Assembler.Layout

/-!
# Where labels are placed

A label gets its place from one directive only, the one that marks it (`exists_mark`). From then on the height that is
noted for the label is the one with which the assembler goes on there, unless the label is marked out of reach and no
height was known for it (`Closes.depth_mark`).
-/

namespace TemplateExpr.Assembler

variable {a z : Assembler} {d : Directive} {ds : List Directive} {label target : Nat} {known : Option Nat}

/-- A height that is brought to a label does not change the place of any. -/
private theorem place_mergeDepth {l depth : Nat} {st : LabelState}
    (h : (a.mergeDepth l depth).labels[label]? = some st) :
    ∃ known, a.labels[label]? = some ⟨st.offset, known⟩ := by
  unfold mergeDepth at h
  split at h
  · rename_i offset hl
    by_cases heq : l = label
    · subst heq
      rw [Array.getElem?_setIfInBounds_self_of_lt (Array.getElem?_eq_some_iff.1 hl).1] at h
      cases h
      exact ⟨none, hl⟩
    · rw [Array.getElem?_setIfInBounds_ne heq] at h
      exact ⟨st.depth, h⟩
  · split at h <;> exact ⟨st.depth, h⟩
  · exact ⟨st.depth, h⟩

private theorem place_jump {kind : JumpKind} {l : Nat} {st : LabelState}
    (h : (a.jump kind l).labels[label]? = some st) : ∃ known, a.labels[label]? = some ⟨st.offset, known⟩ := by
  obtain ⟨known, hknown⟩ := place_mergeDepth (a := { a.instruction (kind.instruction 0) with
    fixups := (a.instruction (kind.instruction 0)).fixups.push ⟨a.offset + 1, l⟩ }) h
  rw [labels_instruction] at hknown
  exact ⟨known, hknown⟩

private theorem place_mark {l : Nat} {st : LabelState} (h : (a.mark l).labels[label]? = some st) :
    (∃ known, a.labels[label]? = some ⟨st.offset, known⟩) ∨
      l = label ∧ st.offset = some a.offset ∧ ∃ known, a.labels[label]? = some ⟨none, known⟩ := by
  unfold mark at h
  split at h
  · rename_i depth hl
    -- the label is placed, and then a height may be brought to it
    obtain ⟨known, hset⟩ : ∃ known, (a.labels.setIfInBounds l ⟨some a.offset, depth⟩)[label]? =
        some ⟨st.offset, known⟩ := by
      dsimp only at h
      split at h
      · exact place_mergeDepth (a := { a with labels := a.labels.setIfInBounds l ⟨some a.offset, depth⟩ }) h
      · exact ⟨st.depth, h⟩
    by_cases heq : l = label
    · subst heq
      rw [Array.getElem?_setIfInBounds_self_of_lt (Array.getElem?_eq_some_iff.1 hl).1] at hset
      exact .inr ⟨rfl, (congrArg LabelState.offset (Option.some.inj hset)).symm, depth, hl⟩
    · rw [Array.getElem?_setIfInBounds_ne heq] at hset
      exact .inl ⟨known, hset⟩
  · exact .inl ⟨st.depth, h⟩
  · exact .inl ⟨st.depth, h⟩

/-- A label that has a place had it before, or has been marked. -/
theorem place_apply {st : LabelState} (h : (a.apply d).labels[label]? = some st) (hplace : st.offset = some target) :
    (∃ known, a.labels[label]? = some ⟨some target, known⟩) ∨
      d = .mark label ∧ a.offset = target ∧ ∃ known, a.labels[label]? = some ⟨none, known⟩ := by
  refine apply_cases (P := fun d b => b.labels[label]? = some st →
    (∃ known, a.labels[label]? = some ⟨some target, known⟩) ∨
      d = .mark label ∧ a.offset = target ∧ ∃ known, a.labels[label]? = some ⟨none, known⟩)
    ?instruction ?jump ?mark ?newLabel ?setSpan ?setDebugInfo ?refusedOpcode ?refusedCall d h
  case instruction =>
    intro d i _ h
    rw [labels_instruction, (a.sameCode_withConstant d).labels] at h
    exact .inl ⟨st.depth, by rw [h, ← hplace]⟩
  case jump =>
    intro kind l h
    rw [← hplace]
    exact .inl (place_jump h)
  case mark =>
    intro l h
    obtain hold | ⟨rfl, hoffset, hnone⟩ := place_mark h
    · exact .inl (hplace ▸ hold)
    · rw [hplace] at hoffset
      exact .inr ⟨rfl, (Option.some.inj hoffset).symm, hnone⟩
  case newLabel =>
    -- a new label has no place
    intro h
    simp only [newLabels] at h
    obtain hlt | hle := Nat.lt_or_ge label a.labels.size
    · rw [Array.getElem?_append_left hlt] at h
      exact .inl ⟨st.depth, by rw [h, ← hplace]⟩
    · rw [Array.getElem?_append_right hle, Array.getElem?_replicate] at h
      split at h <;> cases h
      cases hplace
  all_goals
    intros
    rename_i h
    exact .inl ⟨st.depth, by rw [← hplace]; exact h⟩

/-- A label that gets a place on the way is marked there. -/
theorem exists_mark (a : Assembler) (ds : List Directive)
    (hnone : ∀ offset known, a.labels[label]? ≠ some ⟨some offset, known⟩)
    (h : (a.run ds).labels[label]? = some ⟨some target, known⟩) :
    ∃ before after, ds = before ++ .mark label :: after ∧ (a.run before).offset = target ∧
      ∃ known', (a.run before).labels[label]? = some ⟨none, known'⟩ := by
  induction ds generalizing a with
  | nil => exact absurd h (hnone _ _)
  | cons d ds ih =>
    by_cases hplaced : ∃ offset known, (a.apply d).labels[label]? = some ⟨some offset, known⟩
    · obtain ⟨offset, known', hd⟩ := hplaced
      obtain ⟨known'', hold⟩ | ⟨rfl, hoffset, hmark⟩ := place_apply hd rfl
      · exact absurd hold (hnone _ _)
      · -- the place is kept until the end
        obtain ⟨st, hst, hkeeps, -⟩ := ((a.apply (.mark label)).precedes_run ds).labels label _ hd
        rw [run_cons, hst] at h
        cases h
        exact ⟨[], ds, rfl, hoffset.trans (Option.some.inj (hkeeps _ rfl)).symm, hmark⟩
    · obtain ⟨before, after, rfl, hbefore⟩ :=
        ih (a.apply d) (fun offset known h => hplaced ⟨offset, known, h⟩) h
      exact ⟨d :: before, after, rfl, hbefore⟩

/-- A label without a place gets one where it is marked. -/
theorem exists_place_mark (hl : a.labels[label]? = some ⟨none, known⟩) :
    ∃ known', (a.mark label).labels[label]? = some ⟨some a.offset, known'⟩ := by
  have hplaced : (a.labels.setIfInBounds label ⟨some a.offset, known⟩)[label]? = some ⟨some a.offset, known⟩ :=
    Array.getElem?_setIfInBounds_self_of_lt (Array.getElem?_eq_some_iff.1 hl).1
  cases hr : a.reachable with
  | false =>
    simp only [mark, hl, hr, Bool.false_eq_true, if_false]
    exact ⟨known, hplaced⟩
  | true =>
    simp only [mark, hl, hr, if_true]
    obtain ⟨⟨offset, known'⟩, hst, hkeeps, -⟩ := (precedes_mergeDepth
      { a with labels := a.labels.setIfInBounds label ⟨some a.offset, known⟩ } label a.depth).labels label _ hplaced
    obtain rfl : offset = some a.offset := hkeeps _ rfl
    rw [hr] at hst
    exact ⟨known', hst⟩

/-- What is known after a label is marked. Only out of reach may its height stay unknown. -/
theorem Closes.depth_mark (h : z.Closes) (hl : a.labels[label]? = some ⟨none, known⟩)
    (hz : (a.mark label).Precedes z) :
    (a.mark label).reachable = true ∧
      ((∃ st, z.labels[label]? = some st ∧ st.depth = some (a.mark label).depth) ∨
        a.reachable = false ∧ known = none ∧ (a.mark label).depth = a.depth) := by
  have hlt := (Array.getElem?_eq_some_iff.1 hl).1
  have hplaced : (a.labels.setIfInBounds label ⟨some a.offset, known⟩)[label]? = some ⟨some a.offset, known⟩ :=
    Array.getElem?_setIfInBounds_self_of_lt hlt
  have herrors := h.errors_of_precedes hz
  have hlabels := hz.labels label
  cases hr : a.reachable with
  | false =>
    simp only [Assembler.mark, hl, hr, Bool.false_eq_true, if_false] at hlabels ⊢
    cases known with
    | none => exact ⟨trivial, .inr ⟨trivial, rfl, rfl⟩⟩
    | some depth =>
      obtain ⟨st, hst, -, hdepth⟩ := hlabels _ hplaced
      exact ⟨trivial, .inl ⟨st, hst, hdepth _ rfl⟩⟩
  | true =>
    simp only [Assembler.mark, hl, hr, if_true] at herrors hlabels ⊢
    obtain ⟨offset, hget⟩ := depth_mergeDepth_label (by rwa [Array.size_setIfInBounds]) herrors
    obtain ⟨st, hst, -, hdepth⟩ := hlabels _ hget
    exact ⟨trivial, .inl ⟨st, hst, by rw [hdepth _ rfl, depth_mergeDepth]⟩⟩

end TemplateExpr.Assembler
