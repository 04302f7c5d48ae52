import TemplateExpr.Proofs.Assembler.Outline
import TemplateExpr.Proofs.Assembler.Validity

/-!
# Orderly directives

Directives are orderly if they keep to the rules from the start, leave one value and mark every label that they make.
Then

* (errors) the assembler can only report that the pool is full, which it does exactly if there are too many constants,
  and that a jump is too far (`Orderly.errors_close`);
* (validity) the validator accepts what is finished (`Orderly.validate`);
* (order) every jump leads forward (`Orderly.forward`).
-/

namespace TemplateExpr.Assembler

variable {a z : Assembler} {ds before after : List Directive} {o o' : Outline} {n : Nat}

def Orderly (ds : List Directive) : Prop :=
  ∃ reachable labels, new.outline.run? ds = some ⟨1, reachable, labels⟩ ∧ ∀ p ∈ labels, p.1 = true

/-! ### Errors -/

/-- Resolving fixups whose labels have places reports nothing but jumps that are too far. -/
private theorem errors_resolve (fs : List Fixup)
    (h : ∀ f ∈ fs, ∃ target depth, a.labels[f.label]? = some ⟨some target, depth⟩) :
    ∃ far, (fs.foldl resolve a).errors.toList = a.errors.toList ++ far ∧
      ∀ e ∈ far, ∃ offset distance, e = .jumpTooFar offset distance := by
  induction fs generalizing a with
  | nil => exact ⟨[], (List.append_nil _).symm, nofun⟩
  | cons f fs ih =>
    obtain ⟨target, depth, hl⟩ := h f List.mem_cons_self
    have hlabels : (a.resolve f).labels = a.labels := by
      simp only [resolve, hl]
      split <;> rfl
    obtain ⟨far, hfar, hall⟩ := ih (a := a.resolve f) fun g hg => by
      rw [hlabels]
      exact h g (List.mem_cons_of_mem _ hg)
    rw [List.foldl_cons, hfar]
    simp only [resolve, hl]
    split
    · exact ⟨far, rfl, hall⟩
    · refine ⟨_ :: far, by simp only [report, Array.toList_push, List.append_assoc]; rfl, fun e he => ?_⟩
      obtain rfl | he := List.mem_cons.1 he
      · exact ⟨_, _, rfl⟩
      · exact hall e he

/-- One error for each constant beyond the limit, then the jumps that are too far. -/
private theorem Orderly.errors_eq (h : Orderly ds) :
    ∃ far, (new.run ds).close.errors.toList =
        List.replicate (ds.countP Directive.addsConstant - poolLimit) (.poolOverflow poolLimit) ++ far ∧
      ∀ e ∈ far, ∃ offset distance, e = .jumpTooFar offset distance := by
  obtain ⟨reachable, labels, hrun, hlabels⟩ := h
  obtain ⟨houtline, hclean⟩ := outline_run hrun clean_new
  rw [Nat.zero_add] at hclean
  have hhalt : (new.run ds).emit .halt = ((new.run ds).emitBytes ⟨.halt, ()⟩).applyEffect ⟨0, 0⟩ :=
    instruction_of_pops (i := ⟨.halt, ()⟩) (e := ⟨0, 0⟩) rfl (Nat.zero_le _)
  obtain ⟨far, hfar, hall⟩ := errors_resolve (a := (new.run ds).emit .halt) (new.run ds).fixups.toList (by
    intro f hf
    have hlt := hclean.fixups f (Array.mem_def.2 hf)
    rw [hhalt]
    -- every label is placed in the end
    have hmem : ((new.run ds).labels[f.label]).outline ∈ (new.run ds).outline.labels :=
      List.mem_map_of_mem (Array.getElem_mem_toList hlt)
    have hplaced := hlabels _ (congrArg Outline.labels houtline ▸ hmem)
    obtain ⟨target, htarget⟩ := Option.isSome_iff_exists.1 hplaced
    exact ⟨target, ((new.run ds).labels[f.label]).depth, by
      rw [← htarget]
      exact Array.getElem?_eq_getElem hlt⟩)
  refine ⟨far, ?_, hall⟩
  rw [Closes.close_eq, hfar, hhalt]
  exact congrArg (· ++ far) hclean.errors

theorem Orderly.errors_close (h : Orderly ds) :
    (∀ e ∈ (new.run ds).close.errors.toList,
        e = .poolOverflow poolLimit ∨ ∃ offset distance, e = .jumpTooFar offset distance) ∧
      (.poolOverflow poolLimit ∈ (new.run ds).close.errors.toList ↔
        poolLimit < ds.countP Directive.addsConstant) := by
  obtain ⟨far, herrors, hfar⟩ := h.errors_eq
  rw [herrors]
  refine ⟨fun e he => ?_, fun hmem => ?_, fun hmore => ?_⟩
  · obtain he | he := List.mem_append.1 he
    · exact .inl (List.eq_of_mem_replicate he)
    · exact .inr (hfar e he)
  · obtain hmem | hmem := List.mem_append.1 hmem
    · obtain ⟨hne, -⟩ := List.mem_replicate.1 hmem
      omega
    · obtain ⟨offset, distance, heq⟩ := hfar _ hmem
      cases heq
  · exact List.mem_append_left _ (List.mem_replicate.2 ⟨by omega, rfl⟩)

/-! ### Validity -/

private theorem named_of_run? (h : o.run? ds = some o') : Named o.labels.length ds = true := by
  induction ds generalizing o with
  | nil => rfl
  | cons d ds ih =>
    rw [Outline.run?_cons] at h
    obtain ⟨o₁, hd, hds⟩ := Option.bind_eq_some_iff.1 h
    have hrest := ih hds
    cases Outline.allows_of_step? hd with
    | newLabel =>
      simp only [List.length_append, List.length_singleton] at hrest
      exact hrest
    | setSpan => exact hrest
    | setDebugInfo => exact hrest
    | mark hl hn =>
      rw [List.length_set] at hrest
      simp only [Named, hrest, Bool.and_true, decide_eq_true_eq]
      exact (List.getElem?_eq_some_iff.1 hl).1
    | jump hl hr hn hknown =>
      rw [List.length_set] at hrest
      simp only [Named, hrest, Bool.and_true, decide_eq_true_eq]
      exact (List.getElem?_eq_some_iff.1 hl).1
    | instruction he hjump hhalt hr hpops =>
      cases d with
      | newLabel => cases he
      | mark label => cases he
      | jump kind label => exact absurd rfl (hjump kind label)
      | _ => exact hrest

private theorem halt_of_run? (h : o.run? ds = some o') : .emit .halt ∉ ds := by
  induction ds generalizing o with
  | nil => exact List.not_mem_nil
  | cons d ds ih =>
    rw [Outline.run?_cons] at h
    obtain ⟨o₁, hd, hds⟩ := Option.bind_eq_some_iff.1 h
    intro hmem
    obtain rfl | hmem := List.mem_cons.1 hmem
    · cases hd
    · exact ih hds hmem

/-- No label is marked out of reach before a jump to it. -/
private theorem looseMarks_of_run? (h : a.outline.run? ds = some o) (hclean : a.Clean n) : looseMarks a ds = [] := by
  induction ds generalizing a n with
  | nil => rfl
  | cons d ds ih =>
    rw [Outline.run?_cons] at h
    obtain ⟨o₁, hd, hds⟩ := Option.bind_eq_some_iff.1 h
    have hstep := Outline.allows_of_step? hd
    obtain ⟨rfl, hclean'⟩ := follows hstep hclean
    have hrest := ih hds hclean'
    cases d with
    | mark label =>
      rw [looseMarks, if_neg]
      · exact hrest
      · rintro ⟨hr, hl⟩
        obtain ⟨known, n, hl', hn, -⟩ := hstep.exists_mark
        -- out of reach, the height comes from the label
        have hreachable : a.outline.reachable = false := hr
        rw [outline_label hl'] at hl
        cases hl
        simp [Outline.meet?, hreachable] at hn
    | _ => exact hrest

theorem Orderly.halt_not_mem (h : Orderly ds) : .emit .halt ∉ ds := by
  obtain ⟨reachable, labels, hrun, -⟩ := h
  exact halt_of_run? hrun

theorem Orderly.validate (h : Orderly ds) (hz : (new.run ds).Closes) :
    (new.run ds).close.bytecode.validate = .ok () := by
  obtain ⟨reachable, labels, hrun, hlabels⟩ := h
  obtain ⟨houtline, hclean⟩ := outline_run hrun clean_new
  refine hz.validate rfl (congrArg Outline.height houtline) (named_of_run? hrun) (halt_of_run? hrun) ?_
  rw [looseMarks_of_run? hrun clean_new]
  nofun

/-! ### Order -/

/-- A jump leads beyond its end. -/
theorem Orderly.forward (h : Orderly ds) {ps : List Placed} (hps : Lists (new.run ds) new ds ps) {p : Placed}
    (hp : p ∈ ps) {dist : Int} (hdist : Bytecode.jumpDistance? p.instruction = some dist) : 0 ≤ dist := by
  obtain ⟨reachable, labels, hrun, -⟩ := h
  obtain rfl | ⟨before, d, after, hds, hoffset, hemits⟩ := hps.exists_emits hp
  · cases hdist
  · obtain ⟨kind, label, target, depth, rfl, hlabel, htarget⟩ := hemits.jump dist hdist
    rw [hds, Outline.run?_append] at hrun
    obtain ⟨o₁, hbefore, hrun⟩ := Option.bind_eq_some_iff.1 hrun
    obtain ⟨rfl, hclean⟩ := outline_run hbefore clean_new
    rw [Outline.run?_cons] at hrun
    obtain ⟨o₂, hd, -⟩ := Option.bind_eq_some_iff.1 hrun
    -- the label has no place yet
    obtain ⟨known, m, hl, -, hm, hknown, -⟩ := (Outline.allows_of_step? hd).exists_jump
    have hl := outline_label hl
    have hunplaced : ((new.run before).apply (.jump kind label)).labels[label]? = some ⟨none, some m⟩ := by
      rw [apply, jump_eq hl hm hknown]
      exact Array.getElem?_setIfInBounds_self_of_lt (Array.getElem?_eq_some_iff.1 hl).1
    have hz : ((new.run before).apply (.jump kind label)).run after = new.run ds := by
      rw [hds, run_append]
      rfl
    obtain ⟨more, rest, hmore, hplace, -⟩ := exists_mark ((new.run before).apply (.jump kind label)) after
      (fun offset known h => by rw [hunplaced] at h; cases h) (hz ▸ hlabel)
    have hle := (precedes_run ((new.run before).apply (.jump kind label)) more).offset_le
    rw [hplace, hemits.offset] at hle
    omega

end TemplateExpr.Assembler
