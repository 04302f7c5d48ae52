import Mathlib
import TemplateExpr.Proofs.Assembler.Label
import TemplateExpr.Proofs.Validation.Completeness

/-!
# Finished programs are valid

The assembler follows the height of the stack in one pass over its directives, and the validator follows the code that
has come of them. What the assembler tracks at the places that it takes for reachable are heights that every path
agrees with (`Closes.assigns`): the code that falls through to a place brings the height that is tracked there, and a
jump brings the one that is noted for its label. So the validator accepts what is finished (`validate_of_finish`).

There is one gap. Where a label is marked after an unconditional jump and no jump to it has come yet, the assembler
goes on with the height that it had, but does not note it for the label, and a later jump may bring another
(`looseMarks`). The theorem assumes that no jump does; without that it fails (`not_validate_of_looseMark`).
-/

namespace TemplateExpr.Assembler

/-! ### Labels of a sequence of directives -/

/-- Every label is made before it is named, if as many as given are made already. -/
def Named : Nat → List Directive → Bool
  | _, [] => true
  | made, .newLabel :: ds => Named (made + 1) ds
  | made, .mark label :: ds | made, .jump _ label :: ds => decide (label < made) && Named made ds
  | made, _ :: ds => Named made ds

/-- Labels that are marked where the code before does not fall through and no height is known, with the height with
which the assembler goes on. -/
def looseMarks : Assembler → List Directive → List (Nat × Nat)
  | _, [] => []
  | a, .mark label :: ds =>
    if a.reachable = false ∧ a.labels[label]? = some ⟨none, none⟩ then (label, a.depth) :: looseMarks (a.mark label) ds
    else looseMarks (a.mark label) ds
  | a, d :: ds => looseMarks (a.apply d) ds

/-- Labels that are jumped to where the jump can be reached, with the height that it brings. -/
def jumpHeights : Assembler → List Directive → List (Nat × Nat)
  | _, [] => []
  | a, .jump kind label :: ds =>
    if a.reachable then (label, (a.jump kind label).depth) :: jumpHeights (a.jump kind label) ds
    else jumpHeights (a.jump kind label) ds
  | a, d :: ds => jumpHeights (a.apply d) ds

variable {a z : Assembler} {ds before after : List Directive} {label made : Nat} {kind : JumpKind}

theorem mem_looseMarks (after : List Directive) (hr : (a.run before).reachable = false)
    (hl : (a.run before).labels[label]? = some ⟨none, none⟩) :
    (label, (a.run before).depth) ∈ looseMarks a (before ++ .mark label :: after) := by
  induction before generalizing a with
  | nil =>
    have hloose : a.reachable = false ∧ a.labels[label]? = some ⟨none, none⟩ := ⟨hr, hl⟩
    rw [List.nil_append, looseMarks, if_pos hloose]
    exact List.mem_cons_self
  | cons d before ih =>
    have hrest := ih hr hl
    cases d with
    | mark l =>
      rw [List.cons_append, looseMarks]
      split
      · exact List.mem_cons_of_mem _ hrest
      · exact hrest
    | _ => exact hrest

theorem mem_jumpHeights (kind : JumpKind) (label : Nat) (after : List Directive)
    (hr : (a.run before).reachable = true) :
    (label, ((a.run before).jump kind label).depth) ∈ jumpHeights a (before ++ .jump kind label :: after) := by
  induction before generalizing a with
  | nil =>
    have hreachable : a.reachable = true := hr
    rw [List.nil_append, jumpHeights, if_pos hreachable]
    exact List.mem_cons_self
  | cons d before ih =>
    have hrest := ih hr
    cases d with
    | jump k l =>
      rw [List.cons_append, jumpHeights]
      split
      · exact List.mem_cons_of_mem _ hrest
      · exact hrest
    | _ => exact hrest

/-- A label that is jumped to has been made. -/
theorem lt_size_of_named (h : Named made (before ++ .jump kind label :: after) = true) (hmade : made ≤ a.labels.size) :
    label < (a.run before).labels.size := by
  induction before generalizing a made with
  | nil =>
    rw [List.nil_append, Named, Bool.and_eq_true, decide_eq_true_eq] at h
    exact Nat.lt_of_lt_of_le h.1 hmade
  | cons d before ih =>
    have hgrow := (a.precedes_apply d).labels_size
    cases d with
    | newLabel =>
      have hone : made + 1 ≤ (a.apply .newLabel).labels.size := by simp [apply, newLabels, hmade]
      exact ih h hone
    | mark l =>
      rw [List.cons_append, Named, Bool.and_eq_true] at h
      exact ih h.2 (Nat.le_trans hmade hgrow)
    | jump k l =>
      rw [List.cons_append, Named, Bool.and_eq_true] at h
      exact ih h.2 (Nat.le_trans hmade hgrow)
    | _ => exact ih h (Nat.le_trans hmade hgrow)

/-! ### Heights -/

/-- The height that the assembler tracks at an offset, at a place that it takes for reachable. -/
def Tracks (ds : List Directive) (offset height : Nat) : Prop :=
  ∃ before after, ds = before ++ after ∧ (new.run before).reachable = true ∧ (new.run before).offset = offset ∧
    (new.run before).depth = height

namespace Closes

/-- As long as nothing is emitted, the height stays. -/
private theorem depth_of_offset (h : z.Closes) (ha : new.Precedes a) (hz : (a.run ds).Precedes z)
    (hr : a.reachable = true) (hoffset : (a.run ds).offset = a.offset) : (a.run ds).depth = a.depth := by
  induction ds generalizing a with
  | nil => rfl
  | cons d ds ih =>
    have hrest := (a.apply d).precedes_run ds
    obtain ⟨i, hi⟩ | hstays := h.emits_or_stays ha (hrest.trans hz)
    · -- an instruction takes up some code
      have hpos : 0 < i.size := Nat.succ_pos _
      have hle := hrest.offset_le
      rw [hi.offset] at hle
      rw [run_cons] at hoffset
      omega
    · obtain ⟨hreachable, hdepth⟩ := hstays.reachable hr
      rw [run_cons, ih (ha.trans (a.precedes_apply d)) hz hreachable (hoffset.trans hstays.offset.symm), hdepth]

/-- What is tracked at one offset is one height. -/
private theorem tracks_unique (h : z.Closes) (hz : new.run ds = z) {offset m n : Nat} (hm : Tracks ds offset m)
    (hn : Tracks ds offset n) : m = n := by
  obtain ⟨before, after, rfl, hr, hoffset, rfl⟩ := hm
  obtain ⟨before', after', heq, hr', hoffset', rfl⟩ := hn
  -- one of the two places comes first
  obtain ⟨more, rfl, rfl⟩ | ⟨more, rfl, rfl⟩ := List.append_eq_append_iff.1 heq
  · rw [run_append] at hoffset' ⊢
    refine (h.depth_of_offset (new.precedes_run before) ?_ hr (hoffset'.trans hoffset.symm)).symm
    rw [← hz, run_append, run_append]
    exact precedes_run _ _
  · rw [run_append] at hoffset ⊢
    refine h.depth_of_offset (new.precedes_run before') ?_ hr' (hoffset.trans hoffset'.symm)
    rw [← hz, run_append, run_append]
    exact precedes_run _ _

/-- A jump that can be reached brings its height to the place of its label. -/
private theorem tracks_jump (h : z.Closes) (hz : new.run ds = z) (hnamed : Named 0 ds = true)
    (hloose : ∀ m ∈ looseMarks new ds, ∀ j ∈ jumpHeights new ds, j.1 = m.1 → j.2 = m.2)
    (hds : ds = before ++ .jump kind label :: after) (hr : (new.run before).reachable = true) {target : Nat}
    {known : Option Nat} (htarget : z.labels[label]? = some ⟨some target, known⟩) :
    Tracks ds target ((new.run before).jump kind label).depth := by
  obtain ⟨before', after', heq, hoffset, known', hmark⟩ := exists_mark new ds (by simp [new])
    (hz ▸ htarget)
  have hjumped : ((new.run before).jump kind label).Precedes z := by
    rw [← hz, hds, run_append]
    exact precedes_run _ after
  have hmarked : ((new.run before').mark label).Precedes z := by
    rw [← hz, heq, run_append]
    exact precedes_run _ after'
  refine ⟨before' ++ [.mark label], after', by simp [heq], ?_, ?_, ?_⟩ <;> rw [run_append]
  · exact (h.depth_mark hmark hmarked).1
  · exact (offset_mark _ label).trans hoffset
  · change ((new.run before').mark label).depth = _
    obtain ⟨st, hst, hdepth⟩ | ⟨hout, rfl, hdepth⟩ := (h.depth_mark hmark hmarked).2
    · -- the label has one height in the end, and the jump and the mark agree with it
      obtain ⟨offset, hjump⟩ := h.depth_of_jump
        (lt_size_of_named (hds ▸ hnamed) (Nat.le_refl new.labels.size)) hjumped
      obtain ⟨st', hst', -, hdepth'⟩ := hjumped.labels label _ hjump
      rw [hst] at hst'
      cases hst'
      rw [hdepth' _ rfl] at hdepth
      exact (Option.some.inj hdepth).symm
    · have hmark := mem_looseMarks (a := new) after' hout hmark
      have hjump := mem_jumpHeights (a := new) kind label after hr
      rw [← heq] at hmark
      rw [← hds] at hjump
      rw [hdepth]
      exact (hloose _ hmark _ hjump rfl).symm

/-- At a place that can be reached, the instruction that comes next finds its slots and leads to places with the height
that it leaves. -/
private theorem settled (h : z.Closes) (hz : new.run ds = z) (hdepth : z.depth = 1) (hhalt : .emit .halt ∉ ds)
    (hjumps : ∀ before after kind label target known, ds = before ++ .jump kind label :: after →
      (new.run before).reachable = true → z.labels[label]? = some ⟨some target, known⟩ →
      Tracks ds target ((new.run before).jump kind label).depth)
    (hds : ds = before ++ after) (hr : (new.run before).reachable = true) :
    ∃ i e, z.close.bytecode.fetch (new.run before).offset = .instruction i ∧ i.stackEffect? = some e ∧
      e.pops ≤ (new.run before).depth ∧ (i.opcode = .halt → (new.run before).depth - e.pops + e.pushes = 1) ∧
        ∀ next ∈ Bytecode.successors ⟨(new.run before).offset, i⟩,
          Tracks ds next ((new.run before).depth - e.pops + e.pushes) := by
  induction after generalizing before with
  | nil =>
    rw [List.append_nil] at hds
    subst hds
    rw [hz]
    exact ⟨⟨.halt, ()⟩, ⟨0, 0⟩, h.fetch_halt, rfl, Nat.zero_le _, fun _ => hdepth, nofun⟩
  | cons d after ih =>
    have hds' : ds = (before ++ [d]) ++ after := by simp [hds]
    have happly : new.run (before ++ [d]) = (new.run before).apply d := run_append ..
    have hprecedes : ((new.run before).apply d).Precedes z := by
      rw [← hz, hds', run_append, happly]
      exact precedes_run _ after
    obtain ⟨i, hi⟩ | hstays := h.emits_or_stays (new.precedes_run before) hprecedes
    · obtain ⟨e, he, hpops, hafter⟩ := hi.depth
      refine ⟨i, e, hi.fetch, he, hpops, fun hopcode => ?_, fun next hnext => ?_⟩
      · -- a halt that is emitted is a directive of its own
        refine absurd ?_ hhalt
        rw [hds, hi.halt hopcode]
        exact List.mem_append_right _ List.mem_cons_self
      · rw [← hafter]
        obtain ⟨-, ⟨rfl, hjump⟩ | ⟨dist, hdist, rfl⟩⟩ := Bytecode.mem_successors_iff.1 hnext
        · refine ⟨before ++ [d], after, hds', ?_, ?_, ?_⟩ <;> rw [happly]
          · exact hi.reachable.2 ⟨hr, hjump⟩
          · exact hi.offset
        · obtain ⟨kind, label, target, known, rfl, hlabel, htarget⟩ := hi.jump dist hdist
          have hplace : (((Placed.mk (new.run before).offset i).stop : Int) + dist).toNat = target := by
            change ((((new.run before).offset + i.size : Nat) : Int) + dist).toNat = target
            rw [htarget, Int.toNat_natCast]
          rw [hplace]
          exact hjumps before after kind label target known hds hr hlabel
    · obtain ⟨hreachable, hsame⟩ := hstays.reachable hr
      have hrest := ih hds' (happly ▸ hreachable)
      rw [happly, hstays.offset, hsame] at hrest
      exact hrest

theorem assigns (h : z.Closes) (hz : new.run ds = z) (hdepth : z.depth = 1) (hnamed : Named 0 ds = true)
    (hhalt : .emit .halt ∉ ds)
    (hloose : ∀ m ∈ looseMarks new ds, ∀ j ∈ jumpHeights new ds, j.1 = m.1 → j.2 = m.2) :
    z.close.bytecode.Assigns (Tracks ds) where
  start := ⟨[], ds, rfl, rfl, rfl, rfl⟩
  unique := h.tracks_unique hz
  settled := by
    rintro offset n ⟨before, after, hds, hr, rfl, rfl⟩
    exact h.settled hz hdepth hhalt
      (fun _ _ _ _ _ _ hds hr htarget => h.tracks_jump hz hnamed hloose hds hr htarget) hds hr

/-- A jump leads to an instruction that is listed. -/
theorem exists_target {ps : List Placed} (hps : Lists z new ds ps) (hz : new.run ds = z) {p : Placed}
    (hp : p ∈ ps) {dist : Int} (hdist : Bytecode.jumpDistance? p.instruction = some dist) :
    ∃ q ∈ ps, (q.offset : Int) = p.stop + dist := by
  obtain rfl | ⟨before, d, after, -, hoffset, hemits⟩ := hps.exists_emits hp
  · cases hdist
  · obtain ⟨kind, label, target, known, -, hlabel, htarget⟩ := hemits.jump dist hdist
    obtain ⟨before', after', heq, hplace, -⟩ := exists_mark new ds (by simp [new]) (hz ▸ hlabel)
    obtain ⟨qs, hqs, hlists⟩ := (heq ▸ hps).of_append
    obtain ⟨q, hq, hqoffset⟩ := hlists.exists_head
    refine ⟨q, hqs.mem hq, ?_⟩
    rw [hqoffset, hplace, ← htarget, Placed.stop, hoffset]

theorem validate (h : z.Closes) (hz : new.run ds = z) (hdepth : z.depth = 1) (hnamed : Named 0 ds = true)
    (hhalt : .emit .halt ∉ ds)
    (hloose : ∀ m ∈ looseMarks new ds, ∀ j ∈ jumpHeights new ds, j.1 = m.1 → j.2 = m.2) :
    z.close.bytecode.validate = .ok () := by
  obtain ⟨ps, hps⟩ := h.exists_lists (.refl new) hz
  refine Bytecode.validate_of_assigns (hps.splits h) ⟨_, hps.getLast?_eq, rfl⟩ ?_ ?_
    (h.assigns hz hdepth hnamed hhalt hloose)
  · exact fun p hp dist hdist => exists_target hps hz hp hdist
  · intro p hp
    obtain rfl | ⟨before, d, after, -, -, hemits⟩ := hps.exists_emits hp
    · rfl
    · exact hemits.operand

end Closes

/-- If the assembler ends with one value and reports no error, the validator accepts what it has built: provided that
directives name the labels that they have made and do not halt, and that a label that was marked out of reach is only
jumped to with the height with which the assembler went on there. -/
theorem validate_of_finish {b : Bytecode} (hfinish : (new.run ds).finish = .ok b) (hdepth : (new.run ds).depth = 1)
    (hnamed : Named 0 ds = true) (hhalt : .emit .halt ∉ ds)
    (hloose : ∀ m ∈ looseMarks new ds, ∀ j ∈ jumpHeights new ds, j.1 = m.1 → j.2 = m.2) : b.validate = .ok () := by
  obtain ⟨hcloses, rfl⟩ := Closes.of_finish (new.precedes_run ds) hfinish
  exact hcloses.validate rfl hdepth hnamed hhalt hloose

/-- The label 1 is marked out of reach, and the jump back to it brings the height with which the assembler has gone on
there. -/
def steadyLoop : List Directive :=
  [.newLabel, .newLabel, .jump .always 0, .mark 1, .pushNull, .emit .pop, .mark 0, .pushBool true, .jump .ifTrue 1,
    .pushNull]

theorem validate_of_finish_steadyLoop :
    looseMarks new steadyLoop = [(1, 0)] ∧ ∃ b, (new.run steadyLoop).finish = .ok b ∧ b.validate = .ok () := by
  refine ⟨rfl, ?_⟩
  obtain ⟨b, hb⟩ : ∃ b, (new.run steadyLoop).finish = .ok b := ⟨_, rfl⟩
  refine ⟨b, hb, validate_of_finish hb rfl rfl ?_ ?_⟩
  · simp [steadyLoop]
  · decide

/-- The same without the code between the labels, and the jump back to the label 1 brings one value more. -/
def growingLoop : List Directive :=
  [.newLabel, .newLabel, .jump .always 0, .mark 1, .mark 0, .pushNull, .pushBool true, .jump .ifTrue 1]

/-- The assembler reports nothing, although two paths bring different heights to a label. -/
theorem not_validate_of_looseMark : ∃ b, (new.run growingLoop).finish = .ok b ∧ (new.run growingLoop).depth = 1 ∧
    Named 0 growingLoop = true ∧ .emit .halt ∉ growingLoop ∧ b.validate = .error [⟨3, .inconsistentDepth 0 1⟩] := by
  refine ⟨⟨#[0x50, 0, 0, 0x01, 0x02, 0x52, 0xFF, 0xFB, 0xFF], #[],
    #[⟨0, .dummy⟩, ⟨3, .dummy⟩, ⟨4, .dummy⟩, ⟨5, .dummy⟩, ⟨8, .dummy⟩]⟩, ?_, rfl, rfl, ?_, ?_⟩
  · rfl
  · simp [growingLoop]
  · cbv

end TemplateExpr.Assembler
