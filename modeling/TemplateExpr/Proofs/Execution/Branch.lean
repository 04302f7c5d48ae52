import TemplateExpr.Proofs.Execution.Setting

/-!
# Code that branches

A jump takes its bool off the stack and leads to the place where its label is marked, which is after it. Two shapes of
code are made of such jumps:

* one of two pieces is run, and both end at the same place (`Runs.branch`);
* a piece is run or skipped (`Runs.skip`).
-/

namespace TemplateExpr

/-- Whether a conditional jump is taken. -/
def JumpKind.taken (b : Bool) : JumpKind → Bool
  | always => true
  | ifFalse => !b
  | ifTrue => b

namespace Setting

open Evaluation Assembler

variable {σ : Type} {E : Setting σ} {a b : Assembler} {S : Stack} {w : World σ} {s : State σ} {kind : JumpKind}
  {label : Nat}

/-! ### Labels -/

/-- At a label that a jump leads to, the run goes on as before. -/
theorem Outcome.mark {r : Except Failure Stack × World σ} {placed : Option Nat} {depth : Nat} (h : E.Outcome a b S s r)
    (hl : b.labels[label]? = some ⟨placed, some depth⟩) (hb : (b.mark label).Precedes E.last) :
    E.Outcome a (b.mark label) S s r := by
  obtain ⟨hreachable, hdepth, heq, -⟩ := E.closes.mark hl hb
  rcases r with ⟨e | T, w⟩
  · exact h.error (Nat.le_of_eq (offset_mark b label).symm)
  · obtain ⟨hr, hheight, hleads⟩ := h
    refine ⟨hreachable, by rw [hdepth, ← heq hr]; exact hheight, ?_⟩
    refine hleads.mono (Nat.le_refl _) (Nat.le_of_eq (offset_mark b label).symm) (fun t ht => ?_) fun _ _ _ h => h
    exact ⟨ht.stack, by rw [offset_mark, ht.ip], ht.host, ht.calls⟩

/-! ### Jumps -/

/-- Where a jump stands in the finished program, and where it leads. -/
private theorem fetch_jump (ha : Begins a) (hb : (a.jump kind label).Precedes E.last) {target : Nat}
    {depth : Option Nat} (hl : E.last.labels[label]? = some ⟨some target, depth⟩) (hs : At a S w s) :
    ∃ d, jumpTarget (s.ip + 3) d = target ∧ E.context.bytecode.fetch s.ip = .instruction (kind.instruction d) := by
  obtain ⟨d, target', depth', hl', htarget, hfetch⟩ := E.closes.fetch_jump ha.begun hb
  rw [hl] at hl'
  cases hl'
  exact ⟨d, by rw [hs.ip]; exact htarget, by rw [E.bytecode_eq, hs.ip]; exact hfetch⟩

/-- A conditional jump goes on after it or at its label. -/
theorem step_jump (ha : Begins a) (hkind : kind ≠ .always) (hb : (a.jump kind label).Precedes E.last) {target : Nat}
    {depth : Option Nat} (hl : E.last.labels[label]? = some ⟨some target, depth⟩) {taken : Bool}
    (hs : At a (S.push (.bool taken)) w s) : E.context.step E.natives s =
      .running ⟨S, if kind.taken taken then target else a.offset + 3, s.ip, s.host, s.calls⟩ := by
  obtain ⟨d, htarget, hfetch⟩ := fetch_jump ha hb hl hs
  rw [Context.step_instruction E.natives hfetch, hs.stack, size_jump, ← htarget, ← hs.ip]
  cases kind with
  | always => exact absurd rfl hkind
  | ifFalse => cases taken <;> rfl
  | ifTrue => cases taken <;> rfl

/-- An unconditional jump goes on at its label. -/
theorem step_always (ha : Begins a) (hb : (a.jump .always label).Precedes E.last) {target : Nat} {depth : Option Nat}
    (hl : E.last.labels[label]? = some ⟨some target, depth⟩) (hs : At a S w s) :
    E.context.step E.natives s = .running ⟨S, target, s.ip, s.host, s.calls⟩ := by
  obtain ⟨d, htarget, hfetch⟩ := fetch_jump ha hb hl hs
  rw [Context.step_instruction E.natives hfetch, hs.stack, size_jump, ← htarget]
  rfl

/-- A label that a jump leads to, as it is when it is marked. -/
private theorem label_at_mark (hl : label < a.labels.size) (hab : (a.jump kind label).Precedes b)
    (hb : b.Precedes E.last) :
    ∃ placed, b.labels[label]? = some ⟨placed, some (a.jump kind label).depth⟩ := by
  obtain ⟨placed, hjump⟩ := E.closes.depth_of_jump hl (hab.trans hb)
  obtain ⟨⟨placed', depth⟩, hlater, -, hknown⟩ := hab.labels label _ hjump
  cases hknown _ rfl
  exact ⟨placed', hlater⟩

/-- A conditional jump that is not taken. -/
theorem Outcome.untaken (ha : Begins a) (hkind : kind ≠ .always) (hl : label < a.labels.size)
    (hab : (a.jump kind label).Precedes b) (hb : (b.mark label).Precedes E.last) {taken : Bool}
    (htaken : kind.taken taken = false) (hs : At a (S.push (.bool taken)) w s) :
    E.Outcome a (a.jump kind label) (S.push (.bool taken)) s (.ok S, w) := by
  have hmark := (precedes_mark b label).trans hb
  obtain ⟨placed, hplaced⟩ := label_at_mark hl hab hmark
  obtain ⟨-, -, -, d, htarget⟩ := E.closes.mark hplaced hb
  have hstep := step_jump ha hkind (hab.trans hmark) htarget hs
  rw [htaken] at hstep
  have hdepth := E.closes.depth_conditional hkind (hab.trans hmark)
  refine Outcome.of_step hs hstep ?_ ?_ ?_ ?_
  · exact ⟨rfl, by rw [offset_jump]; rfl, hs.host, hs.calls⟩
  · rw [offset_jump]
    omega
  · simp [ha.reachable, hkind]
  · rw [Stack.height_push]
    omega

/-- A conditional jump that is taken leads to the place of its label. -/
theorem Outcome.taken (ha : Begins a) (hkind : kind ≠ .always) (hl : label < a.labels.size)
    (hab : (a.jump kind label).Precedes b) (hb : (b.mark label).Precedes E.last) {taken : Bool}
    (htaken : kind.taken taken = true) (hs : At a (S.push (.bool taken)) w s) :
    E.Outcome a (b.mark label) (S.push (.bool taken)) s (.ok S, w) := by
  have hmark := (precedes_mark b label).trans hb
  obtain ⟨placed, hplaced⟩ := label_at_mark hl hab hmark
  obtain ⟨hreachable, hheight, -, d, htarget⟩ := E.closes.mark hplaced hb
  have hstep := step_jump ha hkind (hab.trans hmark) htarget hs
  rw [htaken] at hstep
  have hdepth := E.closes.depth_conditional hkind (hab.trans hmark)
  have hoffset := hab.offset_le
  rw [offset_jump] at hoffset
  refine Outcome.of_step hs hstep ?_ ?_ hreachable ?_
  · exact ⟨rfl, by rw [offset_mark]; rfl, hs.host, hs.calls⟩
  · rw [offset_mark]
    omega
  · rw [Stack.height_push, hheight]
    omega

/-- An unconditional jump leads to the place of its label. -/
theorem Outcome.always (ha : Begins a) (hl : label < a.labels.size) (hab : (a.jump .always label).Precedes b)
    (hb : (b.mark label).Precedes E.last) (hs : At a S w s) : E.Outcome a (b.mark label) S s (.ok S, w) := by
  have hmark := (precedes_mark b label).trans hb
  obtain ⟨placed, hplaced⟩ := label_at_mark hl hab hmark
  obtain ⟨hreachable, hheight, -, d, htarget⟩ := E.closes.mark hplaced hb
  have hstep := step_always ha (hab.trans hmark) htarget hs
  have hdepth := E.closes.depth_always (hab.trans hmark)
  have hoffset := hab.offset_le
  rw [offset_jump] at hoffset
  refine Outcome.of_step hs hstep ?_ ?_ hreachable (by rw [hheight, hdepth])
  · exact ⟨rfl, by rw [offset_mark], hs.host, hs.calls⟩
  · rw [offset_mark]
    omega

/-! ### Shapes of code -/

/-- Runs one of two pieces: the first if the jump is not taken, and the second if it is. -/
theorem Runs.branch {c : Assembler} {label' : Nat} {m m' : Evaluation σ Stack} (hkind : kind ≠ .always)
    (hl : label < a.labels.size) (hl' : label' < a.labels.size) (hab : (a.jump kind label).Precedes b)
    (hbc : ((b.jump .always label').mark label).Precedes c) (hkeeps : (a.jump kind label).Keeps b)
    (hm : E.Runs (a.jump kind label) b S m) (hm' : E.Runs ((b.jump .always label').mark label) c S m') (taken : Bool) :
    E.Runs a (c.mark label') (S.push (.bool taken)) (if kind.taken taken then m' else m) := by
  intro ha hc w s hs
  have hskip : (b.jump .always label').Precedes c := (precedes_mark _ label).trans hbc
  have hlast : c.Precedes E.last := (precedes_mark c label').trans hc
  have hjump : (a.jump kind label).Precedes (b.jump .always label') := hab.trans (precedes_jump b .always label')
  have hl'' : label' < b.labels.size :=
    Nat.lt_of_lt_of_le hl' ((precedes_jump a kind label).trans hab).labels_size
  obtain ⟨placed, hplaced⟩ := label_at_mark (E := E) hl'' hskip hlast
  cases htaken : kind.taken taken with
  | true =>
    -- the second piece is entered at its label, and the code before does not fall through
    rw [if_pos rfl]
    have hfirst := Outcome.taken ha hkind hl hjump (hbc.trans hlast) htaken hs
    have hkeep : a.Keeps ((b.jump .always label').mark label) :=
      (((keeps_jump a kind label).trans hkeeps).trans (keeps_jump b .always label')).trans (keeps_mark _ label)
    have hprecedes : a.Precedes ((b.jump .always label').mark label) :=
      ((precedes_jump a kind label).trans hjump).trans (precedes_mark _ label)
    refine Outcome.mark ?_ hplaced hc
    refine hfirst.trans (fun t ht => ?_) hprecedes.offset_le hbc.offset_le hkeep
    exact hm' (ha.of_precedes hprecedes hfirst.1) hlast w t ht
  | false =>
    -- the first piece is run, and then the second one is jumped over
    rw [if_neg Bool.false_ne_true]
    have hfirst := Outcome.untaken ha hkind hl hjump (hbc.trans hlast) htaken hs
    have hprecedes := precedes_jump a kind label
    have hpiece : E.Outcome a b (S.push (.bool taken)) s (m w) := by
      refine hfirst.trans (fun t ht => ?_) hprecedes.offset_le hab.offset_le (keeps_jump a kind label)
      exact hm (ha.of_precedes hprecedes hfirst.1) ((precedes_jump b .always label').trans (hskip.trans hlast)) w t ht
    have hend : b.offset ≤ (c.mark label').offset :=
      ((precedes_jump b .always label').trans (hskip.trans (precedes_mark c label'))).offset_le
    rcases hmw : m w with ⟨e | T, w'⟩
    · rw [hmw] at hpiece
      exact hpiece.error hend
    · rw [hmw] at hpiece
      refine hpiece.trans (fun t ht => ?_) (hprecedes.trans hab).offset_le hend ((keeps_jump a kind label).trans hkeeps)
      exact Outcome.always (ha.of_precedes (hprecedes.trans hab) hpiece.1) hl'' hskip hc ht

/-- Runs a piece, or skips it if the jump is taken. -/
theorem Runs.skip {m : Evaluation σ Stack} (hkind : kind ≠ .always) (hl : label < a.labels.size)
    (hab : (a.jump kind label).Precedes b) (hm : E.Runs (a.jump kind label) b S m) (taken : Bool) :
    E.Runs a (b.mark label) (S.push (.bool taken)) (if kind.taken taken then pure S else m) := by
  intro ha hb w s hs
  have hlast : b.Precedes E.last := (precedes_mark b label).trans hb
  cases htaken : kind.taken taken with
  | true =>
    rw [if_pos rfl]
    exact Outcome.taken ha hkind hl hab hb htaken hs
  | false =>
    rw [if_neg Bool.false_ne_true]
    have hfirst := Outcome.untaken ha hkind hl hab hb htaken hs
    have hprecedes := precedes_jump a kind label
    obtain ⟨placed, hplaced⟩ := label_at_mark (E := E) hl hab hlast
    refine Outcome.mark ?_ hplaced hb
    refine hfirst.trans (fun t ht => ?_) hprecedes.offset_le hab.offset_le (keeps_jump a kind label)
    exact hm (ha.of_precedes hprecedes hfirst.1) hlast w t ht

end Setting

end TemplateExpr
