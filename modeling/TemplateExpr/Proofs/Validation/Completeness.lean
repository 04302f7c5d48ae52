import TemplateExpr.Proofs.Validation.Heights
import TemplateExpr.Proofs.Validation.Splitting

/-!
# Programs that the validator accepts

The validator finds nothing wrong with code that consists of instructions and ends with a halt, whose jumps lead to
instructions and whose operands name what they should, if there are heights of the stack that every path agrees with
(`validate_of_assigns`).

The worklist only ever gives an offset a height that agrees with such an assignment, so it never meets two
(`errors_of_assigns`). Nothing is asked of code that no path comes to.
-/

namespace TemplateExpr.Bytecode

/-- Heights of the stack at offsets, from zero at the start: where an instruction has a height, there are the slots
that it takes, it halts with one, and wherever it may lead has the height that it leaves. -/
structure Assigns (b : Bytecode) (height : Nat → Nat → Prop) : Prop where
  start : height 0 0
  unique : ∀ {offset m n : Nat}, height offset m → height offset n → m = n
  settled : ∀ {offset n : Nat}, height offset n → ∃ i e, b.fetch offset = .instruction i ∧ i.stackEffect? = some e ∧
    e.pops ≤ n ∧ (i.opcode = .halt → n - e.pops + e.pushes = 1) ∧
      ∀ next ∈ successors ⟨offset, i⟩, height next (n - e.pops + e.pushes)

variable {b : Bytecode} {ps : List Placed}

/-! ### The single checks -/

/-- Code that consists of instructions is split into these. -/
private theorem splitFrom_of_splits {offset : Nat} (h : b.Splits offset ps) (found : Array Placed)
    (errors : Array ValidationError) : b.splitFrom offset found errors = (found ++ ps.toArray, errors) := by
  induction h generalizing found with
  | stop =>
    rw [splitFrom, if_neg (Nat.lt_irrefl _)]
    simp
  | @next offset i ps hfetch _ ih =>
    rw [splitFrom, if_pos (offset_lt_of_fetch hfetch)]
    simp only [hfetch, ih]
    simp

theorem split_of_splits (h : b.Splits 0 ps) : b.split = (ps.toArray, #[]) := by
  rw [split, splitFrom_of_splits h]
  simp

/-- A start that is marked stays marked. -/
private theorem starts_list_of_mem {marks : Array Bool} {offset : Nat} (hlt : offset < marks.size)
    (h : marks[offset]? = some true ∨ ∃ p ∈ ps, p.offset = offset) :
    (ps.foldl (fun marks p => marks.setIfInBounds p.offset true) marks)[offset]? = some true := by
  induction ps generalizing marks with
  | nil =>
    obtain h | ⟨p, hp, -⟩ := h
    · exact h
    · cases hp
  | cons p ps ih =>
    refine ih (by rwa [Array.size_setIfInBounds]) ?_
    by_cases hp : p.offset = offset
    · subst hp
      exact .inl (Array.getElem?_setIfInBounds_self_of_lt hlt)
    · obtain h | ⟨q, hq, hoffset⟩ := h
      · left
        rwa [Array.getElem?_setIfInBounds_ne hp]
      · obtain rfl | hq := List.mem_cons.1 hq
        · exact absurd hoffset hp
        · exact .inr ⟨q, hq, hoffset⟩

@[simp] theorem size_starts (placed : Array Placed) : (b.starts placed).size = b.code.size := by
  have hlist : ∀ (qs : List Placed) (marks : Array Bool),
      (qs.foldl (fun marks p => marks.setIfInBounds p.offset true) marks).size = marks.size := by
    intro qs
    induction qs with
    | nil => exact fun _ => rfl
    | cons q qs ih => exact fun marks => (ih _).trans Array.size_setIfInBounds
  unfold starts
  rw [← Array.foldl_toList, hlist, Array.size_replicate]

/-- Where an instruction was found, a start is marked. -/
theorem starts_of_mem {p : Placed} (hp : p ∈ ps) (hlt : p.offset < b.code.size) :
    (b.starts ps.toArray)[p.offset]? = some true := by
  unfold starts
  rw [← Array.foldl_toList]
  exact starts_list_of_mem (by rwa [Array.size_replicate]) (.inr ⟨p, hp, rfl⟩)

/-- A check that finds nothing wrong adds no error. -/
private theorem collect_eq {check : Placed → Option Defect} (h : ∀ p ∈ ps, check p = none)
    (errors : Array ValidationError) : collect check ps.toArray errors = errors := by
  unfold collect
  rw [← Array.foldl_toList]
  induction ps with
  | nil => rfl
  | cons p ps ih =>
    have hp := h p List.mem_cons_self
    simp only [List.foldl_cons, hp]
    exact ih fun q hq => h q (List.mem_cons_of_mem _ hq)

/-! ### Heights -/

/-- Pending places and heights that agree with an assignment lead to no error. -/
private theorem follow_of_assigns {height : Nat → Nat → Prop} (h : b.Assigns height) {pending : List (Nat × Nat)}
    {heights : Array (Option Nat)} {errors : Array ValidationError} (hpending : ∀ p ∈ pending, height p.1 p.2)
    (hheights : ∀ offset n : Nat, heights[offset]? = some (some n) → height offset n) :
    (b.follow pending heights errors).2 = errors := by
  fun_induction follow with
  | case1 => rfl
  | case2 _ _ _ _ _ _ ih => exact ih (fun p hp => hpending p (List.mem_cons_of_mem _ hp)) hheights
  | case3 _ _ _ _ _ _ ih => exact ih (fun p hp => hpending p (List.mem_cons_of_mem _ hp)) hheights
  | case4 heights errors offset n pending seen hseen hne ih =>
    exact absurd (h.unique (hheights _ _ hseen) (hpending _ List.mem_cons_self)) hne
  | case5 heights errors offset n pending hoffset hlt _ _ i hi he ih =>
    obtain ⟨j, e, hj, hje, -⟩ := h.settled (hpending _ List.mem_cons_self)
    rw [hi] at hj
    cases hj
    rw [he] at hje
    cases hje
  | case6 heights errors offset n pending hoffset hlt _ _ i hi effect he hpops ih =>
    obtain ⟨j, e, hj, hje, hle, -⟩ := h.settled (hpending _ List.mem_cons_self)
    rw [hi] at hj
    cases hj
    rw [he] at hje
    cases hje
    exact absurd hpops (Nat.not_lt.2 hle)
  | case7 heights errors offset n pending hoffset hlt _ _ i hi effect he hpops after errors' ih =>
    have hhere := hpending _ List.mem_cons_self
    obtain ⟨j, e, hj, hje, -, hhalt, hnext⟩ := h.settled hhere
    rw [hi] at hj
    cases hj
    rw [he] at hje
    cases hje
    have herrors : errors' = errors := by
      simp only [errors']
      rw [dif_neg]
      rintro ⟨hhalt', hafter⟩
      exact hafter (hhalt hhalt')
    rw [← herrors]
    refine ih ?_ ?_
    · intro p hp
      obtain hp | hp := List.mem_append.1 hp
      · obtain ⟨next, hmem, rfl⟩ := List.mem_map.1 hp
        exact hnext next hmem
      · exact hpending p (List.mem_cons_of_mem _ hp)
    · intro o m ho
      by_cases heq : offset = o
      · subst heq
        rw [Array.getElem?_set_self] at ho
        cases ho
        exact hhere
      · rw [Array.getElem?_set_ne _ heq] at ho
        exact hheights o m ho
  | case8 heights errors offset n pending hoffset hlt _ _ hi ih =>
    obtain ⟨j, e, hj, -⟩ := h.settled (hpending _ List.mem_cons_self)
    exact absurd hj (hi j)

theorem errors_of_assigns {height : Nat → Nat → Prop} (h : b.Assigns height) (errors : Array ValidationError) :
    (b.heights errors).2 = errors := by
  refine follow_of_assigns h ?_ ?_
  · intro p hp
    obtain rfl := List.mem_singleton.1 hp
    exact h.start
  · intro offset n hn
    rw [Array.getElem?_replicate] at hn
    split at hn <;> cases hn

/-! ### All checks -/

/-- The target of a jump is no defect if an instruction stands there. -/
theorem jumpDefect?_of_mem (hsplits : b.Splits 0 ps) {p : Placed}
    (hp : ∀ d, jumpDistance? p.instruction = some d → ∃ q ∈ ps, (q.offset : Int) = p.stop + d) :
    jumpDefect? (b.starts ps.toArray) p = none := by
  unfold jumpDefect?
  cases hd : jumpDistance? p.instruction with
  | none => rfl
  | some d =>
    obtain ⟨q, hq, htarget⟩ := hp d hd
    have hlt := offset_lt_of_fetch (hsplits.fetch_of_mem hq)
    simp only [Option.bind_some, ← htarget, Int.toNat_natCast, starts_of_mem hq hlt, size_starts, if_true]
    rw [if_neg (by omega)]

/-- Code with nothing wrong is accepted. -/
theorem validate_of_assigns {height : Nat → Nat → Prop} (hsplits : b.Splits 0 ps)
    (hlast : ∃ p, ps.getLast? = some p ∧ p.instruction.opcode = .halt)
    (hjumps : ∀ p ∈ ps, ∀ d, jumpDistance? p.instruction = some d → ∃ q ∈ ps, (q.offset : Int) = p.stop + d)
    (hoperands : ∀ p ∈ ps, operandDefect? b.constants p.instruction = none) (hheights : b.Assigns height) :
    b.validate = .ok () := by
  have hsplit := split_of_splits hsplits
  have hterminator : terminatorErrors ps.toArray = [] := by
    obtain ⟨p, hp, hhalt⟩ := hlast
    simp [terminatorErrors, hp, hhalt]
  have hnone : b.validationErrors = [] := by
    unfold validationErrors
    rw [hsplit]
    dsimp only
    rw [collect_eq fun p hp => jumpDefect?_of_mem hsplits (hjumps p hp), collect_eq hoperands, hterminator]
    simp [errors_of_assigns hheights]
  unfold validate
  rw [hnone]

end TemplateExpr.Bytecode
