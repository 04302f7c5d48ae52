import TemplateExpr.Bytecode.Validation

/-!
# The heights that the validator computes

The worklist gives a height to every offset that it reaches. If it finds no error, the heights are a fixed point of
the control flow: an offset that has one has enough slots for its instruction, and the places that may come next have
the height that the instruction leaves (`Settled`).

A pass of the worklist keeps the heights that are there, gives every pending place its height, and settles every
offset that it adds (`Completes`); `completes_of_follow` is the induction over the passes.
-/

namespace TemplateExpr.Bytecode

/-- The instruction at an offset has enough slots, halts with one, and what may come next has the height that it
leaves. -/
def Settled (b : Bytecode) (heights : Array (Option Nat)) (offset height : Nat) : Prop :=
  ∀ i e, b.fetch offset = .instruction i → i.stackEffect? = some e →
    e.pops ≤ height ∧ (i.opcode = .halt → height - e.pops + e.pushes = 1) ∧
      ∀ next ∈ successors ⟨offset, i⟩, next < heights.size →
        heights[next]? = some (some (height - e.pops + e.pushes))

/-- The heights that are there stay, pending places get theirs, and all that is added is settled. -/
structure Completes (b : Bytecode) (pending : List (Nat × Nat)) (heights result : Array (Option Nat)) : Prop where
  size_eq : result.size = heights.size
  keeps : ∀ offset height : Nat, heights[offset]? = some (some height) → result[offset]? = some (some height)
  reaches : ∀ p ∈ pending, p.1 < heights.size → result[p.1]? = some (some p.2)
  settles : ∀ offset height : Nat, result[offset]? = some (some height) →
    heights[offset]? = some (some height) ∨ b.Settled result offset height

variable {b : Bytecode}

/-- Errors are only added. -/
theorem errors_of_follow {pending : List (Nat × Nat)} {heights : Array (Option Nat)}
    {errors : Array ValidationError} (h : (b.follow pending heights errors).2 = #[]) : errors = #[] := by
  fun_induction follow with
  | case1 => exact h
  | case2 _ _ _ _ _ _ ih => exact ih h
  | case3 _ _ _ _ _ _ ih => exact ih h
  | case4 _ _ _ _ _ _ _ _ ih =>
    have := ih h
    simp at this
  | case5 _ _ _ _ _ _ _ _ _ _ _ _ ih => exact ih h
  | case6 _ _ _ _ _ _ _ _ _ _ _ _ _ _ ih =>
    have := ih h
    simp at this
  | case7 _ _ _ _ _ _ _ _ _ _ _ _ _ _ _ errors' ih =>
    have := ih h
    simp only [errors'] at this
    split at this
    · simp at this
    · exact this
  | case8 _ _ _ _ _ _ _ _ _ _ ih => exact ih h

namespace Completes

variable {pending : List (Nat × Nat)} {heights result : Array (Option Nat)} {offset height : Nat}

/-- A pending place outside the code needs nothing. -/
theorem skip (h : b.Completes pending heights result) (hoffset : heights[offset]? = none) :
    b.Completes ((offset, height) :: pending) heights result := by
  refine ⟨h.size_eq, h.keeps, ?_, h.settles⟩
  intro p hp hlt
  obtain rfl | hp := List.mem_cons.1 hp
  · exact absurd hlt (Nat.not_lt.2 (Array.getElem?_eq_none_iff.1 hoffset))
  · exact h.reaches p hp hlt

/-- A pending place that has its height needs nothing. -/
theorem again (h : b.Completes pending heights result) (hoffset : heights[offset]? = some (some height)) :
    b.Completes ((offset, height) :: pending) heights result := by
  refine ⟨h.size_eq, h.keeps, ?_, h.settles⟩
  intro p hp hlt
  obtain rfl | hp := List.mem_cons.1 hp
  · exact h.keeps _ _ hoffset
  · exact h.reaches p hp hlt

/-- A place that gets its height is settled if its successors are pending. -/
theorem place {more : List (Nat × Nat)} (hlt : offset < heights.size) (hoffset : heights[offset]? = some none)
    (h : b.Completes (more ++ pending) (heights.set offset (some height) hlt) result)
    (hsettled : ∀ i e, b.fetch offset = .instruction i → i.stackEffect? = some e → e.pops ≤ height ∧
      (i.opcode = .halt → height - e.pops + e.pushes = 1) ∧
        ∀ next ∈ successors ⟨offset, i⟩, (next, height - e.pops + e.pushes) ∈ more) :
    b.Completes ((offset, height) :: pending) heights result := by
  have hsize : result.size = heights.size := by rw [h.size_eq, Array.size_set]
  have hhere : result[offset]? = some (some height) := by
    apply h.keeps
    rw [Array.getElem?_set_self]
  refine ⟨hsize, ?_, ?_, ?_⟩
  · -- the place had no height that could be lost
    intro o n ho
    apply h.keeps
    have hne : offset ≠ o := by
      rintro rfl
      rw [hoffset] at ho
      cases ho
    rw [Array.getElem?_set_ne _ hne]
    exact ho
  · intro p hp hplt
    obtain rfl | hp := List.mem_cons.1 hp
    · exact hhere
    · exact h.reaches p (List.mem_append_right _ hp) (by rw [Array.size_set]; exact hplt)
  · intro o n ho
    obtain hset | hset := h.settles o n ho
    · by_cases heq : offset = o
      · -- the place itself is settled because its successors will be reached
        subst heq
        rw [hhere] at ho
        cases ho
        right
        intro i e hi he
        obtain ⟨hpops, hhalt, hnext⟩ := hsettled i e hi he
        refine ⟨hpops, hhalt, fun next hmem hlt' => ?_⟩
        exact h.reaches _ (List.mem_append_left _ (hnext next hmem)) (by rw [Array.size_set, ← hsize]; exact hlt')
      · rw [Array.getElem?_set_ne _ heq] at hset
        exact .inl hset
    · exact .inr hset

end Completes

/-- What the worklist finds, if it finds no error. -/
theorem completes_of_follow {pending : List (Nat × Nat)} {heights : Array (Option Nat)}
    {errors : Array ValidationError} (h : (b.follow pending heights errors).2 = #[]) :
    b.Completes pending heights (b.follow pending heights errors).1 := by
  fun_induction follow with
  | case1 => exact ⟨rfl, fun _ _ h => h, nofun, fun _ _ h => .inl h⟩
  | case2 _ _ _ _ _ hoffset ih => exact (ih h).skip hoffset
  | case3 _ _ _ _ _ hoffset ih => exact (ih h).again hoffset
  | case4 _ _ _ _ _ _ _ _ ih =>
    have := errors_of_follow h
    simp at this
  | case5 heights errors offset height pending hoffset hlt _ _ i hi he ih =>
    have hrest : b.Completes ([] ++ pending) _ _ := ih h
    refine Completes.place hlt hoffset hrest ?_
    intro j e hj hje
    rw [hi] at hj
    cases hj
    rw [he] at hje
    cases hje
  | case6 _ _ _ _ _ _ _ _ _ _ _ _ _ _ ih =>
    have := errors_of_follow h
    simp at this
  | case7 heights errors offset height pending hoffset hlt _ _ i hi effect he hpops after errors' ih =>
    refine Completes.place hlt hoffset (ih h) ?_
    intro j e hj hje
    rw [hi] at hj
    cases hj
    rw [he] at hje
    cases hje
    refine ⟨Nat.not_lt.1 hpops, fun hhalt => ?_, fun next hnext => List.mem_map.2 ⟨next, hnext, rfl⟩⟩
    -- a halt with another height would have been reported
    refine Decidable.byContradiction fun hafter => ?_
    have := errors_of_follow h
    simp only [errors', after] at this
    rw [dif_pos ⟨hhalt, hafter⟩] at this
    simp at this
  | case8 heights errors offset height pending hoffset hlt _ _ hi ih =>
    have hrest : b.Completes ([] ++ pending) _ _ := ih h
    refine Completes.place hlt hoffset hrest ?_
    intro j e hj hje
    exact absurd hj (hi j)

/-- The heights of code in whose heights no error is found. -/
theorem completes_of_heights {errors : Array ValidationError} (h : (b.heights errors).2 = #[]) :
    b.Completes [(0, 0)] (Array.replicate b.code.size none) (b.heights errors).1 :=
  completes_of_follow h

end TemplateExpr.Bytecode
