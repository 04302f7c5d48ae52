import Mathlib.Logic.Function.Iterate
import TemplateExpr.Bytecode.Validation

/-!
# The passes of the worklist

`follow` goes on until nothing is pending. Here one pass of it is a function on what it has in hand (`Worklist.pass`),
and

* (agreement) a pass does not change what `follow` comes to (`Worklist.follow_pass`);
* (measure) every pass lowers `Worklist.measure`: an offset gets its height once, which may bring two pending places,
  and any other pass only takes one away (`Worklist.measure_pass`).

So nothing is pending after as many passes as the measure says, whatever the code jumps to (`Worklist.passes_eq`).
-/

namespace TemplateExpr.Bytecode

/-- What the validator has in hand while it follows the code. -/
structure Worklist where
  pending : List (Nat × Nat)
  heights : Array (Option Nat)
  errors : Array ValidationError

namespace Worklist

/-- Only the first offset is pending, and no height is known. -/
def start (b : Bytecode) (errors : Array ValidationError) : Worklist :=
  ⟨[(0, 0)], Array.replicate b.code.size none, errors⟩

/-- What a place that has just got its height leads to: more pending places, or an error. -/
def visit (b : Bytecode) (offset height : Nat) (w : Worklist) : Worklist :=
  match b.fetch offset with
  | .instruction i =>
    match i.stackEffect? with
    | none => w
    | some effect =>
      if height < effect.pops then { w with errors := w.errors.push ⟨offset, .stackUnderflow i.opcode height⟩ }
      else
        let after := height - effect.pops + effect.pushes
        { w with
          pending := (successors ⟨offset, i⟩).map (·, after) ++ w.pending
          errors := if i.opcode = .halt ∧ after ≠ 1 then w.errors.push ⟨offset, .haltDepth after⟩ else w.errors }
  | _ => w

/-- One pass: the first pending place is looked at. -/
def pass (b : Bytecode) (w : Worklist) : Worklist :=
  match w.pending with
  | [] => w
  | (offset, height) :: pending =>
    match w.heights[offset]? with
    | none => { w with pending := pending }
    | some (some seen) =>
      if seen = height then { w with pending := pending }
      else { w with pending := pending, errors := w.errors.push ⟨offset, .inconsistentDepth seen height⟩ }
    | some none => visit b offset height ⟨pending, w.heights.setIfInBounds offset (some height), w.errors⟩

/-- How many passes may be needed: two for each offset without a height, and one for each pending place. -/
def measure (w : Worklist) : Nat := 2 * w.heights.count none + w.pending.length

variable {b : Bytecode} {w : Worklist} {offset height : Nat}

/-! ### Agreement -/

/-- A pass leaves what `follow` comes to. -/
theorem follow_pass (b : Bytecode) (w : Worklist) :
    b.follow w.pending w.heights w.errors = b.follow (w.pass b).pending (w.pass b).heights (w.pass b).errors := by
  obtain ⟨pending, heights, errors⟩ := w
  cases pending with
  | nil => rfl
  | cons p pending =>
    obtain ⟨offset, height⟩ := p
    rw [follow]
    dsimp only
    split
    · rename_i hoffset
      simp only [pass, hoffset]
    · rename_i seen hoffset
      split <;> simp only [pass, *, if_true, if_false]
    · rename_i hoffset
      have hlt := (Array.getElem?_eq_some_iff.1 hoffset).1
      simp only [pass, hoffset, visit]
      rw [Array.setIfInBounds, dif_pos hlt]
      cases b.fetch offset with
      | instruction i =>
        dsimp only
        cases i.stackEffect? with
        | none => rfl
        | some effect =>
          dsimp only
          split <;> rfl
      | _ => rfl

theorem follow_passes (b : Bytecode) (w : Worklist) (n : Nat) :
    b.follow w.pending w.heights w.errors =
      b.follow ((pass b)^[n] w).pending ((pass b)^[n] w).heights ((pass b)^[n] w).errors := by
  induction n generalizing w with
  | zero => rfl
  | succ n ih => rw [follow_pass, ih, Function.iterate_succ_apply]

/-! ### Measure -/

theorem length_successors (p : Placed) : (successors p).length ≤ 2 := by
  unfold successors
  split <;> simp

/-- A place that has got its height brings two more places at most. -/
theorem measure_visit (b : Bytecode) (offset height : Nat) (w : Worklist) :
    (w.visit b offset height).measure ≤ w.measure + 2 := by
  unfold visit
  cases b.fetch offset with
  | instruction i =>
    dsimp only
    cases i.stackEffect? with
    | none => exact Nat.le_add_right _ _
    | some effect =>
      dsimp only
      split
      · exact Nat.le_add_right _ _
      · have hle := length_successors ⟨offset, i⟩
        simp only [measure, List.length_append, List.length_map]
        omega
  | _ => exact Nat.le_add_right _ _

/-- An offset that gets its height is one fewer without. -/
private theorem count_setIfInBounds {heights : Array (Option Nat)} (height : Nat) (h : heights[offset]? = some none) :
    (heights.setIfInBounds offset (some height)).count none + 1 = heights.count none := by
  obtain ⟨hlt, hget⟩ := Array.getElem?_eq_some_iff.1 h
  have hpos : 0 < heights.count none := Array.count_pos_iff.2 (hget ▸ Array.getElem_mem hlt)
  have hnone : ((none : Option Nat) == none) = true := rfl
  have hsome : (some height == none) = false := rfl
  rw [Array.setIfInBounds, dif_pos hlt, Array.count_set, hget, hnone, hsome, if_pos rfl, if_neg Bool.false_ne_true]
  omega

theorem measure_pass (b : Bytecode) (h : w.pending ≠ []) : (w.pass b).measure < w.measure := by
  obtain ⟨pending, heights, errors⟩ := w
  cases pending with
  | nil => exact absurd rfl h
  | cons p pending =>
    obtain ⟨offset, height⟩ := p
    -- a place is taken away, or an offset gets its height
    have hless : ∀ errors' : Array ValidationError,
        measure ⟨pending, heights, errors'⟩ < measure ⟨(offset, height) :: pending, heights, errors⟩ :=
      fun _ => Nat.lt_succ_self _
    unfold pass
    dsimp only
    split
    · exact hless _
    · split <;> exact hless _
    · rename_i hoffset
      have hcount := count_setIfInBounds height hoffset
      refine Nat.lt_of_le_of_lt (measure_visit ..) ?_
      simp only [measure, List.length_cons]
      omega

/-- Nothing changes when nothing is pending. -/
theorem pass_of_nil (h : w.pending = []) : w.pass b = w := by
  unfold pass
  rw [h]

/-- Nothing is pending after as many passes as the measure says. -/
theorem pending_passes (b : Bytecode) {n : Nat} (h : w.measure ≤ n) : ((pass b)^[n] w).pending = [] := by
  induction n generalizing w with
  | zero =>
    have hzero : w.pending.length = 0 := by
      simp only [measure] at h
      omega
    exact List.eq_nil_of_length_eq_zero hzero
  | succ n ih =>
    by_cases hpending : w.pending = []
    · rw [Function.iterate_fixed (pass_of_nil hpending), hpending]
    · have hless := measure_pass b hpending
      rw [Function.iterate_succ_apply]
      exact ih (by omega)

/-- The worklist comes to the heights and errors that `follow` finds, with nothing pending, after as many passes as its
measure says. -/
theorem passes_eq (b : Bytecode) {n : Nat} (h : w.measure ≤ n) :
    (pass b)^[n] w =
      ⟨[], (b.follow w.pending w.heights w.errors).1, (b.follow w.pending w.heights w.errors).2⟩ := by
  have hpending := pending_passes b h
  rw [follow_passes b w n]
  generalize (pass b)^[n] w = v at hpending ⊢
  obtain ⟨pending, heights, errors⟩ := v
  obtain rfl : pending = [] := hpending
  rw [follow]

theorem measure_start (b : Bytecode) (errors : Array ValidationError) :
    (start b errors).measure = 2 * b.code.size + 1 := by
  simp [measure, start]

end Worklist

end TemplateExpr.Bytecode
