import TemplateExpr.Bytecode.Validation
import TemplateExpr.Proofs.Bytecode.Fetch

/-!
# The instructions of valid code

`Splits b offset ps` says that the code from `offset` to its end is exactly the instructions `ps`, one after another.
When the validator finds no error in splitting the code, this holds of what it has found (`splits_of_split`). A place
after one of these instructions is the place of the next (`Splits.next_of_mem`), and only the last one ends with the
code (`Splits.getLast?_of_mem`).
-/

namespace TemplateExpr.Bytecode

/-- The code from an offset on is these instructions and nothing else. -/
inductive Splits (b : Bytecode) : Nat → List Placed → Prop
  | stop : Splits b b.code.size []
  | next {offset : Nat} {i : Instruction} {ps : List Placed} :
    b.fetch offset = .instruction i → Splits b (offset + i.size) ps → Splits b offset (⟨offset, i⟩ :: ps)

variable {b : Bytecode}

/-- Errors are only added. -/
theorem errors_of_splitFrom {offset : Nat} {found : Array Placed} {errors : Array ValidationError}
    (h : (b.splitFrom offset found errors).2 = #[]) : errors = #[] := by
  fun_induction splitFrom with
  | case1 => exact h
  | case2 _ _ _ _ _ _ ih =>
    have := ih h
    simp at this
  | case3 => simp at h
  | case4 _ _ _ _ _ _ _ ih => exact ih h
  | case5 => exact h

/-- What the validator finds, if it finds no error. -/
theorem splits_of_splitFrom {offset : Nat} {found : Array Placed} {errors : Array ValidationError}
    (hle : offset ≤ b.code.size) (h : (b.splitFrom offset found errors).2 = #[]) :
    ∃ ps, (b.splitFrom offset found errors).1.toList = found.toList ++ ps ∧ b.Splits offset ps := by
  fun_induction splitFrom with
  | case1 _ _ _ hlt hfetch => exact absurd hfetch (fetch_ne_outside hlt)
  | case2 _ _ _ _ _ _ ih =>
    -- a byte that is no opcode is reported, and the report stays
    have := errors_of_splitFrom h
    simp at this
  | case3 => simp at h
  | case4 offset found _ _ i hfetch _ ih =>
    obtain ⟨ps, hps, hsplits⟩ := ih (stop_le_of_fetch hfetch) h
    exact ⟨⟨offset, i⟩ :: ps, by rw [hps]; simp, .next hfetch hsplits⟩
  | case5 offset _ _ hlt =>
    have heq : offset = b.code.size := by omega
    exact ⟨[], by simp, heq ▸ .stop⟩

theorem splits_of_split (h : b.split.2 = #[]) : b.Splits 0 b.split.1.toList := by
  obtain ⟨ps, hps, hsplits⟩ := splits_of_splitFrom (Nat.zero_le _) h
  rw [split, hps]
  exact hsplits

namespace Splits

variable {offset : Nat} {ps : List Placed} {p : Placed}

theorem fetch_of_mem (h : b.Splits offset ps) (hp : p ∈ ps) : b.fetch p.offset = .instruction p.instruction := by
  induction h with
  | stop => cases hp
  | next hfetch _ ih =>
    obtain rfl | hp := List.mem_cons.1 hp
    · exact hfetch
    · exact ih hp

/-- The first instruction stands where the split begins. -/
theorem offset_head (h : b.Splits offset (p :: ps)) : p.offset = offset := by
  cases h
  rfl

/-- Code that is left begins with an instruction. -/
theorem head_of_lt (h : b.Splits offset ps) (hlt : offset < b.code.size) : ∃ p ∈ ps, p.offset = offset := by
  cases h with
  | stop => exact absurd hlt (Nat.lt_irrefl _)
  | next _ _ => exact ⟨_, List.mem_cons_self, rfl⟩

/-- After an instruction comes the next one, or the end of the code. -/
theorem next_of_mem (h : b.Splits offset ps) (hp : p ∈ ps) (hlt : p.stop < b.code.size) :
    ∃ q ∈ ps, q.offset = p.stop := by
  induction h with
  | stop => cases hp
  | next _ hsplits ih =>
    obtain rfl | hp := List.mem_cons.1 hp
    · obtain ⟨q, hq, hoffset⟩ := hsplits.head_of_lt hlt
      exact ⟨q, List.mem_cons_of_mem _ hq, hoffset⟩
    · obtain ⟨q, hq, hoffset⟩ := ih hp
      exact ⟨q, List.mem_cons_of_mem _ hq, hoffset⟩

theorem stop_le (h : b.Splits offset ps) (hp : p ∈ ps) : p.stop ≤ b.code.size :=
  stop_le_of_fetch (h.fetch_of_mem hp)

/-- No instruction stands beyond the code. -/
theorem eq_nil_of_le (h : b.Splits offset ps) (hle : b.code.size ≤ offset) : ps = [] := by
  cases h with
  | stop => rfl
  | next hfetch _ => exact absurd (offset_lt_of_fetch hfetch) (Nat.not_lt.2 hle)

/-- Only the last instruction ends with the code. -/
theorem getLast?_of_mem (h : b.Splits offset ps) (hp : p ∈ ps) (hstop : p.stop = b.code.size) :
    ps.getLast? = some p := by
  induction h with
  | stop => cases hp
  | @next offset i ps _ hsplits ih =>
    obtain rfl | hp := List.mem_cons.1 hp
    · rw [hsplits.eq_nil_of_le (Nat.le_of_eq hstop.symm)]
      rfl
    · rw [List.getLast?_cons, ih hp]
      rfl

/-- If the code ends with a halt, an instruction that does not halt is followed by another. -/
theorem next_of_last (h : b.Splits offset ps) (hlast : ∀ p, ps.getLast? = some p → p.instruction.opcode = .halt)
    (hp : p ∈ ps) (hhalt : p.instruction.opcode ≠ .halt) : ∃ q ∈ ps, q.offset = p.stop := by
  obtain hlt | heq := Nat.lt_or_eq_of_le (h.stop_le hp)
  · exact h.next_of_mem hp hlt
  · exact absurd (hlast p (h.getLast?_of_mem hp heq)) hhalt

end Splits

/-- What may come after an instruction is the next one, or what its distance leads to. -/
theorem mem_successors_iff {p : Placed} {next : Nat} :
    next ∈ successors p ↔ p.instruction.opcode ≠ .halt ∧ (next = p.stop ∧ p.instruction.opcode ≠ .jump ∨
      ∃ d, jumpDistance? p.instruction = some d ∧ next = ((p.stop : Int) + d).toNat) := by
  obtain ⟨offset, ⟨o, x⟩⟩ := p
  cases o <;> simp [successors, jumpDistance?]

end TemplateExpr.Bytecode
