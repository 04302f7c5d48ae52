import TemplateExpr.Proofs.Assembler.Layout
import TemplateExpr.Proofs.Validation.Soundness

/-!
# Valid programs without backward jumps

If no jump of a valid program leads back, a run stands at one instruction after another, always further on in the code
(`Stands.step`). So it

* (order) comes to no instruction twice (`Valid.lt_of_steps`);
* (termination) ends after as many steps as there are instructions, if not before, and has then made each call that the
  code refers to once at most (`Valid.exists_run?`).
-/

namespace TemplateExpr

/-- What a call refers to. -/
def NativeCall.reference (call : NativeCall) : Reference := .native call.name call.arguments.length

/-! ### Calls -/

private theorem map_next_ne_call {r : Except Fault Stack} {stop ip : Nat} {name : String} {arguments : List Value}
    {t : Stack} : (r.map fun s => Action.next s stop) ≠ .ok (.call name arguments t ip) := by
  cases r <;> nofun

/-- An instruction that wants a call refers to its function. -/
theorem Instruction.reference_of_call {c : Context} {i : Instruction} {stop ip : Nat} {s t : Stack} {name : String}
    {arguments : List Value} (h : i.execute c stop s = .ok (.call name arguments t ip)) :
    c.bytecode.reference? i = some (.native name arguments.length) := by
  obtain ⟨o, x⟩ := i
  cases o
  case callNative =>
    obtain ⟨index, count⟩ := x
    have hexec : execute c stop s ⟨.callNative, index, count⟩ = (c.bytecode.nameAt index >>= fun name =>
        s.popValues count.toNat >>= fun p => .ok (.call name p.1 p.2 stop)) := rfl
    rw [hexec] at h
    simp only [Bytecode.reference?]
    cases hname : c.bytecode.nameAt index with
    | error f =>
      rw [hname] at h
      cases h
    | ok name' =>
      rw [hname] at h
      obtain ⟨-, hvalues⟩ | ⟨vs, t', hvalues, hlength, -⟩ := s.popValues_eq count.toNat
      · rw [hvalues] at h
        cases h
      · rw [hvalues] at h
        cases h
        rw [hlength]
        rfl
  case halt =>
    simp only [execute] at h
    split at h <;> cases h
  case jump => cases h
  case jumpIfFalse | jumpIfTrue =>
    simp only [execute] at h
    cases hb : s.popBool <;> rw [hb] at h <;> cases h
  all_goals exact absurd h map_next_ne_call

/-- A step makes no call but the one that its instruction refers to. -/
theorem Context.calls_of_step {σ : Type} {c : Context} {natives : String → Option (Native σ)} {s t : State σ}
    {i : Instruction} (hi : c.bytecode.fetch s.ip = .instruction i)
    (h : c.step natives s = .running t ∨ ∃ result, c.step natives s = .done result t) :
    ∃ made, t.calls.toList = s.calls.toList ++ made ∧
      (made.map NativeCall.reference).Sublist (c.bytecode.reference? i).toList := by
  have hnone : t.calls = s.calls → ∃ made, t.calls.toList = s.calls.toList ++ made ∧
      (made.map NativeCall.reference).Sublist (c.bytecode.reference? i).toList :=
    fun heq => ⟨[], by rw [heq, List.append_nil], List.nil_sublist _⟩
  rw [step_instruction natives hi] at h
  split at h
  · obtain h | ⟨result, h⟩ := h <;> cases h
    exact hnone rfl
  · obtain h | ⟨result, h⟩ := h <;> cases h
    exact hnone rfl
  · rename_i name arguments stack ip hcall
    have hone : t.calls = s.calls.push ⟨name, arguments⟩ → ∃ made, t.calls.toList = s.calls.toList ++ made ∧
        (made.map NativeCall.reference).Sublist (c.bytecode.reference? i).toList := fun heq =>
      ⟨[⟨name, arguments⟩], by rw [heq, Array.toList_push], by rw [Instruction.reference_of_call hcall]; exact .refl _⟩
    unfold callNative at h
    split at h
    · obtain h | ⟨result, h⟩ := h <;> cases h
      exact hnone rfl
    · refine hone ?_
      dsimp only at h
      split at h
      · obtain h | ⟨result, h⟩ := h <;> cases h
        rfl
      · split at h <;> obtain h | ⟨result, h⟩ := h <;> cases h <;> rfl
  · obtain h | ⟨result, h⟩ := h <;> cases h
    exact hnone rfl

theorem Placed.offset_lt_stop (p : Placed) : p.offset < p.stop := Nat.lt_add_of_pos_right (Nat.succ_pos _)

namespace Bytecode

variable {b : Bytecode} {offset : Nat} {p q : Placed} {ps before after : List Placed}

private theorem filterMap_cons_eq {α β : Type} (f : α → Option β) (a : α) (as : List α) :
    (a :: as).filterMap f = (f a).toList ++ as.filterMap f := by
  rw [List.filterMap_cons]
  cases f a <;> rfl

/-! ### The order of instructions -/

private theorem Splits.le_offset (h : b.Splits offset ps) (hp : p ∈ ps) : offset ≤ p.offset := by
  induction h with
  | stop => cases hp
  | next _ _ ih =>
    obtain rfl | hp := List.mem_cons.1 hp
    · exact Nat.le_refl _
    · exact Nat.le_trans (Nat.le_add_right _ _) (ih hp)

/-- Each instruction ends before the next one begins. -/
theorem Splits.pairwise (h : b.Splits offset ps) : ps.Pairwise fun p q => p.stop ≤ q.offset := by
  induction h with
  | stop => exact .nil
  | next _ hsplits ih => exact .cons (fun q hq => hsplits.le_offset hq) ih

/-- No jump leads back. -/
def IsForward (b : Bytecode) : Prop :=
  ∀ p ∈ b.split.1, ∀ d : Int, jumpDistance? p.instruction = some d → 0 ≤ d

/-- Whatever comes after an instruction comes after it in the code. -/
private theorem Valid.later (h : b.Valid) (hforward : b.IsForward) (hps : b.split.1.toList = before ++ p :: after)
    {ip : Nat} (hip : p.instruction.LeadsTo p.stop ip) : ∃ q ∈ after, q.offset = ip := by
  have hp : p ∈ b.split.1 := Array.mem_def.2 (hps ▸ List.mem_append_right _ List.mem_cons_self)
  obtain ⟨-, q, hq, rfl⟩ := h.successor hp hip
  have hle : p.stop ≤ q.offset := by
    obtain ⟨hstop, -⟩ | ⟨d, hd, htarget⟩ := hip
    · exact Nat.le_of_eq hstop.symm
    · rw [htarget, (h.target hp hd).1]
      have := hforward p hp _ hd
      omega
  have hpairwise := h.splits.pairwise
  rw [hps, List.pairwise_append] at hpairwise
  have hmem := Array.mem_def.1 hq
  rw [hps] at hmem
  have hlt := p.offset_lt_stop
  obtain hmem | hmem := List.mem_append.1 hmem
  · have hbefore := hpairwise.2.2 q hmem p List.mem_cons_self
    have := q.offset_lt_stop
    omega
  · obtain rfl | hmem := List.mem_cons.1 hmem
    · omega
    · exact ⟨q, hmem, rfl⟩

/-! ### Where a run stands -/

variable {σ : Type} {c : Context} {natives : String → Option (Native σ)} {s t : State σ}

/-- A run stands at an instruction, between those that it has passed and those that are ahead. -/
structure Stands (b : Bytecode) (s : State σ) (before : List Placed) (p : Placed) (after : List Placed) : Prop where
  split : b.split.1.toList = before ++ p :: after
  ip : p.offset = s.ip

theorem Valid.stands_initial (h : b.Valid) (host : σ) : ∃ p after, b.Stands (.initial host) [] p after := by
  obtain ⟨⟨q, hq, hoffset⟩, -⟩ := h.initial
  have hsplits := h.splits
  have hmem := Array.mem_def.1 hq
  cases hps : b.split.1.toList with
  | nil =>
    rw [hps] at hmem
    cases hmem
  | cons p ps =>
    rw [hps] at hsplits
    exact ⟨p, ps, hps, hsplits.offset_head⟩

namespace Stands

theorem mem (hs : b.Stands s before p after) : p ∈ b.split.1 :=
  Array.mem_def.2 (hs.split ▸ List.mem_append_right _ List.mem_cons_self)

theorem fetch (h : b.Valid) (hs : b.Stands s before p after) : b.fetch s.ip = .instruction p.instruction :=
  hs.ip ▸ h.fetch hs.mem

/-- A step leads to an instruction that was ahead. -/
theorem step (h : c.bytecode.Valid) (hforward : c.bytecode.IsForward) (hs : c.bytecode.Stands s before p after)
    (hstep : c.step natives s = .running t) :
    ∃ passed q rest, after = passed ++ q :: rest ∧ c.bytecode.Stands t (before ++ p :: passed) q rest := by
  obtain ⟨e, he⟩ := h.stackEffect hs.mem
  obtain ⟨-, hleads⟩ := Context.step_running (hs.fetch h) he hstep
  rw [← hs.ip] at hleads
  obtain ⟨q, hq, hoffset⟩ := h.later hforward hs.split hleads
  obtain ⟨passed, rest, rfl⟩ := List.append_of_mem hq
  exact ⟨passed, q, rest, rfl, by simp [hs.split], hoffset⟩

/-- The offset grows with every step. -/
theorem lt_of_step (h : c.bytecode.Valid) (hforward : c.bytecode.IsForward) (hs : c.bytecode.Stands s before p after)
    (hstep : c.step natives s = .running t) : s.ip < t.ip := by
  obtain ⟨passed, q, rest, rfl, ht⟩ := hs.step h hforward hstep
  have hpairwise := h.splits.pairwise
  rw [hs.split, List.pairwise_append, List.pairwise_cons] at hpairwise
  have hle := hpairwise.2.1.1 q (List.mem_append_right _ List.mem_cons_self)
  have hlt := p.offset_lt_stop
  rw [← hs.ip, ← ht.ip]
  omega

/-- A run that goes on stands at an instruction, and not at one that it has stood at. -/
theorem steps (h : c.bytecode.Valid) (hforward : c.bytecode.IsForward) (hs : c.bytecode.Stands s before p after)
    (hsteps : c.Steps natives s t) : (∃ before q rest, c.bytecode.Stands t before q rest) ∧ s.ip ≤ t.ip := by
  refine hsteps.preserves (P := fun t => (∃ before q rest, c.bytecode.Stands t before q rest) ∧ s.ip ≤ t.ip)
    ⟨⟨before, p, after, hs⟩, Nat.le_refl _⟩ ?_
  rintro u v ⟨⟨_, _, _, hu⟩, hle⟩ hstep
  obtain ⟨_, _, _, -, hv⟩ := hu.step h hforward hstep
  exact ⟨⟨_, _, _, hv⟩, Nat.le_of_lt (Nat.lt_of_le_of_lt hle (hu.lt_of_step h hforward hstep))⟩

/-- As many steps suffice as there are instructions ahead, with the one where the run stands. Of the calls that these
refer to, each is made once at most. -/
theorem exists_runFrom? (h : c.bytecode.Valid) (hforward : c.bytecode.IsForward)
    (hs : c.bytecode.Stands s before p after) (natives : String → Option (Native σ)) :
    ∃ result last calls, (∀ fuel, after.length < fuel → c.runFrom? natives fuel s = some (result, last)) ∧
      last.calls.toList = s.calls.toList ++ calls ∧
      (calls.map NativeCall.reference).Sublist
        ((p :: after).filterMap fun q => c.bytecode.reference? q.instruction) := by
  induction hlength : after.length using Nat.strongRecOn generalizing s before p after with
  | ind n ih =>
    subst hlength
    rw [filterMap_cons_eq]
    cases hstep : c.step natives s with
    | done result last =>
      obtain ⟨made, hmade, hsub⟩ := Context.calls_of_step (hs.fetch h) (.inr ⟨result, hstep⟩)
      refine ⟨result, last, made, fun fuel hfuel => ?_, hmade, hsub.trans (List.sublist_append_left _ _)⟩
      obtain ⟨fuel, rfl⟩ := Nat.exists_eq_add_of_lt hfuel
      simp only [Context.runFrom?, hstep]
    | running t =>
      obtain ⟨made, hmade, hsub⟩ := Context.calls_of_step (hs.fetch h) (.inl hstep)
      obtain ⟨passed, q, rest, rfl, ht⟩ := hs.step h hforward hstep
      have hshorter : rest.length < (passed ++ q :: rest).length := by
        rw [List.length_append, List.length_cons]
        omega
      obtain ⟨result, last, calls, hrun, hcalls, hsub'⟩ := ih _ hshorter ht rfl
      refine ⟨result, last, made ++ calls, fun fuel hfuel => ?_, ?_, ?_⟩
      · obtain ⟨fuel, rfl⟩ := Nat.exists_eq_add_of_lt hfuel
        simp only [Context.runFrom?, hstep]
        exact hrun _ (by omega)
      · rw [hcalls, hmade, List.append_assoc]
      · rw [List.map_append]
        exact hsub.append (hsub'.trans ((List.sublist_append_right passed _).filterMap _))

end Stands

/-! ### Whole runs -/

namespace Valid

variable {host : σ} {u : State σ}

theorem stands_of_steps (h : c.bytecode.Valid) (hforward : c.bytecode.IsForward)
    (hs : c.Steps natives (.initial host) s) : ∃ before p after, c.bytecode.Stands s before p after := by
  obtain ⟨_, _, hinitial⟩ := h.stands_initial host
  exact (hinitial.steps h hforward hs).1

/-- No instruction is executed twice: what is executed later stands further on. -/
theorem lt_of_steps (h : c.bytecode.Valid) (hforward : c.bytecode.IsForward)
    (hs : c.Steps natives (.initial host) s) (hstep : c.step natives s = .running t) (hu : c.Steps natives t u) :
    s.ip < u.ip := by
  obtain ⟨_, _, _, hstands⟩ := h.stands_of_steps hforward hs
  obtain ⟨_, _, _, -, hnext⟩ := hstands.step h hforward hstep
  exact Nat.lt_of_lt_of_le (hstands.lt_of_step h hforward hstep) (hnext.steps h hforward hu).2

/-- A run ends after as many steps as there are instructions, and has made each call once at most. -/
theorem exists_run? (h : c.bytecode.Valid) (hforward : c.bytecode.IsForward)
    (natives : String → Option (Native σ)) (host : σ) :
    ∃ result last, (∀ fuel, c.bytecode.split.1.size ≤ fuel → c.run? natives fuel host = some (result, last)) ∧
      (last.calls.toList.map NativeCall.reference).Sublist
        (c.bytecode.split.1.toList.filterMap fun q => c.bytecode.reference? q.instruction) := by
  obtain ⟨p, after, hinitial⟩ := h.stands_initial host
  obtain ⟨result, last, calls, hrun, hcalls, hsub⟩ := hinitial.exists_runFrom? h hforward natives
  have hcode : c.bytecode.split.1.toList = p :: after := hinitial.split
  have hsize : c.bytecode.split.1.size = after.length + 1 := by rw [← Array.length_toList, hcode, List.length_cons]
  obtain rfl : last.calls.toList = calls := hcalls
  exact ⟨result, last, fun fuel hfuel => hrun fuel (by omega), hcode ▸ hsub⟩

end Valid

end Bytecode

end TemplateExpr
