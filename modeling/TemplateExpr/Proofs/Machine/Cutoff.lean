import TemplateExpr.Proofs.Machine.Limit
import TemplateExpr.Proofs.Validation.Forward

/-!
# The limit is only a cut-off

The same code is run under a limit and under a higher one. Nothing is assumed of the code: it may be malformed, and it
may run forever.

* (agreement) As long as a run does not come to the lower limit, both runs take the same steps (`Steps.of_limit_le`,
  `runFrom?_of_limit_le`).
* (overflow) A run that comes to the lower limit has made no call that the run with more room does not make: the
  overflow is found either before the instruction has done anything, or when a call has its answer
  (`Raises.of_limit_le`).

Both runs can therefore be told apart only by the overflow (`run?_of_limit_le`).
-/

namespace TemplateExpr.Context

variable {σ : Type} {c : Context} {natives : String → Option (Native σ)} {s t last : State σ} {host : σ}
  {result : Except RuntimeError Value}

/-! ### Calls -/

/-- A step keeps the calls that were made before. -/
theorem calls_kept_of_step
    (h : c.step natives s = .running t ∨ ∃ result, c.step natives s = .done result t) :
    s.calls.toList <+: t.calls.toList := by
  obtain ⟨i, hi⟩ | ⟨f, hf⟩ := c.bytecode.fetch_cases s.ip
  · obtain ⟨made, hmade, -⟩ := calls_of_step hi h
    exact ⟨made, hmade.symm⟩
  · rw [step_fault natives hf] at h
    obtain h | ⟨result, h⟩ := h <;> cases h
    exact List.prefix_rfl

theorem Steps.calls_kept (h : c.Steps natives s t) : s.calls.toList <+: t.calls.toList :=
  h.preserves (P := fun t => s.calls.toList <+: t.calls.toList) List.prefix_rfl
    fun _ _ hu hstep => hu.trans (calls_kept_of_step (.inl hstep))

/-- At its end, a run has made the calls of every state that it has passed through. -/
theorem Ends.calls_kept (h : c.Ends natives s result last) (ht : c.Steps natives s t) :
    t.calls.toList <+: last.calls.toList := by
  obtain ⟨u, hu, hdone⟩ := h
  have hlast := calls_kept_of_step (.inr ⟨result, hdone⟩)
  obtain htu | hut := ht.total hu
  · exact htu.calls_kept.trans hlast
  · exact hut.eq_of_last hdone ▸ hlast

/-! ### Two limits -/

section Limits

variable {limit limit' : Nat} {b : Bytecode} {globals : OrderedMap Value} {span : Span}

/-- A step that goes on under a limit is the same under a higher one. -/
theorem step_of_limit_le (hle : limit ≤ limit') (h : (Context.mk b globals limit).step natives s = .running t) :
    (Context.mk b globals limit').step natives s = .running t := by
  have hlimited : (Context.mk b globals limit).step natives s = (Context.mk b globals limit').step natives s ∨
      ∃ span, (Context.mk b globals limit).Raises natives s ⟨.stackOverflow limit, span⟩ := step_limited hle natives s
  obtain heq | ⟨span, last, hdone, -⟩ := hlimited
  · exact heq.symm.trans h
  · rw [hdone] at h
    cases h

theorem Steps.of_limit_le (hle : limit ≤ limit') (h : (Context.mk b globals limit).Steps natives s t) :
    (Context.mk b globals limit').Steps natives s t :=
  Relation.ReflTransGen.mono (fun _ _ => step_of_limit_le hle) s t h

/-- Runs that do not come to the lower limit are the same, for every number of steps. -/
theorem runFrom?_of_limit_le (hle : limit ≤ limit') (hroom : ∀ t span, (Context.mk b globals limit).Steps natives s t →
      ¬ (Context.mk b globals limit).Raises natives t ⟨.stackOverflow limit, span⟩) (fuel : Nat) :
    (Context.mk b globals limit).runFrom? natives fuel s = (Context.mk b globals limit').runFrom? natives fuel s := by
  induction fuel generalizing s with
  | zero => rfl
  | succ fuel ih =>
    have hstep : (Context.mk b globals limit).step natives s = (Context.mk b globals limit').step natives s := by
      obtain heq | ⟨span, hraises⟩ := step_limited hle natives s
      · exact heq
      · exact absurd hraises (hroom s span (.refl s))
    unfold runFrom?
    rw [← hstep]
    cases hs : (Context.mk b globals limit).step natives s with
    | done result last => rfl
    | running t => exact ih fun u span hu => hroom u span (.head hs hu)

/-- What a call that finds no room for its answer has done, a call with more room has done as well. -/
private theorem callNative_of_overflow (limit' : Nat) {start ip : Nat} {name : String}
    {arguments : List Value} {stack : Stack}
    (h : (Context.mk b globals limit).callNative natives start name arguments stack ip s.host s.calls =
      .done (.error ⟨.stackOverflow limit, span⟩) last)
    (hnative : ¬ NativeError natives s last ⟨.stackOverflow limit, span⟩) :
    (∃ u, (Context.mk b globals limit').callNative natives start name arguments stack ip s.host s.calls = .running u ∧
        u.calls = last.calls ∧ u.host = last.host) ∨
      ∃ span u, (Context.mk b globals limit').callNative natives start name arguments stack ip s.host s.calls =
        .done (.error ⟨.stackOverflow limit', span⟩) u ∧ ¬ NativeError natives s u ⟨.stackOverflow limit', span⟩ := by
  unfold callNative at h ⊢
  cases hf : natives name with
  | none =>
    rw [hf] at h
    cases h
  | some f =>
    rw [hf] at h
    dsimp only at h ⊢
    rcases hans : f arguments s.host with ⟨e | v, host'⟩
    · rw [hans] at h
      cases h
      exact absurd ⟨name, f, arguments, hf, rfl, hans⟩ hnative
    · rw [hans] at h
      dsimp only at h ⊢
      obtain hpush | hpush := stack.checkedPush_cases limit (.ref v) <;> rw [hpush] at h <;> cases h
      obtain hpush' | hpush' := stack.checkedPush_cases limit' (.ref v) <;> rw [hpush']
      · exact .inl ⟨_, rfl, rfl, rfl⟩
      · exact .inr ⟨_, _, rfl, not_nativeError_of_ok hf rfl hans _⟩

/-- A step that comes to the lower limit: before it has done anything, or when a call has its answer. In this case the
same call is made with more room, and its answer is pushed unless there is no room for it either. -/
theorem Raises.of_limit_le (hle : limit ≤ limit')
    (h : (Context.mk b globals limit).Raises natives s ⟨.stackOverflow limit, span⟩) :
    ∃ last, (Context.mk b globals limit).step natives s = .done (.error ⟨.stackOverflow limit, span⟩) last ∧
      ((last.calls = s.calls ∧ last.host = s.host) ∨
        (∃ u, (Context.mk b globals limit').step natives s = .running u ∧ u.calls = last.calls ∧
          u.host = last.host) ∨
        ∃ span, (Context.mk b globals limit').Raises natives s ⟨.stackOverflow limit', span⟩) := by
  obtain ⟨last, hstep, hnative⟩ := h
  refine ⟨last, hstep, ?_⟩
  obtain ⟨i, hi⟩ | ⟨f, hf⟩ := b.fetch_cases s.ip
  · rw [step_instruction natives hi] at hstep
    split at hstep
    · cases hstep
      exact .inl ⟨rfl, rfl⟩
    · cases hstep
    · rename_i name arguments stack ip hexec
      right
      -- what is called does not depend on the limit
      obtain heq | hover := (i.limited hle b globals (s.ip + i.size) s.stack).eq_or
      · rw [step_instruction (c := ⟨b, globals, limit'⟩) natives hi, ← heq, hexec]
        obtain hcall | ⟨span', u, hcall, hcalled⟩ := callNative_of_overflow limit' hstep hnative
        · exact .inl hcall
        · refine .inr ⟨span', u, ?_, hcalled⟩
          rw [step_instruction (c := ⟨b, globals, limit'⟩) natives hi, ← heq, hexec]
          exact hcall
      · rw [hexec] at hover
        cases hover
    · cases hstep
  · rw [step_fault natives hf] at hstep
    obtain ⟨-, rfl⟩ := Progress.done.inj hstep
    exact .inl ⟨rfl, rfl⟩

/-- A run that does not end with an overflow has not come to its limit. -/
theorem not_hitsLimit_of_run? {fuel : Nat} (h : c.run? natives fuel host = some (result, last))
    (hresult : ∀ span, result ≠ .error ⟨.stackOverflow c.limit, span⟩) : ¬ c.HitsLimit natives host := by
  rintro ⟨t, span, ht, last', hdone, -⟩
  exact hresult span ((ends_of_runFrom? h).unique ⟨t, ht, hdone⟩).1

/-- If the run does not come to the lower limit, it is the same with more room. If the run with more room does not come
to its limit, the run under the lower limit is the same, or it ends with an overflow of that limit and has made the
first of the calls that the run with more room makes. -/
theorem run?_of_limit_le (hle : limit ≤ limit') (b : Bytecode) (globals : OrderedMap Value)
    (natives : String → Option (Native σ)) (host : σ) :
    (¬ (Context.mk b globals limit).HitsLimit natives host → ∀ fuel,
      (Context.mk b globals limit').run? natives fuel host = (Context.mk b globals limit).run? natives fuel host) ∧
    (¬ (Context.mk b globals limit').HitsLimit natives host →
      (∀ fuel,
        (Context.mk b globals limit).run? natives fuel host = (Context.mk b globals limit').run? natives fuel host) ∨
      (Context.mk b globals limit).HitsLimit natives host ∧ ∃ span last,
        (∃ n, ∀ fuel, n ≤ fuel → (Context.mk b globals limit).run? natives fuel host =
          some (.error ⟨.stackOverflow limit, span⟩, last)) ∧
        (∃ u, (Context.mk b globals limit').Steps natives (.initial host) u ∧ u.calls = last.calls ∧
          u.host = last.host) ∧
        ∀ fuel result' last', (Context.mk b globals limit').run? natives fuel host = some (result', last') →
          last.calls.toList <+: last'.calls.toList) := by
  have hsame : ¬ (Context.mk b globals limit).HitsLimit natives host → ∀ fuel,
      (Context.mk b globals limit).run? natives fuel host = (Context.mk b globals limit').run? natives fuel host :=
    fun hroom => runFrom?_of_limit_le hle fun t span ht hraises => hroom ⟨t, span, ht, hraises⟩
  refine ⟨fun hroom fuel => (hsame hroom fuel).symm, fun hroom' => ?_⟩
  by_cases hhits : (Context.mk b globals limit).HitsLimit natives host
  · obtain ⟨t, span, ht, hraises⟩ := hhits
    obtain ⟨last, hdone, hlast⟩ := hraises.of_limit_le hle
    have ht' := ht.of_limit_le hle
    have hpassed : ∃ u, (Context.mk b globals limit').Steps natives (.initial host) u ∧ u.calls = last.calls ∧
        u.host = last.host := by
      obtain ⟨hcalls, hhost⟩ | ⟨u, hstep, hu⟩ | ⟨span', hraises'⟩ := hlast
      · exact ⟨t, ht', hcalls.symm, hhost.symm⟩
      · exact ⟨u, ht'.tail hstep, hu⟩
      · exact absurd ⟨t, span', ht', hraises'⟩ hroom'
    refine .inr ⟨⟨t, span, ht, hraises⟩, span, last, Ends.runFrom? ⟨t, ht, hdone⟩, hpassed, ?_⟩
    intro fuel result' last' hrun
    obtain ⟨u, hu, hcalls, -⟩ := hpassed
    exact hcalls ▸ (ends_of_runFrom? hrun).calls_kept hu
  · exact .inl (hsame hhits)

end Limits

/-- Calls a function three times, and drops two of its answers. -/
def threeCalls : Bytecode :=
  ⟨#[0x62, 0, 0, 0, 0x62, 0, 0, 0, 0x62, 0, 0, 0, 0x11, 0x11, 0xFF], #[.string "tick"], #[]⟩

/-- A function that counts its calls. -/
def tick : Native Nat := fun _ n => (.ok .null, n + 1)

/-- With room for one answer, two calls are made before the overflow; with room for three, nothing is changed by more. -/
theorem run?_of_limit_le_threeCalls :
    (∃ span last, (∃ n, ∀ fuel, n ≤ fuel → (Context.mk threeCalls .empty 1).run? (fun _ => some tick) fuel 0 =
        some (.error ⟨.stackOverflow 1, span⟩, last)) ∧ last.calls.size = 2 ∧
      ∀ fuel result' last', (Context.mk threeCalls .empty 3).run? (fun _ => some tick) fuel 0 = some (result', last') →
        last.calls.toList <+: last'.calls.toList) ∧
    ∀ fuel, (Context.mk threeCalls .empty 4).run? (fun _ => some tick) fuel 0 =
      (Context.mk threeCalls .empty 3).run? (fun _ => some tick) fuel 0 := by
  have hone : (Context.mk threeCalls .empty 1).run? (fun _ => some tick) 2 0 =
      some (.error ⟨.stackOverflow 1, .dummy⟩, ⟨.empty, 8, 4, 2, #[⟨"tick", []⟩, ⟨"tick", []⟩]⟩) := rfl
  have hthree : (Context.mk threeCalls .empty 3).run? (fun _ => some tick) 6 0 =
      some (.ok .null, ⟨.empty, 14, 14, 3, #[⟨"tick", []⟩, ⟨"tick", []⟩, ⟨"tick", []⟩]⟩) := rfl
  have hroom := not_hitsLimit_of_run? hthree nofun
  refine ⟨?_, (run?_of_limit_le (by decide : 3 ≤ 4) threeCalls .empty (fun _ => some tick) 0).1 hroom⟩
  obtain hsame | ⟨-, span, last, hover, -, hfirst⟩ :=
    (run?_of_limit_le (by decide : 1 ≤ 3) threeCalls .empty (fun _ => some tick) 0).2 hroom
  · -- six steps lead to a value with room for three, and two to an overflow with room for one
    have hvalue := (ends_of_runFrom? hone).unique (ends_of_runFrom? ((hsame 6).trans hthree))
    cases hvalue.1
  · obtain ⟨n, hn⟩ := hover
    obtain ⟨-, rfl⟩ := (ends_of_runFrom? hone).unique (ends_of_runFrom? (hn n (Nat.le_refl n)))
    exact ⟨span, _, ⟨n, hn⟩, rfl, hfirst⟩

end TemplateExpr.Context
