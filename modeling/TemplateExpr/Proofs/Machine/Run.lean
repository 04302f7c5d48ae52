import Mathlib.Logic.Relation
import TemplateExpr.Machine.Run

/-!
# Runs as a relation

`Steps` are the steps that a run takes before it ends, and `Ends` says how it ends. The machine is deterministic, so
a run has one ending at most (`Ends.unique`), and it has one exactly if some number of steps suffices for `run?`
(`Ends.runFrom?`, `ends_of_runFrom?`).

A piece of code is run to its end, or the run ends in it: `Leads lo hi Q X s` says that the run from `s` stays between
two offsets until it comes to a state in `Q` or ends with a result in `X`. Facts about pieces of code are stated so and
put together by `Leads.bind`.
-/

namespace TemplateExpr.Context

variable {σ : Type} {c : Context} {natives : String → Option (Native σ)}

/-- The run from the first state passes through the second. -/
def Steps (c : Context) (natives : String → Option (Native σ)) : State σ → State σ → Prop :=
  Relation.ReflTransGen fun s t => c.step natives s = .running t

/-- The run from a state ends with a result and a last state. -/
def Ends (c : Context) (natives : String → Option (Native σ)) (s : State σ) (result : Except RuntimeError Value)
    (last : State σ) : Prop :=
  ∃ t, c.Steps natives s t ∧ c.step natives t = .done result last

/-- A step that is begun between two offsets. -/
def StepIn (c : Context) (natives : String → Option (Native σ)) (lo hi : Nat) (s t : State σ) : Prop :=
  (lo ≤ s.ip ∧ s.ip < hi) ∧ c.step natives s = .running t

/-- The run from the first state comes to the second, and every step on the way is begun between two offsets. -/
def StepsIn (c : Context) (natives : String → Option (Native σ)) (lo hi : Nat) : State σ → State σ → Prop :=
  Relation.ReflTransGen (c.StepIn natives lo hi)

/-- The run from a state stays between two offsets until it comes to a state in `Q` or ends as `X` says. -/
def Leads (c : Context) (natives : String → Option (Native σ)) (lo hi : Nat) (Q : State σ → Prop)
    (X : State σ → Except RuntimeError Value → State σ → Prop) (s : State σ) : Prop :=
  (∃ t, c.StepsIn natives lo hi s t ∧ Q t) ∨
    ∃ t result last, c.StepsIn natives lo hi s t ∧ (lo ≤ t.ip ∧ t.ip < hi) ∧
      c.step natives t = .done result last ∧ X t result last

/-! ### Steps and endings -/

theorem Steps.refl (s : State σ) : c.Steps natives s s := Relation.ReflTransGen.refl

theorem Steps.head {s t u : State σ} (h : c.step natives s = .running t) (ht : c.Steps natives t u) :
    c.Steps natives s u :=
  Relation.ReflTransGen.head h ht

theorem Steps.trans {s t u : State σ} (h : c.Steps natives s t) (ht : c.Steps natives t u) :
    c.Steps natives s u :=
  Relation.ReflTransGen.trans h ht

/-- What a step keeps, a run keeps. -/
theorem Steps.preserves {P : State σ → Prop} {s t : State σ} (h : c.Steps natives s t) (hs : P s)
    (hstep : ∀ u v, P u → c.step natives u = .running v → P v) : P t := by
  induction h with
  | refl => exact hs
  | tail _ hv ih => exact hstep _ _ ih hv

theorem Ends.of_steps {s t last : State σ} {result : Except RuntimeError Value} (h : c.Steps natives s t)
    (ht : c.Ends natives t result last) : c.Ends natives s result last := by
  obtain ⟨u, hu, hdone⟩ := ht
  exact ⟨u, h.trans hu, hdone⟩

/-- Of two states that a run passes through, one comes first. -/
theorem Steps.total {s t u : State σ} (h : c.Steps natives s t) (hu : c.Steps natives s u) :
    c.Steps natives t u ∨ c.Steps natives u t := by
  refine Relation.ReflTransGen.total_of_right_unique ?_ h hu
  intro a b b' hb hb'
  rw [hb] at hb'
  cases hb'
  rfl

/-- Nothing follows the last step. -/
theorem Steps.eq_of_last {s t last : State σ} {result : Except RuntimeError Value} (h : c.Steps natives s t)
    (hdone : c.step natives s = .done result last) : s = t := by
  obtain heq | ⟨v, hv, -⟩ := Relation.ReflTransGen.cases_head h
  · exact heq
  · rw [hdone] at hv
    cases hv

/-- A run has one last step at most. -/
theorem Steps.eq_of_done {s t u last last' : State σ} {result result' : Except RuntimeError Value}
    (h : c.Steps natives s t) (hdone : c.step natives t = .done result last) (hu : c.Steps natives s u)
    (hdone' : c.step natives u = .done result' last') : t = u := by
  obtain htu | hut := h.total hu
  · exact htu.eq_of_last hdone
  · exact (hut.eq_of_last hdone').symm

theorem Ends.unique {s last last' : State σ} {result result' : Except RuntimeError Value}
    (h : c.Ends natives s result last) (h' : c.Ends natives s result' last') : result = result' ∧ last = last' := by
  obtain ⟨t, ht, hdone⟩ := h
  obtain ⟨u, hu, hdone'⟩ := h'
  obtain rfl := ht.eq_of_done hdone hu hdone'
  rw [hdone] at hdone'
  cases hdone'
  exact ⟨rfl, rfl⟩

/-! ### Runs with a number of steps -/

/-- A run that ends is found as soon as enough steps are allowed. -/
theorem Ends.runFrom? {s last : State σ} {result : Except RuntimeError Value} (h : c.Ends natives s result last) :
    ∃ n, ∀ fuel, n ≤ fuel → c.runFrom? natives fuel s = some (result, last) := by
  obtain ⟨t, ht, hdone⟩ := h
  -- one unit of fuel for the last step, and one more for each step before it
  induction ht using Relation.ReflTransGen.head_induction_on with
  | refl =>
    refine ⟨1, fun fuel hfuel => ?_⟩
    obtain ⟨fuel, rfl⟩ := Nat.exists_eq_add_of_le' hfuel
    simp only [Context.runFrom?, hdone]
  | head hstep _ ih =>
    obtain ⟨n, hn⟩ := ih
    refine ⟨n + 1, fun fuel hfuel => ?_⟩
    obtain ⟨fuel, rfl⟩ := Nat.exists_eq_add_of_le' hfuel
    simp only [Context.runFrom?, hstep]
    exact hn _ (Nat.le_add_left n fuel)

theorem ends_of_runFrom? {fuel : Nat} {s last : State σ} {result : Except RuntimeError Value}
    (h : c.runFrom? natives fuel s = some (result, last)) : c.Ends natives s result last := by
  induction fuel generalizing s with
  | zero => cases h
  | succ fuel ih =>
    unfold Context.runFrom? at h
    split at h
    · rename_i t hstep
      exact Ends.of_steps (Steps.head hstep (Steps.refl t)) (ih h)
    · rename_i r t hstep
      cases h
      exact ⟨s, Steps.refl s, hstep⟩

/-! ### Running a piece of code -/

section Leads

variable {lo hi lo' hi' : Nat} {Q Q' : State σ → Prop} {X X' : State σ → Except RuntimeError Value → State σ → Prop}
  {s t last : State σ} {result : Except RuntimeError Value}

theorem StepsIn.refl (s : State σ) : c.StepsIn natives lo hi s s := Relation.ReflTransGen.refl

theorem StepsIn.head {u : State σ} (hs : lo ≤ s.ip ∧ s.ip < hi) (h : c.step natives s = .running t)
    (ht : c.StepsIn natives lo hi t u) : c.StepsIn natives lo hi s u :=
  Relation.ReflTransGen.head ⟨hs, h⟩ ht

theorem StepsIn.trans {u : State σ} (h : c.StepsIn natives lo hi s t) (ht : c.StepsIn natives lo hi t u) :
    c.StepsIn natives lo hi s u :=
  Relation.ReflTransGen.trans h ht

theorem StepsIn.mono (h : c.StepsIn natives lo hi s t) (hlo : lo' ≤ lo) (hhi : hi ≤ hi') :
    c.StepsIn natives lo' hi' s t := by
  refine Relation.ReflTransGen.mono (fun u v huv => ?_) s t h
  exact ⟨⟨Nat.le_trans hlo huv.1.1, Nat.lt_of_lt_of_le huv.1.2 hhi⟩, huv.2⟩

theorem StepsIn.steps (h : c.StepsIn natives lo hi s t) : c.Steps natives s t :=
  Relation.ReflTransGen.mono (fun _ _ huv => huv.2) s t h

private theorem stepIn_rightUnique : Relator.RightUnique (c.StepIn natives lo hi) := by
  intro a b b' hb hb'
  have heq := hb.2.symm.trans hb'.2
  cases heq
  rfl

/-- A run leaves a range at one state only. -/
theorem StepsIn.eq_of_left (h : c.StepsIn natives lo hi s t) (ht : ¬ (lo ≤ t.ip ∧ t.ip < hi)) {u : State σ}
    (hu : c.StepsIn natives lo hi s u) (hleft : ¬ (lo ≤ u.ip ∧ u.ip < hi)) : t = u := by
  obtain htu | hut := Relation.ReflTransGen.total_of_right_unique stepIn_rightUnique h hu
  · obtain heq | ⟨v, hv, -⟩ := Relation.ReflTransGen.cases_head htu
    · exact heq
    · exact absurd hv.1 ht
  · obtain heq | ⟨v, hv, -⟩ := Relation.ReflTransGen.cases_head hut
    · exact heq.symm
    · exact absurd hv.1 hleft

/-- A run that ends in a range does not leave it. -/
theorem StepsIn.in_of_done (h : c.StepsIn natives lo hi s t) (ht : lo ≤ t.ip ∧ t.ip < hi)
    (hdone : c.step natives t = .done result last) {u : State σ} (hu : c.StepsIn natives lo hi s u) :
    lo ≤ u.ip ∧ u.ip < hi := by
  obtain htu | hut := Relation.ReflTransGen.total_of_right_unique stepIn_rightUnique h hu
  · obtain heq | ⟨v, hv, -⟩ := Relation.ReflTransGen.cases_head htu
    · exact heq ▸ ht
    · have := hv.2.symm.trans hdone
      cases this
  · obtain heq | ⟨v, hv, -⟩ := Relation.ReflTransGen.cases_head hut
    · exact heq ▸ ht
    · exact hv.1

theorem Leads.here (h : Q s) : c.Leads natives lo hi Q X s := .inl ⟨s, .refl s, h⟩

theorem Leads.done (hs : lo ≤ s.ip ∧ s.ip < hi) (h : c.step natives s = .done result last) (hX : X s result last) :
    c.Leads natives lo hi Q X s :=
  .inr ⟨s, result, last, .refl s, hs, h, hX⟩

theorem Leads.of_steps (h : c.StepsIn natives lo hi s t) (ht : c.Leads natives lo hi Q X t) :
    c.Leads natives lo hi Q X s := by
  obtain ⟨u, hu, hQ⟩ | ⟨u, result, last, hu, hin, hdone, hX⟩ := ht
  · exact .inl ⟨u, h.trans hu, hQ⟩
  · exact .inr ⟨u, result, last, h.trans hu, hin, hdone, hX⟩

theorem Leads.step (hs : lo ≤ s.ip ∧ s.ip < hi) (h : c.step natives s = .running t)
    (ht : c.Leads natives lo hi Q X t) : c.Leads natives lo hi Q X s :=
  Leads.of_steps (.head hs h (.refl t)) ht

/-- The range may be wider, and what is reached may be known less precisely. -/
theorem Leads.mono (h : c.Leads natives lo hi Q X s) (hlo : lo' ≤ lo) (hhi : hi ≤ hi') (hQ : ∀ t, Q t → Q' t)
    (hX : ∀ t result last, X t result last → X' t result last) : c.Leads natives lo' hi' Q' X' s := by
  obtain ⟨t, ht, hq⟩ | ⟨t, result, last, ht, hin, hdone, hx⟩ := h
  · exact .inl ⟨t, ht.mono hlo hhi, hQ t hq⟩
  · exact .inr ⟨t, result, last, ht.mono hlo hhi, ⟨Nat.le_trans hlo hin.1, Nat.lt_of_lt_of_le hin.2 hhi⟩, hdone,
      hX t result last hx⟩

/-- The run goes on from the place that it has come to. -/
theorem Leads.bind (h : c.Leads natives lo hi Q X s) (hQ : ∀ t, Q t → c.Leads natives lo hi Q' X t) :
    c.Leads natives lo hi Q' X s := by
  obtain ⟨t, ht, hq⟩ | hends := h
  · exact Leads.of_steps ht (hQ t hq)
  · exact .inr hends

/-- A run that cannot come to a place ends. -/
theorem Leads.ends (h : c.Leads natives lo hi (fun _ => False) X s) :
    ∃ t result last, c.Steps natives s t ∧ c.step natives t = .done result last ∧ X t result last := by
  obtain ⟨_, _, hfalse⟩ | ⟨t, result, last, ht, -, hdone, hx⟩ := h
  · exact hfalse.elim
  · exact ⟨t, result, last, ht.steps, hdone, hx⟩

end Leads

/-! ### Who raises an error -/

/-- Between two states a native function was called, and this error is its answer. -/
def NativeError (natives : String → Option (Native σ)) (s last : State σ) (e : RuntimeError) : Prop :=
  ∃ name f arguments, natives name = some f ∧ last.calls = s.calls.push ⟨name, arguments⟩ ∧
    f arguments s.host = (.error e, last.host)

/-- Without a call there is no answer. -/
theorem not_nativeError_of_calls {s last : State σ} (h : last.calls = s.calls) (e : RuntimeError) :
    ¬ NativeError natives s last e := by
  rintro ⟨name, f, arguments, -, hcalls, -⟩
  have hsize := congrArg Array.size (h.symm.trans hcalls)
  rw [Array.size_push] at hsize
  omega

/-- A call that succeeds is no error. -/
theorem not_nativeError_of_ok {s last : State σ} {name : String} {f : Native σ} {arguments : List Value} {v : Value}
    {host : σ} (hf : natives name = some f) (hcalls : last.calls = s.calls.push ⟨name, arguments⟩)
    (hans : f arguments s.host = (.ok v, host)) (e : RuntimeError) : ¬ NativeError natives s last e := by
  rintro ⟨name', f', arguments', hf', hcalls', hans'⟩
  have heq := Array.push_eq_push.1 (hcalls.symm.trans hcalls')
  obtain ⟨rfl, rfl⟩ := NativeCall.mk.inj heq.1
  rw [hf] at hf'
  cases hf'
  rw [hans] at hans'
  cases hans'

/-- The machine itself ends the run in this state with an error. -/
def Raises (c : Context) (natives : String → Option (Native σ)) (s : State σ) (e : RuntimeError) : Prop :=
  ∃ last, c.step natives s = .done (.error e) last ∧ ¬ NativeError natives s last e

/-- The run ends because the stack would grow beyond the limit. -/
def HitsLimit (c : Context) (natives : String → Option (Native σ)) (host : σ) : Prop :=
  ∃ t span, c.Steps natives (.initial host) t ∧ c.Raises natives t ⟨.stackOverflow c.limit, span⟩

end TemplateExpr.Context
