import TemplateExpr.Proofs.Compilation.Once
import TemplateExpr.Proofs.Machine.Limit

/-!
# The greatest height of the stack

With room for the greatest height that a program tells, it does not matter how much room there is. Less room is too
little if the expression does not branch and has a value, as the run then comes to all instructions, and so to the
greatest height that the assembler has seen (`Lists.maxDepth_le`). The main result is `ExprRoot.maxStackDepth_tight`.
-/

namespace TemplateExpr

open Assembler

variable {σ : Type} {c : Context} {natives : String → Option (Native σ)} {s last : State σ} {v : Value}

/-- Only a halt ends a run with a value. -/
theorem Context.opcode_of_done {i : Instruction} {e : StackEffect} (hi : c.bytecode.fetch s.ip = .instruction i)
    (he : i.stackEffect? = some e) (h : c.step natives s = .done (.ok v) last) : i.opcode = .halt := by
  have hrespects := i.execute_respects c (s.ip + i.size) s.stack he
  rw [step_instruction natives hi] at h
  split at h
  · cases h
  · cases h
  · unfold callNative at h
    split at h
    · cases h
    · dsimp only at h
      split at h
      · cases h
      · split at h <;> cases h
  · rename_i hexec
    rw [hexec] at hrespects
    exact hrespects

namespace Assembler

/-- A run through code without jumps that ends with a value comes to the greatest height that the assembler has seen. -/
theorem Lists.maxDepth_le {z a : Assembler} {ds : List Directive} {ps : List Placed} (h : Lists z a ds ps)
    (hb : c.bytecode = z.close.bytecode) (hplain : ∀ d ∈ ds, d.jumpKind? = none ∧ d ≠ .emit .halt)
    (hr : a.reachable = true) (hip : s.ip = a.offset) (hheight : s.stack.height = a.depth)
    (hends : c.Ends natives s (.ok v) last) {bound : Nat}
    (hbound : ∀ t, c.Steps natives s t → t.stack.height ≤ bound) : z.maxDepth ≤ max a.maxDepth bound := by
  induction h generalizing s with
  | halt => exact Nat.le_max_left _ _
  | @emit a d i ds ps hd hds ih =>
    obtain ⟨hone, hplain⟩ := List.forall_mem_cons.1 hplain
    have hfetch : c.bytecode.fetch s.ip = .instruction i := by rw [hb, hip, hd.fetch]
    obtain ⟨e, he, -, hdepth⟩ := hd.depth
    obtain ⟨t, ht, hdone⟩ := hends
    obtain rfl | ⟨u, hstep, hu⟩ := Relation.ReflTransGen.cases_head ht
    · exact absurd (hd.halt (Context.opcode_of_done hfetch he hdone)) hone.2
    · obtain ⟨hreplaces, hleads⟩ := Context.step_running hfetch he hstep
      have hnext : u.ip = s.ip + i.size ∧ i.opcode ≠ .jump := by
        obtain ⟨hstop, hjump, -⟩ | ⟨dist, hdist, -⟩ := hleads
        · exact ⟨hstop, hjump⟩
        · obtain ⟨kind, label, _, _, rfl, -⟩ := hd.jump _ hdist
          cases hone.1
      have hsame : u.stack.height = (a.apply d).depth := by rw [hreplaces.height, hheight, hdepth]
      have hrest := ih hplain (hd.reachable.2 ⟨hr, hnext.2⟩) (by rw [hnext.1, hip, hd.offset]) hsame
        ⟨t, hu, hdone⟩ fun w hw => hbound w (.head hstep hw)
      have hhere := hbound u (.head hstep (.refl u))
      rw [hd.maxDepth] at hrest
      omega
  | @stay a d ds ps hd _ ih =>
    obtain ⟨hreachable, hsame⟩ := hd.reachable hr
    rw [← hd.maxDepth]
    exact ih (List.forall_mem_cons.1 hplain).2 hreachable (hip.trans hd.offset.symm) (hheight.trans hsame.symm) hends
      hbound

end Assembler

namespace Emitter

variable {x : Emitter} {e : Expr} {options : CompileOptions} {p : Program}

/-- Without a node that branches there is no jump, and a program does not halt on its own. -/
theorem plain_of_mem (h : e.compile .global = .ok x) (hbranch : ∀ n ∈ e.nodes, n.isBranch = false) :
    ∀ d ∈ x.programScript options, d.jumpKind? = none ∧ d ≠ .emit .halt := by
  have hcarries := carries_of_compile h
  have hperm := Directive.ofHallmark_jumpKind?.perm_script hcarries.perm (new.apply (.setDebugInfo options.debugInfo))
  rw [Expr.filterMap_jumpKind? hbranch] at hperm
  intro d hd
  refine ⟨?_, fun heq => (hcarries.orderly options).halt_not_mem (heq ▸ hd)⟩
  obtain rfl | hd := List.mem_cons.1 hd
  · rfl
  · exact List.filterMap_eq_nil_iff.1 hperm.eq_nil d hd

/-- The run of a program without branches has room for the greatest height if it ends with a value. -/
theorem Makes.maxStackDepth_le (hp : x.Makes options p) (hx : e.compile .global = .ok x)
    (hbranch : ∀ n ∈ e.nodes, n.isBranch = false) {globals : OrderedMap Value} {limit : Nat} {host : σ}
    (hends : (Context.mk p.bytecode globals limit).Ends natives (.initial host) (.ok v) last) :
    p.maxStackDepth ≤ limit := by
  obtain ⟨ps, hps, -⟩ := hp.exists_lists
  have hle := hps.maxDepth_le (c := ⟨p.bytecode, globals, limit⟩) hp.bytecode (plain_of_mem hx hbranch) rfl
    rfl rfl hends fun t ht => ht.height_le
  rw [hp.maxStackDepth]
  simpa [new] using hle

end Emitter

namespace ExprRoot

variable {root : ExprRoot} {options : CompileOptions} {p : Program}

/-- A run is the same for all limits from the greatest height on, and never comes to the limit. If the expression does
not branch and the run ends with a value, it ends with an overflow under every lower limit. -/
theorem maxStackDepth_tight (h : root.compile .global options = .ok p) (globals : OrderedMap Value)
    (natives : String → Option (Native σ)) (host : σ) :
    ∃ result last,
      (∀ limit, p.maxStackDepth ≤ limit → ¬ (Context.mk p.bytecode globals limit).HitsLimit natives host ∧
        ∃ n, ∀ fuel, n ≤ fuel → (Context.mk p.bytecode globals limit).run? natives fuel host = some (result, last)) ∧
      ((∀ n ∈ root.expr.nodes, n.isBranch = false) → (∃ v, result = .ok v) → ∀ limit < p.maxStackDepth,
        (Context.mk p.bytecode globals limit).HitsLimit natives host ∧ ∃ span last' n, ∀ fuel, n ≤ fuel →
          (Context.mk p.bytecode globals limit).run? natives fuel host =
            some (.error ⟨.stackOverflow limit, span⟩, last')) := by
  have hends : ∀ limit, ∃ result last,
      (Context.mk p.bytecode globals limit).Ends natives (.initial host) result last := by
    intro limit
    obtain ⟨E, t, result, last, hcontext, -, ht, hdone, -⟩ := ends_of_compile h globals limit natives host
    rw [hcontext] at ht hdone
    exact ⟨result, last, t, ht, hdone⟩
  obtain ⟨result, last, hleast⟩ := hends p.maxStackDepth
  refine ⟨result, last, fun limit hlimit => ⟨not_hitsLimit_of_compile h globals natives hlimit host, ?_⟩,
    fun hbranch hok limit hlimit => ?_⟩
  · have hroom := not_hitsLimit_of_compile h globals natives (Nat.le_refl _) host
    exact (hleast.of_le hlimit fun t span ht hraises => hroom ⟨t, span, ht, hraises⟩).runFrom?
  · have hhits : (Context.mk p.bytecode globals limit).HitsLimit natives host := by
      obtain ⟨result', last', hless⟩ := hends limit
      refine Classical.byContradiction fun hroom => ?_
      -- the run would be the same, and so end with a value
      have hmore := hless.of_le (Nat.le_of_lt hlimit) fun t span ht hraises => hroom ⟨t, span, ht, hraises⟩
      obtain ⟨rfl, rfl⟩ := hmore.unique hleast
      obtain ⟨v, rfl⟩ := hok
      obtain ⟨x, hx, hp⟩ := makes_of_compile h
      have := hp.maxStackDepth_le hx hbranch hless
      omega
    refine ⟨hhits, ?_⟩
    obtain ⟨t, span, ht, last', hdone, -⟩ := hhits
    obtain ⟨n, hn⟩ := Context.Ends.runFrom? ⟨t, ht, hdone⟩
    exact ⟨span, last', n, hn⟩

/-- `[1, 2 * 3]`, for which the list and both factors are on the stack. -/
def twoElements : ExprRoot :=
  .ofExpr (.list [.literal (.int 1) ⟨1, 2⟩,
    .binary .mul (.literal (.int 2) ⟨4, 5⟩) (.literal (.int 3) ⟨8, 9⟩) (.known .int) ⟨4, 9⟩] ⟨0, 10⟩)

/-- Three slots are enough, and two are not. -/
theorem maxStackDepth_tight_twoElements : ∃ p, twoElements.compile .global {} = .ok p ∧ p.maxStackDepth = 3 ∧
    (∃ v last n, ∀ fuel, n ≤ fuel →
      (Context.mk p.bytecode .empty 3).run? (fun _ => none) fuel () = some (.ok v, last)) ∧
    ∃ span last n, ∀ fuel, n ≤ fuel →
      (Context.mk p.bytecode .empty 2).run? (fun _ => none) fuel () = some (.error ⟨.stackOverflow 2, span⟩, last) := by
  obtain ⟨p, hp, heq⟩ : ∃ p, twoElements.compile .global {} = .ok p ∧
      (p.maxStackDepth, ((Context.mk p.bytecode .empty 3).run? (fun _ => none) 10 ()).map fun r => r.1.isOk) =
        (3, some true) := exists_of_map (by cbv)
  obtain ⟨hdepth, hrun⟩ := Prod.mk.inj heq
  obtain ⟨r, hrun, hok⟩ := Option.map_eq_some_iff.1 hrun
  obtain ⟨result, last, hroom, hless⟩ := maxStackDepth_tight hp .empty (fun _ => none) ()
  obtain ⟨n, hn⟩ := (hroom 3 (Nat.le_of_eq hdepth)).2
  -- the run that is known is the run of the theorem
  obtain ⟨rfl, rfl⟩ := (Context.ends_of_runFrom? hrun).unique (Context.ends_of_runFrom? (hn n (Nat.le_refl n)))
  obtain ⟨v, hv⟩ : ∃ v, r.1 = .ok v := by
    cases hr : r.1 with
    | error e =>
      rw [hr] at hok
      cases hok
    | ok v => exact ⟨v, rfl⟩
  have hbranch : ∀ n ∈ twoElements.expr.nodes, n.isBranch = false := by decide
  refine ⟨p, hp, hdepth, ⟨v, r.2, n, fun fuel hfuel => hv ▸ hn fuel hfuel⟩, ?_⟩
  exact (hless hbranch ⟨v, hv⟩ 2 (by omega)).2

end ExprRoot

end TemplateExpr
