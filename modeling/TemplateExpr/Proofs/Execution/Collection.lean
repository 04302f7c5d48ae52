import Mathlib.Data.List.Forall2
import TemplateExpr.Compilation.Basic
import TemplateExpr.Proofs.Evaluation.Expr
import TemplateExpr.Proofs.Execution.Choice

/-!
# Literals, names, calls and collections

The emitters at the leaves of an expression, and those with any number of others inside. The arguments of a call are
pushed one after another; a list or a map stays on the stack and grows.
-/

namespace TemplateExpr

open Evaluation Assembler Emitter

namespace Setting

variable {σ : Type} {E : Setting σ} {span : Span}

/-! ### Leaves -/

/-- A single directive. -/
theorem Leaves.leaf {x : Emitter} {r : Representation} {m : Evaluation σ r.Content} {d : Directive}
    (hx : x.representation = r) (hbody : x.body = [.directive d]) (hd : d.isPlain = true)
    (h : ∀ S : Stack, E.Applies d x.span S ((fun v => S.push (r.slot v)) <$> m)) : E.Leaves x r m := by
  refine .of_plain hx ?_ ?_ fun base a S hspan => ?_
  · intro d' hd'
    simp only [hbody, List.mem_cons, Step.directive.injEq, List.not_mem_nil, or_false] at hd'
    exact hd' ▸ hd
  · intro y hy
    simp only [hbody, List.mem_cons, reduceCtorEq, List.not_mem_nil, or_false] at hy
  · rw [hbody]
    refine (Runs.directive hd (h S a hspan) fun v _ _ _ => Runs.nil).congr ?_
    rw [bind_pure_comp]

/-- A single directive that pushes what is known. -/
theorem Leaves.constant {x : Emitter} {r : Representation} {d : Directive} {v : r.Content} (hx : x.representation = r)
    (hbody : x.body = [.directive d]) (hd : d.isPlain = true)
    (h : ∀ S : Stack, E.Applies d x.span S (pure (S.push (r.slot v)))) : E.Leaves x r (pure v) :=
  .leaf hx hbody hd fun S => by rw [map_pure]; exact h S

theorem computes_literal (v : Literal) : E.Computes (v.emitter span) ⟨v.type, span, pure v.value⟩ := by
  cases v with
  | null =>
    exact (Leaves.constant (r := .exact .null) (v := ()) rfl rfl rfl fun _ =>
      .leaf (i := ⟨.pushNull, ()⟩) (fun _ => rfl) rfl fun _ _ => rfl).computes rfl rfl (map_pure ..).symm
  | bool b =>
    refine (Leaves.constant (r := .exact .bool) (v := b) rfl rfl rfl fun S => ?_).computes rfl rfl (map_pure ..).symm
    cases b with
    | false => exact .leaf (i := ⟨.pushFalse, ()⟩) (fun _ => rfl) rfl fun _ _ => rfl
    | true => exact .leaf (i := ⟨.pushTrue, ()⟩) (fun _ => rfl) rfl fun _ _ => rfl
  | int n =>
    exact (Leaves.constant (r := .exact .int) rfl rfl rfl fun _ => .pushInt n).computes rfl rfl (map_pure ..).symm
  | float x =>
    exact (Leaves.constant (r := .exact .float) rfl rfl rfl fun _ => .pushFloat x).computes rfl rfl (map_pure ..).symm
  | string s =>
    exact (Leaves.constant (r := .exact .string) rfl rfl rfl fun _ =>
      .pushConstant (.string s)).computes rfl rfl (map_pure ..).symm

theorem leaves_string (s : String) : E.Leaves (Emitter.string s span) (.exact .string) (pure s) :=
  .constant rfl rfl rfl fun _ => .pushConstant (.string s)

theorem computes_emptyList : E.Computes (Emitter.emptyList span) ⟨.known .list, span, pure (.list #[])⟩ :=
  (Leaves.constant (r := .boxed) rfl rfl rfl fun _ =>
    .leaf (i := ⟨.emptyList, ()⟩) (fun _ => rfl) rfl fun _ _ => rfl).computes rfl rfl (map_pure ..).symm

theorem computes_emptyMap : E.Computes (Emitter.emptyMap span) ⟨.known .map, span, pure (.map .empty)⟩ :=
  (Leaves.constant (r := .boxed) rfl rfl rfl fun _ =>
    .leaf (i := ⟨.emptyMap, ()⟩) (fun _ => rfl) rfl fun _ _ => rfl).computes rfl rfl (map_pure ..).symm

/-! ### Names -/

theorem computes_global (name : String) (type : StaticType) :
    E.Computes (.make .boxed type false span 0 [.directive (.getGlobal name)])
      ⟨type, span, E.scope.global name span⟩ :=
  (Leaves.leaf (r := .boxed) rfl rfl rfl fun _ => .getGlobal name).computes rfl rfl (id_map _).symm

/-- An item of what an emitter leaves; the key may be a string of its own form. -/
theorem computes_item {type : StaticType} {constant : Bool} {x y : Emitter} {r : Representation}
    {m : Evaluation σ Value} {key : Evaluation σ r.Content} (hx : E.Leaves x .boxed m) (hy : E.Leaves y r key) :
    E.Computes (Emitter.getItem type constant span x y) ⟨type, span, do
      let base ← m
      let k ← key
      lift (base.item (r.value k)) span⟩ := by
  have hleaves : E.Leaves (Emitter.getItem type constant span x y) .boxed (do
      let base ← m
      let k ← key
      lift (base.item (r.value k)) span) := by
    refine hx.both hy rfl rfl rfl fun base k S => Applies.generic rfl rfl ?_
    rw [r.value_slot]
    rfl
  exact hleaves.computes rfl rfl (id_map _).symm

/-! ### Calls -/

private theorem exists_of_mem_right {α β : Type} {R : α → β → Prop} {as : List α} {bs : List β}
    (h : List.Forall₂ R as bs) {b : β} (hb : b ∈ bs) : ∃ a ∈ as, R a b := by
  induction h with
  | nil => cases hb
  | cons hab _ ih =>
    obtain rfl | hb := List.mem_cons.1 hb
    · exact ⟨_, List.mem_cons_self, hab⟩
    · obtain ⟨a, ha, h⟩ := ih hb
      exact ⟨a, List.mem_cons_of_mem _ ha, h⟩

section Arguments

variable {es : List Expr} {xs : List Emitter}

/-- Arguments are evaluated from left to right and stay on the stack. -/
private theorem runs_arguments {base : Nat} {a : Assembler} {S : Stack} {rest : List (Step Emitter)}
    {k : List Value → Evaluation σ Stack}
    (h : List.Forall₂ (fun (e : Expr) x => E.Leaves x.toBoxed .boxed (e.evaluate E.scope)) es xs)
    (hrest : ∀ vs a', a'.span = a.span → vs.length = xs.length →
      E.Runs a' (assembleSteps base rest a') (S.pushAll vs) (k vs)) :
    E.Runs a (assembleSteps base (xs.map (fun x => .sub x.toBoxed) ++ rest) a) S
      (Expr.evaluateList E.scope es >>= k) := by
  -- the argument that was pushed last moves from the stack `S` to the values before
  induction h generalizing a S k with
  | nil =>
    rw [Expr.evaluateList, pure_bind]
    exact hrest [] a rfl rfl
  | @cons e x es xs hx _ ih =>
    refine (Runs.sub (k := fun v => Expr.evaluateList E.scope es >>= fun vs => k (v :: vs)) hx
      fun v a' hspan _ => ih fun vs a'' hspan' hlen => ?_).congr ?_
    · exact hrest (v :: vs) a'' (hspan'.trans hspan) (congrArg (· + 1) hlen)
    · simp only [Expr.evaluateList, bind_assoc, pure_bind]

theorem computes_call (name : String) (type : StaticType)
    (h : List.Forall₂ (fun (e : Expr) x => E.Leaves x.toBoxed .boxed (e.evaluate E.scope)) es xs)
    (hlen : xs.length < 256) :
    E.Computes (Emitter.nativeCall name type span xs) ⟨type, span, do
      let arguments ← Expr.evaluateList E.scope es
      E.scope.call name arguments span⟩ := by
  have hleaves : E.Leaves (Emitter.nativeCall name type span xs) .boxed (do
      let arguments ← Expr.evaluateList E.scope es
      E.scope.call name arguments span) := by
    refine .of_plain rfl ?_ ?_ fun base a S hspan => ?_
    · intro d hd
      simp only [nativeCall, make, List.mem_append, List.mem_map, reduceCtorEq, and_false, exists_false, false_or,
        List.mem_cons, Step.directive.injEq, List.not_mem_nil, or_false] at hd
      rw [hd]
      rfl
    · intro y hy
      simp only [nativeCall, make, List.mem_append, List.mem_map, Step.sub.injEq, List.mem_cons, reduceCtorEq,
        List.not_mem_nil, or_false] at hy
      obtain ⟨x, hx, rfl⟩ := hy
      obtain ⟨e, -, he⟩ := exists_of_mem_right h hx
      exact he.regular
    · refine (runs_arguments h
        (k := fun vs => (fun v => S.push (.ref v)) <$> E.scope.call name vs span) fun vs a' hspan' hvs => ?_).congr ?_
      · have happlies : E.Applies (.callNative name vs.length) span (S.pushAll vs) _ :=
          Applies.callNative name (hvs ▸ hlen)
        rw [hvs] at happlies
        refine (Runs.directive rfl (happlies a' (hspan'.trans hspan)) fun v _ _ _ => Runs.nil).congr ?_
        rw [bind_pure_comp]
      · simp only [map_bind]
        rfl
  exact hleaves.computes rfl rfl (id_map _).symm

/-! ### Collections -/

/-- Elements are appended to the list on the stack. -/
private theorem runs_elements {base : Nat} {a : Assembler} {S : Stack} {elements : Array Value}
    (h : List.Forall₂ (fun (e : Expr) x => E.Leaves x.toBoxed .boxed (e.evaluate E.scope)) es xs) :
    E.Runs a (assembleSteps base (xs.flatMap fun x => [.sub x.toBoxed, .directive (.emit .listAppend)]) a)
      (S.push (.ref (.list elements)))
      ((fun vs => S.push (.ref (.list (elements ++ vs.toArray)))) <$> Expr.evaluateList E.scope es) := by
  -- what is on the stack grows with every element
  induction h generalizing a elements with
  | nil =>
    refine Runs.nil.congr ?_
    simp only [Expr.evaluateList, map_pure]
    rw [Array.append_empty]
  | @cons e x es xs hx _ ih =>
    refine (Runs.sub hx fun v a' _ _ => Runs.plain rfl (Applies.listAppend elements (.ref v) a' rfl)
      fun a'' _ _ => ih).congr ?_
    simp only [Expr.evaluateList, map_bind, map_pure]
    refine bind_congr fun v => ?_
    rw [bind_pure_comp]
    congr 1
    funext vs
    simp [Slot.value]

theorem computes_list (h : List.Forall₂ (fun (e : Expr) x => E.Leaves x.toBoxed .boxed (e.evaluate E.scope)) es xs) :
    E.Computes (Emitter.list span xs)
      ⟨.known .list, span, do return .list (← Expr.evaluateList E.scope es).toArray⟩ := by
  have hleaves : E.Leaves (Emitter.list span xs) (.exact .list) (List.toArray <$> Expr.evaluateList E.scope es) := by
    refine .of_plain rfl ?_ ?_ fun base a S hspan => ?_
    · intro d hd
      simp only [Emitter.list, make, List.mem_cons, Step.directive.injEq, List.mem_flatMap, reduceCtorEq,
        List.not_mem_nil, or_false, false_or] at hd
      obtain rfl | ⟨x, -, rfl⟩ := hd <;> rfl
    · intro y hy
      simp only [Emitter.list, make, List.mem_cons, reduceCtorEq, List.mem_flatMap, Step.sub.injEq, List.not_mem_nil,
        or_false, false_or] at hy
      obtain ⟨x, hx, rfl⟩ := hy
      obtain ⟨e, -, he⟩ := exists_of_mem_right h hx
      exact he.regular
    · have hnew : E.Applies (.newList (UInt32.ofNat xs.length)) span S (pure (S.push (.ref (.list #[])))) :=
        .leaf (i := ⟨.newList, UInt32.ofNat xs.length⟩) (fun _ => rfl) rfl fun _ _ => rfl
      refine (Runs.plain rfl (hnew a hspan) fun a' _ _ => runs_elements h).congr ?_
      rw [← comp_map]
      congr 1
      funext vs
      simp [Representation.slot, Kind.slot, Kind.value]
  refine hleaves.computes rfl rfl ?_
  change _ = Value.list <$> _
  rw [← comp_map, bind_pure_comp]
  rfl

/-- Entries are inserted into the map on the stack. -/
private theorem runs_entries {entries : List (Expr × Expr)} {ys : List (Emitter × Emitter)} {base : Nat} {a : Assembler}
    {S : Stack} {before : OrderedMap Value}
    (h : List.Forall₂ (fun (e : Expr × Expr) (y : Emitter × Emitter) =>
      E.Leaves y.1.toText (.exact .string) (Value.text <$> e.1.evaluate E.scope) ∧
        E.Leaves y.2.toBoxed .boxed (e.2.evaluate E.scope)) entries ys) :
    E.Runs a (assembleSteps base
        (ys.flatMap fun y => [.sub y.1.toText, .sub y.2.toBoxed, .directive (.emit .mapPut)]) a)
      (S.push (.ref (.map before)))
      ((fun ps => S.push (.ref (.map (ps.foldl (fun m p => m.insert p.1 p.2) before)))) <$>
        Expr.evaluateEntries E.scope entries) := by
  induction h generalizing a before with
  | nil =>
    refine Runs.nil.congr ?_
    simp only [Expr.evaluateEntries, map_pure, List.foldl_nil]
  | @cons e y entries ys hy _ ih =>
    refine (Runs.sub hy.1 fun k a₁ _ _ => Runs.sub hy.2 fun v a₂ _ _ =>
      Runs.plain rfl (Applies.mapPut before k (.ref v) a₂ rfl) fun a₃ _ _ => ih).congr ?_
    simp only [Expr.evaluateEntries, map_bind, map_pure, bind_map_left]
    refine bind_congr fun k => bind_congr fun v => ?_
    rw [bind_pure_comp]
    rfl

theorem computes_map {entries : List (Expr × Expr)} {ys : List (Emitter × Emitter)}
    (h : List.Forall₂ (fun (e : Expr × Expr) (y : Emitter × Emitter) =>
      E.Leaves y.1.toText (.exact .string) (Value.text <$> e.1.evaluate E.scope) ∧
        E.Leaves y.2.toBoxed .boxed (e.2.evaluate E.scope)) entries ys) :
    E.Computes (Emitter.map span ys)
      ⟨.known .map, span, do return .map (.ofList (← Expr.evaluateEntries E.scope entries))⟩ := by
  have hleaves : E.Leaves (Emitter.map span ys) (.exact .map)
      (OrderedMap.ofList <$> Expr.evaluateEntries E.scope entries) := by
    refine .of_plain rfl ?_ ?_ fun base a S hspan => ?_
    · intro d hd
      simp only [Emitter.map, make, List.mem_cons, Step.directive.injEq, List.mem_flatMap, reduceCtorEq,
        List.not_mem_nil, or_false, false_or] at hd
      obtain rfl | ⟨x, -, rfl⟩ := hd <;> rfl
    · intro y hy
      simp only [Emitter.map, make, List.mem_cons, reduceCtorEq, List.mem_flatMap, Step.sub.injEq, List.not_mem_nil,
        or_false, false_or] at hy
      obtain ⟨x, hx, heq⟩ := hy
      obtain ⟨e, -, he⟩ := exists_of_mem_right h hx
      obtain rfl | rfl := heq
      · exact he.1.regular
      · exact he.2.regular
    · have hnew : E.Applies (.newMap (mapCapacity ys.length)) span S (pure (S.push (.ref (.map .empty)))) :=
        .leaf (i := ⟨.newMap, mapCapacity ys.length⟩) (fun _ => rfl) rfl fun _ _ => rfl
      refine (Runs.plain rfl (hnew a hspan) fun a' _ _ => runs_entries h).congr ?_
      rw [← comp_map]
      rfl
  refine hleaves.computes rfl rfl ?_
  change _ = Value.map <$> _
  rw [← comp_map, bind_pure_comp]
  rfl

end Arguments

end Setting

end TemplateExpr
