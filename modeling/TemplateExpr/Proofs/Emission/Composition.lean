import TemplateExpr.Proofs.Emission.Balance
import TemplateExpr.Proofs.Emission.Hallmark

/-!
# What emitters carry

An emitter carries directives if it is balanced and these are the hallmarks in its code, in whatever order
(`Emitter.Carries`). Conversions and operators carry what their operands carry, so a compiled expression carries the
hallmarks of all its nodes, each once (`Emitter.carries_of_compile`).
-/

namespace TemplateExpr

namespace Emitter

/-! ### The directives of a body -/

theorem directives_eq (x : Emitter) : x.directives = directivesOf x.body := by
  obtain ⟨r, t, c, span, labels, body⟩ := x
  rw [directives]

theorem directivesOf_append (steps steps' : List (Step Emitter)) :
    directivesOf (steps ++ steps') = directivesOf steps ++ directivesOf steps' := by
  induction steps with
  | nil => rw [List.nil_append, directivesOf, List.nil_append]
  | cons step steps ih =>
    cases step with
    | directive d => rw [List.cons_append, directivesOf, directivesOf, ih, List.cons_append]
    | sub x => rw [List.cons_append, directivesOf, directivesOf, ih, List.append_assoc]

theorem directivesOf_subs (ys : List Emitter) : directivesOf (ys.map .sub) = ys.flatMap directives := by
  induction ys with
  | nil => rfl
  | cons y ys ih => rw [List.map_cons, directivesOf, ih, List.flatMap_cons]

structure Carries (x : Emitter) (ds : List Directive) : Prop where
  balanced : x.Balanced
  perm : (x.directives.filterMap Directive.hallmark?).Perm ds

namespace Carries

variable {x y z : Emitter} {d : Directive} {ds es fs : List Directive} {span : Span} {type : StaticType}
  {representation : Representation}

theorem congr (h : x.Carries ds) (hds : ds.Perm es) : x.Carries es := ⟨h.balanced, h.perm.trans hds⟩

/-- Representation, type and span make no difference. -/
theorem of_body (h : x.Carries ds) (hlabels : y.labels = x.labels) (hbody : y.body = x.body) : y.Carries ds where
  balanced := by
    cases h.balanced with
    | intro labels hsteps hplaced hmakes hsubs =>
      exact .intro labels (hlabels ▸ hbody ▸ hsteps) hplaced (hbody ▸ hmakes) fun z hz => hsubs z (hbody ▸ hz)
  perm := by
    rw [directives_eq, hbody, ← directives_eq]
    exact h.perm

private theorem of_forall₂ {ys : List Emitter} {dss : List (List Directive)} (h : List.Forall₂ Carries ys dss) :
    (∀ y ∈ ys, y.Balanced) ∧ ((ys.flatMap directives).filterMap Directive.hallmark?).Perm dss.flatten := by
  induction h with
  | nil => exact ⟨nofun, .refl _⟩
  | cons hy _ ih =>
    rw [List.forall_mem_cons, List.flatMap_cons, List.filterMap_append, List.flatten_cons]
    exact ⟨⟨hy.balanced, ih.1⟩, hy.perm.append ih.2⟩

/-- Emitters, then a directive that takes their values and leaves one. -/
theorem of_subs (ys : List Emitter) {dss : List (List Directive)} (hlabels : x.labels = 0)
    (hbody : x.body = ys.map .sub ++ [.directive d]) (hd : Performs d ⟨ys.length, 1⟩)
    (hys : List.Forall₂ Carries ys dss) : x.Carries (d.hallmark?.toList ++ dss.flatten) where
  balanced := .of_subs hlabels hbody hd (of_forall₂ hys).1
  perm := by
    rw [directives_eq, hbody, directivesOf_append, directivesOf_subs, List.filterMap_append]
    refine List.perm_append_comm.trans (List.Perm.append (.of_eq ?_) (of_forall₂ hys).2)
    simp only [directivesOf, List.filterMap_cons, List.filterMap_nil]
    cases d.hallmark? <;> rfl

/-- A directive alone. -/
theorem of_directive (hlabels : x.labels = 0) (hbody : x.body = [.directive d]) (hd : Performs d ⟨0, 1⟩) :
    x.Carries d.hallmark?.toList :=
  (of_subs [] hlabels hbody hd .nil).congr (by simp)

/-! ### Conversions -/

/-- A conversion is no hallmark. -/
theorem andThen (h : x.Carries ds) (hd : Performs d ⟨1, 1⟩) (hnone : d.hallmark? = none) :
    (x.andThen representation type [d]).Carries ds :=
  (of_subs [x] rfl rfl hd (.cons h .nil)).congr (by simp [hnone])

theorem toBoxed (h : x.Carries ds) : x.toBoxed.Carries ds := by
  unfold Emitter.toBoxed
  split
  case h_4 => exact h.of_body rfl rfl
  all_goals exact h.andThen ⟨rfl, nofun, nofun⟩ rfl

theorem toInt (h : x.Carries ds) : x.toInt.Carries ds := by
  unfold Emitter.toInt
  split
  · exact h
  · exact h.toBoxed.andThen ⟨rfl, nofun, nofun⟩ rfl

theorem toFloat (h : x.Carries ds) : x.toFloat.Carries ds := by
  unfold Emitter.toFloat
  split
  · exact h
  · exact h.andThen ⟨rfl, nofun, nofun⟩ rfl
  · exact h.toBoxed.andThen ⟨rfl, nofun, nofun⟩ rfl

theorem toBool (h : x.Carries ds) : x.toBool.Carries ds := by
  unfold Emitter.toBool
  split
  · exact h
  · exact h.andThen ⟨rfl, nofun, nofun⟩ rfl
  · exact h.andThen ⟨rfl, nofun, nofun⟩ rfl
  · exact h.toBoxed.andThen ⟨rfl, nofun, nofun⟩ rfl

theorem toText (h : x.Carries ds) : x.toText.Carries ds := by
  unfold Emitter.toText
  split
  · exact h
  case h_5 => exact h.toBoxed.andThen ⟨rfl, nofun, nofun⟩ rfl
  all_goals exact h.andThen ⟨rfl, nofun, nofun⟩ rfl

theorem convert (h : x.Carries ds) (target : Representation) : (x.convert target).Carries ds := by
  unfold Emitter.convert
  split
  · exact h.toInt
  · exact h.toFloat
  · exact h.toBool
  · exact h.toText
  · exact h.toBoxed
  · split
    · exact h
    · exact h.toBoxed

/-! ### Operators -/

theorem unary (h : x.Carries ds) (hd : Performs d ⟨1, 1⟩) (hnone : d.hallmark? = none) :
    (Emitter.unary representation type span x [d]).Carries ds :=
  (of_subs [x] rfl rfl hd (.cons h .nil)).congr (by simp [hnone])

theorem binary (hx : x.Carries ds) (hy : y.Carries es) (hd : Performs d ⟨2, 1⟩) (hnone : d.hallmark? = none) :
    (Emitter.binary representation type span x y [d]).Carries (ds ++ es) :=
  (of_subs [x, y] rfl rfl hd (.cons hx (.cons hy .nil))).congr (by simp [hnone])

theorem arithmetic {onInts onFloats : Opcode} {generic : RuntimeFunction} (hx : x.Carries ds) (hy : y.Carries es)
    (hints : Performs (.emit onInts) ⟨2, 1⟩) (hfloats : Performs (.emit onFloats) ⟨2, 1⟩) (harity : generic.arity = 2)
    (hgeneric : generic ≠ .getItem) : (Emitter.arithmetic onInts onFloats generic span x y).Carries (ds ++ es) := by
  unfold Emitter.arithmetic
  split
  · exact hx.toInt.binary hy.toInt hints rfl
  · split
    · exact hx.toFloat.binary hy.toFloat hfloats rfl
    · exact hx.toBoxed.binary hy.toBoxed ⟨by rw [Directive.effect?, harity], nofun, nofun⟩ (if_neg hgeneric)

theorem plus (hx : x.Carries ds) (hy : y.Carries es) : (Emitter.plus span x y).Carries (ds ++ es) := by
  unfold Emitter.plus
  split
  · exact hx.toText.binary hy.toText ⟨rfl, nofun, nofun⟩ rfl
  · exact hx.arithmetic hy ⟨rfl, nofun, nofun⟩ ⟨rfl, nofun, nofun⟩ rfl nofun

theorem negate (h : x.Carries ds) : (Emitter.negate span x).Carries ds := by
  unfold Emitter.negate
  split
  · exact h.toInt.unary ⟨rfl, nofun, nofun⟩ rfl
  · split
    · exact h.toFloat.unary ⟨rfl, nofun, nofun⟩ rfl
    · exact h.toBoxed.unary ⟨rfl, nofun, nofun⟩ rfl

/-- The operands may be taken in either order. -/
theorem relation {onInts onFloats : Opcode} {generic : RuntimeFunction} {reversed : Bool} (hx : x.Carries ds)
    (hy : y.Carries es) (hints : Performs (.emit onInts) ⟨2, 1⟩) (hfloats : Performs (.emit onFloats) ⟨2, 1⟩)
    (harity : generic.arity = 2) (hgeneric : generic ≠ .getItem) :
    (Emitter.relation onInts onFloats generic reversed span x y).Carries (ds ++ es) := by
  have hinvoke : Performs (.invoke generic) ⟨2, 1⟩ := ⟨by rw [Directive.effect?, harity], nofun, nofun⟩
  unfold Emitter.relation
  repeat' split
  · exact hx.toInt.binary hy.toInt hints rfl
  · exact hx.toFloat.binary hy.toFloat hfloats rfl
  · exact (hy.toBoxed.binary hx.toBoxed hinvoke (if_neg hgeneric)).congr List.perm_append_comm
  · exact hx.toBoxed.binary hy.toBoxed hinvoke (if_neg hgeneric)

theorem stringEquality (hx : x.Carries ds) (hy : y.Carries es) :
    (Emitter.stringEquality span x y).Carries (ds ++ es) := by
  unfold Emitter.stringEquality
  repeat' split
  · exact hx.toText.binary hy.toText ⟨rfl, nofun, nofun⟩ rfl
  · exact hx.toText.binary hy.toFloat ⟨rfl, nofun, nofun⟩ rfl
  · exact hx.toText.binary hy.toBoxed ⟨rfl, nofun, nofun⟩ rfl

theorem equality (hx : x.Carries ds) (hy : y.Carries es) : (Emitter.equality span x y).Carries (ds ++ es) := by
  unfold Emitter.equality
  repeat' split
  · exact hx.stringEquality hy
  · exact (hy.stringEquality hx).congr List.perm_append_comm
  · exact hx.toInt.binary hy.toInt ⟨rfl, nofun, nofun⟩ rfl
  · exact hx.toFloat.binary hy.toFloat ⟨rfl, nofun, nofun⟩ rfl
  · exact hx.toBoxed.binary hy.toBoxed ⟨rfl, nofun, nofun⟩ rfl

theorem inequality (hx : x.Carries ds) (hy : y.Carries es) : (Emitter.inequality span x y).Carries (ds ++ es) :=
  (hx.equality hy).unary ⟨rfl, nofun, nofun⟩ rfl

theorem getItem {constant : Bool} (hx : x.Carries ds) (hy : y.Carries es) :
    (Emitter.getItem type constant span x y).Carries (.invoke .getItem :: (ds ++ es)) :=
  (of_subs [x, y] (d := .invoke .getItem) rfl rfl ⟨rfl, nofun, nofun⟩ (.cons hx (.cons hy .nil))).congr
    (by simp [Directive.hallmark?])

theorem nativeCall {name : String} {xs : List Emitter} {dss : List (List Directive)} (hxs : List.Forall₂ Carries xs dss)
    (hlength : xs.length ≤ 255) :
    (Emitter.nativeCall name type span xs).Carries (.callNative name xs.length :: dss.flatten) := by
  have hboxed : List.Forall₂ Carries (xs.map Emitter.toBoxed) dss :=
    List.forall₂_map_left_iff.2 (hxs.imp fun _ _ h => h.toBoxed)
  have hcount : xs.length < 256 := Nat.lt_succ_of_le hlength
  have hd : Performs (.callNative name xs.length) ⟨(xs.map Emitter.toBoxed).length, 1⟩ :=
    ⟨by simp [Directive.effect?, hcount], nofun, nofun⟩
  refine of_subs (xs.map Emitter.toBoxed) rfl ?_ hd hboxed
  rw [List.map_map]
  rfl

/-! ### Branches -/

theorem shortCircuit (hx : x.Carries ds) (hy : y.Carries es) (decided : Bool) :
    (Emitter.shortCircuit decided span x y).Carries
      (.jump (if decided then .ifTrue else .ifFalse) 0 :: .jump .always 0 :: (ds ++ es)) where
  balanced := by
    refine .intro [(true, some 0), (true, some 1)] (by cases decided <;> rfl) (by simp) ?_ ?_
    · simp [Emitter.shortCircuit, make]
    · simp [Emitter.shortCircuit, make, hx.toBool.balanced, hy.toBool.balanced]
  perm := by
    simp only [directives_eq, Emitter.shortCircuit, make, directivesOf, List.filterMap_append, List.filterMap_cons,
      Directive.hallmark?, List.filterMap_nil]
    rw [← directives_eq, ← directives_eq]
    refine (hx.toBool.perm.append ((hy.toBool.perm.append_right _).cons _)).trans (List.perm_middle.trans (.cons _ ?_))
    rw [← List.append_assoc]
    exact List.perm_append_singleton _ _

theorem orElse (hx : x.Carries ds) (hy : y.Carries es) :
    (Emitter.orElse type span x y).Carries (.jump .ifFalse 0 :: (ds ++ es)) where
  balanced := by
    refine .intro [(true, some 1)] rfl (by simp) ?_ ?_
    · simp [Emitter.orElse, make]
    · simp [Emitter.orElse, make, hx.toBoxed.balanced, hy.toBoxed.balanced]
  perm := by
    simp only [directives_eq, Emitter.orElse, make, directivesOf, List.filterMap_append, List.filterMap_cons,
      Directive.hallmark?, List.filterMap_nil, reduceCtorEq, if_false, List.append_nil]
    rw [← directives_eq, ← directives_eq]
    exact (hx.toBoxed.perm.append (hy.toBoxed.perm.cons _)).trans List.perm_middle

theorem conditional (hx : x.Carries ds) (hy : y.Carries es) (hz : z.Carries fs) :
    (Emitter.conditional type span x y z).Carries (.jump .ifFalse 0 :: .jump .always 0 :: (ds ++ es ++ fs)) where
  balanced := by
    refine .intro [(true, some 0), (true, some 1)] rfl (by simp) ?_ ?_
    · simp [Emitter.conditional, make]
    · simp [Emitter.conditional, make, hx.toBool.balanced, (hy.convert _).balanced, (hz.convert _).balanced]
  perm := by
    simp only [directives_eq, Emitter.conditional, make, directivesOf, List.filterMap_append, List.filterMap_cons,
      Directive.hallmark?, List.filterMap_nil, List.append_nil]
    simp only [← directives_eq]
    refine (hx.toBool.perm.append (((hy.convert _).perm.append ((hz.convert _).perm.cons _)).cons _)).trans
      (List.perm_middle.trans (.cons _ ?_))
    rw [← List.append_assoc]
    exact List.perm_middle

end Carries

/-! ### Collections -/

/-- Steps that leave one value where there was one, with the directives that they carry. -/
private structure Rounds (steps : List (Step Emitter)) (ds : List Directive) : Prop where
  height : ∀ rest, Outline.steps? ⟨1, true, []⟩ (steps ++ rest) = Outline.steps? ⟨1, true, []⟩ rest
  makes : Step.directive .newLabel ∉ steps
  balanced : ∀ y, Step.sub y ∈ steps → y.Balanced
  perm : ((directivesOf steps).filterMap Directive.hallmark?).Perm ds

private theorem Rounds.flatMap {α β : Type} {f : α → List (Step Emitter)} {g : β → List Directive} {as : List α}
    {bs : List β} (h : List.Forall₂ (fun a b => Rounds (f a) (g b)) as bs) : Rounds (as.flatMap f) (bs.flatMap g) := by
  induction h with
  | nil => exact ⟨fun _ => rfl, nofun, nofun, .refl _⟩
  | cons hab _ ih =>
    rw [List.flatMap_cons, List.flatMap_cons]
    refine ⟨fun rest => ?_, ?_, fun y hy => ?_, ?_⟩
    · rw [List.append_assoc, hab.height, ih.height]
    · rw [List.mem_append]
      exact not_or.2 ⟨hab.makes, ih.makes⟩
    · exact (List.mem_append.1 hy).elim (hab.balanced y) (ih.balanced y)
    · rw [directivesOf_append, List.filterMap_append]
      exact hab.perm.append ih.perm

namespace Carries

variable {x : Emitter} {d : Directive} {ds : List Directive} {span : Span}

/-- A new collection, then what is put into it. -/
private theorem of_rounds {steps : List (Step Emitter)} (h : Rounds steps ds) (hlabels : x.labels = 0)
    (hbody : x.body = .directive d :: steps) (hd : Performs d ⟨0, 1⟩) (hnone : d.hallmark? = none) : x.Carries ds where
  balanced := by
    refine .intro [] ?_ nofun ?_ fun y hy => ?_
    · have hsteps := h.height []
      rw [List.append_nil] at hsteps
      rw [hlabels, hbody]
      exact (steps?_directive hd (Nat.zero_le _)).trans hsteps
    · rw [hbody, List.mem_cons]
      refine not_or.2 ⟨fun heq => ?_, h.makes⟩
      cases heq
      cases hd.effect
    · rw [hbody] at hy
      obtain heq | hy := List.mem_cons.1 hy
      · cases heq
      · exact h.balanced y hy
  perm := by
    rw [directives_eq, hbody, directivesOf, List.filterMap_cons, hnone]
    exact h.perm

theorem list {xs : List Emitter} {dss : List (List Directive)} (hxs : List.Forall₂ Carries xs dss) :
    (Emitter.list span xs).Carries dss.flatten := by
  have hrounds := Rounds.flatMap (f := fun x => [.sub x.toBoxed, .directive (.emit .listAppend)]) (g := id)
    (hxs.imp fun x ds h => ⟨fun _ => rfl, by simp, by simp [h.toBoxed.balanced], by
      simpa [directivesOf, List.filterMap_cons, Directive.hallmark?] using h.toBoxed.perm⟩)
  rw [List.flatMap_id] at hrounds
  exact of_rounds hrounds rfl rfl ⟨rfl, nofun, nofun⟩ rfl

theorem map {xs : List (Emitter × Emitter)} {dss : List (List Directive × List Directive)}
    (hxs : List.Forall₂ (fun x ds => x.1.Carries ds.1 ∧ x.2.Carries ds.2) xs dss) :
    (Emitter.map span xs).Carries (dss.flatMap fun ds => ds.1 ++ ds.2) := by
  have hrounds := Rounds.flatMap (f := fun x => [.sub x.1.toText, .sub x.2.toBoxed, .directive (.emit .mapPut)])
    (g := fun ds => ds.1 ++ ds.2) (hxs.imp fun x ds h => ⟨fun _ => rfl, by simp,
      by simp [h.1.toText.balanced, h.2.toBoxed.balanced], by
      simpa [directivesOf, List.filterMap_cons, Directive.hallmark?] using h.1.toText.perm.append h.2.toBoxed.perm⟩)
  exact of_rounds hrounds rfl rfl ⟨rfl, nofun, nofun⟩ rfl

/-! ### Expressions -/

theorem literal (v : Literal) : (v.emitter span).Carries (Expr.literal v span).hallmarks := by
  cases v with
  | null => exact of_directive (d := .pushNull) rfl rfl ⟨rfl, nofun, nofun⟩
  | bool b => exact of_directive (d := .pushBool b) rfl rfl ⟨rfl, nofun, nofun⟩
  | int n => exact of_directive (d := .pushInt n) rfl rfl ⟨rfl, nofun, nofun⟩
  | float x => exact of_directive (d := .pushFloat x) rfl rfl ⟨rfl, nofun, nofun⟩
  | string s => exact of_directive (d := .pushConstant (.string s)) rfl rfl ⟨rfl, nofun, nofun⟩

theorem global (name : String) (type : StaticType) :
    (make .boxed type false span 0 [.directive (.getGlobal name)]).Carries [.getGlobal name] :=
  of_directive (d := .getGlobal name) rfl rfl ⟨rfl, nofun, nofun⟩

theorem emptyList : (Emitter.emptyList span).Carries [] :=
  of_directive (d := .emit .emptyList) rfl rfl ⟨rfl, nofun, nofun⟩

theorem emptyMap : (Emitter.emptyMap span).Carries [] :=
  of_directive (d := .emit .emptyMap) rfl rfl ⟨rfl, nofun, nofun⟩

theorem unaryOp {o : UnaryOp} (h : x.Carries ds) : (o.emitter span x).Carries ds := by
  cases o with
  | negate => exact h.negate
  | not => exact h.toBool.unary ⟨rfl, nofun, nofun⟩ rfl

theorem binaryOp {o : BinaryOp} {l r : Expr} {type type' : StaticType} {y : Emitter} {es : List Directive}
    (hx : x.Carries ds) (hy : y.Carries es) :
    (o.emitter type span x y).Carries ((Expr.binary o l r type' span).hallmarks ++ (ds ++ es)) := by
  cases o with
  | add => exact hx.plus hy
  | sub | mul => exact hx.arithmetic hy ⟨rfl, nofun, nofun⟩ ⟨rfl, nofun, nofun⟩ rfl nofun
  | div => exact hx.toFloat.binary hy.toFloat ⟨rfl, nofun, nofun⟩ rfl
  | mod => exact hx.toInt.binary hy.toInt ⟨rfl, nofun, nofun⟩ rfl
  | eq => exact hx.equality hy
  | ne => exact hx.inequality hy
  | lt | le | gt | ge => exact hx.relation hy ⟨rfl, nofun, nofun⟩ ⟨rfl, nofun, nofun⟩ rfl nofun
  | and => exact hx.shortCircuit hy false
  | or => exact hx.shortCircuit hy true
  | orElse => exact hx.orElse hy

end Carries

/-- The emitter of an expression carries the hallmarks of all its nodes. -/
theorem carries_of_compile {e : Expr} {x : Emitter} (h : e.compile .global = .ok x) :
    x.Carries (e.nodes.flatMap Expr.hallmarks) := by
  refine Expr.induct_compile (P := fun e x => x.Carries (e.nodes.flatMap Expr.hallmarks)) ?literal ?var ?field ?item
    ?call ?unary ?binary ?conditional ?emptyList ?list ?emptyMap ?map h
  case literal => exact fun v s => (Carries.literal v).congr (by simp [Expr.nodes])
  case var => exact fun n t s => Carries.global n t
  case field =>
    intro b y n t s hb
    refine (hb.holds.toBoxed.getItem (Carries.literal (.string n))).congr ?_
    rw [Expr.nodes, List.flatMap_cons]
    exact ((List.perm_append_singleton _ _).cons _).trans (.swap _ _ _)
  case item =>
    intro b k y z t s hb hk
    rw [Expr.nodes, List.flatMap_cons, List.flatMap_append]
    exact hb.holds.toBoxed.getItem hk.holds.toBoxed
  case call =>
    intro n as xs t s has hlength
    have hxs : List.Forall₂ Carries xs (as.map fun e => e.nodes.flatMap Expr.hallmarks) :=
      List.forall₂_map_right_iff.2 (has.imp fun e y hy => hy.holds).flip
    have hcall : (Emitter.nativeCall n t s xs).Carries _ := Carries.nativeCall hxs hlength
    rw [Expr.nodes, Expr.nodesList_eq, List.flatMap_cons, List.flatMap_assoc, List.flatMap_def, Expr.hallmarks,
      has.length_eq]
    exact hcall
  case unary => exact fun o e y t s he => he.holds.unaryOp
  case binary =>
    intro o l r y z t s hl hr
    rw [Expr.nodes, List.flatMap_cons, List.flatMap_append]
    exact hl.holds.binaryOp hr.holds
  case conditional =>
    intro c a b x y z t s hc ha hb
    rw [Expr.nodes, List.flatMap_cons, List.flatMap_append, List.flatMap_append]
    exact hc.holds.conditional ha.holds hb.holds
  case emptyList => exact fun s => Carries.emptyList
  case list =>
    intro es xs s _ hes
    have hxs : List.Forall₂ Carries xs (es.map fun e => e.nodes.flatMap Expr.hallmarks) :=
      List.forall₂_map_right_iff.2 (hes.imp fun e y hy => hy.holds).flip
    rw [Expr.nodes, Expr.nodesList_eq, List.flatMap_cons, List.flatMap_assoc, List.flatMap_def]
    exact Carries.list hxs
  case emptyMap => exact fun s => Carries.emptyMap
  case map =>
    intro es xs s _ hes
    have hxs : List.Forall₂ (fun (y : Emitter × Emitter) ds => y.1.Carries ds.1 ∧ y.2.Carries ds.2) xs
        (es.map fun e => (e.1.nodes.flatMap Expr.hallmarks, e.2.nodes.flatMap Expr.hallmarks)) :=
      List.forall₂_map_right_iff.2 (hes.imp fun e y hy => ⟨hy.1.holds, hy.2.holds⟩).flip
    have hmap : (Emitter.map s xs).Carries _ := Carries.map hxs
    rw [List.flatMap_map] at hmap
    simp only [Expr.nodes, Expr.nodesEntries_eq, List.flatMap_cons, List.flatMap_assoc, List.flatMap_append]
    exact hmap

end Emitter

end TemplateExpr
