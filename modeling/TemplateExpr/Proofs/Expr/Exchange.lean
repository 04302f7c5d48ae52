import Mathlib
import TemplateExpr.Expr.Schema
import TemplateExpr.Proofs.Compilation.Nodes
import TemplateExpr.Proofs.Json.Basic

/-!
# Expressions come back from their documents

* (parts) What fills a part of a node is read as that part from its document: an operator, a type, a span, a literal
  whose float is finite.
* (nodes) The members of an object may come in any order, so a node is read if its parts are (`Expr.Fills.isRead`).
* (trees) By induction on the expression, each is read from its document (`Expr.isRead`).
-/

namespace TemplateExpr

open Json (Reorders)

/-! ### Parts without expressions in them -/

theorem StaticType.ofJson?_toJson (t : StaticType) : StaticType.ofJson? t.toJson = some t := by
  cases t with
  | known k => cases k <;> rfl
  | unknown => rfl

theorem UnaryOp.ofJson?_tag (o : UnaryOp) : UnaryOp.ofJson? (.string o.tag) = some o := by
  cases o <;> rfl

theorem BinaryOp.ofJson?_tag (o : BinaryOp) : BinaryOp.ofJson? (.string o.tag) = some o := by
  cases o <;> rfl

theorem Json.nat?_nat (n : Nat) : (Json.nat n).nat? = some n := by
  simp [Json.nat, Json.nat?]

theorem Json.int64?_toInt (n : Int64) : (Json.integer n.toInt).int64? = some n := by
  rw [Json.int64?, if_pos ⟨Int64.minValue_le_toInt n, Int64.toInt_le n⟩, Int64.ofInt_toInt]

/-- A literal whose value a document can hold. -/
def Literal.IsFinite : Literal → Prop
  | float x => x.isFinite = true
  | _ => True

/-! ### Documents with their members in another order -/

/-- An object with one member only has one order. -/
theorem Json.Reorders.of_tagged {tag : String} {content j : Json} (h : Reorders (.object [(tag, content)]) j) :
    ∃ content', j = .object [(tag, content')] ∧ Reorders content content' := by
  obtain ⟨ks, rfl, hnames, hmembers, -⟩ := h.of_object
  obtain ⟨content', hmem, hcontent⟩ := hmembers tag content List.mem_cons_self
  have hlength := hnames.length_eq
  rw [List.length_map, List.length_map] at hlength
  obtain ⟨m, rfl⟩ := List.length_eq_one_iff.1 hlength.symm
  obtain rfl := List.mem_singleton.1 hmem
  exact ⟨content', rfl, hcontent⟩

theorem Json.Reorders.member? {ms : List (String × Json)} {j v : Json} {name : String}
    (h : Reorders (.object ms) j) (hdistinct : (ms.map Prod.fst).Nodup) (hmem : (name, v) ∈ ms) :
    ∃ w, j.member? name = some w ∧ Reorders v w := by
  obtain ⟨ks, rfl, hnames, hmembers, -⟩ := h.of_object
  obtain ⟨w, hw, hvw⟩ := hmembers name v hmem
  exact ⟨w, lookup_of_mem (hnames.nodup_iff.1 hdistinct) hw, hvw⟩

theorem Span.ofJson?_of_reorders (s : Span) {j : Json} (h : Reorders s.toJson j) : Span.ofJson? j = some s := by
  have hdistinct : ["start", "end"].Nodup := by decide
  obtain ⟨start, hstart, hstart'⟩ := h.member? hdistinct List.mem_cons_self
  obtain ⟨stop, hstop, hstop'⟩ := h.member? hdistinct (List.mem_cons_of_mem _ List.mem_cons_self)
  cases hstart'
  cases hstop'
  obtain ⟨ks, rfl, -⟩ := h.of_object
  simp only [Span.ofJson?, hstart, hstop]
  simp [Json.nat?_nat]

theorem Literal.ofJson?_of_reorders {v : Literal} (hv : v.IsFinite) {j : Json} (h : Reorders v.toJson j) :
    Literal.ofJson? j = some v := by
  cases v with
  | null =>
    cases h
    rfl
  | bool b =>
    obtain ⟨content, rfl, hcontent⟩ := h.of_tagged
    cases hcontent
    rfl
  | int n =>
    obtain ⟨content, rfl, hcontent⟩ := h.of_tagged
    cases hcontent
    simp [Literal.ofJson?, Json.int64?_toInt]
  | float x =>
    obtain ⟨content, rfl, hcontent⟩ := h.of_tagged
    have hx : x.isFinite = true := hv
    rw [Json.ofFloat, if_pos hx] at hcontent
    cases hcontent
    rfl
  | string s =>
    obtain ⟨content, rfl, hcontent⟩ := h.of_tagged
    cases hcontent
    rfl

namespace Expr

/-! ### Reading a node -/

/-- Every document that is this one but for the order of members is read as the part. -/
def Reads (shape : Shape) (doc : Json) (part : Part) : Prop := ∀ j, Reorders doc j → ofPart? shape j = some part

/-- The members of an object in the order of a schema, with the parts as which they are read. -/
inductive Fills : List (String × Shape) → List (String × Json) → List Part → Prop
  | nil : Fills [] [] []
  | cons {name : String} {shape : Shape} {doc : Json} {part : Part} {parts : List (String × Shape)}
      {members : List (String × Json)} {read : List Part} (h : Reads shape doc part) (rest : Fills parts members read) :
      Fills ((name, shape) :: parts) ((name, doc) :: members) (part :: read)

/-- The parts of a node have different names. -/
theorem nodup_of_schema? {tag : String} {parts : List (String × Shape)} (h : schema? tag = some (.record parts)) :
    (parts.map Prod.fst).Nodup := by
  unfold schema? at h
  split at h <;> cases h <;> decide

/-- What is read from members that a schema names, if all of them can be read. -/
theorem exists_ofMembers? {parts : List (String × Shape)} {ks : List (String × Json)}
    (h : ∀ name j shape, (name, j) ∈ ks → parts.lookup name = some shape → ∃ part, ofPart? shape j = some part) :
    ∃ read, ofMembers? parts ks = some read ∧ (read.map Prod.fst).Sublist (ks.map Prod.fst) ∧
      ∀ name j shape part, (name, j) ∈ ks → parts.lookup name = some shape → ofPart? shape j = some part →
        (name, part) ∈ read := by
  induction ks with
  | nil => exact ⟨[], rfl, .slnil, nofun⟩
  | cons m ks ih =>
    obtain ⟨name, j⟩ := m
    obtain ⟨read, hread, hnames, hmem⟩ :=
      ih fun name' j' shape hmem => h name' j' shape (List.mem_cons_of_mem _ hmem)
    cases hshape : parts.lookup name with
    | none =>
      refine ⟨read, ?_, hnames.cons name, fun name' j' shape' part' hmem' hshape' hpart' => ?_⟩
      · rw [ofMembers?, hshape]
        exact hread
      · obtain heq | hmem' := List.mem_cons.1 hmem'
        · cases heq
          rw [hshape] at hshape'
          cases hshape'
        · exact hmem name' j' shape' part' hmem' hshape' hpart'
    | some shape =>
      obtain ⟨part, hpart⟩ := h name j shape List.mem_cons_self hshape
      refine ⟨(name, part) :: read, ?_, hnames.cons_cons name, fun name' j' shape' part' hmem' hshape' hpart' => ?_⟩
      · rw [ofMembers?, hshape]
        simp only [hpart, hread]
        rfl
      · obtain heq | hmem' := List.mem_cons.1 hmem'
        · cases heq
          rw [hshape] at hshape'
          cases hshape'
          rw [hpart] at hpart'
          cases hpart'
          exact List.mem_cons_self
        · exact List.mem_cons_of_mem _ (hmem name' j' shape' part' hmem' hshape' hpart')

namespace Fills

variable {parts : List (String × Shape)} {members : List (String × Json)} {read : List Part}

theorem names (h : Fills parts members read) : members.map Prod.fst = parts.map Prod.fst := by
  induction h with
  | nil => rfl
  | cons _ _ ih => rw [List.map_cons, List.map_cons, ih]

theorem exists_of_mem (h : Fills parts members read) {name : String} {shape : Shape} (hmem : (name, shape) ∈ parts) :
    ∃ doc part, (name, doc) ∈ members ∧ Reads shape doc part := by
  induction h with
  | nil => cases hmem
  | @cons name' shape' doc part _ _ _ hreads _ ih =>
    obtain heq | hmem := List.mem_cons.1 hmem
    · cases heq
      exact ⟨doc, part, List.mem_cons_self, hreads⟩
    · obtain ⟨doc', part', hmem', hreads'⟩ := ih hmem
      exact ⟨doc', part', List.mem_cons_of_mem _ hmem', hreads'⟩

/-- If every part is among those read, the parts are found in the order of the schema. -/
theorem inOrder? (h : Fills parts members read) {found : List (String × Part)}
    (hfound : ∀ name shape doc part, (name, shape) ∈ parts → (name, doc) ∈ members → Reads shape doc part →
      found.lookup name = some part) : Expr.inOrder? parts found = some read := by
  unfold Expr.inOrder?
  induction h with
  | nil => rfl
  | @cons name shape doc part parts members read hreads _ ih =>
    have hrest := ih fun name' shape' doc' part' hshape hdoc =>
      hfound name' shape' doc' part' (List.mem_cons_of_mem _ hshape) (List.mem_cons_of_mem _ hdoc)
    rw [List.mapM_cons, hfound name shape doc part List.mem_cons_self List.mem_cons_self hreads]
    simp only [hrest]
    rfl

/-- A node's parts are read from its members in any order. -/
theorem ofContent? (h : Fills parts members read) {tag : String} (hschema : schema? tag = some (.record parts))
    {j : Json} (hj : Reorders (.object members) j) : Expr.ofContent? tag j = ofParts? tag read := by
  obtain ⟨ks, rfl, hnames, hmembers, hback⟩ := hj.of_object
  have hparts := nodup_of_schema? hschema
  have hdistinct : (members.map Prod.fst).Nodup := h.names ▸ hparts
  have hdistinct' : (ks.map Prod.fst).Nodup := hnames.nodup_iff.1 hdistinct
  have hreadable : ∀ name j shape, (name, j) ∈ ks → parts.lookup name = some shape →
      ∃ part, ofPart? shape j = some part := by
    intro name j shape hj hshape
    obtain ⟨before, after, rfl, -⟩ := List.lookup_eq_some_iff.1 hshape
    obtain ⟨doc, part, hdoc, hreads⟩ := h.exists_of_mem (List.mem_append_right before List.mem_cons_self)
    obtain ⟨doc', hdoc', hj⟩ := hback name j hj
    have heq := (lookup_of_mem hdistinct hdoc).symm.trans (lookup_of_mem hdistinct hdoc')
    cases heq
    exact ⟨part, hreads j hj⟩
  obtain ⟨found, hfound, hsublist, hall⟩ := exists_ofMembers? hreadable
  have horder : Expr.inOrder? parts found = some read := by
    refine h.inOrder? fun name shape doc part hshape hdoc hreads => ?_
    obtain ⟨w, hw, hdocw⟩ := hmembers name doc hdoc
    have hpart := hall name w shape part hw (lookup_of_mem hparts hshape) (hreads w hdocw)
    exact lookup_of_mem (hsublist.nodup hdistinct') hpart
  rw [Expr.ofContent?, hschema]
  simp only [hfound]
  change (Expr.inOrder? parts found >>= ofParts? tag) = _
  rw [horder]
  rfl

end Fills

/-- The expression is read from its document, in whatever order the members of its objects stand. -/
def IsRead (e : Expr) : Prop := ∀ j, Reorders e.toJson j → ∃ tag content, j = .object [(tag, content)] ∧
  Expr.ofContent? tag content = some e

theorem Fills.isRead {e : Expr} {tag : String} {parts : List (String × Shape)} {members : List (String × Json)}
    {read : List Part} (h : Fills parts members read) (hjson : e.toJson = .object [(tag, .object members)])
    (hschema : schema? tag = some (.record parts)) (hread : ofParts? tag read = some e) : e.IsRead := by
  intro j hj
  rw [hjson] at hj
  obtain ⟨content, rfl, hcontent⟩ := hj.of_tagged
  exact ⟨tag, content, rfl, (h.ofContent? hschema hcontent).trans hread⟩

/-! ### The shapes of parts -/

theorem reads_text (s : String) : Reads .text (.string s) (.text s) := by
  intro j hj
  cases hj
  rw [ofPart?]

theorem reads_unaryOp (o : UnaryOp) : Reads .unaryOp (.string o.tag) (.unaryOp o) := by
  intro j hj
  cases hj
  rw [ofPart?, UnaryOp.ofJson?_tag]
  rfl

theorem reads_binaryOp (o : BinaryOp) : Reads .binaryOp (.string o.tag) (.binaryOp o) := by
  intro j hj
  cases hj
  rw [ofPart?, BinaryOp.ofJson?_tag]
  rfl

theorem reads_type (t : StaticType) : Reads .type t.toJson (.type t) := by
  intro j hj
  cases hj
  rw [ofPart?, StaticType.ofJson?_toJson]
  rfl

theorem reads_span (s : Span) : Reads .span s.toJson (.span s) := by
  intro j hj
  rw [ofPart?, s.ofJson?_of_reorders hj]
  rfl

theorem reads_literal {v : Literal} (hv : v.IsFinite) : Reads .literal v.toJson (.literal v) := by
  intro j hj
  rw [ofPart?, Literal.ofJson?_of_reorders hv hj]
  rfl

theorem reads_expr {e : Expr} (h : e.IsRead) : Reads .expr e.toJson (.expr e) := by
  intro j hj
  obtain ⟨tag, content, rfl, hcontent⟩ := h j hj
  rw [ofPart?, hcontent]
  rfl

theorem listToJson_eq (es : List Expr) (done : List Json) : listToJson es done = done.reverse ++ es.map toJson := by
  induction es generalizing done with
  | nil => simp [listToJson]
  | cons e es ih => simp [listToJson, ih]

theorem entriesToJson_eq (es : List (Expr × Expr)) (done : List Json) :
    entriesToJson es done = done.reverse ++ es.map fun e => .array [e.1.toJson, e.2.toJson] := by
  induction es generalizing done with
  | nil => simp [entriesToJson]
  | cons e es ih => simp [entriesToJson, ih]

theorem ofList?_eq {es : List Expr} (h : ∀ e ∈ es, e.IsRead) {js : List Json}
    (hjs : List.Forall₂ Reorders (es.map toJson) js) (done : List Expr) :
    ofList? js done = some (done.reverse ++ es) := by
  induction es generalizing js done with
  | nil =>
    cases hjs
    simp [ofList?]
  | cons e es ih =>
    cases hjs with
    | cons hj hjs =>
      obtain ⟨tag, content, rfl, hcontent⟩ := h e List.mem_cons_self _ hj
      simp only [ofList?, hcontent]
      rw [ih (fun e' he' => h e' (List.mem_cons_of_mem _ he')) hjs]
      simp

theorem ofPairs?_eq {es : List (Expr × Expr)} (h : ∀ e ∈ es, e.1.IsRead ∧ e.2.IsRead) {js : List Json}
    (hjs : List.Forall₂ Reorders (es.map fun e => .array [e.1.toJson, e.2.toJson]) js) (done : List (Expr × Expr)) :
    ofPairs? js done = some (done.reverse ++ es) := by
  induction es generalizing js done with
  | nil =>
    cases hjs
    simp [ofPairs?]
  | cons e es ih =>
    cases hjs with
    | cons hj hjs =>
      obtain ⟨hkey, hvalue⟩ := h e List.mem_cons_self
      obtain ⟨pair, rfl, hpair⟩ := hj.of_array
      cases hpair with
      | cons hk hpair =>
        cases hpair with
        | cons hv hpair =>
          cases hpair
          obtain ⟨keyTag, key, rfl, hkey⟩ := hkey _ hk
          obtain ⟨valueTag, value, rfl, hvalue⟩ := hvalue _ hv
          simp only [ofPairs?, hkey, hvalue]
          rw [ih (fun e' he' => h e' (List.mem_cons_of_mem _ he')) hjs]
          simp

theorem reads_exprs {es : List Expr} (h : ∀ e ∈ es, e.IsRead) :
    Reads .exprs (.array (listToJson es [])) (.exprs es) := by
  intro j hj
  rw [listToJson_eq] at hj
  obtain ⟨js, rfl, hjs⟩ := hj.of_array
  rw [ofPart?, ofList?_eq h hjs]
  rfl

theorem reads_pairs {es : List (Expr × Expr)} (h : ∀ e ∈ es, e.1.IsRead ∧ e.2.IsRead) :
    Reads .pairs (.array (entriesToJson es [])) (.pairs es) := by
  intro j hj
  rw [entriesToJson_eq] at hj
  obtain ⟨js, rfl, hjs⟩ := hj.of_array
  rw [ofPart?, ofPairs?_eq h hjs]
  rfl

/-- Every node but a literal ends with its span, and most have a type before it. -/
theorem fills_span (s : Span) : Fills [("span", .span)] [("span", s.toJson)] [.span s] := .cons (reads_span s) .nil

theorem fills_typed (t : StaticType) (s : Span) :
    Fills [("ty", .type), ("span", .span)] [("ty", t.toJson), ("span", s.toJson)] [.type t, .span s] :=
  .cons (reads_type t) (fills_span s)

/-! ### Trees -/

/-- The float literals of an expression are finite. -/
def HasFiniteFloats (e : Expr) : Prop := ∀ v s, literal v s ∈ e.nodes → v.IsFinite

theorem isRead_literal {v : Literal} (hv : v.IsFinite) (s : Span) : (literal v s).IsRead := by
  intro j hj
  obtain ⟨content, rfl, hcontent⟩ := hj.of_tagged
  obtain ⟨pair, rfl, hpair⟩ := hcontent.of_array
  cases hpair with
  | cons hvalue hpair =>
    cases hpair with
    | cons hspan hpair =>
      cases hpair
      refine ⟨_, _, rfl, ?_⟩
      simp only [ofContent?, schema?, ofElements?, reads_literal hv _ hvalue, reads_span s _ hspan]
      rfl

theorem isRead {e : Expr} (h : e.HasFiniteFloats) : e.IsRead := by
  have hfinite : ∀ n ∈ e.nodes, ∀ v s, n = .literal v s → v.IsFinite := fun n hn v s heq => h v s (heq ▸ hn)
  refine induct_nodes ?literal ?var ?field ?item ?call ?unary ?binary ?conditional ?list ?map hfinite
  case literal => exact fun v s hv => isRead_literal (hv v s rfl) s
  case var =>
    intro n t s _
    exact Fills.isRead (.cons (reads_text n) (fills_typed t s)) rfl rfl rfl
  case field =>
    intro b n t s _ hb
    exact Fills.isRead (.cons (reads_expr hb) (.cons (reads_text n) (fills_typed t s))) rfl rfl rfl
  case item =>
    intro b k t s _ hb hk
    exact Fills.isRead (.cons (reads_expr hb) (.cons (reads_expr hk) (fills_typed t s))) rfl rfl rfl
  case call =>
    intro n as t s _ has
    exact Fills.isRead (.cons (reads_text n) (.cons (reads_exprs has) (fills_typed t s))) rfl rfl rfl
  case unary =>
    intro o e t s _ he
    exact Fills.isRead (.cons (reads_unaryOp o) (.cons (reads_expr he) (fills_typed t s))) rfl rfl rfl
  case binary =>
    intro o l r t s _ hl hr
    exact Fills.isRead (.cons (reads_binaryOp o) (.cons (reads_expr hl) (.cons (reads_expr hr) (fills_typed t s))))
      rfl rfl rfl
  case conditional =>
    intro c a b t s _ hc ha hb
    exact Fills.isRead (.cons (reads_expr hc) (.cons (reads_expr ha) (.cons (reads_expr hb) (fills_typed t s))))
      rfl rfl rfl
  case list =>
    intro es s _ hes
    exact Fills.isRead (.cons (reads_exprs hes) (fills_span s)) rfl rfl rfl
  case map =>
    intro es s _ hes
    exact Fills.isRead (.cons (reads_pairs hes) (fills_span s)) rfl rfl rfl

end Expr

/-- Members in another order do not keep a root from being read. -/
theorem ExprRoot.ofJson?_of_reorders {r : ExprRoot} (h : r.expr.HasFiniteFloats) {j : Json}
    (hj : Reorders r.toJson j) : ExprRoot.ofJson? j = some r := by
  have hdistinct : ["expr", "span"].Nodup := by decide
  obtain ⟨expr, hexpr, hexpr'⟩ := hj.member? hdistinct List.mem_cons_self
  obtain ⟨span, hspan, hspan'⟩ := hj.member? hdistinct (List.mem_cons_of_mem _ List.mem_cons_self)
  obtain ⟨tag, content, rfl, hcontent⟩ := Expr.isRead h expr hexpr'
  obtain ⟨ks, rfl, -⟩ := hj.of_object
  simp only [ofJson?, hexpr, hspan]
  change (Expr.ofContent? tag content >>= fun e => Span.ofJson? span >>= fun s => some (ExprRoot.mk e s)) = some r
  rw [hcontent, r.span.ofJson?_of_reorders hspan']
  rfl

end TemplateExpr
