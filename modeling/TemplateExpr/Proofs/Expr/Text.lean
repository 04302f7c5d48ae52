import TemplateExpr.Proofs.Expr.Exchange
import TemplateExpr.Proofs.Json.Text

/-!
# Expressions come back from their texts

* (words) If the ends of its spans are words of 64 bits and its floats are finite, an expression has a document that a
  text can hold (`ExprRoot.exact_toJson`).
* (main result) A root is read from its document, in whatever order the members of its objects stand, and from the text
  of that document (`ExprRoot.read_written`).
-/

namespace TemplateExpr

open Json (Exact Reorders)

/-! ### Parts -/

/-- The ends of the span are words of 64 bits. -/
def Span.FitsWords (s : Span) : Prop := s.start < UInt64.size ∧ s.stop < UInt64.size

theorem Json.Exact.nat {n : Nat} (h : n < UInt64.size) : Exact (.nat n) := by
  refine .integer ?_
  have hlow : (-0x8000000000000000 : Int) ≤ n := by omega
  simp [isInteger, hlow, h]

theorem Span.exact_toJson (s : Span) (h : s.FitsWords) : Exact s.toJson :=
  .object (show ["start", "end"].Nodup by decide)
    (List.forall_mem_cons.2 ⟨.nat h.1, List.forall_mem_cons.2 ⟨.nat h.2, nofun⟩⟩)

/-- An object with one member has no two of one name. -/
theorem Json.Exact.tagged {j : Json} (tag : String) (h : Exact j) : Exact (.object [(tag, j)]) :=
  .object (List.nodup_singleton tag) (List.forall_mem_cons.2 ⟨h, nofun⟩)

theorem Literal.exact_toJson {v : Literal} (h : v.IsFinite) : Exact v.toJson := by
  cases v with
  | null => exact .string _
  | bool b => exact .tagged _ (.bool b)
  | int n =>
    have hlow : -2 ^ 63 ≤ n.toInt := Int64.le_toInt n
    have hhigh : n.toInt < 2 ^ 63 := Int64.toInt_lt n
    refine .tagged _ (.integer ?_)
    simp only [Json.isInteger, Bool.and_eq_true, decide_eq_true_eq]
    exact ⟨by omega, by change n.toInt < 2 ^ 64; omega⟩
  | float x =>
    have hx : x.isFinite = true := h
    rw [toJson, Json.ofFloat, if_pos hx]
    exact .tagged _ (.real hx)
  | string s => exact .tagged _ (.string s)

/-! ### Trees -/

namespace Expr

/-- The members of a node have the different names of its parts. -/
theorem exact_node {tag : String} {parts : List (String × Shape)} {members : List (String × Json)}
    (hschema : schema? tag = some (.record parts)) (hnames : members.map Prod.fst = parts.map Prod.fst)
    (h : ∀ m ∈ members, Exact m.2) : Exact (.object [(tag, .object members)]) :=
  .tagged tag (.object (hnames ▸ nodup_of_schema? hschema) h)

theorem exact_listToJson {es : List Expr} (h : ∀ e ∈ es, Exact e.toJson) : Exact (.array (listToJson es [])) := by
  rw [listToJson_eq, List.reverse_nil, List.nil_append]
  exact .array (List.forall_mem_map.2 h)

theorem exact_entriesToJson {es : List (Expr × Expr)} (h : ∀ e ∈ es, Exact e.1.toJson ∧ Exact e.2.toJson) :
    Exact (.array (entriesToJson es [])) := by
  rw [entriesToJson_eq, List.reverse_nil, List.nil_append]
  refine .array (List.forall_mem_map.2 fun e he => ?_)
  exact .array (List.forall_mem_cons.2 ⟨(h e he).1, List.forall_mem_cons.2 ⟨(h e he).2, nofun⟩⟩)

theorem exact_toJson {e : Expr} (hfinite : e.HasFiniteFloats) (hspans : ∀ n ∈ e.nodes, n.span.FitsWords) :
    Exact e.toJson := by
  have hnodes : ∀ n ∈ e.nodes, n.span.FitsWords ∧ ∀ v s, n = .literal v s → v.IsFinite :=
    fun n hn => ⟨hspans n hn, fun v s heq => hfinite v s (heq ▸ hn)⟩
  have hcons {k : String} {j : Json} {ms : List (String × Json)} (hj : Exact j) (h : ∀ m ∈ ms, Exact m.2) :
      ∀ m ∈ (k, j) :: ms, Exact m.2 := List.forall_mem_cons.2 ⟨hj, h⟩
  have hspan {s : Span} (hs : s.FitsWords) : ∀ m ∈ [("span", s.toJson)], Exact m.2 := hcons (s.exact_toJson hs) nofun
  have htyped {s : Span} (t : StaticType) (hs : s.FitsWords) :
      ∀ m ∈ [("ty", t.toJson), ("span", s.toJson)], Exact m.2 := hcons (.string t.tag) (hspan hs)
  refine induct_nodes (P := fun e => Exact e.toJson) ?literal ?var ?field ?item ?call ?unary ?binary ?conditional ?list
    ?map hnodes
  case literal =>
    intro v s hn
    refine .tagged "Literal" (.array ?_)
    exact List.forall_mem_cons.2 ⟨Literal.exact_toJson (hn.2 v s rfl),
      List.forall_mem_cons.2 ⟨s.exact_toJson hn.1, nofun⟩⟩
  case var =>
    intro n t s hn
    exact exact_node rfl rfl (hcons (.string n) (htyped t hn.1))
  case field =>
    intro b n t s hn hb
    exact exact_node rfl rfl (hcons hb (hcons (.string n) (htyped t hn.1)))
  case item =>
    intro b k t s hn hb hk
    exact exact_node rfl rfl (hcons hb (hcons hk (htyped t hn.1)))
  case call =>
    intro n as t s hn has
    exact exact_node rfl rfl (hcons (.string n) (hcons (exact_listToJson has) (htyped t hn.1)))
  case unary =>
    intro o e t s hn he
    exact exact_node rfl rfl (hcons (.string o.tag) (hcons he (htyped t hn.1)))
  case binary =>
    intro o l r t s hn hl hr
    exact exact_node rfl rfl (hcons (.string o.tag) (hcons hl (hcons hr (htyped t hn.1))))
  case conditional =>
    intro c a b t s hn hc ha hb
    exact exact_node rfl rfl (hcons hc (hcons ha (hcons hb (htyped t hn.1))))
  case list =>
    intro es s hn hes
    exact exact_node rfl rfl (hcons (exact_listToJson hes) (hspan hn.1))
  case map =>
    intro es s hn hes
    exact exact_node rfl rfl (hcons (exact_entriesToJson hes) (hspan hn.1))

end Expr

namespace ExprRoot

/-- The ends of all spans are words of 64 bits. -/
def FitsWords (r : ExprRoot) : Prop := r.span.FitsWords ∧ ∀ n ∈ r.expr.nodes, n.span.FitsWords

theorem exact_toJson {r : ExprRoot} (hfinite : r.expr.HasFiniteFloats) (hwords : r.FitsWords) : Exact r.toJson :=
  .object (show ["expr", "span"].Nodup by decide)
    (List.forall_mem_cons.2 ⟨Expr.exact_toJson hfinite hwords.2,
      List.forall_mem_cons.2 ⟨r.span.exact_toJson hwords.1, nofun⟩⟩)

/-- A root whose float literals are finite is read from its document, and from every document that differs from it in
the order of members only. If the ends of its spans are words, it is also read from the text of such a document. -/
theorem read_written (r : ExprRoot) (h : r.expr.HasFiniteFloats) :
    ofJson? r.toJson = some r ∧ ∀ j, Reorders r.toJson j →
      ofJson? j = some r ∧ (r.FitsWords → (Json.read? j.text).bind ofJson? = some r) := by
  refine ⟨ofJson?_of_reorders h (.refl _), fun j hj => ⟨ofJson?_of_reorders h hj, fun hwords => ?_⟩⟩
  -- what a text can hold does not depend on the order of members
  have hexact : Exact j := (exact_toJson h hwords).of_reorders hj
  rw [hexact.read?_text, Option.bind_some, ofJson?_of_reorders h hj]

/-- A call with an integer and a float of one value, in a map; some spans end before they start. -/
def callInMap : ExprRoot :=
  ⟨.map [(.literal (.string "k") ⟨2, 1⟩,
      .call "f" [.literal (.int 1) ⟨3, 4⟩, .literal (.float 1.0) ⟨6, 5⟩] .unknown ⟨3, 6⟩)] ⟨1, 7⟩, ⟨7, 0⟩⟩

theorem read_written_callInMap :
    callInMap.expr.HasFiniteFloats ∧ callInMap.FitsWords ∧ ofJson? callInMap.toJson = some callInMap ∧
      (Json.read? callInMap.toJson.text).bind ofJson? = some callInMap := by
  have hfinite : callInMap.expr.HasFiniteFloats := by
    intro v s hv
    have hone : Literal.IsFinite (.float 1.0) := by
      change (1.0 : Float).isFinite = true
      decide
    simp only [callInMap, Expr.nodes, Expr.nodesEntries_eq, Expr.nodesList_eq, List.flatMap_cons, List.flatMap_nil,
      List.mem_cons, List.mem_append, List.not_mem_nil, Expr.literal.injEq, reduceCtorEq, or_false, false_or] at hv
    obtain ⟨rfl, rfl⟩ | ⟨rfl, rfl⟩ | ⟨rfl, rfl⟩ := hv
    · trivial
    · trivial
    · exact hone
  have hwords : callInMap.FitsWords := by
    refine ⟨⟨by decide, by decide⟩, fun n hn => ?_⟩
    simp only [callInMap, Expr.nodes, Expr.nodesEntries_eq, Expr.nodesList_eq, List.flatMap_cons, List.flatMap_nil,
      List.mem_cons, List.mem_append, List.not_mem_nil, or_false] at hn
    obtain rfl | rfl | rfl | rfl | rfl := hn <;> exact ⟨by decide, by decide⟩
  obtain ⟨hdocument, htext⟩ := read_written callInMap hfinite
  exact ⟨hfinite, hwords, hdocument, (htext _ (.refl _)).2 hwords⟩

end ExprRoot

end TemplateExpr
