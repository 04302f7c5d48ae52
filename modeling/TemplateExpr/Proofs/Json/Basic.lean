import Mathlib.Data.List.Forall2
import TemplateExpr.Json.Reader

/-!
# Documents as data

* (order) The members of an object have no order that matters: `Json.Reorders` is equality of documents up to the order
  of members, at every depth.
* (texts) A document can be written and read back if its integers and real numbers are ones that a text has, and no
  object has two members of one name (`Json.Exact`). This does not depend on the order of members
  (`Json.Exact.of_reorders`).
-/

namespace TemplateExpr

/-- With different names, a member is found under its own. -/
theorem lookup_of_mem {α : Type} {l : List (String × α)} (hnames : (l.map Prod.fst).Nodup) {k : String} {v : α}
    (h : (k, v) ∈ l) : l.lookup k = some v := by
  obtain ⟨before, after, rfl⟩ := List.append_of_mem h
  refine List.lookup_eq_some_iff.2 ⟨before, after, rfl, fun p hp => ?_⟩
  rw [List.map_append, List.map_cons] at hnames
  have hne : p.1 ≠ k := (List.nodup_append.1 hnames).2.2 p.1 (List.mem_map_of_mem hp) k List.mem_cons_self
  simpa using hne.symm

namespace Json

/-! ### The order of members -/

/-- The same document but for the order of the members of its objects. -/
inductive Reorders : Json → Json → Prop
  | refl (j : Json) : Reorders j j
  | array {xs ys : List Json} (h : List.Forall₂ Reorders xs ys) : Reorders (.array xs) (.array ys)
  | object {ms ns ks : List (String × Json)} (hnames : ms.map Prod.fst = ns.map Prod.fst)
      (h : List.Forall₂ Reorders (ms.map Prod.snd) (ns.map Prod.snd)) (horder : ns.Perm ks) :
      Reorders (.object ms) (.object ks)

namespace Reorders

variable {j : Json} {xs : List Json} {ms : List (String × Json)}

theorem of_array (h : Reorders (.array xs) j) : ∃ ys, j = .array ys ∧ List.Forall₂ Reorders xs ys := by
  cases h with
  | refl => exact ⟨xs, rfl, List.forall₂_same.2 fun x _ => refl x⟩
  | @array _ ys h => exact ⟨ys, rfl, h⟩

/-- Members stand beside each other by their names. -/
private theorem exists_of_mem {ns : List (String × Json)} (hnames : ms.map Prod.fst = ns.map Prod.fst)
    (h : List.Forall₂ Reorders (ms.map Prod.snd) (ns.map Prod.snd)) :
    (∀ k v, (k, v) ∈ ms → ∃ w, (k, w) ∈ ns ∧ Reorders v w) ∧ ∀ k w, (k, w) ∈ ns → ∃ v, (k, v) ∈ ms ∧ Reorders v w := by
  induction ms generalizing ns with
  | nil =>
    cases ns with
    | nil => exact ⟨nofun, nofun⟩
    | cons n ns => cases hnames
  | cons m ms ih =>
    cases ns with
    | nil => cases hnames
    | cons n ns =>
      obtain ⟨a, v⟩ := m
      obtain ⟨b, w⟩ := n
      obtain ⟨rfl, hrest⟩ := List.cons.inj hnames
      cases h with
      | cons hvw h =>
        obtain ⟨hleft, hright⟩ := ih hrest h
        refine ⟨fun k x hx => ?_, fun k x hx => ?_⟩
        · obtain heq | hx := List.mem_cons.1 hx
          · cases heq
            exact ⟨w, List.mem_cons_self, hvw⟩
          · obtain ⟨y, hy, hxy⟩ := hleft k x hx
            exact ⟨y, List.mem_cons_of_mem _ hy, hxy⟩
        · obtain heq | hx := List.mem_cons.1 hx
          · cases heq
            exact ⟨v, List.mem_cons_self, hvw⟩
          · obtain ⟨y, hy, hyx⟩ := hright k x hx
            exact ⟨y, List.mem_cons_of_mem _ hy, hyx⟩

theorem of_object (h : Reorders (.object ms) j) :
    ∃ ks, j = .object ks ∧ (ms.map Prod.fst).Perm (ks.map Prod.fst) ∧
      (∀ k v, (k, v) ∈ ms → ∃ w, (k, w) ∈ ks ∧ Reorders v w) ∧
      ∀ k w, (k, w) ∈ ks → ∃ v, (k, v) ∈ ms ∧ Reorders v w := by
  cases h with
  | refl => exact ⟨ms, rfl, .refl _, fun k v hv => ⟨v, hv, refl v⟩, fun k w hw => ⟨w, hw, refl w⟩⟩
  | @object _ ns ks hnames h horder =>
    obtain ⟨hleft, hright⟩ := exists_of_mem hnames h
    refine ⟨ks, rfl, hnames ▸ horder.map Prod.fst, fun k v hv => ?_, fun k w hw => hright k w (horder.mem_iff.2 hw)⟩
    obtain ⟨w, hw, hvw⟩ := hleft k v hv
    exact ⟨w, horder.mem_iff.1 hw, hvw⟩

end Reorders

/-! ### What a text can hold -/

/-- A document all of whose parts have a text: integers of 64 bits, finite real numbers, names that differ. -/
inductive Exact : Json → Prop
  | null : Exact .null
  | bool (b : Bool) : Exact (.bool b)
  | integer {n : Int} (h : isInteger n = true) : Exact (.integer n)
  | real {x : Float} (h : x.isFinite = true) : Exact (.real x)
  | string (s : String) : Exact (.string s)
  | array {es : List Json} (h : ∀ e ∈ es, Exact e) : Exact (.array es)
  | object {ms : List (String × Json)} (hnames : (ms.map Prod.fst).Nodup) (h : ∀ m ∈ ms, Exact m.2) : Exact (.object ms)

theorem Exact.of_reorders {v w : Json} (h : Exact v) (hvw : Reorders v w) : Exact w := by
  induction h generalizing w with
  | null =>
    cases hvw
    exact .null
  | bool b =>
    cases hvw
    exact .bool b
  | integer h =>
    cases hvw
    exact .integer h
  | real h =>
    cases hvw
    exact .real h
  | string s =>
    cases hvw
    exact .string s
  | @array xs h ih =>
    obtain ⟨ys, rfl, hys⟩ := hvw.of_array
    refine .array fun y hy => ?_
    obtain ⟨i, hi, rfl⟩ := List.getElem_of_mem hy
    have hi' : i < xs.length := hys.length_eq ▸ hi
    exact ih xs[i] (List.getElem_mem hi') (hys.get hi' hi)
  | @object ms hnames h ih =>
    obtain ⟨ks, rfl, horder, -, hback⟩ := hvw.of_object
    refine .object (horder.nodup_iff.1 hnames) fun m hm => ?_
    obtain ⟨v, hv, hvm⟩ := hback m.1 m.2 hm
    exact ih (m.1, v) hv hvm

end Json

end TemplateExpr
