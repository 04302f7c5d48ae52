import TemplateExpr.Proofs.Binary64.Rank
import TemplateExpr.Proofs.OrderedMap
import TemplateExpr.Proofs.Value.Agreement

/-!
# Equality of values

A map notes where its entries are, so that only the maps that insertion builds are meant here, at every depth
(`Built`). For the values that hold no others,

* (structure) `==` compares kinds, then numbers, elements at every position, or entries under every key
  (`beq_iff_alike`, `beq_map_iff`);
* (symmetry, transitivity) this is passed on from what a value holds to the value;
* (reflexivity) and so is that a value equals itself, which only a NaN does not (`beq_self_iff`).

The language's own `==` is symmetric (`looseEq_comm`), although it reads a string as a number if the other side is one.
-/

namespace TemplateExpr.Value

/-- Values in which every map has been built by insertion. -/
inductive Built : Value → Prop
  | scalar {v : Value} : v.kind ≠ .list → v.kind ≠ .map → Built v
  | list {vs : Array Value} : (∀ v ∈ vs, Built v) → Built (.list vs)
  | map {pairs : List (String × Value)} : (∀ p ∈ pairs, Built p.2) → Built (.map (.ofList pairs))

/-- There is a NaN in the value, or it is one. -/
inductive HasNaN : Value → Prop
  | float {x : Float} : x.isNaN = true → HasNaN (.float x)
  | list {vs : Array Value} {v : Value} : v ∈ vs → HasNaN v → HasNaN (.list vs)
  | map {m : OrderedMap Value} {key : String} {v : Value} : (key, v) ∈ m.toList → HasNaN v → HasNaN (.map m)

/-- What `==` compares. -/
inductive Alike : Value → Value → Prop
  | plain {v : Value} : v.kind ≠ .float → v.kind ≠ .list → v.kind ≠ .map → Alike v v
  | floats {x y : Float} : (x == y) = true → Alike (.float x) (.float y)
  | lists {as bs : Array Value} : as.size = bs.size →
    (∀ (i : Nat) a b, as[i]? = some a → bs[i]? = some b → (a == b) = true) → Alike (.list as) (.list bs)
  | maps {m n : OrderedMap Value} : m.size = n.size →
    (∀ key v, (key, v) ∈ m.toList → ∃ w, n.get? key = some w ∧ (v == w) = true) → Alike (.map m) (.map n)

variable {a b c : Value}

/-! ### Structure -/

private theorem structuralEqList_iff {as bs : List Value} :
    structuralEqList as bs = true ↔
      as.length = bs.length ∧ ∀ (i : Nat) a b, as[i]? = some a → bs[i]? = some b → (a == b) = true := by
  induction as generalizing bs with
  | nil => cases bs <;> simp [structuralEqList]
  | cons a as ih =>
    cases bs with
    | nil => simp [structuralEqList]
    | cons b bs =>
      rw [structuralEqList, Bool.and_eq_true, ih, List.length_cons, List.length_cons, Nat.add_right_cancel_iff]
      constructor
      · rintro ⟨hhere, hlength, hrest⟩
        refine ⟨hlength, fun i c d hc hd => ?_⟩
        cases i with
        | zero =>
          cases hc
          cases hd
          exact hhere
        | succ i => exact hrest i c d hc hd
      · rintro ⟨hlength, hall⟩
        exact ⟨hall 0 a b rfl rfl, hlength, fun i c d hc hd => hall (i + 1) c d hc hd⟩

private theorem entriesIn_iff {es : List (String × Value)} {m : OrderedMap Value} :
    entriesIn es m = true ↔ ∀ key v, (key, v) ∈ es → ∃ w, m.get? key = some w ∧ (v == w) = true := by
  induction es with
  | nil => simp [entriesIn]
  | cons e es ih =>
    obtain ⟨k, u⟩ := e
    rw [entriesIn, Bool.and_eq_true, ih]
    constructor
    · rintro ⟨hhere, hrest⟩ key v hmem
      obtain heq | hmem := List.mem_cons.1 hmem
      · cases heq
        split at hhere
        · rename_i w hw
          exact ⟨w, hw, hhere⟩
        · cases hhere
      · exact hrest key v hmem
    · intro h
      obtain ⟨w, hw, heq⟩ := h k u List.mem_cons_self
      refine ⟨?_, fun key v hmem => h key v (List.mem_cons_of_mem _ hmem)⟩
      rw [hw]
      exact heq

theorem beq_iff_alike : (a == b) = true ↔ Alike a b := by
  constructor
  · intro h
    change structuralEq a b = true at h
    unfold structuralEq at h
    split at h
    · exact .plain nofun nofun nofun
    · obtain rfl := eq_of_beq h
      exact .plain nofun nofun nofun
    · obtain rfl := eq_of_beq h
      exact .plain nofun nofun nofun
    · exact .floats h
    · obtain rfl := eq_of_beq h
      exact .plain nofun nofun nofun
    · obtain ⟨hlength, hall⟩ := structuralEqList_iff.1 h
      exact .lists hlength fun i a b ha hb => hall i a b (by simpa using ha) (by simpa using hb)
    · obtain ⟨hsize, hentries⟩ := Bool.and_eq_true_iff.1 h
      exact .maps (eq_of_beq hsize) (entriesIn_iff.1 hentries)
    · cases h
  · intro h
    cases h with
    | plain hfloat hlist hmap =>
      change structuralEq a a = true
      cases a with
      | float => exact absurd rfl hfloat
      | list => exact absurd rfl hlist
      | map => exact absurd rfl hmap
      | _ => simp [structuralEq]
    | @floats x y h =>
      change structuralEq (.float x) (.float y) = true
      rw [structuralEq]
      exact h
    | @lists as bs hsize hall =>
      change structuralEq (.list ⟨as.toList⟩) (.list ⟨bs.toList⟩) = true
      rw [structuralEq]
      exact structuralEqList_iff.2 ⟨hsize, fun i a b ha hb => hall i a b (by simpa using ha) (by simpa using hb)⟩
    | @maps m n hsize hentries =>
      change structuralEq (.map ⟨⟨m.toList⟩, m.index⟩) (.map n) = true
      rw [structuralEq, Bool.and_eq_true]
      exact ⟨beq_iff_eq.2 hsize, entriesIn_iff.2 hentries⟩

/-- Two lists are equal if they have the same length, with equal elements at every position. -/
theorem beq_list_iff {as bs : Array Value} :
    (Value.list as == Value.list bs) = true ↔
      as.size = bs.size ∧ ∀ (i : Nat) a b, as[i]? = some a → bs[i]? = some b → (a == b) = true := by
  constructor
  · intro h
    cases beq_iff_alike.1 h with
    | plain _ hlist => exact absurd rfl hlist
    | lists hsize hall => exact ⟨hsize, hall⟩
  · rintro ⟨hsize, hall⟩
    exact beq_iff_alike.2 (.lists hsize hall)

/-- Two maps are equal if they have the same keys, with equal values under each. -/
theorem beq_map_iff {m n : OrderedMap Value} (hm : m.Indexed) (hn : n.Indexed) :
    (Value.map m == Value.map n) = true ↔ (∀ key, key ∈ m.keys ↔ key ∈ n.keys) ∧
      ∀ key v w, m.get? key = some v → n.get? key = some w → (v == w) = true := by
  constructor
  · intro h
    cases beq_iff_alike.1 h with
    | plain _ _ hmap => exact absurd rfl hmap
    | maps hsize hentries =>
      refine ⟨fun key => hm.mem_keys_iff_of_subset (fun key hkey => ?_) (Nat.le_of_eq hsize.symm),
        fun key v w hv hw => ?_⟩
      · obtain ⟨v, hv⟩ := hm.mem_keys_iff.1 hkey
        obtain ⟨w, hw, -⟩ := hentries key v (hm.get?_eq_some_iff.1 hv)
        exact hn.mem_keys_iff.2 ⟨w, hw⟩
      · obtain ⟨w', hw', heq⟩ := hentries key v (hm.get?_eq_some_iff.1 hv)
        rw [hw] at hw'
        cases hw'
        exact heq
  · rintro ⟨hkeys, hvalues⟩
    refine beq_iff_alike.2 (.maps (hm.size_eq hn hkeys) fun key v hv => ?_)
    have hv := hm.get?_eq_some_iff.2 hv
    obtain ⟨w, hw⟩ := hn.mem_keys_iff.1 ((hkeys key).1 (hm.mem_keys_iff.2 ⟨v, hv⟩))
    exact ⟨w, hw, hvalues key v w hv hw⟩

/-! ### Values that are built -/

theorem Built.null : Value.null.Built := .scalar nofun nofun

theorem Built.bool (b : Bool) : (Value.bool b).Built := .scalar nofun nofun

theorem Built.int (n : Int64) : (Value.int n).Built := .scalar nofun nofun

theorem Built.float (x : Float) : (Value.float x).Built := .scalar nofun nofun

theorem Built.string (s : String) : (Value.string s).Built := .scalar nofun nofun

theorem Built.of_mem_list {vs : Array Value} (h : (Value.list vs).Built) : ∀ v ∈ vs, v.Built := by
  cases h with
  | scalar hlist => exact absurd rfl hlist
  | list h => exact h

theorem Built.indexed {m : OrderedMap Value} (h : (Value.map m).Built) : m.Indexed := by
  cases h with
  | scalar _ hmap => exact absurd rfl hmap
  | map => exact OrderedMap.indexed_ofList _

theorem Built.of_get? {m : OrderedMap Value} (h : (Value.map m).Built) {key : String} {v : Value}
    (hv : m.get? key = some v) : v.Built := by
  have hindexed := h.indexed
  cases h with
  | scalar _ hmap => exact absurd rfl hmap
  | map hpairs => exact hpairs _ (OrderedMap.mem_of_mem_ofList (hindexed.get?_eq_some_iff.1 hv))

/-- Induction over what a list or a map holds. -/
@[elab_as_elim]
theorem Built.induct {P : ∀ v : Value, v.Built → Prop}
    (scalar : ∀ {v : Value} (hlist : v.kind ≠ .list) (hmap : v.kind ≠ .map), P v (.scalar hlist hmap))
    (list : ∀ {vs : Array Value} (h : (Value.list vs).Built), (∀ v (hv : v ∈ vs), P v (h.of_mem_list v hv)) → P _ h)
    (map : ∀ {m : OrderedMap Value} (h : (Value.map m).Built),
      (∀ key v (hv : m.get? key = some v), P v (h.of_get? hv)) → P _ h) {a : Value} (h : a.Built) : P a h := by
  induction h with
  | scalar hlist hmap => exact scalar hlist hmap
  | list hvs ih => exact list (.list hvs) ih
  | map hpairs ih =>
    refine map (.map hpairs) fun key v hv => ?_
    exact ih _ (OrderedMap.mem_of_mem_ofList ((OrderedMap.indexed_ofList _).get?_eq_some_iff.1 hv))

/-! ### Laws -/

theorem beq_symm (ha : a.Built) (hb : b.Built) (h : (a == b) = true) : (b == a) = true := by
  induction ha using Built.induct generalizing b with
  | scalar hlist hmap =>
    cases beq_iff_alike.1 h with
    | plain => exact h
    | floats hxy => exact beq_iff_alike.2 (.floats (Binary64.beq_symm hxy))
    | lists => exact absurd rfl hlist
    | maps => exact absurd rfl hmap
  | list ha ih =>
    cases beq_iff_alike.1 h with
    | plain _ hlist => exact absurd rfl hlist
    | lists =>
      obtain ⟨hsize, hall⟩ := beq_list_iff.1 h
      refine beq_list_iff.2 ⟨hsize.symm, fun i b a hb' ha' => ?_⟩
      exact ih a (Array.mem_of_getElem? ha') (hb.of_mem_list b (Array.mem_of_getElem? hb')) (hall i a b ha' hb')
  | map ha ih =>
    cases beq_iff_alike.1 h with
    | plain _ _ hmap => exact absurd rfl hmap
    | maps =>
      obtain ⟨hkeys, hvalues⟩ := (beq_map_iff ha.indexed hb.indexed).1 h
      refine (beq_map_iff hb.indexed ha.indexed).2 ⟨fun key => (hkeys key).symm, fun key w v hw hv => ?_⟩
      exact ih key v hv (hb.of_get? hw) (hvalues key v w hv hw)

theorem beq_comm (ha : a.Built) (hb : b.Built) : (a == b) = (b == a) :=
  Bool.eq_iff_iff.2 ⟨beq_symm ha hb, beq_symm hb ha⟩

theorem beq_trans (ha : a.Built) (hb : b.Built) (hc : c.Built) (hab : (a == b) = true) (hbc : (b == c) = true) :
    (a == c) = true := by
  induction ha using Built.induct generalizing b c with
  | scalar hlist hmap =>
    cases beq_iff_alike.1 hab with
    | plain => exact hbc
    | floats hxy =>
      cases beq_iff_alike.1 hbc with
      | plain => exact hab
      | floats hyz => exact beq_iff_alike.2 (.floats (Binary64.beq_trans hxy hyz))
    | lists => exact absurd rfl hlist
    | maps => exact absurd rfl hmap
  | list ha ih =>
    cases beq_iff_alike.1 hab with
    | plain => exact hbc
    | @lists as bs =>
      cases beq_iff_alike.1 hbc with
      | plain => exact hab
      | lists =>
        obtain ⟨hsize, hall⟩ := beq_list_iff.1 hab
        obtain ⟨hsize', hall'⟩ := beq_list_iff.1 hbc
        refine beq_list_iff.2 ⟨hsize.trans hsize', fun i a c ha' hc' => ?_⟩
        have hlt := (Array.getElem?_eq_some_iff.1 ha').1
        obtain ⟨b, hb'⟩ : ∃ b, bs[i]? = some b := ⟨_, Array.getElem?_eq_getElem (hsize ▸ hlt)⟩
        exact ih a (Array.mem_of_getElem? ha') (hb.of_mem_list b (Array.mem_of_getElem? hb'))
          (hc.of_mem_list c (Array.mem_of_getElem? hc')) (hall i a b ha' hb') (hall' i b c hb' hc')
  | map ha ih =>
    cases beq_iff_alike.1 hab with
    | plain => exact hbc
    | maps =>
      cases beq_iff_alike.1 hbc with
      | plain => exact hab
      | maps =>
        obtain ⟨hkeys, hvalues⟩ := (beq_map_iff ha.indexed hb.indexed).1 hab
        obtain ⟨hkeys', hvalues'⟩ := (beq_map_iff hb.indexed hc.indexed).1 hbc
        refine (beq_map_iff ha.indexed hc.indexed).2 ⟨fun key => (hkeys key).trans (hkeys' key),
          fun key v w hv hw => ?_⟩
        obtain ⟨u, hu⟩ := hb.indexed.mem_keys_iff.1 ((hkeys key).1 (ha.indexed.mem_keys_iff.2 ⟨v, hv⟩))
        exact ih key v hv (hb.of_get? hu) (hc.of_get? hw) (hvalues key v u hv hu) (hvalues' key u w hu hw)

/-- A value is equal to itself unless there is a NaN in it. -/
theorem beq_self_iff (ha : a.Built) : (a == a) = true ↔ ¬ a.HasNaN := by
  induction ha using Built.induct with
  | @scalar v hlist hmap =>
    cases v with
    | float x =>
      have hself : (Value.float x == Value.float x) = true ↔ (x == x) = true := by
        change structuralEq (.float x) (.float x) = true ↔ _
        rw [structuralEq]
      rw [hself, Binary64.beq_self_iff, ← Bool.not_eq_true, not_iff_not]
      exact ⟨.float, fun h => by cases h; assumption⟩
    | list => exact absurd rfl hlist
    | map => exact absurd rfl hmap
    | _ => refine iff_of_true (beq_iff_alike.2 (.plain ?_ ?_ ?_)) ?_ <;> rintro ⟨⟩
  | @list vs ha ih =>
    rw [beq_list_iff]
    constructor
    · rintro ⟨-, hall⟩ hnan
      cases hnan with
      | @list _ v hv hnan =>
        obtain ⟨i, hi⟩ := Array.mem_iff_getElem?.1 hv
        exact (ih v hv).1 (hall i v v hi hi) hnan
    · refine fun hnone => ⟨rfl, fun i v w hv hw => ?_⟩
      rw [hv] at hw
      cases hw
      exact (ih v (Array.mem_of_getElem? hv)).2 fun hnan => hnone (.list (Array.mem_of_getElem? hv) hnan)
  | @map m ha ih =>
    rw [beq_map_iff ha.indexed ha.indexed]
    constructor
    · rintro ⟨-, hvalues⟩ hnan
      cases hnan with
      | @map _ key v hv hnan =>
        have hv := ha.indexed.get?_eq_some_iff.2 hv
        exact (ih key v hv).1 (hvalues key v v hv hv) hnan
    · refine fun hnone => ⟨fun _ => Iff.rfl, fun key v w hv hw => ?_⟩
      rw [hv] at hw
      cases hw
      exact (ih key v hv).2 fun hnan => hnone (.map (ha.indexed.get?_eq_some_iff.1 hv) hnan)

/-- The language's `==` does not depend on the order of its operands. -/
theorem looseEq_comm (ha : a.Built) (hb : b.Built) : a.looseEq b = b.looseEq a := by
  cases a with
  | string s => exact (looseEq_comm_of_string rfl b).symm
  | int m =>
    cases b with
    | string t => exact looseEq_comm_of_string rfl _
    | int n => exact Bool.beq_comm
    | float y => exact Binary64.beq_comm _ _
    | _ => exact beq_comm ha hb
  | float x =>
    cases b with
    | string t => exact looseEq_comm_of_string rfl _
    | int n => exact Binary64.beq_comm _ _
    | _ => exact beq_comm ha hb
  | _ =>
    cases b with
    | string t => exact looseEq_comm_of_string rfl _
    | _ => exact beq_comm ha hb

/-- `==` is symmetric and transitive, a value is equal to itself exactly if there is no NaN in it, and two maps are
equal exactly if they have the same keys, with equal values under each; the language's own `==` is symmetric. -/
theorem equality_laws (ha : a.Built) (hb : b.Built) (hc : c.Built) :
    (a == b) = (b == a) ∧ ((a == b) = true → (b == c) = true → (a == c) = true) ∧
      ((a == a) = true ↔ ¬ a.HasNaN) ∧
      (∀ m n, a = .map m → b = .map n → ((a == b) = true ↔ (∀ key, key ∈ m.keys ↔ key ∈ n.keys) ∧
        ∀ key v w, m.get? key = some v → n.get? key = some w → (v == w) = true)) ∧
      a.looseEq b = b.looseEq a := by
  refine ⟨beq_comm ha hb, beq_trans ha hb hc, beq_self_iff ha, ?_, looseEq_comm ha hb⟩
  rintro m n rfl rfl
  exact beq_map_iff ha.indexed hb.indexed

/-- A map with a list that holds a NaN. -/
def mapWithNaN : Value := .map (.ofList [("xs", .list #[.null, .float Binary64.nan]), ("n", .int 1)])

/-- The same entries, inserted in the other order. -/
def mapWithNaN' : Value := .map (.ofList [("n", .int 1), ("xs", .list #[.null, .float Binary64.nan])])

theorem equality_laws_mapWithNaN :
    mapWithNaN.Built ∧ mapWithNaN'.Built ∧ ¬ (mapWithNaN == mapWithNaN) = true ∧
      (mapWithNaN == mapWithNaN') = (mapWithNaN' == mapWithNaN) := by
  have hlist : (Value.list #[.null, .float Binary64.nan]).Built := .list fun v hv => by
    obtain rfl | rfl : v = .null ∨ v = .float Binary64.nan := by simpa using hv
    · exact .null
    · exact .float _
  have hbuilt : mapWithNaN.Built := .map (by simp [hlist, Built.int])
  have hbuilt' : mapWithNaN'.Built := .map (by simp [hlist, Built.int])
  have hentry : ("xs", Value.list #[.null, .float Binary64.nan]) ∈
      (OrderedMap.ofList [("xs", Value.list #[.null, .float Binary64.nan]), ("n", .int 1)]).toList := by
    simp [OrderedMap.ofList, OrderedMap.insert, OrderedMap.empty, OrderedMap.toList]
  have hinside : Value.float Binary64.nan ∈ #[Value.null, .float Binary64.nan] := by simp
  have hnan : mapWithNaN.HasNaN := .map hentry (.list hinside (.float rfl))
  obtain ⟨hcomm, -, hself, -⟩ := equality_laws hbuilt hbuilt' hbuilt
  exact ⟨hbuilt, hbuilt', fun h => hself.1 h hnan, hcomm⟩

end TemplateExpr.Value
