import Mathlib.Data.Finset.Card
import Mathlib.Data.List.Induction
import TemplateExpr.Proofs.OrderedMap

/-!
# What is left of a history of insertions

A map that is built by insertion is told by the entries that have been inserted, in their order.

* (one insertion) A new key comes last, and a key that is there keeps its place (`Indexed.keys_insert`). Under the key
  the new value is found, and under others what was found before (`Indexed.get?_insert`).
* (all insertions) By induction on the history, the keys stand in the order of their first insertions
  (`keys_ofList`), and each leads to the value of its last (`get?_ofList`).
-/

namespace TemplateExpr.OrderedMap

variable {α : Type u} {m : OrderedMap α} {key : String}

/-- Inserts more pairs from left to right. -/
def insertAll (m : OrderedMap α) (pairs : List (String × α)) : OrderedMap α :=
  pairs.foldl (fun m p => m.insert p.1 p.2) m

/-- The value with which a key has been inserted last. -/
def lastInserted (history : List (String × α)) (key : String) : Option α := history.reverse.lookup key

/-! ### One insertion -/

namespace Indexed

/-- A key's position leads into the array, to its entry. -/
theorem position?_eq_some_iff (hm : m.Indexed) {i : Nat} :
    m.position? key = some i ↔ ∃ value, m.entries[i]? = some (key, value) := by
  rw [hm key i, keys, List.getElem?_map, Option.map_eq_some_iff, toList, Array.getElem?_toList]
  constructor
  · rintro ⟨⟨_, value⟩, hentry, rfl⟩
    exact ⟨value, hentry⟩
  · rintro ⟨value, hentry⟩
    exact ⟨(key, value), hentry, rfl⟩

theorem position?_eq_none_iff (hm : m.Indexed) : m.position? key = none ↔ key ∉ m.keys := by
  rw [List.mem_iff_getElem?, Option.eq_none_iff_forall_ne_some, not_exists]
  exact forall_congr' fun i => not_congr (hm key i)

theorem keys_insert (hm : m.Indexed) (value : α) :
    (m.insert key value).keys = if key ∈ m.keys then m.keys else m.keys ++ [key] := by
  cases h : m.position? key with
  | some i =>
    have hkey := (hm key i).1 h
    have hsame : m.keys.set i key = m.keys := by
      obtain ⟨hlt, hget⟩ := List.getElem?_eq_some_iff.1 hkey
      rw [← hget, List.set_getElem_self]
    rw [insert_of_position?_eq_some h, if_pos (List.mem_of_getElem? hkey), ← hsame]
    simp [keys, toList, List.map_set]
  | none =>
    rw [insert_of_position?_eq_none h, if_neg (hm.position?_eq_none_iff.1 h)]
    simp [keys, toList]

theorem get?_insert (hm : m.Indexed) (value : α) (k : String) :
    (m.insert key value).get? k = if k = key then some value else m.get? k := by
  cases h : m.position? key with
  | some i =>
    obtain ⟨old, hentry⟩ := hm.position?_eq_some_iff.1 h
    have hlt : i < m.entries.size := (Array.getElem?_eq_some_iff.1 hentry).1
    rw [insert_of_position?_eq_some h]
    change (m.position? k).bind (fun j => (m.entries.setIfInBounds i (key, value))[j]?.map Prod.snd) = _
    by_cases hk : k = key
    · rw [if_pos hk, hk, h, Option.bind_some, Array.getElem?_setIfInBounds_self_of_lt hlt]
      rfl
    · -- another key has another position
      have hother : ∀ j, m.position? k = some j → i ≠ j := by
        rintro j hj rfl
        obtain ⟨_, hentry'⟩ := hm.position?_eq_some_iff.1 hj
        rw [hentry] at hentry'
        cases hentry'
        exact hk rfl
      rw [if_neg hk, get?]
      cases hj : m.position? k with
      | none => rfl
      | some j => rw [Option.bind_some, Option.bind_some, Array.getElem?_setIfInBounds_ne (hother j hj)]
  | none =>
    rw [insert_of_position?_eq_none h]
    change ((m.index.insert key m.entries.size)[k]?).bind (fun j => (m.entries.push (key, value))[j]?.map Prod.snd) = _
    rw [Std.HashMap.getElem?_insert]
    by_cases hk : k = key
    · rw [if_pos hk, if_pos (by simp [hk]), Option.bind_some, Array.getElem?_push_size]
      rfl
    · rw [if_neg hk, if_neg (by simpa using Ne.symm hk), get?]
      change (m.position? k).bind _ = _
      cases hj : m.position? k with
      | none => rfl
      | some j =>
        obtain ⟨_, hentry⟩ := hm.position?_eq_some_iff.1 hj
        have hlt : j < m.entries.size := (Array.getElem?_eq_some_iff.1 hentry).1
        rw [Option.bind_some, Option.bind_some, Array.getElem?_push_lt hlt, Array.getElem?_eq_getElem hlt]

/-- The keys that the index knows are those under which there is a value. -/
theorem contains_eq (hm : m.Indexed) : m.contains key = (m.get? key).isSome := by
  have hcontains : m.contains key = (m.position? key).isSome := Std.HashMap.contains_eq_isSome_getElem?
  rw [hcontains, get?]
  cases h : m.position? key with
  | none => rfl
  | some i =>
    obtain ⟨_, hentry⟩ := hm.position?_eq_some_iff.1 h
    rw [Option.bind_some, hentry]
    rfl

/-- An entry has the value that is found under its key. -/
theorem map_get?_keys (hm : m.Indexed) :
    m.toList.map (fun p => (p.1, some p.2)) = m.keys.map fun key => (key, m.get? key) := by
  rw [keys, List.map_map]
  exact List.map_congr_left fun p hp => congrArg (Prod.mk p.1) (hm.get?_eq_some_iff.2 hp).symm

end Indexed

/-! ### All insertions -/

/-- A map is what is left of a history of insertions. It lists every key once, in the order of first insertion, each
with the value of its last, which is what is found under the key; under other keys nothing is found. The index leads
from every key to its own place among the entries. -/
structure Refines (m : OrderedMap α) (history : List (String × α)) : Prop where
  keys : m.keys = (history.map Prod.fst).eraseDups
  nodup : m.keys.Nodup
  toList : m.toList.map (fun p => (p.1, some p.2)) = m.keys.map fun key => (key, lastInserted history key)
  get? : ∀ key, m.get? key = lastInserted history key
  isSome : ∀ key, (m.get? key).isSome = true ↔ key ∈ history.map Prod.fst
  contains : ∀ key, m.contains key = (m.get? key).isSome
  size : m.size = (history.map Prod.fst).toFinset.card
  index : ∀ key (i : Nat), m.index[key]? = some i ↔ ∃ value, m.entries[i]? = some (key, value)

theorem insertAll_ofList (pairs more : List (String × α)) : (ofList pairs).insertAll more = ofList (pairs ++ more) :=
  List.foldl_append.symm

private theorem ofList_concat (history : List (String × α)) (p : String × α) :
    ofList (history ++ [p]) = (ofList history).insert p.1 p.2 :=
  List.foldl_append

/-- The keys stand in the order in which they were first inserted. -/
theorem keys_ofList (history : List (String × α)) : (ofList history).keys = (history.map Prod.fst).eraseDups := by
  induction history using List.reverseRecOn with
  | nil => rfl
  | append_singleton history p ih =>
    rw [ofList_concat, (indexed_ofList history).keys_insert, ih, List.map_append, List.eraseDups_append]
    by_cases hmem : p.1 ∈ history.map Prod.fst
    · rw [if_pos (List.mem_eraseDups.2 hmem)]
      simp [List.removeAll, hmem]
    · rw [if_neg fun h => hmem (List.mem_eraseDups.1 h)]
      simp [List.removeAll, hmem, List.eraseDups_cons]

/-- Under a key the value of its last insertion is found. -/
theorem get?_ofList (history : List (String × α)) (key : String) :
    (ofList history).get? key = lastInserted history key := by
  induction history using List.reverseRecOn with
  | nil => simp [ofList, empty, get?, position?, lastInserted]
  | append_singleton history p ih =>
    obtain ⟨k, value⟩ := p
    rw [ofList_concat, (indexed_ofList history).get?_insert, ih, lastInserted, lastInserted, List.reverse_append,
      List.reverse_singleton, List.singleton_append, List.lookup_cons]
    by_cases hk : key = k
    · simp [hk]
    · have hne : (key == k) = false := by simpa using hk
      rw [if_neg hk, hne]

/-- After insertions into a map that started empty or from pairs, the map is what is left of all of them. -/
theorem insertAll_ofList_refines (pairs more : List (String × α)) :
    ((ofList pairs).insertAll more).Refines (pairs ++ more) := by
  rw [insertAll_ofList]
  have hindexed : (ofList (pairs ++ more)).Indexed := indexed_ofList (pairs ++ more)
  refine ⟨keys_ofList _, hindexed.nodup_keys, ?_, get?_ofList _, fun key => ?_, fun key => hindexed.contains_eq, ?_,
    fun key i => hindexed.position?_eq_some_iff⟩
  · rw [hindexed.map_get?_keys]
    exact List.map_congr_left fun key _ => congrArg (Prod.mk key) (get?_ofList _ key)
  · rw [Option.isSome_iff_exists, ← hindexed.mem_keys_iff, keys_ofList, List.mem_eraseDups]
  · have hset : (ofList (pairs ++ more)).keys.toFinset = ((pairs ++ more).map Prod.fst).toFinset := by
      ext key
      rw [List.mem_toFinset, List.mem_toFinset, keys_ofList, List.mem_eraseDups]
    rw [← length_keys, ← List.toFinset_card_of_nodup hindexed.nodup_keys, hset]

end TemplateExpr.OrderedMap
