import Std.Data.HashMap

/-!
# Maps that remember the order of insertion

The entries stand in an array in the order in which their keys were first inserted, and an index leads from each
key to its position there. Inserting a key again replaces its value and keeps its position.

`Indexed` says that the index is exact. `empty` has it and `insert` keeps it, so a lookup in a map built by
insertion never leaves the array.
-/

namespace TemplateExpr

/-- String-keyed entries in insertion order, with the position of each key. -/
structure OrderedMap (α : Type u) where
  entries : Array (String × α)
  index : Std.HashMap String Nat

namespace OrderedMap

variable {α : Type u}

def empty : OrderedMap α := ⟨#[], ∅⟩

instance : Inhabited (OrderedMap α) := ⟨empty⟩

def size (m : OrderedMap α) : Nat := m.entries.size

def isEmpty (m : OrderedMap α) : Bool := m.entries.isEmpty

/-- Position of a key in the order of insertion. -/
def position? (m : OrderedMap α) (key : String) : Option Nat := m.index[key]?

def get? (m : OrderedMap α) (key : String) : Option α :=
  (m.position? key).bind fun i => m.entries[i]?.map Prod.snd

def contains (m : OrderedMap α) (key : String) : Bool := m.index.contains key

def insert (m : OrderedMap α) (key : String) (value : α) : OrderedMap α :=
  match m with
  | ⟨entries, index⟩ =>
    match index[key]? with
    | some i => ⟨entries.setIfInBounds i (key, value), index⟩
    | none =>
      let position := entries.size
      ⟨entries.push (key, value), index.insert key position⟩

/-- Inserts the pairs from left to right. -/
def ofList (pairs : List (String × α)) : OrderedMap α :=
  pairs.foldl (fun m p => m.insert p.1 p.2) empty

def toList (m : OrderedMap α) : List (String × α) := m.entries.toList

def keys (m : OrderedMap α) : List String := m.toList.map Prod.fst

/-- The index leads from every key to its own position, and from nothing else. -/
def Indexed (m : OrderedMap α) : Prop :=
  ∀ key i, m.position? key = some i ↔ m.keys[i]? = some key

theorem indexed_empty : (empty : OrderedMap α).Indexed := by
  intro key i
  simp [empty, position?, keys, toList]

theorem insert_of_position?_eq_some {m : OrderedMap α} {key : String} {i : Nat} (h : m.position? key = some i)
    (value : α) : m.insert key value = ⟨m.entries.setIfInBounds i (key, value), m.index⟩ := by
  have h : m.index[key]? = some i := h
  simp [insert, h]

theorem insert_of_position?_eq_none {m : OrderedMap α} {key : String} (h : m.position? key = none) (value : α) :
    m.insert key value = ⟨m.entries.push (key, value), m.index.insert key m.entries.size⟩ := by
  have h : m.index[key]? = none := h
  simp [insert, h]

/-- A key that is there keeps its position, and a new key takes the next one. -/
theorem indexed_insert {m : OrderedMap α} (hm : m.Indexed) (key : String) (value : α) :
    (m.insert key value).Indexed := by
  cases h : m.position? key with
  | some i =>
    rw [insert_of_position?_eq_some h]
    have hkeys : keys ⟨m.entries.setIfInBounds i (key, value), m.index⟩ = m.keys.set i key := by
      simp [keys, toList, List.map_set]
    have hkey : m.keys.set i key = m.keys := by
      obtain ⟨hi, hk⟩ := List.getElem?_eq_some_iff.1 ((hm key i).1 h)
      rw [← hk, List.set_getElem_self]
    intro k j
    rw [hkeys, hkey]
    exact hm k j
  | none =>
    rw [insert_of_position?_eq_none h]
    intro k j
    have hj := hm k j
    have hnone : ∀ j : Nat, m.keys[j]? ≠ some key := fun j hj => by simp [(hm key j).2 hj] at h
    have hsize : m.keys.length = m.entries.size := by simp [keys, toList]
    have hkeys : keys ⟨m.entries.push (key, value), m.index.insert key m.entries.size⟩ = m.keys ++ [key] := by
      simp [keys, toList]
    rw [hkeys]
    simp only [position?, Std.HashMap.getElem?_insert]
    by_cases hk : key = k
    · subst hk
      have := hnone j
      grind
    · have hk' : (key == k) = false := by simpa using hk
      rw [hk', List.getElem?_append]
      have hlt : m.keys[j]? = some k → j < m.keys.length := fun h => (List.getElem?_eq_some_iff.1 h).1
      grind [position?]

@[simp] theorem toList_empty : (empty : OrderedMap α).toList = [] := rfl

end OrderedMap

end TemplateExpr
