import Mathlib.Data.List.Nodup
import Mathlib.Data.List.Perm.Subperm
import TemplateExpr.OrderedMap

/-!
# Lookup in maps that are built by insertion

In a map that is built by insertion every key has one entry (`nodup_keys`), and a lookup finds exactly the entries
(`get?_eq_some_iff`). So a lookup finds something exactly for the keys, and if all keys of a map are keys of another
that is no larger, the two have the same keys (`mem_keys_iff_of_subset`).
-/

namespace TemplateExpr.OrderedMap

variable {α : Type u} {m n : OrderedMap α} {key : String} {value : α}

/-! ### Building -/

private theorem indexed_foldl (pairs : List (String × α)) (hm : m.Indexed) :
    (pairs.foldl (fun m p => m.insert p.1 p.2) m).Indexed := by
  induction pairs generalizing m with
  | nil => exact hm
  | cons p pairs ih => exact ih (indexed_insert hm p.1 p.2)

theorem indexed_ofList (pairs : List (String × α)) : (ofList pairs).Indexed := indexed_foldl pairs indexed_empty

/-- Inserting an entry brings no other. -/
theorem mem_toList_of_insert {p : String × α} (hp : p ∈ (m.insert key value).toList) :
    p ∈ m.toList ∨ p = (key, value) := by
  cases hposition : m.position? key with
  | some i =>
    rw [insert_of_position?_eq_some hposition] at hp
    simp only [toList, Array.toList_setIfInBounds] at hp
    exact List.mem_or_eq_of_mem_set hp
  | none =>
    rw [insert_of_position?_eq_none hposition] at hp
    simpa [toList] using hp

private theorem mem_of_mem_foldl {pairs : List (String × α)} {p : String × α}
    (hp : p ∈ (pairs.foldl (fun m p => m.insert p.1 p.2) m).toList) : p ∈ m.toList ∨ p ∈ pairs := by
  induction pairs generalizing m with
  | nil => exact .inl hp
  | cons q pairs ih =>
    obtain hp | hp := ih hp
    · obtain hp | rfl := mem_toList_of_insert hp
      · exact .inl hp
      · exact .inr List.mem_cons_self
    · exact .inr (List.mem_cons_of_mem _ hp)

/-- What is in a map has been inserted. -/
theorem mem_of_mem_ofList {pairs : List (String × α)} {p : String × α} (hp : p ∈ (ofList pairs).toList) :
    p ∈ pairs := by
  obtain hp | hp := mem_of_mem_foldl hp
  · cases hp
  · exact hp

/-! ### Looking up -/

@[simp] theorem length_keys (m : OrderedMap α) : m.keys.length = m.size := by simp [keys, toList, size]

namespace Indexed

theorem get?_eq_some_iff (hm : m.Indexed) : m.get? key = some value ↔ (key, value) ∈ m.toList := by
  rw [List.mem_iff_getElem?, get?, Option.bind_eq_some_iff]
  refine exists_congr fun i => ?_
  rw [hm key i, keys, List.getElem?_map, ← Array.getElem?_toList]
  change Option.map Prod.fst m.toList[i]? = some key ∧ Option.map Prod.snd m.toList[i]? = some value ↔ _
  cases m.toList[i]? with
  | none => simp
  | some p => simp [Prod.ext_iff]

theorem mem_keys_iff (hm : m.Indexed) : key ∈ m.keys ↔ ∃ value, m.get? key = some value := by
  simp [hm.get?_eq_some_iff, keys]

/-- Every key has one entry. -/
theorem nodup_keys (hm : m.Indexed) : m.keys.Nodup := by
  rw [List.nodup_iff_getElem?_ne_getElem?]
  intro i j hij hj heq
  rw [List.getElem?_eq_getElem hj] at heq
  have hi := (hm _ i).2 heq
  rw [(hm _ j).2 (List.getElem?_eq_getElem hj)] at hi
  exact absurd (Option.some.inj hi) (Nat.ne_of_gt hij)

/-- A map with the keys of another and no more entries has no other keys. -/
theorem mem_keys_iff_of_subset (hm : m.Indexed) (hsub : m.keys ⊆ n.keys) (hsize : n.size ≤ m.size) :
    key ∈ m.keys ↔ key ∈ n.keys := by
  have hperm := (hm.nodup_keys.subperm hsub).perm_of_length_le (by simpa using hsize)
  exact hperm.mem_iff

/-- Maps with the same keys have the same number of entries. -/
theorem size_eq (hm : m.Indexed) (hn : n.Indexed) (hkeys : ∀ key, key ∈ m.keys ↔ key ∈ n.keys) : m.size = n.size := by
  have hperm := (List.perm_ext_iff_of_nodup hm.nodup_keys hn.nodup_keys).2 hkeys
  simpa using hperm.length_eq

end Indexed

end TemplateExpr.OrderedMap
