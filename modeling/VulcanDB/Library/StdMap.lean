import Mathlib.Data.List.AList
import Mathlib.Tactic

/-!
# Library — Ordered maps

A `std::map`, with the ways a program writes to it: `insert`, which keeps an entry already there,
assignment through an iterator or `operator[]`, which replaces it, and `operator[]` alone, which
enters a missing key.
-/

namespace Cxx

/-- A `std::map`: at most one value for a key. -/
abbrev StdMap (α β : Type*) := AList (fun _ : α => β)

namespace StdMap

variable {α β : Type*} [DecidableEq α]

/-- `m.find(k)`, `none` at `end()`. -/
def find (m : StdMap α β) (k : α) : Option β := m.lookup k

/-- `m.insert({k, v})`: an entry already there is kept. -/
def insertNew (m : StdMap α β) (k : α) (v : β) : StdMap α β :=
  if (m.find k).isSome then m else m.insert k v

/-- `m[k] = v`. -/
def assign (m : StdMap α β) (k : α) (v : β) : StdMap α β := m.insert k v

/-- `m[k]` as a value: a missing key is entered with the value `d`. -/
def subscript (m : StdMap α β) (k : α) (d : β) : StdMap α β × β :=
  (m.insertNew k d, (m.find k).getD d)

/-- `size()`. -/
def size (m : StdMap α β) : ℕ := m.keys.length

/-- The values in the order of their keys. -/
def values (le : α → α → Bool) (m : StdMap α β) : List β :=
  (m.entries.insertionSort fun a b => le a.1 b.1 = true).map (·.2)

/-- The entries in the order of their keys, as an iterator goes over them. -/
def items (le : α → α → Bool) (m : StdMap α β) : List (α × β) :=
  (m.entries.insertionSort fun a b => le a.1 b.1 = true).map fun e => (e.1, e.2)

omit [DecidableEq α] in
theorem keys_filterMap_sublist (f : α → β → Option β) (l : List (Sigma fun _ : α => β)) :
    (l.filterMap fun e => (f e.1 e.2).map fun v => (⟨e.1, v⟩ : Sigma fun _ : α => β)).keys.Sublist
      l.keys := by
  induction l with
  | nil => exact List.Sublist.slnil
  | cons e l ih =>
    rw [List.filterMap_cons, List.keys_cons]
    cases f e.1 e.2 with
    | none => exact ih.cons _
    | some v => exact ih.cons_cons _

/-- Every entry kept with a new value, or erased. -/
def filterMap (f : α → β → Option β) (m : StdMap α β) : StdMap α β where
  entries := m.entries.filterMap fun e => (f e.1 e.2).map fun v => ⟨e.1, v⟩
  nodupKeys := List.Nodup.sublist (keys_filterMap_sublist f m.entries) m.nodupKeys

@[simp] theorem find_empty (k : α) : find (∅ : StdMap α β) k = none := AList.lookup_empty k

theorem find_insertNew (m : StdMap α β) (k : α) (v : β) (j : α) :
    (m.insertNew k v).find j = if j = k then some ((m.find k).getD v) else m.find j := by
  unfold insertNew
  split
  · rename_i h
    obtain ⟨w, hw⟩ := Option.isSome_iff_exists.mp h
    split
    · rename_i e; subst e; rw [hw]; rfl
    · rfl
  · rename_i h
    have hn : m.find k = none := by simpa using h
    split
    · rename_i e; subst e; rw [hn]; exact AList.lookup_insert m
    · rename_i e; exact AList.lookup_insert_ne e

theorem find_assign (m : StdMap α β) (k : α) (v : β) (j : α) :
    (m.assign k v).find j = if j = k then some v else m.find j := by
  split
  · rename_i e; subst e; exact AList.lookup_insert m
  · rename_i e; exact AList.lookup_insert_ne e

/-- The values are kept, changed or dropped. -/
theorem find_filterMap (f : α → β → Option β) (m : StdMap α β) (k : α) :
    (m.filterMap f).find k = (m.find k).bind (f k) := by
  ext v
  rw [Option.bind_eq_some_iff]
  refine AList.mem_lookup_iff.trans ?_
  rw [filterMap, List.mem_filterMap]
  constructor
  · rintro ⟨e, he, hv⟩
    obtain ⟨w, hw, heq⟩ := Option.map_eq_some_iff.mp hv
    cases heq
    exact ⟨e.2, AList.mem_lookup_iff.mpr he, hw⟩
  · rintro ⟨w, hw, hv⟩
    exact ⟨⟨k, w⟩, AList.mem_lookup_iff.mp hw, by rw [hv]; rfl⟩

/-- Under a key in use nothing is inserted. -/
theorem insertNew_of_isSome {m : StdMap α β} {k : α} (h : (m.find k).isSome) (v : β) :
    m.insertNew k v = m := if_pos h

theorem size_pos_of_find {m : StdMap α β} {k : α} (h : (m.find k).isSome) : 0 < m.size :=
  List.length_pos_of_mem (AList.mem_keys.mp (AList.lookup_isSome.mp h))

/-- The values, in the order of their keys. -/
theorem mem_values {le : α → α → Bool} {m : StdMap α β} {v : β} :
    v ∈ m.values le ↔ ∃ k, m.find k = some v := by
  simp only [values, List.mem_map, List.mem_insertionSort]
  constructor
  · rintro ⟨e, he, rfl⟩
    exact ⟨e.1, AList.mem_lookup_iff.mpr he⟩
  · rintro ⟨k, hk⟩
    exact ⟨⟨k, v⟩, AList.mem_lookup_iff.mp hk, rfl⟩

theorem mem_items {le : α → α → Bool} {m : StdMap α β} {k : α} {v : β} :
    (k, v) ∈ m.items le ↔ m.find k = some v := by
  simp only [items, List.mem_map, List.mem_insertionSort]
  constructor
  · rintro ⟨e, he, heq⟩
    obtain ⟨rfl, rfl⟩ := Prod.mk.inj heq
    exact AList.mem_lookup_iff.mpr he
  · intro h
    exact ⟨⟨k, v⟩, AList.mem_lookup_iff.mp h, rfl⟩

omit [DecidableEq α] in
theorem length_values (le : α → α → Bool) (m : StdMap α β) : (m.values le).length = m.size := by
  simp [values, size, AList.keys, List.keys]

/-- Where nothing is found there is nothing. -/
theorem eq_empty_of_find {m : StdMap α β} (h : ∀ k, m.find k = none) : m = ∅ := by
  refine AList.ext (List.eq_nil_iff_forall_not_mem.mpr fun e he => ?_)
  have hmem : e.1 ∈ m := AList.mem_keys.mpr (List.mem_map_of_mem he)
  have hsome := AList.lookup_isSome.mpr hmem
  rw [show m.lookup e.1 = none from h e.1] at hsome
  cases hsome

omit [DecidableEq α] in
@[simp] theorem size_eq_zero {m : StdMap α β} : m.size = 0 ↔ m = ∅ := by
  rw [size, List.length_eq_zero_iff, AList.keys, List.keys, List.map_eq_nil_iff]
  exact ⟨fun h => AList.ext h, fun h => by rw [h]; rfl⟩

end StdMap

end Cxx
