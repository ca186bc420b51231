import Mathlib.Data.List.DropRight
import Mathlib.Tactic

/-!
# Library — Trimming

A list without the elements at its ends that have a property.

* `exists_core`: a list with an element that does not have it is a core between two ends that do.
* `Core.trim`: the core is what is left.
* `trim_trim`: trimming again changes nothing.
-/

namespace Trim

variable {α : Type*} {p : α → Bool} {a m b s : List α}

/-- The list without its first and last elements with `p`. -/
def trim (p : α → Bool) (s : List α) : List α := (s.dropWhile p).rdropWhile p

/-- An element is left. -/
def HasText (p : α → Bool) (s : List α) : Prop := ∃ c ∈ s, p c = false

/-- `m` is the core between `a` and `b`. -/
structure Core (p : α → Bool) (a m b : List α) : Prop where
  before : ∀ c ∈ a, p c = true
  after : ∀ c ∈ b, p c = true
  first : ∃ c rest, m = c :: rest ∧ p c = false
  last : ∃ rest c, m = rest ++ [c] ∧ p c = false

theorem not_hasText_iff : ¬ HasText p s ↔ ∀ c ∈ s, p c = true := by
  simp [HasText]

theorem trim_of_not_hasText (h : ¬ HasText p s) : trim p s = [] := by
  rw [trim, List.dropWhile_eq_nil_iff.mpr (not_hasText_iff.mp h), List.rdropWhile_nil]

theorem Core.trim (h : Core p a m b) : Trim.trim p (a ++ m ++ b) = m := by
  obtain ⟨c, rest, hm, hc⟩ := h.first
  obtain ⟨rest', c', hm', hc'⟩ := h.last
  have hdrop : (a ++ m ++ b).dropWhile p = m ++ b := by
    rw [List.append_assoc, List.dropWhile_append_of_pos h.before, hm, List.cons_append,
      List.dropWhile_cons_of_neg (by simp [hc])]
  have hafter : ∀ c ∈ b.reverse, p c = true := fun c hc => h.after c (List.mem_reverse.mp hc)
  rw [Trim.trim, hdrop, List.rdropWhile, List.reverse_append,
    List.dropWhile_append_of_pos hafter, hm', List.reverse_append, List.reverse_singleton,
    List.singleton_append, List.dropWhile_cons_of_neg (by simp [hc']), List.reverse_cons,
    List.reverse_reverse]

/-! ### The elements of a list with a core -/

/-- The last element of the core. -/
theorem Core.getElem?_last (h : Core p a m b) : ∃ c,
    (a ++ m ++ b)[a.length + (m.length - 1)]? = some c ∧ p c = false := by
  obtain ⟨rest, c, hm, hc⟩ := h.last
  refine ⟨c, ?_, hc⟩
  rw [hm]
  simp

/-- What is behind the core. -/
theorem Core.getElem?_after (h : Core p a m b) {j : ℕ} (hj : a.length + m.length ≤ j)
    (hlt : j < a.length + m.length + b.length) :
    ∃ c, (a ++ m ++ b)[j]? = some c ∧ p c = true := by
  have hjb : j - (a.length + m.length) < b.length := by omega
  refine ⟨b[j - (a.length + m.length)], ?_, h.after _ (List.getElem_mem hjb)⟩
  rw [List.getElem?_append_right (by rwa [List.length_append]), List.length_append,
    List.getElem?_eq_getElem hjb]

theorem Core.length_pos (h : Core p a m b) : 0 < m.length := by
  obtain ⟨c, rest, rfl, -⟩ := h.first
  exact Nat.succ_pos _

/-! ### Lists with text -/

/-- **A list with text is a core between its ends.** -/
theorem exists_core (h : HasText p s) : ∃ a m b, s = a ++ m ++ b ∧ Core p a m b := by
  obtain ⟨x, hx, hpx⟩ := h
  have hne : s.dropWhile p ≠ [] := by
    intro hnil
    have hall := List.dropWhile_eq_nil_iff.mp hnil x hx
    rw [hpx] at hall
    cases hall
  have hfirst := List.head_dropWhile_not p hne
  have hcore : (s.dropWhile p).rdropWhile p ≠ [] := by
    intro hnil
    have hall := List.rdropWhile_eq_nil_iff.mp hnil _ (List.head_mem hne)
    rw [hfirst] at hall
    cases hall
  have hrest : s.dropWhile p = (s.dropWhile p).rdropWhile p ++ (s.dropWhile p).rtakeWhile p :=
    (List.rdropWhile_append_rtakeWhile ..).symm
  obtain ⟨c, rest, hm⟩ := List.exists_cons_of_ne_nil hcore
  have hc : (s.dropWhile p).head hne = c := by
    have hhead : (s.dropWhile p).head? = some c := by
      rw [hrest, hm]
      rfl
    exact Option.some.inj ((List.head?_eq_some_head hne).symm.trans hhead)
  refine ⟨s.takeWhile p, (s.dropWhile p).rdropWhile p, (s.dropWhile p).rtakeWhile p, ?_,
    fun c hc => List.mem_takeWhile_imp hc, fun c hc => List.mem_rtakeWhile_imp hc,
    ⟨c, rest, hm, hc ▸ hfirst⟩, ?_⟩
  · rw [List.append_assoc, ← hrest, List.takeWhile_append_dropWhile]
  · exact ⟨_, _, (List.dropLast_append_getLast hcore).symm, by
      simpa using List.rdropWhile_last_not p _ hcore⟩

theorem trim_trim (s : List α) : trim p (trim p s) = trim p s := by
  by_cases h : HasText p s
  · obtain ⟨a, m, b, rfl, hcore⟩ := exists_core h
    have hself : Core p [] m [] := ⟨by simp, by simp, hcore.first, hcore.last⟩
    rw [hcore.trim]
    simpa using hself.trim
  · rw [trim_of_not_hasText h]
    rfl

theorem hasText_trim (h : HasText p s) : HasText p (trim p s) := by
  obtain ⟨a, m, b, rfl, hcore⟩ := exists_core h
  obtain ⟨c, rest, hm, hc⟩ := hcore.first
  rw [hcore.trim]
  exact ⟨c, by simp [hm], hc⟩

/-- An element without the property is left. -/
theorem mem_trim {c : α} (h : c ∈ s) (hc : p c = false) : c ∈ trim p s := by
  obtain ⟨a, m, b, rfl, hcore⟩ := exists_core ⟨c, h, hc⟩
  rw [hcore.trim]
  rcases List.mem_append.mp h with h | h
  · rcases List.mem_append.mp h with h | h
    · exact absurd (hcore.before c h) (by simp [hc])
    · exact h
  · exact absurd (hcore.after c h) (by simp [hc])

/-- The first element without the property is the first that is left. -/
theorem exists_trim_append_cons {c : α} (ha : ∀ x ∈ a, p x = true) (hc : p c = false)
    (s : List α) : ∃ t, trim p (a ++ c :: s) = c :: t := by
  rw [trim, List.dropWhile_append_of_pos ha, List.dropWhile_cons_of_neg (by simp [hc])]
  cases hcore : (c :: s).rdropWhile p with
  | nil =>
      have hall := List.rdropWhile_eq_nil_iff.mp hcore c List.mem_cons_self
      rw [hc] at hall
      cases hall
  | cons d t =>
      have hleft := List.rdropWhile_prefix p (c :: s)
      rw [hcore, List.cons_prefix_cons] at hleft
      rw [hleft.1]
      exact ⟨t, rfl⟩

theorem mem_of_mem_trim {c : α} (h : c ∈ trim p s) : c ∈ s :=
  (List.dropWhile_sublist _).mem ((List.rdropWhile_prefix _ _).sublist.mem h)

end Trim
