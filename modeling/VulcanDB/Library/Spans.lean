import Mathlib.Data.List.TakeWhile
import Mathlib.Tactic

/-!
# Library — Spans of a list

A list is read by position: past the elements that have a property, and past those that do not.  A
run is a longest part of the list without elements that have it.

* `isRun_past`: what is passed from an element without the property is a run.
* `IsRun.next`: the first run from a position on, and that the others are further on.
-/

namespace Spans

variable {α : Type*} {p : α → Bool} {s : List α} {i j k : ℕ} {c : α}

/-! ### Positions -/

/-- The position past the elements with `p` from `i` on. -/
def past (p : α → Bool) (s : List α) (i : ℕ) : ℕ := i + ((s.drop i).takeWhile p).length

/-- No character before the position is passed. -/
theorem le_past : i ≤ past p s i := Nat.le_add_right ..

theorem past_le (hi : i ≤ s.length) : past p s i ≤ s.length := by
  have hlen : ((s.drop i).takeWhile p).length ≤ (s.drop i).length :=
    (List.takeWhile_prefix p).length_le
  rw [List.length_drop] at hlen
  rw [past]
  omega

/-- What follows is what is not passed. -/
theorem drop_past (p : α → Bool) (s : List α) (i : ℕ) :
    s.drop (past p s i) = (s.drop i).dropWhile p := by
  have hdrop : ∀ l : List α, l.drop (l.takeWhile p).length = l.dropWhile p := by
    intro l
    nth_rewrite 2 [← List.takeWhile_append_dropWhile (p := p) (l := l)]
    rw [List.drop_left]
  rw [past, ← List.drop_drop, hdrop]

/-- The elements that are passed. -/
theorem of_lt_past (hik : i ≤ k) (hk : k < past p s i) (hc : s[k]? = some c) : p c = true := by
  have hlt : k - i < ((s.drop i).takeWhile p).length := by
    rw [past] at hk
    omega
  obtain ⟨hks, rfl⟩ := List.getElem?_eq_some_iff.mp hc
  have hget : ((s.drop i).takeWhile p)[k - i] = s[k] := by
    rw [(List.takeWhile_prefix p).getElem hlt, List.getElem_drop]
    simp only [Nat.add_sub_cancel' hik]
  rw [← hget]
  exact List.mem_takeWhile_imp (List.getElem_mem hlt)

/-- The element that is not. -/
theorem at_past (hc : s[past p s i]? = some c) : p c = false := by
  have hhead : ((s.drop i).dropWhile p).head? = some c := by
    rw [← drop_past, List.head?_drop, hc]
  have hnot := List.head?_dropWhile_not p (s.drop i)
  rwa [hhead] at hnot

/-- A character that satisfies `p` is passed. -/
theorem lt_past (hc : s[i]? = some c) (hpc : p c = true) : i < past p s i := by
  refine lt_of_le_of_ne le_past fun heq => ?_
  rw [heq] at hc
  rw [at_past hc] at hpc
  cases hpc

/-! ### Runs -/

/-- From `i` to `j` there are elements without `p`, and elements with it or an end beside them. -/
structure IsRun (p : α → Bool) (s : List α) (i j : ℕ) : Prop where
  lt : i < j
  le : j ≤ s.length
  inside : ∀ k c, i ≤ k → k < j → s[k]? = some c → p c = false
  before : ∀ k c, k + 1 = i → s[k]? = some c → p c = true
  after : ∀ c, s[j]? = some c → p c = true

/-- No run goes on at `i`. -/
def Between (p : α → Bool) (s : List α) (i : ℕ) : Prop := i = 0 ∨ ∀ c, s[i]? = some c → p c = true

/-- Up to the next such character there is none. -/
theorem between_past (p : α → Bool) (s : List α) (i : ℕ) :
    Between p s (past (fun c => !p c) s i) := by
  refine .inr fun c hc => ?_
  simpa using at_past hc

/-- The element at which a run begins. -/
theorem IsRun.exists_first (h : IsRun p s i j) : ∃ c, s[i]? = some c ∧ p c = false := by
  have hlt : i < s.length := h.lt.trans_le h.le
  have hget : s[i]? = some s[i] := List.getElem?_eq_getElem hlt
  exact ⟨_, hget, h.inside i _ le_rfl h.lt hget⟩

/-- A run goes as far as what is passed from its first element. -/
theorem IsRun.end_eq (h : IsRun p s i j) : j = past (fun c => !p c) s i := by
  have hle : past (fun c => !p c) s i ≤ s.length := past_le (h.lt.trans_le h.le).le
  refine le_antisymm (not_lt.mp fun hlt => ?_) (not_lt.mp fun hlt => ?_)
  · have hget := List.getElem?_eq_getElem (hlt.trans_le h.le)
    have hp := at_past hget
    rw [h.inside _ _ le_past hlt hget] at hp
    cases hp
  · have hget := List.getElem?_eq_getElem (hlt.trans_le hle)
    have hp := of_lt_past h.lt.le hlt hget
    rw [h.after _ hget] at hp
    cases hp

/-- **What is passed from an element without `p`** is a run. -/
theorem isRun_past (hi : Between p s i) (hlt : past p s i < s.length) :
    IsRun p s (past p s i) (past (fun c => !p c) s (past p s i)) := by
  obtain ⟨c, hc⟩ : ∃ c, s[past p s i]? = some c := ⟨_, List.getElem?_eq_getElem hlt⟩
  have hpc := at_past hc
  refine ⟨lt_past hc (by simp [hpc]), past_le hlt.le,
    fun k d hk hkj hd => by simpa using of_lt_past hk hkj hd,
    fun k d hk hd => ?_, fun d hd => by simpa using at_past hd⟩
  rcases Nat.lt_or_ge k i with hki | hki
  · have heq : past p s i = i := le_antisymm (by omega) le_past
    rcases hi with rfl | hi
    · cases hki
    · rw [heq] at hc
      rw [hi c hc] at hpc
      cases hpc
  · exact of_lt_past hki (by omega) hd

/-- **The first run from `i` on** is the one that is passed there; the others are further on. -/
theorem IsRun.next (h : IsRun p s j k) (hij : i ≤ j) :
    (j = past p s i ∧ k = past (fun c => !p c) s (past p s i)) ∨
      past (fun c => !p c) s (past p s i) < j := by
  obtain ⟨c, hc, hpc⟩ := h.exists_first
  have hle : past p s i ≤ j := by
    by_contra hlt
    rw [of_lt_past hij (not_le.mp hlt) hc] at hpc
    cases hpc
  have hjs : j < s.length := h.lt.trans_le h.le
  rcases hle.eq_or_lt with rfl | hlt
  · exact .inl ⟨rfl, h.end_eq⟩
  · -- the element before the run has `p`, and is not passed
    obtain ⟨m, rfl⟩ : ∃ m, j = m + 1 :=
      Nat.exists_eq_add_one.mpr (Nat.zero_lt_of_lt hlt)
    refine .inr (Nat.lt_succ_of_le (not_lt.mp fun hm => ?_))
    have hget := List.getElem?_eq_getElem (Nat.lt_of_succ_lt hjs)
    have hp := of_lt_past (Nat.le_of_lt_succ hlt) hm hget
    rw [h.before m _ rfl hget] at hp
    cases hp

end Spans
