import Mathlib.Tactic

/-!
# Library — Linked lists

A list that is linked through its cells.  `next c` is `none` where there is no cell, else the link
of the cell, `some none` at the end.

* `Chain.unique`: a link leads through one list at most.
* `Chain.nodup`: a list that ends repeats no cell.
* `Chain.congr`: a change of other cells leaves a list.
* `Chain.forall_mem`: a property of what links lead to holds of all cells.
-/

variable {κ : Type*}

/-- The link `p` leads through the cells of the list and then to the end. -/
def Chain (next : κ → Option (Option κ)) : Option κ → List κ → Prop
  | p, [] => p = none
  | p, c :: l => p = some c ∧ ∃ q, next c = some q ∧ Chain next q l

namespace Chain

variable {next next' : κ → Option (Option κ)} {p : Option κ} {l l' : List κ} {c : κ}

theorem cons {q : Option κ} (hc : next c = some q) (h : Chain next q l) :
    Chain next (some c) (c :: l) := ⟨rfl, q, hc, h⟩

/-- From the null pointer the chain is empty. -/
theorem nil_of_none (h : Chain next none l) : l = [] := by
  cases l with
  | nil => rfl
  | cons c l => cases h.1

/-- A list that starts at a cell. -/
theorem of_some (h : Chain next (some c) l) : ∃ q l', l = c :: l' ∧ next c = some q ∧
    Chain next q l' := by
  cases l with
  | nil => cases h
  | cons d l' =>
      obtain ⟨hd, q, hq, hl⟩ := h
      obtain rfl := Option.some.inj hd
      exact ⟨q, l', rfl, hq, hl⟩

theorem unique (h : Chain next p l) (h' : Chain next p l') : l = l' := by
  induction l generalizing p l' with
  | nil =>
      obtain rfl : p = none := h
      exact h'.nil_of_none.symm
  | cons c l ih =>
      obtain ⟨rfl, q, hq, hl⟩ := h
      obtain ⟨q', l'', rfl, hq', hl'⟩ := h'.of_some
      obtain rfl := Option.some.inj (hq.symm.trans hq')
      rw [ih hl hl']

/-- What follows a cell is a list of its own. -/
theorem suffix (h : Chain next p l) (hc : c ∈ l) : ∃ q l₁ l₂, l = l₁ ++ c :: l₂ ∧
    next c = some q ∧ Chain next q l₂ := by
  induction l generalizing p with
  | nil => cases hc
  | cons d l ih =>
      obtain ⟨rfl, q, hq, hl⟩ := h
      rcases List.mem_cons.mp hc with rfl | hc
      · exact ⟨q, [], l, rfl, hq, hl⟩
      · obtain ⟨q', l₁, l₂, rfl, hq', hl₂⟩ := ih hl hc
        exact ⟨q', d :: l₁, l₂, rfl, hq', hl₂⟩

/-- **A list that ends repeats no cell.** -/
theorem nodup (h : Chain next p l) : l.Nodup := by
  induction l generalizing p with
  | nil => exact List.nodup_nil
  | cons c l ih =>
      obtain ⟨-, q, hq, hl⟩ := h
      refine List.nodup_cons.mpr ⟨fun hc => ?_, ih hl⟩
      obtain ⟨q', l₁, l₂, rfl, hq', hl₂⟩ := hl.suffix hc
      obtain rfl := Option.some.inj (hq.symm.trans hq')
      have hlen := congrArg List.length (hl.unique hl₂)
      simp only [List.length_append, List.length_cons] at hlen
      omega

theorem congr (h : Chain next p l) (hn : ∀ c ∈ l, next' c = next c) : Chain next' p l := by
  induction l generalizing p with
  | nil => exact h
  | cons c l ih =>
      obtain ⟨rfl, q, hq, hl⟩ := h
      exact cons ((hn c List.mem_cons_self).trans hq)
        (ih hl fun d hd => hn d (List.mem_cons_of_mem _ hd))

/-- Every cell of the chain has its pointer. -/
theorem next_of_mem (h : Chain next p l) (hc : c ∈ l) : ∃ q, next c = some q := by
  obtain ⟨q, -, -, -, hq, -⟩ := h.suffix hc
  exact ⟨q, hq⟩

/-- What holds of the cells that links lead to. -/
theorem forall_mem {P : κ → Prop} (h : Chain next p l) (hp : ∀ c, p = some c → P c)
    (hn : ∀ c d, next c = some (some d) → P d) : ∀ c ∈ l, P c := by
  induction l generalizing p with
  | nil => exact fun _ hc => absurd hc List.not_mem_nil
  | cons c l ih =>
      obtain ⟨rfl, q, hq, hl⟩ := h
      refine List.forall_mem_cons.mpr ⟨hp c rfl, ih hl fun d hd => ?_⟩
      exact hn c d (hq.trans (congrArg some hd))

/-- More cells leave a list. -/
theorem mono (h : Chain next p l) (hn : ∀ c q, next c = some q → next' c = some q) :
    Chain next' p l := by
  refine h.congr fun c hc => ?_
  obtain ⟨q, hq⟩ := h.next_of_mem hc
  rw [hn c q hq, hq]

end Chain
