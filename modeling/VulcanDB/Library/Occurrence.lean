import Mathlib.Data.List.Infix
import Mathlib.Tactic

/-!
# Library — Occurrences of a word

A search for a word finds its first occurrence.  A text is cut at the occurrences that a scan from
left to right finds, which do not overlap; to replace them is to join the gaps with another word.

* `find_first`, `exists_first`, `find_eq_none_iff`: the search.
* `gaps_first`, `gaps_of_absent`, `cases_first`: the scan, one occurrence at a time.
* `induction_first`, `intercalate_gaps`: the gaps with the word between them are the text.
-/

namespace Occurrence

variable {α : Type} [DecidableEq α] {sub s a b : List α}

/-! ### The search -/

/-- Where the first occurrence of `sub` begins. -/
def find (sub : List α) : List α → Option ℕ
  | [] => if sub.isEmpty then some 0 else none
  | c :: s => if sub.isPrefixOf (c :: s) then some 0 else (find sub s).map (· + 1)

/-- The occurrence behind `a` is the first. -/
def First (sub a b : List α) : Prop :=
  ∀ a' b', a ++ sub ++ b = a' ++ sub ++ b' → a.length ≤ a'.length

omit [DecidableEq α] in
/-- A first occurrence, one element further. -/
theorem First.tail {c : α} (h : First sub (c :: a) b) : First sub a b := fun a' b' heq => by
  have hle := h (c :: a') b' (by simp only [List.cons_append, heq])
  rwa [List.length_cons, List.length_cons, Nat.add_le_add_iff_right] at hle

omit [DecidableEq α] in
theorem First.not_begins {c : α} (h : First sub (c :: a) b) : ¬ sub <+: c :: (a ++ sub ++ b) := by
  rintro ⟨b', hb'⟩
  have hle := h [] b' (by simpa using hb'.symm)
  simp at hle

theorem find_first (h : First sub a b) : find sub (a ++ sub ++ b) = some a.length := by
  induction a with
  | nil =>
      rw [List.nil_append, List.length_nil]
      cases hs : sub ++ b with
      | nil =>
          obtain ⟨rfl, -⟩ := List.append_eq_nil_iff.mp hs
          rfl
      | cons c s =>
          have hpre : sub <+: c :: s := hs ▸ List.prefix_append sub b
          rw [find, if_pos (List.isPrefixOf_iff_prefix.mpr hpre)]
  | cons c a ih =>
      rw [List.cons_append, List.cons_append, find, if_neg (by simpa using h.not_begins),
        ih h.tail]
      rfl

omit [DecidableEq α] in
/-- What occurs has a first occurrence. -/
theorem exists_first (h : sub <:+: s) : ∃ a b, s = a ++ sub ++ b ∧ First sub a b := by
  induction s with
  | nil =>
      obtain rfl := List.eq_nil_of_infix_nil h
      exact ⟨[], [], rfl, fun _ _ _ => Nat.zero_le _⟩
  | cons c s ih =>
      by_cases hpre : sub <+: c :: s
      · obtain ⟨b, hb⟩ := hpre
        exact ⟨[], b, hb.symm, fun _ _ _ => Nat.zero_le _⟩
      · obtain ⟨a, b, rfl, hfirst⟩ := ih ((List.infix_cons_iff.mp h).resolve_left hpre)
        refine ⟨c :: a, b, rfl, fun a' b' heq => ?_⟩
        cases a' with
        | nil => exact absurd ⟨b', heq.symm⟩ hpre
        | cons c' a' => exact Nat.succ_le_succ (hfirst a' b' (List.cons.inj heq).2)

/-- Nothing is found where nothing occurs. -/
theorem find_eq_none_iff : find sub s = none ↔ ¬ sub <:+: s := by
  refine ⟨fun h hin => ?_, fun h => ?_⟩
  · obtain ⟨a, b, rfl, hfirst⟩ := exists_first hin
    rw [find_first hfirst] at h
    cases h
  · induction s with
    | nil =>
        rw [find, if_neg]
        intro hsub
        rw [List.isEmpty_iff.mp hsub] at h
        exact h List.infix_rfl
    | cons c s ih =>
        rw [List.infix_cons_iff, not_or] at h
        rw [find, if_neg (by simpa using h.1), ih h.2]
        rfl

/-- A text has no occurrence, or a first one. -/
theorem cases_first (sub s : List α) :
    find sub s = none ∧ ¬ sub <:+: s ∨
      ∃ a b, s = a ++ sub ++ b ∧ First sub a b ∧ find sub s = some a.length := by
  by_cases h : sub <:+: s
  · obtain ⟨a, b, rfl, hfirst⟩ := exists_first h
    exact .inr ⟨a, b, rfl, hfirst, find_first hfirst⟩
  · exact .inl ⟨find_eq_none_iff.mpr h, h⟩

/-! ### The scan -/

/-- The gaps, where the next `k` characters belong to an occurrence. -/
def gapsFrom (sub : List α) : ℕ → List α → List (List α)
  | _, [] => [[]]
  | k + 1, _ :: s => gapsFrom sub k s
  | 0, c :: s =>
    if sub.isPrefixOf (c :: s) then [] :: gapsFrom sub (sub.length - 1) s
    else (gapsFrom sub 0 s).modifyHead (c :: ·)

/-- What is between the occurrences of `sub` that a scan from left to right finds. -/
def gaps (sub s : List α) : List (List α) := gapsFrom sub 0 s

/-- The occurrences that a scan from left to right finds, replaced. -/
def replaceAll (sub new s : List α) : List α :=
  if sub.isEmpty then s else new.intercalate (gaps sub s)

/-- **All occurrences replaced** are the gaps, joined with the new text. -/
theorem replaceAll_of_ne (hsub : sub ≠ []) (new s : List α) :
    replaceAll sub new s = new.intercalate (gaps sub s) := by
  rw [replaceAll, if_neg (by simpa using hsub)]

/-- The elements in front do not matter. -/
theorem gapsFrom_append (x s : List α) : gapsFrom sub x.length (x ++ s) = gaps sub s := by
  induction x with
  | nil => rfl
  | cons c x ih => exact ih

/-- The first gap ends at the first occurrence. -/
theorem gaps_first (hsub : sub ≠ []) (h : First sub a b) :
    gaps sub (a ++ sub ++ b) = a :: gaps sub b := by
  induction a with
  | nil =>
      obtain ⟨c, x, rfl⟩ := List.exists_cons_of_ne_nil hsub
      have hpre : (c :: x).isPrefixOf (c :: (x ++ b)) = true :=
        List.isPrefixOf_iff_prefix.mpr ⟨b, rfl⟩
      show gapsFrom (c :: x) 0 (c :: (x ++ b)) = _
      rw [gapsFrom, if_pos hpre]
      exact congrArg _ (gapsFrom_append x b)
  | cons c a ih =>
      show gapsFrom sub 0 (c :: (a ++ sub ++ b)) = _
      rw [gapsFrom, if_neg (by simpa using h.not_begins), ← gaps, ih h.tail]
      rfl

/-- Without an occurrence there is one gap. -/
theorem gaps_of_absent (h : ¬ sub <:+: s) : gaps sub s = [s] := by
  induction s with
  | nil => rfl
  | cons c s ih =>
      rw [List.infix_cons_iff, not_or] at h
      rw [gaps, gapsFrom, if_neg (by simpa using h.1), ← gaps, ih h.2]
      rfl

/-- What holds of a text without an occurrence, and of one with a first occurrence if of the text
behind that, holds of all. -/
theorem induction_first {P : List α → Prop} (hsub : sub ≠ []) (hnone : ∀ s, ¬ sub <:+: s → P s)
    (hfirst : ∀ a b, First sub a b → P b → P (a ++ sub ++ b)) (s : List α) : P s := by
  induction hn : s.length using Nat.strong_induction_on generalizing s with
  | _ n ih =>
      rcases cases_first sub s with ⟨-, h⟩ | ⟨a, b, rfl, h, -⟩
      · exact hnone s h
      · have hpos := List.length_pos_iff.mpr hsub
        refine hfirst a b h (ih b.length ?_ b rfl)
        rw [← hn, List.length_append, List.length_append]
        omega

theorem gaps_ne_nil (hsub : sub ≠ []) (s : List α) : gaps sub s ≠ [] := by
  induction s using induction_first hsub with
  | hnone s h =>
      rw [gaps_of_absent h]
      exact List.cons_ne_nil _ _
  | hfirst a b h _ =>
      rw [gaps_first hsub h]
      exact List.cons_ne_nil _ _

/-- The gaps with the word between them are the text. -/
theorem intercalate_gaps (hsub : sub ≠ []) (s : List α) : sub.intercalate (gaps sub s) = s := by
  induction s using induction_first hsub with
  | hnone s h => rw [gaps_of_absent h, List.intercalate_singleton]
  | hfirst a b h ih =>
      rw [gaps_first hsub h, List.intercalate_cons_of_ne_nil (gaps_ne_nil hsub b), ih]

end Occurrence
