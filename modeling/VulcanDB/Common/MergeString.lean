import VulcanDB.Common.SplitString

/-!
# Common — Merging strings

`merge_string` puts strings behind each other with a delimiter between them, and counts them with
an `unsigned int`.

* `mergeString_eq`: the strings are joined if the counter does not wrap.
* `mergeString_endless`: otherwise the loop does not end.
* `split_merge_iff`: when to split and to merge are inverse.
-/

namespace VulcanDB.Common

open Cxx

/-- The loop, for at most `fuel` turns. -/
def mergeLoop (delim : Str) (source : List Str) (resultLen : ℕ) : ℕ → ℕ → Str → Option Str
  | 0, _, _ => none
  | fuel + 1, i, ss =>
    if i < resultLen then
      let ss := if i = 0 then ss ++ source.getD i [] else ss ++ delim ++ source.getD i []
      mergeLoop delim source resultLen fuel ((i + 1) % 2 ^ 32) ss
    else some ss

/-- `merge_string`: a count of 0, or one that is too large, stands for all. -/
def mergeString (fuel : ℕ) (delim : Str) (source : List Str) (resultLen : ℕ) : Option Str :=
  if source.isEmpty then some []
  else
    let resultLen :=
      if resultLen = 0 ∨ resultLen > source.length then source.length else resultLen
    mergeLoop delim source resultLen fuel 0 []

/-! ### The loop -/

/-- The strings behind the first, each behind a delimiter. -/
theorem intercalate_cons (delim l : Str) (ls : List Str) :
    delim.intercalate (l :: ls) = l ++ ls.flatMap (delim ++ ·) := by
  induction ls generalizing l with
  | nil => rw [List.intercalate_singleton, List.flatMap_nil, List.append_nil]
  | cons m ls ih =>
      rw [List.intercalate_cons_cons, ih, List.flatMap_cons, List.append_assoc, List.append_assoc]

section Loop

variable (delim : Str) {source : List Str}

/-- Behind the first string. -/
theorem mergeLoop_eq (h : source.length < 2 ^ 32) (fuel : ℕ) : ∀ {i : ℕ} {ss : Str}, 0 < i →
    mergeLoop delim source source.length fuel i ss = if source.length - i < fuel then
      some (ss ++ (source.drop i).flatMap (delim ++ ·)) else none := by
  induction fuel with
  | zero =>
      intro i ss hi
      rw [if_neg (Nat.not_lt_zero _), mergeLoop]
  | succ fuel ih =>
      intro i ss hi
      rw [mergeLoop]
      by_cases hlt : i < source.length
      · have hwrap : (i + 1) % 2 ^ 32 = i + 1 := Nat.mod_eq_of_lt (by omega)
        have hget : source.getD i [] = source[i] := by
          rw [List.getD_eq_getElem?_getD, List.getElem?_eq_getElem hlt, Option.getD_some]
        rw [if_pos hlt]
        simp only [if_neg hi.ne', hwrap, hget]
        rw [ih (Nat.succ_pos i), List.drop_eq_getElem_cons hlt, List.flatMap_cons]
        by_cases hfuel : source.length - i < fuel + 1
        · rw [if_pos hfuel, if_pos (by omega)]
          simp only [List.append_assoc]
        · rw [if_neg hfuel, if_neg (by omega)]
      · rw [if_neg hlt, if_pos (by omega), List.drop_of_length_le (by omega), List.flatMap_nil,
          List.append_nil]

/-- **The strings are joined**, if there are less than the counter can count. -/
theorem mergeString_eq (h : source.length < 2 ^ 32) {fuel : ℕ} :
    mergeString fuel delim source 0 = if source = [] ∨ source.length < fuel then
      some (delim.intercalate source) else none := by
  cases source with
  | nil => rw [if_pos (.inl rfl)]; rfl
  | cons l ls =>
      rw [mergeString, if_neg (by simp)]
      simp only [true_or, if_true, reduceCtorEq, false_or]
      cases fuel with
      | zero => rw [if_neg (Nat.not_lt_zero _), mergeLoop]
      | succ fuel =>
          have hone : (0 + 1) % 2 ^ 32 = 1 := rfl
          have hpos : 0 < (l :: ls).length := Nat.succ_pos _
          rw [mergeLoop, if_pos hpos]
          simp only [hone, if_true]
          rw [mergeLoop_eq delim h fuel Nat.one_pos, intercalate_cons]
          rw [List.length_cons, Nat.add_sub_cancel]
          by_cases hfuel : ls.length < fuel
          · rw [if_pos hfuel, if_pos (by omega)]
            rfl
          · rw [if_neg hfuel, if_neg (by omega)]

/-- **The loop does not end** if the counter wraps before it has counted all. -/
theorem mergeLoop_endless {resultLen : ℕ} (h : 2 ^ 32 ≤ resultLen) (fuel : ℕ) :
    ∀ {i : ℕ} {ss : Str}, i < 2 ^ 32 → mergeLoop delim source resultLen fuel i ss = none := by
  induction fuel with
  | zero => exact fun _ => rfl
  | succ fuel ih =>
      intro i ss hi
      rw [mergeLoop, if_pos (by omega)]
      exact ih (Nat.mod_lt _ (by decide))

/-- The index is an `int`: past `2 ^ 32` strings the loop never ends. -/
theorem mergeString_endless (h : 2 ^ 32 ≤ source.length) (fuel : ℕ) :
    mergeString fuel delim source 0 = none := by
  have hne : source.isEmpty = false := by
    cases source with
    | nil => exact absurd h (by decide)
    | cons l ls => rfl
  rw [mergeString, hne]
  exact mergeLoop_endless delim (by simpa using h) fuel (by decide)

end Loop

/-! ### Splitting and merging -/

/-- There is one piece more than there are delimiters. -/
theorem length_splitOn (s : Str) (dim : Char) : (s.splitOn dim).length = s.count dim + 1 := by
  induction s using text_induction (d := dim) with
  | hlast s hdim =>
      rw [List.splitOn_eq_singleton hdim, List.count_eq_zero_of_not_mem hdim]
      rfl
  | hpiece a b hdim ih =>
      rw [List.splitOn_append_cons_self_of_not_mem hdim, List.length_cons, ih, List.count_append,
        List.count_eq_zero_of_not_mem hdim, List.count_cons_self, Nat.zero_add]

/-- With empty pieces kept, these are all. -/
theorem pieces_true (s : Str) (dim : Char) : pieces s dim true = s.splitOn dim := by
  rw [pieces, List.filter_eq_self]
  exact fun l _ => Bool.or_true _

/-- The pieces of the string merge to it, and there is one more than there are delimiters. -/
def SplitMerges (s : Str) (dim : Char) : Prop :=
  ∃ ps, splitString (strdup s) dim true = some ps ∧ ps.length = s.count dim + 1 ∧
    ∃ fuel, mergeString fuel [dim] ps 0 = some s

/-- The strings merge to one that splits into them. -/
def MergeSplits (v : List Str) (dim : Char) : Prop :=
  ∃ fuel str, mergeString fuel [dim] v 0 = some str ∧ splitVector str [dim] [] = .ok v

/-- **Split, then merged.** -/
theorem splitMerges_iff {s : Str} (hs : terminator ∉ s) (dim : Char) :
    SplitMerges s dim ↔ s.count dim + 1 < 2 ^ 32 := by
  have hsplit := splitString_eq hs dim true
  rw [pieces_true] at hsplit
  have hlen := length_splitOn s dim
  constructor
  · rintro ⟨ps, hps, hcount, fuel, hmerge⟩
    by_contra hmany
    rw [mergeString_endless [dim] (by omega)] at hmerge
    cases hmerge
  · intro h
    refine ⟨s.splitOn dim, hsplit, hlen, (s.splitOn dim).length + 1, ?_⟩
    rw [mergeString_eq [dim] (by omega), if_pos (.inr (Nat.lt_succ_self _)),
      List.intercalate_splitOn]

/-- **Merged, then split.** -/
theorem mergeSplits_iff {v : List Str} {dim : Char} (hne : v ≠ [])
    (hv : ∀ l ∈ v, l ≠ [] ∧ dim ∉ l) :
    MergeSplits v dim ↔ v.length < 2 ^ 32 ∧ ∀ l ∈ v.dropLast, l.length + 1 < 2 ^ 31 := by
  have hsplit : ([dim].intercalate v).splitOn dim = v :=
    List.splitOn_intercalate dim (fun l hl => (hv l hl).2) hne
  constructor
  · rintro ⟨fuel, str, hmerge, hvector⟩
    have hfew : v.length < 2 ^ 32 := by
      by_contra hmany
      rw [mergeString_endless [dim] (by omega)] at hmerge
      cases hmerge
    rw [mergeString_eq [dim] hfew] at hmerge
    split at hmerge
    · rw [← Option.some.inj hmerge] at hvector
      have hshort := short_of_splitVector hvector fun l hl => (hv l hl).2
      rw [hsplit] at hshort
      exact ⟨hfew, hshort⟩
    · cases hmerge
  · rintro ⟨hfew, hshort⟩
    refine ⟨v.length + 1, [dim].intercalate v, ?_, ?_⟩
    · rw [mergeString_eq [dim] hfew, if_pos (.inr (Nat.lt_succ_self _))]
    · have hpieces : pieces ([dim].intercalate v) dim false = v := by
        rw [pieces, hsplit, List.filter_eq_self]
        intro l hl
        simpa using (hv l hl).1
      rw [splitVector_short (by rwa [hsplit]), hpieces]

/-- **Main result.**  The pieces of a string merge to it if and only if there are less than
`2 ^ 32`; strings that are not empty merge to one that splits into them if and only if there are
less than `2 ^ 32` and all but the last are shorter than `2 ^ 31 - 1`. -/
theorem split_merge_iff {s : Str} {v : List Str} {dim : Char} (hs : terminator ∉ s) (hne : v ≠ [])
    (hv : ∀ l ∈ v, l ≠ [] ∧ dim ∉ l) (delim : Char) :
    (SplitMerges s delim ↔ s.count delim + 1 < 2 ^ 32) ∧
      (MergeSplits v dim ↔ v.length < 2 ^ 32 ∧ ∀ l ∈ v.dropLast, l.length + 1 < 2 ^ 31) :=
  ⟨splitMerges_iff hs delim, mergeSplits_iff hne hv⟩

/-- Three pieces, one of them empty, and two strings. -/
theorem split_merge_three : SplitMerges "a,,b".toList ',' ∧
    MergeSplits ["a".toList, "b".toList] ',' := by
  obtain ⟨hsplit, hmerge⟩ := @split_merge_iff "a,,b".toList ["a".toList, "b".toList] ','
    (by decide) (List.cons_ne_nil _ _) (by decide) ','
  exact ⟨hsplit.mpr (by decide), hmerge.mpr (by decide)⟩

/-- As many delimiters as the counter can count. -/
theorem not_always_split_merge : ¬ SplitMerges (List.replicate (2 ^ 32 - 1) ',') ',' := by
  intro h
  have hs : terminator ∉ List.replicate (2 ^ 32 - 1) ',' := fun h =>
    absurd (List.eq_of_mem_replicate h) (by decide)
  have hfew := (splitMerges_iff hs ',').mp h
  rw [List.count_replicate_self] at hfew
  exact absurd hfew (by decide)

end VulcanDB.Common
