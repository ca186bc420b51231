import VulcanDB.Library.CxxString
import VulcanDB.Library.Rewriting

/-!
# Common — Replacing substrings

`replace` scans its argument once and builds a new string; `subreplace` replaces the first
occurrence in the string it has, and searches again from the start.

* `replace_eq`: the first replaces the occurrences of a scan from left to right.
* `subreplace_iff`: the second rewrites the first occurrence until there is none.
* `agrees_of_steady`, `steady_of_agrees`: they agree if, and in most cases only if, each step of the
  second gives what the scan gives.
* `subreplace_agrees`: when the two agree.
-/

namespace VulcanDB.Common

open Cxx Occurrence

/-! ### The code -/

/-- `str.find(old, pos)`. -/
def findFrom (str old : Str) (pos : ℕ) : Option ℕ :=
  if pos ≤ str.length then (find old (str.drop pos)).map (· + pos) else none

/-- The loop of `replace`, for `fuel` searches at most. -/
def replaceLoop (str old newStr : Str) : ℕ → ℕ → Str → Option Str
  | 0, _, _ => none
  | fuel + 1, lastIndex, result => match findFrom str old lastIndex with
    | some index =>
      let result := result ++ (str.drop lastIndex).take (index - lastIndex) ++ newStr
      replaceLoop str old newStr fuel (index + old.length) result
    | none => some (result ++ str.drop lastIndex)

/-- What `replace` leaves in its argument. -/
def replace (fuel : ℕ) (str old newStr : Str) : Option Str :=
  if old = newStr then some str
  else if old = [] then some str
  else if str.length < old.length then some str
  else replaceLoop str old newStr fuel 0 []

/-- `dst_str.replace(pos, len, new_str)`. -/
def replaceAt (dstStr : Str) (pos len : ℕ) (newStr : Str) : Str :=
  dstStr.take pos ++ newStr ++ dstStr.drop (pos + len)

/-- The loop of `subreplace`, for `fuel` searches at most. -/
def subreplaceLoop (subStr newStr : Str) : ℕ → Str → Option Str
  | 0, _ => none
  | fuel + 1, dstStr => match find subStr dstStr with
    | some pos => subreplaceLoop subStr newStr fuel (replaceAt dstStr pos subStr.length newStr)
    | none => some dstStr

/-- `subreplace`, which begins at the start of the text. -/
def subreplace (fuel : ℕ) (resourceStr subStr newStr : Str) : Option Str :=
  subreplaceLoop subStr newStr fuel resourceStr

/-- Both return, and give the string with the occurrences of a scan replaced. -/
def Agrees (src sub new : Str) : Prop := ∃ r,
  (∃ fuel, subreplace fuel src sub new = some r) ∧ (∃ fuel, replace fuel src sub new = some r) ∧
    r = replaceAll sub new src

/-! ### `replace` -/

theorem findFrom_append (a b old : Str) :
    findFrom (a ++ b) old a.length = (find old b).map (· + a.length) := by
  rw [findFrom, if_pos (by simp), List.drop_left]

/-- The gaps of what is left are joined. -/
theorem replaceLoop_eq {old : Str} (hold : old ≠ []) (newStr rest : Str) :
    ∀ {str done result : Str} {fuel : ℕ}, str = done ++ rest → (gaps old rest).length ≤ fuel →
      replaceLoop str old newStr fuel done.length result =
        some (result ++ newStr.intercalate (gaps old rest)) := by
  induction rest using induction_first hold with
  | hnone rest h =>
      intro str done result fuel heq hfuel
      obtain ⟨fuel, rfl⟩ := Nat.exists_eq_add_of_le' (Nat.lt_of_lt_of_le (by
        rw [gaps_of_absent h]; exact Nat.zero_lt_one) hfuel)
      rw [heq, replaceLoop, findFrom_append, find_eq_none_iff.mpr h, gaps_of_absent h,
        List.intercalate_singleton]
      simp only [Option.map_none, List.drop_left]
  | hfirst a b h ih =>
      intro str done result fuel heq hfuel
      rw [gaps_first hold h, List.length_cons] at hfuel
      obtain ⟨fuel, rfl⟩ := Nat.exists_eq_add_of_le' (Nat.lt_of_lt_of_le (Nat.succ_pos _) hfuel)
      have hcut : ((done ++ (a ++ old ++ b)).drop done.length).take
          (a.length + done.length - done.length) = a := by
        rw [List.drop_left, Nat.add_sub_cancel, List.append_assoc, List.take_left]
      have hnext : a.length + done.length + old.length = (done ++ a ++ old).length := by
        simp only [List.length_append]
        omega
      rw [heq, replaceLoop, findFrom_append, find_first h]
      simp only [Option.map_some, hcut, hnext]
      rw [ih (by simp only [List.append_assoc]) (by omega), gaps_first hold h,
        List.intercalate_cons_of_ne_nil (gaps_ne_nil hold b)]
      simp only [List.append_assoc]

/-- **`replace`** returns, and leaves the string with the occurrences of a scan replaced. -/
theorem replace_eq (str old newStr : Str) {fuel : ℕ} (h : (gaps old str).length ≤ fuel) :
    replace fuel str old newStr = some (replaceAll old newStr str) := by
  by_cases hold : old = []
  · subst hold
    rw [replace, if_pos rfl, ite_self]
    rfl
  rw [replaceAll_of_ne hold]
  by_cases hsame : old = newStr
  · rw [replace, if_pos hsame, ← hsame, intercalate_gaps hold]
  rw [replace, if_neg hsame, if_neg hold]
  by_cases hlong : str.length < old.length
  · have hin : ¬ old <:+: str := fun hin => by
      have hle := hin.length_le
      omega
    rw [if_pos hlong, gaps_of_absent hin, List.intercalate_singleton]
  · rw [if_neg hlong]
    exact replaceLoop_eq hold newStr str (List.nil_append str).symm h

/-! ### `subreplace` -/

theorem replaceAt_append (a s b newStr : Str) :
    replaceAt (a ++ s ++ b) a.length s.length newStr = a ++ newStr ++ b := by
  rw [replaceAt, ← List.length_append, List.drop_left, List.append_assoc a s b, List.take_left]

/-- A loop that returns has ended after some rounds. -/
theorem subreplaceLoop_ends {sub new : Str} {fuel : ℕ} {s r : Str}
    (h : subreplaceLoop sub new fuel s = some r) : ∃ k, Ends sub new k s r := by
  induction fuel generalizing s with
  | zero => cases h
  | succ fuel ih =>
      rcases cases_first sub s with ⟨hfind, hnot⟩ | ⟨a, b, rfl, hfirst, hfind⟩
      · rw [subreplaceLoop, hfind] at h
        obtain rfl := Option.some.inj h
        exact ⟨0, .absent hnot⟩
      · rw [subreplaceLoop, hfind] at h
        simp only [replaceAt_append] at h
        obtain ⟨k, hk⟩ := ih h
        exact ⟨k + 1, .first hfirst hk⟩

/-- Rounds that end make the loop return. -/
theorem subreplaceLoop_of_ends {sub new s r : Str} {k : ℕ} (h : Ends sub new k s r) :
    subreplaceLoop sub new (k + 1) s = some r := by
  induction h with
  | absent hnot => rw [subreplaceLoop, find_eq_none_iff.mpr hnot]
  | first hfirst _ ih =>
      rw [subreplaceLoop, find_first hfirst]
      simp only [replaceAt_append]
      exact ih

/-- **`subreplace`** returns what is left when the first occurrence has been replaced until there
is none, if that comes to an end. -/
theorem subreplace_iff {src sub new r : Str} :
    (∃ fuel, subreplace fuel src sub new = some r) ↔ ∃ k, Ends sub new k src r := by
  constructor
  · rintro ⟨fuel, h⟩
    exact subreplaceLoop_ends h
  · rintro ⟨k, h⟩
    exact ⟨k + 1, subreplaceLoop_of_ends h⟩

/-! ### Both -/

/-- **The condition is enough.** -/
theorem agrees_of_steady {src sub new : Str} (hsub : sub ≠ [])
    (h : Steady sub new [] (gaps sub src)) : Agrees src sub new := by
  have hends := h.ends (gaps_ne_nil hsub src)
  rw [List.nil_append, intercalate_gaps hsub, List.nil_append, ← replaceAll_of_ne hsub] at hends
  exact ⟨_, subreplace_iff.mpr ⟨_, hends⟩, ⟨_, replace_eq src sub new le_rfl⟩, rfl⟩

/-- What agrees has no occurrence left. -/
theorem absent_of_agrees {src sub new : Str} (h : Agrees src sub new) :
    sub ≠ [] ∧ ¬ sub <:+: replaceAll sub new src := by
  obtain ⟨r, hrun, -, rfl⟩ := h
  obtain ⟨k, hends⟩ := subreplace_iff.mp hrun
  have hnot := hends.not_infix
  refine ⟨?_, hnot⟩
  rintro rfl
  exact hnot List.nil_infix

/-- **The condition is necessary**, where the overlaps pull one way. -/
theorem steady_of_agrees {src sub new : Str}
    (hcase : sub.length = new.length ∨ ¬ new <:+ sub ∨ OneWay sub new)
    (h : Agrees src sub new) : Steady sub new [] (gaps sub src) := by
  obtain ⟨hsub, -⟩ := absent_of_agrees h
  obtain ⟨r, hrun, -, rfl⟩ := h
  obtain ⟨k, hends⟩ := subreplace_iff.mp hrun
  refine Ends.steady (k := k) (gaps_ne_nil hsub src) hcase ?_
  rwa [intercalate_gaps hsub, ← replaceAll_of_ne hsub]

/-- **Main result.**  The replacers agree if the word is not empty and each replacement is steady.
If they agree the word is not empty, and does not occur in the result, which is enough where it
does not matter which of two overlapping occurrences is replaced.  They agree only if each
replacement is steady where the replacement is as long as the word, where the word does not end
with it, and where in some order of the letters the earlier of two overlapping occurrences never
makes the text greater. -/
theorem subreplace_agrees (src sub new : Str) :
    (sub ≠ [] ∧ Steady sub new [] (gaps sub src) → Agrees src sub new) ∧
      (Agrees src sub new → sub ≠ [] ∧ ¬ sub <:+: replaceAll sub new src) ∧
      (Indifferent sub new →
        (Agrees src sub new ↔ sub ≠ [] ∧ ¬ sub <:+: replaceAll sub new src)) ∧
      (sub.length = new.length ∨ ¬ new <:+ sub ∨ OneWay sub new →
        (Agrees src sub new ↔ sub ≠ [] ∧ Steady sub new [] (gaps sub src))) := by
  refine ⟨fun h => agrees_of_steady h.1 h.2, absent_of_agrees, fun hindiff =>
    ⟨absent_of_agrees, fun h => agrees_of_steady h.1 (hindiff.steady ?_)⟩, fun hcase =>
    ⟨fun h => ⟨(absent_of_agrees h).1, steady_of_agrees hcase h⟩, fun h =>
      agrees_of_steady h.1 h.2⟩⟩
  have hnot := h.2
  rwa [replaceAll_of_ne h.1] at hnot

/-- A word in its own replacement, an empty word, and a word that a removal creates. -/
theorem not_always_agrees : ¬ Agrees "a".toList "a".toList "aa".toList ∧
    ¬ Agrees "a".toList [] "b".toList ∧ ¬ Agrees "aabb".toList "ab".toList [] := by
  refine ⟨fun h => ?_, fun h => (absent_of_agrees h).1 rfl, fun h => ?_⟩
  · exact (absent_of_agrees h).2 (by decide)
  · exact (absent_of_agrees h).2 (by decide)

end VulcanDB.Common
