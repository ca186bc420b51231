import VulcanDB.Library.CxxString

/-!
# Library — Input streams read by lines

`std::getline` on a text, with the state it leaves behind: a stream that has hit its end refuses
the next read and leaves the string unchanged, and a stream that runs out while reading nothing
empties it.

`getlines d s` is what the loop `while (getline(stream, line, d))` reads from `s`.  A piece that
ends the text without a delimiter is read; an empty piece there is not.

* `getlines_append`, `text_cases`: the loop, one read at a time.
* `getlines_terminated`, `getlines_joinWith`: the pieces of a written text are read back.
* `getlines_take_terminated_iff`: how much of the text has to be there for that.
-/

namespace Cxx

/-- An input stream: what is left of its text, and whether it has hit its end. -/
structure IStream where
  rest : Str
  eof : Bool
  deriving DecidableEq, Repr

/-- A stream opened on a text. -/
def IStream.ofText (s : Str) : IStream := ⟨s, false⟩

/-- `getline(is, line, d)`: the stream, the string and the result after the call, where `line`
holds `old` before it. -/
def getline (d : Char) (is : IStream) (old : Str) : IStream × Str × Bool :=
  if is.eof then (is, old, false)
  else if is.rest = [] then (⟨[], true⟩, [], false)
  else if d ∈ is.rest then (⟨after d is.rest, false⟩, before d is.rest, true)
  else (⟨[], true⟩, is.rest, true)

/-- The pieces the loop `while (getline(…, d))` reads. -/
def getlines (d : Char) : Str → List Str
  | [] => []
  | c :: s =>
    if c = d then [] :: getlines d s
    else match getlines d s with
      | [] => [[c]]
      | l :: ls => (c :: l) :: ls

/-- The pieces of a text, each followed by a delimiter. -/
def terminated (d : Char) (ls : List Str) : Str := ls.flatMap (· ++ [d])

/-- The pieces of a text with delimiters between them. -/
def joinWith (d : Char) : List Str → Str
  | [] => []
  | [l] => l
  | l :: ls => l ++ d :: joinWith d ls

/-- The text is not empty and does not end with a delimiter. -/
def Unterminated (d : Char) (s : Str) : Prop := ∃ c, s.getLast? = some c ∧ c ≠ d

instance (d : Char) (s : Str) : Decidable (Unterminated d s) :=
  decidable_of_iff (s.getLast?.any (· != d) = true) (by simp [Unterminated, Option.any_eq_true])

/-! ### The loop, one read at a time -/

@[simp] theorem getlines_nil (d : Char) : getlines d [] = [] := rfl

theorem getlines_append {d : Char} {l : Str} (h : d ∉ l) (s : Str) :
    getlines d (l ++ d :: s) = l :: getlines d s := by
  induction l with
  | nil => simp [getlines]
  | cons c l ih =>
      simp only [List.mem_cons, not_or] at h
      rw [List.cons_append, getlines, if_neg (Ne.symm h.1), ih h.2]

theorem getlines_of_notMem {d : Char} {l : Str} (h : d ∉ l) (hl : l ≠ []) :
    getlines d l = [l] := by
  induction l with
  | nil => exact absurd rfl hl
  | cons c l ih =>
      simp only [List.mem_cons, not_or] at h
      rw [getlines, if_neg (Ne.symm h.1)]
      rcases eq_or_ne l [] with rfl | hne
      · rfl
      · rw [ih h.2 hne]

/-- A text is empty, one unterminated piece, or a piece, a delimiter and a text. -/
theorem text_cases (d : Char) (s : Str) :
    s = [] ∨ (s ≠ [] ∧ d ∉ s) ∨ ∃ l r, s = l ++ d :: r ∧ d ∉ l := by
  rcases eq_or_ne s [] with rfl | hs
  · exact .inl rfl
  · by_cases h : d ∈ s
    · exact .inr (.inr (List.eq_append_cons_of_mem h))
    · exact .inr (.inl ⟨hs, h⟩)

/-- What holds of a text without a delimiter, and of a piece, a delimiter and a text if of that
text, holds of all texts. -/
theorem text_induction {d : Char} {P : Str → Prop} (hlast : ∀ s, d ∉ s → P s)
    (hpiece : ∀ l s, d ∉ l → P s → P (l ++ d :: s)) (s : Str) : P s := by
  induction hn : s.length using Nat.strong_induction_on generalizing s with
  | _ n ih =>
      by_cases hd : d ∈ s
      · obtain ⟨l, r, rfl, hl⟩ := List.eq_append_cons_of_mem hd
        refine hpiece l r hl (ih r.length ?_ r rfl)
        rw [← hn, List.length_append, List.length_cons]
        omega
      · exact hlast s hd

theorem getlines_eq_nil {d : Char} {s : Str} : getlines d s = [] ↔ s = [] := by
  refine ⟨fun h => ?_, fun h => by rw [h]; rfl⟩
  rcases text_cases d s with rfl | ⟨hs, hd⟩ | ⟨l, r, rfl, hl⟩
  · rfl
  · rw [getlines_of_notMem hd hs] at h; cases h
  · rw [getlines_append hl] at h; cases h

/-- A text without a delimiter is read as it is, if at all. -/
theorem eq_of_mem_getlines {d : Char} {l s : Str} (hd : d ∉ s) (h : l ∈ getlines d s) : l = s := by
  rcases eq_or_ne s [] with rfl | hs
  · cases h
  · rwa [getlines_of_notMem hd hs, List.mem_singleton] at h

theorem notMem_of_mem_getlines {d : Char} {l s : Str} (h : l ∈ getlines d s) : d ∉ l := by
  induction s using text_induction (d := d) with
  | hlast s hd => exact eq_of_mem_getlines hd h ▸ hd
  | hpiece p s hp ih =>
      rw [getlines_append hp, List.mem_cons] at h
      rcases h with rfl | h
      · exact hp
      · exact ih h

theorem mem_of_mem_getlines {d c : Char} {l s : Str} (hl : l ∈ getlines d s) (hc : c ∈ l) :
    c ∈ s := by
  induction s using text_induction (d := d) with
  | hlast s hd => exact eq_of_mem_getlines hd hl ▸ hc
  | hpiece p s hp ih =>
      rw [getlines_append hp, List.mem_cons] at hl
      rcases hl with rfl | hl
      · exact List.mem_append_left _ hc
      · exact List.mem_append_right _ (List.mem_cons_of_mem _ (ih hl))

/-! ### Reading a written text back -/

@[simp] theorem terminated_nil (d : Char) : terminated d [] = [] := rfl

@[simp] theorem terminated_cons (d : Char) (l : Str) (ls : List Str) :
    terminated d (l :: ls) = l ++ d :: terminated d ls := by simp [terminated]

/-- Terminated lines are read one after another. -/
theorem getlines_terminated_append {d : Char} {ls : List Str} (h : ∀ l ∈ ls, d ∉ l) (s : Str) :
    getlines d (terminated d ls ++ s) = ls ++ getlines d s := by
  induction ls with
  | nil => rfl
  | cons l ls ih =>
      simp only [List.mem_cons, forall_eq_or_imp] at h
      rw [terminated_cons, List.append_assoc, List.cons_append, getlines_append h.1, ih h.2,
        List.cons_append]

theorem getlines_terminated {d : Char} {ls : List Str} (h : ∀ l ∈ ls, d ∉ l) :
    getlines d (terminated d ls) = ls := by
  simpa using getlines_terminated_append h []

theorem joinWith_cons {d : Char} (l : Str) {ls : List Str} (h : ls ≠ []) :
    joinWith d (l :: ls) = l ++ d :: joinWith d ls := by
  cases ls with
  | nil => exact absurd rfl h
  | cons => rfl

/-- The last piece has to be there to be read: an empty one at the end of the text is not. -/
theorem getlines_joinWith {d : Char} {ls : List Str} (h : ∀ l ∈ ls, d ∉ l)
    (hlast : ls.getLast? ≠ some []) : getlines d (joinWith d ls) = ls := by
  induction ls with
  | nil => rfl
  | cons l ls ih =>
      simp only [List.mem_cons, forall_eq_or_imp] at h
      rcases eq_or_ne ls [] with rfl | hne
      · show getlines d l = [l]
        exact getlines_of_notMem h.1 (by simpa using hlast)
      · rw [joinWith_cons l hne, getlines_append h.1, ih h.2]
        rwa [List.getLast?_cons_of_ne_nil hne] at hlast

/-- A text that does not end with a delimiter is its pieces joined. -/
theorem joinWith_getlines {d : Char} {s : Str} (h : s.getLast? ≠ some d) :
    joinWith d (getlines d s) = s := by
  induction s using text_induction (d := d) with
  | hlast s hd =>
      rcases eq_or_ne s [] with rfl | hs
      · rfl
      · rw [getlines_of_notMem hd hs]; rfl
  | hpiece l r hl ih =>
      have hr : r ≠ [] := by rintro rfl; simp at h
      have hlast : r.getLast? ≠ some d := by
        rwa [List.getLast?_append, List.getLast?_cons_of_ne_nil hr,
          List.getLast?_eq_some_getLast hr, Option.some_or,
          ← List.getLast?_eq_some_getLast hr] at h
      rw [getlines_append hl, joinWith_cons l fun e => hr (getlines_eq_nil.mp e), ih hlast]

/-- Dropping the delimiter after the last piece leaves the pieces joined. -/
theorem dropLast_terminated (d : Char) (ls : List Str) :
    (terminated d ls).dropLast = joinWith d ls := by
  induction ls with
  | nil => rfl
  | cons l ls ih =>
      rcases eq_or_ne ls [] with rfl | hne
      · simp [joinWith]
      · have : terminated d ls ≠ [] := by
          obtain ⟨m, ms, rfl⟩ := List.exists_cons_of_ne_nil hne
          simp
        rw [terminated_cons, joinWith_cons l hne, ← ih, List.dropLast_append_of_ne_nil (by simp),
          List.dropLast_cons_of_ne_nil this]

/-- The pieces that are read, each followed by a delimiter, are the text, up to a delimiter at its
end. -/
theorem terminated_getlines (d : Char) (s : Str) :
    terminated d (getlines d s) = s ∨ terminated d (getlines d s) = s ++ [d] := by
  induction s using text_induction (d := d) with
  | hlast s hd =>
      rcases eq_or_ne s [] with rfl | hs
      · exact .inl rfl
      · rw [getlines_of_notMem hd hs]
        exact .inr (by simp)
  | hpiece l r hl ih =>
      rw [getlines_append hl, terminated_cons]
      rcases ih with h | h
      · exact .inl (by rw [h])
      · exact .inr (by rw [h, List.append_assoc, List.cons_append])

/-- Of the text of some pieces, the delimiter at the end may be missing if there is something
before it. -/
theorem getlines_take_terminated_iff {d : Char} {ls : List Str} (h : ∀ l ∈ ls, d ∉ l) {k : ℕ} :
    getlines d ((terminated d ls).take k) = ls ↔ (terminated d ls).length ≤ k ∨
      (terminated d ls).length = k + 1 ∧ ls.getLast? ≠ some [] := by
  constructor
  · intro hread
    by_cases hall : (terminated d ls).length ≤ k
    · exact .inl hall
    have htext := terminated_getlines d ((terminated d ls).take k)
    rw [hread] at htext
    rcases htext with heq | heq
    · have hlen := congrArg List.length heq
      rw [List.length_take] at hlen
      omega
    · have hlen := congrArg List.length heq
      rw [List.length_append, List.length_take, List.length_singleton] at hlen
      refine .inr ⟨by omega, fun hlast => ?_⟩
      obtain ⟨init, rfl⟩ : ∃ init, ls = init ++ [[]] := ⟨ls.dropLast, by
        rw [← List.dropLast_append_getLast? _ hlast]; simp⟩
      have hinit : terminated d (init ++ [[]]) = terminated d init ++ [d] := by
        simp [terminated]
      rw [hinit] at heq hread
      rw [← List.append_cancel_right heq,
        getlines_terminated fun l hl => h l (List.mem_append_left _ hl)] at hread
      have hshort := congrArg List.length hread
      simp at hshort
  · rintro (hall | ⟨hlen, hlast⟩)
    · rw [List.take_of_length_le hall, getlines_terminated h]
    · have hk : k = (terminated d ls).length - 1 := by omega
      rw [hk, ← List.dropLast_eq_take, dropLast_terminated, getlines_joinWith h hlast]

end Cxx
