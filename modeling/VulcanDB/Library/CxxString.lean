import Mathlib.Data.List.DropRight
import Mathlib.Tactic

/-!
# Library — C++ strings

A `std::string` is a list of characters.  The operations are those of the C++ library with its
edge cases: `substr` past the end throws, an index outside `0..size` is undefined, and a `find_*`
that finds nothing is `-1` once it is stored in an `int`.

* `substr_findFirstOf`, `substr_after_findFirstOf`, `substr_to_findLastOf`: the cuts a parser
  makes at a found position, as the text before and after a character.
* `substr_strip`: the cut at the first and last character that is not a blank.
-/

namespace Cxx

/-- The characters of a `std::string`. -/
abbrev Str := List Char

-- ahead of the instance for statements about all characters, which tries every one of them
instance (priority := 2000) (s : Str) (P : Char → Prop) [DecidablePred P] :
    Decidable (∀ c ∈ s, P c) := List.decidableBAll P s

/-- How a run stops short: an exception, or behaviour the language leaves undefined. -/
inductive Fault where
  /-- `std::out_of_range`. -/
  | outOfRange
  /-- An index outside `0..size`. -/
  | badIndex
  /-- A signed counter beyond its type. -/
  | overflow
  deriving DecidableEq, Repr

/-- `a <= b`, by the codes of the characters. -/
def strLe : Str → Str → Bool
  | [], _ => true
  | _ :: _, [] => false
  | c :: a, d :: b => decide (c.toNat < d.toNat) || (c == d && strLe a b)

/-! ### Positions and substrings -/

/-- `s[i]`: the terminator at `i = size`, undefined beyond. -/
def charAt (s : Str) (i : Int) : Except Fault Char :=
  if i < 0 then .error .badIndex
  else match s[i.toNat]? with
    | some c => .ok c
    | none => if i = s.length then .ok '\x00' else .error .badIndex

/-- `s.substr(pos, n)`.  A negative argument stands for its conversion to `size_t`, which is
beyond every length. -/
def substr (s : Str) (pos n : Int) : Except Fault Str :=
  if pos < 0 ∨ (s.length : Int) < pos then .error .outOfRange
  else .ok (if n < 0 then s.drop pos.toNat else (s.drop pos.toNat).take n.toNat)

/-- `find_first_of` for one character; `npos` is -1. -/
def findFirstOf (s : Str) (c : Char) : Int :=
  if c ∈ s then ((s.takeWhile (· != c)).length : Int) else -1

/-- `find_last_of`, likewise. -/
def findLastOf (s : Str) (c : Char) : Int :=
  if c ∈ s then s.length - 1 - ((s.reverse.takeWhile (· != c)).length : Int) else -1

/-- `find_first_not_of`, likewise. -/
def findFirstNotOf (s : Str) (c : Char) : Int :=
  if s.all (· == c) then -1 else ((s.takeWhile (· == c)).length : Int)

/-- `find_last_not_of`, likewise. -/
def findLastNotOf (s : Str) (c : Char) : Int :=
  if s.all (· == c) then -1 else s.length - 1 - ((s.reverse.takeWhile (· == c)).length : Int)

@[simp] theorem charAt_zero_cons (c : Char) (s : Str) : charAt (c :: s) 0 = .ok c := rfl

@[simp] theorem charAt_zero_nil : charAt [] 0 = .ok '\x00' := rfl

@[simp] theorem charAt_neg_one (s : Str) : charAt s (-1) = .error .badIndex := rfl

theorem charAt_of_getElem? {s : Str} {i : Nat} {c : Char} (h : s[i]? = some c) :
    charAt s i = .ok c := by
  rw [charAt, if_neg (by omega), Int.toNat_natCast, h]

theorem charAt_length (s : Str) : charAt s s.length = .ok '\x00' := by
  simp [charAt]

theorem charAt_last (s : Str) (c : Char) : charAt (s ++ [c]) s.length = .ok c := by
  simp [charAt]

/-- Inside of the string `substr` gives the part. -/
theorem substr_ok (s : Str) {pos : Int} (h₀ : 0 ≤ pos) (h₁ : pos ≤ s.length) (n : Int) :
    substr s pos n = .ok (if n < 0 then s.drop pos.toNat else (s.drop pos.toNat).take n.toNat) := by
  simp [substr, show ¬ (pos < 0 ∨ (s.length : Int) < pos) by omega]

theorem substr_append (p s q : Str) : substr (p ++ s ++ q) p.length s.length = .ok s := by
  rw [substr_ok _ (by omega) (by simp only [List.length_append]; omega)]
  simp

/-- All but the last character; of an empty text, whose count wraps around, nothing. -/
theorem substr_dropLast (s : Str) : substr s 0 (s.length - 1) = .ok s.dropLast := by
  rw [substr_ok _ le_rfl (by omega), List.dropLast_eq_take]
  rcases s with _ | ⟨c, s⟩
  · rfl
  · rw [if_neg (by simp)]; simp

/-! ### Cutting at a character -/

/-- The text before the first `c`: all of it when there is none. -/
def before (c : Char) (s : Str) : Str := s.takeWhile (· != c)

/-- The text after the first `c`: all of it when there is none. -/
def after (c : Char) (s : Str) : Str := if c ∈ s then (s.dropWhile (· != c)).tail else s

/-- The text before the last `c`: all of it when there is none. -/
def beforeLast (c : Char) (s : Str) : Str :=
  if c ∈ s then (s.reverse.dropWhile (· != c)).tail.reverse else s

/-- The longest start that satisfies `p`, up to a character that does not. -/
theorem takeWhile_append_stop {p : Char → Bool} {s t : Str} {c : Char}
    (hs : ∀ x ∈ s, p x = true) (hc : p c = false) : (s ++ c :: t).takeWhile p = s := by
  rw [List.takeWhile_append_of_pos hs, List.takeWhile_cons_of_neg (by simp [hc]), List.append_nil]

theorem dropWhile_append_stop {p : Char → Bool} {s t : Str} {c : Char}
    (hs : ∀ x ∈ s, p x = true) (hc : p c = false) : (s ++ c :: t).dropWhile p = c :: t := by
  rw [List.dropWhile_append_of_pos hs, List.dropWhile_cons_of_neg (by simp [hc])]

theorem ne_of_notMem {s : Str} {c : Char} (h : c ∉ s) : ∀ x ∈ s, (x != c) = true := by
  intro x hx
  simp only [bne_iff_ne, ne_eq]
  rintro rfl
  exact h hx

/-- The part before the first such character. -/
theorem before_append {s t : Str} {c : Char} (h : c ∉ s) : before c (s ++ c :: t) = s :=
  takeWhile_append_stop (ne_of_notMem h) (by simp)

theorem before_of_notMem {s : Str} {c : Char} (h : c ∉ s) : before c s = s :=
  List.takeWhile_eq_self_iff.mpr (ne_of_notMem h)

theorem after_append {s t : Str} {c : Char} (h : c ∉ s) : after c (s ++ c :: t) = t := by
  rw [after, if_pos (by simp), dropWhile_append_stop (ne_of_notMem h) (by simp), List.tail_cons]

theorem after_of_notMem {s : Str} {c : Char} (h : c ∉ s) : after c s = s := if_neg h

theorem beforeLast_append {s t : Str} {c : Char} (h : c ∉ t) :
    beforeLast c (s ++ c :: t) = s := by
  have hr : (s ++ c :: t).reverse = t.reverse ++ c :: s.reverse := by simp
  rw [beforeLast, if_pos (by simp), hr,
    dropWhile_append_stop (ne_of_notMem (by simpa using h)) (by simp), List.tail_cons,
    List.reverse_reverse]

theorem beforeLast_of_notMem {s : Str} {c : Char} (h : c ∉ s) : beforeLast c s = s := if_neg h

theorem notMem_before (c : Char) (s : Str) : c ∉ before c s := fun h => by
  have := List.mem_takeWhile_imp h
  simp at this

/-- A character of the string has a last place. -/
theorem exists_last {s : Str} {c : Char} (h : c ∈ s) : ∃ a b, s = a ++ c :: b ∧ c ∉ b := by
  obtain ⟨b, a, hab, hb⟩ := List.eq_append_cons_of_mem (List.mem_reverse.mpr h)
  refine ⟨a.reverse, b.reverse, ?_, by simpa using hb⟩
  have := congrArg List.reverse hab
  simpa using this

theorem findFirstOf_append {s t : Str} {c : Char} (h : c ∉ s) :
    findFirstOf (s ++ c :: t) c = s.length := by
  rw [findFirstOf, if_pos (by simp)]
  exact congrArg (fun l : Str => (l.length : Int)) (before_append h)

theorem findFirstOf_of_notMem {s : Str} {c : Char} (h : c ∉ s) : findFirstOf s c = -1 := if_neg h

theorem findLastOf_append {s t : Str} {c : Char} (h : c ∉ t) :
    findLastOf (s ++ c :: t) c = s.length := by
  have hr : (s ++ c :: t).reverse = t.reverse ++ c :: s.reverse := by simp
  rw [findLastOf, if_pos (by simp), hr,
    takeWhile_append_stop (ne_of_notMem (by simpa using h)) (by simp)]
  simp only [List.length_append, List.length_cons, List.length_reverse]
  omega

theorem findLastOf_of_notMem {s : Str} {c : Char} (h : c ∉ s) : findLastOf s c = -1 := if_neg h

/-- Where `find_first_of` points, the part before. -/
theorem substr_findFirstOf (s : Str) (c : Char) :
    substr s 0 (findFirstOf s c) = .ok (before c s) := by
  by_cases h : c ∈ s
  · obtain ⟨a, b, rfl, ha⟩ := List.eq_append_cons_of_mem h
    rw [findFirstOf_append ha, before_append ha]
    exact substr_append [] a (c :: b)
  · rw [findFirstOf_of_notMem h, before_of_notMem h, substr_ok _ (by omega) (by omega)]
    rfl

theorem substr_after_findFirstOf (s : Str) (c : Char) :
    substr s (findFirstOf s c + 1) (s.length - findFirstOf s c - 1) = .ok (after c s) := by
  by_cases h : c ∈ s
  · obtain ⟨a, b, rfl, ha⟩ := List.eq_append_cons_of_mem h
    rw [findFirstOf_append ha, after_append ha]
    have e : a ++ c :: b = (a ++ [c]) ++ b ++ [] := by simp
    have hl : ((a.length : Int) + 1) = (a ++ [c]).length := by simp
    have hn : ((a ++ c :: b).length : Int) - a.length - 1 = b.length := by
      simp only [List.length_append, List.length_cons]; omega
    rw [hl, hn, e]
    exact substr_append _ _ _
  · rw [findFirstOf_of_notMem h, after_of_notMem h]
    simpa using substr_append [] s []

/-- Between the first `o` and the last `c`, as a parser cuts the text inside parentheses: when
the last `c` does not follow, the wrapped-around count takes everything. -/
theorem substr_to_findLastOf (s : Str) {o c : Char} (hoc : c ≠ o) :
    substr s (findFirstOf s o + 1) (findLastOf s c - findFirstOf s o - 1)
      = .ok (beforeLast c (after o s)) := by
  have whole : ∀ p r : Str, c ∉ r → findLastOf (p ++ r) c - p.length < 0 →
      substr (p ++ r) p.length (findLastOf (p ++ r) c - p.length) = .ok (beforeLast c r) := by
    intro p r hr hn
    rw [substr_ok _ (by omega) (by simp only [List.length_append]; omega), if_pos hn,
      beforeLast_of_notMem hr]
    simp
  have cut : ∀ p r : Str, c ∈ r →
      substr (p ++ r) p.length (findLastOf (p ++ r) c - p.length) = .ok (beforeLast c r) := by
    intro p r hr
    obtain ⟨a, b, rfl, hb⟩ := exists_last hr
    have e : p ++ (a ++ c :: b) = (p ++ a) ++ c :: b := by simp
    rw [beforeLast_append hb, e, findLastOf_append hb, List.append_assoc p a,
      show ((p ++ a).length : Int) - p.length = a.length by simp, ← List.append_assoc]
    exact substr_append p a (c :: b)
  by_cases ho : o ∈ s
  · obtain ⟨a, r, rfl, ha⟩ := List.eq_append_cons_of_mem ho
    have hl : ((a.length : Int) + 1) = (a ++ [o]).length := by simp
    rw [findFirstOf_append ha, after_append ha, Int.sub_sub, hl,
      show a ++ o :: r = (a ++ [o]) ++ r by simp]
    by_cases hr : c ∈ r
    · exact cut _ _ hr
    · refine whole _ _ hr ?_
      by_cases hc : c ∈ a ++ [o]
      · have hca : c ∈ a := by simpa [hoc] using hc
        obtain ⟨a₁, a₂, rfl, h₂⟩ := exists_last hca
        rw [show a₁ ++ c :: a₂ ++ [o] ++ r = a₁ ++ c :: (a₂ ++ [o] ++ r) by simp,
          findLastOf_append (by simp [h₂, hoc, hr])]
        simp only [List.length_append, List.length_cons]
        omega
      · rw [findLastOf_of_notMem (by simp only [List.mem_append, not_or] at hc ⊢; exact ⟨hc, hr⟩)]
        simp only [List.length_append, List.length_cons]
        omega
  · rw [findFirstOf_of_notMem ho, after_of_notMem ho, Int.sub_sub]
    by_cases hc : c ∈ s
    · simpa using cut [] s hc
    · exact whole [] s hc (by rw [List.nil_append, findLastOf_of_notMem hc]; simp)

/-! ### Blanks at the ends -/

/-- The text without the `c`s at its ends. -/
def strip (c : Char) (s : Str) : Str := (s.dropWhile (· == c)).rdropWhile (· == c)

/-- Every character is a `c`. -/
def Blank (c : Char) (s : Str) : Prop := ∀ x ∈ s, x = c

instance (c : Char) (s : Str) : Decidable (Blank c s) := by unfold Blank; infer_instance

/-- Neither end is a `c`. -/
def Trimmed (c : Char) (s : Str) : Prop := s.head? ≠ some c ∧ s.getLast? ≠ some c

/-- A string of nothing but that character. -/
theorem blank_iff_all {c : Char} {s : Str} : Blank c s ↔ s.all (· == c) = true := by
  simp [Blank]

theorem strip_of_blank {c : Char} {s : Str} (h : Blank c s) : strip c s = [] := by
  have : s.dropWhile (· == c) = [] := by simpa [Blank] using h
  rw [strip, this, List.rdropWhile_nil]

/-- A text that is not all `c`s is a trimmed core between two runs of `c`s. -/
theorem exists_core {c : Char} {s : Str} (h : ¬ Blank c s) :
    ∃ p x m y q, s = p ++ (x :: m) ++ q ∧ Blank c p ∧ Blank c q ∧ x ≠ c ∧
      (x :: m).getLast? = some y ∧ y ≠ c := by
  have hne : s.dropWhile (· == c) ≠ [] := by simpa [Blank] using h
  set r := s.dropWhile (· == c) with hr
  have hs : s = s.takeWhile (· == c) ++ r := (List.takeWhile_append_dropWhile).symm
  have hhead := List.head_dropWhile_not (· == c) hne
  set m := r.rdropWhile (· == c) with hm
  have hrm : r = m ++ r.rtakeWhile (· == c) := (List.rdropWhile_append_rtakeWhile ..).symm
  have hmne : m ≠ [] := by
    intro hm0
    have : ∀ x ∈ r, (x == c) = true := by simpa using List.rdropWhile_eq_nil_iff.mp hm0
    have := this _ (List.head_mem hne)
    rw [hhead] at this; cases this
  have hlast := List.rdropWhile_last_not (· == c) r hmne
  obtain ⟨x, m', hxm⟩ := List.exists_cons_of_ne_nil hmne
  refine ⟨s.takeWhile (· == c), x, m', m.getLast hmne, r.rtakeWhile (· == c), ?_, ?_, ?_, ?_, ?_, ?_⟩
  · rw [← hxm, List.append_assoc, ← hrm, ← hs]
  · intro y hy; simpa using List.mem_takeWhile_imp hy
  · intro y hy; simpa using List.mem_rtakeWhile_imp hy
  · have : r.head hne = x := by
      have h₁ : r.head? = some x := by rw [hrm, hxm]; rfl
      rw [List.head?_eq_some_head hne] at h₁
      exact Option.some.inj h₁
    rw [this] at hhead
    simpa using hhead
  · rw [← hxm, List.getLast?_eq_some_getLast hmne]
  · simpa using hlast

/-- Otherwise what stands between the first other character and the last. -/
theorem strip_core {c x y : Char} {p m q : Str} (hp : Blank c p) (hq : Blank c q) (hx : x ≠ c)
    (hl : (x :: m).getLast? = some y) (hy : y ≠ c) : strip c (p ++ (x :: m) ++ q) = x :: m := by
  have hp' : ∀ z ∈ p, (z == c) = true := fun z hz => by simp [hp z hz]
  have hq' : ∀ z ∈ q.reverse, (z == c) = true := fun z hz => by
    simp [hq z (List.mem_reverse.mp hz)]
  obtain ⟨m', hm'⟩ := List.getLast?_eq_some_iff.mp hl
  rw [strip, List.append_assoc, List.cons_append, dropWhile_append_stop hp' (by simpa using hx),
    ← List.cons_append, List.rdropWhile, List.reverse_append, hm', List.reverse_append]
  have := dropWhile_append_stop (p := (· == c)) (t := m'.reverse) hq' (by simpa using hy)
  simp [this]

theorem findFirstNotOf_core {c x : Char} {p m q : Str} (hp : Blank c p) (hx : x ≠ c) :
    findFirstNotOf (p ++ (x :: m) ++ q) c = p.length := by
  have hb : ¬ Blank c (p ++ (x :: m) ++ q) := fun h => hx (h x (by simp))
  have hp' : ∀ z ∈ p, (z == c) = true := fun z hz => by simp [hp z hz]
  rw [findFirstNotOf, if_neg (by rwa [← blank_iff_all]), List.append_assoc, List.cons_append,
    takeWhile_append_stop hp' (by simpa using hx)]

theorem findLastNotOf_core {c x y : Char} {p m q : Str} (hq : Blank c q) (hx : x ≠ c)
    (hl : (x :: m).getLast? = some y) (hy : y ≠ c) :
    findLastNotOf (p ++ (x :: m) ++ q) c = p.length + m.length := by
  have hb : ¬ Blank c (p ++ (x :: m) ++ q) := fun h => hx (h x (by simp))
  have hq' : ∀ z ∈ q.reverse, (z == c) = true := fun z hz => by
    simp [hq z (List.mem_reverse.mp hz)]
  obtain ⟨m', hm'⟩ := List.getLast?_eq_some_iff.mp hl
  have hr : (p ++ (x :: m) ++ q).reverse = q.reverse ++ y :: (m'.reverse ++ p.reverse) := by
    rw [hm']; simp
  rw [findLastNotOf, if_neg (by rwa [← blank_iff_all]), hr,
    takeWhile_append_stop hq' (by simpa using hy)]
  simp only [List.length_append, List.length_cons, List.length_reverse]
  omega

theorem substr_strip {s : Str} {c : Char} (h : ¬ Blank c s) :
    substr s (findFirstNotOf s c) (findLastNotOf s c - findFirstNotOf s c + 1)
      = .ok (strip c s) := by
  obtain ⟨p, x, m, y, q, rfl, hp, hq, hx, hl, hy⟩ := exists_core h
  rw [findFirstNotOf_core hp hx, findLastNotOf_core hq hx hl hy, strip_core hp hq hx hl hy,
    show ((p.length : Int) + m.length - p.length + 1) = (x :: m).length by simp]
  exact substr_append _ _ _

/-- What is left does not begin or end with the character. -/
theorem strip_trimmed (c : Char) (s : Str) : Trimmed c (strip c s) := by
  by_cases h : Blank c s
  · rw [strip_of_blank h]; simp [Trimmed]
  · obtain ⟨p, x, m, y, q, rfl, hp, hq, hx, hl, hy⟩ := exists_core h
    rw [strip_core hp hq hx hl hy, Trimmed, hl]
    exact ⟨by simpa using hx, by simpa using hy⟩

theorem strip_of_trimmed {c : Char} {s : Str} (h : Trimmed c s) : strip c s = s := by
  rcases s with _ | ⟨x, m⟩
  · rfl
  · obtain ⟨y, hy⟩ : ∃ y, (x :: m).getLast? = some y := by
      rw [List.getLast?_eq_some_getLast (List.cons_ne_nil x m)]; exact ⟨_, rfl⟩
    have hx : x ≠ c := by simpa using h.1
    have hyc : y ≠ c := by simpa [hy] using h.2
    simpa using strip_core (p := []) (q := []) (by simp [Blank]) (by simp [Blank]) hx hy hyc

/-- A text that does not end in `c` is stripped at its front. -/
theorem strip_of_getLast {c : Char} {s : Str} (h : s.getLast? ≠ some c) :
    strip c s = s.dropWhile (· == c) := by
  rw [strip, List.rdropWhile_eq_self_iff]
  intro hne hlast
  refine h ?_
  rw [← List.takeWhile_append_dropWhile (p := (· == c)) (l := s),
    List.getLast?_append_of_ne_nil _ hne, List.getLast?_eq_some_getLast hne, eq_of_beq hlast]

theorem getLast?_dropWhile {p : Char → Bool} {s : Str} (h : s.dropWhile p ≠ []) :
    (s.dropWhile p).getLast? = s.getLast? := by
  conv_rhs => rw [← List.takeWhile_append_dropWhile (p := p) (l := s)]
  rw [List.getLast?_append_of_ne_nil _ h]

theorem strip_eq_nil {c : Char} {s : Str} : strip c s = [] ↔ Blank c s := by
  refine ⟨fun h => ?_, strip_of_blank⟩
  by_contra hb
  obtain ⟨p, x, m, y, q, rfl, hp, hq, hx, hl, hy⟩ := exists_core hb
  rw [strip_core hp hq hx hl hy] at h
  cases h

theorem mem_of_mem_strip {c x : Char} {s : Str} (h : x ∈ strip c s) : x ∈ s :=
  (List.dropWhile_sublist _).mem ((List.rdropWhile_prefix _ _).sublist.mem h)

theorem trimmed_append {c : Char} {s t : Str} (hs : Trimmed c s) (ht : Trimmed c t)
    (h₁ : s ≠ []) (h₂ : t ≠ []) : Trimmed c (s ++ t) := by
  constructor
  · rw [List.head?_append_of_ne_nil _ h₁]; exact hs.1
  · rw [List.getLast?_append_of_ne_nil _ h₂]; exact ht.2

end Cxx
