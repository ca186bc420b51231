import VulcanDB.Library.Stream
import VulcanDB.Library.Numbers
import VulcanDB.Library.HashCons.Sharing

/-!
# Compression — STEP text

What the text of an instance means, apart from how the compressor reads it: a sequence of
*lexemes*, in which a reference is `#` and digits outside the string literals, and blanks outside
them do not count.

* `lex_append`, `lex_strip`: the lexemes of a text put together, and of one without its blanks.
* `joinLines`: the texts that the physical lines of a section are.
* `Param`, `StepInstance`, `WellFormedStep`: the parameters, the instances and the sections that
  are well formed.
-/

namespace VulcanDB.Step

open Cxx HashCons

/-- A reference, a character outside the literals, or one inside. -/
inductive Lexeme where
  | ref (id : ℕ)
  | mark (c : Char)
  | quoted (c : Char)
  deriving DecidableEq

/-- Where in a text the next character stands. -/
inductive Place where
  | outside
  | digits
  | literal
  deriving DecidableEq

/-- The place behind a character that stands outside. -/
def Place.enter (c : Char) : Place :=
  if c = '\'' then .literal else if c = '#' then .digits else .outside

/-- The place behind a character. -/
def Place.next : Place → Char → Place
  | .outside, c => enter c
  | .digits, c => if c.isDigit then .digits else enter c
  | .literal, c => if c = '\'' then .outside else .literal

/-- What follows is a digit. -/
def startsDigit (s : Str) : Bool := s.head?.any Char.isDigit

/-- A character outside the literals, with the text after it. -/
def outsideLexeme (c : Char) (s : Str) : List Lexeme :=
  if c = '\'' then [.quoted c]
  else if c = ' ' then []
  else if c = '#' ∧ startsDigit s then [.ref (digitsValue s)]
  else [.mark c]

/-- The lexemes of one character, which needs the text behind it for the end of a number. -/
def emit : Place → Char → Str → List Lexeme
  | .outside, c, s => outsideLexeme c s
  | .digits, c, s => if c.isDigit then [] else outsideLexeme c s
  | .literal, c, _ => [.quoted c]

/-- The lexemes of a text that begins at a place. -/
def lex : Place → Str → List Lexeme
  | _, [] => []
  | p, c :: s => emit p c s ++ lex (p.next c) s

/-- The place after a text. -/
def leaves (p : Place) (s : Str) : Place := s.foldl Place.next p

/-- The lexemes of a text. -/
def lexemes (s : Str) : List Lexeme := lex .outside s

/-- The lexeme with the id it refers to renumbered. -/
def Lexeme.rename (r : ℕ → ℕ) : Lexeme → Lexeme
  | .ref n => .ref (r n)
  | l => l

/-- The id of a reference. -/
def Lexeme.ref? : Lexeme → Option ℕ
  | .ref n => some n
  | _ => none

/-- The ids a text refers to. -/
def refs (ls : List Lexeme) : List ℕ := ls.filterMap Lexeme.ref?

/-! ### Lexemes of a text put together -/

@[simp] theorem lex_nil (p : Place) : lex p [] = [] := by cases p <;> rfl

@[simp] theorem lex_cons (p : Place) (c : Char) (s : Str) :
    lex p (c :: s) = emit p c s ++ lex (p.next c) s := by cases p <;> rfl

@[simp] theorem leaves_nil (p : Place) : leaves p [] = p := rfl

@[simp] theorem leaves_cons (p : Place) (c : Char) (s : Str) :
    leaves p (c :: s) = leaves (p.next c) s := rfl

theorem leaves_append (p : Place) (s t : Str) : leaves p (s ++ t) = leaves (leaves p s) t :=
  List.foldl_append

theorem not_digit_of_startsDigit {t : Str} (ht : startsDigit t = false) :
    ∀ c, t.head? = some c → c.isDigit = false := by
  intro c hc
  simpa [startsDigit, hc] using ht

/-- A character is read alike whatever follows its number. -/
theorem emit_append (p : Place) (c : Char) (s : Str) {t : Str} (ht : startsDigit t = false) :
    emit p c (s ++ t) = emit p c s := by
  have hstart : startsDigit (s ++ t) = startsDigit s := by
    cases s with
    | nil => exact ht
    | cons d s => rfl
  have hout : outsideLexeme c (s ++ t) = outsideLexeme c s := by
    rw [outsideLexeme, outsideLexeme, hstart, digitsValue_append s (not_digit_of_startsDigit ht)]
  cases p <;> simp only [emit, hout]

/-- No lexeme reaches over a boundary that is not before a digit. -/
theorem lex_append (p : Place) (s : Str) {t : Str} (ht : startsDigit t = false) :
    lex p (s ++ t) = lex p s ++ lex (leaves p s) t := by
  induction s generalizing p with
  | nil => simp
  | cons c s ih =>
      rw [List.cons_append, lex_cons, lex_cons, emit_append p c s ht, ih, leaves_cons,
        List.append_assoc]

theorem lex_blank_append {b : Str} (hb : Blank ' ' b) (s : Str) :
    lex .outside (b ++ s) = lex .outside s ∧ leaves .outside (b ++ s) = leaves .outside s := by
  induction b with
  | nil => exact ⟨rfl, rfl⟩
  | cons c b ih =>
      obtain rfl : c = ' ' := hb c (by simp)
      exact ih fun d hd => hb d (by simp [hd])

theorem next_blank {p : Place} (h : p ≠ .literal) : p.next ' ' = .outside := by
  cases p with
  | outside => rfl
  | digits => rfl
  | literal => exact absurd rfl h

/-- Blanks outside the literals leave no lexeme. -/
theorem lex_blank {p : Place} (h : p ≠ .literal) {b : Str} (hb : Blank ' ' b) :
    lex p b = [] ∧ (leaves p b).next ',' = .outside := by
  cases b with
  | nil => cases p <;> first | exact ⟨rfl, rfl⟩ | exact absurd rfl h
  | cons c b =>
      obtain rfl : c = ' ' := hb c (by simp)
      have hemit : emit p ' ' b = [] := by
        cases p with
        | outside => rfl
        | digits => rfl
        | literal => exact absurd rfl h
      obtain ⟨h₁, h₂⟩ := lex_blank_append (b := b) (fun d hd => hb d (by simp [hd])) []
      rw [List.append_nil] at h₁ h₂
      rw [lex_cons, hemit, next_blank h, h₁, leaves_cons, next_blank h, h₂]
      exact ⟨rfl, rfl⟩

theorem leaves_literal_blank {b : Str} (hb : Blank ' ' b) : leaves .literal b = .literal := by
  induction b with
  | nil => rfl
  | cons c b ih =>
      obtain rfl : c = ' ' := hb c (by simp)
      exact ih fun d hd => hb d (by simp [hd])

theorem startsDigit_blank {b : Str} (hb : Blank ' ' b) : startsDigit b = false := by
  cases b with
  | nil => rfl
  | cons c b => rw [hb c (by simp)]; rfl

/-- Blanks behind a text that ends outside a literal are nothing. -/
theorem lex_append_blank {p : Place} {s : Str} (h : leaves p s ≠ .literal) {b : Str}
    (hb : Blank ' ' b) :
    lex p (s ++ b) = lex p s ∧ (leaves p (s ++ b)).next ',' = (leaves p s).next ',' := by
  obtain ⟨h₁, h₂⟩ := lex_blank h hb
  rw [lex_append p s (startsDigit_blank hb), h₁, leaves_append, h₂, List.append_nil]
  refine ⟨rfl, ?_⟩
  cases hp : leaves p s with
  | outside => rfl
  | digits => rfl
  | literal => exact absurd hp h

/-- The blanks at the ends of a text that do not stand in a literal can be left out. -/
theorem lex_strip {p : Place} (hp : p ≠ .digits) {s : Str} (hs : ¬ Blank ' ' s)
    (hfirst : p = .literal → s.head? ≠ some ' ')
    (hlast : leaves p s = .literal → s.getLast? ≠ some ' ') :
    lex p (strip ' ' s) = lex p s ∧
      (leaves p (strip ' ' s)).next ',' = (leaves p s).next ',' := by
  obtain ⟨a, x, m, y, b, rfl, ha, hb, hx, hl, hy⟩ := exists_core hs
  rw [strip_core ha hb hx hl hy, List.append_assoc] at *
  have hfront : lex p (a ++ (x :: m ++ b)) = lex p (x :: m ++ b) ∧
      leaves p (a ++ (x :: m ++ b)) = leaves p (x :: m ++ b) := by
    cases p with
    | outside => exact lex_blank_append ha _
    | digits => exact absurd rfl hp
    | literal =>
        cases a with
        | nil => exact ⟨rfl, rfl⟩
        | cons c a => exact absurd (by simp [ha c (by simp)]) (hfirst rfl)
  rw [hfront.1, hfront.2]
  rw [hfront.2] at hlast
  by_cases hlit : leaves p (x :: m) = .literal
  · -- the text ends in a literal, so with `y`
    have hb' : b = [] := by
      rw [leaves_append, hlit, leaves_literal_blank hb] at hlast
      rcases List.eq_nil_or_concat b with rfl | ⟨b, c, rfl⟩
      · rfl
      · refine absurd ?_ (hlast rfl)
        rw [List.concat_eq_append] at hb ⊢
        rw [← List.append_assoc, ← List.append_assoc, List.getLast?_concat, hb c (by simp)]
    rw [hb', List.append_nil]
    exact ⟨rfl, rfl⟩
  · obtain ⟨h₁, h₂⟩ := lex_append_blank hlit hb
    exact ⟨h₁.symm, h₂.symm⟩

/-! ### Physical lines -/

/-- What a physical line that begins at a place adds to a text: the blanks at its ends are left out,
but not those that stand in a literal. -/
def inLine (p : Place) (l : Str) : Str :=
  let l := if p = .literal then l else l.dropWhile (· == ' ')
  if leaves p l = .literal then l else l.rdropWhile (· == ' ')

/-- The text ends in a `;` outside the literals. -/
def Ended (text : Str) : Prop := leaves .outside text ≠ .literal ∧ text.getLast? = some ';'

instance (text : Str) : Decidable (Ended text) := by unfold Ended; infer_instance

/-- The texts that the physical lines of a section are joined to, behind a text that is begun: each
goes on up to its `;`.  The last component is what is left behind the last of them. -/
def joinLines (text : Str) : List Str → List Str × Str
  | [] => ([], text)
  | l :: ls =>
    let text := text ++ inLine (leaves .outside text) l
    if Ended text then (text :: (joinLines [] ls).1, (joinLines [] ls).2) else joinLines text ls

/-- Whether a text leaves a literal open does not depend on the place it begins at outside. -/
theorem leaves_eq_literal_iff {p : Place} (hp : p ≠ .literal) (s : Str) :
    leaves p s = .literal ↔ leaves .outside s = .literal := by
  cases p with
  | outside => rfl
  | literal => exact absurd rfl hp
  | digits =>
      clear hp
      induction s with
      | nil => decide
      | cons c s ih =>
          rw [leaves_cons, leaves_cons, Place.next, Place.next]
          split
          · rename_i hc
            have hplain : Place.enter c = .outside := by
              rw [Place.enter, if_neg (by rintro rfl; cases hc), if_neg (by rintro rfl; cases hc)]
            rw [hplain]
            exact ih
          · rfl

/-- Whether a text ends in a literal does not depend on the blanks before it. -/
theorem leaves_dropWhile {p : Place} (hp : p ≠ .literal) (s : Str) :
    leaves p (s.dropWhile (· == ' ')) = .literal ↔ leaves p s = .literal := by
  induction s with
  | nil => rfl
  | cons c s ih =>
      by_cases hc : c = ' '
      · subst hc
        rw [List.dropWhile_cons_of_pos (by rfl), ih, leaves_cons, next_blank hp,
          leaves_eq_literal_iff hp]
      · rw [List.dropWhile_cons_of_neg (by simpa using hc)]

/-- Blanks behind a text that leaves no literal open stand outside the literals. -/
theorem leaves_rdropWhile {p : Place} {s : Str} (h : leaves p s ≠ .literal) :
    leaves p (s.rdropWhile (· == ' ')) ≠ .literal := by
  intro hopen
  refine h ?_
  have hsplit := List.rdropWhile_append_rtakeWhile (p := (· == ' ')) (l := s)
  have hblank : Blank ' ' (s.rtakeWhile (· == ' ')) := by
    intro c hc
    simpa using List.mem_rtakeWhile_imp hc
  rw [← hsplit, leaves_append, hopen, leaves_literal_blank hblank]

/-- A line leaves a literal open if what it adds does. -/
theorem leaves_inLine (p : Place) (l : Str) :
    leaves p (inLine p l) = .literal ↔ leaves p l = .literal := by
  have hfirst : leaves p (if p = .literal then l else l.dropWhile (· == ' ')) = .literal ↔
      leaves p l = .literal := by
    split
    · rfl
    · exact leaves_dropWhile ‹_› l
  have hlast (t : Str) : leaves p (if leaves p t = .literal then t else t.rdropWhile (· == ' ')) =
      .literal ↔ leaves p t = .literal := by
    split
    · rfl
    · rename_i hclosed
      exact ⟨fun h => absurd h (leaves_rdropWhile hclosed), fun h => absurd h hclosed⟩
  exact (hlast _).trans hfirst

/-! ### Parameters and instances -/

/-- The name of a type. -/
def Keyword (s : Str) : Prop := s ≠ [] ∧ ∀ c ∈ s, c.isAlphanum = true ∨ c = '_'

/-- A string literal.  A quote in it is written twice. -/
inductive Literal : Str → Prop
  | quoted {s : Str} (h : '\'' ∉ s) : Literal ('\'' :: (s ++ ['\'']))
  | append {s t : Str} : Literal s → Literal t → Literal (s ++ t)

/-- The characters of numbers, enumerations and binaries, and `$` and `*`. -/
def valueChar (c : Char) : Bool := c.isAlphanum || c ∈ ['.', '+', '-', '_', '"', '$', '*']

/-- A parameter of an instance: a reference, a literal, a value, a list, or a value with its type,
between blanks. -/
inductive Param : Str → Prop
  | blanks {a s b : Str} (ha : Blank ' ' a) (hb : Blank ' ' b) : Param s → Param (a ++ s ++ b)
  | ref {ds : Str} (hne : ds ≠ []) (hd : ∀ c ∈ ds, c.isDigit = true) : Param ('#' :: ds)
  | literal {s : Str} : Literal s → Param s
  | value {s : Str} (hne : s ≠ []) (hv : ∀ c ∈ s, valueChar c = true) : Param s
  | empty {b : Str} (hb : Blank ' ' b) : Param ('(' :: (b ++ [')']))
  | list {ss : List Str} (h : ∀ s ∈ ss, Param s) : Param ('(' :: (joinWith ',' ss ++ [')']))
  | typed {k b s : Str} (hk : Keyword k) (hb : Blank ' ' b) :
      Param ('(' :: s) → Param (k ++ b ++ '(' :: s)

/-- What stands between the outer parentheses of an instance. -/
def Params (s : Str) : Prop :=
  Blank ' ' s ∨ ∃ ss, ss ≠ [] ∧ (∀ t ∈ ss, Param t) ∧ s = joinWith ',' ss

/-- `#id=TYPE(args);`. -/
structure StepInstance where
  id : ℕ
  type : Str
  args : Str
  keyword : Keyword type
  params : Params args

/-- The line is the instance, with blanks between its parts. -/
def StepInstance.Spelled (x : StepInstance) (l : Str) : Prop :=
  ∃ ds b₁ b₂ b₃ b₄, ds ≠ [] ∧ (∀ c ∈ ds, c.isDigit = true) ∧ digitsValue ds = x.id ∧
    Blank ' ' b₁ ∧ Blank ' ' b₂ ∧ Blank ' ' b₃ ∧ Blank ' ' b₄ ∧
    l = ('#' :: (ds ++ b₁)) ++ '=' ::
      ((b₂ ++ x.type ++ b₃) ++ '(' :: (x.args ++ ')' :: (b₄ ++ [';'])))

/-- The ids an instance refers to. -/
def StepInstance.refs (x : StepInstance) : List ℕ := Step.refs (lexemes x.args)

/-- The instance as a node of the reference graph. -/
def StepInstance.node (x : StepInstance) : Node Unit ℕ := ⟨x.id, (), x.refs⟩

/-- The physical lines are joined to one instance each and nothing else; these have ids of their
own, and refer to each other without a cycle. -/
structure WellFormedStep (xs : List StepInstance) (ls : List Str) : Prop where
  spelled : List.Forall₂ StepInstance.Spelled xs (joinLines [] ls).1
  rest : (joinLines [] ls).2 = []
  distinct : (xs.map (·.id)).Nodup
  defined : ∀ x ∈ xs, ∀ n ∈ x.refs, ∃ y ∈ xs, y.id = n
  acyclic : Acyclic (xs.map StepInstance.node)

theorem Keyword.strip {k a b : Str} (h : Keyword k) (ha : Blank ' ' a) (hb : Blank ' ' b) :
    Cxx.strip ' ' (a ++ k ++ b) = k := by
  have hblank : ∀ c ∈ k, c ≠ ' ' := by
    rintro c hc rfl
    have := h.2 _ hc
    revert this
    decide
  obtain ⟨c, m, rfl⟩ := List.exists_cons_of_ne_nil h.1
  exact strip_core ha hb (hblank c (by simp)) (List.getLast?_eq_some_getLast (by simp))
    (hblank _ (List.getLast_mem _))

theorem Literal.getLast {s : Str} (h : Literal s) : s.getLast? = some '\'' := by
  induction h with
  | quoted h => rw [← List.cons_append, List.getLast?_concat]
  | append _ _ _ ih => rw [List.getLast?_append, ih]; rfl

/-- A parameter does not end with a comma. -/
theorem Param.getLast {s : Str} (h : Param s) : ∃ c, s.getLast? = some c ∧ c ≠ ',' := by
  have mem : ∀ {s : Str} {P : Char → Prop}, s ≠ [] → (∀ c ∈ s, P c) → ¬ P ',' →
      ∃ c, s.getLast? = some c ∧ c ≠ ',' := by
    intro s P hne hP hc
    refine ⟨s.getLast hne, List.getLast?_eq_some_getLast hne, fun e => hc ?_⟩
    exact e ▸ hP _ (List.getLast_mem hne)
  induction h with
  | @blanks a s b ha hb _ ih =>
      obtain ⟨c, hc, hne⟩ := ih
      rcases List.eq_nil_or_concat b with rfl | ⟨b, d, rfl⟩
      · rw [List.append_nil, List.getLast?_append, hc]
        exact ⟨c, rfl, hne⟩
      · rw [List.concat_eq_append] at hb ⊢
        rw [← List.append_assoc, List.getLast?_concat, hb d (by simp)]
        exact ⟨' ', rfl, by decide⟩
  | @ref ds hne hd =>
      obtain ⟨c, hc, hne'⟩ := mem hne hd (by decide)
      exact ⟨c, by rw [List.getLast?_cons_of_ne_nil hne, hc], hne'⟩
  | literal h => exact ⟨'\'', h.getLast, by decide⟩
  | value hne hv => exact mem hne hv (by decide)
  | empty hb => exact ⟨')', by rw [← List.cons_append, List.getLast?_concat], by decide⟩
  | list h => exact ⟨')', by rw [← List.cons_append, List.getLast?_concat], by decide⟩
  | typed hk hb _ ih =>
      obtain ⟨c, hc, hne⟩ := ih
      exact ⟨c, by rw [List.getLast?_append, hc]; rfl, hne⟩

theorem getLast_joinWith {ss : List Str} (hne : ss ≠ []) (h : ∀ s ∈ ss, Param s) :
    (joinWith ',' ss).getLast? ≠ some ',' := by
  induction ss with
  | nil => exact absurd rfl hne
  | cons s ss ih =>
      obtain ⟨c, hc, hc'⟩ := (h s (by simp)).getLast
      rcases eq_or_ne ss [] with rfl | hss
      · rw [joinWith, hc]
        exact fun e => hc' (Option.some.inj e)
      · have ih := ih hss fun t ht => h t (by simp [ht])
        have hj : joinWith ',' ss ≠ [] := by
          obtain ⟨t, ts, rfl⟩ := List.exists_cons_of_ne_nil hss
          obtain ⟨d, hd, -⟩ := (h t (by simp)).getLast
          have ht : t ≠ [] := by rintro rfl; cases hd
          rcases eq_or_ne ts [] with rfl | hts
          · exact ht
          · simp [joinWith_cons t hts]
        rwa [joinWith_cons s hss, List.getLast?_append, List.getLast?_cons_of_ne_nil hj,
          List.getLast?_eq_some_getLast hj, Option.some_or, ← List.getLast?_eq_some_getLast hj]

/-- The parameters are the pieces between their commas, whatever stands between those. -/
theorem Params.pieces {s : Str} (h : Params s) : joinWith ',' (getlines ',' s) = s := by
  refine joinWith_getlines ?_
  rcases h with hb | ⟨ss, hne, hss, rfl⟩
  · exact fun hc => absurd (hb _ (List.mem_of_getLast? hc)) (by decide)
  · exact getLast_joinWith hne hss

end VulcanDB.Step
