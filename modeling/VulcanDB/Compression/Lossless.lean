import VulcanDB.Compression.Idempotence
import VulcanDB.Compression.Names
import VulcanDB.Compression.StepText

/-!
# Compression — Lossless

When a compressed file means what the input meant.  The tokeniser cuts at every comma and takes
off one parenthesis, so a reference two lists deep is missed, one before two closing parentheses
loses a parenthesis, and blanks or `#` after a comma in a string literal are changed.

* `instances_joinLines`: the lines are joined to what they mean, where no blank of a literal is at
  the end of a line, and no `;` of one.
* `TokensRead`: the tokens of an instance are read as what they mean.
* `TokensRead.written`: the lexemes of a rewritten content are those of the content, renumbered.
* `ifcCompressor_lossless`: where lines and tokens are read so, the file is the input renumbered.
-/

namespace VulcanDB.Compression

open Cxx HashCons Step

/-! ### Lines that are read as what they mean -/

/-- A physical line, beginning at `p`: it does not stop the run, no blank of a literal is at its
ends, and no `;` of one. -/
structure LineRead (p : Place) (l : Str) : Prop where
  wide : ¬ WideBlank l
  first : p = .literal → l.head? ≠ some ' '
  last : leaves p l = .literal → l.getLast? ≠ some ' ' ∧ l.getLast? ≠ some ';'

/-- The lines behind a text that is begun. -/
def LinesRead (text : Str) : List Str → Prop
  | [] => True
  | l :: ls =>
    LineRead (leaves .outside text) l ∧
      LinesRead (if Ended (text ++ inLine (leaves .outside text) l) then []
        else text ++ inLine (leaves .outside text) l) ls

instance (p : Place) (l : Str) : Decidable (LineRead p l) :=
  decidable_of_iff (¬ WideBlank l ∧ (p = .literal → l.head? ≠ some ' ') ∧
      (leaves p l = .literal → l.getLast? ≠ some ' ' ∧ l.getLast? ≠ some ';'))
    ⟨fun ⟨h₁, h₂, h₃⟩ => ⟨h₁, h₂, h₃⟩, fun ⟨h₁, h₂, h₃⟩ => ⟨h₁, h₂, h₃⟩⟩

instance : ∀ (text : Str) (ls : List Str), Decidable (LinesRead text ls)
  | _, [] => isTrue trivial
  | text, l :: ls =>
    have := instDecidableLinesRead (if Ended (text ++ inLine (leaves .outside text) l) then []
      else text ++ inLine (leaves .outside text) l) ls
    inferInstanceAs (Decidable (LineRead _ l ∧ LinesRead _ ls))

/-- Lines that are read as meant are none that stop `trim`. -/
theorem LinesRead.wide {text : Str} {ls : List Str} (h : LinesRead text ls) :
    ∀ l ∈ ls, ¬ WideBlank l := by
  induction ls generalizing text with
  | nil => simp
  | cons l ls ih => exact List.forall_mem_cons.mpr ⟨h.1.wide, ih h.2⟩

/-- Such a line adds what `trim` leaves of it. -/
theorem LineRead.strip_eq {p : Place} {l : Str} (h : LineRead p l) : strip ' ' l = inLine p l := by
  have hfront : (if p = .literal then l else l.dropWhile (· == ' ')) = l.dropWhile (· == ' ') := by
    split
    · rename_i hp
      cases l with
      | nil => rfl
      | cons c l =>
          have hc : c ≠ ' ' := by simpa using h.first hp
          rw [List.dropWhile_cons_of_neg (by simpa using hc)]
    · rfl
  have hopen : leaves p (l.dropWhile (· == ' ')) = .literal ↔ leaves p l = .literal := by
    by_cases hp : p = .literal
    · rw [if_pos hp] at hfront
      rw [← hfront]
    · exact leaves_dropWhile hp l
  rw [inLine, hfront]
  simp only [hopen]
  split
  · exact strip_of_getLast (h.last ‹_›).1
  · rfl

/-- The text that a run has of an instance that is begun. -/
def pendingOf (text : Str) : Pending := if text = [] then .start else ⟨true, text⟩

theorem scan_pendingOf (text l : Str) : scan l (pendingOf text) =
    if strip ' ' l = [] then ([], pendingOf text, false)
    else if (strip ' ' l).getLast? = some ';' then (text ++ strip ' ' l, .start, true)
    else (strip ' ' l, pendingOf (text ++ strip ' ' l), false) := by
  rw [scan]
  by_cases hnil : strip ' ' l = []
  · rw [if_pos hnil, if_pos hnil, hnil]
  rw [if_neg hnil, if_neg hnil]
  have hnext : pendingOf (text ++ strip ' ' l) = ⟨true, text ++ strip ' ' l⟩ :=
    if_neg (List.append_ne_nil_of_right_ne_nil _ hnil)
  by_cases htext : text = []
  · rw [htext] at hnext ⊢
    rw [hnext]
    by_cases hlast : (strip ' ' l).getLast? = some ';'
    · rw [if_neg (not_not.mpr hlast), if_pos hlast]
      rfl
    · rw [if_pos hlast, if_neg hlast]
      rfl
  · rw [hnext, pendingOf, if_neg htext]
    by_cases hlast : (strip ' ' l).getLast? = some ';'
    · rw [if_neg (not_not.mpr hlast), if_pos hlast]
      rfl
    · rw [if_pos hlast, if_neg hlast]
      rfl

/-- A text goes on up to the line that the run ends it at. -/
theorem LineRead.ended_iff {text l : Str} (htext : ¬ Ended text)
    (h : LineRead (leaves .outside text) l) : Ended (text ++ inLine (leaves .outside text) l) ↔
      strip ' ' l ≠ [] ∧ (strip ' ' l).getLast? = some ';' := by
  rw [h.strip_eq]
  set p := leaves .outside text with hp
  by_cases hnil : inLine p l = []
  · simp [hnil, htext]
  · rw [Ended, leaves_append, ← hp, List.getLast?_append_of_ne_nil _ hnil]
    refine ⟨fun hend => ⟨hnil, hend.2⟩, fun hend => ⟨fun hlit => ?_, hend.2⟩⟩
    -- in a literal the last character is that of the line, which is no `;`
    obtain ⟨hblank, hsemi⟩ := h.last ((leaves_inLine p l).mp hlit)
    rw [← h.strip_eq, strip_of_getLast hblank] at hend hnil
    rw [getLast?_dropWhile hnil] at hend
    exact hsemi hend.2

/-- **The instances that are read** are the texts that the lines are joined to. -/
theorem joined_joinLines {ls : List Str} {text : Str} (h : LinesRead text ls)
    (htext : ¬ Ended text) : joined ls (pendingOf text) = (joinLines text ls).1 := by
  induction ls generalizing text with
  | nil => rfl
  | cons l ls ih =>
      obtain ⟨hline, hrest⟩ := h
      have hended := hline.ended_iff htext
      rw [joined, joinLines]
      rw [scan_pendingOf]
      rw [← hline.strip_eq] at hended hrest ⊢
      by_cases hnil : strip ' ' l = []
      · -- nothing is added
        rw [hnil, List.append_nil, if_neg htext] at hrest ⊢
        rw [if_pos rfl]
        exact ih hrest htext
      rw [if_neg hnil]
      by_cases hlast : (strip ' ' l).getLast? = some ';'
      · -- the instance ends
        rw [if_pos (hended.mpr ⟨hnil, hlast⟩)] at hrest ⊢
        rw [if_pos hlast, if_pos rfl]
        exact congrArg _ (ih hrest (by decide))
      · have hgoes : ¬ Ended (text ++ strip ' ' l) := fun hend => hlast (hended.mp hend).2
        rw [if_neg hgoes] at hrest ⊢
        rw [if_neg hlast]
        exact ih hrest hgoes

/-- **The compressor joins the lines** to the texts that are meant, where they are read so. -/
theorem instances_joinLines {ls : List Str} (h : LinesRead [] ls) :
    instances ls = (joinLines [] ls).1 := joined_joinLines h (by decide)

/-! ### Tokens that are read as what they mean -/

/-- `#` and digits, with blanks after them at most. -/
def WholeRef (s : Str) : Prop :=
  s.head? = some '#' ∧ s.tail.takeWhile Char.isDigit ≠ [] ∧
    Blank ' ' (s.tail.dropWhile Char.isDigit)

instance (s : Str) : Decidable (WholeRef s) := by unfold WholeRef; infer_instance

/-- A piece between commas, beginning at `p`: no blank of a literal is at its ends, and it is
taken for a reference exactly when it is one, with no other reference in it. -/
structure TokenRead (p : Place) (s : Str) : Prop where
  notBlank : ¬ Blank ' ' s
  first : p = .literal → s.head? ≠ some ' '
  last : leaves p s = .literal → s.getLast? ≠ some ' '
  missed : citeOf (strip ' ' s) = none → refs (lex p s) = []
  whole : citeOf (strip ' ' s) ≠ none → p ≠ .literal ∧ WholeRef (cutOf (strip ' ' s)).pp

instance (p : Place) (s : Str) : Decidable (TokenRead p s) :=
  decidable_of_iff (¬ Blank ' ' s ∧ (p = .literal → s.head? ≠ some ' ') ∧
      (leaves p s = .literal → s.getLast? ≠ some ' ') ∧
      (citeOf (strip ' ' s) = none → refs (lex p s) = []) ∧
      (citeOf (strip ' ' s) ≠ none → p ≠ .literal ∧ WholeRef (cutOf (strip ' ' s)).pp))
    ⟨fun ⟨h₁, h₂, h₃, h₄, h₅⟩ => ⟨h₁, h₂, h₃, h₄, h₅⟩,
      fun ⟨h₁, h₂, h₃, h₄, h₅⟩ => ⟨h₁, h₂, h₃, h₄, h₅⟩⟩

/-- The tokens of a content are read as meant, from this place on. -/
def TokensRead : Place → List Str → Prop
  | _, [] => True
  | p, s :: ss => TokenRead p s ∧ TokensRead ((leaves p s).next ',') ss

instance : ∀ (p : Place) (ss : List Str), Decidable (TokensRead p ss)
  | _, [] => isTrue trivial
  | p, s :: ss =>
    have := instDecidableTokensRead ((leaves p s).next ',') ss
    inferInstanceAs (Decidable (TokenRead p s ∧ TokensRead ((leaves p s).next ',') ss))

/-! ### A token rewritten -/

/-- A parenthesis that was cut off, as a lexeme. -/
def marks (b : Bool) (c : Char) : List Lexeme := if b then [.mark c] else []

theorem lex_digits {ds : Str} (hd : ∀ c ∈ ds, c.isDigit = true) (t : Str) :
    lex .digits (ds ++ t) = lex .digits t ∧ leaves .digits (ds ++ t) = leaves .digits t := by
  induction ds with
  | nil => exact ⟨rfl, rfl⟩
  | cons c ds ih =>
      obtain ⟨h₁, h₂⟩ := ih fun d hm => hd d (by simp [hm])
      have hc := hd c (by simp)
      rw [List.cons_append, lex_cons, leaves_cons, emit, if_pos hc, Place.next, if_pos hc, h₁, h₂]
      exact ⟨rfl, rfl⟩

theorem next_literal {p : Place} : p.next ',' = .literal ↔ p = .literal := by
  cases p <;> decide

/-- A reference between the parentheses of its token. -/
theorem lex_around (c : Cut) {ds b : Str} (hne : ds ≠ []) (hd : ∀ d ∈ ds, d.isDigit = true)
    (hb : Blank ' ' b) :
    lex .outside (c.around ('#' :: (ds ++ b))) =
        marks c.opened '(' ++ .ref (digitsValue ds) :: marks c.closed ')' ∧
      (leaves .outside (c.around ('#' :: (ds ++ b)))).next ',' = .outside := by
  have hclose : startsDigit (paren c.closed ')') = false := by cases c.closed <;> rfl
  have hstart : startsDigit (b ++ paren c.closed ')') = false := by
    cases b with
    | nil => exact hclose
    | cons d b => rw [hb d (by simp)]; rfl
  -- from the digits on
  obtain ⟨h₁, h₂⟩ := lex_digits hd (b ++ paren c.closed ')')
  obtain ⟨h₃, h₄⟩ := lex_blank (p := .digits) (by decide) hb
  have hlit : leaves .digits b ≠ .literal := fun e => by rw [next_literal.mpr e] at h₄; cases h₄
  have hrest : lex .digits (ds ++ (b ++ paren c.closed ')')) = marks c.closed ')' ∧
      (leaves .digits (ds ++ (b ++ paren c.closed ')'))).next ',' = .outside := by
    rw [h₁, h₂, lex_append _ _ hclose, h₃, leaves_append, List.nil_append]
    cases hq : leaves .digits b with
    | literal => exact absurd hq hlit
    | outside => cases c.closed <;> exact ⟨rfl, rfl⟩
    | digits => cases c.closed <;> exact ⟨rfl, rfl⟩
  -- and the reference
  have hdig : startsDigit (ds ++ (b ++ paren c.closed ')')) = true := by
    obtain ⟨d, ds, rfl⟩ := List.exists_cons_of_ne_nil hne
    simpa [startsDigit] using hd d (by simp)
  have href : lex .outside ('#' :: (ds ++ (b ++ paren c.closed ')'))) =
      .ref (digitsValue ds) :: marks c.closed ')' := by
    rw [lex_cons, emit, outsideLexeme, if_neg (by decide), if_neg (by decide),
      if_pos ⟨rfl, hdig⟩, digitsValue_append ds (not_digit_of_startsDigit hstart)]
    exact congrArg _ hrest.1
  have hform : c.around ('#' :: (ds ++ b)) =
      paren c.opened '(' ++ '#' :: (ds ++ (b ++ paren c.closed ')')) := by
    simp [Cut.around]
  rw [hform]
  cases c.opened with
  | false => exact ⟨href, hrest.2⟩
  | true => exact ⟨congrArg (Lexeme.mark '(' :: ·) href, hrest.2⟩

/-- What is written for a trimmed token when the ids are renumbered. -/
def written (r : Int → ℕ) (t : Str) : Str :=
  match citeOf t with
  | none => t
  | some a => citation (cutOf t).opened (cutOf t).closed (r a)

theorem refs_append (ls ms : List Lexeme) : refs (ls ++ ms) = refs ls ++ refs ms :=
  List.filterMap_append

/-- Lexemes without references are renamed to themselves. -/
theorem rename_of_refs_nil {ls : List Lexeme} (h : refs ls = []) (r : ℕ → ℕ) :
    ls.map (Lexeme.rename r) = ls := by
  induction ls with
  | nil => rfl
  | cons l ls ih =>
      cases l with
      | ref n => cases h
      | mark c => exact congrArg (Lexeme.mark c :: ·) (ih h)
      | quoted c => exact congrArg (Lexeme.quoted c :: ·) (ih h)

theorem refs_marks (b : Bool) (c : Char) : refs (marks b c) = [] := by cases b <;> rfl

/-- A token read as what it means, rewritten. -/
theorem TokenRead.written {p : Place} {s : Str} (h : TokenRead p s) (hp : p ≠ .digits)
    (r : Int → ℕ) :
    lex p (written r (strip ' ' s)) = (lex p s).map (Lexeme.rename fun n => r (nameId n)) ∧
      (leaves p (Compression.written r (strip ' ' s))).next ',' = (leaves p s).next ',' ∧
      (citeOf (strip ' ' s)).toList = (refs (lex p s)).map nameId := by
  obtain ⟨hlex, hleave⟩ := lex_strip hp h.notBlank h.first h.last
  cases hc : citeOf (strip ' ' s) with
  -- no reference is taken, so the token is written as it was
  | none =>
      have hrefs := h.missed hc
      simp only [Compression.written, hc]
      rw [hlex, rename_of_refs_nil hrefs, hrefs]
      exact ⟨rfl, hleave, rfl⟩
  | some a =>
      obtain ⟨hlit, hhead, hdigits, hblank⟩ := h.whole (by rw [hc]; nofun)
      have hout : p = .outside := by
        cases p with
        | outside => rfl
        | digits => exact absurd rfl hp
        | literal => exact absurd rfl hlit
      subst hout
      -- the token is a reference between parentheses, with blanks at most behind its digits
      set c := cutOf (strip ' ' s)
      set ds := c.pp.tail.takeWhile Char.isDigit
      set b := c.pp.tail.dropWhile Char.isDigit
      have hds : ∀ d ∈ ds, d.isDigit = true := fun d hd => List.mem_takeWhile_imp hd
      have hpp : c.pp = '#' :: (ds ++ b) := by
        rw [List.takeWhile_append_dropWhile]
        exact (List.cons_head?_tail (by simpa using hhead)).symm
      have htoken : strip ' ' s = c.around ('#' :: (ds ++ b)) := by
        rw [← hpp, cutOf_around]
      obtain ⟨h₁, h₂⟩ := lex_around c hdigits hds hblank
      rw [← htoken] at h₁ h₂
      have hrefs : refs (lex .outside s) = [digitsValue ds] := by
        rw [← hlex, h₁, refs_append, refs_marks]
        exact congrArg (digitsValue ds :: ·) (refs_marks _ _)
      -- the code reads the number that the text gives
      have hcite : a = nameId (digitsValue ds) := by
        have hstop : b.head?.any Char.isDigit = false := by
          cases hd : b.head? with
          | none => rfl
          | some d => rw [hblank d (List.mem_of_head? hd)]; rfl
        have hreads : ReadsNumber c.pp.tail (digitsValue ds) :=
          ⟨[], ds, b, nofun, hdigits, hds, hstop, rfl, List.takeWhile_append_dropWhile.symm⟩
        have hvalue := hc
        rw [citeOf, Cut.cite, if_pos hhead, Option.some.injEq] at hvalue
        rw [← hvalue, hreads.atoi_eq]
      obtain ⟨h₃, h₄⟩ := lex_around (⟨c.opened, c.closed, []⟩ : Cut) (dec_ne_nil (r a))
        (fun d => isDigit_of_mem_dec) (b := []) (by simp [Blank])
      rw [List.append_nil] at h₃ h₄
      refine ⟨?_, ?_, ?_⟩
      · simp only [Compression.written, hc]
        rw [citation, h₃, ← hlex, h₁, digitsValue_dec, List.map_append, List.map_cons,
          rename_of_refs_nil (refs_marks _ _), rename_of_refs_nil (refs_marks _ _), hcite]
        rfl
      · simp only [Compression.written, hc]
        rw [citation, h₄, ← hleave, h₂]
      · rw [hrefs, hcite]; rfl

theorem emit_comma {p q : Place} (h : p.next ',' = q.next ',') (s t : Str) :
    emit p ',' s = emit q ',' t := by
  cases p <;> cases q <;> first | rfl | cases h

theorem refs_emit_comma (p : Place) (s : Str) : refs (emit p ',' s) = [] := by cases p <;> rfl

theorem next_comma (p : Place) : p.next ',' ≠ .digits := by cases p <;> decide

theorem cites_cons (t : Str) (ts : List Str) :
    (t :: ts).filterMap citeOf = (citeOf t).toList ++ ts.filterMap citeOf := by
  rw [List.filterMap_cons]
  cases citeOf t <;> rfl

/-- **A rewritten content** has the lexemes of the content, renumbered, and the ids its tokens cite
are those the content refers to. -/
theorem TokensRead.written {ss : List Str} {p : Place} (h : TokensRead p ss) (hp : p ≠ .digits)
    (r : Int → ℕ) :
    lex p (joinWith ',' ((ss.map (strip ' ')).map (Compression.written r))) =
        (lex p (joinWith ',' ss)).map (Lexeme.rename fun n => r (nameId n)) ∧
      (ss.map (strip ' ')).filterMap citeOf = (refs (lex p (joinWith ',' ss))).map nameId := by
  induction ss generalizing p with
  | nil => exact ⟨by simp [joinWith], by simp [joinWith, refs]⟩
  | cons s ss ih =>
      obtain ⟨hs, hss⟩ := h
      rw [List.map_cons, List.map_cons, cites_cons]
      rcases eq_or_ne ss [] with rfl | hne
      · obtain ⟨h₁, -, h₃⟩ := hs.written hp r
        exact ⟨h₁, by rw [h₃]; exact List.append_nil _⟩
      · have hcut : lex p (joinWith ',' (s :: ss)) = lex p s ++
            (emit (leaves p s) ',' (joinWith ',' ss) ++
              lex ((leaves p s).next ',') (joinWith ',' ss)) := by
          rw [joinWith_cons s hne, lex_append _ _ rfl, lex_cons]
        rw [hcut, refs_append, refs_append, refs_emit_comma, List.nil_append]
        obtain ⟨h₁, h₂, h₃⟩ := hs.written hp r
        obtain ⟨ih₁, ih₂⟩ := ih hss (next_comma _)
        constructor
        · rw [joinWith_cons _ (by simpa using hne), lex_append _ _ rfl, lex_cons, h₁, h₂, ih₁,
            List.map_append, List.map_append, emit_comma h₂ _ (joinWith ',' ss),
            rename_of_refs_nil (refs_emit_comma _ _)]
        · rw [h₃, ih₂, List.map_append]

/-- The rendered tokens are the tokens rewritten. -/
theorem render_written {rel : Int → Option ℕ} {r : Int → ℕ} {ts : List Str} {ms : List ℕ}
    (hr : ∀ a m, rel a = some m → r a = m) (h : (ts.filterMap citeOf).map rel = ms.map some) :
    render (ts.map pieceOf) ms = ts.map (written r) := by
  induction ts generalizing ms with
  | nil => rfl
  | cons t ts ih =>
      cases hc : citeOf t with
      | none =>
          rw [List.filterMap_cons_none hc] at h
          rw [List.map_cons, List.map_cons, pieceOf_text hc, render, ih h]
          simp only [written, hc]
      | some a =>
          rw [List.filterMap_cons_some hc, List.map_cons] at h
          cases ms with
          | nil => cases h
          | cons m ms =>
              rw [List.map_cons, List.cons.injEq] at h
              rw [List.map_cons, List.map_cons, pieceOf_hole hc, render, ih h.2]
              simp only [written, hc, hr a m h.1]

/-! ### The instances of a well-formed section -/

section Instances

variable {x : StepInstance} {l : Str}

/-- The parts the reader cuts out of a line that spells an instance. -/
theorem spelled_parts (h : x.Spelled l) :
    idOf l = nameId x.id ∧ typeOf l = x.type ∧ argsText l = x.args := by
  obtain ⟨ds, b₁, b₂, b₃, b₄, hne, hd, hv, h₁, h₂, h₃, h₄, rfl⟩ := h
  have heq : '=' ∉ '#' :: (ds ++ b₁) := by
    simp only [List.mem_cons, List.mem_append]
    rintro (hc | hc | hc)
    · cases hc
    · exact absurd (hd _ hc) (by decide)
    · exact absurd (h₁ _ hc) (by decide)
  have hopen : '(' ∉ b₂ ++ x.type ++ b₃ := by
    simp only [List.mem_append]
    rintro ((hc | hc) | hc)
    · exact absurd (h₂ _ hc) (by decide)
    · exact absurd (x.keyword.2 _ hc) (by decide)
    · exact absurd (h₃ _ hc) (by decide)
  have hclose : ')' ∉ b₄ ++ [';'] := by
    simp only [List.mem_append, List.mem_singleton]
    rintro (hc | hc)
    · exact absurd (h₄ _ hc) (by decide)
    · cases hc
  refine ⟨?_, ?_, ?_⟩
  · have hstop : b₁.head?.any Char.isDigit = false := by
      cases hc : b₁.head? with
      | none => rfl
      | some c => rw [h₁ c (List.mem_of_head? hc)]; rfl
    have hreads : ReadsNumber (ds ++ b₁) x.id := ⟨[], ds, b₁, nofun, hne, hd, hstop, hv, rfl⟩
    rw [idOf, indexText, if_neg (by simp), before_append heq, List.tail_cons, hreads.atoi_eq]
  · rw [typeOf, typeText, after_append heq, before_append hopen, x.keyword.strip h₂ h₃]
  · rw [argsText, after_append heq, after_append hopen, beforeLast_append hclose]

theorem wideBlank_strip {s : Str} (h : strip ' ' s ≠ []) : ¬ WideBlank s :=
  fun hw => h (strip_of_blank hw.1)

/-- An instance, as the node its tokens make. -/
def asNode (x : StepInstance) : Node Label Int := nodeOf (nameId x.id) x.type (tokens x.args)

/-- An instance that is spelled on a line is read as its node. -/
theorem spelled_node (h : x.Spelled l) (precision : Int) :
    node ⟨false, precision, binary64⟩ l = asNode x := by
  obtain ⟨h₁, h₂, h₃⟩ := spelled_parts h
  have htokens : tokensOf ⟨false, precision, binary64⟩ l = tokens x.args := by
    rw [tokensOf, h₃]
    conv_rhs => rw [← List.map_id (tokens x.args)]
    exact List.map_congr_left fun t _ => standardToken_lossless _ precision t
  rw [node, h₁, h₂, htokens, asNode]

/-- The tokens of the instance are read as what they mean. -/
def ArgsRead (x : StepInstance) : Prop := TokensRead .outside (getlines ',' x.args)

/-- Tokens that are read as meant are not blank. -/
theorem TokensRead.notBlank {ss : List Str} {p : Place} (h : TokensRead p ss) :
    ∀ s ∈ ss, ¬ Blank ' ' s := by
  induction ss generalizing p with
  | nil => simp
  | cons s ss ih =>
      intro t ht
      rcases List.mem_cons.mp ht with rfl | ht
      · exact h.1.notBlank
      · exact ih h.2 t ht

theorem spelled_parses (h : x.Spelled l) (hx : ArgsRead x) : Parses l := by
  obtain ⟨-, h₂, h₃⟩ := spelled_parts h
  refine ⟨wideBlank_strip ?_, h₃ ▸ hx.notBlank⟩
  rw [← typeOf, h₂]
  exact x.keyword.1

/-- **The references of the node** are those of the text, and putting other ids for them renames the
text. -/
theorem asNode_args (hx : ArgsRead x) (r : Int → ℕ) :
    lexemes (joinWith ',' ((tokens x.args).map (written r))) =
        (lexemes x.args).map (Lexeme.rename fun n => r (nameId n)) ∧
      (asNode x).args = x.refs.map nameId := by
  have h := TokensRead.written hx (by decide) r
  rwa [x.params.pieces] at h

end Instances

/-! ### The compressed file -/

/-- The line is the instance with its id and its references renumbered, and the rest of it the same
but for blanks outside the literals. -/
def Image (r : ℕ → ℕ) (x : StepInstance) (l : Str) : Prop :=
  ∃ args, l = '#' :: dec (r x.id) ++ '=' :: (x.type ++ '(' :: (args ++ [')', ';'])) ∧
    lexemes args = (lexemes x.args).map (Lexeme.rename r)

/-- The file has an image of every instance, under one renumbering, and nothing else. -/
def Lossless (head : HeadLoop) (precision : Int) (text : Str) (xs : List StepInstance) : Prop :=
  ∃ fuel out ls r, ifcCompressor ⟨false, precision, binary64⟩ head fuel text = some (.ok out) ∧
    DataSection out.text ls ∧ (∀ x ∈ xs, ∃ l ∈ ls, Image r x l) ∧
    ∀ l ∈ ls, ∃ x ∈ xs, Image r x l

/-- The lines and the instances are read as what they mean, no two ids are the same `int`, and no
counter is beyond one. -/
structure ReadAsMeant (xs : List StepInstance) (ls : List Str) : Prop where
  lines : LinesRead [] ls
  ids : (xs.map fun x => nameId x.id).Nodup
  args : ∀ x ∈ xs, ArgsRead x
  count : xs.length ≤ INT_MAX

section Section

variable {xs : List StepInstance} {ls : List Str}

theorem spelled_mem (h : List.Forall₂ StepInstance.Spelled xs ls) :
    ∀ l ∈ ls, ∃ x ∈ xs, x.Spelled l := by
  induction h with
  | nil => simp
  | cons hx _ ih =>
      intro l hl
      rcases List.mem_cons.mp hl with rfl | hl
      · exact ⟨_, by simp, hx⟩
      · obtain ⟨x, hxs, hxl⟩ := ih l hl
        exact ⟨x, by simp [hxs], hxl⟩

/-- The lines of a section are read as its nodes. -/
theorem spelled_nodes (h : List.Forall₂ StepInstance.Spelled xs ls) (precision : Int) :
    ls.map (node ⟨false, precision, binary64⟩) = xs.map asNode := by
  induction h with
  | nil => rfl
  | cons hx _ ih => rw [List.map_cons, List.map_cons, spelled_node hx, ih]

/-- Every id that is named is that of an instance. -/
theorem exists_of_named (h : WellFormedStep xs ls) {i : ℕ}
    (hi : i ∈ named (xs.map StepInstance.node)) : ∃ x ∈ xs, x.id = i := by
  obtain ⟨n, hn, hi⟩ := hi
  obtain ⟨x, hx, rfl⟩ := List.mem_map.mp hn
  rcases hi with rfl | hi
  · exact ⟨x, hx, rfl⟩
  · exact h.defined x hx i hi

/-- The nodes of a well-formed section have ids of their own, and their references end. -/
theorem asNodes_grounded (h : WellFormedStep xs ls) (hread : ReadAsMeant xs ls) :
    ((xs.map asNode).map Node.id).Nodup ∧ AllGrounded (xs.map asNode) := by
  have hargs : ∀ x ∈ xs, (asNode x).args = x.refs.map nameId := fun x hx =>
    (asNode_args (hread.args x hx) fun _ => 0).2
  have hinj : Set.InjOn nameId (named (xs.map StepInstance.node)) := by
    intro i hi j hj hij
    obtain ⟨x, hx, rfl⟩ := exists_of_named h hi
    obtain ⟨y, hy, rfl⟩ := exists_of_named h hj
    rw [List.inj_on_of_nodup_map hread.ids hx hy hij]
  constructor
  · have hmap : (xs.map asNode).map Node.id = xs.map fun x => nameId x.id := by
      rw [List.map_map]
      rfl
    rw [hmap]
    exact hread.ids
  · refine allGrounded_of_acyclic ?_ (acyclic_of_rename hinj ?_ h.acyclic)
    · intro n hn a ha
      obtain ⟨x, hx, rfl⟩ := List.mem_map.mp hn
      rw [hargs x hx] at ha
      obtain ⟨m, hm, rfl⟩ := List.mem_map.mp ha
      obtain ⟨y, hy, rfl⟩ := h.defined x hx m hm
      exact ⟨asNode y, List.mem_map_of_mem hy, rfl⟩
    · intro n hn
      obtain ⟨x, hx, rfl⟩ := List.mem_map.mp hn
      exact ⟨x.node, List.mem_map_of_mem hx, rfl, hargs x hx⟩

/-- The base an instance is given, as it is written. -/
theorem image_of_key {x : StepInstance} (hx : ArgsRead x) {rel : Int → Option ℕ} {m : ℕ}
    {key : Key Label} (hm : rel (nameId x.id) = some m) (hk : (asNode x).key rel = some key) :
    Image (fun n => (rel (nameId n)).getD 0) x
      (IfcInstance.mk m key.1.type (contentOf key) true).text := by
  obtain ⟨hlabel, hargs⟩ := key_eq_some.mp hk
  have hpieces : key.1.pieces = (tokens x.args).map pieceOf := by rw [hlabel]; rfl
  have htype : key.1.type = x.type := by rw [hlabel]; rfl
  refine ⟨contentOf key, ?_, ?_⟩
  · rw [text_eq, htype]
    simp only [hm, Option.getD_some]
  · rw [contentOf, hpieces, render_written (r := fun a => (rel a).getD 0) ?_ hargs]
    · exact (asNode_args hx fun a => (rel a).getD 0).1
    · intro a m ha
      rw [ha, Option.getD_some]

/-- **Lines and tokens read as what they mean**, the compressed file is the input renumbered. -/
theorem ifcCompressor_lossless (head : HeadLoop) (precision : Int) {text : Str}
    (hsec : DataSection text ls) (h : WellFormedStep xs ls) (hread : ReadAsMeant xs ls) :
    Lossless head precision text xs := by
  obtain ⟨hid, hground⟩ := asNodes_grounded h hread
  have hspelled := h.spelled
  rw [← instances_joinLines hread.lines] at hspelled
  have hnodes : nodes ⟨false, precision, binary64⟩ ls = xs.map asNode :=
    spelled_nodes hspelled precision
  -- the run
  obtain ⟨more, hd⟩ := dataLines_of_section head hsec
  have hreadable : Readable ls := by
    refine ⟨hread.lines.wide, fun l hl => ?_⟩
    obtain ⟨x, hx, hxl⟩ := spelled_mem hspelled l hl
    exact spelled_parses hxl (hread.args x hx)
  have hwhole := instances_whole (newline_of_section hsec)
  obtain ⟨k, hk⟩ := (ends_iff (xs.map asNode)).mpr hground
  rw [← hnodes] at hk hid
  obtain ⟨-, -, -, -, hend⟩ := hsec
  obtain ⟨fuel, out, k', hrun, hsim, hend', htext⟩ :=
    HasRead.compressed ⟨hend, .inl hd⟩ hreadable hk (hspelled.length_eq ▸ hread.count)
  -- its file
  have hwritable := writable_bases hwhole hsim
  set ns := nodes ⟨false, precision, binary64⟩ ls
  set T := (after ns k').1
  have hmore : ∀ l ∈ more, '\n' ∉ l := fun l hl =>
    newline_of_dataLines hd l (List.mem_append_right _ (List.mem_cons_of_mem _ hl))
  have hfile : DataSection out.text ((basesFrom 0 T.bases).map (·.text)) :=
    ⟨_, more, htext ▸ getlines_written (basesFrom_whole hwritable) hmore, data_notMem_head,
      endsec_notMem⟩
  have hline : ∀ m key, T.bases[m]? = some key →
      (IfcInstance.mk (m + 1 : ℕ) key.1.type (contentOf key) true).text ∈
        (basesFrom 0 T.bases).map (·.text) := by
    intro m key hkey
    refine List.mem_map_of_mem (List.mem_iff_getElem?.mpr ⟨m, ?_⟩)
    rw [basesFrom_getElem?, hkey, Nat.zero_add]
    rfl
  refine ⟨fuel, out, _, fun n => (T.rel (nameId n)).getD 0, hrun, hfile, fun x hx => ?_,
    fun l hl => ?_⟩
  · have hn : asNode x ∈ ns := hnodes ▸ List.mem_map_of_mem hx
    obtain ⟨m, key, hm, hkey, hbase⟩ := base_of_node hid hend' hn
    exact ⟨_, hline m key hbase, image_of_key (hread.args x hx) hm hkey⟩
  · obtain ⟨i, hi, rfl⟩ := List.mem_map.mp hl
    obtain ⟨m, hi⟩ := List.mem_iff_getElem?.mp hi
    rw [basesFrom_getElem?, Option.map_eq_some_iff, Nat.zero_add] at hi
    obtain ⟨key, hkey, rfl⟩ := hi
    obtain ⟨n, hn, hm, hk⟩ := node_of_base hid hend' hkey
    obtain ⟨x, hx, rfl⟩ := List.mem_map.mp (hnodes ▸ hn)
    exact ⟨x, hx, image_of_key (hread.args x hx) hm hk⟩

end Section

/-! ### One way or the other -/

/-- The parts of a line that is an image. -/
theorem Image.parts {r : ℕ → ℕ} {x : StepInstance} {l : Str} (h : Image r x l) :
    typeOf l = x.type ∧ lexemes (argsText l) = (lexemes x.args).map (Lexeme.rename r) := by
  obtain ⟨args, rfl, hargs⟩ := h
  have htext : '#' :: dec (r x.id) ++ '=' :: (x.type ++ '(' :: (args ++ [')', ';'])) =
      (IfcInstance.mk (r x.id) x.type args true).text := by
    rw [text_eq]
  have hparen : '(' ∉ x.type := fun hc => absurd (x.keyword.2 _ hc) (by decide)
  have htrim : Trimmed ' ' x.type :=
    ⟨fun hc => absurd (x.keyword.2 _ (List.mem_of_head? hc)) (by decide),
      fun hc => absurd (x.keyword.2 _ (List.mem_of_getLast? hc)) (by decide)⟩
  rw [htext, (typeOf_written hparen htrim).2, argsText_written hparen]
  exact ⟨rfl, hargs⟩

/-- The text a run has written. -/
def writtenText : Option (Except Fault Output) → Option Str
  | some (.ok out) => some out.text
  | _ => none

/-- The output does not depend on the fuel. -/
theorem text_of_run {mode : Mode} {head : HeadLoop} {fuel : ℕ} {text : Str} {out : Output}
    (h : ifcCompressor mode head fuel text = some (.ok out)) (fuel' : ℕ) (t : Str)
    (h' : writtenText (ifcCompressor mode head fuel' text) = some t) : out.text = t := by
  cases hr : ifcCompressor mode head fuel' text with
  | none => rw [hr] at h'; cases h'
  | some r =>
      have h₁ := ifcCompressor_mono h fuel'
      rw [Nat.add_comm, ifcCompressor_mono hr fuel] at h₁
      rw [hr, Option.some.inj h₁] at h'
      exact Option.some.inj h'

instance (s : Str) : Decidable (Keyword s) := by unfold Keyword; infer_instance

theorem param_digits {s : Str} (hne : s ≠ []) (h : ∀ c ∈ s, valueChar c = true) : Params s :=
  .inr ⟨[s], by simp, by simpa using .value hne h, rfl⟩

/-- A point, the same point again, and an instance with a literal and a list, whose literal goes on
on the next line; two ids are beyond an `int`. -/
def listedLines : List Str :=
  ["#4294967308 = P(15);".toList, "#15=P(15);".toList, " #9000000000=Q('no. #3,a".toList,
    "b', #4294967308, ".toList, "  (#15,7)); ".toList]

/-- The parameters of the third instance below. -/
theorem listed_params : Params "'no. #3,ab', #4294967308,(#15,7)".toList := by
  refine .inr ⟨["'no. #3,ab'".toList, " #4294967308".toList, "(#15,7)".toList], by decide, ?_, rfl⟩
  have h₁ : Param "'no. #3,ab'".toList :=
    .literal (@Literal.quoted "no. #3,ab".toList (by decide))
  have h₂ : Param " #4294967308".toList :=
    @Param.blanks [' '] _ [] (by decide) (by decide)
      (@Param.ref "4294967308".toList (by decide) (by decide))
  have h₃ : Param "#15".toList := @Param.ref "15".toList (by decide) (by decide)
  have h₄ : Param "7".toList := .value (by decide) (by decide)
  have h₅ : Param "(#15,7)".toList :=
    @Param.list ["#15".toList, "7".toList] (by simpa using ⟨h₃, h₄⟩)
  simpa using ⟨h₁, h₂, h₅⟩

/-- A literal with a comma and `#`, blanks, a nested list and ids beyond an `int`. -/
def listed : List StepInstance :=
  [⟨4294967308, "P".toList, "15".toList, by decide, param_digits (by decide) (by decide)⟩,
    ⟨15, "P".toList, "15".toList, by decide, param_digits (by decide) (by decide)⟩,
    ⟨9000000000, "Q".toList, "'no. #3,ab', #4294967308,(#15,7)".toList, by decide, listed_params⟩]

theorem listed_wellFormed : WellFormedStep listed listedLines where
  spelled := by
    have h : (joinLines [] listedLines).1 = ["#4294967308 = P(15);".toList, "#15=P(15);".toList,
        "#9000000000=Q('no. #3,ab', #4294967308,(#15,7));".toList] := by decide +kernel
    rw [h]
    refine .cons ?_ (.cons ?_ (.cons ?_ .nil))
    · exact ⟨"4294967308".toList, " ".toList, " ".toList, [], [], by decide +kernel⟩
    · exact ⟨"15".toList, [], [], [], [], by decide +kernel⟩
    · exact ⟨"9000000000".toList, [], [], [], [], by decide +kernel⟩
  rest := by decide +kernel
  distinct := by decide +kernel
  defined := by decide +kernel
  acyclic := acyclic_of_lt (by decide +kernel)

theorem ifcCompressor_lossless_listed : Lossless .whileGetline 2
    (terminated '\n' (DATA :: listedLines ++ [ENDSEC])) listed :=
  ifcCompressor_lossless .whileGetline 2
    ⟨[], [], by decide +kernel, by decide, by decide⟩ listed_wellFormed
    ⟨by decide +kernel, by decide +kernel, by unfold ArgsRead; decide +kernel, by decide⟩

/-- Two points, three lists deep. -/
def nestedLines : List Str := ["#5=P(0);".toList, "#6=S(((#5,#5)));".toList]

theorem nested_params : Params "((#5,#5))".toList := by
  have h₁ : Param "#5".toList := @Param.ref "5".toList (by decide) (by decide)
  have h₂ : Param "(#5,#5)".toList :=
    @Param.list ["#5".toList, "#5".toList] (by simpa using h₁)
  have h₃ : Param "((#5,#5))".toList := @Param.list ["(#5,#5)".toList] (by simpa using h₂)
  exact .inr ⟨["((#5,#5))".toList], by decide, by simpa using h₃, rfl⟩

/-- A reference that the compressor does not see. -/
def nested : List StepInstance :=
  [⟨5, "P".toList, "0".toList, by decide, param_digits (by decide) (by decide)⟩,
    ⟨6, "S".toList, "((#5,#5))".toList, by decide, nested_params⟩]

theorem nested_wellFormed : WellFormedStep nested nestedLines where
  spelled := by
    have h : (joinLines [] nestedLines).1 = nestedLines := by decide +kernel
    rw [h]
    refine .cons ?_ (.cons ?_ .nil)
    · exact ⟨"5".toList, [], [], [], [], by decide +kernel⟩
    · exact ⟨"6".toList, [], [], [], [], by decide +kernel⟩
  rest := by decide +kernel
  distinct := by decide
  defined := by decide +kernel
  acyclic := acyclic_of_lt (by decide +kernel)

/-- A literal with a blank before the end of a line. -/
def brokenLines : List Str := ["#1=P('a ".toList, "b');".toList]

theorem broken_params : Params "'a b'".toList :=
  .inr ⟨["'a b'".toList], by decide,
    by simpa using Param.literal (@Literal.quoted "a b".toList (by decide)), rfl⟩

/-- A literal that is broken over two lines. -/
def broken : List StepInstance := [⟨1, "P".toList, "'a b'".toList, by decide, broken_params⟩]

theorem broken_wellFormed : WellFormedStep broken brokenLines where
  spelled := by
    have h : (joinLines [] brokenLines).1 = ["#1=P('a b');".toList] := by decide +kernel
    rw [h]
    exact .cons ⟨"1".toList, [], [], [], [], by decide +kernel⟩ .nil
  rest := by decide +kernel
  distinct := by decide
  defined := by decide +kernel
  acyclic := acyclic_of_lt (by decide +kernel)

/-- No line of the file that is written is an image of the instance. -/
theorem not_lossless {head : HeadLoop} {precision : Int} {text : Str} {xs : List StepInstance}
    (fuel : ℕ) {t : Str} {ls : List Str}
    (hrun : writtenText (ifcCompressor ⟨false, precision, binary64⟩ head fuel text) = some t)
    (hfile : DataSection t ls) {x : StepInstance} (hx : x ∈ xs)
    (hls : ∀ l ∈ ls, ¬ (typeOf l = x.type ∧
      (lexemes (argsText l)).map (Lexeme.rename fun _ => 0) =
        (lexemes x.args).map (Lexeme.rename fun _ => 0))) :
    ¬ Lossless head precision text xs := by
  rintro ⟨fuel', out, ls', r, hrun', hfile', himage, -⟩
  obtain rfl := text_of_run hrun' fuel t hrun
  obtain rfl := hfile'.unique hfile
  obtain ⟨l, hl, hi⟩ := himage x hx
  obtain ⟨htype, hlex⟩ := hi.parts
  refine hls l hl ⟨htype, ?_⟩
  rw [hlex, List.map_map]
  exact List.map_congr_left fun m _ => by cases m <;> rfl

/-- References three lists deep: one is missed, the other loses a parenthesis.  A literal that goes
on on the next line loses a blank. -/
theorem ifcCompressor_not_always_lossless :
    (∃ text, DataSection text nestedLines ∧ WellFormedStep nested nestedLines ∧
        ¬ Lossless .whileGetline 2 text nested) ∧
      ∃ text, DataSection text brokenLines ∧ WellFormedStep broken brokenLines ∧
        ¬ Lossless .whileGetline 2 text broken := by
  constructor
  · refine ⟨"DATA;\n#5=P(0);\n#6=S(((#5,#5)));\nENDSEC;\n".toList,
      ⟨[], [], by decide +kernel, by decide, by decide⟩, nested_wellFormed, ?_⟩
    have hfile : DataSection "DATA;\n#1=P(0);\n#2=S(((#5,#1));\nENDSEC;\n".toList
        ["#1=P(0);".toList, "#2=S(((#5,#1));".toList] :=
      ⟨[], [], by decide +kernel, by decide, by decide⟩
    have hx : ⟨6, "S".toList, "((#5,#5))".toList, by decide, nested_params⟩ ∈ nested := by
      simp [nested]
    exact not_lossless 9 (by decide +kernel) hfile hx (by decide +kernel)
  · refine ⟨"DATA;\n#1=P('a \nb');\nENDSEC;\n".toList,
      ⟨[], [], by decide +kernel, by decide, by decide⟩, broken_wellFormed, ?_⟩
    have hfile : DataSection "DATA;\n#1=P('ab');\nENDSEC;\n".toList ["#1=P('ab');".toList] :=
      ⟨[], [], by decide +kernel, by decide, by decide⟩
    exact not_lossless 9 (by decide +kernel) hfile (List.mem_singleton_self _) (by decide +kernel)

end VulcanDB.Compression
