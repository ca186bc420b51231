import VulcanDB.Compression.Sections

/-!
# Compression — Safety

On which texts the parser indexes no string outside it and throws no `std::out_of_range`.  The
positions it finds are kept in an `int` here, as in the code (`Narrow`).  Where an `int` counts the
characters of the lines and of the instances they join to, that changes nothing, and the functions
are those of the other modules.

* `Narrow.trim_eq`, `Narrow.ifcInstanceAna_eq`: on a text whose characters an `int` counts.
* `Narrow.trim_trimmed`, `Narrow.standardContentRel_eq`: on a normalised content of any length, whose
  tokens may be longer.
* `Narrow.trim_deep`: where the count of the blanks before a text wraps.
* `parser_safe`: the texts that the parser takes.
-/

namespace VulcanDB.Compression

open Cxx

namespace Narrow

/-- `int x = n`, for a position or a count of characters. -/
def toInt (n : Int) : Int := n.bmod (2 ^ 32)

/-- `IfcCompressorImpl::trim`. -/
def trim (str : Str) : Except Fault Str :=
  if str = [] then .ok []
  else if str = [' '] then .ok []
  else
    let s := toInt (findFirstNotOf str ' ')
    let e := toInt (findLastNotOf str ' ')
    substr str s (toInt (e - s + 1))

/-- The loop of `StandardContent(type, content, cite, islossy)`. -/
def standardLoop (round : Rounding) (type : Str) (islossy : Bool) (precision : Int) :
    List Str → Str → List Int → Except Fault (Str × List Int)
  | [], str, cite => .ok (str, cite)
  | pp :: tokens, str, cite => do
    let pp ← trim pp
    let c ← cutParens pp
    standardLoop round type islossy precision tokens
      (str ++ standardToken round type islossy precision c ++ [',']) (cite ++ c.cite.toList)

/-- `StandardContent(type, content, cite, islossy)`. -/
def standardContent (round : Rounding) (type content : Str) (islossy : Bool) (precision : Int) :
    Except Fault (Str × List Int) := do
  let (str, cite) ← standardLoop round type islossy precision (getlines ',' content) [] []
  return (← substr str 0 (str.length - 1), cite)

/-- The loop of `StandardContent(content, rel)`. -/
def standardLoopRel (rel : StdMap Int ℕ) : List Str → Str → Bool → Except Fault (Str × Bool)
  | [], newContent, allFind => .ok (newContent, allFind)
  | pp :: tokens, newContent, allFind => do
    let pp ← trim pp
    let c ← cutParens pp
    let (pp, found) := rename rel c
    standardLoopRel rel tokens (newContent ++ c.around pp ++ [',']) (allFind && found)

/-- `StandardContent(content, rel)`. -/
def standardContentRel (content : Str) (rel : StdMap Int ℕ) : Except Fault (Bool × Str) := do
  let (newContent, allFind) ← standardLoopRel rel (getlines ',' content) [] true
  let newContent ← substr newContent 0 (newContent.length - 1)
  return (allFind, if allFind then newContent else content)

/-- `IfcInstanceAna(instance, type, content, cite)`. -/
def ifcInstanceAna (mode : Mode) (line : Str) : Except Fault (Int × Str × Str × List Int) := do
  let line ← trim line
  let s := toInt (findFirstOf line '=')
  let index ← substr line 1 (s - 1)
  let id := atoi index
  let content ← substr line (s + 1) (line.length - s - 1)
  let s := toInt (findFirstOf content '(')
  let type ← substr content 0 s
  let type ← trim type
  let subContent ← substr content (s + 1) (findLastOf content ')' - s - 1)
  let (content, cite) ← standardContent mode.round type subContent mode.fpr mode.precision
  return (id, type, content, cite)

/-- The loop body over the lines up to `++totalCount`. -/
def body (line : Str) (p : Pending) : Except Fault (Str × Pending × Bool) := do
  let line ← trim line
  if line = [] then return (line, p, false)
  else if (← charAt line (line.length - 1)) ≠ ';' then
    if ¬ p.isPart then return (line, ⟨true, line⟩, false)
    else return (line, ⟨true, p.tmpPartial ++ line⟩, false)
  else if p.isPart then return (p.tmpPartial ++ line, ⟨false, []⟩, true)
  else return (line, p, true)

/-- What the parser does with an instance: it is read, and its content is rewritten by `rel`. -/
def parse (mode : Mode) (rel : StdMap Int ℕ) (line : Str) : Except Fault Unit := do
  let (_, _, content, _) ← ifcInstanceAna mode line
  let _ ← standardContentRel content rel
  return ()

/-- The parser on the lines of a DATA section. -/
def parseLines (mode : Mode) (rel : StdMap Int ℕ) : List Str → Pending → Except Fault Unit
  | [], _ => .ok ()
  | line :: lines, p => do
    let (line, p, complete) ← body line p
    if complete then parse mode rel line
    parseLines mode rel lines p

/-! ### Positions that an `int` holds -/

/-- A position that an `int` holds stays as it is. -/
theorem toInt_eq {n : Int} (h₀ : -1 ≤ n) (h₁ : n < 2 ^ 31) : toInt n = n := by
  rw [toInt, Int.bmod_eq_of_le] <;> omega

/-- `find_first_of` gives a place in the text, or `npos`. -/
theorem findFirstOf_bounds (s : Str) (c : Char) :
    -1 ≤ findFirstOf s c ∧ findFirstOf s c ≤ s.length := by
  have := (List.takeWhile_sublist (l := s) (· != c)).length_le
  unfold findFirstOf
  split <;> omega

/-- The last character that is no blank has a place that an `int` holds, and so has the number of
characters from the first such to it: neither of the sums in `trim` leaves the `int`. -/
def Counted (str : Str) : Prop :=
  findLastNotOf str ' ' < 2 ^ 31 ∧ findLastNotOf str ' ' - findFirstNotOf str ' ' + 1 < 2 ^ 31

instance (str : Str) : Decidable (Counted str) := by unfold Counted; infer_instance

/-- A text of fewer than `2 ^ 31` characters is counted. -/
theorem counted_of_length {str : Str} (h : str.length < 2 ^ 31) : Counted str := by
  have hlast : findLastNotOf str ' ' < str.length := by
    have := Int.natCast_nonneg (str.reverse.takeWhile (· == ' ')).length
    unfold findLastNotOf
    split <;> omega
  have hfirst : findFirstNotOf str ' ' = -1 ∧ findLastNotOf str ' ' = -1 ∨
      0 ≤ findFirstNotOf str ' ' := by
    unfold findFirstNotOf findLastNotOf
    split
    · exact .inl ⟨rfl, rfl⟩
    · exact .inr (Int.natCast_nonneg _)
  unfold Counted
  omega

/-- **`trim`** of a text that an `int` counts. -/
theorem trim_eq {str : Str} (h : Counted str) : trim str = Compression.trim str := by
  unfold trim Compression.trim
  by_cases hb : Blank ' ' str
  · have hf : findFirstNotOf str ' ' = -1 := if_pos (blank_iff_all.mp hb)
    have hl : findLastNotOf str ' ' = -1 := if_pos (blank_iff_all.mp hb)
    rw [hf, hl]
    rfl
  · obtain ⟨p, x, m, y, q, rfl, hp, hq, hx, hl, hy⟩ := exists_core hb
    rw [Counted, findLastNotOf_core hq hx hl hy, findFirstNotOf_core hp hx] at h
    rw [findFirstNotOf_core hp hx, findLastNotOf_core hq hx hl hy]
    simp only [toInt_eq (n := (p.length : Int)) (by omega) (by omega),
      toInt_eq (n := (p.length : Int) + m.length) (by omega) (by omega),
      toInt_eq (n := (p.length : Int) + m.length - p.length + 1) (by omega) (by omega)]

/-- A text without blanks at its ends may be longer: a count that has become negative stands for
all of it. -/
theorem trim_trimmed {str : Str} (ht : Trimmed ' ' str) (h : str.length < 2 ^ 32) :
    trim str = .ok str := by
  cases str with
  | nil => rfl
  | cons x m =>
      have hx : x ≠ ' ' := by simpa using ht.1
      obtain ⟨y, hy⟩ : ∃ y, (x :: m).getLast? = some y :=
        ⟨_, List.getLast?_eq_some_getLast (List.cons_ne_nil x m)⟩
      have hne : y ≠ ' ' := by simpa [hy] using ht.2
      have hf : findFirstNotOf (x :: m) ' ' = 0 := by
        simpa using findFirstNotOf_core (p := []) (m := m) (q := []) (by simp [Blank]) hx
      have hl : findLastNotOf (x :: m) ' ' = m.length := by
        simpa using findLastNotOf_core (p := []) (q := []) (by simp [Blank]) hx hy hne
      have hcount : toInt (toInt m.length - toInt 0 + 1) =
          if (m.length : Int) + 1 < 2 ^ 31 then (m.length : Int) + 1
          else (m.length : Int) + 1 - 2 ^ 32 := by
        rw [List.length_cons] at h
        simp only [toInt, Int.bmod_def]
        split_ifs <;> omega
      have hone : x :: m ≠ [' '] := fun he => hx (List.cons.inj he).1
      rw [trim, if_neg (List.cons_ne_nil x m), if_neg hone, hf, hl]
      show substr (x :: m) (toInt 0) (toInt (toInt m.length - toInt 0 + 1)) = _
      rw [hcount, toInt_eq (by decide) (by decide), substr_ok _ le_rfl (Int.natCast_nonneg _)]
      simp only [Int.toNat_zero, List.drop_zero]
      rw [List.length_cons] at h
      by_cases hshort : (m.length : Int) + 1 < 2 ^ 31
      · rw [if_pos hshort, if_neg (by omega)]
        refine congrArg _ (List.take_of_length_le ?_)
        rw [List.length_cons]
        omega
      · rw [if_neg hshort, if_pos (by omega)]

/-- So many blanks before a text that their count becomes negative stop `trim`. -/
theorem trim_deep {p m : Str} {x : Char} (hp : Blank ' ' p) (hx : x ≠ ' ')
    (h : 2 ^ 31 ≤ p.length % 2 ^ 32) : trim (p ++ x :: m) = .error .outOfRange := by
  have hf := findFirstNotOf_core (m := m) (q := []) hp hx
  rw [List.append_nil] at hf
  have hneg : toInt p.length < 0 := by
    rw [toInt, Int.bmod_def, if_neg (by omega)]
    omega
  have hne : p ++ x :: m ≠ [' '] := by
    intro he
    cases p with
    | nil => simp at h
    | cons c p => simp at he
  rw [trim, if_neg (by simp), if_neg hne, hf]
  exact if_pos (.inl hneg)

/-! What the parser cuts out of a text is no longer than the text. -/

theorem length_substr {s r : Str} {pos n : Int} (h : substr s pos n = .ok r) :
    r.length ≤ s.length := by
  unfold substr at h
  split at h
  · cases h
  · cases h
    split <;> simp only [List.length_take, List.length_drop] <;> omega

theorem length_trim {s r : Str} (h : Compression.trim s = .ok r) : r.length ≤ s.length := by
  unfold Compression.trim at h
  split at h
  · cases h
    exact Nat.zero_le _
  · split at h
    · cases h
      exact Nat.zero_le _
    · exact length_substr h

/-- A token is no longer than the text. -/
theorem length_getlines {d : Char} {s : Str} : ∀ l ∈ getlines d s, l.length ≤ s.length := by
  induction s with
  | nil => intro l hl; cases hl
  | cons c s ih =>
      intro l hl
      rw [getlines] at hl
      split at hl
      · rcases List.mem_cons.mp hl with rfl | hl
        · exact Nat.zero_le _
        · exact Nat.le_succ_of_le (ih l hl)
      · split at hl
        · rw [List.mem_singleton.mp hl]
          simp
        · rename_i m ms he
          rw [he] at ih
          rcases List.mem_cons.mp hl with rfl | hl
          · exact Nat.succ_le_succ (ih m (by simp))
          · exact Nat.le_succ_of_le (ih l (List.mem_cons_of_mem _ hl))

/-- Two computations that go on alike from what the first part returns. -/
theorem bind_congr_ok {α β : Type} {x : Except Fault α} {f g : α → Except Fault β}
    (h : ∀ a, x = .ok a → f a = g a) : x >>= f = x >>= g := by
  cases x with
  | error e => rfl
  | ok a => exact h a rfl

/-! ### The functions on short texts -/

theorem standardLoop_eq (round : Rounding) (type : Str) (islossy : Bool) (precision : Int)
    {ps : List Str} (h : ∀ t ∈ ps, Counted t) (str : Str) (cite : List Int) :
    standardLoop round type islossy precision ps str cite =
      Compression.standardLoop round type islossy precision ps str cite := by
  induction ps generalizing str cite with
  | nil => rfl
  | cons p ps ih =>
      rw [standardLoop, Compression.standardLoop, trim_eq (h p (by simp))]
      refine bind_congr_ok fun pp _ => bind_congr_ok fun c _ => ?_
      exact ih (fun t ht => h t (by simp [ht])) _ _

/-- The first `StandardContent` on a short content. -/
theorem standardContent_eq (round : Rounding) (type : Str) {content : Str}
    (h : content.length < 2 ^ 31) (islossy : Bool) (precision : Int) :
    standardContent round type content islossy precision =
      Compression.standardContent round type content islossy precision := by
  rw [standardContent, Compression.standardContent, standardLoop_eq]
  exact fun t ht => counted_of_length ((length_getlines t ht).trans_lt h)

/-- The loop over tokens without blanks at their ends, which may be longer. -/
theorem standardLoopRel_eq (rel : StdMap Int ℕ) {ps : List Str}
    (h : ∀ t ∈ ps, Trimmed ' ' t ∧ t.length < 2 ^ 32) (newContent : Str) (allFind : Bool) :
    standardLoopRel rel ps newContent allFind =
      Compression.standardLoopRel rel ps newContent allFind := by
  induction ps generalizing newContent allFind with
  | nil => rfl
  | cons p ps ih =>
      obtain ⟨ht, hl⟩ := h p (by simp)
      rw [standardLoopRel, Compression.standardLoopRel, trim_trimmed ht hl, trim_of_trimmed ht]
      refine bind_congr_ok fun pp _ => bind_congr_ok fun c _ => ?_
      exact ih (fun t ht => h t (by simp [ht])) _ _

/-- The content is normalised, and no token of it has `2 ^ 32` characters. -/
theorem standardContentRel_eq {ts : List Str} (h : ∀ t ∈ ts, NormToken t)
    (hl : ∀ t ∈ ts, t.length < 2 ^ 32) (rel : StdMap Int ℕ) :
    standardContentRel (joinWith ',' ts) rel =
      Compression.standardContentRel (joinWith ',' ts) rel := by
  rw [standardContentRel, Compression.standardContentRel, getlines_norm h,
    standardLoopRel_eq rel fun t ht => ⟨(h t ht).trimmed, hl t ht⟩]

/-- **The reader** of a line of fewer than `2 ^ 31` characters. -/
theorem ifcInstanceAna_eq (mode : Mode) {line : Str} (h : line.length < 2 ^ 31) :
    ifcInstanceAna mode line = Compression.ifcInstanceAna mode line := by
  rw [ifcInstanceAna, Compression.ifcInstanceAna, trim_eq (counted_of_length h)]
  refine bind_congr_ok fun line' hline => ?_
  have h₁ : line'.length < 2 ^ 31 := (length_trim hline).trans_lt h
  obtain ⟨hlow, hhigh⟩ := findFirstOf_bounds line' '='
  simp only [toInt_eq hlow (by omega)]
  refine bind_congr_ok fun index _ => bind_congr_ok fun content hcontent => ?_
  have h₂ : content.length < 2 ^ 31 := (length_substr hcontent).trans_lt h₁
  obtain ⟨hlow, hhigh⟩ := findFirstOf_bounds content '('
  simp only [toInt_eq hlow (by omega)]
  refine bind_congr_ok fun type htype => ?_
  rw [trim_eq (counted_of_length ((length_substr htype).trans_lt h₂))]
  refine bind_congr_ok fun type' _ => bind_congr_ok fun subContent hsub => ?_
  rw [standardContent_eq _ _ ((length_substr hsub).trans_lt h₂)]

/-- The loop body on a line that an `int` counts up to the blanks at its end. -/
theorem body_eq {line : Str} (h : Counted line) (p : Pending) :
    body line p = Compression.body line p := by
  rw [body, Compression.body, trim_eq h]

/-! ### The length of a normalised token -/

theorem length_strip (c : Char) (s : Str) : (strip c s).length ≤ s.length :=
  ((List.rdropWhile_prefix _ _).length_le).trans (List.dropWhile_sublist _).length_le

/-- A token has at most two parentheses more than what stands between them. -/
theorem length_around (c : Cut) (s : Str) : (c.around s).length ≤ s.length + 2 := by
  have hparen : ∀ b d, (paren b d).length ≤ 1 := by
    intro b d
    cases b <;> simp [paren]
  have hopen := hparen c.opened '('
  have hclose := hparen c.closed ')'
  simp only [Cut.around, List.length_append]
  omega

/-- A token is written as it was read, or as a number with the places that are asked for. -/
theorem length_standardToken (type : Str) (islossy : Bool) (p : Int) (t : Str) :
    (standardToken binary64 type islossy p (cutOf t)).length ≤ max t.length (places p + 313) := by
  unfold standardToken
  split
  · rw [cutOf_around]
    exact le_max_left _ _
  · simp only [coordinate]
    split
    · rw [cutOf_around]
      exact le_max_left _ _
    · have hput := length_putFixed_strtod p (cutOf t).pp
      have haround := length_around (cutOf t) (putFixed p (strtod binary64 (cutOf t).pp).1)
      exact le_max_of_le_right (by omega)

/-- No token of an instance that an `int` counts reaches `2 ^ 32` characters, rounded or not. -/
theorem length_tokensOf {mode : Mode} (hround : mode.round = binary64)
    (hp : mode.precision < 2 ^ 31) {line : Str} (h : line.length < 2 ^ 31) :
    ∀ t ∈ tokensOf mode line, t.length < 2 ^ 32 := by
  intro t ht
  obtain ⟨s, hs, rfl⟩ := List.mem_map.mp ht
  obtain ⟨l, hl, rfl⟩ := List.mem_map.mp hs
  have hargs : (argsText line).length ≤ line.length := by
    have hafter : ∀ (c : Char) (s : Str), (Cxx.after c s).length ≤ s.length := by
      intro c s
      unfold Cxx.after
      split
      · exact (List.tail_sublist _).length_le.trans (List.dropWhile_sublist _).length_le
      · exact le_rfl
    have hlast : ∀ (c : Char) (s : Str), (beforeLast c s).length ≤ s.length := by
      intro c s
      unfold beforeLast
      split
      · rw [List.length_reverse]
        have hdrop := (List.dropWhile_sublist (· != c) (l := s.reverse)).length_le
        rw [List.length_reverse] at hdrop
        exact (List.tail_sublist _).length_le.trans hdrop
      · exact le_rfl
    exact (hlast _ _).trans ((hafter _ _).trans (hafter _ _))
  have hstrip := (length_strip ' ' l).trans (length_getlines l hl)
  have hplaces : places mode.precision < 2 ^ 31 := by
    rw [places]
    split <;> omega
  have htoken := length_standardToken (typeOf line) mode.fpr mode.precision (strip ' ' l)
  rw [hround]
  omega

/-! ### The texts that the parser takes -/

section Takes

variable {mode : Mode} (hround : mode.round = binary64) (hprec : mode.precision < 2 ^ 31)
include hround hprec

/-- An instance is parsed, whatever is put for its references, when nothing stops its reader: its
normalised content has no blank token. -/
theorem parse_ok {line : Str} (hw : Whole line) (h : line.length < 2 ^ 31)
    (rel : StdMap Int ℕ) : parse mode rel line = .ok () ↔ Parses line := by
  rw [parse, ifcInstanceAna_eq mode h]
  by_cases hp : Parses line
  · have hnorm := tokensOf_norm mode hp hw.newline
    rw [Compression.ifcInstanceAna_eq mode hw.ne_nil hw.trimmed hw.newline hp]
    simp only [bind, Except.bind, pure, Except.pure,
      standardContentRel_eq hnorm (length_tokensOf hround hprec h),
      Compression.standardContentRel_eq rel hnorm, hp]
  · obtain ⟨e, he⟩ := ifcInstanceAna_error mode hw.ne_nil hw.trimmed hp
    rw [he]
    exact iff_of_false (by simp [bind, Except.bind]) hp

/-- **The parser on lines**, by induction on them: nothing stops it exactly when the lines and the
instances are clean. -/
theorem parseLines_ok {lines : List Str} {p : Pending}
    (hl : ∀ l ∈ lines, '\n' ∉ l) (hp : p.OK) (h : ∀ l ∈ lines, Counted l)
    (hj : ∀ l ∈ joined lines p, l.length < 2 ^ 31) (rel : StdMap Int ℕ) :
    parseLines mode rel lines p = .ok () ↔
      (∀ l ∈ lines, ¬ WideBlank l) ∧ ∀ l ∈ joined lines p, Parses l := by
  induction lines generalizing p with
  | nil => simp [parseLines, joined]
  | cons l lines ih =>
      rw [parseLines, body_eq (h l (by simp))]
      by_cases hw : WideBlank l
      · rw [body_of_wideBlank hw]
        exact iff_of_false (by simp [bind, Except.bind]) fun hc => hc.1 l (by simp) hw
      · rw [Compression.body_eq hw, joined]
        rw [joined] at hj
        obtain ⟨hok, hwhole⟩ := scan_ok (hl l (by simp)) hp
        have ih := @ih (scan l p).2.1 (fun m hm => hl m (by simp [hm])) hok
          fun m hm => h m (by simp [hm])
        rcases hs : scan l p with ⟨line, p', complete⟩
        rw [hs] at ih hj hwhole
        cases complete with
        | false =>
            -- the line waits for more: nothing is parsed
            simp only [Bool.false_eq_true, if_false] at hj ⊢
            refine (ih hj).trans ?_
            simp [hw]
        | true =>
            simp only [if_true] at hj ⊢
            have hline := parse_ok hround hprec (hwhole rfl) (hj line (by simp)) rel
            have ih := ih fun m hm => hj m (by simp [hm])
            simp only [bind, Except.bind]
            cases hparse : parse mode rel line with
            | error e =>
                rw [hparse] at hline
                refine iff_of_false (by simp) fun hc => ?_
                have := hline.mpr (hc.2 line (by simp))
                cases this
            | ok u =>
                refine ih.trans ?_
                simp [hw, hline.mp hparse]

end Takes

end Narrow

/-- The text of a DATA section stops none of `trim`, `IfcInstanceAna` and the two
`StandardContent`s. -/
def ParserSafe (mode : Mode) (text : Str) : Prop :=
  ∀ rel, Narrow.parseLines mode rel (getlines '\n' text) .start = .ok ()

/-- An `int` counts the characters of every line, up to the blanks at its end, and of every
instance that the lines join to. -/
structure ShortLines (text : Str) : Prop where
  lines : ∀ l ∈ getlines '\n' text, Narrow.Counted l
  instances : ∀ l ∈ joined (getlines '\n' text) .start, l.length < 2 ^ 31

/-- No line is made of two or more blanks; nor is the type of an instance, and no token of an
instance is empty or blank. -/
structure Clean (text : Str) : Prop where
  lines : ∀ l ∈ getlines '\n' text, ¬ WideBlank l
  instances : ∀ l ∈ joined (getlines '\n' text) .start, Parses l

/-- **Main result.**  The parser is safe on a clean text whose lines an `int` can count, and among
the texts with such lines on no other.  The precision is an `int`. -/
theorem parser_safe (fpr : Bool) {precision : Int} (hprec : precision < 2 ^ 31) (text : Str) :
    (ShortLines text ∧ Clean text → ParserSafe ⟨fpr, precision, binary64⟩ text) ∧
      (ShortLines text → ParserSafe ⟨fpr, precision, binary64⟩ text → Clean text) := by
  have hiff : ∀ _ : ShortLines text, ∀ rel,
      Narrow.parseLines ⟨fpr, precision, binary64⟩ rel (getlines '\n' text) .start = .ok () ↔
        (∀ l ∈ getlines '\n' text, ¬ WideBlank l) ∧
          ∀ l ∈ joined (getlines '\n' text) .start, Parses l :=
    fun h rel => Narrow.parseLines_ok rfl hprec (fun l hl => notMem_of_mem_getlines hl)
      Pending.start_ok h.lines h.instances rel
  constructor
  · rintro ⟨hshort, hclean⟩ rel
    exact (hiff hshort rel).mpr ⟨hclean.lines, hclean.instances⟩
  · intro hshort hsafe
    obtain ⟨hlines, hinst⟩ := (hiff hshort ∅).mp (hsafe ∅)
    exact ⟨hlines, hinst⟩

/-- Two instances with blanks, an empty line, and one instance on two lines. -/
def safeText : Str :=
  " #1 = IFCCARTESIANPOINT((1.25,-2.)); \n\n#2=A((#1 ,'x y'),\n$);\n".toList

/-- Its lines. -/
def safeLines : List Str :=
  [" #1 = IFCCARTESIANPOINT((1.25,-2.)); ".toList, [], "#2=A((#1 ,'x y'),".toList, "$);".toList]

/-- Blanks at the ends of a line, an empty line, and an instance over two lines. -/
theorem parser_safe_lines : ParserSafe ⟨true, 1, binary64⟩ safeText ∧ Clean safeText := by
  have hlines : getlines '\n' safeText = safeLines := by decide +kernel
  have hshort : ShortLines safeText := by
    constructor
    · rw [hlines]
      decide +kernel
    · rw [hlines]
      decide +kernel
  have hclean : Clean safeText := by
    constructor
    · rw [hlines]
      decide +kernel
    · rw [hlines]
      decide +kernel
  obtain ⟨hsafe, hnecessary⟩ := @parser_safe true 1 (by decide) safeText
  exact ⟨hsafe ⟨hshort, hclean⟩, hnecessary hshort (hsafe ⟨hshort, hclean⟩)⟩

/-- An empty attribute. -/
theorem not_parser_safe : ¬ ParserSafe ⟨false, 0, binary64⟩ "#1=A(1,,2);\n".toList := by
  intro h
  exact absurd (h ∅) (by decide +kernel)

end VulcanDB.Compression
