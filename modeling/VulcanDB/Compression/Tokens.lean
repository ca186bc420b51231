import VulcanDB.Library.Stream
import VulcanDB.Library.Numbers
import VulcanDB.Library.StdMap

/-!
# Compression — Tokens

The content of an IFC instance is cut at every comma.  A token is trimmed, loses at most one
parenthesis at either end, and is a reference when what is left begins with `#`.

The code has the loop twice: `standardContent` normalises a content and collects the ids it
cites, and `standardContentRel` replaces the cited ids once all of them have a base id.  Both cut
a token the same way (`cutParens`).  A blank token is outside what either handles: `trim` throws
on two blanks or more, and `pp[pp.size() - 1]` is read from an empty token.

* `standardContent_eq`: normalising, on contents with no blank token.
* `standardContentRel_eq`: rewriting, on contents that are already normalised.
-/

namespace VulcanDB.Compression

open Cxx

/-! ### `trim` -/

/-- `IfcCompressorImpl::trim`. -/
def trim (str : Str) : Except Fault Str :=
  if str = [] then .ok []
  else if str = [' '] then .ok []
  else
    let s := findFirstNotOf str ' '
    let e := findLastNotOf str ' '
    substr str s (e - s + 1)

/-- Two blanks or more, and nothing else. -/
def WideBlank (s : Str) : Prop := Blank ' ' s ∧ 2 ≤ s.length

instance (s : Str) : Decidable (WideBlank s) := by unfold WideBlank; infer_instance

/-- `trim` asks a text of two blanks or more for a negative position. -/
theorem trim_of_wideBlank {s : Str} (h : WideBlank s) : trim s = .error .outOfRange := by
  have h₀ : s ≠ [] := by rintro rfl; simp [WideBlank] at h
  have h₁ : s ≠ [' '] := by rintro rfl; simp [WideBlank] at h
  have h₂ : findFirstNotOf s ' ' = -1 := by
    rw [findFirstNotOf, if_pos (blank_iff_all.mp h.1)]
  simp [trim, h₀, h₁, h₂, substr]

/-- Any other text loses the blanks at its ends. -/
theorem trim_of_not_wideBlank {s : Str} (h : ¬ WideBlank s) : trim s = .ok (strip ' ' s) := by
  by_cases hb : Blank ' ' s
  · have hl : s.length < 2 := by by_contra hl; exact h ⟨hb, by omega⟩
    rw [strip_of_blank hb, trim]
    rcases s with _ | ⟨c, _ | ⟨d, s⟩⟩
    · rfl
    · obtain rfl := hb c (by simp)
      rfl
    · simp at hl
  · rw [trim, if_neg (by rintro rfl; simp [Blank] at hb),
      if_neg (by rintro rfl; simp [Blank] at hb)]
    exact substr_strip hb

theorem trim_of_trimmed {s : Str} (h : Trimmed ' ' s) : trim s = .ok s := by
  rw [trim_of_not_wideBlank, strip_of_trimmed h]
  rintro ⟨hb, hl⟩
  rw [← strip_of_trimmed h, strip_of_blank hb] at hl
  simp at hl

/-! ### One token -/

/-- A token without the parentheses at its ends, and which of them it had. -/
structure Cut where
  opened : Bool
  closed : Bool
  pp : Str
  deriving DecidableEq, Repr

/-- What every tokeniser does to a trimmed token `pp`. -/
def cutParens (pp : Str) : Except Fault Cut := do
  if (← charAt pp 0) = '(' then
    if (← charAt pp (pp.length - 1)) = ')' then
      return ⟨true, true, ← substr pp 1 (pp.length - 2)⟩
    else
      return ⟨true, false, ← substr pp 1 (pp.length - 1)⟩
  else if (← charAt pp (pp.length - 1)) = ')' then
    return ⟨false, true, ← substr pp 0 (pp.length - 1)⟩
  else
    return ⟨false, false, pp⟩

/-- A parenthesis that was cut off, if it was. -/
def paren (b : Bool) (c : Char) : Str := if b then [c] else []

/-- The token `pp` put back between its parentheses. -/
def Cut.around (c : Cut) (pp : Str) : Str := paren c.opened '(' ++ pp ++ paren c.closed ')'

/-- The id a token cites: `pp[0] == '#'`, then `atoi` of the rest. -/
def Cut.cite (c : Cut) : Option Int :=
  if c.pp.head? = some '#' then some (atoi c.pp.tail) else none

/-- The last character is a `)`. -/
def endsParen (s : Str) : Bool := s.getLast? = some ')'

/-- `cutParens` on a token that is not empty. -/
def cutOf : Str → Cut
  | '(' :: r => if endsParen r then ⟨true, true, r.dropLast⟩ else ⟨true, false, r⟩
  | t => if endsParen t then ⟨false, true, t.dropLast⟩ else ⟨false, false, t⟩

/-- The id a token cites, if it is a reference. -/
def citeOf (t : Str) : Option Int := (cutOf t).cite

/-- The last character of a text that is not empty. -/
theorem charAt_getLast {t : Str} (h : t ≠ []) : charAt t (t.length - 1) = .ok (t.getLast h) := by
  obtain ⟨r, c, rfl⟩ := List.eq_nil_or_concat t |>.resolve_left h
  simpa using charAt_last r c

theorem endsParen_iff {t : Str} (h : t ≠ []) : endsParen t = true ↔ t.getLast h = ')' := by
  simp [endsParen, List.getLast?_eq_some_getLast h]

/-- An empty token is indexed at its first character. -/
theorem cutParens_nil : cutParens [] = .error .badIndex := rfl

/-- Any other token is cut without a fault. -/
theorem cutParens_eq {t : Str} (h : t ≠ []) : cutParens t = .ok (cutOf t) := by
  obtain ⟨c, r, rfl⟩ := List.exists_cons_of_ne_nil h
  have hlast := charAt_getLast h
  simp only [cutParens, charAt_zero_cons, hlast, bind, Except.bind, pure, Except.pure]
  by_cases hc : c = '('
  · subst hc
    simp only [cutOf, if_true]
    rcases eq_or_ne r [] with rfl | hr
    · rfl
    · have hp := List.length_pos_of_ne_nil hr
      rw [List.getLast_cons hr]
      by_cases he : r.getLast hr = ')'
      · rw [if_pos he, if_pos ((endsParen_iff hr).mpr he),
          substr_ok _ (by omega) (by simp), if_neg (by simp; omega)]
        simp only [Int.toNat_one, List.drop_one, List.tail_cons]
        rw [List.dropLast_eq_take]
        congr 3
        simp; omega
      · rw [if_neg he, if_neg (fun e => he ((endsParen_iff hr).mp e)),
          substr_ok _ (by omega) (by simp), if_neg (by simp)]
        simp
  · have hcut : cutOf (c :: r) = if endsParen (c :: r) then ⟨false, true, (c :: r).dropLast⟩
        else ⟨false, false, c :: r⟩ := by
      rw [cutOf]
      rintro s ⟨rfl, -⟩
      exact hc rfl
    rw [hcut, if_neg hc]
    by_cases he : (c :: r).getLast h = ')'
    · rw [if_pos he, if_pos ((endsParen_iff h).mpr he),
        substr_ok _ (by omega) (by simp; omega), if_neg (by simp)]
      simp [List.dropLast_eq_take]
    · rw [if_neg he, if_neg fun e => he ((endsParen_iff h).mp e)]

theorem dropLast_append_paren {t : Str} (h : endsParen t = true) : t.dropLast ++ [')'] = t := by
  obtain ⟨r, rfl⟩ := List.getLast?_eq_some_iff.mp (by simpa [endsParen] using h)
  simp

/-- Putting the parentheses back restores the token. -/
theorem cutOf_around (t : Str) : (cutOf t).around (cutOf t).pp = t := by
  unfold cutOf
  split
  · split
    · rename_i h; simp [Cut.around, paren, dropLast_append_paren h]
    · simp [Cut.around, paren]
  · split
    · rename_i h; simp [Cut.around, paren, dropLast_append_paren h]
    · simp [Cut.around, paren]

/-- A text without parentheses, put between those of a token, is cut out again. -/
theorem cutOf_around_of_plain (c : Cut) {s : Str} (hs : s ≠ [])
    (hp : ∀ x ∈ s, x ≠ '(' ∧ x ≠ ')') : cutOf (c.around s) = ⟨c.opened, c.closed, s⟩ := by
  obtain ⟨opened, closed, pp⟩ := c
  obtain ⟨x, r, rfl⟩ := List.exists_cons_of_ne_nil hs
  have hx : x ≠ '(' := (hp x (by simp)).1
  have hend : endsParen (x :: r) = false := by
    simp only [endsParen, decide_eq_false_iff_not]
    exact fun h => (hp ')' (List.mem_of_getLast? h)).2 rfl
  have hend' : endsParen (x :: r ++ [')']) = true := by
    simp only [endsParen, List.getLast?_append, List.getLast?_singleton]; rfl
  have hdrop : (x :: r ++ [')']).dropLast = x :: r := List.dropLast_concat
  have hcut : ∀ t, cutOf (x :: t) = if endsParen (x :: t) then ⟨false, true, (x :: t).dropLast⟩
      else ⟨false, false, x :: t⟩ := by
    intro t
    rw [cutOf]
    rintro r ⟨rfl, -⟩
    exact hx rfl
  cases opened <;> cases closed
  · show cutOf (x :: r ++ []) = _
    rw [List.append_nil, hcut, hend]; rfl
  · show cutOf (x :: (r ++ [')'])) = _
    rw [hcut, ← List.cons_append, hend', hdrop]; rfl
  · show cutOf ('(' :: (x :: r ++ [])) = _
    rw [List.append_nil, cutOf, hend]; rfl
  · show cutOf ('(' :: (x :: r ++ [')'])) = _
    rw [cutOf, hend', hdrop]; rfl

/-! ### Normalising a content -/

variable {round : Rounding}

/-- What a token that is no reference becomes: itself, or in lossy mode a coordinate of a
cartesian point rounded to `precision` places.  The three copies of the test differ: only the one
for a token that had a `(` accepts a `)` where the number stops. -/
def coordinate (round : Rounding) (type : Str) (islossy : Bool) (precision : Int) (c : Cut) : Str :=
  let (dat, sptr) := strtod round c.pp
  let stops := sptr = [] ∨ (c.opened ∧ sptr = [')'])
  if ¬ stops ∨ type ≠ "IFCCARTESIANPOINT".toList ∨ ¬ islossy then c.pp
  else putFixed precision dat

/-- A token in the normalised content: a citation as it stands, any other as `coordinate` gives
it. -/
def standardToken (round : Rounding) (type : Str) (islossy : Bool) (precision : Int)
    (c : Cut) : Str :=
  match c.cite with
  | some _ => c.around c.pp
  | none => c.around (coordinate round type islossy precision c)

/-- The loop of `standardContent` over the tokens, with `str` and `cite`. -/
def standardLoop (round : Rounding) (type : Str) (islossy : Bool) (precision : Int) :
    List Str → Str → List Int → Except Fault (Str × List Int)
  | [], str, cite => .ok (str, cite)
  | pp :: tokens, str, cite => do
    let pp ← trim pp
    let c ← cutParens pp
    standardLoop round type islossy precision tokens
      (str ++ standardToken round type islossy precision c ++ [',']) (cite ++ c.cite.toList)

/-- `StandardContent(type, content, cite, islossy)`: the normalised content and the cited ids. -/
def standardContent (round : Rounding) (type content : Str) (islossy : Bool) (precision : Int) :
    Except Fault (Str × List Int) := do
  let (str, cite) ← standardLoop round type islossy precision (getlines ',' content) [] []
  return (← substr str 0 (str.length - 1), cite)

/-- A token as `standardContent` writes it. -/
structure NormToken (t : Str) : Prop where
  ne_nil : t ≠ []
  comma : ',' ∉ t
  newline : '\n' ∉ t
  trimmed : Trimmed ' ' t

/-- The trimmed tokens of a content. -/
def tokens (content : Str) : List Str := (getlines ',' content).map (strip ' ')

/-- No token of the content is blank. -/
def NoBlankToken (content : Str) : Prop := ∀ t ∈ getlines ',' content, ¬ Blank ' ' t

instance (content : Str) : Decidable (NoBlankToken content) := by
  unfold NoBlankToken; infer_instance

/-- The normalised content of trimmed tokens. -/
def normalised (round : Rounding) (type : Str) (islossy : Bool) (precision : Int)
    (ts : List Str) : Str :=
  joinWith ',' (ts.map fun t => standardToken round type islossy precision (cutOf t))

/-- The tokens of a content without blank ones are normalised. -/
theorem tokens_norm {content : Str} (h : NoBlankToken content) (hl : '\n' ∉ content) :
    ∀ t ∈ tokens content, NormToken t := by
  intro t ht
  obtain ⟨s, hs, rfl⟩ := List.mem_map.mp ht
  exact ⟨fun e => h s hs (strip_eq_nil.mp e),
    fun hc => notMem_of_mem_getlines hs (mem_of_mem_strip hc),
    fun hc => hl (mem_of_mem_getlines hs (mem_of_mem_strip hc)), strip_trimmed ' ' s⟩

/-- What is put between the parentheses of a token decides whether it stays normalised. -/
theorem around_norm (c : Cut) {s : Str} (hs : s ≠ [])
    (hp : ∀ x ∈ s, x ≠ ',' ∧ x ≠ '\n' ∧ x ≠ ' ') : NormToken (c.around s) := by
  have hmem : ∀ x ∈ c.around s, x ≠ ',' ∧ x ≠ '\n' ∧ x ≠ ' ' := by
    intro x hx
    have hparen : ∀ b, ∀ y ∈ paren b '(' ++ paren b ')', y ≠ ',' ∧ y ≠ '\n' ∧ y ≠ ' ' := by decide
    simp only [Cut.around, List.mem_append, or_assoc] at hx
    rcases hx with hx | hx | hx
    · exact hparen _ x (List.mem_append_left _ hx)
    · exact hp x hx
    · exact hparen _ x (List.mem_append_right _ hx)
  exact ⟨by simp [Cut.around, hs], fun h => (hmem _ h).1 rfl, fun h => (hmem _ h).2.1 rfl,
    fun h => (hmem _ (List.mem_of_head? h)).2.2 rfl,
    fun h => (hmem _ (List.mem_of_getLast? h)).2.2 rfl⟩

/-- **The loop over the tokens**: each is written as `standardToken` says, and the ids cited are
kept in their order. -/
theorem standardLoop_eq (type : Str) (islossy : Bool) (precision : Int) {ps : List Str}
    (h : ∀ t ∈ ps, ¬ Blank ' ' t) (str : Str) (cite : List Int) :
    standardLoop round type islossy precision ps str cite =
      .ok (str ++ terminated ',' ((ps.map (strip ' ')).map fun t =>
          standardToken round type islossy precision (cutOf t)),
        cite ++ (ps.map (strip ' ')).filterMap citeOf) := by
  induction ps generalizing str cite with
  | nil => simp [standardLoop]
  | cons p ps ih =>
      have hp : ¬ Blank ' ' p := h p (by simp)
      have hs : strip ' ' p ≠ [] := fun e => hp (strip_eq_nil.mp e)
      rw [standardLoop, trim_of_not_wideBlank (fun hw => hp hw.1)]
      simp only [bind, Except.bind, cutParens_eq hs]
      rw [ih fun t ht => h t (by simp [ht])]
      simp only [List.map_cons, terminated_cons, List.append_assoc, List.singleton_append]
      congr 2
      cases hc : citeOf (strip ' ' p) <;> simp only [citeOf] at hc <;> simp [hc, citeOf]

/-- A blank token stops the loop: by the exception of `trim`, or at the empty token. -/
theorem standardLoop_blank (type : Str) (islossy : Bool) (precision : Int) (ps : List Str)
    (h : ∃ t ∈ ps, Blank ' ' t) (str : Str) (cite : List Int) :
    ∃ e, standardLoop round type islossy precision ps str cite = .error e := by
  induction ps generalizing str cite with
  | nil => simp at h
  | cons p ps ih =>
      rw [standardLoop]
      by_cases hw : WideBlank p
      · exact ⟨.outOfRange, by rw [trim_of_wideBlank hw]; rfl⟩
      · rw [trim_of_not_wideBlank hw]
        by_cases hp : Blank ' ' p
        · exact ⟨.badIndex, by simp only [strip_of_blank hp, bind, Except.bind, cutParens_nil]⟩
        · simp only [bind, Except.bind, cutParens_eq fun e => hp (strip_eq_nil.mp e)]
          refine ih ?_ _ _
          obtain ⟨t, ht, hb⟩ := h
          rcases List.mem_cons.mp ht with rfl | ht
          · exact absurd hb hp
          · exact ⟨t, ht, hb⟩

/-- **`StandardContent`** on a content without blank tokens. -/
theorem standardContent_eq (type : Str) {content : Str} (h : NoBlankToken content)
    (islossy : Bool) (precision : Int) : standardContent round type content islossy precision =
      .ok (normalised round type islossy precision (tokens content),
        (tokens content).filterMap citeOf) := by
  rw [standardContent, standardLoop_eq _ _ _ h]
  simp only [bind, Except.bind, pure, Except.pure, substr_dropLast, List.nil_append,
    dropLast_terminated]
  rfl

theorem standardContent_blank (type : Str) {content : Str} (h : ¬ NoBlankToken content)
    (islossy : Bool) (precision : Int) :
    ∃ e, standardContent round type content islossy precision = .error e := by
  obtain ⟨e, he⟩ := standardLoop_blank type islossy precision (getlines ',' content)
    (by simpa [NoBlankToken] using h) [] []
  exact ⟨e, by rw [standardContent, he]; rfl⟩

/-- In lossless mode a token is written as it was read. -/
theorem standardToken_lossless (type : Str) (precision : Int) (t : Str) :
    standardToken round type false precision (cutOf t) = t := by
  unfold standardToken
  split
  · exact cutOf_around t
  · simp [coordinate, cutOf_around]

/-- In either mode a token keeps its form, its parentheses and the id it cites. -/
theorem standardToken_norm (type : Str) (islossy : Bool) (precision : Int) {t : Str}
    (h : NormToken t) : NormToken (standardToken round type islossy precision (cutOf t)) ∧
      citeOf (standardToken round type islossy precision (cutOf t)) = citeOf t := by
  unfold standardToken
  split
  · rw [cutOf_around]; exact ⟨h, rfl⟩
  · rename_i hc
    simp only [coordinate]
    split
    · rw [cutOf_around]; exact ⟨h, rfl⟩
    · obtain ⟨hne, hp⟩ := putFixed_plain precision (strtod round (cutOf t).pp).1
      refine ⟨around_norm _ hne fun x hx =>
        ⟨(hp x hx).ne rfl, (hp x hx).ne rfl, (hp x hx).ne rfl⟩, ?_⟩
      rw [citeOf, cutOf_around_of_plain _ hne fun x hx => ⟨(hp x hx).ne rfl, (hp x hx).ne rfl⟩,
        citeOf, hc, Cut.cite, if_neg]
      exact fun h => (hp _ (List.mem_of_head? h)).ne rfl rfl

/-! ### Rewriting the references -/

/-- What is put for `pp` by `StandardContent(content, rel)`, and whether `rel` had the cited id. -/
def rename (rel : StdMap Int ℕ) (c : Cut) : Str × Bool :=
  match c.cite with
  | none => (c.pp, true)
  | some id =>
    match rel.find id with
    | none => (c.pp, false)
    | some baseID => ('#' :: dec baseID, true)

/-- The loop of `StandardContent(content, rel)`, with `newContent` and `allFind`. -/
def standardLoopRel (rel : StdMap Int ℕ) : List Str → Str → Bool → Except Fault (Str × Bool)
  | [], newContent, allFind => .ok (newContent, allFind)
  | pp :: tokens, newContent, allFind => do
    let pp ← trim pp
    let c ← cutParens pp
    let (pp, found) := rename rel c
    standardLoopRel rel tokens (newContent ++ c.around pp ++ [',']) (allFind && found)

/-- `StandardContent(content, rel)`: whether every cited id was found, and the new content, which
is the old one when one was not. -/
def standardContentRel (content : Str) (rel : StdMap Int ℕ) : Except Fault (Bool × Str) := do
  let (newContent, allFind) ← standardLoopRel rel (getlines ',' content) [] true
  let newContent ← substr newContent 0 (newContent.length - 1)
  return (allFind, if allFind then newContent else content)

/-- A token with the id it cites replaced by its base id. -/
def renamed (rel : StdMap Int ℕ) (t : Str) : Str := (cutOf t).around (rename rel (cutOf t)).1

/-- **The loop that puts base ids for citations**, on normalised tokens. -/
theorem standardLoopRel_eq (rel : StdMap Int ℕ) {ts : List Str} (h : ∀ t ∈ ts, NormToken t)
    (newContent : Str) (allFind : Bool) :
    standardLoopRel rel ts newContent allFind =
      .ok (newContent ++ terminated ',' (ts.map (renamed rel)),
        allFind && ts.all fun t => (rename rel (cutOf t)).2) := by
  induction ts generalizing newContent allFind with
  | nil => simp [standardLoopRel]
  | cons t ts ih =>
      have ht := h t (by simp)
      rw [standardLoopRel, trim_of_trimmed ht.trimmed]
      simp only [bind, Except.bind, cutParens_eq ht.ne_nil]
      rw [ih fun s hs => h s (by simp [hs])]
      simp [renamed, Bool.and_assoc]

/-- Normalised tokens are cut where they were joined. -/
theorem getlines_norm {ts : List Str} (h : ∀ t ∈ ts, NormToken t) :
    getlines ',' (joinWith ',' ts) = ts :=
  getlines_joinWith (fun t ht => (h t ht).comma) fun hl => (h [] (List.mem_of_getLast? hl)).ne_nil rfl

/-- A content is rewritten as a whole or, when an id is missing, not at all. -/
theorem standardContentRel_eq (rel : StdMap Int ℕ) {ts : List Str} (h : ∀ t ∈ ts, NormToken t) :
    standardContentRel (joinWith ',' ts) rel =
      .ok (ts.all fun t => (rename rel (cutOf t)).2,
        joinWith ',' (if ts.all fun t => (rename rel (cutOf t)).2 then ts.map (renamed rel)
          else ts)) := by
  rw [standardContentRel, getlines_norm h, standardLoopRel_eq rel h]
  simp only [bind, Except.bind, pure, Except.pure, substr_dropLast, List.nil_append,
    dropLast_terminated, Bool.true_and]
  split <;> rfl

end VulcanDB.Compression
