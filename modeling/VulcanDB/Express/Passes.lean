import VulcanDB.Express.Tables

/-!
# EXPRESS — The two passes

The first pass knows blanks and semicolons, and the words `TYPE` and `ENTITY`; the second follows
the rules of the lexer and the grammar.

* `words_append`: the words of a text that is cut in two.
* `heads_tokens`: the keywords among the tokens of a text, and the names that it declares.
* `registrations_spelled`: what the first pass finds where the keywords are spelled for it.
* `passes_agree`: on which texts the passes agree.
-/

namespace VulcanDB.Express

open Cxx Steps

/-! ### Words -/

/-- The text ends with a separator, or is empty. -/
def EndsApart (s : Str) : Prop := ∀ c, s.getLast? = some c → isSeparator c = true

/-- It begins with one, or is empty. -/
def BeginsApart (s : Str) : Prop := ∀ c, s.head? = some c → isSeparator c = true

instance (s : Str) : Decidable (EndsApart s) :=
  match h : s.getLast? with
  | none => isTrue fun _ hc => by rw [h] at hc; cases hc
  | some d => decidable_of_iff (isSeparator d = true)
      ⟨fun hd _ hc => by rw [h] at hc; exact Option.some.inj hc ▸ hd, fun hs => hs d h⟩

instance (s : Str) : Decidable (BeginsApart s) :=
  match s with
  | [] => isTrue fun _ h => nomatch h
  | d :: _ => decidable_of_iff (isSeparator d = true)
      ⟨fun hd _ hc => Option.some.inj hc ▸ hd, fun hs => hs d rfl⟩

theorem EndsApart.suffix {a b : Str} (h : EndsApart (a ++ b)) : EndsApart b := by
  intro c hc
  refine h c ?_
  rw [List.getLast?_append, hc]
  rfl

theorem words_nil : words [] = [] := words_of_not_hasNext (by decide)

theorem words_cons {c : Char} (hc : isSeparator c = true) (s : Str) : words (c :: s) = words s := by
  have hnext : hasNext (c :: s) = hasNext s := by simp [hasNext, hc]
  have htoken : nextToken (c :: s) = nextToken s := by
    simp only [nextToken, List.dropWhile_cons_of_pos hc]
  by_cases h : hasNext s = true
  · rw [words_of_hasNext h, words_of_hasNext (hnext.trans h), htoken]
  · rw [words_of_not_hasNext h, words_of_not_hasNext (hnext ▸ h)]

/-- Characters of no separator are one word, up to a separator. -/
theorem words_append_word {w r : Str} (hw : w ≠ []) (hword : ∀ c ∈ w, isSeparator c = false)
    (hr : BeginsApart r) : words (w ++ r) = w :: words r := by
  have hpos : ∀ c ∈ w, (!isSeparator c) = true := fun c hc => by rw [hword c hc]; rfl
  have hdrop : (w ++ r).dropWhile isSeparator = w ++ r := by
    cases w with
    | nil => exact absurd rfl hw
    | cons c w => exact List.dropWhile_cons_of_neg (by simp [hword c])
  have hstop : r.takeWhile (fun c => !isSeparator c) = [] ∧
      r.dropWhile (fun c => !isSeparator c) = r := by
    cases r with
    | nil => exact ⟨rfl, rfl⟩
    | cons c r => simp [hr c rfl]
  have htoken : nextToken (w ++ r) = (w, r) := by
    simp only [nextToken, hdrop]
    rw [List.takeWhile_append_of_pos hpos, List.dropWhile_append_of_pos hpos, hstop.1, hstop.2,
      List.append_nil]
  have hnext : hasNext (w ++ r) = true := by
    rw [← Bool.not_eq_false]
    exact mt nextToken_eq_nil.mpr (by rw [htoken]; exact hw)
  rw [words_of_hasNext hnext, htoken]

/-- The word that a text begins with, and what follows it. -/
theorem exists_word {c : Char} {s : Str} (hc : isSeparator c = false) : ∃ w r, c :: s = w ++ r ∧
    w ≠ [] ∧ (∀ d ∈ w, isSeparator d = false) ∧ BeginsApart r := by
  refine ⟨(c :: s).takeWhile fun c => !isSeparator c, (c :: s).dropWhile fun c => !isSeparator c,
    List.takeWhile_append_dropWhile.symm, ?_, fun d hd => ?_, fun d hd => ?_⟩
  · rw [List.takeWhile_cons_of_pos (by simp [hc])]
    exact List.cons_ne_nil _ _
  · simpa using List.mem_takeWhile_imp hd
  · have hhead := List.head?_dropWhile_not (fun c => !isSeparator c) (c :: s)
    rw [hd] at hhead
    simpa using hhead

/-- **The words of a text that is cut in two** beside a separator. -/
theorem words_append {a b : Str} (h : EndsApart a ∨ BeginsApart b) :
    words (a ++ b) = words a ++ words b := by
  induction hn : a.length using Nat.strong_induction_on generalizing a with
  | _ n ih =>
    cases a with
    | nil => rw [words_nil, List.nil_append, List.nil_append]
    | cons c a =>
        cases hc : isSeparator c with
        | true =>
            rw [List.cons_append, words_cons hc, words_cons hc]
            exact ih a.length (by simp [← hn]) (h.imp_left fun ha => ha.suffix (a := [c])) rfl
        | false =>
            obtain ⟨w, r, heq, hw, hword, hr⟩ := exists_word (s := a) hc
            rw [heq] at h hn ⊢
            have hrest : BeginsApart (r ++ b) := by
              cases r with
              | cons d r => exact hr
              | nil =>
                  -- the cut is at the end of the word
                  refine h.resolve_left fun hends => ?_
                  rw [List.append_nil] at hends
                  have hlast := hends _ (List.getLast?_eq_some_getLast hw)
                  rw [hword _ (List.getLast_mem hw)] at hlast
                  cases hlast
            have hlen : r.length < n := by
              rw [← hn, List.length_append]
              exact Nat.lt_add_of_pos_left (List.length_pos_iff.mpr hw)
            rw [List.append_assoc, words_append_word hw hword hrest, words_append_word hw hword hr,
              ih r.length hlen (h.imp_left fun ha => ha.suffix) rfl, List.cons_append]

/-- Separators have no words. -/
theorem words_append_separators {a s : Str} (h : ∀ c ∈ a, isSeparator c = true) :
    words (a ++ s) = words s := by
  induction a with
  | nil => rfl
  | cons c a ih =>
      obtain ⟨hc, ha⟩ := List.forall_mem_cons.mp h
      rw [List.cons_append, words_cons hc, ih ha]

/-! ### Names that are announced -/

/-- The word announces a name. -/
def isAnnouncing (w : Str) : Bool := (announces w).isSome

/-- Words that are no keywords enter nothing. -/
theorem registrations_append {ws ws' : List Str} (h : ∀ w ∈ ws, isAnnouncing w = false) :
    registrations (ws ++ ws') = registrations ws' := by
  induction ws with
  | nil => rfl
  | cons w ws ih =>
      obtain ⟨hw, hws⟩ := List.forall_mem_cons.mp h
      have hnone : announces w = none := by simpa [isAnnouncing] using hw
      rw [List.cons_append, registrations, hnone]
      exact ih hws

/-- Where no name that is entered announces another, every word that announces enters one. -/
theorem registrations_length {ws : List Str} (hall : (registrations ws).2 = true)
    (h : ∀ r ∈ (registrations ws).1, isAnnouncing r.2 = false) :
    (registrations ws).1.length = ws.countP isAnnouncing := by
  fun_induction registrations ws with
  | case1 => rfl
  | case2 w ws hnone ih =>
      have hw : isAnnouncing w = false := by simp [isAnnouncing, hnone]
      rw [ih hall h, List.countP_cons_of_neg (by simp [hw])]
  | case3 w k hk => cases hall
  | case4 w k hk name ws ih =>
      obtain ⟨hname, h⟩ := List.forall_mem_cons.mp h
      have hw : isAnnouncing w = true := by simp [isAnnouncing, hk]
      rw [List.length_cons, ih hall h, List.countP_cons_of_pos hw,
        List.countP_cons_of_neg (by simpa using hname)]

/-! ### Names that are declared -/

/-- The kinds and the names of declarations. -/
def namesDeclared (ds : List Declaration) : List (Kind × Str) :=
  ds.filterMap fun d => d.name.map fun n => (d.kind, n)

/-- The names that a text declares. -/
def declared (text : Str) : List (Kind × Str) := namesDeclared (schema (tokens text)).1

/-- The names after the keywords of tokens, where each of these has one after it. -/
inductive Heads : List Token → List (Kind × Str) → Prop where
  | nil : Heads [] []
  | inner {t : Token} {ts : List Token} {ds : List (Kind × Str)} (ht : t.Inner) (h : Heads ts ds) :
    Heads (t :: ts) ds
  | keyword {k : Kind} {n : Str} {ts : List Token} {ds : List (Kind × Str)} (h : Heads ts ds) :
    Heads (k.token :: .entityName n :: ts) ((k, n) :: ds)

/-- What an action has read begins no declaration. -/
theorem Heads.leaves {ts rest : List Token} {ds : List (Kind × Str)} (h : Heads rest ds)
    (hl : Leaves ts rest) : Heads ts ds := by
  obtain ⟨used, rfl, hused⟩ := hl
  induction used with
  | nil => exact h
  | cons t used ih =>
      obtain ⟨ht, hused⟩ := List.forall_mem_cons.mp hused
      exact .inner ht (ih hused)

theorem heads_declarations {ts : List Token} (h : (declarations ts).2 = true) :
    Heads ts (namesDeclared (declarations ts).1) := by
  fun_induction declarations ts with
  | case1 ts hnone =>
      rw [of_decide_eq_true h]
      exact .inner (by decide) (.inner (by decide) .nil)
  | case2 ts d rest hd ih =>
      obtain ⟨n, ts', rfl, hl, hname, -⟩ := declaration_spec hd
      have hnames : namesDeclared (d :: (declarations rest).1) =
          (d.kind, n) :: namesDeclared (declarations rest).1 := by
        simp [namesDeclared, hname]
      rw [hnames]
      exact .keyword ((ih h).leaves hl)

/-- **The keywords among the tokens** are those of the names declared. -/
theorem heads_tokens {text : Str} (h : (schema (tokens text)).2 = true) :
    Heads (tokens text) (declared text) := by
  unfold declared
  generalize tokens text = ts at h ⊢
  unfold schema at h ⊢
  split at h
  · rename_i l ts
    obtain ⟨h, -⟩ := Bool.and_eq_true_iff.mp h
    exact .inner (by decide) (.inner (by simp [Token.Inner]) (.inner (by decide)
      (heads_declarations h)))
  · cases h

theorem not_inner_token (k : Kind) : ¬ k.token.Inner := by
  cases k <;> decide

/-- Tokens without a keyword declare nothing. -/
theorem Heads.eq_nil {ts : List Token} {ds : List (Kind × Str)} (h : Heads ts ds)
    (hts : ∀ t ∈ ts, t.Inner) : ds = [] := by
  induction h with
  | nil => rfl
  | inner ht h ih => exact ih fun t h => hts t (List.mem_cons_of_mem _ h)
  | keyword h ih => exact absurd (hts _ List.mem_cons_self) (not_inner_token _)

theorem Kind.token_injective : Function.Injective Kind.token := by
  intro k k' h
  cases k <;> cases k' <;> first | rfl | cases h

/-- What the first token begins. -/
theorem Heads.cases_cons {t : Token} {ts : List Token} {ds : List (Kind × Str)}
    (h : Heads (t :: ts) ds) : (t.Inner ∧ Heads ts ds) ∨ ∃ k n ts' ds',
      t = k.token ∧ ts = .entityName n :: ts' ∧ ds = (k, n) :: ds' ∧ Heads ts' ds' := by
  generalize hall : t :: ts = all at h
  cases h with
  | nil => cases hall
  | inner ht h =>
      obtain ⟨rfl, rfl⟩ := List.cons.inj hall
      exact .inl ⟨ht, h⟩
  | keyword h =>
      obtain ⟨rfl, rfl⟩ := List.cons.inj hall
      exact .inr ⟨_, _, _, _, rfl, rfl, rfl, h⟩

/-- The name after the first keyword. -/
theorem Heads.first {used ts : List Token} {k : Kind} {ds : List (Kind × Str)}
    (h : Heads (used ++ k.token :: ts) ds) (hused : ∀ t ∈ used, t.Inner) :
    ∃ n ts' ds', ts = .entityName n :: ts' ∧ ds = (k, n) :: ds' ∧ Heads ts' ds' := by
  induction used with
  | nil =>
      rcases h.cases_cons with ⟨ht, -⟩ | ⟨k', n, ts', ds', hk, hts, hds, h⟩
      · exact absurd ht (not_inner_token k)
      · rw [Kind.token_injective hk]
        exact ⟨n, ts', ds', hts, hds, h⟩
  | cons t used ih =>
      obtain ⟨ht, hused⟩ := List.forall_mem_cons.mp hused
      rcases h.cases_cons with ⟨-, h⟩ | ⟨k', n, ts', ds', rfl, -⟩
      · exact ih h hused
      · exact absurd ht (not_inner_token k')

/-! ### Keywords as the first pass reads them -/

/-- The text of the pieces. -/
def spell (ps : List Piece) : Str := ps.flatMap (·.text)

theorem spell_append (ps ps' : List Piece) : spell (ps ++ ps') = spell ps ++ spell ps' :=
  List.flatMap_append

/-- The tokens of pieces, up to the end of the input. -/
def tokensOf (ps : List Piece) : List Token :=
  (ps.filterMap (·.token)).takeWhile fun t => !t.isEnd

/-- The scanner ends here. -/
def Piece.isEnd (p : Piece) : Bool := p.token.any Token.isEnd

/-- The token of a piece, and those of the others. -/
theorem tokensOf_cons {p : Piece} (hp : p.isEnd = false) (ps : List Piece) :
    tokensOf (p :: ps) = p.token.toList ++ tokensOf ps := by
  cases ht : p.token with
  | none => simp [tokensOf, ht]
  | some t =>
      have hend : t.isEnd = false := by simpa [Piece.isEnd, ht] using hp
      simp [tokensOf, ht, hend]

theorem tokensOf_append {ps : List Piece} (h : ∀ p ∈ ps, p.isEnd = false) (ps' : List Piece) :
    tokensOf (ps ++ ps') = tokensOf ps ++ tokensOf ps' := by
  induction ps with
  | nil => rfl
  | cons p ps ih =>
      obtain ⟨hp, hps⟩ := List.forall_mem_cons.mp h
      rw [List.cons_append, tokensOf_cons hp, tokensOf_cons hp, ih hps, List.append_assoc]

/-- The keyword, as the first pass knows it. -/
def Kind.word : Kind → Str
  | .type => "TYPE".toList
  | .entity => "ENTITY".toList

/-- The keyword is a word of its own in capital letters, and so is the name after it. -/
structure Spelled (before : Str) (k : Kind) (p : Piece) (after : List Piece) : Prop where
  word : p.text = k.word
  apart : EndsApart before
  blank : spell (after.takeWhile (·.token.isNone)) ≠ []
  separators : ∀ c ∈ spell (after.takeWhile (·.token.isNone)), isSeparator c = true
  name : BeginsApart (spell (after.dropWhile (·.token.isNone)).tail)

instance (before : Str) (k : Kind) (p : Piece) (after : List Piece) :
    Decidable (Spelled before k p after) :=
  decidable_of_iff (_ ∧ _ ∧ _ ∧ _ ∧ _)
    ⟨fun h => ⟨h.1, h.2.1, h.2.2.1, h.2.2.2.1, h.2.2.2.2⟩, fun h => ⟨h.1, h.2, h.3, h.4, h.5⟩⟩

/-- Every keyword that is read, after the text `before`. -/
def KeywordsSpelled (before : Str) : List Piece → Prop
  | [] => True
  | p :: ps =>
    (p.token = some Kind.type.token → Spelled before .type p ps) ∧
    (p.token = some Kind.entity.token → Spelled before .entity p ps) ∧
    (p.isEnd = false → KeywordsSpelled (before ++ p.text) ps)

/-- Whether the keywords are spelled so. -/
def decideKeywordsSpelled : (before : Str) → (ps : List Piece) → Decidable (KeywordsSpelled before ps)
  | _, [] => isTrue trivial
  | before, p :: ps =>
    have := decideKeywordsSpelled (before ++ p.text) ps
    inferInstanceAs (Decidable ((_ → _) ∧ (_ → _) ∧ (_ → _)))

instance (before : Str) (ps : List Piece) : Decidable (KeywordsSpelled before ps) :=
  decideKeywordsSpelled before ps

theorem KeywordsSpelled.drop {before : Str} {gap ps : List Piece}
    (h : KeywordsSpelled before (gap ++ ps)) (hgap : ∀ p ∈ gap, p.isEnd = false) :
    KeywordsSpelled (before ++ spell gap) ps := by
  induction gap generalizing before with
  | nil => simpa [spell] using h
  | cons p gap ih =>
      obtain ⟨hp, hgap⟩ := List.forall_mem_cons.mp hgap
      have hrest := ih (h.2.2 hp) hgap
      rwa [List.append_assoc] at hrest

theorem KeywordsSpelled.head {before : Str} {p : Piece} {k : Kind} {ps : List Piece}
    (h : KeywordsSpelled before (p :: ps)) (hp : p.token = some k.token) : Spelled before k p ps := by
  cases k with
  | type => exact h.1 hp
  | entity => exact h.2.1 hp

theorem isAnnouncing_word (k : Kind) : isAnnouncing k.word = true := by
  cases k <;> decide

theorem announces_word (k : Kind) : announces k.word = some k := by
  cases k <;> decide

/-- A keyword enters the word behind it. -/
theorem registrations_word (k : Kind) (n : Str) (ws : List Str) :
    registrations (k.word :: n :: ws) = ((k, n) :: (registrations ws).1, (registrations ws).2) := by
  rw [registrations, announces_word]

theorem word_letters (k : Kind) : k.word ≠ [] ∧ ∀ c ∈ k.word, isSeparator c = false := by
  cases k <;> decide

/-- The first keyword that is read, if there is one. -/
theorem exists_keyword (ps : List Piece) : (∀ t ∈ tokensOf ps, t.Inner) ∨
    ∃ gap p after k, ps = gap ++ p :: after ∧ p.token = some (Kind.token k) ∧
      (∀ q ∈ gap, q.isEnd = false) ∧ ∀ t ∈ tokensOf gap, t.Inner := by
  induction ps with
  | nil => exact .inl (by simp [tokensOf])
  | cons p ps ih =>
      by_cases hend : p.isEnd = true
      · obtain ⟨t, ht, htend⟩ := (Option.any_eq_true ..).mp hend
        exact .inl (by simp [tokensOf, ht, htend])
      rw [Bool.not_eq_true] at hend
      by_cases hk : ∃ k : Kind, p.token = some k.token
      · obtain ⟨k, hk⟩ := hk
        exact .inr ⟨[], p, ps, k, rfl, hk, by simp, by simp [tokensOf]⟩
      have hp : ∀ t ∈ p.token.toList, t.Inner := by
        intro t ht
        rw [Option.mem_toList] at ht
        exact ⟨fun h => hk ⟨.type, ht.trans (congrArg some h)⟩,
          fun h => hk ⟨.entity, ht.trans (congrArg some h)⟩⟩
      rw [tokensOf_cons hend]
      rcases ih with hinner | ⟨gap, q, after, k, rfl, hq, hgap, hinner⟩
      · exact .inl (List.forall_mem_append.mpr ⟨hp, hinner⟩)
      · refine .inr ⟨p :: gap, q, after, k, rfl, hq, List.forall_mem_cons.mpr ⟨hend, hgap⟩, ?_⟩
        rw [tokensOf_cons hend]
        exact List.forall_mem_append.mpr ⟨hp, hinner⟩

/-- A name that is one word. -/
def IsWord (n : Str) : Prop := n ≠ [] ∧ ∀ c ∈ n, isSeparator c = false

/-- The words of a text around a keyword and the name after it. -/
theorem words_spelled {before : Str} {gap : List Piece} {p : Piece} {k : Kind} {after : List Piece}
    (h : Spelled (before ++ spell gap) k p after) {name : Piece} {rest : List Piece}
    (hafter : after.dropWhile (·.token.isNone) = name :: rest) (hname : IsWord name.text) :
    words (spell (gap ++ p :: after)) =
      words (spell gap) ++ k.word :: name.text :: words (spell rest) := by
  have hspell : spell (p :: after) =
      k.word ++ (spell (after.takeWhile (·.token.isNone)) ++ (name.text ++ spell rest)) := by
    have hsplit : after = after.takeWhile (·.token.isNone) ++ name :: rest :=
      hafter ▸ List.takeWhile_append_dropWhile.symm
    calc spell (p :: after) = p.text ++ spell after := rfl
      _ = k.word ++ spell (after.takeWhile (·.token.isNone) ++ name :: rest) := by
          rw [h.word, ← hsplit]
      _ = _ := by rw [spell_append]; rfl
  have hblank : BeginsApart (spell (after.takeWhile (·.token.isNone)) ++
      (name.text ++ spell rest)) := by
    intro c hc
    rw [List.head?_append_of_ne_nil _ h.blank] at hc
    exact h.separators c (List.mem_of_mem_head? hc)
  have hrest : BeginsApart (spell rest) := by
    have hbegins := h.name
    rwa [hafter] at hbegins
  rw [spell_append, words_append (.inl h.apart.suffix), hspell,
    words_append_word (word_letters k).1 (word_letters k).2 hblank,
    words_append_separators h.separators, words_append_word hname.1 hname.2 hrest]

/-- The piece of the name after a keyword, behind pieces without a token. -/
theorem exists_name {after : List Piece} {n : Str} {ts : List Token}
    (h : tokensOf after = .entityName n :: ts) : ∃ blanks name rest, after = blanks ++ name :: rest ∧
      after.dropWhile (·.token.isNone) = name :: rest ∧ (∀ p ∈ blanks, p.isEnd = false) ∧
      name.token = some (.entityName n) ∧ tokensOf rest = ts := by
  induction after with
  | nil => cases h
  | cons p after ih =>
      cases hp : p.token with
      | none =>
          have hend : p.isEnd = false := by simp [Piece.isEnd, hp]
          rw [tokensOf_cons hend, hp] at h
          obtain ⟨blanks, name, rest, rfl, hdrop, hblanks, hname, hrest⟩ := ih h
          refine ⟨p :: blanks, name, rest, rfl, ?_, List.forall_mem_cons.mpr ⟨hend, hblanks⟩, hname,
            hrest⟩
          rw [List.dropWhile_cons_of_pos (by simp [hp]), hdrop]
      | some t =>
          cases hend : p.isEnd with
          | true =>
              have htend : t.isEnd = true := by simpa [Piece.isEnd, hp] using hend
              simp [tokensOf, hp, htend] at h
          | false =>
              rw [tokensOf_cons hend, hp] at h
              obtain ⟨rfl, rfl⟩ := List.cons.inj h
              exact ⟨[], p, after, rfl, List.dropWhile_cons_of_neg (by simp [hp]), by simp, hp, rfl⟩

/-- **What the first pass finds,** where the keywords are spelled for it: a name for each keyword,
and no other names if no other words announce one. -/
theorem registrations_spelled {ps : List Piece} {before : Str} {ds : List (Kind × Str)}
    (hheads : Heads (tokensOf ps) ds) (hspelled : KeywordsSpelled before ps)
    (hnames : ∀ p ∈ ps, ∀ n, p.token = some (.entityName n) → p.text = n ∧ IsWord n) :
    ds.length ≤ (words (spell ps)).countP isAnnouncing ∧
      ((words (spell ps)).countP isAnnouncing = ds.length →
        registrations (words (spell ps)) = (ds, true)) := by
  induction hn : ps.length using Nat.strong_induction_on generalizing ps before ds with
  | _ n ih =>
    rcases exists_keyword ps with hinner | ⟨gap, p, after, k, rfl, hp, hgap, hinner⟩
    · obtain rfl := hheads.eq_nil hinner
      refine ⟨Nat.zero_le _, fun hcount => ?_⟩
      have hquiet : ∀ w ∈ words (spell ps), isAnnouncing w = false := by
        simpa using List.countP_eq_zero.mp hcount
      have happend : registrations (words (spell ps) ++ []) = registrations [] :=
        registrations_append hquiet
      rwa [List.append_nil] at happend
    · have hpend : p.isEnd = false := by
        rw [Piece.isEnd, hp]
        cases k <;> rfl
      rw [tokensOf_append hgap, tokensOf_cons hpend, hp] at hheads
      obtain ⟨m, ts, ds, hafter, rfl, hheads⟩ := hheads.first hinner
      obtain ⟨blanks, name, rest, hsplit, hdrop, hblanks, hname, rfl⟩ := exists_name hafter
      -- the keyword and its name are words, and the rest is shorter
      have hfirst := hspelled.drop hgap
      obtain ⟨htext, hword⟩ := hnames name (by simp [hsplit]) m hname
      have hwords := words_spelled (hfirst.head hp) hdrop (htext ▸ hword)
      have hnameEnd : name.isEnd = false := by simp [Piece.isEnd, hname, Token.isEnd]
      obtain ⟨before', hrest⟩ : ∃ before', KeywordsSpelled before' rest := by
        have hblank : KeywordsSpelled _ (blanks ++ name :: rest) := hsplit ▸ hfirst.2.2 hpend
        exact ⟨_, (hblank.drop hblanks).2.2 hnameEnd⟩
      have hlen : rest.length < n := by
        simp only [← hn, hsplit, List.length_append, List.length_cons]
        omega
      obtain ⟨hle, hall⟩ := ih rest.length hlen hheads hrest
        (fun q hq => hnames q (by simp [hsplit, hq])) rfl
      have hcount : (words (spell gap)).countP isAnnouncing +
          ((words (spell rest)).countP isAnnouncing + 1) ≤
            (words (spell (gap ++ p :: after))).countP isAnnouncing := by
        rw [hwords, List.countP_append, List.countP_cons_of_pos (isAnnouncing_word k)]
        exact Nat.add_le_add_left (Nat.succ_le_succ (List.sublist_cons_self ..).countP_le) _
      rw [List.length_cons]
      refine ⟨by omega, fun heq => ?_⟩
      have hquiet : ∀ w ∈ words (spell gap), isAnnouncing w = false := by
        have hzero : (words (spell gap)).countP isAnnouncing = 0 := by omega
        simpa using List.countP_eq_zero.mp hzero
      rw [hwords, htext, registrations_append hquiet, registrations_word, hall (by omega)]

/-! ### The names of both passes -/

theorem isSeparator_of_isAlnum {c : Char} (h : isAlnum c = true) : isSeparator c = false := by
  rw [Bool.eq_false_iff]
  intro hc
  have hmem : c ∈ [' ', '\n', '\t', ';'] := of_decide_eq_true hc
  have hnone : ∀ d ∈ [' ', '\n', '\t', ';'], isAlnum d = false := by decide
  rw [hnone c hmem] at h
  cases h

/-- The name of an entity is one word, which announces nothing. -/
theorem isWord_of_mem_lex {text : Str} {p : Piece} (hp : p ∈ lex .initial text) {n : Str}
    (hn : p.token = some (.entityName n)) :
    p.text = n ∧ IsWord n ∧ isAnnouncing n = false := by
  obtain ⟨htext, l, rfl, hl⟩ := entityName_spec hp hn
  refine ⟨htext, ⟨List.append_ne_nil_of_left_ne_nil (by decide) l, ?_⟩, ?_⟩
  · exact List.forall_mem_append.mpr ⟨by decide, fun c hc => isSeparator_of_isAlnum (hl c hc)⟩
  · simp [isAnnouncing, announces]

/-- A declared name is among the tokens. -/
theorem Heads.mem {ts : List Token} {ds : List (Kind × Str)} (h : Heads ts ds) :
    ∀ r ∈ ds, .entityName r.2 ∈ ts := by
  induction h with
  | nil => simp
  | inner ht h ih => exact fun r hr => List.mem_cons_of_mem _ (ih r hr)
  | keyword h ih =>
      refine List.forall_mem_cons.mpr ⟨by simp, fun r hr => ?_⟩
      exact List.mem_cons_of_mem _ (List.mem_cons_of_mem _ (ih r hr))

/-- A declared name announces nothing. -/
theorem not_isAnnouncing {text : Str} (hacc : (schema (tokens text)).2 = true) :
    ∀ r ∈ declared text, isAnnouncing r.2 = false := by
  intro r hr
  have htoken := (heads_tokens hacc).mem r hr
  obtain ⟨p, hp, hn⟩ := List.mem_filterMap.mp ((List.takeWhile_subset _) htoken)
  exact (isWord_of_mem_lex hp hn).2.2

/-- The names of types and of entities are entered in the order of their declarations. -/
structure Registers (text : Str) (c : Context) : Prop where
  preprocess : preprocess .new text = .ok c
  types : c.schema.types.map (·.name) = (namesOf .type (declared text)).map some
  entities : c.schema.entities.map (·.name) = namesOf .entity (declared text)

/-- There is room in the tables for the names that are declared. -/
def Room (text : Str) : Prop :=
  count .type (declared text) ≤ maxTypeNum ∧ count .entity (declared text) ≤ maxEntityNum

/-- As many words announce a name as there are declarations. -/
def NoOther (text : Str) : Prop := (words text).countP isAnnouncing = (declared text).length

instance (text : Str) : Decidable (Room text) := inferInstanceAs (Decidable (_ ∧ _))

instance (text : Str) : Decidable (NoOther text) := inferInstanceAs (Decidable (_ = _))

theorem length_eq_counts (regs : List (Kind × Str)) :
    regs.length = count .type regs + count .entity regs := by
  induction regs with
  | nil => rfl
  | cons r regs ih =>
      obtain ⟨k, n⟩ := r
      cases k <;> simp [count, namesOf] at ih ⊢ <;> omega

/-- **A first pass that enters what is declared** has met no other keyword, and had room. -/
theorem Registers.noOther {text : Str} (hacc : (schema (tokens text)).2 = true) {c : Context}
    (h : Registers text c) : NoOther text ∧ Room text := by
  have hholds := Context.Holds.preprocess h.preprocess
  have htypes : namesOf .type (registrations (words text)).1 = namesOf .type (declared text) :=
    List.map_injective_iff.mpr (Option.some_injective _) (hholds.types.symm.trans h.types)
  have hentities : namesOf .entity (registrations (words text)).1 =
      namesOf .entity (declared text) := hholds.entities.symm.trans h.entities
  have hpre := h.preprocess
  simp only [preprocess_eq, bind_eq_ok, require_eq_ok, pure_eq_ok] at hpre
  obtain ⟨c', hc', -, hall, -⟩ := hpre
  constructor
  · have hquiet : ∀ r ∈ (registrations (words text)).1, isAnnouncing r.2 = false := by
      rintro ⟨k, n⟩ hr
      refine not_isAnnouncing hacc (k, n) (mem_namesOf.mp ?_)
      have hmem := mem_namesOf.mpr hr
      cases k with
      | type => exact htypes ▸ hmem
      | entity => exact hentities ▸ hmem
    rw [NoOther, ← registrations_length hall hquiet, length_eq_counts, length_eq_counts, count,
      count, htypes, hentities, count, count]
  · have hroom := exists_register.mp ⟨c', hc'⟩
    rwa [count, count, htypes, hentities] at hroom

/-- **The first pass enters the names that are declared,** where the keywords are spelled for it
and no other words announce a name. -/
theorem registrations_eq {text : Str} (hacc : (schema (tokens text)).2 = true)
    (hspelled : KeywordsSpelled [] (lex .initial text)) (hother : NoOther text) :
    registrations (words text) = (declared text, true) := by
  have hspell : spell (lex .initial text) = text := flatten_lex .initial text
  obtain ⟨-, hall⟩ := registrations_spelled (heads_tokens hacc) hspelled fun p hp n hn =>
    ⟨(isWord_of_mem_lex hp hn).1, (isWord_of_mem_lex hp hn).2.1⟩
  rw [hspell] at hall
  exact hall hother

/-- Where the names entered are those declared, and there is room, the first pass returns. -/
theorem exists_registers {text : Str} (hregs : registrations (words text) = (declared text, true))
    (hroom : Room text) : ∃ c, Registers text c := by
  obtain ⟨c, hc⟩ := exists_register.mpr hroom
  have hpre : preprocess .new text = .ok c := by
    rw [preprocess_eq, hregs, hc]
    rfl
  have hholds := Context.Holds.preprocess hpre
  rw [hregs] at hholds
  exact ⟨c, hpre, hholds.types, hholds.entities⟩

/-! ### The arguments of a declaration -/

/-- The one place of a name. -/
def OnlyAt {α : Type} (names : List α) (n : α) (i : ℕ) : Prop := ∀ j : ℕ, names[j]? = some n ↔ j = i

/-- The arguments of a declaration are in the record of its name, and no other has changed. -/
def Stored (s s' : Schema) : Declaration → Prop
  | .type args => ∃ i t t', OnlyAt (s.types.map (·.name)) args.typeName i ∧ s.types[i]? = some t ∧
      assignTypeArgs (some s) t args = .ok t' ∧ s' = { s with types := s.types.set i t' }
  | .entity args => ∃ i, OnlyAt (s.entities.map (·.name)) args.entityName i ∧
      assignEntityArgs s i args = .ok s' ∧ s'.types = s.types ∧
      ∀ j, j ≠ i → s'.entities[j]? = s.entities[j]?

/-- The declaration is carried out, and its arguments are in the record of its name. -/
def Stores (c : Context) (d : Declaration) : Prop :=
  ∃ c', c.declare d = .ok c' ∧ Stored c.schema c'.schema d

/-- Every name of the type is in the tables. -/
structure TypeArgs.Storable (s : Schema) (args : TypeArgs) : Prop where
  refTypeName : ∀ n, args.refTypeName = some n → findDesc s n ≠ none
  selectList : ∀ n ∈ args.selectList, findDesc s n ≠ none

/-- The record has room for the entity, whose supertype is in the table. -/
structure EntityArgs.Storable (s : Schema) (args : EntityArgs) : Prop where
  attrs : args.attrs.length ≤ maxAttrNum
  subtypeNames : args.subtypeNames.length ≤ maxSubtypeNum
  supertypeName : ∀ n, args.supertypeName = some n → findEntityByName s n ≠ none
  selects : ∀ a ∈ args.attrs, ¬ a.type.AnonymousSelect

/-- The declaration can be stored, and the types of the table stay. -/
def Declaration.Storable (s : Schema) : Declaration → Prop
  | .type args => args.Storable s
  | .entity args => args.Storable s ∧ KeepsFlags s args

/-- A name is resolved exactly when it is found. -/
theorem exists_resolve {s : Schema} {n : Str} :
    (∃ d, resolve (some s) n = .ok d) ↔ findDesc s n ≠ none := by
  cases h : findDesc s n <;> simp [resolve, h]

theorem TypeArgs.Wf.refTypeName_eq_none {args : TypeArgs} (h : args.Wf) (hne : args.type ≠ .derived) :
    args.refTypeName = none := by
  rw [← Option.not_isSome_iff_eq_none]
  exact mt h.derived.mpr hne

theorem TypeArgs.Wf.selectList_eq_nil {args : TypeArgs} (h : args.Wf) (hne : args.type ≠ .select) :
    args.selectList = [] := by
  by_contra hnil
  exact hne (h.select hnil)

theorem storable_of_no_names {s : Schema} {args : TypeArgs} (href : args.refTypeName = none)
    (hlist : args.selectList = []) : args.Storable s :=
  ⟨by simp [href], by simp [hlist]⟩

/-- A type is stored exactly when its names are found. -/
theorem exists_assignTypeArgs {s : Schema} {t : TypeRecord} {args : TypeArgs} (hwf : args.Wf) :
    (∃ t', assignTypeArgs (some s) t args = .ok t') ↔ args.Storable s := by
  have hplain : args.type ≠ .derived → args.type ≠ .select → args.Storable s := fun hd hs =>
    storable_of_no_names (hwf.refTypeName_eq_none hd) (hwf.selectList_eq_nil hs)
  unfold assignTypeArgs
  split
  · rename_i htype
    have hlist := hwf.selectList_eq_nil (by simp [htype])
    obtain ⟨n, hn⟩ := Option.isSome_iff_exists.mp (hwf.derived.mp htype)
    have hresolve := exists_resolve (s := s) (n := n)
    simp only [hn, bind_eq_ok, pure_eq_ok]
    constructor
    · rintro ⟨t', d, hd, -⟩
      exact ⟨fun m hm => Option.some.inj (hn.symm.trans hm) ▸ hresolve.mp ⟨d, hd⟩, by simp [hlist]⟩
    · intro h
      obtain ⟨d, hd⟩ := hresolve.mpr (h.refTypeName n hn)
      exact ⟨_, d, hd, rfl⟩
  · rename_i htype
    simp [pure_eq_ok, hplain (by simp [htype]) (by simp [htype])]
  · rename_i htype
    have href := hwf.refTypeName_eq_none (by simp [htype])
    simp only [bind_eq_ok, pure_eq_ok]
    have hlist : (∃ l, args.selectList.mapM (resolve (some s)) = .ok l) ↔
        ∀ n ∈ args.selectList, findDesc s n ≠ none := by
      rw [exists_mapM_ok]
      simp only [exists_resolve]
    constructor
    · rintro ⟨t', l, hl, -⟩
      exact ⟨by simp [href], hlist.mp ⟨l, hl⟩⟩
    · intro h
      obtain ⟨l, hl⟩ := hlist.mpr h.selectList
      exact ⟨_, l, hl, rfl⟩
  · -- the other kinds resolve no name
    rename_i hd _ hs
    simp [pure_eq_ok, hplain hd hs]

/-- An attribute is stored unless it has a select of its own. -/
theorem exists_assignAttr {s : Schema} {a : AttrArgs} (hwf : a.type.Wf) :
    (∃ r, assignAttr s a = .ok r) ↔ ¬ a.type.AnonymousSelect := by
  cases h : assignAttr s a with
  | error e => simp [((assignAttr_error hwf).mp h).1]
  | ok r =>
      refine ⟨fun _ hanon => ?_, fun _ => ⟨r, rfl⟩⟩
      rw [(assignAttr_error hwf).mpr ⟨hanon, rfl⟩] at h
      cases h

/-- Several are stored when there is room for them, besides. -/
theorem exists_assignAttrs {s : Schema} {as : List AttrArgs} {done : List Attr}
    (hwf : ∀ a ∈ as, a.type.Wf) (hdone : done.length ≤ maxAttrNum) :
    (∃ r, assignAttrs s as done = .ok r) ↔
      done.length + as.length ≤ maxAttrNum ∧ ∀ a ∈ as, ¬ a.type.AnonymousSelect := by
  induction as generalizing s done with
  | nil => simp [assignAttrs, hdone]
  | cons a as ih =>
      obtain ⟨hwfa, hwf⟩ := List.forall_mem_cons.mp hwf
      have hone := exists_assignAttr (s := s) hwfa
      simp only [assignAttrs, bind_eq_ok, require_eq_ok, List.length_cons, List.forall_mem_cons]
      constructor
      · rintro ⟨r, ⟨s', attr⟩, ha, -, hroom, hr⟩
        obtain ⟨hlen, hall⟩ := (ih hwf (by simpa using hroom)).mp ⟨r, hr⟩
        rw [List.length_append, List.length_singleton] at hlen
        exact ⟨by omega, hone.mp ⟨_, ha⟩, hall⟩
      · rintro ⟨hlen, ha, hall⟩
        obtain ⟨⟨s', attr⟩, hattr⟩ := hone.mpr ha
        have hroom : done.length < maxAttrNum := by omega
        have hlen' : (done ++ [attr]).length + as.length ≤ maxAttrNum := by
          rw [List.length_append, List.length_singleton]
          omega
        obtain ⟨r, hr⟩ := (ih (s := s') hwf (by simpa using hroom)).mpr ⟨hlen', hall⟩
        exact ⟨r, (s', attr), hattr, (), hroom, hr⟩

/-- **An entity is stored** exactly when it is storable. -/
theorem exists_assignEntityArgs {s : Schema} {i : ℕ} {e : EntityRecord} {args : EntityArgs}
    (he : s.entities[i]? = some e) (hwf : ∀ a ∈ args.attrs, a.type.Wf) :
    (∃ s', assignEntityArgs s i args = .ok s') ↔ args.Storable s := by
  have hattrs : (∃ r, assignAttrs s args.attrs.reverse [] = .ok r) ↔ _ :=
    exists_assignAttrs (fun a ha => hwf a (List.mem_reverse.mp ha)) (Nat.zero_le _)
  have hsuper : (∃ p, assignSupertype s e.supertype args.supertypeName = .ok p) ↔ _ :=
    exists_assignSupertype e.supertype
  simp only [List.length_nil, Nat.zero_add, List.length_reverse, List.mem_reverse] at hattrs
  simp only [assignEntityArgs, he, bind_eq_ok, require_eq_ok, pure_eq_ok]
  constructor
  · rintro ⟨s', -, -, -, hsubtypes, p, hp, r, hr, -⟩
    obtain ⟨hlen, hselects⟩ := hattrs.mp ⟨r, hr⟩
    exact ⟨hlen, hsubtypes, hsuper.mp ⟨p, hp⟩, hselects⟩
  · intro h
    obtain ⟨p, hp⟩ := hsuper.mpr h.supertypeName
    obtain ⟨r, hr⟩ := hattrs.mpr ⟨h.attrs, h.selects⟩
    exact ⟨_, (), h.attrs.trans (by decide), (), h.subtypeNames, p, hp, r, hr, rfl⟩

/-! ### The second pass -/

/-- Without repetition a name has one place. -/
theorem onlyAt_of_nodup {α : Type} {names : List α} (h : names.Nodup) {n : α} {i : ℕ}
    (hi : names[i]? = some n) : OnlyAt names n i := by
  intro j
  constructor
  · intro hj
    exact (List.getElem?_inj (List.getElem?_eq_some_iff.mp hj).1 h).mp (hj.trans hi.symm)
  · rintro rfl
    exact hi

/-- What the second pass does with a type that was entered. -/
theorem initType_eq {regs : List (Kind × Str)} {c : Context} (hc : c.Holds regs) {args : TypeArgs}
    {name : Str} (hname : args.typeName = some name) (hmem : name ∈ namesOf .type regs) :
    ∃ i t, (c.schema.types.map (·.name))[i]? = some (some name) ∧ c.schema.types[i]? = some t ∧
      initType c args = (do
        let t ← assignTypeArgs (some c.schema) t args
        return { c with
          typeIdIndex := c.typeIdIndex.insertNew name 0
          schema := { c.schema with types := c.schema.types.set i t } }) := by
  have hin : some name ∈ c.schema.types.map (·.name) := by
    rw [hc.types]
    exact List.mem_map_of_mem hmem
  obtain ⟨i, hi, hat⟩ := (hc.typeIndex.insertNew name 0) name hin
  obtain ⟨t, ht, -⟩ := Option.map_eq_some_iff.mp (List.getElem?_map .. ▸ hat)
  refine ⟨i, t, hat, ht, ?_⟩
  unfold initType
  rw [hname]
  simp only [hi, Option.getD_some, ht]

theorem Stores.storable {c : Context} {d : Declaration} (hwf : d.Wf) (h : Stores c d) :
    d.Storable c.schema := by
  obtain ⟨c', -, hstored⟩ := h
  cases d with
  | type args =>
      obtain ⟨i, t, t', -, -, hassign, -⟩ := hstored
      exact (exists_assignTypeArgs hwf).mp ⟨t', hassign⟩
  | entity args =>
      obtain ⟨i, -, hassign, htypes, -⟩ := hstored
      obtain ⟨e, -, -, he, -⟩ := assignEntityArgs_ok hassign
      exact ⟨(exists_assignEntityArgs he hwf).mp ⟨_, hassign⟩, (types_eq_iff hassign).mp htypes⟩

section Stores

variable {regs : List (Kind × Str)} {c : Context}

/-- A type that is storable is stored in its record. -/
theorem stores_type (hc : c.Holds regs) (hnodup : (namesOf .type regs).Nodup) {args : TypeArgs}
    (hwf : args.Wf) {name : Str} (hname : args.typeName = some name)
    (hmem : name ∈ namesOf .type regs) (h : args.Storable c.schema) : Stores c (.type args) := by
  obtain ⟨i, t, hat, ht, heq⟩ := initType_eq hc hname hmem
  obtain ⟨t', hassign⟩ := (exists_assignTypeArgs (t := t) hwf).mpr h
  have hnames : (c.schema.types.map (·.name)).Nodup := by
    rw [hc.types]
    exact hnodup.map (Option.some_injective Str)
  refine ⟨⟨c.typeIdIndex.insertNew name 0, c.entityIdIndex,
    { c.schema with types := c.schema.types.set i t' }⟩, ?_, i, t, t',
    hname ▸ onlyAt_of_nodup hnames hat, ht, hassign, rfl⟩
  rw [Context.declare, heq, hassign]
  rfl

theorem stores_entity (hc : c.Holds regs) (hnodup : (namesOf .entity regs).Nodup)
    {args : EntityArgs} (hwf : ∀ a ∈ args.attrs, a.type.Wf)
    (hmem : args.entityName ∈ namesOf .entity regs) (h : args.Storable c.schema)
    (hkeeps : KeepsFlags c.schema args) : Stores c (.entity args) := by
  have hin : args.entityName ∈ c.schema.entities.map (·.name) := hc.entities ▸ hmem
  obtain ⟨i, hi, hat⟩ := (hc.entityIndex.insertNew args.entityName 0) args.entityName hin
  obtain ⟨e, he, hename⟩ := Option.map_eq_some_iff.mp (List.getElem?_map .. ▸ hat)
  have hsame : e.name = args.entityName := hename
  obtain ⟨s', hassign⟩ := (exists_assignEntityArgs he hwf).mpr h
  have hnames : (c.schema.entities.map (·.name)).Nodup := hc.entities ▸ hnodup
  refine ⟨⟨c.typeIdIndex, c.entityIdIndex.insertNew args.entityName 0, s'⟩, ?_, i,
    onlyAt_of_nodup hnames hat, hassign, (types_eq_iff hassign).mpr hkeeps,
    (types_assignEntityArgs hassign).1⟩
  rw [Context.declare, initEntity_eq hi, he]
  simp only [require, if_pos hsame, hassign]
  rfl

end Stores

/-! ### Both passes -/

theorem declarations_named (ts : List Token) : ∀ d ∈ (declarations ts).1, ∃ n, d.name = some n := by
  fun_induction declarations ts with
  | case1 => simp
  | case2 ts d ts' h ih =>
      obtain ⟨n, ts'', -, -, hname, -⟩ := declaration_spec h
      exact List.forall_mem_cons.mpr ⟨⟨n, hname⟩, ih⟩

theorem schema_named (ts : List Token) : ∀ d ∈ (schema ts).1, ∃ n, d.name = some n := by
  unfold schema
  split
  · exact declarations_named _
  · simp

theorem namesOf_nodup {k : Kind} {regs : List (Kind × Str)} (h : regs.Nodup) :
    (namesOf k regs).Nodup := by
  refine List.Nodup.map_on ?_ (h.filter _)
  rintro ⟨k₁, n₁⟩ h₁ ⟨k₂, n₂⟩ h₂ rfl
  have hk₁ : k₁ = k := by simpa using (List.mem_filter.mp h₁).2
  have hk₂ : k₂ = k := by simpa using (List.mem_filter.mp h₂).2
  rw [hk₁, hk₂]

/-- The first pass enters the names that are declared, and the second stores the arguments of each
declaration in the record of its name. -/
structure Agree (text : Str) : Prop where
  registers : ∃ c, Registers text c
  stores : ∀ done d rest c, (schema (tokens text)).1 = done ++ d :: rest → Reaches text done c →
    Stores c d

/-- No other words announce a name, there is room for the names, and each declaration that is
reached can be stored. -/
structure Plain (text : Str) : Prop where
  noOther : NoOther text
  room : Room text
  storable : ∀ done d rest c, (schema (tokens text)).1 = done ++ d :: rest → Reaches text done c →
    d.Storable c.schema

/-- A declaration is stored in the record of its name, where the names entered are those
declared. -/
theorem stores_of_storable {text : Str} {c : Context} (hc : c.Holds (declared text))
    (hnodup : (declared text).Nodup) {d : Declaration} (hd : d ∈ (schema (tokens text)).1)
    (h : d.Storable c.schema) : Stores c d := by
  have hwf := schema_wf (tokens text) d hd
  obtain ⟨n, hn⟩ := schema_named (tokens text) d hd
  have hmem : (d.kind, n) ∈ declared text :=
    List.mem_filterMap.mpr ⟨d, hd, by rw [hn, Option.map_some]⟩
  cases d with
  | type args => exact stores_type hc (namesOf_nodup hnodup) hwf hn (mem_namesOf.mpr hmem) h
  | entity args =>
      obtain rfl := Option.some.inj hn
      exact stores_entity hc (namesOf_nodup hnodup) hwf (mem_namesOf.mpr hmem) h.1 h.2

/-- **Main result.**  The passes agree on a text with distinct names only if it is plain, and they
do if, besides, its keywords are in capital letters and apart. -/
theorem passes_agree {text : Str} (hacc : (schema (tokens text)).2 = true)
    (hnodup : (declared text).Nodup) : (Agree text → Plain text) ∧
      (KeywordsSpelled [] (lex .initial text) ∧ Plain text → Agree text) := by
  constructor
  · intro h
    obtain ⟨c, hc⟩ := h.registers
    obtain ⟨hother, hroom⟩ := hc.noOther hacc
    refine ⟨hother, hroom, fun done d rest c hds hreach => ?_⟩
    have hd : d ∈ (schema (tokens text)).1 := hds ▸ by simp
    exact (h.stores done d rest c hds hreach).storable (schema_wf _ d hd)
  · rintro ⟨hspelled, hplain⟩
    have hregs := registrations_eq hacc hspelled hplain.noOther
    refine ⟨exists_registers hregs hplain.room, fun done d rest c hds hreach => ?_⟩
    have hholds := hreach.holds
    rw [hregs] at hholds
    have hd : d ∈ (schema (tokens text)).1 := hds ▸ by simp
    exact stores_of_storable hholds hnodup hd (hplain.storable done d rest c hds hreach)

/-- A type, one derived from it, an entity and its subtype, in capital letters and with blanks where
the first pass needs them. -/
def chainText : Str :=
  ("SCHEMA S;TYPE IfcA = REAL;END_TYPE;TYPE IfcB = IfcA;END_TYPE;ENTITY IfcC ;a:INTEGER;" ++
    "END_ENTITY;ENTITY IfcD SUBTYPE OF(IfcC);END_ENTITY;END_SCHEMA;").toList

/-- The declarations of `chainText`. -/
def chainDeclarations : List Declaration :=
  [.type (newTypeNameArgs (some "IfcA".toList) .real),
    .type { newTypeNameArgs (some "IfcB".toList) .derived with refTypeName := some "IfcA".toList },
    .entity ⟨"IfcC".toList, false, [⟨"a".toList, newTypeNameArgs none .integer, false⟩], [], none⟩,
    .entity ⟨"IfcD".toList, false, [], [], some "IfcC".toList⟩]

theorem schema_chainText : schema (tokens chainText) = (chainDeclarations, true) := by
  decide +kernel

theorem declared_chainText : declared chainText = [(.type, "IfcA".toList), (.type, "IfcB".toList),
    (.entity, "IfcC".toList), (.entity, "IfcD".toList)] := by
  rw [declared, schema_chainText]
  rfl

/-- The first pass enters the names declared. -/
theorem registrations_chainText : (registrations (words chainText)).1 = declared chainText := by
  rw [declared_chainText]
  decide +kernel

/-- In every state of the second pass the declarations find the names they refer to. -/
theorem storable_chainText {c : Context} (h : c.Holds (declared chainText)) :
    ∀ d ∈ chainDeclarations, d.Storable c.schema := by
  have htypes := h.types
  have hentities := h.entities
  rw [declared_chainText] at htypes hentities
  have hA : findDesc c.schema "IfcA".toList ≠ none := by
    have hfound : (findTypeByName c.schema "IfcA".toList).isSome :=
      findTypeByName_isSome.mpr (htypes ▸ by decide)
    obtain ⟨i, hi⟩ := Option.isSome_iff_exists.mp hfound
    rw [findDesc, hi]
    exact Option.some_ne_none _
  have hC : findEntityByName c.schema "IfcC".toList ≠ none := by
    rw [← Option.isSome_iff_ne_none]
    exact findEntityByName_isSome.mpr (hentities ▸ by decide)
  simp only [chainDeclarations, List.forall_mem_cons, List.not_mem_nil, false_imp_iff, implies_true,
    and_true]
  refine ⟨storable_of_no_names rfl rfl,
    ⟨fun n hn => Option.some.inj hn ▸ hA, by simp [newTypeNameArgs]⟩,
    ⟨⟨by decide, by decide, by simp, ?_⟩, ?_⟩,
    ⟨⟨by decide, by decide, fun n hn => Option.some.inj hn ▸ hC, by simp⟩, ?_⟩⟩
  · simp [TypeArgs.AnonymousSelect, newTypeNameArgs]
  · rintro j t b - hflag
    simp [lastFlag, AttrArgs.names, newTypeNameArgs] at hflag
  · rintro j t b - hflag
    cases hflag

theorem plain_chainText : Plain chainText where
  noOther := by
    rw [NoOther, declared_chainText]
    decide +kernel
  room := by
    rw [Room, declared_chainText]
    decide
  storable done d rest c h hreach := by
    have hmem : d ∈ (schema (tokens chainText)).1 := h ▸ by simp
    rw [schema_chainText] at hmem
    exact storable_chainText (registrations_chainText ▸ hreach.holds) d hmem

/-- The two passes agree on types and entities that refer to each other. -/
theorem passes_agree_chain : Agree chainText :=
  (passes_agree (by rw [schema_chainText]) (by rw [declared_chainText]; decide)).2
    ⟨by decide +kernel, plain_chainText⟩
/-- Two types, the second after a keyword in small letters. -/
def smallText : Str :=
  "SCHEMA S;TYPE IfcA = REAL;END_TYPE;type IfcB = STRING;END_TYPE;END_SCHEMA;".toList

theorem schema_smallText : schema (tokens smallText) =
    ([.type (newTypeNameArgs (some "IfcA".toList) .real),
      .type (newTypeNameArgs (some "IfcB".toList) .string)], true) := by decide +kernel

theorem declared_smallText :
    declared smallText = [(.type, "IfcA".toList), (.type, "IfcB".toList)] := by
  rw [declared, schema_smallText]
  rfl

/-- They do not on a keyword in small letters: the name is not entered, and the arguments are stored
in the record of the other type. -/
theorem not_always_agree : (schema (tokens smallText)).2 = true ∧
    ((declared smallText).map (·.2)).Nodup ∧ ¬ Agree smallText ∧
    parsedSchema smallText =
      .ok (⟨[{ newType with name := "IfcA".toList, type := .string }], []⟩, 0) := by
  have haccepted : (schema (tokens smallText)).2 = true := by rw [schema_smallText]
  refine ⟨haccepted, by rw [declared_smallText]; decide, fun h => ?_, by decide +kernel⟩
  obtain ⟨c, hc⟩ := h.registers
  have hother := (hc.noOther haccepted).1
  rw [NoOther, declared_smallText] at hother
  exact absurd hother (by decide +kernel)

end VulcanDB.Express
