import VulcanDB.Library.Flex
import VulcanDB.Library.Numbers

/-!
# EXPRESS — The lexer

The rules of `lex_exp.l` in their order, and the pieces that they cut a text into, each with the
token that is returned for it.  A character stands for a byte, and a text may have any length.

* `flatten_lex`: the pieces are the text.
* `mem_lex`: a piece with a token is a match of a rule, which returns it.
* `entityName_spec`: what the name of an entity looks like.
* `tokens_split`: a text that is cut between two tokens has the tokens of its parts.
-/

namespace VulcanDB.Express

open Cxx
open Flex (Regex pick)

/-! ### Tokens -/

/-- What the scanner returns. -/
inductive Token where
  | schema | type | endType | abstract | supertype | subtype | entity | endEntity | of | oneof
  | forKey | endFunction | endRule | fixed | endSchema | real | boolean | string | integer
  | enumeration | list | set | select | logical | semicolon | dot | star | lbracket | rbracket
  | or | colonEq | lbrace | rbrace | comma | eq | le | ne | lt | ge | gt | question | colon | and
  | sss | expression | self | inKey | optional | array | number | unique | binary
  | label (s : Str)
  | integerValue (n : ℤ)
  | entityName (s : Str)
  /-- A character that is returned as it is. -/
  | char (c : Char)
  deriving DecidableEq

/-- The start conditions. -/
inductive LexState where
  | initial | ignore | comment
  deriving DecidableEq

/-- What a rule does: the state it begins, and the token it returns for the text of its match. -/
structure Action where
  next : LexState
  token : Str → Option Token

/-- A rule that returns nothing. -/
def skip (next : LexState) : Action := ⟨next, fun _ => none⟩

/-- A rule that returns a token. -/
def give (t : Token) : Action := ⟨.initial, fun _ => some t⟩

/-- A rule that returns a token with its text. -/
def giveText (t : Str → Token) : Action := ⟨.initial, fun s => some (t s)⟩

/-! ### Classes of characters -/

/-- The characters that are skipped, the newline apart. -/
def isWhiteSpace (c : Char) : Bool := c ∈ [' ', '\t', '\x08', '\x0c']

/-- A letter or a digit. -/
def isAlnum (c : Char) : Bool := c.isAlpha || c.isDigit

/-- `[A-Za-z0-9_]`. -/
def isLabelChar (c : Char) : Bool := isAlnum c || c == '_'

/-- The quotes of an expression. -/
def isQuote (c : Char) : Bool := c == '\'' || c == '"'

/-- `[\0-\46\50-\177]`. -/
def isQuotable (c : Char) : Bool := c.toNat < 128 && c != '\''

/-- The operators of an expression. -/
def isOperator (c : Char) : Bool := c ∈ ['+', '-', '*', '/']

/-- `[A-Za-z0-9\._]`. -/
def isOperand (c : Char) : Bool := isLabelChar c || c == '.'

/-- `[\(\)A-Za-z0-9\.\+\-\*/_]`. -/
def isExpressionChar (c : Char) : Bool := isOperand c || isOperator c || c == '(' || c == ')'

/-! ### The rules -/

/-- The name of an entity or a type. -/
def entityNameRule : Regex := .seq (.lit "Ifc".toList) (.plus (.chars isAlnum))

/-- A label. -/
def labelRule : Regex := .plus (.chars isLabelChar)

/-- A string between quotes. -/
def quotedString : Regex := .seq (.chars isQuote) (.seq (.star (.chars isQuotable)) (.chars isQuote))

/-- An expression, which the grammar does not look into. -/
def expressionRule : Regex :=
  .alt
    (.seq (.opt (.one '-')) (.seq (.plus (.chars isExpressionChar)) (.seq (.plus (.chars isOperator))
      (.seq (.plus (.chars isOperand)) (.star (.chars isExpressionChar))))))
    (.seq (.plus (.one '-'))
      (.plus (.chars fun c => isOperand c || c == '(' || c == ')')))

/-- An integer. -/
def integerRule : Regex := .seq (.opt (.one '-')) (.plus (.plus (.chars Char.isDigit)))

/-- The words in letters of either case. -/
def keywords : List (String × Token) :=
  [("SCHEMA", .schema), ("TYPE", .type), ("ENTITY", .entity), ("END_TYPE", .endType),
   ("ABSTRACT", .abstract), ("SUPERTYPE", .supertype), ("SUBTYPE", .subtype),
   ("END_ENTITY", .endEntity), ("OF", .of), ("ONEOF", .oneof), ("FOR", .forKey),
   ("UNIQUE", .unique), ("END_FUNCTION", .endFunction), ("END_RULE", .endRule), ("FIXED", .fixed),
   ("END_SCHEMA", .endSchema), ("SELF", .self), ("OPTIONAL", .optional), ("REAL", .real),
   ("BOOLEAN", .boolean), ("STRING", .string), ("INTEGER", .integer), ("NUMBER", .number),
   ("ENUMERATION", .enumeration), ("LIST", .list), ("SET", .set), ("SELECT", .select),
   ("LOGICAL", .logical), ("ARRAY", .array), ("BINARY", .binary)]

/-- The signs with their tokens. -/
def punctuation : List (String × Token) :=
  [(";", .semicolon), (".", .dot), ("*", .star), ("[", .lbracket), ("]", .rbracket), ("||", .or),
   (":=", .colonEq), ("(", .lbrace), (")", .rbrace), (",", .comma), ("=", .eq), ("<=", .le),
   ("<>", .ne), ("!=", .ne), ("<", .lt), (">=", .ge), (">", .gt), ("?", .question), (":", .colon)]

/-- The words that begin a part that is not read. -/
def ignoring : List String := ["INVERSE", "FUNCTION", "RULE", "WHERE", "DERIVE"]

/-- The rules outside comments and such parts. -/
def initialRules : List (Regex × Action) :=
  [(.chars isWhiteSpace, skip .initial), (.lit "(*".toList, skip .comment)] ++
  ignoring.map (fun w => (.word w.toList, skip .ignore)) ++
  [(.one '\n', skip .initial),
   (integerRule, giveText fun s => .integerValue (atoi s)),
   (entityNameRule, giveText .entityName)] ++
  keywords.map (fun p => (.word p.1.toList, give p.2)) ++
  punctuation.map (fun p => (.lit p.1.toList, give p.2)) ++
  [(.word "AND".toList, give .and), (.word "IN".toList, give .inKey),
   (quotedString, give .sss), (expressionRule, give .expression), (labelRule, giveText .label),
   (.dot, giveText fun s => .char (s.headD ' '))]

/-- The rules of a part that is not read. -/
def ignoreRules : List (Regex × Action) :=
  [(.lit "END_TYPE".toList, give .endType), (.lit "END_ENTITY".toList, give .endEntity),
   (.lit "END_FUNCTION;".toList, skip .initial), (.lit "END_RULE;".toList, skip .initial),
   (.any, skip .ignore)]

/-- The rules of a comment. -/
def commentRules : List (Regex × Action) :=
  [(.lit "*)".toList, skip .initial), (.any, skip .comment)]

/-- The rules of a state, in their order. -/
def LexState.rules : LexState → List (Regex × Action)
  | .initial => initialRules
  | .ignore => ignoreRules
  | .comment => commentRules

/-! ### The pieces of a text -/

/-- What a rule matched, and the token that it returned, if it did. -/
structure Piece where
  text : Str
  token : Option Token
  deriving DecidableEq

/-- The pieces of a text, each the longest match of the first rule that has it. -/
def lex (st : LexState) : Str → List Piece
  | [] => []
  | c :: s =>
    match pick (c :: s) st.rules with
    -- the default rule, never taken: the last rules of each state match every character
    | none => ⟨[c], none⟩ :: lex st s
    | some (n, act) =>
      let text := c :: s.take (n - 1)
      ⟨text, act.token text⟩ :: lex act.next (s.drop (n - 1))
termination_by s => s.length
decreasing_by all_goals simp

/-- A byte above 127 is a negative `char`, which ends the input of the parser. -/
def Token.isEnd : Token → Bool
  | .char c => 128 ≤ c.toNat
  | _ => false

/-- What the grammar gets, up to the end of the input. -/
def tokens (text : Str) : List Token :=
  ((lex .initial text).filterMap (·.token)).takeWhile fun t => !t.isEnd

/-- **The pieces are the text.** -/
theorem flatten_lex (st : LexState) (s : Str) : (lex st s).flatMap (·.text) = s := by
  fun_induction lex st s with
  | case1 st => rfl
  | case2 st c s h ih => rw [List.flatMap_cons, ih, List.singleton_append]
  | case3 st c s n act h text ih =>
      have htext : text = c :: s.take (n - 1) := rfl
      rw [List.flatMap_cons, ih, htext, List.cons_append, List.take_append_drop]

theorem not_nullable (st : LexState) : ∀ ra ∈ st.rules, ra.1.nullable = false := by
  cases st <;> decide

/-- A piece with a token is a match of a rule, which returns it. -/
theorem mem_lex {st : LexState} {s : Str} {p : Piece} {t : Token} (hp : p ∈ lex st s)
    (ht : p.token = some t) : ∃ (st' : LexState) (r : Regex) (act : Action),
      (r, act) ∈ st'.rules ∧ r.accepts p.text = true ∧ act.token p.text = some t := by
  fun_induction lex st s with
  | case1 st => cases hp
  | case2 st c s h ih =>
      rcases List.mem_cons.mp hp with rfl | hp
      · cases ht
      · exact ih hp
  | case3 st c s n act h text ih =>
      rcases List.mem_cons.mp hp with rfl | hp
      · obtain ⟨-, ⟨r, hr, hacc⟩, -⟩ := Flex.pick_spec h
        refine ⟨st, r, act, hr, ?_, ht⟩
        cases n with
        | zero => exact absurd hacc (by simp [Regex.accepts, not_nullable st _ hr])
        | succ n => exact hacc
      · exact ih hp

/-- Names of entities are returned by one rule, with the text of its match. -/
theorem entityName_rule (st : LexState) : ∀ ra ∈ st.rules, ∀ s n,
    ra.2.token s = some (.entityName n) → ra.1 = entityNameRule ∧ s = n := by
  have hkeyword : ∀ p ∈ keywords, ∀ n, p.2 ≠ .entityName n := by
    simp only [keywords, List.forall_mem_cons]
    simp
  have hpunctuation : ∀ p ∈ punctuation, ∀ n, p.2 ≠ .entityName n := by
    simp only [punctuation, List.forall_mem_cons]
    simp
  cases st with
  | initial =>
      simp only [LexState.rules, initialRules, List.forall_mem_append, List.forall_mem_map,
        List.forall_mem_cons]
      simp +contextual [skip, give, giveText, hkeyword, hpunctuation]
  | ignore => simp [LexState.rules, ignoreRules, skip, give]
  | comment => simp [LexState.rules, commentRules, skip]

/-- A name of an entity is the text of its piece, `Ifc` and more letters and digits. -/
theorem entityName_spec {st : LexState} {s : Str} {p : Piece} {n : Str} (hp : p ∈ lex st s)
    (hn : p.token = some (.entityName n)) :
    p.text = n ∧ ∃ l, n = "Ifc".toList ++ l ∧ ∀ c ∈ l, isAlnum c = true := by
  obtain ⟨st', r, act, hr, hacc, htoken⟩ := mem_lex hp hn
  obtain ⟨hrule, htext⟩ := entityName_rule st' (r, act) hr p.text n htoken
  obtain rfl : r = entityNameRule := hrule
  subst htext
  obtain ⟨a, ha, l, hl, heq⟩ := Language.mem_mul.mp ((Regex.accepts_iff _ _).mp hacc)
  rw [Regex.mem_lang_lit.mp ha] at heq
  exact ⟨rfl, l, heq.symm, Regex.forall_of_mem_plus hl⟩

/-! ### Parts of a text -/

theorem lex_of_none {st : LexState} {c : Char} {s : Str} (h : pick (c :: s) st.rules = none) :
    lex st (c :: s) = ⟨[c], none⟩ :: lex st s := by
  rw [lex]
  split
  · rfl
  · rename_i heq
    rw [h] at heq
    cases heq

/-- The first piece, and those of the rest. -/
theorem lex_of_some {st : LexState} {c : Char} {s : Str} {n : ℕ} {act : Action}
    (h : pick (c :: s) st.rules = some (n, act)) :
    lex st (c :: s) = ⟨c :: s.take (n - 1), act.token (c :: s.take (n - 1))⟩ ::
      lex act.next (s.drop (n - 1)) := by
  rw [lex]
  split
  · rename_i heq
    rw [h] at heq
    cases heq
  · rename_i heq
    obtain ⟨rfl, rfl⟩ := Prod.mk.inj (Option.some.inj (h.symm.trans heq))
    rfl

/-- **The text of the first pieces is cut into these,** whatever follows it. -/
theorem lex_prefix {st : LexState} {s : Str} {ps qs : List Piece} (h : lex st s = ps ++ qs) :
    lex st (ps.flatMap (·.text)) = ps := by
  fun_induction lex st s generalizing ps qs with
  | case1 st =>
      obtain ⟨rfl, -⟩ := List.append_eq_nil_iff.mp h.symm
      rw [List.flatMap_nil, lex]
  | case2 st c s hnone ih =>
      cases ps with
      | nil => rw [List.flatMap_nil, lex]
      | cons p ps =>
          rw [List.cons_append] at h
          obtain ⟨rfl, hps⟩ := List.cons.inj h
          have hs : s = ps.flatMap (·.text) ++ qs.flatMap (·.text) := by
            rw [← List.flatMap_append, ← hps, flatten_lex]
          have hprefix : c :: ps.flatMap (·.text) <+: c :: s :=
            ⟨qs.flatMap (·.text), by rw [hs]; rfl⟩
          -- what matches no prefix of the text matches none of a part
          have hpick : pick (c :: ps.flatMap (·.text)) st.rules = none := by
            rw [Flex.pick_of_prefix hprefix, hnone]
            intro r a hr m hm hacc
            rw [Flex.pick_eq_none hnone r a hr m hm] at hacc
            cases hacc
          rw [List.flatMap_cons, List.singleton_append, lex_of_none hpick, ih hps]
  | case3 st c s n act hpick text =>
      rename_i ih
      cases ps with
      | nil => rw [List.flatMap_nil, lex]
      | cons p ps =>
          rw [List.cons_append] at h
          obtain ⟨rfl, hps⟩ := List.cons.inj h
          obtain ⟨hn, -, hbound⟩ := Flex.pick_spec hpick
          have hdrop : s.drop (n - 1) = ps.flatMap (·.text) ++ qs.flatMap (·.text) := by
            rw [← List.flatMap_append, ← hps, flatten_lex]
          have htext : s.take (n - 1) ++ ps.flatMap (·.text) ++ qs.flatMap (·.text) = s := by
            rw [List.append_assoc, ← hdrop, List.take_append_drop]
          have hprefix : c :: (s.take (n - 1) ++ ps.flatMap (·.text)) <+: c :: s :=
            ⟨qs.flatMap (·.text), congrArg (c :: ·) htext⟩
          have hlen : (s.take (n - 1)).length = n - 1 := by
            rw [List.length_cons] at hn
            rw [List.length_take]
            omega
          -- the longest match lies within the part, so it is the longest there
          have hpick' : pick (c :: (s.take (n - 1) ++ ps.flatMap (·.text))) st.rules =
              some (n, act) := by
            rw [Flex.pick_of_prefix hprefix, hpick]
            intro r a hr m hm hacc
            have hle := hbound r a hr m hm hacc
            rw [List.length_cons, List.length_append, hlen]
            omega
          have hlex := lex_of_some hpick'
          rw [List.take_left' hlen, List.drop_left' hlen, ih hps] at hlex
          exact hlex

/-- A rule that returns a token leaves the lexer in its first state. -/
theorem next_of_token (st : LexState) : ∀ ra ∈ st.rules, ∀ s t,
    ra.2.token s = some t → ra.2.next = .initial := by
  cases st with
  | initial =>
      simp only [LexState.rules, initialRules, List.forall_mem_append, List.forall_mem_map,
        List.forall_mem_cons]
      simp [skip, give, giveText]
  | ignore => simp [LexState.rules, ignoreRules, skip, give]
  | comment => simp [LexState.rules, commentRules, skip]

/-- What follows a piece with a token is cut as a text of its own. -/
theorem lex_suffix {st : LexState} {s : Str} {p : Piece} {ps qs : List Piece} {t : Token}
    (h : lex st s = ps ++ p :: qs) (ht : p.token = some t) :
    lex .initial (qs.flatMap (·.text)) = qs := by
  fun_induction lex st s generalizing ps with
  | case1 st => cases ps <;> cases h
  | case2 st c s hnone ih =>
      cases ps with
      | nil =>
          obtain ⟨rfl, -⟩ := List.cons.inj h
          cases ht
      | cons p' ps => exact ih (List.cons.inj h).2
  | case3 st c s n act hpick text =>
      rename_i ih
      cases ps with
      | nil =>
          obtain ⟨rfl, hqs⟩ := List.cons.inj h
          obtain ⟨-, ⟨r, hr, -⟩, -⟩ := Flex.pick_spec hpick
          rw [next_of_token st (r, act) hr _ _ ht] at hqs
          rw [← hqs, flatten_lex]
      | cons p' ps => exact ih (List.cons.inj h).2

/-- **A text is cut where its tokens are,** and each part has its tokens of its own. -/
theorem tokens_split {text : Str} {ts ts' : List Token} (h : tokens text = ts ++ ts') :
    ∃ u v, text = u ++ v ∧ tokens u = ts ∧ tokens v = ts' := by
  rcases List.eq_nil_or_concat' ts with rfl | ⟨ts₁, t, rfl⟩
  · exact ⟨[], text, rfl, by rw [tokens, lex]; rfl, h⟩
  · have hlive : ∀ t' ∈ ts₁ ++ [t], (!t'.isEnd) = true := by
      intro t' ht'
      have hmem : t' ∈ tokens text := h ▸ List.mem_append_left ts' ht'
      exact List.mem_takeWhile_imp (p := fun t : Token => !t.isEnd) hmem
    obtain ⟨others, hothers⟩ : ∃ others,
        (lex .initial text).filterMap (·.token) = ts₁ ++ t :: others := by
      have happend := List.takeWhile_append_dropWhile (p := fun t : Token => !t.isEnd)
        (l := (lex .initial text).filterMap (·.token))
      rw [show List.takeWhile _ _ = ts₁ ++ [t] ++ ts' from h, List.append_assoc, List.append_assoc]
        at happend
      exact ⟨_, happend.symm⟩
    -- the text is cut behind the match that gives the last of the first tokens
    obtain ⟨ps, qs, hpieces, hps, hqs⟩ := List.filterMap_eq_append_iff.mp hothers
    obtain ⟨ps', p, qs', rfl, hnone, hp, hqs'⟩ := List.filterMap_eq_cons_iff.mp hqs
    have hcut : lex .initial text = (ps ++ ps' ++ [p]) ++ qs' := by
      rw [hpieces]
      simp
    have hfirst : (ps ++ ps' ++ [p]).filterMap (·.token) = ts₁ ++ [t] := by
      have hps' : ps'.filterMap (·.token) = [] := List.filterMap_eq_nil_iff.mpr hnone
      rw [List.filterMap_append, List.filterMap_append, hps, hps', List.append_nil]
      simp [hp]
    refine ⟨(ps ++ ps' ++ [p]).flatMap (·.text), qs'.flatMap (·.text), ?_, ?_, ?_⟩
    · rw [← List.flatMap_append, ← hcut, flatten_lex]
    · rw [tokens, lex_prefix hcut, hfirst]
      exact List.takeWhile_eq_self_iff.mpr hlive
    · have hrest : lex .initial (qs'.flatMap (·.text)) = qs' :=
        lex_suffix (show lex .initial text = (ps ++ ps') ++ p :: qs' by rw [hcut]; simp) hp
      have hall : tokens text = ts₁ ++ [t] ++ tokens (qs'.flatMap (·.text)) := by
        rw [tokens, hothers, List.append_cons, List.takeWhile_append_of_pos hlive, tokens, hrest,
          hqs']
      exact List.append_cancel_left (hall.symm.trans h)

end VulcanDB.Express
