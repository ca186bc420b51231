import VulcanDB.Express.Grammar
import VulcanDB.Library.StdMap

/-!
# EXPRESS — The parser

`ExpressParser::parse` reads a text twice.  The first pass cuts it into words at blanks and
semicolons, and enters the word after each `TYPE` and `ENTITY` into the tables; the second runs the
actions of the grammar on the records entered.  Positions are unbounded here; with those of the
code, of which one is an `int`, the first pass is the same on a text of fewer than `2 ^ 31`
characters (`PreScan.preprocessLoop_eq`).

* `preprocess_eq`: the first pass enters the names of `registrations` in their order.
* `foldlM_eq_error`: where a list of steps stops.
-/

namespace VulcanDB.Express

open Cxx Steps

/-- `ExpressParser::Context`: the two indexes and the schema. -/
structure Context where
  typeIdIndex : StdMap Str ℕ
  entityIdIndex : StdMap Str ℕ
  schema : Schema

/-- Before the first pass. -/
def Context.new : Context := ⟨∅, ∅, newSchema⟩

/-! ### The first pass -/

/-- What stands between two words. -/
def isSeparator (c : Char) : Bool := c ∈ [' ', '\n', '\t', ';']

/-- `Token::has_next`, on what follows the token. -/
def hasNext (s : Str) : Bool := s.any fun c => !isSeparator c

/-- `Token::next`: the next token, and what follows it. -/
def nextToken (s : Str) : Str × Str :=
  let s := s.dropWhile isSeparator
  (s.takeWhile fun c => !isSeparator c, s.dropWhile fun c => !isSeparator c)

/-- A name is entered into its table and its index. -/
def Context.register (c : Context) : Kind × Str → Except Stop Context
  | (.type, name) => do
    let s ← addTypeToSchema c.schema name
    return { c with schema := s, typeIdIndex := c.typeIdIndex.assign name (s.types.length - 1) }
  | (.entity, name) => do
    let s ← addEntityToSchema c.schema name
    return { c with
      schema := s, entityIdIndex := c.entityIdIndex.assign name (s.entities.length - 1) }

/-- The word that announces a name. -/
def announces (w : Str) : Option Kind :=
  if w = "TYPE".toList then some .type
  else if w = "ENTITY".toList then some .entity
  else none

/-- What is left of a text without the separators it begins with. -/
theorem dropWhile_isSeparator (s : Str) :
    (hasNext s = false ∧ s.dropWhile isSeparator = []) ∨
    (hasNext s = true ∧ ∃ c t, s.dropWhile isSeparator = c :: t ∧ isSeparator c = false) := by
  induction s with
  | nil => exact .inl ⟨rfl, rfl⟩
  | cons c s ih =>
      cases hc : isSeparator c with
      | true =>
          have hnext : hasNext (c :: s) = hasNext s := by simp [hasNext, hc]
          rwa [hnext, List.dropWhile_cons_of_pos hc]
      | false =>
          have hdrop : (c :: s).dropWhile isSeparator = c :: s :=
            List.dropWhile_cons_of_neg (by simp [hc])
          exact .inr ⟨by simp [hasNext, hc], c, s, hdrop, hc⟩

/-- There is a word exactly when there is another character. -/
theorem nextToken_eq_nil {s : Str} : (nextToken s).1 = [] ↔ hasNext s = false := by
  rcases dropWhile_isSeparator s with ⟨hn, hd⟩ | ⟨hn, c, t, hd, hc⟩
  · simp [nextToken, hn, hd]
  · simp [nextToken, hn, hd, hc]

/-- What follows a word is no longer than the text. -/
theorem nextToken_length_le (s : Str) : (nextToken s).2.length ≤ s.length :=
  (List.dropWhile_suffix _).length_le.trans (List.dropWhile_suffix _).length_le

theorem nextToken_length {s : Str} (h : hasNext s = true) : (nextToken s).2.length < s.length := by
  rcases dropWhile_isSeparator s with ⟨hn, -⟩ | ⟨-, c, t, hd, hc⟩
  · rw [hn] at h
    cases h
  · have hle : (s.dropWhile isSeparator).length ≤ s.length := (List.dropWhile_suffix _).length_le
    have ht : (t.dropWhile fun c => !isSeparator c).length ≤ t.length :=
      (List.dropWhile_suffix _).length_le
    rw [hd, List.length_cons] at hle
    rw [nextToken, hd, List.dropWhile_cons_of_pos (by simp [hc])]
    exact ht.trans_lt hle

/-- **The first pass**: the word behind each keyword is entered. -/
def preprocess (c : Context) (s : Str) : Except Stop Context :=
  if _h : hasNext s then
    match announces (nextToken s).1 with
    | some k => do
      let name := (nextToken (nextToken s).2).1
      require (name ≠ []) .exit
      preprocess (← c.register (k, name)) (nextToken (nextToken s).2).2
    | none => preprocess c (nextToken s).2
  else .ok c
termination_by s.length
decreasing_by
  · exact (nextToken_length_le _).trans_lt (nextToken_length _h)
  · exact nextToken_length _h

/-- The words of a text. -/
def words (s : Str) : List Str :=
  if _h : hasNext s then (nextToken s).1 :: words (nextToken s).2 else []
termination_by s.length
decreasing_by exact nextToken_length _h

/-- The names after the words that announce one, and whether each of these has a word after it. -/
def registrations : List Str → List (Kind × Str) × Bool
  | [] => ([], true)
  | w :: ws =>
    match announces w with
    | none => registrations ws
    | some k =>
      match ws with
      | [] => ([], false)
      | name :: ws => ((k, name) :: (registrations ws).1, (registrations ws).2)

theorem words_of_hasNext {s : Str} (h : hasNext s = true) :
    words s = (nextToken s).1 :: words (nextToken s).2 := by
  rw [words, dif_pos h]

theorem words_of_not_hasNext {s : Str} (h : ¬ hasNext s = true) : words s = [] := by
  rw [words, dif_neg h]

/-- **The first pass enters the names that are announced.** -/
theorem preprocess_eq (c : Context) (s : Str) : preprocess c s = (do
    let c ← (registrations (words s)).1.foldlM Context.register c
    require (registrations (words s)).2 .exit
    return c) := by
  fun_induction preprocess c s with
  | case1 c s hnext k hk name ih =>
      rw [words_of_hasNext hnext]
      by_cases hname : hasNext (nextToken s).2 = true
      · have hne : name ≠ [] := mt nextToken_eq_nil.mp (by simp [hname])
        rw [words_of_hasNext hname, registrations, hk]
        simp only [List.foldlM_cons, bind_assoc]
        rw [require, if_pos hne]
        exact bind_congr fun c' => ih c'
      · have hnil : name = [] := nextToken_eq_nil.mpr (by simpa using hname)
        rw [words_of_not_hasNext hname, registrations, hk]
        simp [require, hnil, bind, Except.bind, pure, Except.pure]
  | case2 c s hnext hk ih =>
      rw [ih, words_of_hasNext hnext, registrations, hk]
  | case3 c s hnext =>
      rw [words_of_not_hasNext hnext]
      rfl

/-! ### The second pass -/

/-- `init_type`. -/
def initType (c : Context) (args : TypeArgs) : Except Stop Context := do
  match args.typeName with
  | none => throw .null
  | some name =>
    -- `operator[]` enters an unknown name, with the index 0
    let index := c.typeIdIndex.insertNew name 0
    let i := (index.find name).getD 0
    match c.schema.types[i]? with
    | none => throw .unset
    | some t =>
      let t ← assignTypeArgs (some c.schema) t args
      return { c with
        typeIdIndex := index, schema := { c.schema with types := c.schema.types.set i t } }

/-- `init_entity`. -/
def initEntity (c : Context) (args : EntityArgs) : Except Stop Context := do
  let index := c.entityIdIndex.insertNew args.entityName 0
  let i := (index.find args.entityName).getD 0
  match c.schema.entities[i]? with
  | none => throw .unset
  | some e =>
    require (e.name = args.entityName) .assertion
    let s ← assignEntityArgs c.schema i args
    return { c with entityIdIndex := index, schema := s }

/-- The call for a declaration. -/
def Context.declare (c : Context) : Declaration → Except Stop Context
  | .type args => initType c args
  | .entity args => initEntity c args

/-- `ExpressParser::parse`, with the result of `express_parse`. -/
def parse (text : Str) : Except Stop (Context × ℕ) := do
  let c ← preprocess .new text
  let c ← (schema (tokens text)).1.foldlM Context.declare c
  return (c, if (schema (tokens text)).2 then 0 else 1)

/-- The schema of the context that is returned, and the result. -/
def parsedSchema (text : Str) : Except Stop (Schema × ℕ) :=
  (parse text).map fun r => (r.1.schema, r.2)

/-- What the schema of a parse says of the parse. -/
theorem parsedSchema_ok {text : Str} {s : Schema} {r : ℕ} (h : parsedSchema text = .ok (s, r)) :
    ∃ c, parse text = .ok (c, r) ∧ c.schema = s := by
  unfold parsedSchema at h
  cases hp : parse text with
  | error e =>
      rw [hp] at h
      cases h
  | ok p =>
      rw [hp] at h
      obtain ⟨rfl, rfl⟩ := Prod.mk.inj (Except.ok.inj h)
      exact ⟨p.1, rfl, rfl⟩

theorem parsedSchema_error {text : Str} {e : Stop} (h : parsedSchema text = .error e) :
    parse text = .error e := by
  unfold parsedSchema at h
  cases hp : parse text with
  | error e' =>
      rw [hp] at h
      exact congrArg _ (Except.error.inj h)
  | ok p =>
      rw [hp] at h
      cases h

end VulcanDB.Express
