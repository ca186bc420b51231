import VulcanDB.Express.Lexer
import VulcanDB.Express.Schema

/-!
# EXPRESS — The grammar

The rules of `yacc_exp.y`, each a function that takes what it matches off the front of the tokens.
The actions at the end of a declaration run as soon as it is read, so that those before a syntax
error have run; unique conditions are read and ignored.

* `splitString_joined`: the names of a list, which are joined and split again.
* `typeName_wf`: what a name of a type can ask for.
* `declaration_spec`: the keywords `TYPE` and `ENTITY` begin a declaration and nothing else.
-/

namespace VulcanDB.Express

open Cxx

/-! ### What a rule takes -/

/-- Not the beginning of a declaration. -/
def Token.Inner (t : Token) : Prop := t ≠ .type ∧ t ≠ .entity

instance (t : Token) : Decidable t.Inner := inferInstanceAs (Decidable (_ ∧ _))

/-- `rest` is left of `ts`, of which no declaration has begun. -/
def Leaves (ts rest : List Token) : Prop := ∃ used, ts = used ++ rest ∧ ∀ t ∈ used, t.Inner

theorem Leaves.refl (ts : List Token) : Leaves ts ts := ⟨[], rfl, by simp⟩

theorem Leaves.cons {t : Token} {ts rest : List Token} (ht : t.Inner) (h : Leaves ts rest) :
    Leaves (t :: ts) rest := by
  obtain ⟨used, rfl, hu⟩ := h
  exact ⟨t :: used, rfl, List.forall_mem_cons.mpr ⟨ht, hu⟩⟩

theorem Leaves.trans {ts ts' rest : List Token} (h : Leaves ts ts') (h' : Leaves ts' rest) :
    Leaves ts rest := by
  obtain ⟨used, rfl, hu⟩ := h
  obtain ⟨used', rfl, hu'⟩ := h'
  exact ⟨used ++ used', (List.append_assoc ..).symm, List.forall_mem_append.mpr ⟨hu, hu'⟩⟩

theorem Leaves.length_le {ts rest : List Token} (h : Leaves ts rest) : rest.length ≤ ts.length := by
  obtain ⟨used, rfl, -⟩ := h
  simp

/-! ### Lists of names -/

/-- A `LABEL` after a comma, as often as there is one; each with a comma after it. -/
def labelList : List Token → Str × List Token
  | .comma :: .label l :: ts => (l ++ ",".toList ++ (labelList ts).1, (labelList ts).2)
  | ts => ([], ts)

/-- `entity_name_list`, with a comma behind each name. -/
def entityNameList : List Token → Str × List Token
  | .comma :: .entityName n :: ts =>
    (n ++ ",".toList ++ (entityNameList ts).1, (entityNameList ts).2)
  | ts => ([], ts)

/-- `enum_attr`. -/
def enumAttr : List Token → Option (Str × List Token)
  | .label l :: ts => some (l ++ ",".toList ++ (labelList ts).1, (labelList ts).2)
  | _ => none

/-- A list of entity names in braces. -/
def entityNames : List Token → Option (Str × List Token)
  | .entityName n :: ts => some (n ++ ",".toList ++ (entityNameList ts).1, (entityNameList ts).2)
  | _ => none

/-- As many strings as there are commas, each up to one of them. -/
def splitString (s : Str) : List Str := (s.splitOn ',').take (s.count ',')

/-- Names that are joined with commas are cut where they were. -/
theorem splitOn_joined {names : List Str} (h : ∀ n ∈ names, ',' ∉ n) :
    (names.flatMap fun n => n ++ ",".toList).splitOn ',' = names ++ [[]] := by
  induction names with
  | nil => rfl
  | cons n names ih =>
      have hn : ∀ c ∈ n, (c == ',') = false :=
        fun c hc => beq_false_of_ne fun heq => h n (by simp) (heq ▸ hc)
      rw [List.flatMap_cons, List.append_assoc]
      exact (List.splitOnP_append_cons_of_forall_mem hn ',' (beq_self_eq_true ',') _).trans
        (congrArg (n :: ·) (ih fun m hm => h m (List.mem_cons_of_mem _ hm)))

theorem count_joined {names : List Str} (h : ∀ n ∈ names, ',' ∉ n) :
    (names.flatMap fun n => n ++ ",".toList).count ',' = names.length := by
  induction names with
  | nil => rfl
  | cons n names ih =>
      have hn : n.count ',' = 0 := List.count_eq_zero.mpr (h n (by simp))
      rw [List.flatMap_cons, List.count_append, List.count_append, hn,
        ih fun m hm => h m (List.mem_cons_of_mem _ hm), List.length_cons, Nat.add_comm]
      rfl

/-- **`split_string`** gives the names back. -/
theorem splitString_joined {names : List Str} (h : ∀ n ∈ names, ',' ∉ n) :
    splitString (names.flatMap fun n => n ++ ",".toList) = names := by
  rw [splitString, splitOn_joined h, count_joined h, List.take_left]

theorem leaves_labelList (ts : List Token) : Leaves ts (labelList ts).2 := by
  fun_induction labelList ts with
  | case1 l ts ih => exact .cons (by decide) (.cons (by simp [Token.Inner]) ih)
  | case2 ts => exact .refl ts

theorem leaves_entityNameList (ts : List Token) : Leaves ts (entityNameList ts).2 := by
  fun_induction entityNameList ts with
  | case1 n ts ih => exact .cons (by decide) (.cons (by simp [Token.Inner]) ih)
  | case2 ts => exact .refl ts

theorem leaves_enumAttr {ts rest : List Token} {s : Str} (h : enumAttr ts = some (s, rest)) :
    Leaves ts rest := by
  unfold enumAttr at h
  split at h
  · rename_i l ts
    obtain ⟨-, rfl⟩ := Prod.mk.inj (Option.some.inj h)
    exact .cons (by simp [Token.Inner]) (leaves_labelList ts)
  · cases h

theorem leaves_entityNames {ts rest : List Token} {s : Str} (h : entityNames ts = some (s, rest)) :
    Leaves ts rest := by
  unfold entityNames at h
  split at h
  · rename_i n ts
    obtain ⟨-, rfl⟩ := Prod.mk.inj (Option.some.inj h)
    exact .cons (by simp [Token.Inner]) (leaves_entityNameList ts)
  · cases h

/-! ### Types -/

/-- An `int` stored in a `size_t`. -/
def sizeT (n : ℤ) : ℕ := (n % 2 ^ 64).toNat

/-- `[l : u]`, with `?` for no upper bound. -/
def range : List Token → Option ((ℕ × ℕ) × List Token)
  | .lbracket :: .integerValue l :: .colon :: .integerValue u :: .rbracket :: ts =>
    some ((sizeT l, sizeT u), ts)
  | .lbracket :: .integerValue l :: .colon :: .question :: .rbracket :: ts =>
    some ((sizeT l, 2 ^ 32 - 1), ts)
  | _ => none

theorem leaves_range {ts rest : List Token} {r : ℕ × ℕ} (h : range ts = some (r, rest)) :
    Leaves ts rest := by
  unfold range at h
  split at h
  · rename_i l u ts
    obtain ⟨-, rfl⟩ := Prod.mk.inj (Option.some.inj h)
    exact ⟨[.lbracket, .integerValue l, .colon, .integerValue u, .rbracket], rfl,
      by simp [Token.Inner]⟩
  · rename_i l ts
    obtain ⟨-, rfl⟩ := Prod.mk.inj (Option.some.inj h)
    exact ⟨[.lbracket, .integerValue l, .colon, .question, .rbracket], rfl, by simp [Token.Inner]⟩
  · cases h

/-- A name of a type that is no collection. -/
def baseType : List Token → Option (TypeArgs × List Token)
  | .entityName n :: ts => some ({ newTypeNameArgs none .derived with refTypeName := some n }, ts)
  | .string :: .lbrace :: .integerValue v :: .rbrace :: .fixed :: ts =>
    some ({ newTypeNameArgs none .string with ub := sizeT v, fixedLength := true }, ts)
  | .string :: .lbrace :: .integerValue v :: .rbrace :: ts =>
    some ({ newTypeNameArgs none .string with ub := sizeT v }, ts)
  | .real :: ts => some (newTypeNameArgs none .real, ts)
  | .integer :: ts => some (newTypeNameArgs none .integer, ts)
  | .logical :: ts => some (newTypeNameArgs none .logical, ts)
  | .boolean :: ts => some (newTypeNameArgs none .boolean, ts)
  | .number :: ts => some (newTypeNameArgs none .number, ts)
  | .string :: ts => some (newTypeNameArgs none .string, ts)
  | .binary :: .lbrace :: .integerValue v :: .rbrace :: ts =>
    some ({ newTypeNameArgs none .binary with ub := sizeT v }, ts)
  | .binary :: ts => some (newTypeNameArgs none .binary, ts)
  | .enumeration :: .of :: .lbrace :: ts =>
    match enumAttr ts with
    | some (s, .rbrace :: ts) =>
      some ({ newTypeNameArgs none .enum with enumList := splitString s }, ts)
    | _ => none
  | .select :: .lbrace :: ts =>
    match entityNames ts with
    | some (s, .rbrace :: ts) =>
      some ({ newTypeNameArgs none .select with selectList := splitString s }, ts)
    | _ => none
  | _ => none

/-- A type: aggregates around a base type. -/
def typeName : List Token → Option (TypeArgs × List Token)
  | .list :: ts =>
    match _h : range ts with
    | some (_, .of :: .unique :: ts) =>
      (typeName ts).map fun p => ({ p.1 with isList := true }, p.2)
    | some (r, .of :: ts) =>
      (typeName ts).map fun p => ({ p.1 with isList := true, lb := r.1, ub := r.2 }, p.2)
    | _ => none
  | .set :: ts =>
    match _h : range ts with
    | some (_, .of :: ts) => (typeName ts).map fun p => ({ p.1 with isList := true }, p.2)
    | _ => none
  | .array :: ts =>
    match _h : range ts with
    | some (_, .of :: ts) => (typeName ts).map fun p => ({ p.1 with isList := true }, p.2)
    | _ => none
  | ts => baseType ts
termination_by ts => ts.length
decreasing_by
  all_goals
    have := (leaves_range _h).length_le
    simp only [List.length_cons] at this ⊢
    omega

/-- What a name of a type can ask for. -/
structure TypeArgs.Wf (args : TypeArgs) : Prop where
  derived : args.type = .derived ↔ args.refTypeName.isSome
  reference : args.type ≠ .reference
  select : args.selectList ≠ [] → args.type = .select

/-- What a base type leaves and returns. -/
theorem baseType_spec {ts rest : List Token} {args : TypeArgs}
    (h : baseType ts = some (args, rest)) : Leaves ts rest ∧ args.Wf := by
  unfold baseType at h
  split at h
  case h_12 ts =>
    split at h
    · rename_i s ts' hs
      obtain ⟨rfl, rfl⟩ := Prod.mk.inj (Option.some.inj h)
      have hnames := (leaves_enumAttr hs).trans (.cons (by decide) (.refl _))
      exact ⟨.cons (by decide) (.cons (by decide) (.cons (by decide) hnames)),
        by simp [newTypeNameArgs], by simp [newTypeNameArgs], by simp [newTypeNameArgs]⟩
    · cases h
  case h_13 ts =>
    split at h
    · rename_i s ts' hs
      obtain ⟨rfl, rfl⟩ := Prod.mk.inj (Option.some.inj h)
      have hnames := (leaves_entityNames hs).trans (.cons (by decide) (.refl _))
      exact ⟨.cons (by decide) (.cons (by decide) hnames), by simp [newTypeNameArgs],
        by simp [newTypeNameArgs], by simp [newTypeNameArgs]⟩
    · cases h
  case h_14 => cases h
  all_goals
    obtain ⟨rfl, rfl⟩ := Prod.mk.inj (Option.some.inj h)
    refine ⟨?_, by simp [newTypeNameArgs], by simp [newTypeNameArgs], by simp [newTypeNameArgs]⟩
    repeat' first
      | exact Leaves.refl _
      | refine Leaves.cons (by simp [Token.Inner]) ?_

/-- The tokens of a collection, before the type of its elements. -/
theorem leaves_collection {k : Token} {ts ts' rest : List Token} {r : ℕ × ℕ} (hk : k.Inner)
    (used : List Token) (hr : range ts = some (r, used ++ ts')) (hused : ∀ t ∈ used, t.Inner)
    (h : Leaves ts' rest) : Leaves (k :: ts) rest :=
  .cons hk ((leaves_range hr).trans (.trans ⟨used, rfl, hused⟩ h))

/-- **What a type leaves and returns**, by induction on its levels. -/
theorem typeName_spec {ts rest : List Token} {args : TypeArgs}
    (h : typeName ts = some (args, rest)) : Leaves ts rest ∧ args.Wf := by
  fun_induction typeName ts generalizing args rest with
  | case1 ts r ts' hr ih =>
      obtain ⟨⟨a, rest'⟩, ha, heq⟩ := Option.map_eq_some_iff.mp h
      obtain ⟨rfl, rfl⟩ := Prod.mk.inj heq
      obtain ⟨hl, hwf⟩ := ih ha
      exact ⟨leaves_collection (by decide) [.of, .unique] hr (by decide) hl, hwf.1, hwf.2, hwf.3⟩
  | case2 ts r ts' _ hr ih =>
      obtain ⟨⟨a, rest'⟩, ha, heq⟩ := Option.map_eq_some_iff.mp h
      obtain ⟨rfl, rfl⟩ := Prod.mk.inj heq
      obtain ⟨hl, hwf⟩ := ih ha
      exact ⟨leaves_collection (by decide) [.of] hr (by decide) hl, hwf.1, hwf.2, hwf.3⟩
  | case4 ts r ts' hr ih | case6 ts r ts' hr ih =>
      obtain ⟨⟨a, rest'⟩, ha, heq⟩ := Option.map_eq_some_iff.mp h
      obtain ⟨rfl, rfl⟩ := Prod.mk.inj heq
      obtain ⟨hl, hwf⟩ := ih ha
      exact ⟨leaves_collection (by decide) [.of] hr (by decide) hl, hwf.1, hwf.2, hwf.3⟩
  | case8 ts => exact baseType_spec h
  | case3 | case5 | case7 => cases h

/-! ### Entities -/

/-- The names between the outer braces of `SUPERTYPE OF`, and the closing brace. -/
def supertypeNames : List Token → Option (List Str × List Token)
  | .entityName n :: .rbrace :: ts => some ([n], ts)
  | .oneof :: .lbrace :: ts =>
    match entityNames ts with
    | some (s, .rbrace :: .rbrace :: ts) => some (splitString s, ts)
    | _ => none
  | _ => none

/-- Whether the entity is abstract, and its subtypes. -/
def supertypeOf : List Token → Option ((Bool × List Str) × List Token)
  | .supertype :: .of :: .lbrace :: ts =>
    (supertypeNames ts).map fun p => ((false, p.1), p.2)
  | .abstract :: .supertype :: .of :: .lbrace :: ts =>
    (supertypeNames ts).map fun p => ((true, p.1), p.2)
  | ts => some ((false, []), ts)

/-- `SUBTYPE OF`. -/
def subtypeOf : List Token → Option Str × List Token
  | .subtype :: .of :: .lbrace :: .entityName n :: .rbrace :: ts => (some n, ts)
  | ts => (none, ts)

/-- The type of an attribute, up to the semicolon. -/
def attrOf (name : Str) (isOptional : Bool) (ts : List Token) : Option (AttrArgs × List Token) :=
  match typeName ts with
  | some (args, .semicolon :: ts) => some (⟨name, args, isOptional⟩, ts)
  | _ => none

/-- The next attribute, if there is one. -/
def nextAttr : List Token → Option (AttrArgs × List Token)
  | .label l :: .colon :: .optional :: ts => attrOf l true ts
  | .label l :: .colon :: ts => attrOf l false ts
  | _ => none

/-- What an attribute leaves and returns. -/
theorem nextAttr_spec {ts rest : List Token} {a : AttrArgs} (h : nextAttr ts = some (a, rest)) :
    Leaves ts rest ∧ rest.length < ts.length ∧ a.type.Wf := by
  have hattr : ∀ {l b ts'}, attrOf l b ts' = some (a, rest) → Leaves ts' rest ∧ a.type.Wf := by
    intro l b ts' h
    unfold attrOf at h
    split at h
    · rename_i args ts'' hargs
      obtain ⟨rfl, rfl⟩ := Prod.mk.inj (Option.some.inj h)
      obtain ⟨hl, hwf⟩ := typeName_spec hargs
      exact ⟨hl.trans (.cons (by decide) (.refl _)), hwf⟩
    · cases h
  unfold nextAttr at h
  split at h
  · obtain ⟨hl, hwf⟩ := hattr h
    have hlen := hl.length_le
    refine ⟨.cons (by simp [Token.Inner]) (.cons (by decide) (.cons (by decide) hl)), ?_, hwf⟩
    simp only [List.length_cons]
    omega
  · obtain ⟨hl, hwf⟩ := hattr h
    have hlen := hl.length_le
    refine ⟨.cons (by simp [Token.Inner]) (.cons (by decide) hl), ?_, hwf⟩
    simp only [List.length_cons]
    omega
  · cases h

/-- The attributes in the order of the arrays: an attribute is appended after those that follow
it. -/
def entityAttr (ts : List Token) : List AttrArgs × List Token :=
  match _h : nextAttr ts with
  | none => ([], ts)
  | some (a, ts) => ((entityAttr ts).1 ++ [a], (entityAttr ts).2)
termination_by ts.length
decreasing_by
  all_goals exact (nextAttr_spec _h).2.1

/-- What the attributes of an entity leave and return. -/
theorem entityAttr_spec (ts : List Token) :
    Leaves ts (entityAttr ts).2 ∧ ∀ a ∈ (entityAttr ts).1, a.type.Wf := by
  fun_induction entityAttr ts with
  | case1 ts _ => exact ⟨.refl ts, by simp⟩
  | case2 ts a ts' h ih =>
      obtain ⟨hl, -, hwf⟩ := nextAttr_spec h
      refine ⟨hl.trans ih.1, fun b hb => ?_⟩
      rcases List.mem_append.mp hb with hb | hb
      · exact ih.2 b hb
      · rw [List.mem_singleton.mp hb]
        exact hwf

/-- One condition of `UNIQUE`, or of `WHERE`. -/
def condition : List Token → Option (List Token)
  | .label _ :: .colon :: .label _ :: ts =>
    match labelList ts with
    | (_, .semicolon :: ts) => some ts
    | _ => none
  | _ => none

theorem condition_spec {ts rest : List Token} (h : condition ts = some rest) :
    Leaves ts rest ∧ rest.length < ts.length := by
  unfold condition at h
  split at h
  · rename_i l l' ts
    have hlabels := leaves_labelList ts
    split at h
    · rename_i s ts' hs
      obtain rfl := Option.some.inj h
      rw [hs] at hlabels
      have hl := hlabels.trans (.cons (by decide) (.refl _))
      have hlen := hl.length_le
      refine ⟨.cons (by simp [Token.Inner]) (.cons (by decide) (.cons (by simp [Token.Inner]) hl)), ?_⟩
      simp only [List.length_cons]
      omega
    · cases h
  · cases h

/-- The conditions behind the first. -/
def uniqueConditionList (ts : List Token) : List Token :=
  match _h : condition ts with
  | none => ts
  | some ts => uniqueConditionList ts
termination_by ts.length
decreasing_by
  all_goals exact (condition_spec _h).2

theorem leaves_uniqueConditionList (ts : List Token) : Leaves ts (uniqueConditionList ts) := by
  fun_induction uniqueConditionList ts with
  | case1 ts _ => exact .refl ts
  | case2 ts ts' h ih => exact (condition_spec h).1.trans ih

/-- `UNIQUE`, if it is there. -/
def uniqueCondition : List Token → Option (List Token)
  | .unique :: ts => (condition ts).map uniqueConditionList
  | ts => some ts

theorem leaves_uniqueCondition {ts rest : List Token} (h : uniqueCondition ts = some rest) :
    Leaves ts rest := by
  unfold uniqueCondition at h
  split at h
  · obtain ⟨ts', hc, rfl⟩ := Option.map_eq_some_iff.mp h
    exact .cons (by decide) ((condition_spec hc).1.trans (leaves_uniqueConditionList ts'))
  · obtain rfl := Option.some.inj h
    exact .refl _

theorem leaves_supertypeNames {ts rest : List Token} {names : List Str}
    (h : supertypeNames ts = some (names, rest)) : Leaves ts rest := by
  unfold supertypeNames at h
  split at h
  · obtain ⟨-, rfl⟩ := Prod.mk.inj (Option.some.inj h)
    exact .cons (by simp [Token.Inner]) (.cons (by decide) (.refl _))
  · split at h
    · rename_i s ts' hs
      obtain ⟨-, rfl⟩ := Prod.mk.inj (Option.some.inj h)
      have hnames := (leaves_entityNames hs).trans ⟨[.rbrace, .rbrace], rfl, by decide⟩
      exact .cons (by decide) (.cons (by decide) hnames)
    · cases h
  · cases h

theorem leaves_supertypeOf {ts rest : List Token} {r : Bool × List Str}
    (h : supertypeOf ts = some (r, rest)) : Leaves ts rest := by
  unfold supertypeOf at h
  split at h
  · obtain ⟨⟨names, rest'⟩, hn, heq⟩ := Option.map_eq_some_iff.mp h
    obtain ⟨-, rfl⟩ := Prod.mk.inj heq
    exact .cons (by decide) (.cons (by decide) (.cons (by decide) (leaves_supertypeNames hn)))
  · obtain ⟨⟨names, rest'⟩, hn, heq⟩ := Option.map_eq_some_iff.mp h
    obtain ⟨-, rfl⟩ := Prod.mk.inj heq
    exact .cons (by decide) (.cons (by decide) (.cons (by decide) (.cons (by decide)
      (leaves_supertypeNames hn))))
  · obtain ⟨-, rfl⟩ := Prod.mk.inj (Option.some.inj h)
    exact .refl _

theorem leaves_subtypeOf (ts : List Token) : Leaves ts (subtypeOf ts).2 := by
  unfold subtypeOf
  split
  · exact .cons (by decide) (.cons (by decide) (.cons (by decide) (.cons (by simp [Token.Inner])
      (.cons (by decide) (.refl _)))))
  · exact .refl _

/-! ### Declarations -/

/-- What a declaration declares. -/
inductive Kind where
  | type | entity
  deriving DecidableEq

/-- The token of the keyword. -/
def Kind.token : Kind → Token
  | .type => .type
  | .entity => .entity

/-- A declaration with its arguments. -/
inductive Declaration where
  | type (args : TypeArgs)
  | entity (args : EntityArgs)
  deriving DecidableEq

/-- Of a type, or of an entity. -/
def Declaration.kind : Declaration → Kind
  | .type _ => .type
  | .entity _ => .entity

/-- The name that is declared. -/
def Declaration.name : Declaration → Option Str
  | .type args => args.typeName
  | .entity args => some args.entityName

/-- Its types are as the actions leave them. -/
def Declaration.Wf : Declaration → Prop
  | .type args => args.Wf
  | .entity args => ∀ a ∈ args.attrs, a.type.Wf

/-- `TYPE name = type; END_TYPE;`, behind the name. -/
def typeDeclaration (name : Str) (ts : List Token) : Option (Declaration × List Token) :=
  match typeName ts with
  | some (args, .semicolon :: .endType :: .semicolon :: ts) =>
    some (.type { args with typeName := name }, ts)
  | _ => none

/-- `SEMICOLON entity_attr unique_condition END_ENTITY SEMICOLON`. -/
def entityBody : List Token → Option (List AttrArgs × List Token)
  | .semicolon :: ts =>
    match uniqueCondition (entityAttr ts).2 with
    | some (.endEntity :: .semicolon :: rest) => some ((entityAttr ts).1, rest)
    | _ => none
  | _ => none

/-- An entity, behind its name. -/
def entityDeclaration (name : Str) (ts : List Token) : Option (Declaration × List Token) := do
  let ((isAbstract, subtypes), ts) ← supertypeOf ts
  let (supertype, ts) := subtypeOf ts
  let (attrs, ts) ← entityBody ts
  return (.entity ⟨name, isAbstract, attrs, subtypes, supertype⟩, ts)

/-- One declaration. -/
def declaration : List Token → Option (Declaration × List Token)
  | .type :: .entityName n :: .eq :: ts => typeDeclaration n ts
  | .entity :: .entityName n :: ts => entityDeclaration n ts
  | _ => none

theorem typeDeclaration_spec {name : Str} {ts rest : List Token} {d : Declaration}
    (h : typeDeclaration name ts = some (d, rest)) :
    Leaves ts rest ∧ d.kind = .type ∧ d.name = some name ∧ d.Wf := by
  unfold typeDeclaration at h
  split at h
  · rename_i args ts' hargs
    obtain ⟨rfl, rfl⟩ := Prod.mk.inj (Option.some.inj h)
    obtain ⟨hl, hwf⟩ := typeName_spec hargs
    have hend : Leaves ts ts' := hl.trans ⟨[.semicolon, .endType, .semicolon], rfl, by decide⟩
    exact ⟨hend, rfl, rfl, hwf.derived, hwf.reference, hwf.select⟩
  · cases h

/-- What the body of an entity leaves and returns. -/
theorem entityBody_spec {ts rest : List Token} {attrs : List AttrArgs}
    (h : entityBody ts = some (attrs, rest)) :
    Leaves ts rest ∧ ∀ a ∈ attrs, a.type.Wf := by
  unfold entityBody at h
  split at h
  · rename_i ts
    split at h
    · rename_i ts' hu
      obtain ⟨rfl, rfl⟩ := Prod.mk.inj (Option.some.inj h)
      obtain ⟨hl, hwf⟩ := entityAttr_spec ts
      have hend : Leaves ts ts' := (hl.trans (leaves_uniqueCondition hu)).trans
        ⟨[.endEntity, .semicolon], rfl, by decide⟩
      exact ⟨.cons (by decide) hend, hwf⟩
    · cases h
  · cases h

theorem entityDeclaration_spec {name : Str} {ts rest : List Token} {d : Declaration}
    (h : entityDeclaration name ts = some (d, rest)) :
    Leaves ts rest ∧ d.kind = .entity ∧ d.name = some name ∧ d.Wf := by
  simp only [entityDeclaration, Option.bind_eq_bind, Option.bind_eq_some_iff, Prod.exists,
    Option.pure_def, Option.some.injEq, Prod.mk.injEq] at h
  obtain ⟨isAbstract, subtypes, ts', hsup, attrs, rest', hbody, rfl, rfl⟩ := h
  obtain ⟨hl, hwf⟩ := entityBody_spec hbody
  exact ⟨(leaves_supertypeOf hsup).trans ((leaves_subtypeOf ts').trans hl), rfl, rfl, hwf⟩

/-- **One declaration** begins with its keyword and its name. -/
theorem declaration_spec {ts rest : List Token} {d : Declaration}
    (h : declaration ts = some (d, rest)) :
    ∃ n ts', ts = d.kind.token :: .entityName n :: ts' ∧ Leaves ts' rest ∧ d.name = some n ∧ d.Wf := by
  unfold declaration at h
  split at h
  · rename_i n ts
    obtain ⟨hl, hk, hn, hwf⟩ := typeDeclaration_spec h
    exact ⟨n, _, by rw [hk]; rfl, .cons (by decide) hl, hn, hwf⟩
  · rename_i n ts
    obtain ⟨hl, hk, hn, hwf⟩ := entityDeclaration_spec h
    exact ⟨n, _, by rw [hk]; rfl, hl, hn, hwf⟩
  · cases h

/-- The declarations that are read, and whether the end of the schema follows them. -/
def declarations (ts : List Token) : List Declaration × Bool :=
  match _h : declaration ts with
  | none => ([], ts = [.endSchema, .semicolon])
  | some (d, ts) => (d :: (declarations ts).1, (declarations ts).2)
termination_by ts.length
decreasing_by
  all_goals
    obtain ⟨n, ts', hts, hl, -⟩ := declaration_spec _h
    have hlen := hl.length_le
    rw [hts]
    simp only [List.length_cons]
    omega

/-- The declarations that are read, and whether the schema is accepted. -/
def schema : List Token → List Declaration × Bool
  | .schema :: .label _ :: .semicolon :: ts =>
    ((declarations ts).1, (declarations ts).2 && !(declarations ts).1.isEmpty)
  | _ => ([], false)

theorem declarations_wf (ts : List Token) : ∀ d ∈ (declarations ts).1, d.Wf := by
  fun_induction declarations ts with
  | case1 => simp
  | case2 ts d ts' h ih =>
      obtain ⟨n, ts'', -, -, -, hwf⟩ := declaration_spec h
      exact List.forall_mem_cons.mpr ⟨hwf, ih⟩

/-- The declarations of a schema are as the actions leave them. -/
theorem schema_wf (ts : List Token) : ∀ d ∈ (schema ts).1, d.Wf := by
  unfold schema
  split
  · exact declarations_wf _
  · simp

end VulcanDB.Express
