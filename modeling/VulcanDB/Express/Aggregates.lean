import VulcanDB.Express.NameLists

/-!
# EXPRESS — Aggregates

A name of a type as it is derived from the grammar, and what the actions make of it: one flat
record, in which each aggregate is entered over the type of its elements.

* `typeName_iff`: the names of types that are read are the derivations.
* `aggregates_recorded`: what is recorded of the aggregates.
-/

namespace VulcanDB.Express

open Cxx

/-! ### Derivations -/

/-- The alternatives of `type_name` without a name of a type in them. -/
inductive BaseName where
  | entityName (n : Str)
  | fixedString (width : ℤ)
  | wideString (width : ℤ)
  | real
  | integer
  | logical
  | boolean
  | number
  | string
  | wideBinary (width : ℤ)
  | binary
  | enumeration (l : Str) (ls : List Str)
  | select (n : Str) (ns : List Str)

/-- How a base type is written. -/
def BaseName.tokens : BaseName → List Token
  | .entityName n => [.entityName n]
  | .fixedString v => [.string, .lbrace, .integerValue v, .rbrace, .fixed]
  | .wideString v => [.string, .lbrace, .integerValue v, .rbrace]
  | .real => [.real]
  | .integer => [.integer]
  | .logical => [.logical]
  | .boolean => [.boolean]
  | .number => [.number]
  | .string => [.string]
  | .wideBinary v => [.binary, .lbrace, .integerValue v, .rbrace]
  | .binary => [.binary]
  | .enumeration l ls =>
    .enumeration :: .of :: .lbrace :: .label l ::
      (ls.flatMap fun l => [.comma, .label l]) ++ [.rbrace]
  | .select n ns => .select :: .lbrace :: .entityName n ::
      (ns.flatMap fun n => [.comma, .entityName n]) ++ [.rbrace]

/-- What the action for it returns. -/
def BaseName.args : BaseName → TypeArgs
  | .entityName n => { newTypeNameArgs none .derived with refTypeName := some n }
  | .fixedString v => { newTypeNameArgs none .string with ub := sizeT v, fixedLength := true }
  | .wideString v => { newTypeNameArgs none .string with ub := sizeT v }
  | .real => newTypeNameArgs none .real
  | .integer => newTypeNameArgs none .integer
  | .logical => newTypeNameArgs none .logical
  | .boolean => newTypeNameArgs none .boolean
  | .number => newTypeNameArgs none .number
  | .string => newTypeNameArgs none .string
  | .wideBinary v => { newTypeNameArgs none .binary with ub := sizeT v }
  | .binary => newTypeNameArgs none .binary
  | .enumeration l ls =>
    { newTypeNameArgs none .enum with enumList := splitString (joined (l :: ls)) }
  | .select n ns =>
    { newTypeNameArgs none .select with selectList := splitString (joined (n :: ns)) }

/-- `range`, without an upper bound for a question mark. -/
structure Bounds where
  lower : ℤ
  upper : Option ℤ
  deriving DecidableEq

/-- How a range is written. -/
def Bounds.tokens (b : Bounds) : List Token :=
  [.lbracket, .integerValue b.lower, .colon, b.upper.elim .question .integerValue, .rbracket]

/-- The two bounds, as the actions store them. -/
def Bounds.value (b : Bounds) : ℕ × ℕ := (sizeT b.lower, b.upper.elim (2 ^ 32 - 1) sizeT)

/-- The words for an aggregate; a list may be of unique elements. -/
inductive Aggregate where
  | list | uniqueList | set | array
  deriving DecidableEq

/-- Its first token. -/
def Aggregate.token : Aggregate → Token
  | .list => .list
  | .uniqueList => .list
  | .set => .set
  | .array => .array

/-- What stands before the type of the elements. -/
def Aggregate.tokens (k : Aggregate) (b : Bounds) : List Token :=
  k.token :: b.tokens ++ .of :: if k = .uniqueList then [.unique] else []

/-- A type: a base type, or an aggregate of another type. -/
inductive TypeName where
  | base (b : BaseName)
  | aggregate (k : Aggregate) (b : Bounds) (element : TypeName)

namespace TypeName

/-- How it is written. -/
def tokens : TypeName → List Token
  | .base b => b.tokens
  | .aggregate k b element => k.tokens b ++ element.tokens

/-- What the actions make of it. -/
def args : TypeName → TypeArgs
  | .base b => b.args
  | .aggregate .list b element =>
    { element.args with isList := true, lb := b.value.1, ub := b.value.2 }
  | .aggregate .uniqueList _ element => { element.args with isList := true }
  | .aggregate .set _ element => { element.args with isList := true }
  | .aggregate .array _ element => { element.args with isList := true }

/-- The number of its levels. -/
def depth : TypeName → ℕ
  | .base _ => 0
  | .aggregate _ _ element => element.depth + 1

/-- What it is an aggregate of at last. -/
def baseName : TypeName → BaseName
  | .base b => b
  | .aggregate _ _ element => element.baseName

/-- The range of a name that is a `LIST`, without `UNIQUE`. -/
def listRange : TypeName → Option (ℕ × ℕ)
  | .aggregate .list b _ => some b.value
  | _ => none

end TypeName

/-! ### Reading -/

theorem range_tokens (b : Bounds) (ts : List Token) :
    range (b.tokens ++ ts) = some (b.value, ts) := by
  obtain ⟨l, u⟩ := b
  cases u <;> rfl

theorem exists_bounds {ts rest : List Token} {r : ℕ × ℕ} (h : range ts = some (r, rest)) :
    ∃ b : Bounds, ts = b.tokens ++ rest ∧ b.value = r := by
  unfold range at h
  split at h
  · rename_i l u ts
    obtain ⟨rfl, rfl⟩ := Prod.mk.inj (Option.some.inj h)
    exact ⟨⟨l, some u⟩, rfl, rfl⟩
  · rename_i l ts
    obtain ⟨rfl, rfl⟩ := Prod.mk.inj (Option.some.inj h)
    exact ⟨⟨l, none⟩, rfl, rfl⟩
  · cases h

/-- The rest of a list of labels is read. -/
theorem labelList_spelled (ls : List Str) {rest : List Token}
    (hrest : labelList rest = ([], rest)) :
    labelList ((ls.flatMap fun l => [.comma, .label l]) ++ rest) = (joined ls, rest) := by
  induction ls with
  | nil => exact hrest
  | cons l ls ih =>
      show labelList (.comma :: .label l :: ((ls.flatMap fun l => [.comma, .label l]) ++ _)) = _
      rw [labelList, ih]
      rfl

/-- The rest of a list of names is read. -/
theorem entityNameList_spelled (ns : List Str) (rest : List Token) :
    entityNameList ((ns.flatMap fun n => [.comma, .entityName n]) ++ .rbrace :: rest) =
      (joined ns, .rbrace :: rest) := by
  induction ns with
  | nil => rfl
  | cons n ns ih =>
      show entityNameList (.comma :: .entityName n ::
        ((ns.flatMap fun n => [.comma, .entityName n]) ++ _)) = _
      rw [entityNameList, ih]
      rfl

theorem enumAttr_spelled (l : Str) (ls : List Str) (rest : List Token) :
    enumAttr (.label l :: (ls.flatMap fun l => [.comma, .label l]) ++ .rbrace :: rest) =
      some (joined (l :: ls), .rbrace :: rest) := by
  rw [List.cons_append, enumAttr, labelList_spelled ls rfl]
  rfl

theorem entityNames_spelled (n : Str) (ns : List Str) (rest : List Token) :
    entityNames (.entityName n :: (ns.flatMap fun n => [.comma, .entityName n]) ++ .rbrace :: rest) =
      some (joined (n :: ns), .rbrace :: rest) := by
  rw [List.cons_append, entityNames, entityNameList_spelled]
  rfl

theorem baseType_tokens (b : BaseName) (rest : List Token) :
    baseType (b.tokens ++ .semicolon :: rest) = some (b.args, .semicolon :: rest) := by
  cases b with
  | enumeration l ls =>
      have htokens : (BaseName.enumeration l ls).tokens ++ .semicolon :: rest =
          .enumeration :: .of :: .lbrace :: (.label l :: (ls.flatMap fun l => [.comma, .label l]) ++
            .rbrace :: .semicolon :: rest) := by
        simp [BaseName.tokens]
      rw [htokens, baseType, enumAttr_spelled]
      rfl
  | select n ns =>
      have htokens : (BaseName.select n ns).tokens ++ .semicolon :: rest =
          .select :: .lbrace :: (.entityName n :: (ns.flatMap fun n => [.comma, .entityName n]) ++
            .rbrace :: .semicolon :: rest) := by
        simp [BaseName.tokens]
      rw [htokens, baseType, entityNames_spelled]
      rfl
  | _ => rfl

/-- What is read for a base type is one. -/
theorem exists_baseName {ts rest : List Token} {args : TypeArgs}
    (h : baseType ts = some (args, rest)) :
    ∃ b : BaseName, ts = b.tokens ++ rest ∧ b.args = args := by
  unfold baseType at h
  split at h
  case h_12 ts =>
    split at h
    · rename_i s ts' hs
      obtain ⟨rfl, rfl⟩ := Prod.mk.inj (Option.some.inj h)
      obtain ⟨l, ls, rfl, rfl⟩ := enumAttr_labels hs
      exact ⟨.enumeration l ls, by simp [BaseName.tokens], rfl⟩
    · cases h
  case h_13 ts =>
    split at h
    · rename_i s ts' hs
      obtain ⟨rfl, rfl⟩ := Prod.mk.inj (Option.some.inj h)
      obtain ⟨n, ns, rfl, rfl⟩ := entityNames_names hs
      exact ⟨.select n ns, by simp [BaseName.tokens], rfl⟩
    · cases h
  case h_14 => cases h
  all_goals obtain ⟨rfl, rfl⟩ := Prod.mk.inj (Option.some.inj h)
  case h_1 n _ => exact ⟨.entityName n, rfl, rfl⟩
  case h_2 v _ => exact ⟨.fixedString v, rfl, rfl⟩
  case h_3 v _ _ => exact ⟨.wideString v, rfl, rfl⟩
  case h_4 => exact ⟨.real, rfl, rfl⟩
  case h_5 => exact ⟨.integer, rfl, rfl⟩
  case h_6 => exact ⟨.logical, rfl, rfl⟩
  case h_7 => exact ⟨.boolean, rfl, rfl⟩
  case h_8 => exact ⟨.number, rfl, rfl⟩
  case h_9 => exact ⟨.string, rfl, rfl⟩
  case h_10 v _ => exact ⟨.wideBinary v, rfl, rfl⟩
  case h_11 => exact ⟨.binary, rfl, rfl⟩

/-! ### Aggregates -/

/-- A name of a type begins with neither word that may stand before it. -/
theorem TypeName.not_before (d : TypeName) (ts : List Token) {t : Token}
    (ht : t = .unique ∨ t = .optional) : ∀ ts', d.tokens ++ ts ≠ t :: ts' := by
  rintro ts' h
  rcases ht with rfl | rfl
  all_goals
    cases d with
    | base b => cases b <;> cases h
    | aggregate k b element => cases k <;> cases h

theorem typeName_list {ts ts' : List Token} {r : ℕ × ℕ} (h : range ts = some (r, .of :: ts'))
    (hne : ∀ ts'', ts' ≠ .unique :: ts'') : typeName (.list :: ts) =
      (typeName ts').map fun p => ({ p.1 with isList := true, lb := r.1, ub := r.2 }, p.2) := by
  rw [typeName]
  split
  · rename_i heq
    rw [h] at heq
    cases heq
    exact absurd rfl (hne _)
  · rename_i heq
    obtain ⟨rfl, hts⟩ := Prod.mk.inj (Option.some.inj (h.symm.trans heq))
    obtain rfl := List.tail_eq_of_cons_eq hts
    rfl
  · rename_i hnone
    exact absurd h (hnone _ _)

/-- A list of unique elements, whose range is dropped. -/
theorem typeName_uniqueList {ts ts' : List Token} {r : ℕ × ℕ}
    (h : range ts = some (r, .of :: .unique :: ts')) : typeName (.list :: ts) =
      (typeName ts').map fun p => ({ p.1 with isList := true }, p.2) := by
  rw [typeName]
  split
  · rename_i heq
    rw [h] at heq
    cases heq
    rfl
  · rename_i hne heq
    rw [h] at heq
    cases heq
    exact absurd rfl (hne _)
  · rename_i hnone _
    exact absurd h (hnone _ _)

/-- A set or an array, whose range is dropped as well. -/
theorem typeName_collection {k : Token} (hk : k = .set ∨ k = .array) {ts ts' : List Token}
    {r : ℕ × ℕ} (h : range ts = some (r, .of :: ts')) : typeName (k :: ts) =
      (typeName ts').map fun p => ({ p.1 with isList := true }, p.2) := by
  rcases hk with rfl | rfl
  all_goals
    rw [typeName]
    split
    · rename_i heq
      rw [h] at heq
      cases heq
      rfl
    · rename_i hnone
      exact absurd h (hnone _ _)

theorem typeName_base (b : BaseName) (ts : List Token) :
    typeName (b.tokens ++ ts) = baseType (b.tokens ++ ts) := by
  cases b <;> exact typeName.eq_4 _ (fun _ h => by cases h) (fun _ h => by cases h)
    (fun _ h => by cases h)

theorem tokens_aggregate (k : Aggregate) (b : Bounds) (element : TypeName) (ts : List Token) :
    (TypeName.aggregate k b element).tokens ++ ts = k.token :: (b.tokens ++ .of ::
      ((if k = .uniqueList then [.unique] else []) ++ (element.tokens ++ ts))) := by
  simp [TypeName.tokens, Aggregate.tokens]

/-- A derivation is read, up to the semicolon behind it. -/
theorem typeName_tokens (d : TypeName) (rest : List Token) :
    typeName (d.tokens ++ .semicolon :: rest) = some (d.args, .semicolon :: rest) := by
  induction d with
  | base b => exact (typeName_base b _).trans (baseType_tokens b rest)
  | aggregate k b element ih =>
      rw [tokens_aggregate]
      have hrange := range_tokens b (.of :: (element.tokens ++ .semicolon :: rest))
      cases k with
      | list =>
          have hread := typeName_list hrange (element.not_before _ (.inl rfl))
          rw [ih] at hread
          exact hread
      | uniqueList =>
          have hread := typeName_uniqueList
            (range_tokens b (.of :: .unique :: (element.tokens ++ .semicolon :: rest)))
          rw [ih] at hread
          exact hread
      | set =>
          have hread := typeName_collection (.inl rfl) hrange
          rw [ih] at hread
          exact hread
      | array =>
          have hread := typeName_collection (.inr rfl) hrange
          rw [ih] at hread
          exact hread

/-- What is read is a derivation. -/
theorem exists_typeName {ts rest : List Token} {args : TypeArgs}
    (h : typeName ts = some (args, rest)) :
    ∃ d : TypeName, ts = d.tokens ++ rest ∧ d.args = args := by
  have haggregate {k : Aggregate} {ts ts' rest : List Token} {r : ℕ × ℕ} {f : TypeArgs → TypeArgs}
      {args : TypeArgs}
      (hr : range ts = some (r, .of :: ((if k = .uniqueList then [.unique] else []) ++ ts')))
      (h : (typeName ts').map (fun p => (f p.1, p.2)) = some (args, rest))
      (ih : ∀ {args rest}, typeName ts' = some (args, rest) →
        ∃ d : TypeName, ts' = d.tokens ++ rest ∧ d.args = args) :
      ∃ b element, b.value = r ∧ f element.args = args ∧
        k.token :: ts = (TypeName.aggregate k b element).tokens ++ rest := by
    obtain ⟨⟨a, rest'⟩, ha, heq⟩ := Option.map_eq_some_iff.mp h
    obtain ⟨rfl, rfl⟩ := Prod.mk.inj heq
    obtain ⟨b, rfl, hb⟩ := exists_bounds hr
    obtain ⟨d, rfl, rfl⟩ := ih ha
    exact ⟨b, d, hb, rfl, (tokens_aggregate k b d rest').symm⟩
  fun_induction typeName ts generalizing args rest with
  | case1 ts r ts' hr ih =>
      obtain ⟨b, element, -, rfl, hts⟩ :=
        haggregate (k := .uniqueList) (f := fun a => { a with isList := true }) hr h ih
      exact ⟨.aggregate .uniqueList b element, hts, rfl⟩
  | case2 ts r ts' _ hr ih =>
      obtain ⟨b, element, rfl, rfl, hts⟩ :=
        haggregate (k := .list) (f := fun a => { a with isList := true, lb := r.1, ub := r.2 }) hr h
          ih
      exact ⟨.aggregate .list b element, hts, rfl⟩
  | case4 ts r ts' hr ih =>
      obtain ⟨b, element, -, rfl, hts⟩ :=
        haggregate (k := .set) (f := fun a => { a with isList := true }) hr h ih
      exact ⟨.aggregate .set b element, hts, rfl⟩
  | case6 ts r ts' hr ih =>
      obtain ⟨b, element, -, rfl, hts⟩ :=
        haggregate (k := .array) (f := fun a => { a with isList := true }) hr h ih
      exact ⟨.aggregate .array b element, hts, rfl⟩
  | case8 ts =>
      obtain ⟨b, hts, hb⟩ := exists_baseName h
      exact ⟨.base b, hts, hb⟩
  | case3 | case5 | case7 => cases h

/-- **The names of types that are read are the derivations.** -/
theorem typeName_iff {ts rest : List Token} {args : TypeArgs} :
    typeName ts = some (args, .semicolon :: rest) ↔
      ∃ d : TypeName, ts = d.tokens ++ .semicolon :: rest ∧ d.args = args := by
  refine ⟨exists_typeName, ?_⟩
  rintro ⟨d, rfl, rfl⟩
  exact typeName_tokens d rest

/-! ### What is recorded -/

/-- The flag is set exactly when there is a level. -/
theorem isList_args (d : TypeName) : d.args.isList = true ↔ d.depth ≠ 0 := by
  cases d with
  | base b => cases b <;> simp [TypeName.args, TypeName.depth, BaseName.args, newTypeNameArgs]
  | aggregate k b element => cases k <;> simp [TypeName.args, TypeName.depth]

/-- What an aggregate leaves of the type of its elements. -/
structure KeepsBase (args base : TypeArgs) : Prop where
  type : args.type = base.type
  typeName : args.typeName = base.typeName
  refTypeName : args.refTypeName = base.refTypeName
  fixedLength : args.fixedLength = base.fixedLength
  selectList : args.selectList = base.selectList
  enumList : args.enumList = base.enumList

/-- **The base type is kept**, whatever stands around it. -/
theorem keepsBase (d : TypeName) : KeepsBase d.args d.baseName.args := by
  induction d with
  | base b => exact ⟨rfl, rfl, rfl, rfl, rfl, rfl⟩
  | aggregate k b element ih =>
      cases k <;>
        exact ⟨ih.type, ih.typeName, ih.refTypeName, ih.fixedLength, ih.selectList, ih.enumList⟩

/-- A range that is kept is that of the outermost list. -/
theorem listRange_args {d : TypeName} {r : ℕ × ℕ} (h : d.listRange = some r) :
    (d.args.lb, d.args.ub) = r := by
  cases d with
  | base b => cases h
  | aggregate k b element => cases k <;> cases h; rfl

/-- **Main result.**  A name of a type is recorded as a list exactly when it is an aggregate, with
the kind, the names and the fixed length of its base type, and with the range of a `LIST` around the
others, and without aggregates with the width of its base type.  Names that differ in that are told
apart. -/
theorem aggregates_recorded (d : TypeName) (rest : List Token) :
    ∃ args, typeName (d.tokens ++ .semicolon :: rest) = some (args, .semicolon :: rest) ∧
      (args.isList = true ↔ d.depth ≠ 0) ∧ KeepsBase args d.baseName.args ∧
      (∀ r, d.listRange = some r → (args.lb, args.ub) = r) ∧
      (d.depth = 0 → args = d.baseName.args) ∧
      ∀ (d' : TypeName) args' rest', typeName (d'.tokens ++ .semicolon :: rest') =
          some (args', .semicolon :: rest') → args = args' →
        (d.depth = 0 ↔ d'.depth = 0) ∧
        ∀ r r', d.listRange = some r → d'.listRange = some r' → r = r' := by
  refine ⟨d.args, typeName_tokens d rest, isList_args d, keepsBase d, fun r => listRange_args, ?_,
    ?_⟩
  · intro hdepth
    cases d with
    | base b => rfl
    | aggregate k b element => cases hdepth
  · rintro d' args' rest' hread rfl
    obtain ⟨hargs, -⟩ := Prod.mk.inj (Option.some.inj ((typeName_tokens d' rest').symm.trans hread))
    refine ⟨?_, fun r r' hr hr' => ?_⟩
    · have hlist := isList_args d'
      rw [hargs, isList_args d] at hlist
      exact not_iff_not.mp hlist
    · rw [← listRange_args hr, ← listRange_args hr', hargs]

/-- A list of lists is recorded as the outer list is, and of the width of a string in a list nothing
is left. -/
theorem aggregates_not_told_apart :
    (TypeName.aggregate .list ⟨1, some 2⟩ (.aggregate .list ⟨3, some 4⟩ (.base .real))).depth ≠
      (TypeName.aggregate .list ⟨1, some 2⟩ (.base .real)).depth ∧
    typeName (TypeName.aggregate .list ⟨1, some 2⟩
      (.aggregate .list ⟨3, some 4⟩ (.base .real))).tokens =
      typeName (TypeName.aggregate .list ⟨1, some 2⟩ (.base .real)).tokens ∧
    typeName (TypeName.aggregate .list ⟨1, some 2⟩ (.base (.wideString 22))).tokens =
      typeName (TypeName.aggregate .list ⟨1, some 2⟩ (.base .string)).tokens := by
  decide +kernel

/-! ### Declarations -/

/-- The types in a declaration are those of derivations. -/
def Declaration.Derived : Declaration → Prop
  | .type args => ∃ d : TypeName, args = { d.args with typeName := args.typeName }
  | .entity args => ∀ a ∈ args.attrs, ∃ d : TypeName, a.type = d.args

/-- The type of an attribute is a type that is written. -/
theorem nextAttr_derived {ts rest : List Token} {a : AttrArgs} (h : nextAttr ts = some (a, rest)) :
    ∃ d : TypeName, a.type = d.args := by
  have hattr : ∀ {l b ts'}, attrOf l b ts' = some (a, rest) → ∃ d : TypeName, a.type = d.args := by
    intro l b ts' h
    unfold attrOf at h
    split at h
    · rename_i args ts'' hargs
      obtain ⟨rfl, -⟩ := Prod.mk.inj (Option.some.inj h)
      obtain ⟨d, -, rfl⟩ := exists_typeName hargs
      exact ⟨d, rfl⟩
    · cases h
  unfold nextAttr at h
  split at h
  · exact hattr h
  · exact hattr h
  · cases h

theorem entityAttr_derived (ts : List Token) :
    ∀ a ∈ (entityAttr ts).1, ∃ d : TypeName, a.type = d.args := by
  fun_induction entityAttr ts with
  | case1 => simp
  | case2 ts a ts' h ih =>
      intro b hb
      rcases List.mem_append.mp hb with hb | hb
      · exact ih b hb
      · rw [List.mem_singleton.mp hb]
        exact nextAttr_derived h

theorem declaration_derived {ts rest : List Token} {d : Declaration}
    (h : declaration ts = some (d, rest)) : d.Derived := by
  unfold declaration at h
  split at h
  · unfold typeDeclaration at h
    split at h
    · rename_i args ts' hargs
      obtain ⟨rfl, -⟩ := Prod.mk.inj (Option.some.inj h)
      obtain ⟨d, -, rfl⟩ := exists_typeName hargs
      exact ⟨d, rfl⟩
    · cases h
  · simp only [entityDeclaration, Option.bind_eq_bind, Option.bind_eq_some_iff, Prod.exists,
      Option.pure_def, Option.some.injEq, Prod.mk.injEq] at h
    obtain ⟨isAbstract, subtypes, ts', -, attrs, rest', hbody, rfl, -⟩ := h
    unfold entityBody at hbody
    split at hbody
    · split at hbody
      · obtain ⟨rfl, -⟩ := Prod.mk.inj (Option.some.inj hbody)
        exact entityAttr_derived _
      · cases hbody
    · cases hbody
  · cases h

theorem declarations_derived (ts : List Token) : ∀ d ∈ (declarations ts).1, d.Derived := by
  fun_induction declarations ts with
  | case1 => simp
  | case2 ts d ts' h ih => exact List.forall_mem_cons.mpr ⟨declaration_derived h, ih⟩

theorem schema_derived (ts : List Token) : ∀ d ∈ (schema ts).1, d.Derived := by
  unfold schema
  split
  · exact declarations_derived _
  · simp

/-- The kinds of types that the grammar has names for. -/
theorem TypeName.type_args (d : TypeName) :
    d.args.type ≠ .unknown ∧ d.args.type ≠ .entity ∧ d.args.type ≠ .reference := by
  rw [(keepsBase d).type]
  cases d.baseName <;> simp [BaseName.args, newTypeNameArgs]

end VulcanDB.Express
