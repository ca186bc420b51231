import VulcanDB.Express.Locality

/-!
# EXPRESS — One record for all entities

The actions of the grammar fill one `EntityArgs` in the context of the parser, which an optional
clause leaves as it is where it is absent.  It is handed to `init_entity` by its address, and reset
field by field behind each entity.

* `clearEntityArgsContext_eq`: what the reset leaves of a record that was handed over.
* `reduceDeclaration_zeroed`: the actions of a declaration, from a record that was reset.
* `expressParse_eq`: the calls of a schema are those of its declarations.
* `entityArgs_isolated`: what is handed over is that of the text of the declaration alone.
-/

namespace VulcanDB.Express

open Cxx

/-! ### The record -/

/-- `EntityArgs`.  The count of the subtypes is written as a `size_t` over an `int` and the padding
behind it, which is zero. -/
structure SharedArgs where
  entityName : Option Str
  isAbstract : Bool
  attrs : AttrArrays
  subtypeNames : Block Str
  subtypeNum : ℕ
  supertypeName : Option Str

/-- `memset(&context, 0, sizeof(context))`. -/
def SharedArgs.zeroed : SharedArgs := ⟨none, false, ⟨.null, .null, .null, 0⟩, .null, 0, none⟩

/-- Nothing where an assertion fails, or a name is read that the record does not hold. -/
def clearEntityArgsContext (r : SharedArgs) : Option SharedArgs := do
  guard r.entityName.isSome
  let r := { r with entityName := none }
  guard (∀ i < r.subtypeNum, (r.subtypeNames.read i).isSome)
  let r := { r with subtypeNames := .null, subtypeNum := 0 }
  let r := { r with supertypeName := none }
  guard (∀ i < r.attrs.attrNum,
    (r.attrs.attrNames.read i).isSome ∧ (r.attrs.attrTypes.read i).isSome)
  let r := { r with attrs := .cleared }
  return { r with isAbstract := false }

/-- What the parser calls behind a declaration. -/
inductive Call where
  | initType (args : TypeArgs)
  | initEntity (args : SharedArgs)

/-! ### The actions -/

/-- The actions for one subtype, which write all three fields. -/
def oneSubtype (isAbstract : Bool) (n : Str) (r : SharedArgs) : Option SharedArgs := do
  let names ← (Block.malloc 1).write 0 n
  return { r with subtypeNum := 1, subtypeNames := names, isAbstract }

/-- The names are counted from the number in the record on. -/
def manySubtypes (isAbstract : Bool) (names : Str) (r : SharedArgs) : Option SharedArgs := do
  let (num, list) ← Action.splitString (strdup names) ',' r.subtypeNum
  return { r with subtypeNames := ⟨list.map some⟩, subtypeNum := num, isAbstract }

namespace Action

/-- `supertype_of: SUPERTYPE OF LBRACE ENTITY_NAME RBRACE`. -/
def supertypeOf : Str → SharedArgs → Option SharedArgs := oneSubtype false

/-- `supertype_of: SUPERTYPE OF LBRACE ONEOF LBRACE entity_names RBRACE RBRACE`. -/
def supertypeOfOneof : Str → SharedArgs → Option SharedArgs := manySubtypes false

/-- `supertype_of: ABSTRACT SUPERTYPE OF LBRACE ENTITY_NAME RBRACE`. -/
def abstractSupertypeOf : Str → SharedArgs → Option SharedArgs := oneSubtype true

/-- `supertype_of: ABSTRACT SUPERTYPE OF LBRACE ONEOF LBRACE entity_names RBRACE RBRACE`. -/
def abstractSupertypeOfOneof : Str → SharedArgs → Option SharedArgs := manySubtypes true

/-- `subtype_of: SUBTYPE OF LBRACE ENTITY_NAME RBRACE`. -/
def subtypeOf (n : Str) (r : SharedArgs) : SharedArgs := { r with supertypeName := some n }

/-- `entity_declaration`.  The record is read by `init_entity`, which writes nothing to it. -/
def entityDeclaration (n : Str) (r : SharedArgs) : Option (Call × SharedArgs) := do
  let args := { r with entityName := some n }
  return (.initEntity args, ← clearEntityArgsContext args)

end Action

/-! ### The reductions -/

/-- `SUPERTYPE OF`, behind the parenthesis. -/
def reduceSupertypeNames (one oneof : Str → SharedArgs → Option SharedArgs)
    (r : SharedArgs) : List Token → Option (SharedArgs × List Token)
  | .entityName n :: .rbrace :: ts => (one n r).map fun r => (r, ts)
  | .oneof :: .lbrace :: ts =>
    match entityNames ts with
    | some (s, .rbrace :: .rbrace :: ts) => (oneof s r).map fun r => (r, ts)
    | _ => none
  | _ => none

/-- `SUPERTYPE OF`, abstract or not. -/
def reduceSupertypeOf (r : SharedArgs) : List Token → Option (SharedArgs × List Token)
  | .supertype :: .of :: .lbrace :: ts =>
    reduceSupertypeNames Action.supertypeOf Action.supertypeOfOneof r ts
  | .abstract :: .supertype :: .of :: .lbrace :: ts =>
    reduceSupertypeNames Action.abstractSupertypeOf Action.abstractSupertypeOfOneof r ts
  | ts => some (r, ts)

/-- `SUBTYPE OF`. -/
def reduceSubtypeOf (r : SharedArgs) : List Token → SharedArgs × List Token
  | .subtype :: .of :: .lbrace :: .entityName n :: .rbrace :: ts => (Action.subtypeOf n r, ts)
  | ts => (r, ts)

/-- The attributes in the order of their declarations, of which the last is appended first. -/
def appendEntityAttrList (arrays : AttrArrays) : List AttrArgs → Option AttrArrays
  | [] => some arrays
  | a :: as => do entityAttrListRule a (← appendEntityAttrList arrays as)

/-- The reductions of these attributes. -/
def appendEntityAttr (arrays : AttrArrays) : List AttrArgs → Option AttrArrays
  | [] => some arrays
  | a :: as => do entityAttrRule a (← appendEntityAttrList arrays as)

/-- The body of an entity, which fills the arrays of the attributes. -/
def reduceEntityBody (r : SharedArgs) : List Token → Option (SharedArgs × List Token)
  | .semicolon :: ts =>
    match uniqueCondition (entityAttr ts).2 with
    | some (.endEntity :: .semicolon :: rest) => do
      return ({ r with attrs := ← appendEntityAttr r.attrs (declaredAttrs ts) }, rest)
    | _ => none
  | _ => none

/-- An entity, behind its name: the call with the arguments as they are, which are cleared behind
it. -/
def reduceEntityDeclaration (name : Str) (r : SharedArgs) (ts : List Token) :
    Option ((Call × SharedArgs) × List Token) := do
  let (r, ts) ← reduceSupertypeOf r ts
  let (r, ts) := reduceSubtypeOf r ts
  let (r, ts) ← reduceEntityBody r ts
  return (← Action.entityDeclaration name r, ts)

/-- A type, behind its name. -/
def reduceTypeDeclaration (name : Str) (r : SharedArgs) (ts : List Token) :
    Option ((Call × SharedArgs) × List Token) :=
  match typeName ts with
  | some (args, .semicolon :: .endType :: .semicolon :: ts) =>
    some ((.initType { args with typeName := name }, r), ts)
  | _ => none

/-- The declaration at the front, from the record that the one before it left. -/
def reduceDeclaration (r : SharedArgs) :
    List Token → Option ((Call × SharedArgs) × List Token)
  | .type :: .entityName n :: .eq :: ts => reduceTypeDeclaration n r ts
  | .entity :: .entityName n :: ts => reduceEntityDeclaration n r ts
  | _ => none

/-! ### What is read -/

/-- The actions read the tokens that the grammar reads. -/
theorem reduceSupertypeNames_reads {one oneof : Str → SharedArgs → Option SharedArgs}
    {r r' : SharedArgs} {ts rest : List Token}
    (h : reduceSupertypeNames one oneof r ts = some (r', rest)) :
    ∃ names, supertypeNames ts = some (names, rest) := by
  unfold reduceSupertypeNames at h
  split at h
  · rename_i n ts
    obtain ⟨_, _, heq⟩ := Option.map_eq_some_iff.mp h
    obtain ⟨-, rfl⟩ := Prod.mk.inj heq
    exact ⟨[n], rfl⟩
  · rename_i ts
    split at h
    · rename_i s ts' hs
      obtain ⟨_, _, heq⟩ := Option.map_eq_some_iff.mp h
      obtain ⟨-, rfl⟩ := Prod.mk.inj heq
      exact ⟨splitString s, by rw [supertypeNames, hs]⟩
    · cases h
  · cases h

theorem reduceSupertypeOf_reads {r r' : SharedArgs} {ts rest : List Token}
    (h : reduceSupertypeOf r ts = some (r', rest)) : ∃ v, supertypeOf ts = some (v, rest) := by
  unfold reduceSupertypeOf at h
  split at h
  · obtain ⟨names, hnames⟩ := reduceSupertypeNames_reads h
    exact ⟨(false, names), by rw [supertypeOf, hnames]; rfl⟩
  · obtain ⟨names, hnames⟩ := reduceSupertypeNames_reads h
    exact ⟨(true, names), by rw [supertypeOf, hnames]; rfl⟩
  · rename_i hsup habs
    obtain ⟨-, rfl⟩ := Prod.mk.inj (Option.some.inj h)
    exact ⟨(false, []), supertypeOf.eq_3 _ hsup habs⟩

theorem reduceSubtypeOf_reads (r : SharedArgs) (ts : List Token) :
    (reduceSubtypeOf r ts).2 = (subtypeOf ts).2 := by
  unfold reduceSubtypeOf
  split
  · rfl
  · rename_i hsub
    rw [subtypeOf.eq_2 _ hsub]

theorem reduceEntityBody_reads {r r' : SharedArgs} {ts rest : List Token}
    (h : reduceEntityBody r ts = some (r', rest)) :
    ∃ attrs, entityBody ts = some (attrs, rest) := by
  unfold reduceEntityBody at h
  split at h
  · rename_i ts
    split at h
    · rename_i rest' hu
      simp only [Option.bind_eq_bind, Option.bind_eq_some_iff, Option.pure_def, Option.some.injEq,
        Prod.mk.injEq] at h
      obtain ⟨-, -, -, rfl⟩ := h
      exact ⟨(entityAttr ts).1, by rw [entityBody, hu]⟩
    · cases h
  · cases h

/-- The actions do not read more or less than the grammar. -/
theorem reduceDeclaration_reads {r : SharedArgs} {ts rest : List Token} {p : Call × SharedArgs}
    (h : reduceDeclaration r ts = some (p, rest)) : ∃ d, declaration ts = some (d, rest) := by
  unfold reduceDeclaration at h
  split at h
  · rename_i n ts
    unfold reduceTypeDeclaration at h
    split at h
    · rename_i args rest' hargs
      obtain ⟨-, rfl⟩ := Prod.mk.inj (Option.some.inj h)
      exact ⟨.type { args with typeName := n }, by rw [declaration, typeDeclaration, hargs]⟩
    · cases h
  · rename_i n ts
    simp only [reduceEntityDeclaration, Option.bind_eq_bind, Option.bind_eq_some_iff, Prod.exists,
      Option.pure_def, Option.some.injEq, Prod.mk.injEq] at h
    obtain ⟨r₁, ts₁, hsup, r₂, ts₂, hbody, call, r₃, -, -, rfl⟩ := h
    obtain ⟨v, hv⟩ := reduceSupertypeOf_reads hsup
    obtain ⟨attrs, hattrs⟩ := reduceEntityBody_reads hbody
    rw [reduceSubtypeOf_reads] at hattrs
    refine ⟨.entity ⟨n, v.1, attrs, v.2, (subtypeOf ts₁).1⟩, ?_⟩
    simp only [declaration, entityDeclaration, hv, hattrs, Option.bind_eq_bind, Option.bind_some]
    rfl
  · cases h

/-! ### The run -/

/-- The declarations of a schema, with one record for all of them. -/
def reduceDeclarations (r : SharedArgs) (ts : List Token) : Option (List Call) :=
  match _h : reduceDeclaration r ts with
  | none => if ts = [.endSchema, .semicolon] then some [] else none
  | some ((call, r), ts) => (reduceDeclarations r ts).map (call :: ·)
termination_by ts.length
decreasing_by
  all_goals
    obtain ⟨d, hd⟩ := reduceDeclaration_reads _h
    obtain ⟨n, ts', hts, hl, -⟩ := declaration_spec hd
    have hlen := hl.length_le
    rw [hts]
    simp only [List.length_cons]
    omega

/-- The calls that `express_parse` makes for a schema that it accepts, where each of them
returns. -/
def expressParse (text : Str) : Option (List Call) :=
  match tokens text with
  | .schema :: .label _ :: .semicolon :: ts =>
    (reduceDeclarations .zeroed ts).filter fun calls => !calls.isEmpty
  | _ => none

/-! ### Between two declarations -/

/-- The arrays of a record with these attributes. -/
def arraysOf (as : List AttrArgs) : AttrArrays :=
  ⟨⟨(as.map (·.name)).map some⟩, ⟨(as.map (·.type)).map some⟩, ⟨(as.map (·.isOptional)).map some⟩,
    as.length⟩

/-- The arrays are determined by what they hold. -/
theorem AttrArrays.Holds.eq_arraysOf {arrays : AttrArrays} {as : List AttrArgs}
    (h : arrays.Holds as) : arrays = arraysOf as := by
  obtain ⟨⟨names⟩, ⟨types⟩, ⟨flags⟩, num⟩ := arrays
  obtain ⟨rfl, rfl, rfl, rfl⟩ := h
  rfl

/-- The record that is handed over for these arguments. -/
def sharedArgs (args : EntityArgs) : SharedArgs where
  entityName := some args.entityName
  isAbstract := args.isAbstract
  attrs := arraysOf args.attrs
  subtypeNames := ⟨args.subtypeNames.map some⟩
  subtypeNum := args.subtypeNames.length
  supertypeName := args.supertypeName

/-- The call for a declaration. -/
def callOf : Declaration → Call
  | .type args => .initType args
  | .entity args => .initEntity (sharedArgs args)

theorem isSome_read {α : Type} {xs : List α} {i : ℕ} (h : i < xs.length) :
    ((⟨xs.map some⟩ : Block α).read i).isSome := by
  have hholds : (⟨xs.map some⟩ : Block α).Holds xs := rfl
  rw [hholds.begins.read (List.getElem?_eq_getElem h)]
  rfl

/-- **The reset covers every field.** -/
theorem clearEntityArgsContext_eq (args : EntityArgs) :
    clearEntityArgsContext (sharedArgs args) = some .zeroed := by
  have hsubtypes : ∀ i < args.subtypeNames.length,
      ((⟨args.subtypeNames.map some⟩ : Block Str).read i).isSome := fun i hi => isSome_read hi
  have hattrs : ∀ i < args.attrs.length,
      ((⟨(args.attrs.map (·.name)).map some⟩ : Block Str).read i).isSome ∧
        ((⟨(args.attrs.map (·.type)).map some⟩ : Block TypeArgs).read i).isSome := fun i hi =>
    ⟨isSome_read (by rwa [List.length_map]), isSome_read (by rwa [List.length_map])⟩
  simp only [clearEntityArgsContext, sharedArgs, arraysOf, guard, eq_true hsubtypes, eq_true hattrs,
    if_true, Option.isSome_some]
  rfl

/-! ### One declaration -/

/-- The names that are joined have neither a separator nor a terminator in them. -/
def Token.Clean : Token → Prop
  | .entityName n => IsName n ∧ ',' ∉ n
  | _ => True

/-- The names among the tokens are C strings without commas. -/
theorem tokens_clean (text : Str) : ∀ t ∈ tokens text, t.Clean := by
  intro t ht
  cases t with
  | entityName n =>
      have hmem := (List.takeWhile_sublist _).subset ht
      obtain ⟨p, hp, hn⟩ := List.mem_filterMap.mp hmem
      obtain ⟨-, l, rfl, hl⟩ := entityName_spec hp hn
      have hnone {c : Char} (hc : isAlnum c = false) (hc' : c ∉ "Ifc".toList) :
          c ∉ "Ifc".toList ++ l := by
        intro hmem
        rcases List.mem_append.mp hmem with hmem | hmem
        · exact hc' hmem
        · rw [hl c hmem] at hc
          cases hc
      exact ⟨hnone (by decide) (by decide), hnone (by decide) (by decide)⟩
  | _ => trivial

/-- The names between braces are counted from zero. -/
theorem splitString_names {ts rest : List Token} {s : Str} (hclean : ∀ t ∈ ts, t.Clean)
    (h : entityNames ts = some (s, rest)) :
    Action.splitString (strdup s) ',' 0 = some ((splitString s).length, splitString s) := by
  obtain ⟨n, ns, rfl, rfl⟩ := entityNames_names h
  have hnames : ∀ m ∈ n :: ns, IsName m ∧ ',' ∉ m := by
    intro m hm
    refine hclean (.entityName m) ?_
    rcases List.mem_cons.mp hm with rfl | hm
    · simp
    · simp [hm]
  have hstring : IsString (strdup (joined (n :: ns))) (joined (n :: ns)) :=
    isString_strdup (not_mem_joined fun m hm => (hnames m hm).1)
  have hsplit : splitString (joined (n :: ns)) = n :: ns :=
    splitString_joined fun m hm => (hnames m hm).2
  have hcount : (joined (n :: ns)).count ',' = (n :: ns).length :=
    count_joined fun m hm => (hnames m hm).2
  rw [(cut_eq_splitString hstring).2.2, hsplit, hcount]

/-- The record with these subtypes. -/
def withSubtypes (isAbstract : Bool) (names : List Str) : SharedArgs :=
  { SharedArgs.zeroed with
    isAbstract, subtypeNames := ⟨names.map some⟩, subtypeNum := names.length }

/-- From cleared arguments the subtypes are those of the text. -/
theorem reduceSupertypeNames_zeroed (isAbstract : Bool) {ts : List Token}
    (hclean : ∀ t ∈ ts, t.Clean) :
    reduceSupertypeNames (oneSubtype isAbstract) (manySubtypes isAbstract) .zeroed ts =
      (supertypeNames ts).map fun p => (withSubtypes isAbstract p.1, p.2) := by
  unfold reduceSupertypeNames
  split
  · rfl
  · rename_i ts
    have hnames : ∀ t ∈ ts, t.Clean := fun t ht => hclean t (by simp [ht])
    split
    · rename_i s ts' hs
      have hcut : Action.splitString (strdup s) ',' SharedArgs.zeroed.subtypeNum =
          some ((splitString s).length, splitString s) := splitString_names hnames hs
      rw [supertypeNames, hs, manySubtypes, hcut]
      rfl
    · rename_i hnone
      rw [supertypeNames]
      split
      · rename_i s ts' hs
        exact absurd hs (hnone s ts')
      · rfl
  · rename_i hname honeof
    rw [supertypeNames.eq_3 _ hname honeof]
    rfl

theorem reduceSupertypeOf_zeroed {ts : List Token} (hclean : ∀ t ∈ ts, t.Clean) :
    reduceSupertypeOf .zeroed ts =
      (supertypeOf ts).map fun p => (withSubtypes p.1.1 p.1.2, p.2) := by
  unfold reduceSupertypeOf
  split
  · rename_i ts
    have hts : ∀ t ∈ ts, t.Clean := fun t ht => hclean t (by simp [ht])
    have hread := reduceSupertypeNames_zeroed false hts
    rw [supertypeOf, Option.map_map]
    exact hread
  · rename_i ts
    have hts : ∀ t ∈ ts, t.Clean := fun t ht => hclean t (by simp [ht])
    have hread := reduceSupertypeNames_zeroed true hts
    rw [supertypeOf, Option.map_map]
    exact hread
  · rename_i hsup habs
    rw [supertypeOf.eq_3 _ hsup habs]
    rfl

/-- The supertype is that of the text, where none was set before. -/
theorem reduceSubtypeOf_eq {r : SharedArgs} (h : r.supertypeName = none) (ts : List Token) :
    reduceSubtypeOf r ts = ({ r with supertypeName := (subtypeOf ts).1 }, (subtypeOf ts).2) := by
  unfold reduceSubtypeOf
  split
  · rfl
  · rename_i hsub
    rw [subtypeOf.eq_2 _ hsub, ← h]

/-- The attributes are appended from the last one on, to arrays that hold none. -/
theorem appendEntityAttrList_holds (as : List AttrArgs) : ∃ arrays,
    appendEntityAttrList .cleared as = some arrays ∧ arrays.Holds as.reverse := by
  induction as with
  | nil => exact ⟨_, rfl, AttrArrays.holds_cleared⟩
  | cons a as ih =>
      obtain ⟨arrays, happend, hholds⟩ := ih
      obtain ⟨arrays', hrule, hholds'⟩ := appendAttr_holds hholds a
      refine ⟨arrays', ?_, by rwa [List.reverse_cons]⟩
      simp only [appendEntityAttrList, happend, (rule_eq_appendAttr a).2, Option.bind_eq_bind,
        Option.bind_some, hrule]

/-- The arrays hold the attributes in their order. -/
theorem appendEntityAttr_holds (as : List AttrArgs) : ∃ arrays,
    appendEntityAttr .cleared as = some arrays ∧ arrays.Holds as.reverse := by
  cases as with
  | nil => exact ⟨_, rfl, AttrArrays.holds_cleared⟩
  | cons a as =>
      obtain ⟨arrays, happend, hholds⟩ := appendEntityAttrList_holds as
      obtain ⟨arrays', hrule, hholds'⟩ := appendAttr_holds hholds a
      refine ⟨arrays', ?_, by rwa [List.reverse_cons]⟩
      simp only [appendEntityAttr, happend, (rule_eq_appendAttr a).1, Option.bind_eq_bind,
        Option.bind_some, hrule]

/-- From cleared arrays the attributes are those of the text. -/
theorem reduceEntityBody_cleared {r : SharedArgs} (h : r.attrs = .cleared) (ts : List Token) :
    reduceEntityBody r ts =
      (entityBody ts).map fun p => ({ r with attrs := arraysOf p.1 }, p.2) := by
  unfold reduceEntityBody
  split
  · rename_i ts
    obtain ⟨arrays, happend, hholds⟩ := appendEntityAttr_holds (declaredAttrs ts)
    rw [← entityAttr_reverse, List.reverse_reverse] at hholds
    split
    · rename_i rest hu
      rw [entityBody, hu, h, happend, hholds.eq_arraysOf]
      rfl
    · rename_i hnone
      rw [entityBody]
      split
      · rename_i rest hu
        exact absurd hu (hnone rest)
      · rfl
  · rename_i hne
    rw [entityBody.eq_2 _ hne]
    rfl

/-- The last action, on a record that holds the clauses. -/
theorem entityDeclaration_action (args : EntityArgs) {r : SharedArgs}
    (h : { r with entityName := some args.entityName } = sharedArgs args) :
    Action.entityDeclaration args.entityName r =
      some (.initEntity (sharedArgs args), .zeroed) := by
  simp only [Action.entityDeclaration, h, clearEntityArgsContext_eq]
  rfl

/-- A type leaves the arguments of the entities alone. -/
theorem reduceTypeDeclaration_eq (n : Str) (r : SharedArgs) (ts : List Token) :
    reduceTypeDeclaration n r ts =
      (typeDeclaration n ts).map fun p => ((callOf p.1, r), p.2) := by
  unfold reduceTypeDeclaration
  split
  · rename_i hargs
    rw [typeDeclaration, hargs]
    rfl
  · rename_i hnone
    rw [typeDeclaration]
    split
    · rename_i hargs
      exact absurd hargs (hnone _ _)
    · rfl

/-- **An entity** is called with its own arguments and leaves them cleared. -/
theorem reduceEntityDeclaration_zeroed (n : Str) {ts : List Token}
    (hclean : ∀ t ∈ ts, t.Clean) : reduceEntityDeclaration n .zeroed ts =
      (entityDeclaration n ts).map fun p => ((callOf p.1, SharedArgs.zeroed), p.2) := by
  rw [reduceEntityDeclaration, entityDeclaration, reduceSupertypeOf_zeroed hclean]
  cases supertypeOf ts with
  | none => rfl
  | some p =>
      obtain ⟨⟨isAbstract, names⟩, ts₁⟩ := p
      have hsub := reduceSubtypeOf_eq (r := withSubtypes isAbstract names) rfl ts₁
      have hbody := reduceEntityBody_cleared
        (r := { withSubtypes isAbstract names with supertypeName := (subtypeOf ts₁).1 }) rfl
        (subtypeOf ts₁).2
      simp only [Option.map_some, Option.bind_eq_bind, Option.bind_some, hsub, hbody]
      cases entityBody (subtypeOf ts₁).2 with
      | none => rfl
      | some q =>
          obtain ⟨attrs, rest⟩ := q
          have hact := entityDeclaration_action ⟨n, isAbstract, attrs, names, (subtypeOf ts₁).1⟩
            (r := { withSubtypes isAbstract names with
              supertypeName := (subtypeOf ts₁).1, attrs := arraysOf attrs }) rfl
          simp only [Option.map_some, Option.bind_some]
          rw [hact]
          rfl

/-- **The actions of a declaration,** from a record that was reset, hand over its arguments and
leave the record reset. -/
theorem reduceDeclaration_zeroed {ts : List Token} (hclean : ∀ t ∈ ts, t.Clean) :
    reduceDeclaration .zeroed ts =
      (declaration ts).map fun p => ((callOf p.1, SharedArgs.zeroed), p.2) := by
  unfold reduceDeclaration
  split
  · exact reduceTypeDeclaration_eq _ _ _
  · exact reduceEntityDeclaration_zeroed _ fun t ht => hclean t (by simp [ht])
  · rename_i htype hentity
    rw [declaration.eq_3 _ htype hentity]
    rfl

/-! ### A schema -/

/-- The end of the schema, or an error. -/
theorem reduceDeclarations_of_none {r : SharedArgs} {ts : List Token}
    (h : reduceDeclaration r ts = none) :
    reduceDeclarations r ts = if ts = [.endSchema, .semicolon] then some [] else none := by
  rw [reduceDeclarations]
  split
  · rfl
  · rename_i heq
    rw [h] at heq
    cases heq

theorem reduceDeclarations_of_some {r r' : SharedArgs} {ts ts' : List Token} {call : Call}
    (h : reduceDeclaration r ts = some ((call, r'), ts')) :
    reduceDeclarations r ts = (reduceDeclarations r' ts').map (call :: ·) := by
  rw [reduceDeclarations]
  split
  · rename_i heq
    rw [h] at heq
    cases heq
  · rename_i heq
    rw [h] at heq
    cases heq
    rfl

/-- **All declarations**, by induction on the text: each call is that of its declaration. -/
theorem reduceDeclarations_zeroed {ts : List Token} (hclean : ∀ t ∈ ts, t.Clean) :
    reduceDeclarations .zeroed ts =
      if (declarations ts).2 then some ((declarations ts).1.map callOf) else none := by
  fun_induction declarations ts with
  | case1 ts hd =>
      have hread := reduceDeclaration_zeroed hclean
      rw [hd] at hread
      rw [reduceDeclarations_of_none hread]
      simp
  | case2 ts d ts' hd ih =>
      have hread := reduceDeclaration_zeroed hclean
      rw [hd] at hread
      obtain ⟨used, rfl, -⟩ := declaration_part hd
      rw [reduceDeclarations_of_some hread, ih fun t ht => hclean t (List.mem_append_right used ht)]
      cases (declarations ts').2 <;> rfl

/-- **The calls of a schema are those of its declarations,** in their order. -/
theorem expressParse_eq (text : Str) : expressParse text =
    if (schema (tokens text)).2 then some ((schema (tokens text)).1.map callOf) else none := by
  have hclean := tokens_clean text
  unfold expressParse
  generalize tokens text = ts at hclean ⊢
  split
  · rename_i l ts
    have hts : ∀ t ∈ ts, t.Clean := fun t ht => hclean t (by simp [ht])
    rw [reduceDeclarations_zeroed hts, schema]
    cases (declarations ts).2 with
    | false => rfl
    | true => cases (declarations ts).1 <;> rfl
  · rename_i hnone
    rw [schema.eq_2 _ hnone]
    rfl

/-- The call for a text that is one declaration, with a context of its own. -/
def ownCall (own : Str) : Option Call :=
  (reduceDeclaration .zeroed (tokens own)).bind fun p => if p.2 = [] then some p.1.1 else none

/-- What the text of one declaration gives alone. -/
theorem ownCall_eq (own : Str) : ownCall own =
    (declaration (tokens own)).bind fun p => if p.2 = [] then some (callOf p.1) else none := by
  rw [ownCall, reduceDeclaration_zeroed (tokens_clean own)]
  cases declaration (tokens own) <;> rfl

/-- **Main result.**  A schema that is accepted is the texts of its declarations, between a head and
a tail.  What is handed over in each place is what is handed over for that text alone. -/
theorem entityArgs_isolated {text : Str} (h : (schema (tokens text)).2 = true) :
    ∃ (head : Str) (owns : List Str) (tail : Str) (calls : List Call),
      text = head ++ owns.flatten ++ tail ∧
      (∃ l, tokens head = [.schema, .label l, .semicolon]) ∧
      tokens tail = [.endSchema, .semicolon] ∧
      expressParse text = some calls ∧ calls.map some = owns.map ownCall := by
  obtain ⟨head, owns, tail, htext, hhead, htail, howns⟩ := text_parts h
  refine ⟨head, owns, tail, (schema (tokens text)).1.map callOf, htext, hhead, htail, ?_, ?_⟩
  · rw [expressParse_eq, if_pos h]
  · have hcalls := congrArg (List.map fun o : Option (Declaration × List Token) =>
      o.bind fun p => if p.2 = [] then some (callOf p.1) else none) howns
    rw [List.map_map, List.map_map] at hcalls
    rw [List.map_map, List.map_congr_left fun own _ => ownCall_eq own]
    exact hcalls.symm

/-- Two entities, of which the second has none of the clauses of the first. -/
def twoEntities : Str :=
  ("SCHEMA S; ENTITY IfcA ABSTRACT SUPERTYPE OF (IfcB) SUBTYPE OF (IfcR); n : OPTIONAL REAL;" ++
    " END_ENTITY; ENTITY IfcB; END_ENTITY; END_SCHEMA;").toList

theorem entityArgs_isolated_two :
    ∃ (head : Str) (owns : List Str) (tail : Str) (calls : List Call),
      twoEntities = head ++ owns.flatten ++ tail ∧
      (∃ l, tokens head = [.schema, .label l, .semicolon]) ∧
      tokens tail = [.endSchema, .semicolon] ∧
      expressParse twoEntities = some calls ∧ calls.map some = owns.map ownCall :=
  entityArgs_isolated (by decide +kernel)

end VulcanDB.Express
