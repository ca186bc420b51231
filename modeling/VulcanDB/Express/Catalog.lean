import VulcanDB.Express.Tables
import VulcanDB.Express.Coverage
import VulcanDB.Library.Ddl

/-!
# EXPRESS — The database of a schema

What the output means to the server it is written for.  The generator puts text together; here the
same statements are put together as *definitions*, each with its text (`Definition.statement`) and
with the command that it is to a server (`Definition.command`).

The server is not part of this development.  It is a parameter, `Server`, and what is used of it is
`Server.Documented`: it does with the text of a definition what the command says, as long as it has
nothing against the definition by itself.  Which definitions these are is a parameter too: a server
has words it keeps for itself, names of columns of its own, and limits of length and number.

* `generate_eq`: the output is the text of the definitions.
* `script_runs_iff`: where a server without a schema takes the whole of it.
* `generates_creates`: which of the functions can then be called, in any order and as often as one
  likes, and the tables that are there afterwards.
-/

namespace VulcanDB.Express

open Cxx Steps Ddl

/-! ### Definitions -/

/-- A type, with a `[]` for each list on the way to it. -/
structure SqlType where
  base : Str
  lists : ℕ
  deriving DecidableEq

/-- The type as it is written. -/
def SqlType.render (t : SqlType) : Str := t.base ++ (List.replicate t.lists "[]".toList).flatten

/-- A list of the type. -/
def SqlType.list (t : SqlType) : SqlType := { t with lists := t.lists + 1 }

/-- An attribute as a column. -/
structure SqlColumn where
  name : Str
  type : SqlType
  notNull : Bool
  deriving DecidableEq

/-- The column as it is written. -/
def SqlColumn.render (x : SqlColumn) : Str :=
  " \"".toList ++ x.name ++ "\" ".toList ++ x.type.render ++
    if x.notNull then " NOT NULL".toList else []

/-- What a statement of the output defines. -/
inductive Definition where
  | enum (name : Str) (labels : List Str)
  | composite (name : Str) (fields : List (Str × Str))
  /-- The function of an entity. -/
  | entity (name : Str) (super : Option Str) (columns : List SqlColumn)
  deriving DecidableEq

/-- The text of a definition. -/
def Definition.statement : Definition → Statement
  | .enum name labels =>
    .text ("CREATE TYPE ".toList ++ name ++ " AS ENUM (".toList ++
      ", ".toList.intercalate (labels.map fun v => "'".toList ++ v ++ "'".toList) ++
      ");\n".toList)
  | .composite name fields =>
    .text ("CREATE TYPE ".toList ++ name ++ " AS (".toList ++
      ",".toList.intercalate (fields.map fun f => f.1 ++ " ".toList ++ f.2) ++ ");\n".toList)
  | .entity name super columns =>
    let perform := match super with
      | some name => "PERFORM create_".toList ++ toLower name ++ "();\n".toList
      | none => []
    let inherits := match super with
      | some name => " INHERITS (".toList ++ name ++ ")".toList
      | none => []
    .function (toLower name) ("() RETURNS BOOLEAN AS $$\nBEGIN\n".toList ++ perform ++
      "CREATE TABLE IF NOT EXISTS ".toList ++ toLower name ++ "(".toList ++
      ", ".toList.intercalate (columns.map SqlColumn.render) ++ ")".toList ++ inherits ++
      ";\nRETURN TRUE;\nEND;\n$$ LANGUAGE plpgsql;\n".toList)

/-- The definitions of the preamble. -/
def preambleDefinitions : List Definition :=
  [.enum "express_type".toList (["INTEGER", "REAL", "STRING", "BOOLEAN", "ENUM", "SELECT",
      "ENTITY"].map String.toList),
   .composite "spf_select".toList ([("type", "express_type"), ("value", "bytea"),
      ("label", "text")].map fun f => (f.1.toList, f.2.toList))]

/-- What `create_pgsql_for_enum` defines. -/
def enumDefinition (t : TypeRecord) : Except Stop Definition :=
  match t.name with
  | none => .error .null
  | some name => .ok (.enum name t.enumList)

/-- `elementType`, with the type itself in place of its text. -/
def elementSqlType (typecast : TypeRecord → Except Stop SqlType) (s : Schema) (t : TypeRecord) :
    Except Stop SqlType :=
  if t.type = .derived then
    match t.refType with
    | none => .error .null
    | some (.entity _) => .error .exit
    | some (.type i) =>
      match s.types[i]? with
      | some t => typecast t
      | none => .error .unset
  else (⟨·, 0⟩) <$> elementType (fun _ => .error .fuel) s t

/-- `typecast_express_to_sql`, with the type itself. -/
def sqlType : ℕ → Schema → TypeRecord → Except Stop SqlType
  | 0, _, _ => .error .fuel
  | n + 1, s, t => do
    let res ← elementSqlType (sqlType n s) s t
    return if t.isList then res.list else res

/-- The column of an attribute. -/
def attrSqlColumn (n : ℕ) (s : Schema) (a : Attr) : Except Stop SqlColumn := do
  return ⟨a.name, ← sqlType n s (← s.attrRecord a.type), !a.isOptional⟩

/-- What `create_pgsql_for_entity` defines. -/
def entityDefinition (n : ℕ) (s : Schema) (e : EntityRecord) : Except Stop Definition := do
  let super ← s.superName e
  match e.attrs with
  | none => throw .unset
  | some attrs => return .entity e.name super (← attrs.mapM (attrSqlColumn n s))

/-- The definition of the entity with an id. -/
def definitionById (n : ℕ) (s : Schema) (id : ℤ) : Except Stop Definition :=
  match findEntityById s id with
  | none => .error .null
  | some e => entityDefinition n s e

/-- What `generate_pgsql_for_schema` defines, in order. -/
def definitions (n : ℕ) (s : Schema) : Except Stop (List Definition) := do
  let enums ← (s.types.filter fun t => t.type = .enum).mapM enumDefinition
  let order ← topoOrder s
  let entities ← order.mapM (definitionById n s)
  return preambleDefinitions ++ enums ++ entities

/-! ### The text of the definitions -/

/-- A list of steps that render what others compute. -/
theorem mapM_of_map {α β γ : Type} {f : α → Except Stop β} {g : β → γ} {f' : α → Except Stop γ}
    (h : ∀ a, f' a = g <$> f a) (l : List α) : l.mapM f' = List.map g <$> l.mapM f := by
  induction l with
  | nil => rfl
  | cons a l ih =>
    rw [List.mapM_cons, List.mapM_cons, ih, h]
    cases f a with
    | error e => rfl
    | ok b => cases l.mapM f <;> rfl

/-- The text for an enumeration is that of its definition. -/
theorem createPgsqlForEnum_eq (t : TypeRecord) :
    createPgsqlForEnum t = Definition.statement <$> enumDefinition t := by
  unfold createPgsqlForEnum enumDefinition
  cases t.name <;> rfl

@[simp] theorem SqlType.render_list (t : SqlType) : t.list.render = t.render ++ "[]".toList := by
  simp [SqlType.render, SqlType.list, List.replicate_succ']

/-- The type of an element is rendered. -/
theorem elementType_eq {f : TypeRecord → Except Stop Str} {g : TypeRecord → Except Stop SqlType}
    (hfg : ∀ t, f t = SqlType.render <$> g t) (s : Schema) (t : TypeRecord) :
    elementType f s t = SqlType.render <$> elementSqlType g s t := by
  unfold elementSqlType
  by_cases hder : t.type = .derived
  · rw [if_pos hder, elementType, hder]
    cases t.refType with
    | none => rfl
    | some d =>
      cases d with
      | entity i => rfl
      | type i =>
        dsimp only
        cases s.types[i]? with
        | none => rfl
        | some t' => exact hfg t'
  · have hrender : ∀ x : Except Stop Str, SqlType.render <$> (SqlType.mk · 0) <$> x = x := by
      rintro (e | sql)
      · rfl
      · exact congrArg Except.ok (List.append_nil sql)
    rw [if_neg hder, hrender]
    unfold elementType
    cases h : t.type <;> first | rfl | exact absurd h hder

/-- The text of a type is that of the type itself. -/
theorem typecast_eq (n : ℕ) (s : Schema) (t : TypeRecord) :
    typecastExpressToSql n s t = SqlType.render <$> sqlType n s t := by
  induction n generalizing t with
  | zero => rfl
  | succ n ih =>
    rw [typecastExpressToSql, sqlType, elementType_eq ih]
    cases elementSqlType (sqlType n s) s t with
    | error e => rfl
    | ok res =>
      cases t.isList with
      | false => rfl
      | true => exact congrArg Except.ok res.render_list.symm

theorem attrColumn_eq (n : ℕ) (s : Schema) (a : Attr) :
    attrColumn n s a = SqlColumn.render <$> attrSqlColumn n s a := by
  unfold attrColumn attrSql attrSqlColumn
  cases s.attrRecord a.type with
  | error e => rfl
  | ok t =>
    simp only [typecast_eq, bind, Except.bind]
    cases sqlType n s t with
    | error e => rfl
    | ok sql => cases a.isOptional <;> simp [SqlColumn.render, Functor.map, Except.map, pure,
        Except.pure]

/-- The text of an entity is that of its definition. -/
theorem createPgsqlForEntity_eq (n : ℕ) (s : Schema) (e : EntityRecord) :
    createPgsqlForEntity n s e = Definition.statement <$> entityDefinition n s e := by
  unfold createPgsqlForEntity entityDefinition
  cases s.superName e with
  | error e => rfl
  | ok super =>
    cases e.attrs with
    | none => rfl
    | some attrs =>
      simp only [mapM_of_map (attrColumn_eq n s)]
      cases attrs.mapM (attrSqlColumn n s) <;> rfl

theorem createById_eq (n : ℕ) (s : Schema) (id : ℤ) :
    createById n s id = Definition.statement <$> definitionById n s id := by
  unfold createById definitionById
  cases findEntityById s id with
  | none => rfl
  | some e => exact createPgsqlForEntity_eq n s e

theorem preamble_eq : preamble = preambleDefinitions.map Definition.statement := by decide +kernel

/-- **The text.**  The output is the text of the definitions, and the two fail alike. -/
theorem generate_eq (n : ℕ) (s : Schema) :
    generatePgsqlForSchema n s = List.map Definition.statement <$> definitions n s := by
  unfold generatePgsqlForSchema definitions
  rw [mapM_of_map createPgsqlForEnum_eq, preamble_eq]
  cases (s.types.filter fun t => t.type = .enum).mapM enumDefinition with
  | error e => rfl
  | ok enums =>
    cases topoOrder s with
    | error e => rfl
    | ok order =>
      simp only [mapM_of_map (createById_eq n s), Functor.map, Except.map, bind, Except.bind]
      cases order.mapM (definitionById n s) with
      | error e => rfl
      | ok entities => simp [pure, Except.pure]

/-! ### What the definitions are to a server -/

/-- A name without quotes: in lower case, and cut after 63 characters. -/
def identifier (name : Str) : Str := (toLower name).take 63

/-- A name in quotes. -/
def quoted (name : Str) : Str := name.take 63

/-- The types that the output takes from the server. -/
def serverTypes : List Str :=
  ["integer", "numeric", "real", "varchar", "boolean", "oid", "bytea", "text"].map String.toList

/-- `[][]` is the same type as `[]`. -/
def SqlColumn.column (x : SqlColumn) : Column Str :=
  ⟨quoted x.name, identifier x.type.base, 0 < x.type.lists, x.notNull⟩

/-- The function of an entity. -/
def functionName (name : Str) : Str := identifier ("create_".toList ++ toLower name)

/-- The body of the function: the call of the supertype's, and the table. -/
def functionBody (name : Str) (super : Option Str) (columns : List (Column Str)) :
    List (Ddl.Action Str) :=
  let table : TableDef Str := ⟨identifier (toLower name), columns, super.map identifier⟩
  match super with
  | some name => [.perform (functionName name), .createTable table]
  | none => [.createTable table]

/-- What a definition is to a server. -/
def Definition.command : Definition → Command Str
  | .enum name labels => .createEnum (identifier name) labels
  | .composite name fields =>
    .createComposite (identifier name)
      (fields.map fun f => ⟨identifier f.1, identifier f.2, false, false⟩)
  | .entity name super columns =>
    .createFunction (functionName name) (functionBody name super (columns.map SqlColumn.column))

theorem lower_lower (x : Char) : x.toLower.toLower = x.toLower := by
  have h : ¬ (x.toLower.val ≥ 'A'.val ∧ x.toLower.val ≤ 'Z'.val) := by
    unfold Char.toLower
    split <;> grind [UInt32.toNat_add]
  exact dif_neg h

theorem toLower_toLower (name : Str) : toLower (toLower name) = toLower name := by
  simp only [toLower, List.map_map]
  exact List.map_congr_left fun x _ => lower_lower x

@[simp] theorem identifier_toLower (name : Str) : identifier (toLower name) = identifier name := by
  rw [identifier, toLower_toLower, identifier]

/-- Tables of one name have functions of one name. -/
theorem functionName_congr {x y : Str} (h : identifier x = identifier y) :
    functionName x = functionName y := by
  have hcut : ∀ name, functionName name = "create_".toList ++ (identifier name).take 56 := by
    intro name
    have happend : toLower ("create_".toList ++ toLower name) = "create_".toList ++ toLower name := by
      rw [toLower, List.map_append, ← toLower, ← toLower, toLower_toLower]
      exact congrArg (· ++ toLower name) (by decide)
    rw [functionName, identifier, happend, identifier, List.take_take]
    rfl
  rw [hcut, hcut, h]

/-! ### The hierarchy of a schema -/

section Hierarchy

variable (n : ℕ) (s : Schema)

/-- The supertype of an entity. -/
def Schema.parent (v : Fin s.entities.length) : Option (Fin s.entities.length) :=
  s.entities[v].supertype.bind fun p =>
    if h : p < s.entities.length then some ⟨p, h⟩ else none

/-- The columns of an entity's own attributes. -/
def Schema.columns (v : Fin s.entities.length) : List (Column Str) :=
  match (s.entities[v].attrs.getD []).mapM (attrSqlColumn n s) with
  | .ok columns => columns.map SqlColumn.column
  | .error _ => []

/-- The entities with their supertypes, functions and tables. -/
def Schema.hierarchy : Hierarchy (Fin s.entities.length) Str where
  parent := s.parent
  function v := functionName s.entities[v].name
  table v := identifier s.entities[v].name
  columns := s.columns n

/-- There is a function of the entity in the output. -/
def Schema.Generated (v : Fin s.entities.length) : Prop := Emitted s v.1

end Hierarchy

section Loading

variable {n : ℕ} {s : Schema} {builtin : Str → Bool}

/-- A definition by id is the function of a member of the hierarchy. -/
theorem definitionById_ok {id : ℤ} {d : Definition} (h : definitionById n s id = .ok d) :
    ∃ v : Fin s.entities.length, (v.1 : ℤ) = id ∧
      d.command = .createFunction ((s.hierarchy n).function v) ((s.hierarchy n).body v) := by
  unfold definitionById at h
  split at h
  · cases h
  rename_i e he
  unfold findEntityById at he
  split at he
  · cases he
  rename_i hid
  obtain ⟨hlt, rfl⟩ := List.getElem?_eq_some_iff.1 he
  refine ⟨⟨id.toNat, hlt⟩, Int.toNat_of_nonneg (Int.not_lt.1 hid), ?_⟩
  unfold entityDefinition at h
  obtain ⟨super, hsuper, h⟩ := bind_eq_ok.1 h
  split at h
  · cases h
  rename_i attrs hattrs
  obtain ⟨columns, hcolumns, hd⟩ := bind_eq_ok.1 h
  obtain rfl := pure_eq_ok.1 hd
  have hcols : s.columns n ⟨id.toNat, hlt⟩ = columns.map SqlColumn.column := by
    simp only [Schema.columns, Fin.getElem_fin, hattrs, Option.getD_some, hcolumns]
  -- with a supertype the table inherits, without one it does not
  have hbody : (s.hierarchy n).body ⟨id.toNat, hlt⟩ =
      functionBody s.entities[id.toNat].name super (columns.map SqlColumn.column) := by
    unfold Schema.superName at hsuper
    split at hsuper
    · rename_i hnone
      obtain rfl := Except.ok.inj hsuper
      have hparent : s.parent ⟨id.toNat, hlt⟩ = none := by simp [Schema.parent, hnone]
      simp [Hierarchy.body, Hierarchy.tableDef, Schema.hierarchy, hparent, functionBody, hcols]
    · rename_i p hp
      split at hsuper
      · rename_i e he
        obtain ⟨hplt, rfl⟩ := List.getElem?_eq_some_iff.1 he
        obtain rfl := Except.ok.inj hsuper
        have hparent : s.parent ⟨id.toNat, hlt⟩ = some ⟨p, hplt⟩ := by
          simp [Schema.parent, hp, hplt]
        simp [Hierarchy.body, Hierarchy.tableDef, Schema.hierarchy, hparent, functionBody, hcols]
      · cases hsuper
  rw [Definition.command, hbody]
  rfl

/-- **The functions of the entities** create these tables, in their order. -/
theorem entities_command {order : List ℤ} {ds : List Definition}
    (h : order.mapM (definitionById n s) = .ok ds) :
    ∃ vs : List (Fin s.entities.length), vs.map (fun v => (v.1 : ℤ)) = order ∧
      ds.map Definition.command = (vs.map fun v =>
        ((s.hierarchy n).function v, (s.hierarchy n).body v)).map fun f =>
          .createFunction f.1 f.2 := by
  induction mapM_eq_ok.1 h with
  | nil => exact ⟨[], rfl, rfl⟩
  | cons hd hrest ih =>
    obtain ⟨v, hv, hcommand⟩ := definitionById_ok hd
    obtain ⟨vs, hvs, hcommands⟩ := ih (mapM_eq_ok.2 hrest)
    exact ⟨v :: vs, by simp [hv, hvs], by simp [hcommand, hcommands]⟩

/-- The enumerations under the names that the server knows them by, with their labels. -/
def Schema.enums (s : Schema) : List (Str × List Str) :=
  (s.types.filter fun t => t.type = .enum).map fun t => (identifier (t.name.getD []), t.enumList)

/-- **The enumerations** are created as the schema has them. -/
theorem enums_command {ds : List Definition}
    (h : (s.types.filter fun t => t.type = .enum).mapM enumDefinition = .ok ds) :
    ds.map Definition.command = s.enums.map fun e => .createEnum e.1 e.2 := by
  unfold Schema.enums
  generalize (s.types.filter fun t => t.type = .enum) = ts at h ⊢
  induction mapM_eq_ok.1 h with
  | nil => rfl
  | @cons t d _ _ hd hrest ih =>
    rw [List.map_cons, ih (mapM_eq_ok.2 hrest), List.map_cons, List.map_cons]
    unfold enumDefinition at hd
    split at hd
    · cases hd
    · rename_i name hname
      obtain rfl := Except.ok.inj hd
      simp [Definition.command, hname]

/-- The commands of the definitions: the preamble, the enumerations, and the functions of the entities
that are generated, each once. -/
theorem definitions_ok {ds : List Definition} (h : definitions n s = .ok ds) :
    ∃ vs : List (Fin s.entities.length), vs.Nodup ∧ (∀ v, v ∈ vs ↔ s.Generated v) ∧
      ds.map Definition.command = preambleDefinitions.map Definition.command ++
        (s.enums.map fun e => .createEnum e.1 e.2) ++
        (vs.map fun v => ((s.hierarchy n).function v, (s.hierarchy n).body v)).map fun f =>
          .createFunction f.1 f.2 := by
  unfold definitions at h
  simp only [bind_eq_ok, pure_eq_ok] at h
  obtain ⟨enums, henums, order, horder, entities, hentities, rfl⟩ := h
  obtain ⟨hnodup, hmem, -⟩ := topoOrder_spec horder
  obtain ⟨vs, rfl, hcommands⟩ := entities_command hentities
  refine ⟨vs, hnodup.of_map _, fun v => ?_, ?_⟩
  · rw [Schema.Generated, ← hmem, List.mem_map_of_injective]
    exact fun u v huv => Fin.ext (Int.ofNat_inj.1 huv)
  · rw [List.map_append, List.map_append, enums_command henums, hcommands]

/-- The catalog after the preamble. -/
def started : Catalog Str :=
  ⟨["express_type".toList], ["spf_select".toList], fun _ => none, fun _ => none⟩

/-- The fields of the select type. -/
def selectFields : List (Column Str) :=
  [("type", "express_type"), ("value", "bytea"), ("label", "text")].map fun f =>
    ⟨f.1.toList, f.2.toList, false, false⟩

/-- The preamble defines two types in an empty catalog. -/
theorem execAll_preamble (hb : ∀ type ∈ serverTypes, builtin type) :
    execAll builtin (preambleDefinitions.map Definition.command) .empty = some started := by
  have hsplit : execAll builtin (preambleDefinitions.map Definition.command) .empty =
      Ddl.exec builtin ⟨["express_type".toList], [], fun _ => none, fun _ => none⟩
        (.createComposite "spf_select".toList selectFields) := by
    refine Eq.trans ?_ (bind_pure _)
    rfl
  rw [hsplit, Ddl.exec, if_neg]
  · rfl
  · have hknown : ∀ x ∈ selectFields, Catalog.Known builtin
        ⟨["express_type".toList], [], fun _ => none, fun _ => none⟩ x.type := by
      intro x hx
      obtain rfl | rfl | rfl : x = _ ∨ x = _ ∨ x = _ := by simpa [selectFields] using hx
      · exact .inr (.inl (List.mem_singleton.2 rfl))
      · exact .inl (hb _ (by decide))
      · exact .inl (hb _ (by decide))
    rintro (h | h | h)
    · exact absurd h (by decide)
    · exact absurd h (by decide)
    · exact h hknown

/-- No two of the statements create a thing of one name. -/
structure Loadable (s : Schema) : Prop where
  types : (s.enums.map Prod.fst).Nodup
  fresh : ∀ e ∈ s.enums, e.1 ≠ "express_type".toList ∧ e.1 ≠ "spf_select".toList
  labels : ∀ e ∈ s.enums, e.2.Nodup
  functions : ∀ u v, s.Generated u → s.Generated v →
    functionName s.entities[u].name = functionName s.entities[v].name → u = v

/-- What the server has of a schema after the script. -/
structure Loaded (n : ℕ) (s : Schema) (db : Catalog Str) : Prop where
  types : db.types = (s.enums.map Prod.fst).reverse ++ ["express_type".toList]
  composites : db.composites = ["spf_select".toList]
  tables : ∀ i, db.tables i = none
  functions : ∀ i b, db.functions i = some b ↔
    ∃ v, s.Generated v ∧ i = (s.hierarchy n).function v ∧ b = (s.hierarchy n).body v

theorem taken_started {name : Str} : started.Taken name ↔
    name = "express_type".toList ∨ name = "spf_select".toList := by
  simp [Catalog.Taken, started]

/-- The script in its three parts. -/
theorem execAll_script (hb : ∀ type ∈ serverTypes, builtin type) {ds : List Definition}
    {db : Catalog Str} {vs : List (Fin s.entities.length)}
    (hcommands : ds.map Definition.command = preambleDefinitions.map Definition.command ++
      (s.enums.map fun e => .createEnum e.1 e.2) ++
      (vs.map fun v => ((s.hierarchy n).function v, (s.hierarchy n).body v)).map fun f =>
        .createFunction f.1 f.2) :
    execAll builtin (ds.map Definition.command) .empty = some db ↔
      (s.enums.map Prod.fst).Nodup ∧ (∀ e ∈ s.enums, e.2.Nodup ∧ ¬ started.Taken e.1) ∧
        execAll builtin ((vs.map fun v => ((s.hierarchy n).function v, (s.hierarchy n).body v)).map
          fun f => .createFunction f.1 f.2)
          { started with types := (s.enums.map Prod.fst).reverse ++ started.types } = some db := by
  rw [hcommands, execAll_append, execAll_append, execAll_preamble hb, Option.bind_some,
    Option.bind_eq_some_iff]
  simp only [execAll_enums, and_assoc, exists_and_left, exists_eq_left]

/-- What a server has after the whole script. -/
theorem loaded (hb : ∀ type ∈ serverTypes, builtin type) {ds : List Definition}
    {db : Catalog Str} (h : definitions n s = .ok ds)
    (hrun : execAll builtin (ds.map Definition.command) .empty = some db) : Loaded n s db := by
  obtain ⟨vs, -, hmem, hcommands⟩ := definitions_ok h
  obtain ⟨-, -, hfunctions⟩ := (execAll_script hb hcommands).1 hrun
  obtain ⟨htypes, hcomposites, htables, hbodies⟩ := functions_of_execAll hfunctions
  refine ⟨htypes, hcomposites, fun i => congrFun htables i, fun i b => (hbodies i b).trans ?_⟩
  simp only [List.mem_map, Prod.mk.injEq, hmem, started, reduceCtorEq, or_false, eq_comm]

/-- **A text that is generated** is that of its definitions. -/
theorem exists_definitions {out : List Statement} (h : generatePgsqlForSchema n s = .ok out) :
    ∃ ds, definitions n s = .ok ds ∧ out = ds.map Definition.statement := by
  rw [generate_eq] at h
  cases hds : definitions n s with
  | error e => rw [hds] at h; cases h
  | ok ds =>
    rw [hds] at h
    exact ⟨ds, rfl, (Except.ok.inj h).symm⟩

/-- Where a catalog takes the whole script. -/
theorem execAll_iff (hb : ∀ type ∈ serverTypes, builtin type) {ds : List Definition}
    (h : definitions n s = .ok ds) :
    (∃ db, execAll builtin (ds.map Definition.command) .empty = some db) ↔ Loadable s := by
  obtain ⟨vs, hnodup, hmem, hcommands⟩ := definitions_ok h
  have hnames : ((vs.map fun v => ((s.hierarchy n).function v, (s.hierarchy n).body v)).map
      Prod.fst).Nodup ↔ ∀ u v, s.Generated u → s.Generated v →
        functionName s.entities[u].name = functionName s.entities[v].name → u = v := by
    rw [List.map_map, List.nodup_map_iff_inj_on hnodup]
    simp only [hmem]
    exact ⟨fun h u v hu hv => h u hu v hv, fun h u hu v hv => h u v hu hv⟩
  simp only [execAll_script hb hcommands, exists_and_left, execAll_functions, hnames, taken_started,
    not_or]
  constructor
  · rintro ⟨htypes, hes, hfunctions, -⟩
    exact ⟨htypes, fun e he => (hes e he).2, fun e he => (hes e he).1, hfunctions⟩
  · rintro ⟨htypes, hfresh, hlabels, hfunctions⟩
    exact ⟨htypes, fun e he => ⟨hlabels e he, hfresh e he⟩, hfunctions, fun f hf => rfl⟩

end Loading

/-! ### The server -/

/-- A server: what it has in its catalog and of itself, how deep calls of its functions nest, and
what it does with the text of a statement and with the call of a function. -/
structure Server (σ : Type) where
  catalog : σ → Catalog Str
  builtin : Str → Bool
  depth : ℕ
  execute : Str → σ → Option σ
  call : Str → σ → Option σ

section Server

variable {σ : Type} (V : Server σ)

/-- A script, of which every statement has to succeed. -/
def Server.run (out : List Statement) (db : σ) : Option σ :=
  out.foldlM (fun db x => V.execute x.render db) db

/-- A run of calls. -/
def Server.callAll (fs : List Str) (db : σ) : Option σ :=
  fs.foldlM (fun db f => V.call f db) db

/-- The functions of a catalog are those of plain definitions. -/
def PlainFunctions (plain : Definition → Prop) (c : Catalog Str) : Prop :=
  ∀ f b, c.functions f = some b → ∃ d, plain d ∧ d.command = .createFunction f b

/-- What is used of a server that has nothing against the definitions of `plain` by themselves. -/
structure Server.Documented (plain : Definition → Prop) : Prop where
  /-- It has the types that the output takes from it. -/
  types : ∀ type ∈ serverTypes, V.builtin type
  /-- The text of a definition does what the definition says. -/
  execute : ∀ d, plain d → ∀ db,
    (V.execute d.statement.render db).map V.catalog = Ddl.exec V.builtin (V.catalog db) d.command
  /-- A call runs the body that the function has at that moment. -/
  call : ∀ db, PlainFunctions plain (V.catalog db) → ∀ f,
    (V.call f db).map V.catalog = Ddl.call V.builtin V.depth f (V.catalog db)

variable {V} {plain : Definition → Prop}

/-- A run of the texts is a run of the commands. -/
theorem Server.Documented.run_map (hV : V.Documented plain) {ds : List Definition}
    (hplain : ∀ d ∈ ds, plain d) (db : σ) :
    (V.run (ds.map Definition.statement) db).map V.catalog =
      execAll V.builtin (ds.map Definition.command) (V.catalog db) := by
  induction ds generalizing db with
  | nil => rfl
  | cons d ds ih =>
    obtain ⟨hd, hplain⟩ := List.forall_mem_cons.1 hplain
    have hone := hV.execute d hd db
    rw [execAll, List.map_cons, List.map_cons, Server.run, List.foldlM_cons, List.foldlM_cons,
      ← hone]
    cases V.execute d.statement.render db with
    | none => rfl
    | some db₁ => exact ih hplain db₁

/-- A run of calls is a run of the functions in the catalog. -/
theorem Server.Documented.callAll_map (hV : V.Documented plain) {db : σ}
    (hdb : PlainFunctions plain (V.catalog db)) (fs : List Str) :
    (V.callAll fs db).map V.catalog = Ddl.callAll V.builtin V.depth fs (V.catalog db) := by
  induction fs generalizing db with
  | nil => rfl
  | cons f fs ih =>
    have hone := hV.call db hdb f
    rw [Ddl.callAll, List.foldlM_cons, ← hone, Server.callAll, List.foldlM_cons]
    cases h : V.call f db with
    | none => rfl
    | some db₁ =>
      rw [h, Option.map_some] at hone
      have hdb₁ : PlainFunctions plain (V.catalog db₁) := by
        intro g b hg
        rw [call_functions hone.symm] at hg
        exact hdb g b hg
      exact ih hdb₁

/-- **The script.**  A server without a schema, which has nothing against any of the definitions by
itself, takes the whole of it if and only if no two of its statements create a thing of one
name. -/
theorem script_runs_iff (hV : V.Documented plain) {db₀ : σ} (hempty : V.catalog db₀ = .empty)
    {n : ℕ} {s : Schema} {out : List Statement} (h : generatePgsqlForSchema n s = .ok out) :
    ∃ ds, definitions n s = .ok ds ∧ out = ds.map Definition.statement ∧
      ((∀ d ∈ ds, plain d) → ((∃ db, V.run out db₀ = some db) ↔ Loadable s)) := by
  obtain ⟨ds, hds, rfl⟩ := exists_definitions h
  refine ⟨ds, hds, rfl, fun hplain => ?_⟩
  have hrun := hV.run_map hplain db₀
  rw [hempty] at hrun
  rw [← execAll_iff hV.types hds, ← hrun]
  simp

end Server

/-- An enumeration, an entity with an attribute of it, and a subtype with one more. -/
def tinted : Schema :=
  ⟨[{ newType with
        name := "IfcColour".toList, type := .enum, enumNum := 2,
        enumList := ["RED".toList, "BLUE".toList] }],
    [⟨"IfcR".toList, false, some [⟨"Tint".toList, .shared 0, false⟩], some [some 1], none⟩,
     ⟨"IfcX".toList, false, some [⟨"Size".toList, .own { newType with type := .real }, true⟩],
      some [], some 0⟩]⟩

/-- An enumeration, an entity and its subtype. -/
def tintedText : Str :=
  ("SCHEMA S;TYPE IfcColour = ENUMERATION OF(RED,BLUE);END_TYPE;" ++
    "ENTITY IfcR SUPERTYPE OF(ONEOF(IfcX));Tint:IfcColour;END_ENTITY;" ++
    "ENTITY IfcX SUBTYPE OF(IfcR);Size:OPTIONAL REAL;END_ENTITY;END_SCHEMA;").toList

/-- The definitions of `tinted`. -/
def tintedDefinitions : List Definition := ((definitions 1 tinted).toOption.getD [])

/-- A server that knows these definitions by their texts. -/
def tintedServer : Server (Catalog Str) where
  catalog := id
  builtin := serverTypes.contains
  depth := 100
  execute text db := (tintedDefinitions.find? (·.statement.render = text)).bind fun d =>
    Ddl.exec serverTypes.contains db d.command
  call f db := Ddl.call serverTypes.contains 100 f db

/-- A server that does what is documented on these definitions. -/
theorem tintedServer_documented : tintedServer.Documented (· ∈ tintedDefinitions) where
  types type h := by simpa [tintedServer] using h
  execute d hd db := by
    have hfind : ∀ d ∈ tintedDefinitions,
        tintedDefinitions.find? (·.statement.render = d.statement.render) = some d := by
      decide +kernel
    simp [tintedServer, hfind d hd]
  call db _ f := by simp [tintedServer]

theorem definitions_tinted : definitions 1 tinted = .ok tintedDefinitions := by
  obtain ⟨ds, hds⟩ := exists_ok
    (show (definitions 1 tinted).toOption.isSome = true by decide +kernel)
  rw [tintedDefinitions, hds]
  rfl

/-- The script of `tinted` on the server that knows it. -/
theorem script_runs_tinted : ∃ out, generatePgsqlForSchema 1 tinted = .ok out ∧
    ((∃ db, tintedServer.run out .empty = some db) ↔ Loadable tinted) := by
  obtain ⟨out, hout⟩ := exists_ok
    (show (generatePgsqlForSchema 1 tinted).toOption.isSome = true by decide +kernel)
  obtain ⟨ds, hds, -, hrun⟩ := script_runs_iff tintedServer_documented rfl hout
  cases Except.ok.inj (definitions_tinted.symm.trans hds)
  exact ⟨out, hout, hrun fun _ => id⟩

/-! ### Types of columns -/

section Columns

variable {n : ℕ} {s : Schema} {builtin : Str → Bool}

/-- No attribute has a named type of its own. -/
def Schema.Anonymous (s : Schema) : Prop :=
  ∀ e ∈ s.entities, ∀ l, e.attrs = some l → ∀ a ∈ l, ∀ t, a.type = .own t → t.name = none

theorem attrType_name {args : TypeArgs} {t : TypeRecord} (h : attrType s args = .ok (.own t)) :
    t.name = none := by
  unfold attrType at h
  split at h
  · simp only [bind_eq_ok, pure_eq_ok, AttrType.own.injEq] at h
    obtain ⟨t', ht', rfl⟩ := h
    exact assignTypeArgs_name ht'
  · split at h
    · cases pure_eq_ok.1 h
    · cases pure_eq_ok.1 h
      rfl

theorem assignAttrs_name {s s' : Schema} {as : List AttrArgs} {done out : List Attr}
    (h : assignAttrs s as done = .ok (s', out))
    (hdone : ∀ a ∈ done, ∀ t, a.type = .own t → t.name = none) :
    ∀ a ∈ out, ∀ t, a.type = .own t → t.name = none := by
  induction as generalizing s done with
  | nil =>
    obtain ⟨-, rfl⟩ := Prod.mk.inj (Except.ok.inj h)
    exact hdone
  | cons a as ih =>
    simp only [assignAttrs, bind_eq_ok, require_eq_ok, Prod.exists] at h
    obtain ⟨s₁, attr, ha, -, -, h⟩ := h
    refine ih h fun b hb t ht => ?_
    rcases List.mem_append.1 hb with hb | hb
    · exact hdone b hb t ht
    · obtain rfl := List.mem_singleton.1 hb
      exact attrType_name (ht ▸ assignAttr_type ha)

theorem Schema.Anonymous.register {c c' : Context} {r : Kind × Str} (h : c.schema.Anonymous)
    (hr : c.register r = .ok c') : c'.schema.Anonymous := by
  obtain ⟨k, name⟩ := r
  cases k with
  | type =>
    simp only [Context.register, bind_eq_ok, pure_eq_ok, addTypeToSchema_ok] at hr
    obtain ⟨s, ⟨-, rfl⟩, rfl⟩ := hr
    exact h
  | entity =>
    simp only [Context.register, bind_eq_ok, pure_eq_ok, addEntityToSchema_ok] at hr
    obtain ⟨s, ⟨-, rfl⟩, rfl⟩ := hr
    intro e he l hl
    rcases List.mem_append.1 he with he | he
    · exact h e he l hl
    · rw [List.mem_singleton.1 he] at hl
      cases hl

theorem Schema.Anonymous.declare {c c' : Context} {d : Declaration} (h : c.schema.Anonymous)
    (hd : c.declare d = .ok c') : c'.schema.Anonymous := by
  cases d with
  | type args =>
    obtain ⟨name, i, t, t', -, -, -, -, rfl⟩ := initType_ok hd
    exact h
  | entity args =>
    obtain ⟨i, e, s', -, -, -, hassign, rfl⟩ := initEntity_ok hd
    obtain ⟨e', supertype, attrs, -, -, -, -, s₁, hattrs, rfl⟩ := assignEntityArgs_ok hassign
    intro x hx l hl
    rcases List.mem_or_eq_of_mem_set hx with hx | rfl
    · exact h x hx l hl
    · cases Option.some.inj hl
      exact assignAttrs_name hattrs (by simp)

/-- The parser names no type that is not in the table. -/
theorem Reaches.anonymous {text : Str} {done : List Declaration} {c : Context}
    (h : Reaches text done c) : c.schema.Anonymous := by
  obtain ⟨c₀, h₀, hdone⟩ := h
  simp only [preprocess_eq, bind_eq_ok, require_eq_ok, pure_eq_ok] at h₀
  obtain ⟨c₁, hregs, -, -, rfl⟩ := h₀
  have hnew : Context.new.schema.Anonymous := by intro e he; cases he
  have hfirst : c₁.schema.Anonymous :=
    foldlM_invariant (P := fun _ c => c.schema.Anonymous) hregs hnew
      fun _ _ _ _ _ _ hP hr => hP.register hr
  exact foldlM_invariant (P := fun _ c => c.schema.Anonymous) hdone hfirst
    fun _ _ _ _ _ _ hP hd => hP.declare hd

/-- A type is one of the server's, the select type, or an enumeration of the schema. -/
theorem sqlType_base (hb : ∀ type ∈ serverTypes, builtin type) {t : TypeRecord} {r : SqlType}
    (h : sqlType n s t = .ok r) :
    builtin (identifier r.base) ∨ identifier r.base = "spf_select".toList ∨
      ∃ t', (t' = t ∨ t' ∈ s.types) ∧ t'.type = .enum ∧ t'.name = some r.base := by
  induction n generalizing t r with
  | zero => cases h
  | succ n ih =>
    rw [sqlType] at h
    obtain ⟨res, hres, h⟩ := bind_eq_ok.1 h
    have hbase : r.base = res.base := by
      rw [← pure_eq_ok.1 h]
      split <;> rfl
    rw [hbase]
    unfold elementSqlType at hres
    split at hres
    · split at hres
      · cases hres
      · cases hres
      · split at hres
        · rename_i t' ht'
          -- a derived type has the name of the one it is derived from
          rcases ih hres with hb | hsel | ⟨t'', hmem, henum, hname⟩
          · exact Or.inl hb
          · exact Or.inr (Or.inl hsel)
          · refine Or.inr (Or.inr ⟨t'', Or.inr ?_, henum, hname⟩)
            rcases hmem with rfl | hmem
            · exact List.mem_of_getElem? ht'
            · exact hmem
        · cases hres
    · rename_i hder
      unfold elementType at hres
      cases htype : t.type <;> rw [htype] at hres <;> dsimp only at hres
      -- an enumeration is its own type, a selection is the composite
      case enum =>
        split at hres
        · rename_i name hname
          cases Except.ok.inj hres
          exact Or.inr (Or.inr ⟨t, Or.inl rfl, htype, hname⟩)
        · cases hres
      case select =>
        cases Except.ok.inj hres
        exact Or.inr (Or.inl (by decide))
      case derived => exact absurd htype hder
      case entity => cases hres
      case unknown => cases hres
      all_goals
        cases Except.ok.inj hres
        exact Or.inl (hb _ (by decide))

/-- The types of columns are there after the script. -/
theorem known_column (hb : ∀ type ∈ serverTypes, builtin type) {db : Catalog Str}
    (hanon : s.Anonymous) (hdb : Loaded n s db)
    (v : Fin s.entities.length) {x : Column Str} (hx : x ∈ s.columns n v) :
    builtin x.type ∨ x.type ∈ db.types ∨ x.type ∈ db.composites := by
  unfold Schema.columns at hx
  split at hx
  case h_2 => cases hx
  rename_i columns hcolumns
  obtain ⟨y, hy, rfl⟩ := List.mem_map.1 hx
  obtain ⟨a, ha, hy⟩ := (mem_mapM_ok hcolumns y).1 hy
  simp only [attrSqlColumn, bind_eq_ok, pure_eq_ok] at hy
  obtain ⟨t, ht, r, hr, rfl⟩ := hy
  rcases sqlType_base hb hr with hb | hsel | ⟨t', hmem, henum, hname⟩
  · exact Or.inl hb
  · exact Or.inr (Or.inr (by simp [SqlColumn.column, hsel, hdb.composites]))
  have htable : t' ∈ s.types := by
    rcases hmem with rfl | hmem
    · cases htype : a.type with
      | own t₀ =>
        -- a type of its own would have no name
        rw [htype, Schema.attrRecord] at ht
        cases Except.ok.inj ht
        obtain ⟨attrs, hattrs⟩ : ∃ attrs, s.entities[v].attrs = some attrs := by
          cases hattrs : s.entities[v].attrs with
          | none => rw [hattrs] at ha; cases ha
          | some attrs => exact ⟨attrs, rfl⟩
        rw [hattrs, Option.getD_some] at ha
        have hnone := hanon _ (List.getElem_mem v.2) attrs hattrs a ha _ htype
        rw [hname] at hnone
        cases hnone
      | shared i =>
        rw [htype, Schema.attrRecord] at ht
        split at ht
        · cases Except.ok.inj ht
          exact List.mem_of_getElem? ‹_›
        · cases ht
    · exact hmem
  refine Or.inr (Or.inl ?_)
  rw [hdb.types, List.mem_append, List.mem_reverse, List.mem_map]
  refine Or.inl ⟨_, List.mem_map.2 ⟨t', List.mem_filter.2 ⟨htable, by simpa using henum⟩, rfl⟩, ?_⟩
  rw [hname]
  rfl

end Columns

/-! ### Calls -/

/-- The entities have different functions, and none has the name of the select type. -/
structure Schema.NamesDiffer (s : Schema) : Prop where
  functions : ∀ u v : Fin s.entities.length,
    functionName s.entities[u].name = functionName s.entities[v].name → u = v
  select : ∀ v : Fin s.entities.length, identifier s.entities[v].name ≠ "spf_select".toList

/-- The entity itself, or one that is reached from it by supertypes. -/
def Schema.Above (s : Schema) (u v : Fin s.entities.length) : Prop :=
  Relation.ReflTransGen (fun a b => s.parent a = some b) v u

/-- `columns` are the columns of an entity, after those of its supertypes: all of these are
generated, and no name stands in the way. -/
def Schema.TableOf (n : ℕ) (s : Schema) (v : Fin s.entities.length) (columns : List (Column Str)) :
    Prop :=
  (s.hierarchy n).Row s.Generated ((s.enums.map Prod.fst).reverse ++ ["express_type".toList]) v
    columns

/-- After the script the entities are a hierarchy of functions. -/
theorem Loaded.declared {builtin : Str → Bool} (hb : ∀ type ∈ serverTypes, builtin type) {n : ℕ}
    {s : Schema} {db : Catalog Str} (hdb : Loaded n s db) (hanon : s.Anonymous)
    (hnames : s.NamesDiffer) :
    Hierarchy.Declared builtin (s.hierarchy n) s.Generated db where
  bodies v hv := (hdb.functions _ _).2 ⟨v, hv, rfl, rfl⟩
  others v hv := by
    rw [Option.eq_none_iff_forall_ne_some]
    intro b hb
    obtain ⟨u, hu, hname, -⟩ := (hdb.functions _ _).1 hb
    exact hv (hnames.functions v u hname ▸ hu)
  known v _ x hx := known_column hb hanon hdb v hx
  names u v h := hnames.functions u v (functionName_congr h)
  free v := by
    rw [hdb.composites, List.mem_singleton]
    exact hnames.select v

section Server

variable {σ : Type} {V : Server σ} {plain : Definition → Prop}

/-- What the functions of a schema do in `db`.  They can be called in any order and any number of
times.  A run of calls, of entities that have fewer supertypes than calls may nest, succeeds if and
only if each of its entities has a table; then the tables of these entities and of their supertypes
are there, and no others. -/
def Creates (V : Server σ) (n : ℕ) (s : Schema) (db : σ) : Prop :=
  ∀ vs : List (Fin s.entities.length),
    ((∀ v ∈ vs, (s.hierarchy n).up V.depth v = none) →
      ((∃ db', V.callAll (vs.map fun v => functionName s.entities[v].name) db = some db') ↔
        ∀ v ∈ vs, ∃ columns, s.TableOf n v columns)) ∧
    ∀ db', V.callAll (vs.map fun v => functionName s.entities[v].name) db = some db' →
      ∀ name columns, (V.catalog db').tables name = some columns ↔
        ∃ u, (∃ v ∈ vs, s.Above u v) ∧ identifier s.entities[u].name = name ∧
          s.TableOf n u columns

/-- The functions after the script are those of its definitions. -/
theorem plainFunctions_of_execAll {builtin : Str → Bool}
    (hb : ∀ type ∈ serverTypes, builtin type) {n : ℕ} {s : Schema} {ds : List Definition}
    {db : Catalog Str} (hds : definitions n s = .ok ds) (hplain : ∀ d ∈ ds, plain d)
    (hrun : execAll builtin (ds.map Definition.command) .empty = some db) :
    PlainFunctions plain db := by
  intro f b hf
  obtain ⟨v, hv, rfl, rfl⟩ := ((loaded hb hds hrun).functions f b).1 hf
  obtain ⟨vs, -, hmem, hcommands⟩ := definitions_ok hds
  have hcommand : Command.createFunction ((s.hierarchy n).function v) ((s.hierarchy n).body v) ∈
      ds.map Definition.command := by
    rw [hcommands, List.mem_append, List.map_map]
    exact .inr (List.mem_map.2 ⟨v, (hmem v).2 hv, rfl⟩)
  obtain ⟨d, hd, heq⟩ := List.mem_map.1 hcommand
  exact ⟨d, hplain d hd, heq⟩

/-- **The functions.** -/
theorem generates_creates (hV : V.Documented plain) {db₀ : σ} (hempty : V.catalog db₀ = .empty)
    {text : Str} {c : Context} {r n : ℕ} {out : List Statement}
    (hparse : parse text = .ok (c, r)) (hnames : c.schema.NamesDiffer)
    (hout : generatePgsqlForSchema n c.schema = .ok out) :
    ∃ ds, definitions n c.schema = .ok ds ∧ out = ds.map Definition.statement ∧
      ((∀ d ∈ ds, plain d) → ∀ db, V.run out db₀ = some db → Creates V n c.schema db) := by
  obtain ⟨ds, hds, rfl⟩ := exists_definitions hout
  refine ⟨ds, hds, rfl, fun hplain db hrun vs => ?_⟩
  have hscript : execAll V.builtin (ds.map Definition.command) .empty = some (V.catalog db) := by
    rw [← hempty, ← hV.run_map hplain db₀, hrun, Option.map_some]
  have hdb := loaded hV.types hds hscript
  have hdeclared := hdb.declared hV.types (parse_ok.1 hparse).1.anonymous hnames
  have hcalls := hdeclared.callAll_iff hdb.tables V.depth vs
  have hmap := hV.callAll_map (plainFunctions_of_execAll hV.types hds hplain hscript)
    (vs.map fun v => functionName c.schema.entities[v].name)
  rw [hdb.types] at hcalls
  refine ⟨fun hdepth => ?_, fun db' hdb' => ?_⟩
  · refine Iff.trans ?_ (hcalls.1 hdepth)
    change _ ↔ ∃ c', callAll V.builtin V.depth (vs.map fun v =>
      functionName c.schema.entities[v].name) (V.catalog db) = some c'
    rw [← hmap]
    simp
  · rw [hdb', Option.map_some] at hmap
    exact hcalls.2 _ hmap.symm

end Server

/-- The functions of `tinted` there. -/
theorem generates_creates_tinted : ∃ c out, parse tintedText = .ok (c, 0) ∧ c.schema = tinted ∧
    generatePgsqlForSchema 1 c.schema = .ok out ∧
    ∀ db, tintedServer.run out .empty = some db → Creates tintedServer 1 c.schema db := by
  obtain ⟨c, hparse, hschema⟩ := parsedSchema_ok
    (show parsedSchema tintedText = .ok (tinted, 0) by decide +kernel)
  obtain ⟨out, hout⟩ := exists_ok
    (show (generatePgsqlForSchema 1 tinted).toOption.isSome = true by decide +kernel)
  have hnames : tinted.NamesDiffer := ⟨by decide, by decide⟩
  rw [← hschema] at hout hnames
  obtain ⟨ds, hds, -, hcreates⟩ :=
    generates_creates tintedServer_documented rfl hparse hnames hout
  rw [hschema] at hds
  cases Except.ok.inj (definitions_tinted.symm.trans hds)
  exact ⟨c, out, hparse, hschema, hout, hcreates fun _ => id⟩

end VulcanDB.Express
