import VulcanDB.Express.Schema
import VulcanDB.Library.Kahn

/-!
# EXPRESS — SQL of a schema

`PgSQLGenerator`, with the graph it sorts.  The text of a schema is a list of statements; that of
an entity is known by the name of its function.  `typecast_express_to_sql` follows derived types
without a bound, and so takes fuel.
-/

namespace VulcanDB.Express

open Cxx Steps

/-! ### Types -/

/-- The SQL type without the `[]` of a list. -/
def elementType (typecast : TypeRecord → Except Stop Str) (s : Schema) (t : TypeRecord) :
    Except Stop Str :=
  match t.type with
  | .integer => .ok "INTEGER".toList
  | .number => .ok "NUMERIC".toList
  | .real => .ok "REAL".toList
  | .binary => .ok "VARCHAR".toList
  | .logical => .ok "VARCHAR".toList
  | .string => .ok "VARCHAR".toList
  | .boolean => .ok "BOOLEAN".toList
  | .enum =>
    match t.name with
    | some name => .ok name
    | none => .error .null
  | .select => .ok "SPF_SELECT".toList
  | .reference => .ok "OID".toList
  | .derived =>
    match t.refType with
    | none => .error .null
    -- an `Entity` taken for a `Type`, whose `desc.type` is `T_ENTITY`
    | some (.entity _) => .error .exit
    | some (.type i) =>
      match s.types[i]? with
      | some t => typecast t
      | none => .error .unset
  | .entity => .error .exit
  | .unknown => .error .exit

/-- The type of a column. -/
def typecastExpressToSql : ℕ → Schema → TypeRecord → Except Stop Str
  | 0, _, _ => .error .fuel
  | n + 1, s, t => do
    let res ← elementType (typecastExpressToSql n s) s t
    return if t.isList then res ++ "[]".toList else res

/-- The record that an attribute points to. -/
def Schema.attrRecord (s : Schema) : AttrType → Except Stop TypeRecord
  | .own t => .ok t
  | .shared i =>
    match s.types[i]? with
    | some t => .ok t
    | none => .error .unset

/-- The type of the column of an attribute. -/
def attrSql (n : ℕ) (s : Schema) (a : Attr) : Except Stop Str := do
  typecastExpressToSql n s (← s.attrRecord a.type)

/-! ### Statements -/

/-- What is generated, piece by piece. -/
inductive Statement where
  | text (s : Str)
  /-- `CREATE FUNCTION create_name` and what follows. -/
  | function (name body : Str)
  deriving DecidableEq

/-- The text of a piece. -/
def Statement.render : Statement → Str
  | .text s => s
  | .function name body => "CREATE FUNCTION create_".toList ++ name ++ body

/-- The statement for an enumeration. -/
def createPgsqlForEnum (t : TypeRecord) : Except Stop Statement :=
  match t.name with
  | none => .error .null
  | some name =>
    let values := t.enumList.map fun v => "'".toList ++ v ++ "'".toList
    .ok (.text ("CREATE TYPE ".toList ++ name ++ " AS ENUM (".toList ++
      ", ".toList.intercalate values ++ ");\n".toList))

/-- `tolower` on every character. -/
def toLower (s : Str) : Str := s.map Char.toLower

/-- The column of an attribute. -/
def attrColumn (n : ℕ) (s : Schema) (a : Attr) : Except Stop Str := do
  let sql ← attrSql n s a
  return " \"".toList ++ a.name ++ "\" ".toList ++ sql ++
    if a.isOptional then [] else " NOT NULL".toList

/-- The name of the supertype. -/
def Schema.superName (s : Schema) (e : EntityRecord) : Except Stop (Option Str) :=
  match e.supertype with
  | none => .ok none
  | some p =>
    match s.entities[p]? with
    | some e => .ok (some e.name)
    | none => .error .unset

/-- The statement for an entity. -/
def createPgsqlForEntity (n : ℕ) (s : Schema) (e : EntityRecord) : Except Stop Statement := do
  let super ← s.superName e
  match e.attrs with
  | none => throw .unset
  | some attrs =>
    let columns ← attrs.mapM (attrColumn n s)
    let perform := match super with
      | some name => "PERFORM create_".toList ++ toLower name ++ "();\n".toList
      | none => []
    let inherits := match super with
      | some name => " INHERITS (".toList ++ name ++ ")".toList
      | none => []
    return .function (toLower e.name) ("() RETURNS BOOLEAN AS $$\nBEGIN\n".toList ++ perform ++
      "CREATE TABLE IF NOT EXISTS ".toList ++ toLower e.name ++ "(".toList ++
      ", ".toList.intercalate columns ++ ")".toList ++ inherits ++
      ";\nRETURN TRUE;\nEND;\n$$ LANGUAGE plpgsql;\n".toList)

/-! ### The graph of subtypes -/

/-- `nodes` are the keys of both maps.  The counters are exact integers, or of another type `C`. -/
structure TopoGraph (C : Type) where
  nodes : List ℤ
  graph : ℤ → List ℤ
  inDegree : ℤ → C

namespace TopoGraph

variable {C : Type} [DecidableEq C] [Zero C] [One C] [Add C] [Sub C]

/-- No nodes. -/
def empty : TopoGraph C := ⟨[], fun _ => [], fun _ => 0⟩

/-- A node that is there is left alone. -/
def addNode (g : TopoGraph C) (v : ℤ) : TopoGraph C :=
  if v ∈ g.nodes then g
  else ⟨g.nodes.orderedInsert (· ≤ ·) v, Function.update g.graph v [],
    Function.update g.inDegree v 0⟩

/-- An edge that is there is left alone; a new one counts at its end. -/
def addEdge (g : TopoGraph C) (u v : ℤ) : TopoGraph C :=
  let g := (g.addNode u).addNode v
  if v ∈ g.graph u then g
  else { g with
    graph := Function.update g.graph u ((g.graph u).orderedInsert (· ≤ ·) v)
    inDegree := Function.update g.inDegree v (g.inDegree v + 1) }

/-- The order, by Kahn's algorithm on the counters. -/
def topoSort (g : TopoGraph C) : Option (List ℤ) := Kahn.sort g.nodes g.graph g.inDegree

end TopoGraph

/-! ### The schema -/

/-- The place in the table, or -1. -/
def getEntityId : Option ℕ → ℤ
  | none => -1
  | some i => i

/-- The entity at that place. -/
def findEntityById (s : Schema) (id : ℤ) : Option EntityRecord :=
  if id < 0 then none else s.entities[id.toNat]?

/-- The edges of one entity. -/
def subtypeEdges (i : ℕ) (e : EntityRecord) : Except Stop (List (ℤ × ℤ)) :=
  match e.subtypes with
  | none => .error .unset
  | some subtypes => .ok (subtypes.map fun j => (↑i, getEntityId j))

/-- The edges from the entities to their subtypes. -/
def edges (s : Schema) : Except Stop (List (ℤ × ℤ)) := do
  return (← s.entities.zipIdx.mapM fun e => subtypeEdges e.2 e.1).flatten

/-- The graph of these edges. -/
def topoGraph (es : List (ℤ × ℤ)) : TopoGraph ℤ :=
  es.foldl (fun g e => g.addEdge e.1 e.2) .empty

/-- The statement for the entity at that place. -/
def createById (n : ℕ) (s : Schema) (id : ℤ) : Except Stop Statement :=
  match findEntityById s id with
  | none => .error .null
  | some e => createPgsqlForEntity n s e

/-- The statements of `express_type` and of `spf_select`. -/
def preamble : List Statement :=
  [.text ("CREATE TYPE express_type AS ENUM ('INTEGER', 'REAL', 'STRING', 'BOOLEAN', 'ENUM', " ++
    "'SELECT', 'ENTITY');\n").toList,
   .text "CREATE TYPE spf_select AS (type express_type,value bytea,label text);\n".toList]

/-- The order of the entities, and the first of them for the assertion. -/
def topoOrder (s : Schema) : Except Stop (List ℤ) := do
  match (topoGraph (← edges s)).topoSort with
  | none => throw .fuel
  | some [] => throw .badIndex
  | some (id :: ids) =>
    match findEntityById s id with
    | none => throw .null
    | some e =>
      require (e.supertype = none) .assertion
      return id :: ids

/-- **The generator**: the enumerations, the entities in the order of the graph, and the
functions. -/
def generatePgsqlForSchema (n : ℕ) (s : Schema) : Except Stop (List Statement) := do
  let enums ← (s.types.filter fun t => t.type = .enum).mapM createPgsqlForEnum
  let order ← topoOrder s
  let functions ← order.mapM (createById n s)
  return preamble ++ enums ++ functions

end VulcanDB.Express
