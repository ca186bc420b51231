import VulcanDB.Library.CxxString
import VulcanDB.Library.Steps

/-!
# EXPRESS — Schemas

The tables of a schema, and how the arguments of a declaration are stored in them.  A pointer to a
record of a table is its index; `new_type` makes the record of an attribute without a declared
type, which that attribute alone points to.
-/

namespace VulcanDB.Express

open Cxx Steps

/-! ### Records -/

/-- The kinds of types, `TYPE_ENUM`. -/
inductive TypeEnum where
  | real | number | integer | boolean | binary | logical | string | entity | enum | select
  | derived | reference | unknown
  deriving DecidableEq

/-- `MAX_TYPE_NUM`. -/
def maxTypeNum : ℕ := 500

/-- `MAX_ENTITY_NUM`. -/
def maxEntityNum : ℕ := 1000

/-- `MAX_SUBTYPE_NUM`. -/
def maxSubtypeNum : ℕ := 50

/-- `MAX_ATTR_NUM`. -/
def maxAttrNum : ℕ := 50

/-- An `ExpDesc *` into one of the tables. -/
inductive Desc where
  | type (i : ℕ)
  | entity (i : ℕ)
  deriving DecidableEq

/-- A record of a type; `refType` is its pointer to another one. -/
structure TypeRecord where
  name : Option Str
  type : TypeEnum
  refType : Option Desc
  isList : Bool
  lb : ℕ
  ub : ℕ
  fixedLength : Bool
  enumNum : ℕ
  enumList : List Str
  selectNum : ℕ
  selectList : List Desc
  deriving DecidableEq

/-- A record as `newType` leaves it. -/
def newType : TypeRecord := ⟨none, .unknown, none, false, 0, 2 ^ 32 - 1, false, 0, [], 0, []⟩

/-- A `Type *` of an attribute: to a type of the table, or to a record of its own. -/
inductive AttrType where
  | shared (i : ℕ)
  | own (t : TypeRecord)
  deriving DecidableEq

/-- An attribute of an entity. -/
structure Attr where
  name : Str
  type : AttrType
  isOptional : Bool
  deriving DecidableEq

/-- `attrs` are the attributes below `attr_num`, and `subtypes` those below `subtype_num`:
`new_entity` sets neither. -/
structure EntityRecord where
  name : Str
  isAbstract : Bool
  attrs : Option (List Attr)
  subtypes : Option (List (Option ℕ))
  supertype : Option ℕ
  deriving DecidableEq

/-- A record as `newEntity` leaves it. -/
def newEntity (name : Str) : EntityRecord := ⟨name, false, none, none, none⟩

/-- The two tables. -/
structure Schema where
  types : List TypeRecord
  entities : List EntityRecord
  deriving DecidableEq

/-- No types, no entities. -/
def newSchema : Schema := ⟨[], []⟩

/-- Why a run stops. -/
inductive Stop where
  /-- `exit(1)`. -/
  | exit
  | assertion
  /-- An index past the end of an array is written. -/
  | overflow
  /-- A null pointer is followed. -/
  | null
  /-- What was never set is read. -/
  | unset
  /-- An index past the end is read. -/
  | badIndex
  /-- A recursion goes deeper than it is followed. -/
  | fuel
  deriving DecidableEq

/-! ### Arguments -/

/-- What the parser hands over for a type. -/
structure TypeArgs where
  type : TypeEnum
  typeName : Option Str
  refTypeName : Option Str
  isList : Bool
  lb : ℕ
  ub : ℕ
  fixedLength : Bool
  selectList : List Str
  enumList : List Str
  deriving DecidableEq

/-- Arguments with nothing set but the name and the kind. -/
def newTypeNameArgs (typeName : Option Str) (type : TypeEnum) : TypeArgs :=
  ⟨type, typeName, none, false, 0, 2 ^ 32 - 1, false, [], []⟩

/-- What `attr_names`, `attr_types` and `is_optional` hold at one index. -/
structure AttrArgs where
  name : Str
  type : TypeArgs
  isOptional : Bool
  deriving DecidableEq

/-- What the parser hands over for an entity. -/
structure EntityArgs where
  entityName : Str
  isAbstract : Bool
  attrs : List AttrArgs
  subtypeNames : List Str
  supertypeName : Option Str
  deriving DecidableEq

/-! ### The tables -/

/-- A new record at the end of the table of types. -/
def addTypeToSchema (s : Schema) (name : Str) : Except Stop Schema := do
  -- the assertion names the size of the other table
  require (s.types.length < maxEntityNum) .assertion
  require (s.types.length < maxTypeNum) .overflow
  return { s with types := s.types ++ [{ newType with name := name }] }

/-- A new record at the end of the table of entities. -/
def addEntityToSchema (s : Schema) (name : Str) : Except Stop Schema := do
  require (s.entities.length < maxEntityNum) .assertion
  return { s with entities := s.entities ++ [newEntity name] }

/-- The first type of that name. -/
def findTypeByName (s : Schema) (name : Str) : Option ℕ :=
  s.types.findIdx? fun t => t.name = some name

/-- The first entity of that name. -/
def findEntityByName (s : Schema) (name : Str) : Option ℕ :=
  s.entities.findIdx? fun e => e.name = name

/-- A type of that name, or else an entity. -/
def findDesc (s : Schema) (name : Str) : Option Desc :=
  match findTypeByName s name with
  | some i => some (.type i)
  | none => (findEntityByName s name).map .entity

/-- The search of `assign_type_args`: `desc.schema` may be null. -/
def resolve (schema : Option Schema) (name : Str) : Except Stop Desc :=
  match schema with
  | none => .error .null
  | some s =>
    match findDesc s name with
    | some d => .ok d
    | none => .error .exit

/-! ### Declarations -/

/-- The arguments are copied into the record, and the names resolved. -/
def assignTypeArgs (schema : Option Schema) (t : TypeRecord) (args : TypeArgs) :
    Except Stop TypeRecord := do
  let t := { t with
    type := args.type, fixedLength := args.fixedLength, isList := args.isList, lb := args.lb,
    ub := args.ub, selectNum := args.selectList.length, enumNum := args.enumList.length }
  match args.type with
  | .derived =>
    match args.refTypeName with
    | none => throw .null
    | some name => return { t with refType := some (← resolve schema name) }
  | .enum => return { t with enumList := args.enumList }
  | .select => return { t with selectList := ← args.selectList.mapM (resolve schema) }
  | _ => return t

/-- The type of one attribute.  `attr_type_decl` is not null where it is tested for it. -/
def attrType (s : Schema) (args : TypeArgs) : Except Stop AttrType :=
  match args.refTypeName with
  | none => do
    let t ← assignTypeArgs none newType args
    return .own { t with isList := args.isList }
  | some name =>
    match findTypeByName s name with
    | some i => return .shared i
    | none => return .own { newType with
        type := .reference, refType := (findEntityByName s name).map .entity,
        isList := args.isList }

/-- `attr_type_decl->is_list = attr_type_args->is_list` for a type of the table. -/
def Schema.setIsList (s : Schema) (i : ℕ) (b : Bool) : Schema :=
  { s with types := s.types.modify i fun t => { t with isList := b } }

/-- The record of one attribute. -/
def assignAttr (s : Schema) (a : AttrArgs) : Except Stop (Schema × Attr) := do
  match ← attrType s a.type with
  | .shared i => return (s.setIsList i a.type.isList, ⟨a.name, .shared i, a.isOptional⟩)
  | .own t => return (s, ⟨a.name, .own t, a.isOptional⟩)

/-- The attributes from the last of the arrays to the first, after those already `done`. -/
def assignAttrs (s : Schema) : List AttrArgs → List Attr → Except Stop (Schema × List Attr)
  | [], done => .ok (s, done)
  | a :: as, done => do
    let (s, attr) ← assignAttr s a
    require (done.length < maxAttrNum) .overflow
    assignAttrs s as (done ++ [attr])

/-- The supertype, where one is named. -/
def assignSupertype (s : Schema) (old : Option ℕ) : Option Str → Except Stop (Option ℕ)
  | none => .ok old
  | some name =>
    match findEntityByName s name with
    | some p => .ok (some p)
    | none => .error .assertion

/-- The arguments of an entity are copied into its record. -/
def assignEntityArgs (s : Schema) (i : ℕ) (args : EntityArgs) : Except Stop Schema := do
  match s.entities[i]? with
  | none => throw .unset
  | some e =>
    -- the assertion names the size of the table of entities
    require (args.attrs.length ≤ maxEntityNum) .assertion
    require (args.subtypeNames.length ≤ maxSubtypeNum) .assertion
    let subtypes := args.subtypeNames.map (findEntityByName s)
    let supertype ← assignSupertype s e.supertype args.supertypeName
    let (s, attrs) ← assignAttrs s args.attrs.reverse []
    let e := ⟨e.name, args.isAbstract, some attrs, some subtypes, supertype⟩
    return { s with entities := s.entities.set i e }

end VulcanDB.Express
