import VulcanDB.Library.CxxString
import VulcanDB.Library.Inverted
import VulcanDB.Library.Steps

/-!
# Ifcparse — The instances of a file

`IfcFile` with what it keeps beside the instances: the maps by name, by type and by GlobalId, the
two maps of inverse references, and the instances to be deleted in batch mode.  Instances are told
apart by their addresses; one that has been deleted has none of its data left.

What the model leaves out:

* Instances of simple types.  These keep the id 0: `setArgument` registers inverse references of
  them all the same, and `removeEntity` passes over the name 0 when it forgets references.
* Copies.  No instance comes from another file or schema, so that `entity_file_map` maps each
  instance in it to itself, and nothing is read from a stream: an attribute has an
  `IfcWriteArgument`, and a list that is got from it is the list in it.
* The width of an id.  `MaxId` is unsigned, and `FreshId` would wrap after `2 ^ 32 - 1`; here ids
  are natural numbers.
-/

namespace VulcanDB.Ifcparse

open Cxx Steps

/-! ### Instances -/

/-- `lineage` are the declaration itself and its supertypes, upwards. -/
structure SchemaDefinition where
  lineage : ℕ → List ℕ
  ifcRoot : ℕ
  /-- `attribute_by_index(i)->optional()`. -/
  optional : ℕ → ℕ → Bool
  self : ∀ d, d ∈ lineage d
  nodup : ∀ d, (lineage d).Nodup

/-- An attribute, with the addresses of the instances in it. -/
inductive Argument where
  | null
  | string (s : Str)
  /-- A value of another kind, without an instance. -/
  | value (s : Str)
  | entity (a : ℕ)
  | aggregate (as : List ℕ)
  | aggregates (ass : List (List ℕ))
  deriving DecidableEq

/-- What `apply_individual_instance_visitor` visits, in its order. -/
def Argument.instances : Argument → List ℕ
  | .entity a => [a]
  | .aggregate as => as
  | .aggregates ass => ass.flatten
  | _ => []

/-- `static_cast<std::string>`, where it does not throw. -/
def Argument.text : Argument → Option Str
  | .string s => some s
  | _ => none

/-- `file` is whether the pointer is set; a new instance has the id 0. -/
structure EntityInstanceData where
  type : ℕ
  id : ℕ
  file : Bool
  attributes : List Argument
  deriving DecidableEq

/-- The instances in all attributes, in order. -/
def EntityInstanceData.instances (d : EntityInstanceData) : List ℕ :=
  d.attributes.flatMap Argument.instances

/-- `declaration().is(*ifcroot_type_)`. -/
def SchemaDefinition.isRoot (s : SchemaDefinition) (d : EntityInstanceData) : Bool :=
  s.ifcRoot ∈ s.lineage d.type

/-- The GlobalId of a rooted instance. -/
def EntityInstanceData.guid (d : EntityInstanceData) : Option Str :=
  d.attributes.head?.bind Argument.text

/-! ### The file -/

/-- A type without instances is not in `bytype`; here its list is empty. -/
structure IfcFile where
  heap : ℕ → Option EntityInstanceData
  byid : ℕ → Option ℕ
  bytype : ℕ → List ℕ
  bytypeExcl : ℕ → List ℕ
  /-- By id, type and attribute index. -/
  byref : StdMap (ℕ × ℕ × ℕ) (List ℕ)
  byrefExcl : StdMap ℕ (List ℕ)
  byguid : Str → Option ℕ
  entityFileMap : List ℕ
  maxId : ℕ
  batchMode : Bool
  batchDeletionIds : List ℕ

/-- Why a call ends early. -/
inductive FileError where
  | duplicateId
  | notFound
  | notPart
  /-- A deleted instance is followed. -/
  | dangling
  | badIndex
  /-- The GlobalId of an instance is not a text. -/
  | noText
  | null
  /-- A recursion goes deeper than it is followed. -/
  | fuel
  deriving DecidableEq

namespace IfcFile

/-- `IfcFile(schema)`: no instances, and every map is empty. -/
def new : IfcFile :=
  ⟨fun _ => none, fun _ => none, fun _ => [], fun _ => [], ∅, ∅, fun _ => none, [], 0, false, []⟩

variable (s : SchemaDefinition) (f : IfcFile)

/-- `a->data()`. -/
def data (a : ℕ) : Except FileError EntityInstanceData :=
  match f.heap a with
  | some d => .ok d
  | none => .error .dangling

/-- `IfcFile::instance_by_id`. -/
def instanceById (id : ℕ) : Except FileError ℕ :=
  match f.byid id with
  | some a => .ok a
  | none => .error .notFound

/-- The ids of the instances in an attribute. -/
def ids (v : Argument) : Except FileError (List ℕ) :=
  v.instances.mapM fun a => do return (← f.data a).id

/-- The data at an address. -/
def setData (a : ℕ) (d : EntityInstanceData) : IfcFile :=
  { f with heap := Function.update f.heap a (some d) }

/-- `attributes_[i] = v`. -/
def setAttribute (a : ℕ) (d : EntityInstanceData) (i : ℕ) (v : Argument) : IfcFile :=
  f.setData a { d with attributes := d.attributes.set i v }

/-! ### Inverse references -/

/-- The keys of `byref` for a reference from an attribute of an instance to another. -/
def refKeys (decl i id : ℕ) : List (ℕ × ℕ × ℕ) := (s.lineage decl).map fun e => (id, e, i)

/-- `IfcFile::register_inverse`: the id of `d` under that of an instance it refers to, and under
this id with each type of `d` and the index. -/
def registerInverse (d : EntityInstanceData) (i : ℕ) (f : IfcFile) (id : ℕ) : IfcFile :=
  { f with
    byrefExcl := Inverted.push d.id f.byrefExcl id
    byref := Inverted.pushAll d.id (refKeys s d.type i id) f.byref }

/-- `IfcFile::unregister_inverse`: one occurrence of the id of `d` from each of these lists. -/
def unregisterInverse (d : EntityInstanceData) (i : ℕ) (f : IfcFile) (id : ℕ) : IfcFile :=
  { f with
    byref := Inverted.eraseAll d.id (refKeys s d.type i id) f.byref
    byrefExcl := Inverted.erase d.id f.byrefExcl id }

/-- `IfcFile::build_inverses_`: every reference of the instance is registered. -/
def buildInverses (a : ℕ) : Except FileError IfcFile := do
  let d ← f.data a
  d.attributes.zipIdx.foldlM (fun f x => do
    return (← f.ids x.1).foldl (registerInverse s d x.2) f) f

/-! ### Attributes -/

/-- The GlobalId of an old attribute is taken out of the map, if it stands for this instance. -/
def deregisterGuid (a : ℕ) (d : EntityInstanceData) (i : ℕ) (old : Argument) : IfcFile :=
  match old.text with
  | some guid =>
    if i = 0 ∧ s.isRoot d ∧ f.byguid guid = some a then
      { f with byguid := Function.update f.byguid guid none }
    else f
  | none => f

/-- The GlobalId of a new attribute is entered for the instance that the file has by this id. -/
def registerGuid (d : EntityInstanceData) (i : ℕ) (v : Argument) : IfcFile :=
  match v.text, f.byid d.id with
  | some guid, some b =>
    if i = 0 ∧ s.isRoot d then { f with byguid := Function.update f.byguid guid (some b) } else f
  | _, _ => f

/-- `IfcEntityInstanceData::setArgument`.  In a file the references of the old attribute are taken
out of the inverse maps and those of the new one are entered, with the GlobalId; outside a file only
the attribute is set. -/
def setArgument (a i : ℕ) (v : Argument) : Except FileError IfcFile := do
  let d ← f.data a
  match d.attributes[i]? with
  | none => throw .badIndex
  | some old =>
    if d.file then do
      let f := f.deregisterGuid s a d i old
      let f := (← f.ids old).foldl (unregisterInverse s d i) f
      let f := (← f.ids v).foldl (registerInverse s d i) f
      return (f.setAttribute a d i v).registerGuid s d i v
    else return f.setAttribute a d i v

/-! ### Traversal -/

/-- `traverse_`, with the instances that were visited before and their levels. -/
def traverseFrom (maxLevel : ℤ) : ℕ → ℤ → List (ℤ × ℕ) → ℕ →
    Except FileError (List (ℤ × ℕ))
  | 0, _, _, _ => .error .fuel
  | n + 1, level, visited, a =>
    if a ∈ visited.map (·.2) then .ok visited
    else
      let visited := visited ++ [(level, a)]
      if level ≥ maxLevel ∧ maxLevel > 0 then .ok visited
      else do
        let d ← f.data a
        d.instances.foldlM (fun visited b => traverseFrom maxLevel n (level + 1) visited b) visited

/-- `traverse`: the instances that are found, in the order in which they are. -/
def traverse (n : ℕ) (a : ℕ) (maxLevel : ℤ) : Except FileError (List ℕ) := do
  return (← f.traverseFrom maxLevel n 0 [] a).map (·.2)

/-! ### Adding -/

/-- `addEntity` after the references of the instance have been added. -/
def enter (a : ℕ) (id : Option ℕ) : Except FileError IfcFile := do
  let d ← f.data a
  if d.file then return f
  let f := match d.guid with
    | some guid =>
      if s.isRoot d then { f with byguid := Function.update f.byguid guid (some a) } else f
    | none => f
  let f := { f with
    bytypeExcl := Function.update f.bytypeExcl d.type (f.bytypeExcl d.type ++ [a])
    bytype := fun t => if t ∈ s.lineage d.type then f.bytype t ++ [a] else f.bytype t }
  let name := id.getD (f.maxId + 1)
  let f := { f with
    maxId := max f.maxId name
    byid := Function.update f.byid name (some a) }
  (f.setData a { d with file := true, id := name }).buildInverses s a

/-- An instance that the one to be added refers to. -/
def addReference (add : IfcFile → ℕ → Except FileError IfcFile) (a : ℕ) (f : IfcFile) (b : ℕ) :
    Except FileError IfcFile :=
  if b = a ∨ b ∈ f.entityFileMap then .ok f
  else do
    let f ← add f b
    return { f with entityFileMap := b :: f.entityFileMap }

/-- The instances that it refers to come first.  What the recursion throws would be caught: it is
only called without an id. -/
def addEntity : ℕ → IfcFile → ℕ → Option ℕ → Except FileError IfcFile
  | 0, _, _, _ => .error .fuel
  | n + 1, f, a, id => do
    require (∀ i ∈ id, f.byid i = none) .duplicateId
    if a ∈ f.entityFileMap then return f
    let bs ← f.traverse 2 a 1
    let f ← bs.foldlM (addReference (fun f b => addEntity n f b none) a) f
    f.enter s a id

/-! ### Deleting -/

/-- The attribute `i` of an instance without the instance `a`. -/
def scrubArgument (a r : ℕ) (f : IfcFile) (i : ℕ) : Except FileError IfcFile := do
  let d ← f.data r
  match d.attributes[i]? with
  | some (.entity b) => if b = a then f.setArgument s r i .null else return f
  | some (.aggregate bs) =>
    if a ∈ bs then
      let bs := bs.filter (· ≠ a)
      -- the list is still that of the attribute
      (f.setAttribute r d i (.aggregate bs)).setArgument s r i
        (if bs = [] ∧ s.optional d.type i then .null else .aggregate bs)
    else return f
  | some (.aggregates bss) =>
    if ∃ bs ∈ bss, a ∈ bs then
      f.setArgument s r i (.aggregates (bss.map fun bs => bs.filter (· ≠ a)))
    else return f
  | _ => return f

/-- An instance that refers to the one to be deleted. -/
def scrub (a : ℕ) (f : IfcFile) (r : ℕ) : Except FileError IfcFile := do
  let d ← f.data r
  if d.id ∈ f.batchDeletionIds then return f
  (List.range d.attributes.length).foldlM (scrubArgument s a r) f

/-- The inverse references of and to an instance, outside batch mode. -/
def forget (a id : ℕ) : Except FileError IfcFile := do
  let names ← ((← f.traverse 2 a 1).filter (· ≠ a)).mapM fun b => do return (← f.data b).id
  let names := names.filter (· ≠ 0)
  return { f with
    byref := names.foldl (fun m n => Inverted.removeAt (fun k => k.1 = n) id m)
      (Inverted.eraseKeys (fun k => k.1 = id) f.byref)
    byrefExcl := names.foldl (fun m n => Inverted.removeAt (fun k => k = n) id m)
      (Inverted.eraseKeys (fun k => k = id) f.byrefExcl) }

/-- The maps and the instance itself. -/
def erase (a id : ℕ) : Except FileError IfcFile := do
  let d ← f.data a
  let f ← if s.isRoot d then
      match d.guid with
      | none => throw .noText
      | some guid => pure { f with byguid := Function.update f.byguid guid none }
    else pure f
  require (∀ t ∈ s.lineage d.type, f.bytype t ≠ []) .null
  require (f.bytypeExcl d.type ≠ []) .null
  return { f with
    byid := Function.update f.byid id none
    bytypeExcl := Function.update f.bytypeExcl d.type ((f.bytypeExcl d.type).filter (· ≠ a))
    bytype := fun t => if t ∈ s.lineage d.type then (f.bytype t).filter (· ≠ a) else f.bytype t
    entityFileMap := f.entityFileMap.filter (· ≠ a)
    heap := Function.update f.heap a none }

/-- An instance to be deleted: those that refer to it lose it, and the maps do. -/
def deleteOne (f : IfcFile) (id : ℕ) : Except FileError IfcFile := do
  let a ← f.instanceById id
  let references ← (Inverted.get f.byrefExcl id).mapM f.instanceById
  let f ← references.foldlM (scrub s a) f
  let f ← if f.batchMode then pure f else f.forget a id
  f.erase s a id

/-- `IfcFile::process_deletion_`: the ids in the order in which they were put down, then, in batch
mode, what is left of them in the inverse maps. -/
def processDeletion : Except FileError IfcFile := do
  let f ← f.batchDeletionIds.foldlM (deleteOne s) f
  let f := if f.batchMode then
      { f with
        byref := Inverted.prune (fun k => k.1 ∈ f.batchDeletionIds)
          (fun i => i ∈ f.batchDeletionIds) f.byref
        byrefExcl := Inverted.prune (fun k => k ∈ f.batchDeletionIds)
          (fun i => i ∈ f.batchDeletionIds) f.byrefExcl }
    else f
  return { f with batchDeletionIds := [] }

/-- `IfcFile::removeEntity`. -/
def removeEntity (a : ℕ) : Except FileError IfcFile := do
  let id := (← f.data a).id
  require ((← f.instanceById id) = a) .notPart
  let f := { f with batchDeletionIds :=
    if id ∈ f.batchDeletionIds then f.batchDeletionIds else f.batchDeletionIds ++ [id] }
  if f.batchMode then return f else f.processDeletion s

/-- `IfcFile::batch`. -/
def batch : IfcFile := { f with batchMode := true }

/-- `IfcFile::unbatch`. -/
def unbatch : Except FileError IfcFile := do
  return { ← f.processDeletion s with batchMode := false }

/-! ### Queries -/

/-- `IfcFile::instances_by_reference`. -/
def instancesByReference (id : ℕ) : Except FileError (List ℕ) :=
  (Inverted.get f.byrefExcl id).mapM f.instanceById

/-- `getInverse` with a type and the index of an attribute. -/
def getInverse (id t i : ℕ) : Except FileError (List ℕ) :=
  (Inverted.get f.byref (id, t, i)).mapM f.instanceById

/-- `IfcFile::getTotalInverses`. -/
def getTotalInverses (id : ℕ) : ℕ := (Inverted.get f.byrefExcl id).length

end IfcFile

end VulcanDB.Ifcparse
