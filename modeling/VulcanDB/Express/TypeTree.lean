import VulcanDB.Express.Sql

/-!
# EXPRESS — Serialised types

`serialize_type_tree` prints a type and the types behind it into a buffer whose size it keeps by
hand.  The code is written once for any kind of buffer, and run on two: the one of the code, and
one without a bound.  It follows the types without a bound, and so takes fuel.

* `unfold`: the types that are followed, as a tree.
* `serialize_eq`: what is printed into either buffer, as the text of that tree.
-/

namespace VulcanDB.Express

open Cxx Steps

/-! ### Buffers -/

/-- What the code does to a buffer that it prints into. -/
class PrintBuffer (β : Type) where
  malloc : β
  /-- `snprintf(buffer + strlen(buffer), buf_size - strlen(buffer), "%s", s)`. -/
  print : β → Str → β
  /-- `resize_buffer(buffer, &buf_size, new_size)`. -/
  resize : β → ℕ → β
  /-- The reallocation before a literal of an enumeration is printed. -/
  makeRoom : β → Str → β
  text : β → Str

/-- The size of a new buffer. -/
def bufferSize : ℕ := 1024

/-- `buf_size`, and the size of the block that `buffer` points to. -/
structure CBuffer where
  text : Str
  bufSize : ℕ
  allocated : ℕ
  deriving DecidableEq

namespace CBuffer

/-- As much of the text as leaves a byte for the terminator. -/
def print (b : CBuffer) (s : Str) : CBuffer :=
  { b with text := b.text ++ s.take (b.bufSize - b.text.length - 1) }

/-- `realloc`, where more is asked for than there is. -/
def resize (b : CBuffer) (newSize : ℕ) : CBuffer :=
  if newSize > b.bufSize then { b with bufSize := newSize, allocated := newSize } else b

/-- `buf_size` stays as it was. -/
def makeRoom (b : CBuffer) (literal : Str) : CBuffer :=
  let catSize := literal.length + 1
  if b.text.length + catSize + 1 > b.bufSize then
    { b with allocated := if b.bufSize ≥ (2 ^ 32 - 1) / 2 then 2 ^ 32 - 1 else b.bufSize * 2 }
  else b

end CBuffer

instance : PrintBuffer CBuffer where
  malloc := ⟨[], bufferSize, bufferSize⟩
  print := CBuffer.print
  resize := CBuffer.resize
  makeRoom := CBuffer.makeRoom
  text := CBuffer.text

/-- A buffer without a bound. -/
instance : PrintBuffer Str where
  malloc := []
  print b s := b ++ s
  resize b _ := b
  makeRoom b _ := b
  text b := b

open PrintBuffer

/-! ### The code -/

/-- `TYPE_NAMES[type]`: the array ends at `T_DERIVED`. -/
def typeNames : TypeEnum → Except Stop Str
  | .real => .ok "REAL".toList
  | .number => .ok "NUMBER".toList
  | .integer => .ok "INTEGER".toList
  | .boolean => .ok "BOOLEAN".toList
  | .binary => .ok "BINARY".toList
  | .logical => .ok "LOGICAL".toList
  | .string => .ok "STRING".toList
  | .entity => .ok "ENTITY".toList
  | .enum => .ok "ENUM".toList
  | .select => .ok "SELECT".toList
  | .derived => .ok "UNKNOWN".toList
  | .reference => .error .badIndex
  | .unknown => .error .badIndex

/-- The type at that place. -/
def Schema.typeAt (s : Schema) (i : ℕ) : Except Stop TypeRecord :=
  match s.types[i]? with
  | some t => .ok t
  | none => .error .unset

/-- The entity at that place. -/
def Schema.entityAt (s : Schema) (i : ℕ) : Except Stop EntityRecord :=
  match s.entities[i]? with
  | some e => .ok e
  | none => .error .unset

/-- `entity->desc.name` of the reference of an attribute. -/
def Schema.refName (s : Schema) (t : TypeRecord) : Except Stop Str :=
  match t.refType with
  | none => .error .null
  | some (.entity i) => return (← s.entityAt i).name
  | some (.type _) => .error .unset

/-- The `Type` that a derived type is passed on to. -/
def Schema.refRecord (s : Schema) (t : TypeRecord) : Except Stop TypeRecord :=
  match t.refType with
  | none => .error .assertion
  | some (.type i) => s.typeAt i
  -- an `Entity` is read as a `Type`, whose `is_list` lies in the names of its attributes
  | some (.entity _) => .error .unset

/-- `child`: the member of a `SELECT`, or what it is derived from. -/
def Schema.child (s : Schema) (member : Desc) : Except Stop Desc :=
  match member with
  | .entity i => .ok (.entity i)
  | .type i => do
    let t ← s.typeAt i
    if t.type = .derived then
      match t.refType with
      | none => throw .null
      | some d => return d
    else return .type i

/-- The child is printed by a call of its own. -/
def TypeRecord.Nested (t : TypeRecord) : Prop :=
  t.type = .select ∨ t.type = .enum ∨ t.isList = true

instance (t : TypeRecord) : Decidable t.Nested := by unfold TypeRecord.Nested; infer_instance

/-- The name of a child, which is dereferenced. -/
def childName (t : TypeRecord) : Except Stop Str :=
  match t.name with
  | none => .error .null
  | some name => .ok name

section Serialize

variable {β : Type} [PrintBuffer β]

/-- The text of another call, in a block of its own. -/
def printChild (buffer : β) (child : Str) : β :=
  print (resize buffer ((text buffer).length + child.length + 2)) child

/-- One member of a selection. -/
def printMember (serialize : TypeRecord → Except Stop β) (s : Schema) (buffer : β)
    (member : Desc) : Except Stop β := do
  match ← s.child member with
  | .entity i =>
    let e ← s.entityAt i
    return print (resize buffer ((text buffer).length + e.name.length + 20))
      ("[ENTITY ".toList ++ e.name ++ "]".toList)
  | .type i =>
    let t ← s.typeAt i
    if t.Nested then
      return printChild buffer (text (← serialize t))
    else
      let name ← childName t
      let typeName ← typeNames t.type
      return print (resize buffer ((text buffer).length + name.length + typeName.length + 5))
        ("[".toList ++ name ++ " ".toList ++ typeName ++ "]".toList)

/-- The members, with `|` between them. -/
def printMembers (serialize : TypeRecord → Except Stop β) (s : Schema) :
    List Desc → β → Except Stop β
  | [], buffer => .ok buffer
  | d :: ds, buffer => do
    let buffer ← printMember serialize s buffer d
    printMembers serialize s ds (print buffer (if ds = [] then ")".toList else "|".toList))

/-- The labels of an enumeration, with `,` between them. -/
def printLiterals : List Str → β → β
  | [], buffer => buffer
  | l :: ls, buffer =>
    let buffer := print (makeRoom buffer l) l
    printLiterals ls (print buffer (if ls = [] then ">".toList else ",".toList))

/-- What is printed before the kinds of types differ. -/
def openingOf (isList : Bool) : β :=
  let buffer := print (print malloc "[".toList) " ".toList
  if isList then print buffer "LIST OF ".toList else buffer

/-- The name, if there is one. -/
def printName (buffer : β) : Option Str → β
  | none => buffer
  | some name => print buffer name

/-- **The printer**. -/
def serializeTypeTree : ℕ → Schema → TypeRecord → Except Stop β
  | 0, _, _ => .error .fuel
  | n + 1, s, t => do
    let buffer : β := openingOf t.isList
    if t.type = .reference then
      return print buffer ("ENTITY ".toList ++ (← s.refName t) ++ "]".toList)
    else
      let buffer := printName buffer t.name
      match t.type with
      | .derived =>
        -- without the closing bracket
        return printChild buffer (text (← serializeTypeTree n s (← s.refRecord t) : β))
      | .select =>
        require (0 < t.selectNum) .assertion
        require (t.selectNum ≤ t.selectList.length) .badIndex
        let buffer ← printMembers (serializeTypeTree n s) s (t.selectList.take t.selectNum)
          (print buffer "SELECT OF (".toList)
        return print buffer "]".toList
      | .enum =>
        require (0 < t.enumNum) .assertion
        require (t.enumNum ≤ t.enumList.length) .badIndex
        let buffer := printLiterals (t.enumList.take t.enumNum)
          (print buffer "ENUMERATION OF <".toList)
        return print buffer "]".toList
      | type => return print (print buffer (← typeNames type)) "]".toList

end Serialize

/-! ### Trees -/

mutual

/-- The types that are followed, with what is printed of each. -/
inductive TypeTree where
  | reference (isList : Bool) (name : Str)
  | derived (isList : Bool) (name : Option Str) (child : TypeTree)
  | select (isList : Bool) (name : Option Str) (members : List MemberTree)
  | enum (isList : Bool) (name : Option Str) (literals : List Str)
  | base (isList : Bool) (name : Option Str) (type : TypeEnum)

/-- A member of a `SELECT`: printed by a call of its own, or at once. -/
inductive MemberTree where
  | nested (tree : TypeTree)
  | entity (name : Str)
  | plain (name : Str) (type : TypeEnum)

end

/-- The tree of one member. -/
def memberTree (unfold : TypeRecord → Except Stop TypeTree) (s : Schema) (member : Desc) :
    Except Stop MemberTree := do
  match ← s.child member with
  | .entity i => return .entity (← s.entityAt i).name
  | .type i =>
    let t ← s.typeAt i
    if t.Nested then return .nested (← unfold t)
    else
      let name ← childName t
      let _ ← typeNames t.type
      return .plain name t.type

/-- The types that a type leads to. -/
def unfold : ℕ → Schema → TypeRecord → Except Stop TypeTree
  | 0, _, _ => .error .fuel
  | n + 1, s, t =>
    if t.type = .reference then do
      return .reference t.isList (← s.refName t)
    else
      match t.type with
      | .derived => do
        return .derived t.isList t.name (← unfold n s (← s.refRecord t))
      | .select => do
        require (0 < t.selectNum) .assertion
        require (t.selectNum ≤ t.selectList.length) .badIndex
        return .select t.isList t.name
          (← (t.selectList.take t.selectNum).mapM (memberTree (unfold n s) s))
      | .enum => do
        require (0 < t.enumNum) .assertion
        require (t.enumNum ≤ t.enumList.length) .badIndex
        return .enum t.isList t.name (t.enumList.take t.enumNum)
      | type => do
        let _ ← typeNames type
        return .base t.isList t.name type

/-- What is printed of a type without types behind it. -/
def labelOf (type : TypeEnum) : Str := (typeNames type).toOption.getD []

section Printed

variable {β : Type} [PrintBuffer β]

mutual

/-- The buffer that a tree is printed into. -/
def TypeTree.printed : TypeTree → β
  | .reference isList name => print (openingOf isList) ("ENTITY ".toList ++ name ++ "]".toList)
  | .derived isList name child =>
    printChild (printName (openingOf isList) name) (text (child.printed : β))
  | .select isList name members =>
    print (printedAll (print (printName (openingOf isList) name) "SELECT OF (".toList) members)
      "]".toList
  | .enum isList name literals =>
    print (printLiterals literals (print (printName (openingOf isList) name)
      "ENUMERATION OF <".toList)) "]".toList
  | .base isList name type =>
    print (print (printName (openingOf isList) name) (labelOf type)) "]".toList

/-- A member on a buffer. -/
def MemberTree.printed (buffer : β) : MemberTree → β
  | .nested tree => printChild buffer (text (tree.printed : β))
  | .entity name => print (resize buffer ((text buffer).length + name.length + 20))
      ("[ENTITY ".toList ++ name ++ "]".toList)
  | .plain name type =>
    print (resize buffer ((text buffer).length + name.length + (labelOf type).length + 5))
      ("[".toList ++ name ++ " ".toList ++ labelOf type ++ "]".toList)

/-- The members on a buffer. -/
def printedAll (buffer : β) : List MemberTree → β
  | [] => buffer
  | m :: ms => printedAll
      (print (m.printed buffer) (if ms = [] then ")".toList else "|".toList)) ms

end

/-- A type with a name is printed under it. -/
theorem typeNames_ok {type : TypeEnum} {l : Str} (h : typeNames type = .ok l) : labelOf type = l := by
  rw [labelOf, h]
  rfl

/-- A member is printed as its tree is. -/
theorem printMember_eq {serialize : TypeRecord → Except Stop β}
    {unfold : TypeRecord → Except Stop TypeTree} (s : Schema)
    (h : ∀ t, serialize t = (unfold t).map TypeTree.printed) (buffer : β) (d : Desc) :
    printMember serialize s buffer d =
      (memberTree unfold s d).map fun m => m.printed buffer := by
  simp only [printMember, memberTree]
  cases s.child d with
  | error e => rfl
  | ok child =>
      cases child with
      | entity i =>
          simp only [bind, Except.bind]
          cases s.entityAt i with
          | error e => rfl
          | ok e => rfl
      | type i =>
          simp only [bind, Except.bind]
          cases s.typeAt i with
          | error e => rfl
          | ok t =>
              simp only
              split
              · rw [h]
                cases unfold t <;> rfl
              · cases childName t with
                | error e => rfl
                | ok name =>
                    simp only
                    cases hn : typeNames t.type with
                    | error e => rfl
                    | ok l =>
                        obtain rfl := typeNames_ok hn
                        rfl

theorem printMembers_eq {serialize : TypeRecord → Except Stop β}
    {unfold : TypeRecord → Except Stop TypeTree} (s : Schema)
    (h : ∀ t, serialize t = (unfold t).map TypeTree.printed) (ds : List Desc) (buffer : β) :
    printMembers serialize s ds buffer =
      (ds.mapM (memberTree unfold s)).map (printedAll buffer) := by
  induction ds generalizing buffer with
  | nil => rfl
  | cons d ds ih =>
      rw [printMembers, printMember_eq s h, List.mapM_cons]
      cases hm : memberTree unfold s d with
      | error e => rfl
      | ok m =>
          simp only [Except.map, bind, Except.bind, ih]
          cases hms : ds.mapM (memberTree unfold s) with
          | error e => rfl
          | ok ms =>
              have hnil : ds = [] ↔ ms = [] := by
                have hlen := (mapM_eq_ok.mp hms).length_eq
                rw [← List.length_eq_zero_iff, hlen, List.length_eq_zero_iff]
              simp only [pure, Except.pure, printedAll, hnil]

/-- **The code prints the tree that it follows.** -/
theorem serialize_eq (n : ℕ) (s : Schema) (t : TypeRecord) :
    serializeTypeTree n s t = (unfold n s t).map (TypeTree.printed : TypeTree → β) := by
  induction n generalizing t with
  | zero => rfl
  | succ n ih =>
      rw [serializeTypeTree, unfold]
      by_cases hr : t.type = .reference
      · simp only [hr, if_true]
        cases s.refName t <;> rfl
      · simp only [hr, if_false]
        split
        · cases s.refRecord t with
          | error e => rfl
          | ok t' =>
              simp only [bind, Except.bind, ih]
              cases unfold n s t' <;> rfl
        · simp only [printMembers_eq s ih]
          cases require (0 < t.selectNum) Stop.assertion with
          | error e => rfl
          | ok u =>
              cases require (t.selectNum ≤ t.selectList.length) Stop.badIndex with
              | error e => rfl
              | ok u =>
                  simp only [bind, Except.bind]
                  cases (t.selectList.take t.selectNum).mapM (memberTree (unfold n s) s) <;> rfl
        · cases require (0 < t.enumNum) Stop.assertion with
          | error e => rfl
          | ok u => cases require (t.enumNum ≤ t.enumList.length) Stop.badIndex <;> rfl
        · cases hn : typeNames t.type with
          | error e => rfl
          | ok l =>
              obtain rfl := typeNames_ok hn
              rfl

/-- **The printer prints the tree** that a type unfolds to. -/
theorem serialize_ok {n : ℕ} {s : Schema} {t : TypeRecord} {tree : TypeTree}
    (h : unfold n s t = .ok tree) : serializeTypeTree n s t = .ok (tree.printed : β) := by
  rw [serialize_eq, h]
  rfl

end Printed

/-- An enumeration unfolds to its labels. -/
theorem unfold_enum (n : ℕ) (s : Schema) {t : TypeRecord} (ht : t.type = .enum)
    (hpos : 0 < t.enumNum) (hle : t.enumNum ≤ t.enumList.length) :
    unfold (n + 1) s t = .ok (.enum t.isList t.name (t.enumList.take t.enumNum)) := by
  rw [unfold]
  simp only [ht, require, hpos, hle, if_true]
  rfl

end VulcanDB.Express
