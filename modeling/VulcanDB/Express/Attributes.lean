import VulcanDB.Express.Passes
import VulcanDB.Library.Block

/-!
# EXPRESS — The arrays of attributes

The names, types and flags of the attributes are in three arrays.  A rule is reduced after those
behind it, so that an array holds the last attribute first, and `assign_entity_args` goes through
the arrays from their ends.

* `reduceEntityAttr_spec`: the arrays hold what the grammar gives, column by column.
* `storeAttrs_spec`: the loop stores what `assignAttrs` does.
* `attributes_in_order`: the attributes of an entity are in the order of their declarations.
-/

namespace VulcanDB.Express

open Cxx Steps

/-! ### The arrays of the parser -/

/-- `attr_names`, `attr_types` and `is_optional`, with the one counter for them. -/
structure AttrArrays where
  attrNames : Block Str
  attrTypes : Block TypeArgs
  isOptional : Block Bool
  attrNum : ℕ

/-- What `clear_entity_args_context` leaves. -/
def AttrArrays.cleared : AttrArrays := ⟨.null, .null, .null, 0⟩

/-- `append_array`: room for one cell more, and the value in it. -/
def appendArray {α : Type} (dest : Block α) (src : α) (destLen : ℕ) : Option (Block α) :=
  (dest.realloc (destLen + 1)).write destLen src

/-- The attribute is appended to each array. -/
def appendAttr (flag : Bool) (name : Str) (args : TypeArgs) (arrays : AttrArrays) :
    Option AttrArrays := do
  let names ← appendArray arrays.attrNames name arrays.attrNum
  let types ← appendArray arrays.attrTypes args arrays.attrNum
  let optional ← appendArray arrays.isOptional flag arrays.attrNum
  return ⟨names, types, optional, arrays.attrNum + 1⟩

namespace Action

/-- `entity_attr: LABEL COLON OPTIONAL type_name SEMICOLON entity_attr_list`. -/
def entityAttrOptional : Str → TypeArgs → AttrArrays → Option AttrArrays := appendAttr true

/-- `entity_attr: LABEL COLON type_name SEMICOLON entity_attr_list`. -/
def entityAttr : Str → TypeArgs → AttrArrays → Option AttrArrays := appendAttr false

/-- `entity_attr_list: LABEL COLON OPTIONAL type_name SEMICOLON entity_attr_list`. -/
def entityAttrListOptional : Str → TypeArgs → AttrArrays → Option AttrArrays := appendAttr true

/-- `entity_attr_list: LABEL COLON type_name SEMICOLON entity_attr_list`. -/
def entityAttrList : Str → TypeArgs → AttrArrays → Option AttrArrays := appendAttr false

end Action

/-- The rule that an attribute is reduced by: the first of an entity, or another. -/
def entityAttrRule (a : AttrArgs) : AttrArrays → Option AttrArrays :=
  if a.isOptional then Action.entityAttrOptional a.name a.type else Action.entityAttr a.name a.type

/-- The action for one attribute before others. -/
def entityAttrListRule (a : AttrArgs) : AttrArrays → Option AttrArrays :=
  if a.isOptional then Action.entityAttrListOptional a.name a.type
  else Action.entityAttrList a.name a.type

/-- The attributes of `entity_attr_list`, which is reduced from its end on. -/
def reduceEntityAttrList (ts : List Token) : Option (AttrArrays × List Token) :=
  match _h : nextAttr ts with
  | none => some (.cleared, ts)
  | some (a, ts) => do
    let (arrays, ts) ← reduceEntityAttrList ts
    return (← entityAttrListRule a arrays, ts)
termination_by ts.length
decreasing_by
  all_goals exact (nextAttr_spec _h).2.1

/-- The reductions of an entity's attributes, the last of which is the first in the text. -/
def reduceEntityAttr (ts : List Token) : Option (AttrArrays × List Token) :=
  match nextAttr ts with
  | none => some (.cleared, ts)
  | some (a, ts) => do
    let (arrays, ts) ← reduceEntityAttrList ts
    return (← entityAttrRule a arrays, ts)

/-- The attributes in the order of their declarations. -/
def declaredAttrs (ts : List Token) : List AttrArgs :=
  match _h : nextAttr ts with
  | none => []
  | some (a, ts) => a :: declaredAttrs ts
termination_by ts.length
decreasing_by
  all_goals exact (nextAttr_spec _h).2.1

/-- The arrays hold these attributes, each in its column. -/
structure AttrArrays.Holds (arrays : AttrArrays) (as : List AttrArgs) : Prop where
  attrNames : arrays.attrNames.Holds (as.map (·.name))
  attrTypes : arrays.attrTypes.Holds (as.map (·.type))
  isOptional : arrays.isOptional.Holds (as.map (·.isOptional))
  attrNum : arrays.attrNum = as.length

/-- The arrays are empty before the first reduction. -/
theorem AttrArrays.holds_cleared : AttrArrays.cleared.Holds [] := ⟨rfl, rfl, rfl, rfl⟩

/-- A cell more holds the value that was given. -/
theorem appendArray_holds {α β : Type} {dest : Block α} {xs : List β} {f : β → α}
    (h : dest.Holds (xs.map f)) (x : β) :
    ∃ b, appendArray dest (f x) xs.length = some b ∧ b.Holds ((xs ++ [x]).map f) := by
  obtain ⟨b, hb, hholds⟩ := h.append (f x)
  rw [List.length_map] at hb
  exact ⟨b, hb, by rwa [List.map_append]⟩

/-- **One reduction** adds an attribute to the three arrays. -/
theorem appendAttr_holds {arrays : AttrArrays} {as : List AttrArgs} (h : arrays.Holds as)
    (a : AttrArgs) :
    ∃ arrays', appendAttr a.isOptional a.name a.type arrays = some arrays' ∧
      arrays'.Holds (as ++ [a]) := by
  obtain ⟨names, hnames, hnames'⟩ := appendArray_holds h.attrNames a
  obtain ⟨types, htypes, htypes'⟩ := appendArray_holds h.attrTypes a
  obtain ⟨optional, hoptional, hoptional'⟩ := appendArray_holds h.isOptional a
  refine ⟨⟨names, types, optional, as.length + 1⟩, ?_, hnames', htypes', hoptional', by simp⟩
  simp only [appendAttr, h.attrNum, hnames, htypes, hoptional, Option.bind_eq_bind, Option.bind_some]
  rfl

/-- The flag of an attribute is that of its rule. -/
theorem rule_eq_appendAttr (a : AttrArgs) :
    entityAttrRule a = appendAttr a.isOptional a.name a.type ∧
      entityAttrListRule a = appendAttr a.isOptional a.name a.type := by
  unfold entityAttrRule entityAttrListRule
  cases a.isOptional <;> exact ⟨rfl, rfl⟩

theorem entityAttr_of_next {ts ts' : List Token} {a : AttrArgs} (h : nextAttr ts = some (a, ts')) :
    entityAttr ts = ((entityAttr ts').1 ++ [a], (entityAttr ts').2) := by
  rw [entityAttr]
  split
  · rename_i heq
    rw [h] at heq
    cases heq
  · rename_i heq
    obtain ⟨rfl, rfl⟩ := Prod.mk.inj (Option.some.inj (h.symm.trans heq))
    rfl

theorem entityAttr_of_none {ts : List Token} (h : nextAttr ts = none) : entityAttr ts = ([], ts) := by
  rw [entityAttr]
  split
  · rfl
  · rename_i heq
    rw [h] at heq
    cases heq

/-- The rule of one attribute, after the list behind it. -/
theorem rule_spec {rule : AttrArgs → AttrArrays → Option AttrArrays}
    (hrule : ∀ a, rule a = appendAttr a.isOptional a.name a.type) {ts ts' : List Token}
    {a : AttrArgs} (h : nextAttr ts = some (a, ts'))
    (htail : ∃ arrays, reduceEntityAttrList ts' = some (arrays, (entityAttr ts').2) ∧
      arrays.Holds (entityAttr ts').1) :
    ∃ arrays, (do
      let (arrays, ts) ← reduceEntityAttrList ts'
      return (← rule a arrays, ts)) = some (arrays, (entityAttr ts).2) ∧
      arrays.Holds (entityAttr ts).1 := by
  obtain ⟨arrays, hreduce, hholds⟩ := htail
  obtain ⟨arrays', happend, hholds'⟩ := appendAttr_holds hholds a
  rw [entityAttr_of_next h]
  refine ⟨arrays', ?_, hholds'⟩
  simp only [hreduce, hrule, happend, Option.bind_eq_bind, Option.bind_some]
  rfl

/-- **The reductions** hold the attributes of the text, in the order of the reductions. -/
theorem reduceEntityAttrList_spec (ts : List Token) : ∃ arrays,
    reduceEntityAttrList ts = some (arrays, (entityAttr ts).2) ∧ arrays.Holds (entityAttr ts).1 := by
  fun_induction reduceEntityAttrList ts with
  | case1 ts h =>
      rw [entityAttr_of_none h]
      exact ⟨_, rfl, AttrArrays.holds_cleared⟩
  | case2 ts a ts' h ih => exact rule_spec (fun a => (rule_eq_appendAttr a).2) h ih

/-- **The arrays hold the attributes of the grammar,** the last one first. -/
theorem reduceEntityAttr_spec (ts : List Token) : ∃ arrays,
    reduceEntityAttr ts = some (arrays, (entityAttr ts).2) ∧ arrays.Holds (entityAttr ts).1 := by
  unfold reduceEntityAttr
  split
  · rename_i h
    rw [entityAttr_of_none h]
    exact ⟨_, rfl, AttrArrays.holds_cleared⟩
  · rename_i a ts' h
    exact rule_spec (fun a => (rule_eq_appendAttr a).1) h (reduceEntityAttrList_spec ts')

/-- Taken from the end, they are those declared. -/
theorem entityAttr_reverse (ts : List Token) : (entityAttr ts).1.reverse = declaredAttrs ts := by
  fun_induction declaredAttrs ts with
  | case1 ts h => rw [entityAttr_of_none h, List.reverse_nil]
  | case2 ts a ts' h ih => rw [entityAttr_of_next h, List.reverse_append, ih, List.reverse_singleton,
      List.singleton_append]

/-! ### The arrays of an entity -/

/-- `attr_name`, `attr_type` and `is_optional`, with `attr_num`. -/
structure EntityArrays where
  attrName : Table Str maxAttrNum
  attrType : Table AttrType maxAttrNum
  isOptional : Table Bool maxAttrNum
  attrNum : ℕ

/-- The access is outside the block. -/
def within {α : Type} (e : Stop) : Option α → Except Stop α
  | some x => .ok x
  | none => .error e

/-- The list flag that an attribute writes to a type of the table. -/
def markList (s : Schema) (isList : Bool) : AttrType → Schema
  | .shared j => s.setIsList j isList
  | .own _ => s

/-- The body of the loop over the attributes. -/
def storeAttr (s : Schema) (args : AttrArrays) (i : ℕ) (e : EntityArrays) :
    Except Stop (Schema × EntityArrays) := do
  let typeArgs ← within .badIndex (args.attrTypes.read i)
  let p ← attrType s typeArgs
  let insertIdx := args.attrNum - i - 1
  let name ← within .badIndex (args.attrNames.read i)
  let attrName ← within .overflow (e.attrName.write insertIdx name)
  let flag ← within .badIndex (args.isOptional.read i)
  let isOptional ← within .overflow (e.isOptional.write insertIdx flag)
  let types ← within .overflow (e.attrType.write insertIdx p)
  return (markList s typeArgs.isList p, ⟨attrName, types, isOptional, e.attrNum⟩)

/-- `for (int i = attr_num - 1; i >= 0; i--)`. -/
def storeAttrs (s : Schema) (args : AttrArrays) : ℕ → EntityArrays →
    Except Stop (Schema × EntityArrays)
  | 0, e => .ok (s, e)
  | i + 1, e => do
    let (s, e) ← storeAttr s args i e
    storeAttrs s args i e

/-- What `assign_entity_args` does with the attributes. -/
def assignAttributes (s : Schema) (args : AttrArrays) (e : EntityArrays) :
    Except Stop (Schema × EntityArrays) :=
  storeAttrs s args args.attrNum { e with attrNum := args.attrNum }

/-- The arrays begin with these attributes, each in its column. -/
structure EntityArrays.Begins (e : EntityArrays) (attrs : List Attr) : Prop where
  attrName : e.attrName.Begins (attrs.map (·.name))
  attrType : e.attrType.Begins (attrs.map (·.type))
  isOptional : e.isOptional.Begins (attrs.map (·.isOptional))

/-- What `assign_attributes` does with one attribute. -/
theorem assignAttr_eq (s : Schema) (a : AttrArgs) : assignAttr s a =
    (attrType s a.type).map fun p => (markList s a.type.isList p, ⟨a.name, p, a.isOptional⟩) := by
  unfold assignAttr
  cases attrType s a.type with
  | error e => rfl
  | ok p => cases p <;> rfl

section Store

variable {args : AttrArrays} {as : List AttrArgs} {e : EntityArrays} {done : List Attr} {i : ℕ}

/-- An attribute is stored behind those that are, whatever its type. -/
theorem storeAttr_spec (hargs : args.Holds as) {a : AttrArgs} (ha : as[i]? = some a)
    (he : e.Begins done) (hplace : done.length + i + 1 = as.length) (hroom : as.length ≤ maxAttrNum)
    (s : Schema) : ∃ put : AttrType → EntityArrays,
      (∀ p, (put p).Begins (done ++ [⟨a.name, p, a.isOptional⟩]) ∧ (put p).attrNum = e.attrNum) ∧
      storeAttr s args i e =
        (attrType s a.type).map fun p => (markList s a.type.isList p, put p) := by
  have hlt : done.length < maxAttrNum := by omega
  have hread {β : Type} {b : Block β} {f : AttrArgs → β} (hb : b.Holds (as.map f)) :
      b.read i = some (f a) :=
    hb.begins.read (by rw [List.getElem?_map, ha, Option.map_some])
  have hwrite {β : Type} {t : Table β maxAttrNum} {f : Attr → β} (ht : t.Begins (done.map f))
      (x : β) : ∃ t', t.write done.length x = some t' ∧ t'.Begins (done.map f ++ [x]) := by
    have hput := Table.write_begins ht ((List.length_map f).trans_lt hlt) x
    rwa [List.length_map] at hput
  have hidx : args.attrNum - i - 1 = done.length := by
    rw [hargs.attrNum]
    omega
  obtain ⟨names, hnames, hnames'⟩ := hwrite he.attrName a.name
  obtain ⟨flags, hflags, hflags'⟩ := hwrite he.isOptional a.isOptional
  choose types htypes htypes' using hwrite he.attrType
  refine ⟨fun p => ⟨names, types p, flags, e.attrNum⟩, fun p => ⟨⟨?_, ?_, ?_⟩, rfl⟩, ?_⟩
  · rw [List.map_append]
    exact hnames'
  · rw [List.map_append]
    exact htypes' p
  · rw [List.map_append]
    exact hflags'
  · simp only [storeAttr, hidx, hread hargs.attrTypes, hread hargs.attrNames,
      hread hargs.isOptional, within, bind, Except.bind, hnames, hflags, htypes]
    cases attrType s a.type <;> rfl

/-- **The loop stores what is assigned,** and stops where that does. -/
theorem storeAttrs_spec (hargs : args.Holds as) (hroom : as.length ≤ maxAttrNum) (s : Schema)
    (he : e.Begins done) (hplace : done.length + i = as.length) :
    (∀ s' out, assignAttrs s (as.take i).reverse done = .ok (s', out) →
      ∃ e', storeAttrs s args i e = .ok (s', e') ∧ e'.Begins out ∧ e'.attrNum = e.attrNum) ∧
    ∀ x, assignAttrs s (as.take i).reverse done = .error x → storeAttrs s args i e = .error x := by
  induction i generalizing s e done with
  | zero =>
      refine ⟨fun s' out h => ?_, fun x h => by cases h⟩
      obtain ⟨rfl, rfl⟩ := Prod.mk.inj (Except.ok.inj h)
      exact ⟨e, rfl, he, rfl⟩
  | succ i ih =>
      have hlt : i < as.length := by omega
      have ha : as[i]? = some as[i] := List.getElem?_eq_getElem hlt
      have htake : (as.take (i + 1)).reverse = as[i] :: (as.take i).reverse := by
        rw [List.take_succ_eq_append_getElem hlt, List.reverse_append]
        rfl
      obtain ⟨put, hput, hstore⟩ := storeAttr_spec hargs ha he (by omega) hroom s
      rw [htake]
      simp only [assignAttrs, storeAttrs, assignAttr_eq, hstore]
      cases attrType s as[i].type with
      | error x =>
          refine ⟨fun s' out h => ?_, fun y h => ?_⟩
          · cases h
          · cases h
            rfl
      | ok p =>
          have hnext := ih (markList s as[i].type.isList p) (hput p).1
            (by rw [List.length_append, List.length_singleton]; omega)
          have hdone : done.length < maxAttrNum := by omega
          simp only [Except.map, bind, Except.bind, require, if_pos hdone]
          rw [← (hput p).2]
          exact hnext

end Store

/-! ### The order of declaration -/

/-- The type of an attribute depends on the names of the tables. -/
theorem attrType_congr {s s' : Schema} (ht : s'.types.map (·.name) = s.types.map (·.name))
    (he : s'.entities = s.entities) (args : TypeArgs) : attrType s' args = attrType s args := by
  have hentity : ∀ n, findEntityByName s' n = findEntityByName s n :=
    findEntityByName_congr (congrArg _ he)
  simp only [attrType, findTypeByName_congr ht, hentity]

/-- The attribute that is stored for a declared one. -/
structure StoredAs (s : Schema) (a : AttrArgs) (attr : Attr) : Prop where
  name : attr.name = a.name
  isOptional : attr.isOptional = a.isOptional
  type : attrType s a.type = .ok attr.type

/-- An attribute is stored with its name, its type and its flag. -/
theorem assignAttr_stored {s s' : Schema} {a : AttrArgs} {attr : Attr}
    (h : assignAttr s a = .ok (s', attr)) : StoredAs s a attr := by
  rw [assignAttr_eq] at h
  cases hp : attrType s a.type with
  | error e =>
      rw [hp] at h
      cases h
  | ok p =>
      rw [hp] at h
      obtain ⟨-, rfl⟩ := Prod.mk.inj (Except.ok.inj h)
      exact ⟨rfl, rfl, hp⟩

theorem assignAttrs_stored {s s' : Schema} {as : List AttrArgs} {done out : List Attr}
    (h : assignAttrs s as done = .ok (s', out)) :
    ∃ attrs, out = done ++ attrs ∧ List.Forall₂ (StoredAs s) as attrs := by
  induction as generalizing s done with
  | nil =>
      obtain ⟨-, rfl⟩ := Prod.mk.inj (Except.ok.inj h)
      exact ⟨[], (List.append_nil _).symm, .nil⟩
  | cons a as ih =>
      simp only [assignAttrs, bind_eq_ok, require_eq_ok, Prod.exists] at h
      obtain ⟨s₁, attr, ha, -, -, h⟩ := h
      obtain ⟨hent, hnames, -⟩ := assignAttr_ok ha
      obtain ⟨attrs, rfl, hstored⟩ := ih h
      refine ⟨attr :: attrs, List.append_cons .. |>.symm, .cons (assignAttr_stored ha) ?_⟩
      exact hstored.imp fun a attr hs =>
        ⟨hs.name, hs.isOptional, attrType_congr hnames hent a.type ▸ hs.type⟩

/-- **Main result.**  Of at most `MAX_ATTR_NUM` attributes, behind a semicolon, each is stored at
its place in the order of the declarations, with its name, its flag and the type of its own
arguments.  They all are, unless one has a `SELECT` of its own. -/
theorem attributes_in_order {ts : List Token} (hroom : (declaredAttrs ts).length ≤ maxAttrNum)
    (s : Schema) (e : EntityArrays) : ∃ args, reduceEntityAttr ts = some (args, (entityAttr ts).2) ∧
      (∀ s' e', assignAttributes s args e = .ok (s', e') →
        e'.attrNum = (declaredAttrs ts).length ∧
        ∀ i a, (declaredAttrs ts)[i]? = some a → e'.attrName.read i = some a.name ∧
          e'.isOptional.read i = some a.isOptional ∧
          ∃ p, attrType s a.type = .ok p ∧ e'.attrType.read i = some p) ∧
      ((∃ r, assignAttributes s args e = .ok r) ↔
        ∀ a ∈ declaredAttrs ts, ¬ a.type.AnonymousSelect) := by
  obtain ⟨args, hargs, hholds⟩ := reduceEntityAttr_spec ts
  have hreverse := entityAttr_reverse ts
  have hlen : (entityAttr ts).1.length = (declaredAttrs ts).length := by
    rw [← hreverse, List.length_reverse]
  have hbegins : EntityArrays.Begins { e with attrNum := args.attrNum } [] :=
    ⟨List.nil_prefix, List.nil_prefix, List.nil_prefix⟩
  -- the arrays hold the attributes from the last to the first, and are read backwards
  have hspec := storeAttrs_spec hholds (hlen.trans_le hroom) s hbegins (Nat.zero_add _)
  rw [List.take_length, hreverse, ← hholds.attrNum] at hspec
  have hsome : (∃ r, assignAttrs s (declaredAttrs ts) [] = .ok r) ↔
      ∀ a ∈ declaredAttrs ts, ¬ a.type.AnonymousSelect := by
    have hwf : ∀ a ∈ declaredAttrs ts, a.type.Wf := fun a ha =>
      (entityAttr_spec ts).2 a (List.mem_reverse.mp (hreverse ▸ ha))
    rw [exists_assignAttrs hwf (Nat.zero_le _)]
    simp [hroom]
  refine ⟨args, hargs, fun s' e' h => ?_, ?_⟩
  · cases hr : assignAttrs s (declaredAttrs ts) [] with
    | error x =>
        have hx := hspec.2 x hr
        rw [assignAttributes, hx] at h
        cases h
    | ok r =>
        obtain ⟨e₁, he₁, hout, hnum⟩ := hspec.1 r.1 r.2 hr
        rw [assignAttributes, he₁] at h
        obtain ⟨rfl, rfl⟩ := Prod.mk.inj (Except.ok.inj h)
        obtain ⟨attrs, heq, hstored⟩ := assignAttrs_stored hr
        rw [List.nil_append] at heq
        rw [heq] at hout
        refine ⟨hnum.trans (hholds.attrNum.trans hlen), fun i a ha => ?_⟩
        obtain ⟨hi, rfl⟩ := List.getElem?_eq_some_iff.mp ha
        have hi' : i < attrs.length := hstored.length_eq ▸ hi
        have hat := hstored.get hi hi'
        have hread {β : Type} {t : Table β maxAttrNum} {f : Attr → β} (ht : t.Begins (attrs.map f)) :
            t.read i = some (f attrs[i]) :=
          ht.read (by rw [List.getElem?_map, List.getElem?_eq_getElem hi', Option.map_some])
        refine ⟨?_, ?_, attrs[i].type, hat.type, hread hout.attrType⟩
        · rw [hread hout.attrName]
          exact congrArg some hat.name
        · rw [hread hout.isOptional]
          exact congrArg some hat.isOptional
  · rw [← hsome]
    cases hr : assignAttrs s (declaredAttrs ts) [] with
    | error x => simp [assignAttributes, hspec.2 x hr]
    | ok r =>
        obtain ⟨e₁, he₁, -⟩ := hspec.1 r.1 r.2 hr
        simp [assignAttributes, he₁]

/-- The arrays of a new entity. -/
def newEntityArrays : EntityArrays :=
  ⟨⟨.malloc maxAttrNum, List.length_replicate⟩, ⟨.malloc maxAttrNum, List.length_replicate⟩,
    ⟨.malloc maxAttrNum, List.length_replicate⟩, 0⟩

/-- `Name : OPTIONAL STRING; Size : REAL;` -/
def twoAttrs : List Token :=
  [.label "Name".toList, .colon, .optional, .string, .semicolon,
    .label "Size".toList, .colon, .real, .semicolon]

/-- The attributes of the tokens below, in their order. -/
theorem declaredAttrs_two : declaredAttrs twoAttrs =
    [⟨"Name".toList, newTypeNameArgs none .string, true⟩,
      ⟨"Size".toList, newTypeNameArgs none .real, false⟩] := by decide +kernel

/-- Two attributes, one of them optional. -/
theorem attributes_in_order_two : ∃ args s' e',
    reduceEntityAttr twoAttrs = some (args, (entityAttr twoAttrs).2) ∧
    assignAttributes newSchema args newEntityArrays = .ok (s', e') ∧ e'.attrNum = 2 ∧
    e'.attrName.read 0 = some "Name".toList ∧ e'.isOptional.read 0 = some true ∧
    e'.attrName.read 1 = some "Size".toList ∧ e'.isOptional.read 1 = some false := by
  have hroom : (declaredAttrs twoAttrs).length ≤ maxAttrNum := by
    rw [declaredAttrs_two]
    decide
  obtain ⟨args, hargs, hall, hsome⟩ :=
    attributes_in_order hroom newSchema newEntityArrays
  rw [declaredAttrs_two] at hall hsome
  have hplain : ∀ a ∈ [AttrArgs.mk "Name".toList (newTypeNameArgs none .string) true,
      AttrArgs.mk "Size".toList (newTypeNameArgs none .real) false],
      ¬ a.type.AnonymousSelect := by
    simp [TypeArgs.AnonymousSelect, newTypeNameArgs]
  obtain ⟨⟨s', e'⟩, hr⟩ := hsome.mpr hplain
  obtain ⟨hnum, hat⟩ := hall s' e' hr
  obtain ⟨hname, hflag, -⟩ := hat 0 _ rfl
  obtain ⟨hname', hflag', -⟩ := hat 1 _ rfl
  exact ⟨args, s', e', hargs, hr, hnum, hname, hflag, hname', hflag'⟩

end VulcanDB.Express
