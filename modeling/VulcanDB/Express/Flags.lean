import VulcanDB.Express.Sql

/-!
# EXPRESS — The list flags of shared types

An attribute that names a type of the table points to its record, and its own list flag is written
there.

* `types_assignEntityArgs`: of the types of the table, a declaration changes the list flags, each
  to that of the last attribute that names the type.
* `types_eq_iff`: so it changes none where these flags are the types' own.
* `types_unchanged_iff`: and with them the SQL types of all attributes stay.
-/

namespace VulcanDB.Express

open Cxx Steps

/-! ### What a search sees -/

section Search

variable {s s' : Schema}

/-- The attribute names the type `j` of the table. -/
def AttrArgs.names (s : Schema) (j : ℕ) (a : AttrArgs) : Bool :=
  a.type.refTypeName.bind (findTypeByName s) = some j

/-- A type is found by the names of the table. -/
theorem findTypeByName_congr (h : s'.types.map (·.name) = s.types.map (·.name)) (name : Str) :
    findTypeByName s' name = findTypeByName s name := by
  have hmap (s : Schema) : findTypeByName s name =
      (s.types.map (·.name)).findIdx? fun n => n = some name := by
    rw [List.findIdx?_map]
    rfl
  rw [hmap, hmap, h]

theorem findEntityByName_congr (h : s'.entities.map (·.name) = s.entities.map (·.name))
    (name : Str) : findEntityByName s' name = findEntityByName s name := by
  have hmap (s : Schema) : findEntityByName s name =
      (s.entities.map (·.name)).findIdx? fun n => n = name := by
    rw [List.findIdx?_map]
    rfl
  rw [hmap, hmap, h]

theorem names_setIsList (s : Schema) (i : ℕ) (b : Bool) :
    (s.setIsList i b).types.map (·.name) = s.types.map (·.name) := by
  refine List.ext_getElem? fun k => ?_
  simp only [Schema.setIsList, List.getElem?_map, List.getElem?_modify]
  cases s.types[k]? with
  | none => rfl
  | some t => by_cases h : i = k <;> simp [h]

end Search

/-! ### One attribute after another -/

section Attributes

variable {s s' : Schema} {a : AttrArgs} {as : List AttrArgs} {done out : List Attr}

/-- The list flag written last to the type `j`, by attributes taken in order. -/
def lastFlag (s : Schema) (as : List AttrArgs) (j : ℕ) : Option Bool :=
  (as.reverse.find? (AttrArgs.names s j)).map (·.type.isList)

/-- A type with its list flag replaced, if one was written. -/
def TypeRecord.flagged (t : TypeRecord) : Option Bool → TypeRecord
  | none => t
  | some b => { t with isList := b }

/-- An attribute points to the type that its name finds. -/
theorem attrType_shared {args : TypeArgs} {p : AttrType} (h : attrType s args = .ok p) (i : ℕ) :
    p = .shared i ↔ args.refTypeName.bind (findTypeByName s) = some i := by
  unfold attrType at h
  cases hr : args.refTypeName with
  | none =>
      rw [hr] at h
      simp only [bind_eq_ok, pure_eq_ok] at h
      obtain ⟨t, -, rfl⟩ := h
      simp
  | some name =>
      rw [hr] at h
      simp only at h
      cases hf : findTypeByName s name with
      | some k =>
          rw [hf] at h
          obtain rfl := pure_eq_ok.mp h
          simp [hf]
      | none =>
          rw [hf] at h
          obtain rfl := pure_eq_ok.mp h
          simp [hf]

theorem lastFlag_single (j : ℕ) :
    lastFlag s [a] j = if a.names s j then some a.type.isList else none := by
  by_cases h : a.names s j <;> simp [lastFlag, h]

/-- **One attribute** changes the list flag of the type it names, and nothing else of the tables. -/
theorem assignAttr_ok {attr : Attr} (h : assignAttr s a = .ok (s', attr)) :
    s'.entities = s.entities ∧ s'.types.map (·.name) = s.types.map (·.name) ∧
      ∀ j : ℕ, s'.types[j]? = s.types[j]?.map fun t => t.flagged (lastFlag s [a] j) := by
  simp only [assignAttr, bind_eq_ok] at h
  obtain ⟨p, hp, h⟩ := h
  have hshared := attrType_shared hp
  cases p with
  | shared i =>
      obtain ⟨rfl, -⟩ := Prod.mk.inj (pure_eq_ok.mp h)
      refine ⟨rfl, names_setIsList s i _, fun j => ?_⟩
      have hname : a.names s j ↔ i = j := by
        rw [AttrArgs.names, decide_eq_true_eq, ← hshared j, AttrType.shared.injEq]
      rw [lastFlag_single, Schema.setIsList, List.getElem?_modify]
      by_cases hij : i = j
      · rw [if_pos (hname.mpr hij)]
        cases s.types[j]? <;> simp [TypeRecord.flagged, hij]
      · rw [if_neg (mt hname.mp hij)]
        cases s.types[j]? <;> simp [TypeRecord.flagged, hij]
  | own t =>
      obtain ⟨rfl, -⟩ := Prod.mk.inj (pure_eq_ok.mp h)
      refine ⟨rfl, rfl, fun j => ?_⟩
      have hname : ¬ a.names s j := by
        rw [AttrArgs.names, decide_eq_true_eq, ← hshared j]
        exact AttrType.noConfusion
      rw [lastFlag_single, if_neg hname]
      cases s.types[j]? <;> rfl

theorem names_congr (h : s'.types.map (·.name) = s.types.map (·.name)) (a : AttrArgs) (j : ℕ) :
    a.names s' j = a.names s j := by
  have hfind : findTypeByName s' = findTypeByName s := funext fun n => findTypeByName_congr h n
  rw [AttrArgs.names, AttrArgs.names, hfind]

/-- The flag written last depends on the names of the table. -/
theorem lastFlag_congr (h : s'.types.map (·.name) = s.types.map (·.name)) (as : List AttrArgs)
    (j : ℕ) : lastFlag s' as j = lastFlag s as j := by
  have hnames : AttrArgs.names s' j = AttrArgs.names s j := funext fun a => names_congr h a j
  rw [lastFlag, hnames, lastFlag]

/-- The flag of the attributes behind the first counts before its own. -/
theorem lastFlag_cons (s : Schema) (a : AttrArgs) (as : List AttrArgs) (j : ℕ) :
    lastFlag s (a :: as) j = (lastFlag s as j).or (lastFlag s [a] j) := by
  simp only [lastFlag, List.reverse_cons, List.find?_append, List.reverse_nil, List.nil_append]
  cases as.reverse.find? (AttrArgs.names s j) <;> rfl

/-- **Of the types of the table, attributes change the list flags.** -/
theorem types_assignAttrs (h : assignAttrs s as done = .ok (s', out)) :
    s'.entities = s.entities ∧ s'.types.map (·.name) = s.types.map (·.name) ∧
      ∀ j : ℕ, s'.types[j]? = s.types[j]?.map fun t => t.flagged (lastFlag s as j) := by
  induction as generalizing s done with
  | nil =>
      obtain ⟨rfl, -⟩ := Prod.mk.inj (Except.ok.inj h)
      refine ⟨rfl, rfl, fun j => ?_⟩
      cases s.types[j]? <;> rfl
  | cons a as ih =>
      simp only [assignAttrs, bind_eq_ok, require_eq_ok, Prod.exists] at h
      obtain ⟨s₁, attr, ha, -, -, h⟩ := h
      obtain ⟨hent, hnames, htypes⟩ := assignAttr_ok ha
      obtain ⟨hent', hnames', htypes'⟩ := ih h
      refine ⟨hent'.trans hent, hnames'.trans hnames, fun j => ?_⟩
      rw [htypes', htypes, lastFlag_congr hnames, lastFlag_cons s a as, Option.map_map]
      congr 1
      funext t
      cases lastFlag s as j <;> cases lastFlag s [a] j <;> rfl

/-- **The types after an entity**: each has the flag written last. -/
theorem types_assignEntityArgs {i : ℕ} {args : EntityArgs} (h : assignEntityArgs s i args = .ok s') :
    (∀ k, k ≠ i → s'.entities[k]? = s.entities[k]?) ∧
      s'.types.map (·.name) = s.types.map (·.name) ∧
      ∀ j : ℕ, s'.types[j]? =
        s.types[j]?.map fun t => t.flagged (lastFlag s args.attrs.reverse j) := by
  unfold assignEntityArgs at h
  split at h
  · cases h
  · simp only [bind_eq_ok, require_eq_ok, Prod.exists, pure_eq_ok] at h
    obtain ⟨-, -, -, -, p, -, s₁, attrs, hattrs, rfl⟩ := h
    obtain ⟨hent, hnames, htypes⟩ := types_assignAttrs hattrs
    refine ⟨fun k hk => ?_, hnames, htypes⟩
    rw [hent]
    exact List.getElem?_set_ne hk.symm

end Attributes

/-! ### Types that stay what they are -/

/-- The SQL type of a type depends on the types. -/
theorem typecast_congr {s s' : Schema} (h : s'.types = s.types) :
    ∀ n, typecastExpressToSql n s' = typecastExpressToSql n s := by
  intro n
  induction n with
  | zero => rfl
  | succ n ih =>
      funext t
      simp only [typecastExpressToSql, elementType, ih, h]

theorem attrSql_congr {s s' : Schema} (h : s'.types = s.types) (n : ℕ) (a : Attr) :
    attrSql n s' a = attrSql n s a := by
  simp only [attrSql, Schema.attrRecord, typecast_congr h, h]

/-- For every type of the table that attributes name, the last of them has the list flag of the
type. -/
def KeepsFlags (s : Schema) (args : EntityArgs) : Prop :=
  ∀ (j : ℕ) (t : TypeRecord) (b : Bool), s.types[j]? = some t →
    lastFlag s args.attrs.reverse j = some b → t.isList = b

theorem flagged_eq_self {t : TypeRecord} {f : Option Bool} :
    t.flagged f = t ↔ ∀ b, f = some b → t.isList = b := by
  cases f with
  | none => simp [TypeRecord.flagged]
  | some b =>
      simp only [TypeRecord.flagged, Option.some.injEq, forall_eq']
      exact ⟨fun h => congrArg TypeRecord.isList h.symm, fun h => by rw [← h]⟩

/-- **The types are unchanged** exactly when each has the flag written last. -/
theorem types_eq_iff {s s' : Schema} {i : ℕ} {args : EntityArgs}
    (h : assignEntityArgs s i args = .ok s') : s'.types = s.types ↔ KeepsFlags s args := by
  obtain ⟨-, -, htypes⟩ := types_assignEntityArgs h
  constructor
  · intro hsame j t b ht hb
    have hj := htypes j
    rw [hsame, ht, Option.map_some, Option.some.injEq, hb] at hj
    exact flagged_eq_self.mp hj.symm b rfl
  · intro hkeep
    refine List.ext_getElem? fun j => ?_
    rw [htypes]
    cases ht : s.types[j]? with
    | none => rfl
    | some t => exact congrArg some (flagged_eq_self.mpr fun b hb => hkeep j t b ht hb)

/-- **Main result.**  The declaration of an entity leaves every type of the table, every other
entity and the SQL type of every attribute as they were, if and only if the last attribute to name
a type has the list flag of that type. -/
theorem types_unchanged_iff {s s' : Schema} {i : ℕ} {args : EntityArgs}
    (h : assignEntityArgs s i args = .ok s') :
    (s'.types = s.types ∧ (∀ k, k ≠ i → s'.entities[k]? = s.entities[k]?) ∧
      ∀ n a, attrSql n s' a = attrSql n s a) ↔ KeepsFlags s args := by
  rw [← types_eq_iff h]
  constructor
  · intro hall
    exact hall.1
  · intro hsame
    exact ⟨hsame, (types_assignEntityArgs h).1, fun n a => attrSql_congr hsame n a⟩

/-- A schema with a type of lists, and an entity. -/
def angles : Schema :=
  ⟨[{ newType with name := some "IfcAngle".toList, type := .integer, isList := true }],
    [newEntity "IfcSite".toList]⟩

/-- An attribute that is a list of lists, or not. -/
def angleAttr (isList : Bool) : EntityArgs :=
  { entityName := "IfcSite".toList, isAbstract := false, subtypeNames := [], supertypeName := none,
    attrs := [{ name := "Latitude".toList, isOptional := false, type := { newTypeNameArgs none
      .derived with refTypeName := some "IfcAngle".toList, isList := isList } }] }

/-- An attribute of lists of the type of lists. -/
theorem types_unchanged_list : ∃ s', assignEntityArgs angles 0 (angleAttr true) = .ok s' ∧
    ((s'.types = angles.types ∧ (∀ k, k ≠ 0 → s'.entities[k]? = angles.entities[k]?) ∧
      ∀ n a, attrSql n s' a = attrSql n angles a) ↔ KeepsFlags angles (angleAttr true)) :=
  ⟨_, rfl, types_unchanged_iff rfl⟩

/-- After a plain use of a type of lists, the type is one of lists no longer. -/
theorem types_not_always_unchanged : ∃ s', assignEntityArgs angles 0 (angleAttr false) = .ok s' ∧
    s'.types ≠ angles.types ∧
    attrSql 1 angles ⟨"Angle".toList, .shared 0, false⟩ = .ok "INTEGER[]".toList ∧
    attrSql 1 s' ⟨"Angle".toList, .shared 0, false⟩ = .ok "INTEGER".toList :=
  ⟨_, rfl, by decide, by decide, by decide⟩

end VulcanDB.Express
