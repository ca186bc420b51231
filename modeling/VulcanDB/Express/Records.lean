import VulcanDB.Express.Flags
import VulcanDB.Express.Parser

/-!
# EXPRESS — Names and records

The tables hold a record for every name that the first pass enters, in its order, and the second
pass adds none.

* `Context.Holds`: the names of the tables, and where the indexes find them.
* `Reaches.holds`: so it is after any of the declarations.
-/

namespace VulcanDB.Express

open Cxx Steps

/-! ### Names -/

/-- The names of one kind. -/
def namesOf (k : Kind) (regs : List (Kind × Str)) : List Str := (regs.filter (·.1 = k)).map (·.2)

theorem namesOf_append (k : Kind) (regs regs' : List (Kind × Str)) :
    namesOf k (regs ++ regs') = namesOf k regs ++ namesOf k regs' := by
  simp [namesOf]

theorem namesOf_single (k k' : Kind) (name : Str) :
    namesOf k [(k', name)] = if k' = k then [name] else [] := by
  by_cases h : k' = k <;> simp [namesOf, h]

theorem mem_namesOf {k : Kind} {regs : List (Kind × Str)} {name : Str} :
    name ∈ namesOf k regs ↔ (k, name) ∈ regs := by
  simp [namesOf]

/-- The index finds a record of each name, under the name `f n` of `n` in the table. -/
def Indexed {α : Type} (f : Str → α) (names : List α) (index : StdMap Str ℕ) : Prop :=
  ∀ n, f n ∈ names → ∃ i, index.find n = some i ∧ names[i]? = some (f n)

section Index

variable {α : Type} {f : Str → α} {names : List α} {index : StdMap Str ℕ}

theorem Indexed.append (hf : Function.Injective f) (h : Indexed f names index) (n : Str) :
    Indexed f (names ++ [f n]) (index.assign n names.length) := by
  intro m hm
  rw [StdMap.find_assign]
  by_cases hmn : m = n
  · subst hmn
    exact ⟨names.length, by simp, by simp⟩
  · have hmem : f m ∈ names := by
      rcases List.mem_append.mp hm with hm | hm
      · exact hm
      · exact absurd (hf (List.mem_singleton.mp hm)) hmn
    obtain ⟨i, hi, hname⟩ := h m hmem
    refine ⟨i, by simp [hmn, hi], ?_⟩
    rw [List.getElem?_append_left (List.getElem?_eq_some_iff.mp hname).1]
    exact hname

theorem Indexed.insertNew (h : Indexed f names index) (n : Str) (i : ℕ) :
    Indexed f names (index.insertNew n i) := by
  intro m hm
  obtain ⟨j, hj, hname⟩ := h m hm
  refine ⟨j, ?_, hname⟩
  rw [StdMap.find_insertNew]
  by_cases hmn : m = n
  · subst hmn
    simp [hj]
  · simp [hmn, hj]

end Index

/-- The tables hold the names that were entered, and the indexes find them. -/
structure Context.Holds (regs : List (Kind × Str)) (c : Context) : Prop where
  types : c.schema.types.map (·.name) = (namesOf .type regs).map some
  entities : c.schema.entities.map (·.name) = namesOf .entity regs
  typeIndex : Indexed some (c.schema.types.map (·.name)) c.typeIdIndex
  entityIndex : Indexed id (c.schema.entities.map (·.name)) c.entityIdIndex

/-! ### The first pass -/

theorem Context.Holds.new : Context.Holds [] .new := by
  refine ⟨rfl, rfl, ?_, ?_⟩ <;> intro n hn <;> cases hn

/-- A type is added while there is room. -/
theorem addTypeToSchema_ok {s s' : Schema} {name : Str} :
    addTypeToSchema s name = .ok s' ↔ s.types.length < maxTypeNum ∧
      s' = { s with types := s.types ++ [{ newType with name := name }] } := by
  simp only [addTypeToSchema, bind_eq_ok, require_eq_ok, pure_eq_ok, exists_const, eq_comm (b := s')]
  refine ⟨fun h => h.2, fun h => ⟨?_, h⟩⟩
  exact h.1.trans (by decide)

theorem addEntityToSchema_ok {s s' : Schema} {name : Str} :
    addEntityToSchema s name = .ok s' ↔ s.entities.length < maxEntityNum ∧
      s' = { s with entities := s.entities ++ [newEntity name] } := by
  simp only [addEntityToSchema, bind_eq_ok, require_eq_ok, pure_eq_ok, exists_const,
    eq_comm (b := s')]

/-- **One name that is entered** has a record and a place. -/
theorem Context.Holds.register {regs : List (Kind × Str)} {c c' : Context} {r : Kind × Str}
    (h : c.Holds regs) (hr : c.register r = .ok c') : c'.Holds (regs ++ [r]) := by
  obtain ⟨k, name⟩ := r
  cases k with
  | type =>
      simp only [Context.register, bind_eq_ok, pure_eq_ok, addTypeToSchema_ok] at hr
      obtain ⟨s, ⟨-, rfl⟩, rfl⟩ := hr
      have hindex := h.typeIndex.append (Option.some_injective Str) name
      refine ⟨?_, ?_, ?_, h.entityIndex⟩
      · simp [namesOf_append, namesOf_single, h.types]
      · simp [namesOf_append, namesOf_single, h.entities]
      · simpa using hindex
  | entity =>
      simp only [Context.register, bind_eq_ok, pure_eq_ok, addEntityToSchema_ok] at hr
      obtain ⟨s, ⟨-, rfl⟩, rfl⟩ := hr
      have hindex := h.entityIndex.append Function.injective_id name
      refine ⟨?_, ?_, h.typeIndex, ?_⟩
      · simp [namesOf_append, namesOf_single, h.types]
      · simp [namesOf_append, namesOf_single, h.entities, newEntity]
      · simpa [newEntity] using hindex

theorem Context.Holds.registers {regs : List (Kind × Str)} {c : Context}
    (h : regs.foldlM Context.register .new = .ok c) : c.Holds regs :=
  foldlM_invariant (P := fun regs c => Context.Holds regs c) h .new
    fun _ _ _ _ _ _ hP hr => hP.register hr

/-- **The tables after the first pass.** -/
theorem Context.Holds.preprocess {text : Str} {c : Context} (h : preprocess .new text = .ok c) :
    c.Holds (registrations (words text)).1 := by
  simp only [preprocess_eq, bind_eq_ok, require_eq_ok, pure_eq_ok] at h
  obtain ⟨c', hc', -, -, rfl⟩ := h
  exact .registers hc'

/-! ### The second pass -/

/-- The arguments of a type do not change its name. -/
theorem assignTypeArgs_name {schema : Option Schema} {t t' : TypeRecord} {args : TypeArgs}
    (h : assignTypeArgs schema t args = .ok t') : t'.name = t.name := by
  unfold assignTypeArgs at h
  split at h
  · split at h
    · cases h
    · simp only [bind_eq_ok, pure_eq_ok] at h
      obtain ⟨d, -, rfl⟩ := h
      rfl
  · obtain rfl := pure_eq_ok.mp h
    rfl
  · simp only [bind_eq_ok, pure_eq_ok] at h
    obtain ⟨l, -, rfl⟩ := h
    rfl
  · obtain rfl := pure_eq_ok.mp h
    rfl

/-- Of a record written in place of another, the name stays. -/
theorem map_set {α β : Type} (f : α → β) {l : List α} {i : ℕ} {x y : α} (hx : l[i]? = some x)
    (hf : f y = f x) : (l.set i y).map f = l.map f := by
  refine List.ext_getElem? fun k => ?_
  rw [List.getElem?_map, List.getElem?_map]
  by_cases hik : i = k
  · subst hik
    rw [List.getElem?_set_self (List.getElem?_eq_some_iff.mp hx).1, hx, Option.map_some,
      Option.map_some, hf]
  · rw [List.getElem?_set_ne hik]

/-- The index that `operator[]` gives for a name. -/
theorem exists_index (m : StdMap Str ℕ) (name : Str) : ∃ i, (m.insertNew name 0).find name = some i :=
  ⟨_, by rw [StdMap.find_insertNew, if_pos rfl]⟩

theorem initType_ok {c c' : Context} {args : TypeArgs} (h : initType c args = .ok c') :
    ∃ name i t t', args.typeName = some name ∧
      (c.typeIdIndex.insertNew name 0).find name = some i ∧ c.schema.types[i]? = some t ∧
      assignTypeArgs (some c.schema) t args = .ok t' ∧
      c' = { c with
        typeIdIndex := c.typeIdIndex.insertNew name 0
        schema := { c.schema with types := c.schema.types.set i t' } } := by
  unfold initType at h
  split at h
  · cases h
  · rename_i name hname
    obtain ⟨i, hi⟩ := exists_index c.typeIdIndex name
    simp only [hi, Option.getD_some] at h
    split at h
    · cases h
    · rename_i t ht
      simp only [bind_eq_ok, pure_eq_ok] at h
      obtain ⟨t', hassign, rfl⟩ := h
      exact ⟨name, i, t, t', hname, hi, ht, hassign, rfl⟩

/-- `init_entity`, with the place of the name. -/
theorem initEntity_eq {c : Context} {args : EntityArgs} {i : ℕ}
    (hi : (c.entityIdIndex.insertNew args.entityName 0).find args.entityName = some i) :
    initEntity c args = match c.schema.entities[i]? with
      | none => .error .unset
      | some e => do
        require (e.name = args.entityName) .assertion
        let s ← assignEntityArgs c.schema i args
        return { c with
          entityIdIndex := c.entityIdIndex.insertNew args.entityName 0
          schema := s } := by
  unfold initEntity
  simp only [hi, Option.getD_some]
  rfl

theorem initEntity_ok {c c' : Context} {args : EntityArgs} (h : initEntity c args = .ok c') :
    ∃ i e s', (c.entityIdIndex.insertNew args.entityName 0).find args.entityName = some i ∧
      c.schema.entities[i]? = some e ∧ e.name = args.entityName ∧
      assignEntityArgs c.schema i args = .ok s' ∧
      c' = { c with
        entityIdIndex := c.entityIdIndex.insertNew args.entityName 0
        schema := s' } := by
  obtain ⟨i, hi⟩ := exists_index c.entityIdIndex args.entityName
  rw [initEntity_eq hi] at h
  split at h
  · cases h
  · rename_i e he
    simp only [bind_eq_ok, pure_eq_ok, require_eq_ok] at h
    obtain ⟨-, hname, s', hassign, rfl⟩ := h
    exact ⟨i, e, s', hi, he, hname, hassign, rfl⟩

/-- The record of an entity, and the tables around it. -/
theorem assignEntityArgs_ok {s s' : Schema} {i : ℕ} {args : EntityArgs}
    (h : assignEntityArgs s i args = .ok s') :
    ∃ e supertype attrs, s.entities[i]? = some e ∧
      args.attrs.length ≤ maxEntityNum ∧ args.subtypeNames.length ≤ maxSubtypeNum ∧
      assignSupertype s e.supertype args.supertypeName = .ok supertype ∧
      ∃ s₁, assignAttrs s args.attrs.reverse [] = .ok (s₁, attrs) ∧
        s' = { s₁ with entities := s.entities.set i ⟨e.name, args.isAbstract, some attrs,
          some (args.subtypeNames.map (findEntityByName s)), supertype⟩ } := by
  unfold assignEntityArgs at h
  split at h
  · cases h
  · rename_i e he
    simp only [bind_eq_ok, require_eq_ok, Prod.exists, pure_eq_ok] at h
    obtain ⟨-, hattrs, -, hsubtypes, supertype, hsuper, s₁, attrs, has, rfl⟩ := h
    refine ⟨e, supertype, attrs, he, hattrs, hsubtypes, hsuper, s₁, has, ?_⟩
    rw [(types_assignAttrs has).1]

/-- **A declaration keeps the names of the tables.** -/
theorem Context.Holds.declare {regs : List (Kind × Str)} {c c' : Context} {d : Declaration}
    (h : c.Holds regs) (hd : c.declare d = .ok c') : c'.Holds regs := by
  cases d with
  | type args =>
      obtain ⟨name, i, t, t', -, -, ht, hassign, rfl⟩ := initType_ok hd
      have hnames := map_set (fun t : TypeRecord => t.name) ht (assignTypeArgs_name hassign)
      exact ⟨hnames.trans h.types, h.entities,
        (congrArg (Indexed some · _) hnames).mpr (h.typeIndex.insertNew name 0), h.entityIndex⟩
  | entity args =>
      obtain ⟨i, e, s', -, he, -, hassign, rfl⟩ := initEntity_ok hd
      have htypes := (types_assignEntityArgs hassign).2.1
      obtain ⟨e', supertype, attrs, he', -, -, -, s₁, -, rfl⟩ := assignEntityArgs_ok hassign
      have hents := map_set (fun e : EntityRecord => e.name) he' (y := ⟨e'.name, args.isAbstract,
        some attrs, some (args.subtypeNames.map (findEntityByName c.schema)), supertype⟩) rfl
      exact ⟨htypes.trans h.types, hents.trans h.entities,
        (congrArg (Indexed some · _) htypes).mpr h.typeIndex,
        (congrArg (Indexed id · _) hents).mpr (h.entityIndex.insertNew args.entityName 0)⟩

/-- The record that the index gives for a name, if there is one. -/
theorem Context.Holds.record {regs : List (Kind × Str)} {c : Context} (h : c.Holds regs) {name : Str}
    (hname : name ∈ c.schema.entities.map (·.name)) :
    ∃ i e, c.entityIdIndex.find name = some i ∧ c.schema.entities[i]? = some e ∧ e.name = name := by
  obtain ⟨i, hi, hname⟩ := h.entityIndex name hname
  rw [List.getElem?_map, Option.map_eq_some_iff] at hname
  obtain ⟨e, he, hename⟩ := hname
  exact ⟨i, e, hi, he, hename⟩

/-! ### Both passes -/

/-- The first pass, and then these declarations, end in `c`. -/
def Reaches (text : Str) (done : List Declaration) (c : Context) : Prop :=
  ∃ c₀, preprocess .new text = .ok c₀ ∧ done.foldlM Context.declare c₀ = .ok c

/-- The names in any state of the second pass. -/
theorem Reaches.holds {text : Str} {done : List Declaration} {c : Context}
    (h : Reaches text done c) : c.Holds (registrations (words text)).1 := by
  obtain ⟨c₀, h₀, hdone⟩ := h
  exact foldlM_invariant (P := fun _ c => Context.Holds (registrations (words text)).1 c) hdone
    (.preprocess h₀) fun done d rest c c' _ hP hd => hP.declare hd

/-- **When `parse` returns**, and with which code. -/
theorem parse_ok {text : Str} {c : Context} {r : ℕ} : parse text = .ok (c, r) ↔
    Reaches text (schema (tokens text)).1 c ∧ r = if (schema (tokens text)).2 then 0 else 1 := by
  simp only [parse, bind_eq_ok, pure_eq_ok, Prod.mk.injEq, Reaches]
  constructor
  · rintro ⟨c₀, h₀, c₁, h₁, rfl, rfl⟩
    exact ⟨⟨c₀, h₀, h₁⟩, rfl⟩
  · rintro ⟨⟨c₀, h₀, h₁⟩, rfl⟩
    exact ⟨c₀, h₀, c, h₁, rfl, rfl⟩

/-- A run stops in the first pass, or at a declaration that the second reaches. -/
theorem parse_error {text : Str} {e : Stop} : parse text = .error e ↔
    preprocess .new text = .error e ∨ ∃ done d rest c,
      (schema (tokens text)).1 = done ++ d :: rest ∧ Reaches text done c ∧
        c.declare d = .error e := by
  simp only [parse, bind_eq_error, foldlM_eq_error, pure_ne_error, and_false, exists_false,
    or_false, Reaches]
  refine or_congr_right ⟨?_, ?_⟩
  · rintro ⟨c₀, h₀, done, d, rest, c, hds, hdone, hd⟩
    exact ⟨done, d, rest, c, hds, ⟨c₀, h₀, hdone⟩, hd⟩
  · rintro ⟨done, d, rest, c, hds, ⟨c₀, h₀, hdone⟩, hd⟩
    exact ⟨c₀, h₀, done, d, rest, c, hds, hdone, hd⟩

/-! ### Searches -/

/-- An entity is found exactly when it has a record. -/
theorem findEntityByName_isSome {s : Schema} {name : Str} :
    (findEntityByName s name).isSome ↔ name ∈ s.entities.map (·.name) := by
  rw [findEntityByName, List.findIdx?_isSome, List.any_eq_true, List.mem_map]
  simp only [decide_eq_true_eq]

theorem findTypeByName_isSome {s : Schema} {name : Str} :
    (findTypeByName s name).isSome ↔ some name ∈ s.types.map (·.name) := by
  rw [findTypeByName, List.findIdx?_isSome, List.any_eq_true, List.mem_map]
  simp only [decide_eq_true_eq]

theorem findEntityByName_lt {s : Schema} {name : Str} {i : ℕ}
    (h : findEntityByName s name = some i) : i < s.entities.length :=
  (List.findIdx?_eq_some_iff_getElem.mp h).1

theorem findTypeByName_lt {s : Schema} {name : Str} {i : ℕ}
    (h : findTypeByName s name = some i) : i < s.types.length :=
  (List.findIdx?_eq_some_iff_getElem.mp h).1

end VulcanDB.Express
