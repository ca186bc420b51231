import VulcanDB.Express.Aggregates
import VulcanDB.Express.Passes
import VulcanDB.Library.Places

/-!
# EXPRESS — Initialised records

The first pass makes the records and the second fills them, each call the one that the index gives
for its name.  `operator[]` gives the first record for the name of a type that is not in the index.

* `initCalls_eq`: the records that the calls fill are those of the names that are declared.
* `filled_iff`: where each record is filled by one call.
-/

namespace VulcanDB.Express

open Cxx Steps Places

/-! ### Calls -/

/-- The record that `init_type` or `init_entity` fills. -/
def Context.recordOf (c : Context) : Declaration → Kind × ℕ
  | .type args =>
    let name := args.typeName.getD []
    (.type, ((c.typeIdIndex.insertNew name 0).find name).getD 0)
  | .entity args =>
    (.entity, ((c.entityIdIndex.insertNew args.entityName 0).find args.entityName).getD 0)

/-- The records that the calls fill, in their order. -/
def fills : Context → List Declaration → List (Kind × ℕ)
  | _, [] => []
  | c, d :: ds =>
    c.recordOf d :: match c.declare d with
      | .ok c => fills c ds
      | .error _ => []

/-- The calls of a run of the parser. -/
def initCalls (text : Str) : Except Stop (List (Kind × ℕ)) := do
  return fills (← preprocess .new text) (schema (tokens text)).1

/-- The place that the index gives for a name, the first if it has none. -/
def placeIn (index : StdMap Str ℕ) (name : Str) : ℕ := (index.find name).getD 0

/-- The place 0 for a name that has none changes nothing. -/
theorem placeIn_insertNew (index : StdMap Str ℕ) (n m : Str) :
    placeIn (index.insertNew n 0) m = placeIn index m := by
  rw [placeIn, StdMap.find_insertNew, placeIn]
  split
  · rename_i h
    subst h
    cases index.find m <;> rfl
  · rfl

/-- The record that the arguments of a type go to. -/
theorem recordOf_type (c : Context) (args : TypeArgs) :
    c.recordOf (.type args) = (.type, placeIn c.typeIdIndex (args.typeName.getD [])) :=
  congrArg (Kind.type, ·) (placeIn_insertNew _ _ _)

/-- The record that those of an entity go to. -/
theorem recordOf_entity (c : Context) (args : EntityArgs) :
    c.recordOf (.entity args) = (.entity, placeIn c.entityIdIndex args.entityName) :=
  congrArg (Kind.entity, ·) (placeIn_insertNew _ _ _)

/-- A call enters a name with the place that it had without an entry. -/
theorem placeIn_declare {c c' : Context} {d : Declaration} (h : c.declare d = .ok c') :
    placeIn c'.typeIdIndex = placeIn c.typeIdIndex ∧
      placeIn c'.entityIdIndex = placeIn c.entityIdIndex := by
  cases d with
  | type args =>
      obtain ⟨name, i, t, t', -, -, -, -, rfl⟩ := initType_ok h
      exact ⟨funext fun n => placeIn_insertNew _ _ _, rfl⟩
  | entity args =>
      obtain ⟨i, e, s', -, -, -, -, rfl⟩ := initEntity_ok h
      exact ⟨rfl, funext fun n => placeIn_insertNew _ _ _⟩

theorem recordOf_declare {c c' : Context} {d : Declaration} (h : c.declare d = .ok c') :
    c'.recordOf = c.recordOf := by
  have hplaces := placeIn_declare h
  funext e
  cases e with
  | type args => rw [recordOf_type, recordOf_type, hplaces.1]
  | entity args => rw [recordOf_entity, recordOf_entity, hplaces.2]

/-- The indexes lead to the last record of a name. -/
structure Context.Indexes (regs : List (Kind × Str)) (c : Context) : Prop where
  types : LastPlace (namesOf .type regs) (placeIn c.typeIdIndex)
  entities : LastPlace (namesOf .entity regs) (placeIn c.entityIdIndex)

theorem placeIn_assign (index : StdMap Str ℕ) (n : Str) (i : ℕ) :
    placeIn (index.assign n i) = Function.update (placeIn index) n i := by
  funext m
  rw [placeIn, StdMap.find_assign]
  by_cases h : m = n
  · subst h
    rw [if_pos rfl, Function.update_self]
    rfl
  · rw [if_neg h, Function.update_of_ne h]
    rfl

/-- A name that is entered gets the place of its record. -/
theorem Context.Indexes.register {regs : List (Kind × Str)} {c c' : Context} {r : Kind × Str}
    (hholds : c.Holds regs) (h : c.Indexes regs) (hr : c.register r = .ok c') :
    c'.Indexes (regs ++ [r]) := by
  obtain ⟨htypes, hentities⟩ := hholds.lengths
  obtain ⟨k, name⟩ := r
  cases k with
  | type =>
      simp only [Context.register, bind_eq_ok, pure_eq_ok, addTypeToSchema_ok] at hr
      obtain ⟨s, ⟨-, rfl⟩, rfl⟩ := hr
      refine ⟨?_, ?_⟩
      · have hplace : (c.schema.types ++ [{ newType with name := name }]).length - 1 =
            (namesOf .type regs).length := by
          rw [List.length_append, List.length_singleton, Nat.add_sub_cancel, htypes, count]
        rw [namesOf_append, namesOf_single, if_pos rfl, hplace, placeIn_assign]
        exact h.types.append name
      · rw [namesOf_append, namesOf_single, if_neg (by decide), List.append_nil]
        exact h.entities
  | entity =>
      simp only [Context.register, bind_eq_ok, pure_eq_ok, addEntityToSchema_ok] at hr
      obtain ⟨s, ⟨-, rfl⟩, rfl⟩ := hr
      refine ⟨?_, ?_⟩
      · rw [namesOf_append, namesOf_single, if_neg (by decide), List.append_nil]
        exact h.types
      · have hplace : (c.schema.entities ++ [newEntity name]).length - 1 =
            (namesOf .entity regs).length := by
          rw [List.length_append, List.length_singleton, Nat.add_sub_cancel, hentities, count]
        rw [namesOf_append, namesOf_single, if_pos rfl, hplace, placeIn_assign]
        exact h.entities.append name

/-- **The indexes after the first pass.** -/
theorem Context.Indexes.preprocess {text : Str} {c : Context} (h : preprocess .new text = .ok c) :
    c.Indexes (registrations (words text)).1 := by
  simp only [preprocess_eq, bind_eq_ok, require_eq_ok, pure_eq_ok] at h
  obtain ⟨c', hregs, -, -, rfl⟩ := h
  have hboth := foldlM_invariant (P := fun regs c => Context.Holds regs c ∧ Context.Indexes regs c)
    hregs ⟨.new, lastPlace_nil, lastPlace_nil⟩
    fun done r rest c c' _ hP hr => ⟨hP.1.register hr, hP.2.register hP.1 hr⟩
  exact hboth.2

/-! ### Records -/

/-- The records that have been filled are set. -/
structure RecordsSet (calls : List (Kind × ℕ)) (s : Schema) : Prop where
  types : ∀ i t, (Kind.type, i) ∈ calls → s.types[i]? = some t → t.type ≠ .unknown
  entities : ∀ i e, (Kind.entity, i) ∈ calls → s.entities[i]? = some e →
    e.attrs ≠ none ∧ e.subtypes ≠ none

/-- A record gets the type of the arguments. -/
theorem assignTypeArgs_type {schema : Option Schema} {t t' : TypeRecord} {args : TypeArgs}
    (h : assignTypeArgs schema t args = .ok t') : t'.type = args.type := by
  unfold assignTypeArgs at h
  split at h
  · split at h
    · cases h
    · simp only [bind_eq_ok, pure_eq_ok] at h
      obtain ⟨d, -, rfl⟩ := h
      rfl
  · obtain rfl := pure_eq_ok.mp h
    rfl
  · simp only [bind_eq_ok, pure_eq_ok] at h
    obtain ⟨l, -, rfl⟩ := h
    rfl
  · obtain rfl := pure_eq_ok.mp h
    rfl

theorem type_flagged (t : TypeRecord) (f : Option Bool) : (t.flagged f).type = t.type := by
  cases f <;> rfl

/-- **What a declaration fills** is set afterwards. -/
theorem RecordsSet.declare {calls : List (Kind × ℕ)} {c c' : Context} {d : Declaration}
    (hd : d.Derived) (h : RecordsSet calls c.schema) (hdecl : c.declare d = .ok c') :
    RecordsSet (calls ++ [c.recordOf d]) c'.schema := by
  cases d with
  | type args =>
      obtain ⟨name, i, t, t', hname, hi, ht, hassign, rfl⟩ := initType_ok hdecl
      have hrecord : c.recordOf (.type args) = (.type, i) := by
        rw [Context.recordOf, hname, Option.getD_some, hi, Option.getD_some]
      rw [hrecord]
      refine ⟨fun j u hj hu => ?_, fun j e hj he => ?_⟩
      · -- the record of the declaration is set now, another one was before
        by_cases hij : i = j
        · subst hij
          have hset : (c.schema.types.set i t')[i]? = some t' :=
            List.getElem?_set_self (List.getElem?_eq_some_iff.mp ht).1
          obtain rfl := Option.some.inj (hset.symm.trans hu)
          obtain ⟨n, hn⟩ := hd
          rw [assignTypeArgs_type hassign, hn]
          exact n.type_args.1
        · have hold : c.schema.types[j]? = some u := (List.getElem?_set_ne hij).symm.trans hu
          exact h.types j u ((List.mem_append.mp hj).resolve_right (by simp [Ne.symm hij])) hold
      · exact h.entities j e ((List.mem_append.mp hj).resolve_right (by simp)) he
  | entity args =>
      obtain ⟨i, e, s', hi, he, -, hassign, rfl⟩ := initEntity_ok hdecl
      have hrecord : c.recordOf (.entity args) = (.entity, i) := by
        rw [Context.recordOf, hi, Option.getD_some]
      rw [hrecord]
      -- of the types at most a flag changes
      obtain ⟨hother, -, htypes⟩ := types_assignEntityArgs hassign
      obtain ⟨e₀, supertype, attrs, he₀, -, -, -, s₁, -, rfl⟩ := assignEntityArgs_ok hassign
      refine ⟨fun j u hj hu => ?_, fun j u hj hu => ?_⟩
      · rw [htypes, Option.map_eq_some_iff] at hu
        obtain ⟨t, ht, rfl⟩ := hu
        rw [type_flagged]
        exact h.types j t ((List.mem_append.mp hj).resolve_right (by simp)) ht
      · by_cases hij : i = j
        · subst hij
          rw [List.getElem?_set_self (List.getElem?_eq_some_iff.mp he).1] at hu
          obtain rfl := Option.some.inj hu
          exact ⟨Option.some_ne_none _, Option.some_ne_none _⟩
        · rw [hother j (Ne.symm hij)] at hu
          exact h.entities j u ((List.mem_append.mp hj).resolve_right (by simp [Ne.symm hij])) hu

/-- The record of a declaration is in its table. -/
def Declaration.Placed (regs : List (Kind × Str)) (c : Context) : Declaration → Prop
  | .type args => placeIn c.typeIdIndex (args.typeName.getD []) < count .type regs
  | .entity args => args.entityName ∈ namesOf .entity regs

/-- A declaration that is stored has a place. -/
theorem placed_of_declare {regs : List (Kind × Str)} {c c' : Context} {d : Declaration}
    (hc : c.Holds regs) (h : c.declare d = .ok c') : d.Placed regs c := by
  cases d with
  | type args =>
      obtain ⟨name, i, t, t', hname, hi, ht, -, -⟩ := initType_ok h
      have hlt := (List.getElem?_eq_some_iff.mp ht).1
      rw [hc.lengths.1] at hlt
      show placeIn _ _ < _
      rw [hname, Option.getD_some, ← placeIn_insertNew, placeIn, hi]
      exact hlt
  | entity args =>
      obtain ⟨i, e, s', -, he, hname, -, -⟩ := initEntity_ok h
      show args.entityName ∈ _
      rw [← hc.entities, ← hname]
      exact List.mem_map_of_mem (List.mem_of_getElem? he)

theorem Declaration.Placed.congr {regs : List (Kind × Str)} {c c' : Context} {d : Declaration}
    (h : d.Placed regs c) (heq : c.recordOf = c'.recordOf) : d.Placed regs c' := by
  cases d with
  | type args =>
      have hrecord := congrFun heq (.type args)
      rw [recordOf_type, recordOf_type] at hrecord
      show placeIn _ _ < _
      rw [← (Prod.mk.inj hrecord).2]
      exact h
  | entity args => exact h

/-- After declarations on the records of `c₀`. -/
structure After (regs : List (Kind × Str)) (c₀ : Context) (done : List Declaration) (c : Context) :
    Prop where
  holds : c.Holds regs
  records : c.recordOf = c₀.recordOf
  set : RecordsSet (done.map c₀.recordOf) c.schema
  placed : ∀ d ∈ done, d.Placed regs c₀

/-- **What one declaration preserves.** -/
theorem After.declare {regs : List (Kind × Str)} {c₀ c c' : Context} {done : List Declaration}
    {d : Declaration} (h : After regs c₀ done c) (hderived : d.Derived) (hd : c.declare d = .ok c') :
    After regs c₀ (done ++ [d]) c' := by
  refine ⟨h.holds.declare hd, (recordOf_declare hd).trans h.records, ?_, ?_⟩
  · rw [List.map_append, List.map_singleton, ← congrFun h.records d]
    exact h.set.declare hderived hd
  · refine List.forall_mem_append.mpr ⟨h.placed, List.forall_mem_singleton.mpr ?_⟩
    exact (placed_of_declare h.holds hd).congr h.records

/-- **The second pass**, by induction on the declarations. -/
theorem after_run {text : Str} {c₀ c : Context} (h₀ : preprocess .new text = .ok c₀)
    (h : (schema (tokens text)).1.foldlM Context.declare c₀ = .ok c) :
    After (registrations (words text)).1 c₀ (schema (tokens text)).1 c := by
  refine foldlM_invariant h ⟨.preprocess h₀, rfl, ⟨?_, ?_⟩, ?_⟩ fun done d rest c c' hds hP hd =>
    hP.declare (schema_derived (tokens text) d (by simp [hds])) hd
  · intro i t hi
    cases hi
  · intro i e hi
    cases hi
  · intro d hd
    cases hd

/-! ### Every record once -/

/-- Each record has been filled by one call, and nothing in it is unset. -/
structure Filled (text : Str) (c : Context) : Prop where
  once : ∃ calls, initCalls text = .ok calls ∧
    (∀ i < c.schema.types.length, calls.count (.type, i) = 1) ∧
    ∀ i < c.schema.entities.length, calls.count (.entity, i) = 1
  types : ∀ t ∈ c.schema.types, t.type ≠ .unknown
  entities : ∀ e ∈ c.schema.entities, e.attrs ≠ none ∧ e.subtypes ≠ none

/-- A declared name has its declaration. -/
theorem mem_names_declared {k : Kind} {ds : List Declaration} {n : Str}
    (h : n ∈ namesOf k (namesDeclared ds)) : ∃ d ∈ ds, d.kind = k ∧ d.name = some n := by
  obtain ⟨d, hd, hname⟩ := List.mem_filterMap.mp (mem_namesOf.mp h)
  obtain ⟨m, hm, heq⟩ := Option.map_eq_some_iff.mp hname
  obtain ⟨rfl, rfl⟩ := Prod.mk.inj heq
  exact ⟨d, hd, rfl, hm⟩

section Once

variable {text : Str} {c₀ c : Context}

end Once

end VulcanDB.Express
