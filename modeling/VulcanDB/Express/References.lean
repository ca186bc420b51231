import VulcanDB.Express.Initialised
import VulcanDB.Express.Integrity

/-!
# EXPRESS — Names that are used

A pointer is to the record that a name is found for, and the first pass enters names that no
declaration has: a record of the tables need not be that of a declaration.

* `Found.declare`: each pointer that is stored has been found for a name in a declaration.
* `found_iff`: when what is found is the record of a declaration.
* `references_iff`: when all pointers are set, and all names that are used are those of
  declarations.
-/

namespace VulcanDB.Express

open Cxx Steps Places

/-! ### Names and pointers -/

/-- The names that a type is made of. -/
def TypeArgs.names (args : TypeArgs) : List Str := args.refTypeName.toList ++ args.selectList

/-- The names in a declaration that are searched for among the types, and then the entities. -/
def Declaration.typeNames : Declaration → List Str
  | .type args => args.names
  | .entity args => args.attrs.flatMap (·.type.names)

/-- The names in a declaration that are searched for among the entities. -/
def Declaration.entityNames : Declaration → List Str
  | .type _ => []
  | .entity args => args.subtypeNames ++ args.supertypeName.toList

/-- What is stored in `ref_type` and `select_list`. -/
def TypeRecord.links (t : TypeRecord) : List Desc := t.refType.toList ++ t.selectList

/-- The links of an attribute's type. -/
def AttrType.links : AttrType → List Desc
  | .shared i => [.type i]
  | .own t => t.links

/-- The pointers of the attributes, and those to the subtypes and the supertype. -/
def EntityRecord.links (e : EntityRecord) : List Desc :=
  (e.attrs.getD []).flatMap (·.type.links) ++
    ((e.subtypes.getD []).filterMap (Option.map Desc.entity) ++ (e.supertype.map .entity).toList)

/-- All links of the tables. -/
def Schema.links (s : Schema) : List Desc :=
  s.types.flatMap TypeRecord.links ++ s.entities.flatMap EntityRecord.links

/-- The record is that of a declaration: it has the declared name, and the index leads to it. -/
def Context.Declares (c : Context) (text : Str) : Desc → Prop
  | .type i => ∃ n, (Kind.type, n) ∈ declared text ∧ placeIn c.typeIdIndex n = i ∧
      c.schema.types[i]?.map (·.name) = some (some n)
  | .entity i => ∃ n, (Kind.entity, n) ∈ declared text ∧ placeIn c.entityIdIndex n = i ∧
      c.schema.entities[i]?.map (·.name) = some n

/-! ### What is found for a name -/

/-- What is found for a name depends on the names of the tables. -/
theorem findDesc_congr {s s' : Schema} (htypes : s'.types.map (·.name) = s.types.map (·.name))
    (hentities : s'.entities.map (·.name) = s.entities.map (·.name)) (n : Str) :
    findDesc s' n = findDesc s n := by
  rw [findDesc, findDesc, findTypeByName_congr htypes, findEntityByName_congr hentities]

/-- The pointer is what a name in one of the declarations is found for. -/
def Found (s : Schema) (ds : List Declaration) (p : Desc) : Prop :=
  ∃ d ∈ ds, (∃ n ∈ d.typeNames, findDesc s n = some p) ∨
    ∃ n ∈ d.entityNames, ∃ i, findEntityByName s n = some i ∧ p = .entity i

/-- What was found for a name stays found. -/
theorem Found.append {s s' : Schema} {ds : List Declaration} {p : Desc}
    (htypes : s'.types.map (·.name) = s.types.map (·.name))
    (hentities : s'.entities.map (·.name) = s.entities.map (·.name)) (h : Found s ds p)
    (ds' : List Declaration) : Found s' (ds ++ ds') p := by
  obtain ⟨d, hd, h⟩ := h
  refine ⟨d, List.mem_append_left _ hd, h.imp ?_ ?_⟩
  · rintro ⟨n, hn, hp⟩
    exact ⟨n, hn, (findDesc_congr htypes hentities n).trans hp⟩
  · rintro ⟨n, hn, i, hi, hp⟩
    exact ⟨n, hn, i, (findEntityByName_congr hentities n).trans hi, hp⟩

/-- A name is resolved to what is found. -/
theorem findDesc_of_resolve {schema : Option Schema} {n : Str} {p : Desc}
    (h : resolve schema n = .ok p) : ∃ s, schema = some s ∧ findDesc s n = some p := by
  cases schema with
  | none => cases h
  | some s =>
      simp only [resolve] at h
      split at h
      · rename_i d hd
        obtain rfl := Except.ok.inj h
        exact ⟨s, rfl, hd⟩
      · cases h

theorem mem_of_mapM_resolve {schema : Option Schema} {names : List Str} {l : List Desc}
    (h : names.mapM (resolve schema) = .ok l) {p : Desc} (hp : p ∈ l) :
    ∃ n ∈ names, resolve schema n = .ok p := by
  induction names generalizing l with
  | nil =>
      obtain rfl := Except.ok.inj h
      cases hp
  | cons n names ih =>
      rw [List.mapM_cons] at h
      simp only [bind_eq_ok, pure_eq_ok] at h
      obtain ⟨d, hd, ds, hds, rfl⟩ := h
      rcases List.mem_cons.mp hp with rfl | hp
      · exact ⟨n, List.mem_cons_self, hd⟩
      · obtain ⟨m, hm, hres⟩ := ih hds hp
        exact ⟨m, List.mem_cons_of_mem _ hm, hres⟩

/-- The pointers of a type were there, or are found for its names. -/
theorem links_assignTypeArgs {schema : Option Schema} {t t' : TypeRecord} {args : TypeArgs}
    (h : assignTypeArgs schema t args = .ok t') {p : Desc} (hp : p ∈ t'.links) :
    p ∈ t.links ∨ ∃ s, schema = some s ∧ ∃ n ∈ args.names, findDesc s n = some p := by
  unfold assignTypeArgs at h
  split at h
  · split at h
    · cases h
    · rename_i name hname
      simp only [bind_eq_ok, pure_eq_ok] at h
      obtain ⟨d, hd, rfl⟩ := h
      rcases List.mem_append.mp hp with hp | hp
      · obtain rfl := Option.some.inj (Option.mem_toList.mp hp)
        obtain ⟨s, hs, hfind⟩ := findDesc_of_resolve hd
        exact .inr ⟨s, hs, name, List.mem_append_left _ (Option.mem_toList.mpr hname), hfind⟩
      · exact .inl (List.mem_append_right _ hp)
  · obtain rfl := pure_eq_ok.mp h
    exact .inl hp
  · simp only [bind_eq_ok, pure_eq_ok] at h
    obtain ⟨l, hl, rfl⟩ := h
    rcases List.mem_append.mp hp with hp | hp
    · exact .inl (List.mem_append_left _ hp)
    · obtain ⟨n, hn, hres⟩ := mem_of_mapM_resolve hl hp
      obtain ⟨s, hs, hfind⟩ := findDesc_of_resolve hres
      exact .inr ⟨s, hs, n, List.mem_append_right _ hn, hfind⟩
  · obtain rfl := pure_eq_ok.mp h
    exact .inl hp

/-- The link of an attribute is what is found for its name. -/
theorem links_attrType {s : Schema} {args : TypeArgs} {a : AttrType} (h : attrType s args = .ok a)
    {p : Desc} (hp : p ∈ a.links) : ∃ n ∈ args.names, findDesc s n = some p := by
  unfold attrType at h
  split at h
  · simp only [bind_eq_ok, pure_eq_ok] at h
    obtain ⟨t, ht, rfl⟩ := h
    have hlinks : p ∈ t.links := hp
    rcases links_assignTypeArgs ht hlinks with hnew | ⟨s, hs, -⟩
    · cases hnew
    · cases hs
  · rename_i name hname
    refine ⟨name, List.mem_append_left _ (Option.mem_toList.mpr hname), ?_⟩
    rw [findDesc]
    cases hi : findTypeByName s name with
    | some i =>
        rw [hi] at h
        obtain rfl := pure_eq_ok.mp h
        rw [List.mem_singleton.mp hp]
    | none =>
        rw [hi] at h
        obtain rfl := pure_eq_ok.mp h
        rcases List.mem_append.mp hp with hp | hp
        · exact Option.mem_toList.mp hp
        · cases hp

/-- The pointers of the attributes are found for their names. -/
theorem links_assignAttrs {s s' : Schema} {as : List AttrArgs} {done out : List Attr}
    (h : assignAttrs s as done = .ok (s', out)) {p : Desc}
    (hp : p ∈ out.flatMap (·.type.links)) : p ∈ done.flatMap (·.type.links) ∨
      ∃ n ∈ as.flatMap (·.type.names), findDesc s n = some p := by
  induction as generalizing s done with
  | nil =>
      obtain ⟨-, rfl⟩ := Prod.mk.inj (Except.ok.inj h)
      exact .inl hp
  | cons a as ih =>
      simp only [assignAttrs, bind_eq_ok, require_eq_ok, Prod.exists] at h
      obtain ⟨s₁, attr, ha, -, -, h⟩ := h
      obtain ⟨hent, hnames, -⟩ := assignAttr_ok ha
      rw [List.flatMap_cons]
      rcases ih h with hdone | ⟨n, hn, hfind⟩
      · rw [List.flatMap_append, List.mem_append, List.flatMap_singleton] at hdone
        refine hdone.imp_right fun hattr => ?_
        obtain ⟨n, hn, hfind⟩ := links_attrType (assignAttr_type ha) hattr
        exact ⟨n, List.mem_append_left _ hn, hfind⟩
      · rw [findDesc_congr hnames (by rw [hent])] at hfind
        exact .inr ⟨n, List.mem_append_right _ hn, hfind⟩

theorem links_flagged (t : TypeRecord) (f : Option Bool) : (t.flagged f).links = t.links := by
  cases f <;> rfl

/-! ### After the declarations -/

/-- Each pointer that is stored has been found for a name in one of the declarations. -/
def AllFound (done : List Declaration) (c : Context) : Prop :=
  ∀ p ∈ c.schema.links, Found c.schema done p

/-- **A type keeps it.** -/
theorem AllFound.initType {done : List Declaration} {args : TypeArgs} {c c' : Context}
    (h : AllFound done c) (hd : c.declare (.type args) = .ok c') :
    AllFound (done ++ [.type args]) c' := by
  obtain ⟨name, i, t, t', -, -, ht, hassign, rfl⟩ := initType_ok hd
  have hnames : (c.schema.types.set i t').map (·.name) = c.schema.types.map (·.name) :=
    map_set (fun t : TypeRecord => t.name) ht (assignTypeArgs_name hassign)
  have hold : ∀ p ∈ c.schema.links, Found ⟨c.schema.types.set i t', c.schema.entities⟩
      (done ++ [.type args]) p := fun p hp => by
    apply Found.append _ _ (h p hp)
    · exact hnames
    · rfl
  intro p hp
  rcases List.mem_append.mp hp with hp | hp
  · obtain ⟨x, hx, hpx⟩ := List.mem_flatMap.mp hp
    rcases List.mem_or_eq_of_mem_set hx with hx | rfl
    · exact hold p (List.mem_append_left _ (List.mem_flatMap.mpr ⟨x, hx, hpx⟩))
    · rcases links_assignTypeArgs hassign hpx with hpt | ⟨s, hs, n, hn, hfind⟩
      · exact hold p (List.mem_append_left _
          (List.mem_flatMap.mpr ⟨t, List.mem_of_getElem? ht, hpt⟩))
      · obtain rfl := Option.some.inj hs
        refine ⟨.type args, by simp, .inl ⟨n, hn, ?_⟩⟩
        rw [← hfind]
        apply findDesc_congr
        · exact hnames
        · rfl
  · exact hold p (List.mem_append_right _ hp)

/-- **An entity keeps it.** -/
theorem AllFound.initEntity {done : List Declaration} {args : EntityArgs} {c c' : Context}
    (h : AllFound done c) (hd : c.declare (.entity args) = .ok c') :
    AllFound (done ++ [.entity args]) c' := by
  obtain ⟨i, e, s', -, he, -, hassign, rfl⟩ := initEntity_ok hd
  obtain ⟨hother, hnames, htypes⟩ := types_assignEntityArgs hassign
  obtain ⟨e₀, supertype, attrs, he₀, -, -, hsuper, s₁, hattrs, hs'⟩ := assignEntityArgs_ok hassign
  obtain rfl := Option.some.inj (he.symm.trans he₀)
  have hentities : s'.entities.map (·.name) = c.schema.entities.map (·.name) := by
    rw [hs']
    exact map_set (fun e : EntityRecord => e.name) he rfl
  -- the names have not moved, so what was found is still there
  have hold : ∀ p ∈ c.schema.links, Found s' (done ++ [.entity args]) p :=
    fun p hp => (h p hp).append hnames hentities _
  have hentity {n : Str} (hn : n ∈ (Declaration.entity args).entityNames) {j : ℕ}
      (hj : findEntityByName c.schema n = some j) : Found s' (done ++ [.entity args]) (.entity j) :=
    ⟨.entity args, by simp, .inr ⟨n, hn, j, (findEntityByName_congr hentities n).trans hj, rfl⟩⟩
  intro p hp
  rcases List.mem_append.mp hp with hp | hp
  · -- the types are as they were, up to a flag
    obtain ⟨x, hx, hpx⟩ := List.mem_flatMap.mp hp
    obtain ⟨j, hj⟩ := List.mem_iff_getElem?.mp hx
    rw [htypes, Option.map_eq_some_iff] at hj
    obtain ⟨t, ht, rfl⟩ := hj
    rw [links_flagged] at hpx
    exact hold p (List.mem_append_left _ (List.mem_flatMap.mpr ⟨t, List.mem_of_getElem? ht, hpx⟩))
  · obtain ⟨x, hx, hpx⟩ := List.mem_flatMap.mp hp
    rw [hs'] at hx
    rcases List.mem_or_eq_of_mem_set hx with hx | rfl
    · exact hold p (List.mem_append_right _ (List.mem_flatMap.mpr ⟨x, hx, hpx⟩))
    · rcases List.mem_append.mp hpx with hpx | hpx
      · -- an attribute
        rcases links_assignAttrs hattrs hpx with hnil | ⟨n, hn, hfind⟩
        · cases hnil
        · refine ⟨.entity args, by simp, .inl ⟨n, ?_, ?_⟩⟩
          · obtain ⟨a, ha, hna⟩ := List.mem_flatMap.mp hn
            exact List.mem_flatMap.mpr ⟨a, List.mem_reverse.mp ha, hna⟩
          · exact (findDesc_congr hnames hentities n).trans hfind
      rcases List.mem_append.mp hpx with hpx | hpx
      · -- a subtype
        obtain ⟨q, hq, hqp⟩ := List.mem_filterMap.mp hpx
        obtain ⟨n, hn, hfind⟩ := List.mem_map.mp hq
        obtain ⟨j, rfl, rfl⟩ := Option.map_eq_some_iff.mp hqp
        exact hentity (List.mem_append_left _ hn) hfind
      · -- the supertype
        obtain ⟨j, hj, rfl⟩ := Option.map_eq_some_iff.mp (Option.mem_toList.mp hpx)
        cases hname : args.supertypeName with
        | none =>
            rw [hname] at hsuper
            have hsame : e.supertype = some j := (Except.ok.inj hsuper).trans hj
            refine hold _ (List.mem_append_right _ (List.mem_flatMap.mpr
              ⟨e, List.mem_of_getElem? he, ?_⟩))
            refine List.mem_append_right _ (List.mem_append_right _ ?_)
            rw [hsame]
            exact List.mem_singleton_self _
        | some n =>
            rw [hname] at hsuper
            have hfind : findEntityByName c.schema n = some j := by
              simp only [assignSupertype] at hsuper
              cases hk : findEntityByName c.schema n with
              | none => rw [hk] at hsuper; cases hsuper
              | some k =>
                  rw [hk] at hsuper
                  exact (Except.ok.inj hsuper).trans hj
            exact hentity (List.mem_append_right _ (Option.mem_toList.mpr hname)) hfind

/-- **Each declaration keeps it.** -/
theorem AllFound.declare {done : List Declaration} {d : Declaration} {c c' : Context}
    (h : AllFound done c) (hd : c.declare d = .ok c') : AllFound (done ++ [d]) c' := by
  cases d with
  | type args => exact h.initType hd
  | entity args => exact h.initEntity hd

/-- The records that the first pass makes have no pointers. -/
theorem AllFound.preprocess {text : Str} {c : Context} (h : preprocess .new text = .ok c) :
    AllFound [] c := by
  obtain ⟨htypes, hentities⟩ := preprocess_new h
  intro p hp
  rcases List.mem_append.mp hp with hp | hp
  · obtain ⟨t, ht, hpt⟩ := List.mem_flatMap.mp hp
    obtain ⟨n, rfl⟩ := htypes t ht
    cases hpt
  · obtain ⟨e, he, hpe⟩ := List.mem_flatMap.mp hp
    obtain ⟨n, rfl⟩ := hentities e he
    cases hpe

/-! ### Declared records -/

/-- The name is used for a type that is entered once, by its declaration, or if no type of that
name is entered, for an entity that is declared. -/
def Usable (text n : Str) : Prop :=
  if (Kind.type, n) ∈ (registrations (words text)).1 then
    (namesOf .type (registrations (words text)).1).count n = 1 ∧ (Kind.type, n) ∈ declared text
  else (Kind.entity, n) ∈ declared text

instance (text n : Str) : Decidable (Usable text n) := by
  unfold Usable
  infer_instance

section Accepted

variable {text : Str} {c : Context} {r : ℕ} (h : parse text = .ok (c, r))

include h

/-- **Every link was found for a name** that a declaration uses. -/
theorem allFound_parse : AllFound (schema (tokens text)).1 c := by
  obtain ⟨⟨c₀, h₀, hrun⟩, -⟩ := parse_ok.mp h
  exact foldlM_invariant (P := AllFound) hrun (.preprocess h₀)
    fun _ _ _ _ _ _ hP hd => hP.declare hd

/-- The indexes lead to the records of their names. -/
theorem indexes_parse : c.Indexes (registrations (words text)).1 := by
  obtain ⟨⟨c₀, h₀, hrun⟩, -⟩ := parse_ok.mp h
  refine foldlM_invariant (P := fun _ c => c.Indexes (registrations (words text)).1) hrun
    (.preprocess h₀) fun _ _ _ _ _ _ hP hd => ?_
  obtain ⟨htypes, hentities⟩ := placeIn_declare hd
  exact ⟨htypes ▸ hP.types, hentities ▸ hP.entities⟩

/-- An entity that is declared has been entered. -/
theorem entered_of_declared {n : Str} (hn : (Kind.entity, n) ∈ declared text) :
    n ∈ namesOf .entity (registrations (words text)).1 := by
  obtain ⟨⟨c₀, h₀, hrun⟩, -⟩ := parse_ok.mp h
  obtain ⟨d, hd, hk, hname⟩ := mem_names_declared (mem_namesOf.mpr hn)
  have hplaced := (after_run h₀ hrun).placed d hd
  cases d with
  | type args => cases hk
  | entity args =>
      obtain rfl : args.entityName = n := Option.some.inj hname
      exact hplaced

/-- What is found among the types is the record of a declaration of the name, if the name is
entered once. -/
theorem declares_type_iff {n : Str} {i : ℕ} (hi : findTypeByName c.schema n = some i) :
    c.Declares text (.type i) ↔ (namesOf .type (registrations (words text)).1).count n = 1 ∧
      (Kind.type, n) ∈ declared text := by
  have hnames := (parse_ok.mp h).1.holds.types
  have hfirst : (namesOf .type (registrations (words text)).1).findIdx? (fun m => m = n) =
      some i := by
    rw [← hi, findTypeByName, ← Function.comp_def (fun m : Option Str => decide (m = some n)),
      ← List.findIdx?_map, hnames, List.findIdx?_map]
    simp [Function.comp_def]
  have hat : c.schema.types[i]?.map (·.name) = some (some n) := by
    rw [← List.getElem?_map, hnames, List.getElem?_map]
    obtain ⟨hlt, hn, -⟩ := List.findIdx?_eq_some_iff_getElem.mp hfirst
    rw [List.getElem?_eq_getElem hlt, of_decide_eq_true hn]
    rfl
  rw [← (indexes_parse h).types.first_iff (fun m => decide_eq_true_iff) hfirst]
  constructor
  · rintro ⟨m, hm, hplace, hname⟩
    obtain rfl : m = n := Option.some.inj (Option.some.inj (hname.symm.trans hat))
    exact ⟨hplace, hm⟩
  · rintro ⟨hplace, hn⟩
    exact ⟨n, hn, hplace, hat⟩

/-- What is found among the entities is the record of a declaration. -/
theorem found_entity_iff (hnodup : (namesOf .entity (registrations (words text)).1).Nodup)
    {n : Str} : (∃ i, findEntityByName c.schema n = some i ∧ c.Declares text (.entity i)) ↔
      (Kind.entity, n) ∈ declared text := by
  have hnames := (parse_ok.mp h).1.holds.entities
  have hat {i : ℕ} (hi : findEntityByName c.schema n = some i) :
      c.schema.entities[i]?.map (·.name) = some n := by
    obtain ⟨hlt, hn, -⟩ := List.findIdx?_eq_some_iff_getElem.mp hi
    rw [List.getElem?_eq_getElem hlt, Option.map_some, of_decide_eq_true hn]
  constructor
  · rintro ⟨i, hi, m, hm, -, hname⟩
    obtain rfl : m = n := Option.some.inj (hname.symm.trans (hat hi))
    exact hm
  · intro hn
    have hentered := entered_of_declared h hn
    rw [← hnames] at hentered
    obtain ⟨i, hi⟩ := Option.isSome_iff_exists.mp (findEntityByName_isSome.mpr hentered)
    refine ⟨i, hi, n, hn, ?_, hat hi⟩
    refine (indexes_parse h).entities.eq_of_nodup hnodup ?_
    rw [← hnames, List.getElem?_map, hat hi]

/-- **What is found for a name is the record of a declaration** if the name is usable. -/
theorem found_iff (hnodup : (namesOf .entity (registrations (words text)).1).Nodup) {n : Str} :
    (∃ p, findDesc c.schema n = some p ∧ c.Declares text p) ↔ Usable text n := by
  have htype : (findTypeByName c.schema n).isSome ↔ (Kind.type, n) ∈ (registrations (words text)).1 :=
    (parse_ok.mp h).1.holds.findType
  rw [Usable, findDesc]
  cases hi : findTypeByName c.schema n with
  | some i =>
      rw [if_pos (htype.mp (by rw [hi]; rfl)), ← declares_type_iff h hi]
      simp only [Option.some.injEq]
      constructor
      · rintro ⟨p, rfl, hd⟩
        exact hd
      · intro hd
        exact ⟨_, rfl, hd⟩
  | none =>
      rw [if_neg (fun hmem => by simpa [hi] using htype.mpr hmem), ← found_entity_iff h hnodup]
      constructor
      · rintro ⟨p, hp, hd⟩
        obtain ⟨i, hfind, rfl⟩ := Option.map_eq_some_iff.mp hp
        exact ⟨i, hfind, hd⟩
      · rintro ⟨i, hfind, hd⟩
        exact ⟨.entity i, by simp only [hfind, Option.map_some], hd⟩

end Accepted

/-! ### The links of a schema -/

/-- The links of a schema are set, and go to records of declarations; and each name that a
declaration uses has been found there, so that none is used that is not declared. -/
structure Referential (text : Str) (c : Context) : Prop where
  sound : c.schema.Sound
  links : ∀ p ∈ c.schema.links, c.Declares text p
  types : ∀ d ∈ (schema (tokens text)).1, ∀ n ∈ d.typeNames,
    ∃ p, findDesc c.schema n = some p ∧ c.Declares text p
  entities : ∀ d ∈ (schema (tokens text)).1, ∀ n ∈ d.entityNames,
    ∃ i, findEntityByName c.schema n = some i ∧ c.Declares text (.entity i)

/-- No entity is entered twice, each that is entered is declared, and the names that declarations
use are those of declarations. -/
structure Closed (text : Str) : Prop where
  once : (namesOf .entity (registrations (words text)).1).Nodup
  entered : ∀ n ∈ namesOf .entity (registrations (words text)).1, (Kind.entity, n) ∈ declared text
  types : ∀ d ∈ (schema (tokens text)).1, ∀ n ∈ d.typeNames, Usable text n
  entities : ∀ d ∈ (schema (tokens text)).1, ∀ n ∈ d.entityNames, (Kind.entity, n) ∈ declared text

/-- The last declaration of a name is one. -/
theorem lastEntity_mem {ds : List Declaration} {n : Str} {args : EntityArgs}
    (h : lastEntity ds n = some args) : .entity args ∈ ds ∧ args.entityName = n := by
  obtain ⟨d, hd, h⟩ := List.exists_of_findSome?_eq_some h
  cases d with
  | type _ => cases h
  | entity args' =>
      simp only at h
      split at h
      · rename_i hname
        obtain rfl := Option.some.inj h
        exact ⟨List.mem_reverse.mp hd, hname⟩
      · cases h

theorem exists_lastEntity {text n : Str} :
    (∃ args, lastEntity (schema (tokens text)).1 n = some args) ↔
      (Kind.entity, n) ∈ declared text := by
  constructor
  · rintro ⟨args, hargs⟩
    obtain ⟨hmem, hname⟩ := lastEntity_mem hargs
    exact List.mem_filterMap.mpr ⟨_, hmem, by rw [← hname]; rfl⟩
  · intro hn
    obtain ⟨d, hd, hk, hname⟩ := mem_names_declared (mem_namesOf.mpr hn)
    cases d with
    | type args => cases hk
    | entity args =>
        refine Option.isSome_iff_exists.mp (List.findSome?_isSome_iff.mpr
          ⟨_, List.mem_reverse.mpr hd, ?_⟩)
        simp only [if_pos (Option.some.inj hname)]
        rfl

/-- Where the names are those of declarations, so is the last declaration of each entity. -/
theorem Closed.resolved {text : Str} {c : Context} (hclosed : Closed text)
    (h : parse text = .ok (c, 0)) {args : EntityArgs}
    (hargs : .entity args ∈ (schema (tokens text)).1) :
    Resolved (registrations (words text)).1 args where
  subtypes n hn := mem_namesOf.mp
    (entered_of_declared h (hclosed.entities _ hargs n (List.mem_append_left _ hn)))
  attrs a ha n hn := by
    have hnames : n ∈ (Declaration.entity args).typeNames :=
      List.mem_flatMap.mpr ⟨a, ha, List.mem_append_left _ (Option.mem_toList.mpr hn)⟩
    have husable := hclosed.types _ hargs n hnames
    rw [Usable] at husable
    split at husable
    · exact .inl ‹_›
    · exact .inr (mem_namesOf.mp (entered_of_declared h husable))

/-- **Main result.**  The links of an accepted schema are all to records of declarations, and all
names that are used are declared, if and only if no entity is entered twice, each that is entered
is declared, and the names that declarations use are those of declarations. -/
theorem references_iff {text : Str} {c : Context} (h : parse text = .ok (c, 0)) :
    Referential text c ↔ Closed text := by
  have hsound := links_set_iff h
  constructor
  · intro hrefs
    obtain ⟨hnodup, hall⟩ := hsound.mp hrefs.sound
    refine ⟨hnodup, fun n hn => ?_, fun d hd n hn => ?_, fun d hd n hn => ?_⟩
    · obtain ⟨args, hargs, -⟩ := hall n hn
      exact exists_lastEntity.mp ⟨args, hargs⟩
    · exact (found_iff h hnodup).mp (hrefs.types d hd n hn)
    · exact (found_entity_iff h hnodup).mp (hrefs.entities d hd n hn)
  · intro hclosed
    have htypes : ∀ d ∈ (schema (tokens text)).1, ∀ n ∈ d.typeNames,
        ∃ p, findDesc c.schema n = some p ∧ c.Declares text p :=
      fun d hd n hn => (found_iff h hclosed.once).mpr (hclosed.types d hd n hn)
    have hentities : ∀ d ∈ (schema (tokens text)).1, ∀ n ∈ d.entityNames,
        ∃ i, findEntityByName c.schema n = some i ∧ c.Declares text (.entity i) :=
      fun d hd n hn => (found_entity_iff h hclosed.once).mpr (hclosed.entities d hd n hn)
    refine ⟨hsound.mpr ⟨hclosed.once, fun n hn => ?_⟩, fun p hp => ?_, htypes, hentities⟩
    · obtain ⟨args, hargs⟩ := exists_lastEntity.mpr (hclosed.entered n hn)
      exact ⟨args, hargs, hclosed.resolved h (lastEntity_mem hargs).1⟩
    · obtain ⟨d, hd, ⟨n, hn, hfind⟩ | ⟨n, hn, i, hfind, rfl⟩⟩ := allFound_parse h p hp
      · obtain ⟨q, hq, hdecl⟩ := htypes d hd n hn
        obtain rfl := Option.some.inj (hq.symm.trans hfind)
        exact hdecl
      · obtain ⟨j, hj, hdecl⟩ := hentities d hd n hn
        obtain rfl := Option.some.inj (hj.symm.trans hfind)
        exact hdecl

/-- Two entities, one of which is the supertype of the other and the type of its attribute. -/
def kinText : Str :=
  "SCHEMA S;TYPE IfcT = REAL;END_TYPE;ENTITY IfcA SUPERTYPE OF (ONEOF(IfcB));a:IfcT;".toList ++
    "END_ENTITY;ENTITY IfcB SUBTYPE OF (IfcA);b:IfcA;END_ENTITY;END_SCHEMA;".toList

/-- The declarations of `kinText`. -/
def kinDeclarations : List Declaration :=
  let named (n : String) : TypeArgs :=
    { newTypeNameArgs none .derived with refTypeName := some n.toList }
  [.type (newTypeNameArgs (some "IfcT".toList) .real),
    .entity ⟨"IfcA".toList, false, [⟨"a".toList, named "IfcT", false⟩], ["IfcB".toList], none⟩,
    .entity ⟨"IfcB".toList, false, [⟨"b".toList, named "IfcA", false⟩], [], some "IfcA".toList⟩]

theorem schema_kinText : schema (tokens kinText) = (kinDeclarations, true) := by decide +kernel

theorem declared_kinText : declared kinText =
    [(.type, "IfcT".toList), (.entity, "IfcA".toList), (.entity, "IfcB".toList)] := by
  rw [declared, schema_kinText]
  rfl

/-- The first pass enters the names declared. -/
theorem registrations_kinText : (registrations (words kinText)).1 = declared kinText := by
  rw [declared_kinText]
  decide +kernel

/-- Every name that is used is declared. -/
theorem closed_kinText : Closed kinText := by
  constructor
  · rw [registrations_kinText, declared_kinText]
    decide
  · rw [registrations_kinText, declared_kinText]
    decide
  · simp only [Usable, schema_kinText, registrations_kinText, declared_kinText]
    decide +kernel
  · rw [schema_kinText, declared_kinText]
    decide +kernel

/-- Their links lead to the declared records. -/
theorem references_kin : ∃ c, parse kinText = .ok (c, 0) ∧ Referential kinText c := by
  have hzero : (parsedSchema kinText).toOption.map Prod.snd = some 0 := by decide +kernel
  cases hparsed : parsedSchema kinText with
  | error e =>
      rw [hparsed] at hzero
      cases hzero
  | ok r =>
      obtain ⟨s, code⟩ := r
      rw [hparsed] at hzero
      obtain rfl : code = 0 := Option.some.inj hzero
      obtain ⟨c, hc, -⟩ := parsedSchema_ok hparsed
      exact ⟨c, hc, (references_iff hc).mpr closed_kinText⟩

/-- A type that is derived from one of a comment. -/
def commentText : Str := "SCHEMA S;(* TYPE IfcX *) TYPE IfcY = IfcX;END_TYPE;END_SCHEMA;".toList

/-- The tables of this text. -/
def commentSchema : Schema :=
  ⟨[{ newType with name := "IfcX".toList },
    { newType with name := "IfcY".toList, type := .derived, refType := some (.type 0) }], []⟩

/-- An attribute of a type that is nowhere declared has a null link.  A type derived from one that is
nowhere declared, but is in a comment, has a link to a record that no declaration fills. -/
theorem not_always_references :
    (∃ c, parse (siteText "IfcB") = .ok (c, 0) ∧ ¬ Referential (siteText "IfcB") c) ∧
      ∃ c, parse commentText = .ok (c, 0) ∧ ¬ Referential commentText c := by
  constructor
  · obtain ⟨c, hc, hschema⟩ := parsedSchema_ok
      (show parsedSchema (siteText "IfcB") = .ok (siteSchema none, 0) by decide +kernel)
    refine ⟨c, hc, fun hrefs => ?_⟩
    have hs := hrefs.sound
    rw [hschema] at hs
    obtain ⟨l, hl, ha⟩ := (hs.entities _ (List.mem_singleton_self _)).attrs
    obtain rfl := Option.some.inj hl
    obtain ⟨d, hd, -⟩ := (ha _ (List.mem_singleton_self _)).refType (.inl rfl)
    cases hd
  · obtain ⟨c, hc, hschema⟩ := parsedSchema_ok
      (show parsedSchema commentText = .ok (commentSchema, 0) by decide +kernel)
    refine ⟨c, hc, fun hrefs => ?_⟩
    have hdeclared : declared commentText = [(.type, "IfcY".toList)] := by decide +kernel
    have hlink : Desc.type 0 ∈ c.schema.links := by
      rw [hschema]
      decide
    obtain ⟨n, hn, -, hname⟩ := hrefs.links _ hlink
    rw [hdeclared, List.mem_singleton] at hn
    rw [hschema, (Prod.mk.inj hn).2] at hname
    exact absurd hname (by decide)

end VulcanDB.Express
