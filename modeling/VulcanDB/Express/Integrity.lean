import VulcanDB.Express.Records

/-!
# EXPRESS — Links between records

Names are looked up when a declaration is stored, and not every search that fails stops the run.

* `Schema.Sound`: every link of the records is to a record of the tables.
* `TypesSound.declare`: the links of the types always are.
* `links_set_iff`: those of the entities are, where every entity that is entered is declared, with
  names that are entered.
-/

namespace VulcanDB.Express

open Cxx Steps

/-! ### Links -/

/-- The pointer is to a record of the table. -/
def Desc.Valid (s : Schema) : Desc → Prop
  | .type i => i < s.types.length
  | .entity i => i < s.entities.length

/-- The links of a type are to records. -/
structure TypeRecord.Sound (s : Schema) (t : TypeRecord) : Prop where
  refType : t.type = .reference ∨ t.type = .derived → ∃ d, t.refType = some d ∧ d.Valid s
  selectList : ∀ j < t.selectNum, ∃ d, t.selectList[j]? = some d ∧ d.Valid s

/-- So is the link of an attribute. -/
def AttrType.Sound (s : Schema) : AttrType → Prop
  | .shared i => i < s.types.length
  | .own t => t.Sound s

/-- The entity has been declared, with links to records of the tables. -/
structure EntityRecord.Sound (s : Schema) (e : EntityRecord) : Prop where
  attrs : ∃ l, e.attrs = some l ∧ ∀ a ∈ l, a.type.Sound s
  subtypes : ∃ l, e.subtypes = some l ∧ ∀ j ∈ l, ∃ p, j = some p ∧ p < s.entities.length
  supertype : ∀ p, e.supertype = some p → p < s.entities.length

/-- So are all links of the tables. -/
structure Schema.Sound (s : Schema) : Prop where
  types : ∀ t ∈ s.types, t.Sound s
  entities : ∀ e ∈ s.entities, e.Sound s

/-! ### Links in tables of the same size -/

section SameSize

variable {s s' : Schema}

/-- Tables of the same sizes. -/
def SameSize (s s' : Schema) : Prop :=
  s.types.length = s'.types.length ∧ s.entities.length = s'.entities.length

theorem SameSize.symm (h : SameSize s s') : SameSize s' s := ⟨h.1.symm, h.2.symm⟩

/-- A pointer into the one is one into the other. -/
theorem SameSize.valid (h : SameSize s s') {d : Desc} (hd : d.Valid s) : d.Valid s' := by
  cases d with
  | type i => exact hd.trans_eq h.1
  | entity i => exact hd.trans_eq h.2

theorem SameSize.typeSound (h : SameSize s s') {t : TypeRecord} (ht : t.Sound s) : t.Sound s' := by
  refine ⟨fun hr => ?_, fun j hj => ?_⟩
  · obtain ⟨d, hd, hvalid⟩ := ht.refType hr
    exact ⟨d, hd, h.valid hvalid⟩
  · obtain ⟨d, hd, hvalid⟩ := ht.selectList j hj
    exact ⟨d, hd, h.valid hvalid⟩

theorem SameSize.attrSound (h : SameSize s s') {p : AttrType} (hp : p.Sound s) : p.Sound s' := by
  cases p with
  | shared i => exact hp.trans_eq h.1
  | own t => exact h.typeSound hp

theorem SameSize.entitySound (h : SameSize s s') {e : EntityRecord} (he : e.Sound s) :
    e.Sound s' := by
  obtain ⟨l, hl, hattrs⟩ := he.attrs
  obtain ⟨k, hk, hsubtypes⟩ := he.subtypes
  refine ⟨⟨l, hl, fun a ha => h.attrSound (hattrs a ha)⟩, ⟨k, hk, fun j hj => ?_⟩,
    fun p hp => (he.supertype p hp).trans_eq h.2⟩
  obtain ⟨p, hp, hlt⟩ := hsubtypes j hj
  exact ⟨p, hp, hlt.trans_eq h.2⟩

/-- The tables have the sizes that the first pass gave them. -/
theorem Context.Holds.sameSize {regs : List (Kind × Str)} {c c' : Context} (h : c.Holds regs)
    (h' : c'.Holds regs) : SameSize c.schema c'.schema := by
  have ht := congrArg List.length (h.types.trans h'.types.symm)
  have he := congrArg List.length (h.entities.trans h'.entities.symm)
  simp only [List.length_map] at ht he
  exact ⟨ht, he⟩

end SameSize

/-! ### Types -/

/-- What is found for a name is in the tables. -/
theorem resolve_valid {s : Schema} {name : Str} {d : Desc} (h : resolve (some s) name = .ok d) :
    d.Valid s := by
  simp only [resolve, findDesc] at h
  split at h
  · rename_i d' hd
    obtain rfl := Except.ok.inj h
    split at hd
    · rename_i i hi
      obtain rfl := Option.some.inj hd
      exact findTypeByName_lt hi
    · obtain ⟨i, hi, rfl⟩ := Option.map_eq_some_iff.mp hd
      exact findEntityByName_lt hi
  · cases h

theorem mapM_resolve {schema : Option Schema} {P : Desc → Prop}
    (hres : ∀ name d, resolve schema name = .ok d → P d) {names : List Str} {l : List Desc}
    (h : names.mapM (resolve schema) = .ok l) : l.length = names.length ∧ ∀ d ∈ l, P d := by
  induction names generalizing l with
  | nil =>
      obtain rfl := Except.ok.inj h
      exact ⟨rfl, by simp⟩
  | cons n names ih =>
      rw [List.mapM_cons] at h
      simp only [bind_eq_ok, pure_eq_ok] at h
      obtain ⟨d, hd, ds, hds, rfl⟩ := h
      obtain ⟨hlen, hvalid⟩ := ih hds
      exact ⟨by simp [hlen], List.forall_mem_cons.mpr ⟨hres n d hd, hvalid⟩⟩

/-- **The links of a type are to records of the tables,** where its searches find such records. -/
theorem assignTypeArgs_sound {s : Schema} {schema : Option Schema} {t t' : TypeRecord}
    {args : TypeArgs} (hwf : args.Wf) (hres : ∀ name d, resolve schema name = .ok d → d.Valid s)
    (h : assignTypeArgs schema t args = .ok t') : t'.Sound s := by
  have hlist : args.type ≠ .select → args.selectList.length = 0 := fun hne =>
    List.length_eq_zero_iff.mpr (by_contra fun hnil => hne (hwf.select hnil))
  unfold assignTypeArgs at h
  split at h
  · rename_i htype
    split at h
    · cases h
    · simp only [bind_eq_ok, pure_eq_ok] at h
      obtain ⟨d, hd, rfl⟩ := h
      refine ⟨fun _ => ⟨d, rfl, hres _ _ hd⟩, fun j hj => ?_⟩
      have hlen := hlist (by simp [htype])
      exact absurd (hlen ▸ hj) (Nat.not_lt_zero j)
  · rename_i htype
    obtain rfl := pure_eq_ok.mp h
    refine ⟨fun ht => by simp [htype] at ht, fun j hj => ?_⟩
    have hlen := hlist (by simp [htype])
    exact absurd (hlen ▸ hj) (Nat.not_lt_zero j)
  · rename_i htype
    simp only [bind_eq_ok, pure_eq_ok] at h
    obtain ⟨l, hl, rfl⟩ := h
    obtain ⟨hlen, hvalid⟩ := mapM_resolve hres hl
    refine ⟨fun ht => by simp [htype] at ht, fun j hj => ?_⟩
    have hlt : j < l.length := hj.trans_eq hlen.symm
    exact ⟨l[j], List.getElem?_eq_getElem hlt, hvalid _ (List.getElem_mem hlt)⟩
  · rename_i hderived henum hselect
    obtain rfl := pure_eq_ok.mp h
    refine ⟨fun ht => ?_, fun j hj => ?_⟩
    · rcases ht with ht | ht
      · exact absurd ht hwf.reference
      · exact absurd ht hderived
    · exact absurd (hlist hselect ▸ hj) (Nat.not_lt_zero j)

/-- The link of an attribute is sound exactly when its name is found. -/
theorem attrType_sound {s : Schema} {args : TypeArgs} {p : AttrType} (hwf : args.Wf)
    (h : attrType s args = .ok p) : p.Sound s ↔ ∀ n, args.refTypeName = some n →
      (findTypeByName s n).isSome ∨ (findEntityByName s n).isSome := by
  unfold attrType at h
  cases hr : args.refTypeName with
  | none =>
      rw [hr] at h
      simp only [bind_eq_ok, pure_eq_ok] at h
      obtain ⟨t, ht, rfl⟩ := h
      have hsound : t.Sound s :=
        assignTypeArgs_sound hwf (fun _ _ hres => by cases hres) ht
      exact ⟨fun _ n hn => absurd hn (by simp), fun _ => ⟨hsound.refType, hsound.selectList⟩⟩
  | some name =>
      rw [hr] at h
      simp only at h
      simp only [Option.some.injEq, forall_eq']
      cases hf : findTypeByName s name with
      | some i =>
          rw [hf] at h
          obtain rfl := pure_eq_ok.mp h
          exact ⟨fun _ => .inl rfl, fun _ => findTypeByName_lt hf⟩
      | none =>
          simp only [hf] at h
          obtain rfl := pure_eq_ok.mp h
          cases he : findEntityByName s name with
          | none =>
              refine ⟨fun hsound => ?_, fun hk => by simp at hk⟩
              obtain ⟨d, hd, -⟩ := hsound.refType (.inl rfl)
              cases hd
          | some i =>
              refine ⟨fun _ => .inr rfl,
                fun _ => ⟨fun _ => ⟨.entity i, rfl, findEntityByName_lt he⟩, ?_⟩⟩
              exact fun j hj => absurd hj (Nat.not_lt_zero j)

/-! ### Entities -/

/-- A name that is in one of the tables. -/
def Known (regs : List (Kind × Str)) (name : Str) : Prop :=
  (Kind.type, name) ∈ regs ∨ (Kind.entity, name) ∈ regs

/-- A type is found exactly when it was entered. -/
theorem Context.Holds.findType {regs : List (Kind × Str)} {c : Context} (h : c.Holds regs)
    {name : Str} : (findTypeByName c.schema name).isSome ↔ (Kind.type, name) ∈ regs := by
  rw [findTypeByName_isSome, h.types, List.mem_map_of_injective (Option.some_injective Str),
    mem_namesOf]

theorem Context.Holds.findEntity {regs : List (Kind × Str)} {c : Context} (h : c.Holds regs)
    {name : Str} : (findEntityByName c.schema name).isSome ↔ (Kind.entity, name) ∈ regs := by
  rw [findEntityByName_isSome, h.entities, mem_namesOf]

/-- Every name in the declaration is in the table that it is searched for in. -/
structure Resolved (regs : List (Kind × Str)) (args : EntityArgs) : Prop where
  subtypes : ∀ n ∈ args.subtypeNames, (Kind.entity, n) ∈ regs
  attrs : ∀ a ∈ args.attrs, ∀ n, a.type.refTypeName = some n → Known regs n

/-- The last declaration of an entity. -/
def lastEntity (ds : List Declaration) (name : Str) : Option EntityArgs :=
  ds.reverse.findSome? fun d =>
    match d with
    | .type _ => none
    | .entity args => if args.entityName = name then some args else none

/-- The attribute that is stored has the type of the one declared. -/
theorem assignAttr_type {s s' : Schema} {a : AttrArgs} {attr : Attr}
    (h : assignAttr s a = .ok (s', attr)) : attrType s a.type = .ok attr.type := by
  simp only [assignAttr, bind_eq_ok] at h
  obtain ⟨p, hp, h⟩ := h
  cases p <;> obtain ⟨-, rfl⟩ := Prod.mk.inj (pure_eq_ok.mp h) <;> exact hp

/-- The links of the attributes are sound exactly when their names are found. -/
theorem assignAttrs_sound {s s' : Schema} {as : List AttrArgs} {done out : List Attr}
    (hwf : ∀ a ∈ as, a.type.Wf) (h : assignAttrs s as done = .ok (s', out)) :
    (∀ a ∈ out, a.type.Sound s) ↔ (∀ a ∈ done, a.type.Sound s) ∧
      ∀ a ∈ as, ∀ n, a.type.refTypeName = some n →
        (findTypeByName s n).isSome ∨ (findEntityByName s n).isSome := by
  induction as generalizing s done with
  | nil =>
      obtain ⟨-, rfl⟩ := Prod.mk.inj (Except.ok.inj h)
      simp
  | cons a as ih =>
      obtain ⟨hwfa, hwf⟩ := List.forall_mem_cons.mp hwf
      simp only [assignAttrs, bind_eq_ok, require_eq_ok, Prod.exists] at h
      obtain ⟨s₁, attr, ha, -, -, h⟩ := h
      obtain ⟨hent, hnames, -⟩ := assignAttr_ok ha
      have hsize : SameSize s s₁ := by
        have hlen := congrArg List.length hnames
        simp only [List.length_map] at hlen
        exact ⟨hlen.symm, congrArg List.length hent.symm⟩
      have hattr := attrType_sound hwfa (assignAttr_type ha)
      have hsame : ∀ l : List Attr, (∀ a ∈ l, a.type.Sound s₁) ↔ ∀ a ∈ l, a.type.Sound s :=
        fun l => ⟨fun h a ha => hsize.symm.attrSound (h a ha),
          fun h a ha => hsize.attrSound (h a ha)⟩
      have hrest := ih hwf h
      simp only [hsame, findTypeByName_congr hnames,
        findEntityByName_congr (congrArg (List.map (·.name)) hent)] at hrest
      rw [hrest, List.forall_mem_append, List.forall_mem_singleton, List.forall_mem_cons, hattr,
        and_assoc]

theorem assignSupertype_lt {s : Schema} {old p : Option ℕ} {name : Option Str}
    (h : assignSupertype s old name = .ok p) (hold : ∀ i, old = some i → i < s.entities.length) :
    ∀ i, p = some i → i < s.entities.length := by
  unfold assignSupertype at h
  split at h
  · obtain rfl := Except.ok.inj h
    exact hold
  · split at h
    · rename_i i hi
      obtain rfl := Except.ok.inj h
      rintro _ ⟨⟩
      exact findEntityByName_lt hi
    · cases h

/-- **An entity is sound where its declaration is resolved.** -/
theorem assignEntityArgs_sound {regs : List (Kind × Str)} {c : Context} {s' : Schema} {i : ℕ}
    {args : EntityArgs} {e : EntityRecord} (hc : c.Holds regs) (hwf : ∀ a ∈ args.attrs, a.type.Wf)
    (he : c.schema.entities[i]? = some e)
    (hsuper : ∀ p, e.supertype = some p → p < c.schema.entities.length)
    (h : assignEntityArgs c.schema i args = .ok s') :
    ∃ e', s'.entities[i]? = some e' ∧ e'.name = e.name ∧
      (∀ p, e'.supertype = some p → p < c.schema.entities.length) ∧
      (e'.Sound c.schema ↔ Resolved regs args) := by
  obtain ⟨e₀, supertype, attrs, he₀, -, -, hsupertype, s₁, hattrs, rfl⟩ := assignEntityArgs_ok h
  obtain rfl := Option.some.inj (he.symm.trans he₀)
  have hlt := assignSupertype_lt hsupertype hsuper
  have hsound := assignAttrs_sound (fun a ha => hwf a (List.mem_reverse.mp ha)) hattrs
  simp only [hc.findType, hc.findEntity, List.mem_reverse, List.not_mem_nil, false_implies,
    implies_true, true_and] at hsound
  refine ⟨_, List.getElem?_set_self (List.getElem?_eq_some_iff.mp he).1, rfl, hlt, ?_, ?_⟩
  · rintro ⟨⟨l, hl, hl'⟩, ⟨k, hk, hk'⟩, -⟩
    obtain rfl := Option.some.inj hl
    obtain rfl := Option.some.inj hk
    refine ⟨fun n hn => ?_, hsound.mp hl'⟩
    obtain ⟨p, hp, -⟩ := hk' _ (List.mem_map_of_mem hn)
    exact hc.findEntity.mp (by rw [hp]; rfl)
  · intro hres
    refine ⟨⟨attrs, rfl, hsound.mpr hres.attrs⟩, ⟨_, rfl, fun j hj => ?_⟩, hlt⟩
    obtain ⟨n, hn, rfl⟩ := List.mem_map.mp hj
    obtain ⟨p, hp⟩ := Option.isSome_iff_exists.mp (hc.findEntity.mpr (hres.subtypes n hn))
    exact ⟨p, hp, findEntityByName_lt hp⟩

/-! ### After the declarations -/

theorem lastEntity_type (ds : List Declaration) (args : TypeArgs) (name : Str) :
    lastEntity (ds ++ [.type args]) name = lastEntity ds name := by
  simp [lastEntity]

theorem lastEntity_entity (ds : List Declaration) (args : EntityArgs) (name : Str) :
    lastEntity (ds ++ [.entity args]) name =
      if args.entityName = name then some args else lastEntity ds name := by
  by_cases h : args.entityName = name <;> simp [lastEntity, h]

/-- The declaration that the record `i` of an entity holds. -/
def holder (index : StdMap Str ℕ) (done : List Declaration) (i : ℕ) (name : Str) :
    Option EntityArgs :=
  if index.find name = some i then lastEntity done name else none

/-- The record of an entity gets the last declaration that is stored in it. -/
theorem holder_entity {index : StdMap Str ℕ} {args : EntityArgs} {i : ℕ}
    (h : index.find args.entityName = some i) (done : List Declaration) (k : ℕ) (name : Str) :
    holder index (done ++ [.entity args]) k name =
      if k = i ∧ args.entityName = name then some args else holder index done k name := by
  rw [holder, lastEntity_entity, holder]
  by_cases hname : args.entityName = name
  · subst hname
    by_cases hki : k = i
    · simp [hki, h]
    · simp [hki, h, eq_comm (a := i)]
  · simp [hname]

/-- After the declarations in `done`. -/
structure Links (regs : List (Kind × Str)) (done : List Declaration) (c : Context) : Prop where
  holds : c.Holds regs
  types : ∀ t ∈ c.schema.types, t.Sound c.schema
  supertype : ∀ e ∈ c.schema.entities, ∀ p, e.supertype = some p → p < c.schema.entities.length
  held : ∀ i e args, c.schema.entities[i]? = some e →
    holder c.entityIdIndex done i e.name = some args → (e.Sound c.schema ↔ Resolved regs args)
  unset : ∀ i e, c.schema.entities[i]? = some e →
    holder c.entityIdIndex done i e.name = none → e.subtypes = none

/-- The first pass makes new records. -/
theorem preprocess_new {text : Str} {c : Context} (h : preprocess .new text = .ok c) :
    (∀ t ∈ c.schema.types, ∃ n, t = { newType with name := n }) ∧
      ∀ e ∈ c.schema.entities, ∃ n, e = newEntity n := by
  simp only [preprocess_eq, bind_eq_ok, require_eq_ok, pure_eq_ok] at h
  obtain ⟨c', hregs, -, -, rfl⟩ := h
  refine foldlM_invariant (P := fun _ c =>
      (∀ t ∈ c.schema.types, ∃ n, t = { newType with name := n }) ∧
        ∀ e ∈ c.schema.entities, ∃ n, e = newEntity n)
    hregs ⟨by simp [Context.new, newSchema], by simp [Context.new, newSchema]⟩
    fun done r rest c c' _ hP hr => ?_
  obtain ⟨k, name⟩ := r
  cases k with
  | type =>
      simp only [Context.register, bind_eq_ok, pure_eq_ok, addTypeToSchema_ok] at hr
      obtain ⟨s, ⟨-, rfl⟩, rfl⟩ := hr
      exact ⟨List.forall_mem_append.mpr ⟨hP.1, List.forall_mem_singleton.mpr ⟨_, rfl⟩⟩, hP.2⟩
  | entity =>
      simp only [Context.register, bind_eq_ok, pure_eq_ok, addEntityToSchema_ok] at hr
      obtain ⟨s, ⟨-, rfl⟩, rfl⟩ := hr
      exact ⟨hP.1, List.forall_mem_append.mpr ⟨hP.2, List.forall_mem_singleton.mpr ⟨_, rfl⟩⟩⟩

/-- **The links before the second pass.** -/
theorem Links.preprocess {text : Str} {c : Context} (h : preprocess .new text = .ok c) :
    Links (registrations (words text)).1 [] c := by
  have hnew := preprocess_new h
  refine ⟨.preprocess h, fun t ht => ?_, fun e he p hp => ?_, fun i e args he hargs => ?_,
    fun i e he _ => ?_⟩
  · obtain ⟨n, rfl⟩ := hnew.1 t ht
    exact ⟨fun htype => by simp [newType] at htype, fun j hj => absurd hj (Nat.not_lt_zero j)⟩
  · obtain ⟨n, rfl⟩ := hnew.2 e he
    cases hp
  · simp [holder, lastEntity] at hargs
  · obtain ⟨n, rfl⟩ := hnew.2 e (List.mem_of_getElem? he)
    rfl

/-- **A type keeps them.** -/
theorem Links.initType {regs : List (Kind × Str)} {done : List Declaration} {args : TypeArgs}
    {c c' : Context} (hwf : args.Wf) (h : Links regs done c) (hd : c.declare (.type args) = .ok c') :
    Links regs (done ++ [.type args]) c' := by
  have hholds := h.holds.declare hd
  have hsize := h.holds.sameSize hholds
  obtain ⟨name, i, t, t', -, -, ht, hassign, rfl⟩ := initType_ok hd
  refine ⟨hholds, fun x hx => ?_, fun e he p hp => h.supertype e he p hp,
    fun k e args' he hargs => ?_, fun k e he hnone => ?_⟩
  · rcases List.mem_or_eq_of_mem_set hx with hx | rfl
    · exact hsize.typeSound (h.types x hx)
    · exact hsize.typeSound (assignTypeArgs_sound hwf (fun _ _ => resolve_valid) hassign)
  · rw [holder, lastEntity_type] at hargs
    rw [← h.held k e args' he hargs]
    exact ⟨hsize.symm.entitySound, hsize.entitySound⟩
  · rw [holder, lastEntity_type] at hnone
    exact h.unset k e he hnone

theorem TypeRecord.Sound.flagged {s : Schema} {t : TypeRecord} (h : t.Sound s) (f : Option Bool) :
    (t.flagged f).Sound s := by
  cases f with
  | none => exact h
  | some b => exact ⟨h.refType, h.selectList⟩

/-- **An entity keeps them**, with the links of its own record. -/
theorem Links.initEntity {regs : List (Kind × Str)} {done : List Declaration} {args : EntityArgs}
    {c c' : Context} (hwf : ∀ a ∈ args.attrs, a.type.Wf) (h : Links regs done c)
    (hd : c.declare (.entity args) = .ok c') : Links regs (done ++ [.entity args]) c' := by
  have hholds := h.holds.declare hd
  have hsize := h.holds.sameSize hholds
  obtain ⟨i, e, s', hi, he, hname, hassign, rfl⟩ := initEntity_ok hd
  -- the name is in the index already, at the record that is written
  have hfind : c.entityIdIndex.find args.entityName = some i := by
    have hmem : args.entityName ∈ c.schema.entities.map (·.name) :=
      hname ▸ List.mem_map_of_mem (List.mem_of_getElem? he)
    obtain ⟨j, -, hj, -⟩ := h.holds.record hmem
    rw [StdMap.find_insertNew, if_pos rfl, hj] at hi
    rw [hj]
    exact hi
  have hindex : c.entityIdIndex.insertNew args.entityName 0 = c.entityIdIndex := by
    rw [StdMap.insertNew, hfind]
    rfl
  obtain ⟨hother, -, htypes⟩ := types_assignEntityArgs hassign
  have hsuper := h.supertype e (List.mem_of_getElem? he)
  obtain ⟨e', he', hname', hsuper', hsound⟩ := assignEntityArgs_sound h.holds hwf he hsuper hassign
  refine ⟨hholds, fun t ht => ?_, fun x hx p hp => ?_, fun k x args' hx hargs => ?_,
    fun k x hx hnone => ?_⟩
  · obtain ⟨j, hj⟩ := List.mem_iff_getElem?.mp ht
    rw [htypes, Option.map_eq_some_iff] at hj
    obtain ⟨t₀, ht₀, rfl⟩ := hj
    exact hsize.typeSound ((h.types t₀ (List.mem_of_getElem? ht₀)).flagged _)
  · obtain ⟨k, hk⟩ := List.mem_iff_getElem?.mp hx
    by_cases hki : k = i
    · subst hki
      obtain rfl := Option.some.inj (he'.symm.trans hk)
      exact (hsuper' p hp).trans_eq hsize.2
    · rw [hother k hki] at hk
      exact (h.supertype x (List.mem_of_getElem? hk) p hp).trans_eq hsize.2
  · rw [hindex, holder_entity hfind] at hargs
    by_cases hki : k = i
    · subst hki
      obtain rfl := Option.some.inj (he'.symm.trans hx)
      rw [if_pos ⟨rfl, (hname'.trans hname).symm⟩] at hargs
      obtain rfl := Option.some.inj hargs
      exact ⟨fun hs => hsound.mp (hsize.symm.entitySound hs),
        fun hr => hsize.entitySound (hsound.mpr hr)⟩
    · rw [if_neg (fun hk => hki hk.1)] at hargs
      rw [hother k hki] at hx
      rw [← h.held k x args' hx hargs]
      exact ⟨hsize.symm.entitySound, hsize.entitySound⟩
  · rw [hindex, holder_entity hfind] at hnone
    by_cases hki : k = i
    · subst hki
      obtain rfl := Option.some.inj (he'.symm.trans hx)
      rw [if_pos ⟨rfl, (hname'.trans hname).symm⟩] at hnone
      cases hnone
    · rw [if_neg (fun hk => hki hk.1)] at hnone
      rw [hother k hki] at hx
      exact h.unset k x hx hnone

/-- **The links after the second pass**, by induction on the declarations. -/
theorem Reaches.links {text : Str} {c : Context} (h : Reaches text (schema (tokens text)).1 c) :
    Links (registrations (words text)).1 (schema (tokens text)).1 c := by
  obtain ⟨c₀, h₀, hdone⟩ := h
  refine foldlM_invariant hdone (.preprocess h₀) fun done d rest c c' hds hP hd => ?_
  have hwf := schema_wf (tokens text) d (by simp [hds])
  cases d with
  | type args => exact hP.initType hwf hd
  | entity args => exact hP.initEntity hwf hd

/-- **The links of an accepted schema** are all to records of the tables, if and only if no entity
is entered twice, and each that is entered has a declaration, the last of which is resolved. -/
theorem links_set_iff {text : Str} {c : Context} (h : parse text = .ok (c, 0)) :
    c.schema.Sound ↔ (namesOf .entity (registrations (words text)).1).Nodup ∧
      ∀ n ∈ namesOf .entity (registrations (words text)).1,
        ∃ args, lastEntity (schema (tokens text)).1 n = some args ∧
          Resolved (registrations (words text)).1 args := by
  have hlinks := (parse_ok.mp h).1.links
  have hnames := hlinks.holds.entities
  have hget : ∀ {i : ℕ} {e : EntityRecord}, c.schema.entities[i]? = some e →
      (namesOf .entity (registrations (words text)).1)[i]? = some e.name := fun he => by
    rw [← hnames, List.getElem?_map, he]
    rfl
  constructor
  · intro hsound
    -- a sound record is the one that its name is indexed at, so no name comes twice
    have hheld : ∀ i e, c.schema.entities[i]? = some e → c.entityIdIndex.find e.name = some i ∧
        ∃ args, lastEntity (schema (tokens text)).1 e.name = some args ∧
          Resolved (registrations (words text)).1 args := by
      intro i e he
      have hs := hsound.entities e (List.mem_of_getElem? he)
      cases hh : holder c.entityIdIndex (schema (tokens text)).1 i e.name with
      | none =>
          obtain ⟨l, hl, -⟩ := hs.subtypes
          rw [hlinks.unset i e he hh] at hl
          cases hl
      | some args =>
          have hres := (hlinks.held i e args he hh).mp hs
          rw [holder] at hh
          split at hh
          · exact ⟨‹_›, args, hh, hres⟩
          · cases hh
    refine ⟨?_, fun n hn => ?_⟩
    · rw [← hnames, List.nodup_iff_injective_getElem]
      rintro ⟨i, hi⟩ ⟨j, hj⟩ hij
      simp only [List.getElem_map, List.length_map] at hij hi hj
      have hi' := (hheld i _ (List.getElem?_eq_getElem hi)).1
      have hj' := (hheld j _ (List.getElem?_eq_getElem hj)).1
      rw [hij, hj'] at hi'
      exact Fin.ext (Option.some.inj hi').symm
    · rw [← hnames, List.mem_map] at hn
      obtain ⟨e, he, rfl⟩ := hn
      obtain ⟨i, hi⟩ := List.mem_iff_getElem?.mp he
      exact (hheld i e hi).2
  · rintro ⟨hnodup, hall⟩
    refine ⟨hlinks.types, fun e he => ?_⟩
    obtain ⟨i, hi⟩ := List.mem_iff_getElem?.mp he
    obtain ⟨args, hlast, hres⟩ := hall e.name (List.mem_of_getElem? (hget hi))
    obtain ⟨j, e', hj, he', hname⟩ := hlinks.holds.record (List.mem_map_of_mem he)
    -- without a name that comes twice the index points to this record
    have hij : j = i := by
      have hj' := hget he'
      rw [hname, ← hget hi] at hj'
      exact (List.getElem?_inj (List.getElem?_eq_some_iff.mp (hj'.trans (hget hi))).1 hnodup).mp hj'
    subst hij
    exact (hlinks.held j e args hi (by rw [holder, if_pos hj, hlast])).mpr hres

/-- An entity with one attribute, of the type of this name. -/
def siteText (name : String) : Str :=
  "SCHEMA S;ENTITY IfcA ;a:".toList ++ name.toList ++ ";END_ENTITY;END_SCHEMA;".toList

/-- The attribute is of an entity, if there is one of its name. -/
def siteSchema (p : Option ℕ) : Schema :=
  ⟨[], [⟨"IfcA".toList, false,
    some [⟨"a".toList, .own { newType with type := .reference, refType := p.map .entity }, false⟩],
    some [], none⟩]⟩

end VulcanDB.Express
