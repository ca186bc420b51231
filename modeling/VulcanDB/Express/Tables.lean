import VulcanDB.Express.Records

/-!
# EXPRESS — The sizes of the tables

Names of types are counted against the size of the table of entities, and so are the attributes of
an entity.

* `Reaches.within`: what is stored is within the tables.
* `parse_within_iff`: no index past the end of a table is written where there are no more types
  and attributes than their tables hold, or the run stops before it comes to them.
-/

namespace VulcanDB.Express

open Cxx Steps

/-! ### What is stored -/

/-- Every table of the schema is within its size. -/
structure Within (s : Schema) : Prop where
  types : s.types.length ≤ maxTypeNum
  entities : s.entities.length ≤ maxEntityNum
  attrs : ∀ e ∈ s.entities, ∀ l, e.attrs = some l → l.length ≤ maxAttrNum
  subtypes : ∀ e ∈ s.entities, ∀ l, e.subtypes = some l → l.length ≤ maxSubtypeNum

/-- The attributes that were assigned fit their table. -/
theorem assignAttrs_length {s s' : Schema} {as : List AttrArgs} {done out : List Attr}
    (h : assignAttrs s as done = .ok (s', out)) (hdone : done.length ≤ maxAttrNum) :
    out.length ≤ maxAttrNum := by
  induction as generalizing s done with
  | nil =>
      obtain ⟨-, rfl⟩ := Prod.mk.inj (Except.ok.inj h)
      exact hdone
  | cons a as ih =>
      simp only [assignAttrs, bind_eq_ok, require_eq_ok, Prod.exists] at h
      obtain ⟨s₁, attr, -, -, hroom, h⟩ := h
      exact ih h (by simpa using hroom)

theorem Within.register {c c' : Context} {r : Kind × Str} (h : Within c.schema)
    (hr : c.register r = .ok c') : Within c'.schema := by
  obtain ⟨k, name⟩ := r
  cases k with
  | type =>
      simp only [Context.register, bind_eq_ok, pure_eq_ok, addTypeToSchema_ok] at hr
      obtain ⟨s, ⟨hroom, rfl⟩, rfl⟩ := hr
      exact ⟨by simpa using hroom, h.entities, h.attrs, h.subtypes⟩
  | entity =>
      simp only [Context.register, bind_eq_ok, pure_eq_ok, addEntityToSchema_ok] at hr
      obtain ⟨s, ⟨hroom, rfl⟩, rfl⟩ := hr
      refine ⟨h.types, by simpa using hroom, fun e he l hl => ?_, fun e he l hl => ?_⟩
      · rcases List.mem_append.mp he with he | he
        · exact h.attrs e he l hl
        · rw [List.mem_singleton.mp he] at hl
          cases hl
      · rcases List.mem_append.mp he with he | he
        · exact h.subtypes e he l hl
        · rw [List.mem_singleton.mp he] at hl
          cases hl

theorem Within.declare {c c' : Context} {d : Declaration} (h : Within c.schema)
    (hd : c.declare d = .ok c') : Within c'.schema := by
  cases d with
  | type args =>
      obtain ⟨name, i, t, t', -, -, -, -, rfl⟩ := initType_ok hd
      exact ⟨by simpa using h.types, h.entities, h.attrs, h.subtypes⟩
  | entity args =>
      obtain ⟨i, e, s', -, -, -, hassign, rfl⟩ := initEntity_ok hd
      have htypes := congrArg List.length (types_assignEntityArgs hassign).2.1
      obtain ⟨e', supertype, attrs, -, -, hsubtypes, -, s₁, hattrs, rfl⟩ :=
        assignEntityArgs_ok hassign
      have hlen := assignAttrs_length hattrs (Nat.zero_le _)
      simp only [List.length_map] at htypes
      refine ⟨htypes.trans_le h.types, by simpa using h.entities, fun x hx l hl => ?_,
        fun x hx l hl => ?_⟩
      · rcases List.mem_or_eq_of_mem_set hx with hx | rfl
        · exact h.attrs x hx l hl
        · exact Option.some.inj hl ▸ hlen
      · rcases List.mem_or_eq_of_mem_set hx with hx | rfl
        · exact h.subtypes x hx l hl
        · rw [← Option.some.inj hl, List.length_map]
          exact hsubtypes

/-- **What is stored is within the tables,** after any of the declarations. -/
theorem Reaches.within {text : Str} {done : List Declaration} {c : Context}
    (h : Reaches text done c) : Within c.schema := by
  obtain ⟨c₀, h₀, hdone⟩ := h
  simp only [preprocess_eq, bind_eq_ok, require_eq_ok, pure_eq_ok] at h₀
  obtain ⟨c₁, hregs, -, -, rfl⟩ := h₀
  have hnew : Within Context.new.schema := by
    refine ⟨Nat.zero_le _, Nat.zero_le _, ?_, ?_⟩ <;> intro e he <;> cases he
  have hfirst : Within c₁.schema := foldlM_invariant (P := fun _ c => Within c.schema) hregs hnew
    fun _ _ _ _ _ _ hP hr => hP.register hr
  exact foldlM_invariant (P := fun _ c => Within c.schema) hdone hfirst
    fun _ _ _ _ _ _ hP hd => hP.declare hd

/-! ### Names of types -/

/-- How many names of that kind are entered. -/
def count (k : Kind) (regs : List (Kind × Str)) : ℕ := (namesOf k regs).length

/-- More than 1000 names of entities come before the name of a type that follows 500 others. -/
def TypesFit (regs : List (Kind × Str)) : Prop :=
  ∀ before name rest, regs = before ++ (.type, name) :: rest →
    count .type before = maxTypeNum → maxEntityNum < count .entity before

theorem count_append (k : Kind) (regs regs' : List (Kind × Str)) :
    count k (regs ++ regs') = count k regs + count k regs' := by
  simp [count, namesOf_append]

/-- The tables are as long as the names entered. -/
theorem Context.Holds.lengths {regs : List (Kind × Str)} {c : Context} (h : c.Holds regs) :
    c.schema.types.length = count .type regs ∧ c.schema.entities.length = count .entity regs := by
  have ht := congrArg List.length h.types
  have he := congrArg List.length h.entities
  simp only [List.length_map] at ht he
  exact ⟨ht, he⟩

/-- An entry overflows at the full table of types only. -/
theorem register_overflow {c : Context} {r : Kind × Str} : c.register r = .error .overflow ↔
    r.1 = .type ∧ maxTypeNum ≤ c.schema.types.length ∧ c.schema.types.length < maxEntityNum := by
  obtain ⟨k, name⟩ := r
  cases k with
  | type =>
      simp only [Context.register, addTypeToSchema, bind_eq_error, require_eq_error,
        require_eq_ok, pure_ne_error, exists_const, and_false, or_false, reduceCtorEq, and_true,
        false_or, not_lt, exists_false, true_and]
      tauto
  | entity =>
      simp [Context.register, addEntityToSchema]

/-- An entry succeeds where its table has room. -/
theorem exists_register_one {c : Context} {k : Kind} {name : Str} :
    (∃ c', c.register (k, name) = .ok c') ↔
      (k = .type → c.schema.types.length < maxTypeNum) ∧
      (k = .entity → c.schema.entities.length < maxEntityNum) := by
  cases k with
  | type =>
      simp only [Context.register, bind_eq_ok, pure_eq_ok, addTypeToSchema_ok]
      simp
  | entity =>
      simp only [Context.register, bind_eq_ok, pure_eq_ok, addEntityToSchema_ok]
      simp

/-- Names are entered as long as there is room for them. -/
theorem exists_register {regs : List (Kind × Str)} :
    (∃ c, regs.foldlM Context.register .new = .ok c) ↔
      count .type regs ≤ maxTypeNum ∧ count .entity regs ≤ maxEntityNum := by
  -- by induction from the end: the tables are as long as the entries in front of the last
  induction regs using List.reverseRecOn with
  | nil => exact ⟨fun _ => ⟨Nat.zero_le _, Nat.zero_le _⟩, fun _ => ⟨_, rfl⟩⟩
  | append_singleton regs r ih =>
      obtain ⟨k, name⟩ := r
      have hstep : (∃ c, (regs ++ [(k, name)]).foldlM Context.register .new = .ok c) ↔
          ∃ c, regs.foldlM Context.register .new = .ok c ∧ ∃ c', c.register (k, name) = .ok c' := by
        simp only [List.foldlM_append, bind_eq_ok, List.foldlM_cons, List.foldlM_nil, pure_eq_ok,
          exists_eq_right]
        constructor
        · rintro ⟨c', c, hc, hr⟩
          exact ⟨c, hc, c', hr⟩
        · rintro ⟨c, hc, c', hr⟩
          exact ⟨c', c, hc, hr⟩
      have hcount : ∀ k', count k' (regs ++ [(k, name)]) =
          count k' regs + if k = k' then 1 else 0 := by
        intro k'
        rw [count_append]
        by_cases h : k = k' <;> simp [count, namesOf_single, h]
      rw [hstep, hcount, hcount]
      constructor
      · rintro ⟨c, hc, hr⟩
        obtain ⟨ht, he⟩ := (Context.Holds.registers hc).lengths
        have hroom := ih.mp ⟨c, hc⟩
        have hone := exists_register_one.mp hr
        rw [ht, he] at hone
        cases k <;> simp at hone ⊢ <;> omega
      · intro hroom
        obtain ⟨c, hc⟩ := ih.mpr ⟨(Nat.le_add_right ..).trans hroom.1,
          (Nat.le_add_right ..).trans hroom.2⟩
        obtain ⟨ht, he⟩ := (Context.Holds.registers hc).lengths
        refine ⟨c, hc, exists_register_one.mpr ?_⟩
        rw [ht, he]
        cases k <;> simp at hroom ⊢ <;> omega

/-- **The first pass** overflows where the types do not fit. -/
theorem preprocess_overflow {text : Str} :
    preprocess .new text = .error .overflow ↔ ¬ TypesFit (registrations (words text)).1 := by
  simp only [preprocess_eq, bind_eq_error, require_eq_error, reduceCtorEq, and_false, pure_ne_error,
    exists_false, or_false, foldlM_eq_error, register_overflow]
  simp only [TypesFit, not_forall, not_lt]
  constructor
  · rintro ⟨before, ⟨k, name⟩, rest, c, hregs, hc, rfl, hfull, -⟩
    obtain ⟨ht, -⟩ := (Context.Holds.registers hc).lengths
    obtain ⟨htypes, hentities⟩ := exists_register.mp ⟨c, hc⟩
    exact ⟨before, name, rest, hregs, le_antisymm htypes (ht ▸ hfull), hentities⟩
  · rintro ⟨before, name, rest, hregs, htypes, hentities⟩
    obtain ⟨c, hc⟩ := exists_register.mpr ⟨htypes.le, hentities⟩
    obtain ⟨ht, -⟩ := (Context.Holds.registers hc).lengths
    refine ⟨before, (.type, name), rest, c, hregs, hc, rfl, ?_, ?_⟩
    · rw [ht, htypes]
    · rw [ht, htypes]
      decide

/-! ### Attributes -/

/-- A `SELECT` without a name, whose items are searched for in no schema. -/
def TypeArgs.AnonymousSelect (args : TypeArgs) : Prop := args.type = .select ∧ args.selectList ≠ []

/-- No attribute is written behind its table. -/
def Fits (s : Schema) (args : EntityArgs) : Prop :=
  args.attrs.length ≤ maxAttrNum ∨ maxEntityNum < args.attrs.length ∨
  maxSubtypeNum < args.subtypeNames.length ∨
  findEntityByName s args.entityName = none ∨
  (∃ name, args.supertypeName = some name ∧ findEntityByName s name = none) ∨
  ∃ a ∈ args.attrs.reverse.take (maxAttrNum + 1), a.type.AnonymousSelect

/-- Without a schema no name is resolved. -/
theorem mapM_resolve_none (names : List Str) :
    names.mapM (resolve none) = if names = [] then .ok [] else .error .null := by
  cases names with
  | nil => rfl
  | cons n names => rfl

/-- Without a schema a selection is what fails. -/
theorem assignTypeArgs_none_error {args : TypeArgs} (h : args.type ≠ .derived) (t : TypeRecord)
    {e : Stop} : assignTypeArgs none t args = .error e ↔ args.AnonymousSelect ∧ e = .null := by
  unfold assignTypeArgs TypeArgs.AnonymousSelect
  split
  · exact absurd ‹_› h
  · simp [*]
  · rw [mapM_resolve_none]
    by_cases hnil : args.selectList = []
    · simp [*]
    · simp [*, eq_comm]
  · rename_i hselect
    exact ⟨fun h => absurd h pure_ne_error, fun h => absurd h.1.1 hselect⟩

theorem attrType_error {s : Schema} {args : TypeArgs} (hwf : args.Wf) {e : Stop} :
    attrType s args = .error e ↔ args.AnonymousSelect ∧ e = .null := by
  unfold attrType
  cases hr : args.refTypeName with
  | none =>
      have hd : args.type ≠ .derived := fun h => by
        have := hwf.derived.mp h
        simp [hr] at this
      simp only [bind_eq_error, pure_ne_error, and_false, exists_false, or_false]
      exact assignTypeArgs_none_error hd newType
  | some name =>
      have hd : args.type = .derived := hwf.derived.mpr (by rw [hr]; rfl)
      have hne : ¬ args.AnonymousSelect := fun h => TypeEnum.noConfusion (hd.symm.trans h.1)
      refine ⟨fun h => ?_, fun h => absurd h.1 hne⟩
      cases hf : findTypeByName s name with
      | none => simp [hf] at h
      | some i => simp [hf] at h

theorem assignAttr_error {s : Schema} {a : AttrArgs} (hwf : a.type.Wf) {e : Stop} :
    assignAttr s a = .error e ↔ a.type.AnonymousSelect ∧ e = .null := by
  rw [← attrType_error hwf (s := s), assignAttr, bind_eq_error]
  refine ⟨?_, .inl⟩
  rintro (h | ⟨p, -, h⟩)
  · exact h
  · cases p <;> cases h

/-- The attributes overflow at the first one behind the table. -/
theorem assignAttrs_overflow {s : Schema} (as : List AttrArgs) (done : List Attr)
    (hwf : ∀ a ∈ as, a.type.Wf) (hdone : done.length ≤ maxAttrNum) :
    assignAttrs s as done = .error .overflow ↔ maxAttrNum < done.length + as.length ∧
      ∀ a ∈ as.take (maxAttrNum + 1 - done.length), ¬ a.type.AnonymousSelect := by
  induction as generalizing s done with
  | nil => simp [assignAttrs, hdone]
  | cons a as ih =>
      obtain ⟨hwfa, hwf⟩ := List.forall_mem_cons.mp hwf
      by_cases hanon : a.type.AnonymousSelect
      · refine ⟨fun h => ?_, fun h => absurd hanon (h.2 a ?_)⟩
        · rw [assignAttrs, (assignAttr_error hwfa).mpr ⟨hanon, rfl⟩] at h
          cases h
        · exact List.mem_take_iff_getElem.mpr ⟨0, by simp; omega, rfl⟩
      · have hok : ∃ r, assignAttr s a = .ok r := by
          cases hr : assignAttr s a with
          | ok r => exact ⟨r, rfl⟩
          | error e => exact absurd ((assignAttr_error hwfa).mp hr).1 hanon
        obtain ⟨⟨s', attr⟩, hr⟩ := hok
        by_cases hroom : done.length < maxAttrNum
        · have hstep : assignAttrs s (a :: as) done = assignAttrs s' as (done ++ [attr]) := by
            simp only [assignAttrs, hr, require, if_pos hroom]
            rfl
          have hlen : (done ++ [attr]).length = done.length + 1 := by simp
          have htake : maxAttrNum + 1 - done.length =
              (maxAttrNum + 1 - (done ++ [attr]).length) + 1 := by omega
          rw [hstep, ih _ hwf (by omega), htake, List.take_succ_cons, List.forall_mem_cons, hlen,
            List.length_cons, Nat.add_right_comm, Nat.add_assoc]
          exact and_congr_right fun _ => ⟨fun h => ⟨hanon, h⟩, fun h => h.2⟩
        · have hstep : assignAttrs s (a :: as) done = .error .overflow := by
            simp only [assignAttrs, hr, require, if_neg hroom]
            rfl
          have htake : maxAttrNum + 1 - done.length = 1 := by omega
          rw [htake, List.length_cons]
          refine ⟨fun _ => ⟨by omega, ?_⟩, fun _ => hstep⟩
          simpa using hanon

/-- The supertype has to be in the table. -/
theorem assignSupertype_error {s : Schema} {old : Option ℕ} {name : Option Str} {e : Stop} :
    assignSupertype s old name = .error e ↔
      (∃ n, name = some n ∧ findEntityByName s n = none) ∧ e = .assertion := by
  cases name with
  | none => simp [assignSupertype]
  | some n => cases hf : findEntityByName s n <;> simp [assignSupertype, hf, eq_comm]

/-- Where it is, the assignment succeeds. -/
theorem exists_assignSupertype {s : Schema} (old : Option ℕ) {name : Option Str} :
    (∃ p, assignSupertype s old name = .ok p) ↔
      ∀ n, name = some n → findEntityByName s n ≠ none := by
  cases name with
  | none => simp [assignSupertype]
  | some n => cases hf : findEntityByName s n <;> simp [assignSupertype, hf]

/-- The arguments of an entity overflow where its attributes do, and nothing failed before. -/
theorem assignEntityArgs_overflow {s : Schema} {i : ℕ} {e : EntityRecord} {args : EntityArgs}
    (he : s.entities[i]? = some e) (hwf : ∀ a ∈ args.attrs, a.type.Wf) :
    assignEntityArgs s i args = .error .overflow ↔
      args.attrs.length ≤ maxEntityNum ∧ args.subtypeNames.length ≤ maxSubtypeNum ∧
      (∀ name, args.supertypeName = some name → findEntityByName s name ≠ none) ∧
      maxAttrNum < args.attrs.length ∧
      ∀ a ∈ args.attrs.reverse.take (maxAttrNum + 1), ¬ a.type.AnonymousSelect := by
  have hattrs := assignAttrs_overflow (s := s) args.attrs.reverse []
    (fun a ha => hwf a (List.mem_reverse.mp ha)) (Nat.zero_le _)
  rw [← exists_assignSupertype e.supertype]
  simp only [List.length_nil, Nat.zero_add, List.length_reverse, Nat.sub_zero] at hattrs
  simp only [assignEntityArgs, he, bind_eq_error, require_eq_error, require_eq_ok, hattrs,
    assignSupertype_error, reduceCtorEq, and_false, false_or, exists_const, pure_ne_error,
    exists_false, or_false, exists_and_right]

theorem initEntity_overflow {regs : List (Kind × Str)} {c : Context} {args : EntityArgs}
    (hc : c.Holds regs) (hwf : ∀ a ∈ args.attrs, a.type.Wf) :
    initEntity c args = .error .overflow ↔ ¬ Fits c.schema args := by
  cases hf : findEntityByName c.schema args.entityName with
  | none =>
      have hfits : Fits c.schema args := .inr (.inr (.inr (.inl hf)))
      refine ⟨fun h => ?_, fun h => absurd hfits h⟩
      obtain ⟨i, hi⟩ := exists_index c.entityIdIndex args.entityName
      rw [initEntity_eq hi] at h
      split at h
      · cases h
      · rename_i e he
        -- the index 0 of an unknown name gives the record of another
        have hname : e.name ≠ args.entityName := by
          intro hname
          have hmem : args.entityName ∈ c.schema.entities.map (·.name) :=
            hname ▸ List.mem_map_of_mem (List.mem_of_getElem? he)
          rw [← findEntityByName_isSome, hf] at hmem
          cases hmem
        rw [require, if_neg hname] at h
        cases h
  | some k =>
      have hknown : args.entityName ∈ c.schema.entities.map (·.name) :=
        findEntityByName_isSome.mp (by rw [hf]; rfl)
      obtain ⟨i, e, hi, he, hname⟩ := hc.record hknown
      have hstep : initEntity c args = .error .overflow ↔
          assignEntityArgs c.schema i args = .error .overflow := by
        rw [initEntity_eq (i := i) (by rw [StdMap.find_insertNew, if_pos rfl, hi]; rfl), he]
        simp only [hname, bind_eq_error, require_eq_error, require_eq_ok, not_true_eq_false,
          false_and, false_or, true_and, exists_const, pure_ne_error, and_false, exists_false, or_false]
      rw [hstep, assignEntityArgs_overflow he hwf, Fits, hf]
      simp only [not_or, not_le, not_lt, not_exists, not_and, reduceCtorEq, not_false_eq_true,
        true_and]
      tauto

theorem resolve_overflow (schema : Option Schema) (name : Str) :
    resolve schema name ≠ .error .overflow := by
  unfold resolve
  split
  · simp
  · split <;> simp

theorem mapM_resolve_overflow (schema : Option Schema) (names : List Str) :
    names.mapM (resolve schema) ≠ .error .overflow := by
  induction names with
  | nil => simp
  | cons n names ih =>
      rw [List.mapM_cons]
      simp only [ne_eq, bind_eq_error, pure_ne_error, and_false, exists_false, or_false, not_or,
        not_exists, not_and]
      exact ⟨resolve_overflow schema n, fun _ _ => ih⟩

/-- A type overflows nothing in the second pass. -/
theorem initType_overflow {c : Context} {args : TypeArgs} : initType c args ≠ .error .overflow := by
  have hassign : ∀ t, assignTypeArgs (some c.schema) t args ≠ .error .overflow := by
    intro t h
    unfold assignTypeArgs at h
    split at h
    · split at h
      · cases h
      · simp only [bind_eq_error, pure_ne_error, and_false, exists_false, or_false] at h
        exact resolve_overflow _ _ h
    · cases h
    · simp only [bind_eq_error, pure_ne_error, and_false, exists_false, or_false] at h
      exact mapM_resolve_overflow _ _ h
    · cases h
  intro h
  unfold initType at h
  split at h
  · cases h
  · simp only at h
    split at h
    · cases h
    · simp only [bind_eq_error, pure_ne_error, and_false, exists_false, or_false] at h
      exact hassign _ h

/-- **Main result.**  A text is read without a write past the end of a table, if and only if there
is room for the names of types and the attributes of every entity that is reached, or the run
stops before. -/
theorem parse_within_iff (text : Str) : parse text ≠ .error .overflow ↔
    TypesFit (registrations (words text)).1 ∧
    ∀ done args rest c, (schema (tokens text)).1 = done ++ .entity args :: rest →
      Reaches text done c → Fits c.schema args := by
  rw [Ne, parse_error, not_or, preprocess_overflow, not_not]
  refine and_congr_right fun _ => ⟨fun h done args rest c hds hreach => ?_, ?_⟩
  · have hwf := schema_wf (tokens text) (.entity args) (by simp [hds])
    by_contra hfits
    exact h ⟨done, .entity args, rest, c, hds, hreach,
      (initEntity_overflow hreach.holds hwf).mpr hfits⟩
  · rintro h ⟨done, d, rest, c, hds, hreach, hd⟩
    cases d with
    | type args => exact initType_overflow hd
    | entity args =>
        have hwf := schema_wf (tokens text) (.entity args) (by simp [hds])
        exact (initEntity_overflow hreach.holds hwf).mp hd (h done args rest c hds hreach)

/-- An entity of 51 attributes. -/
def wide : Str :=
  "SCHEMA S;ENTITY IfcA ;".toList ++ (List.replicate 51 "a:REAL;".toList).flatten ++
    "END_ENTITY;END_SCHEMA;".toList

/-- Its last attribute is written past the end of the arrays, although the grammar accepts it. -/
theorem not_parse_within : parse wide = .error .overflow ∧ (schema (tokens wide)).2 = true := by
  have h : parsedSchema wide = .error .overflow ∧ (schema (tokens wide)).2 = true := by
    decide +kernel
  exact ⟨parsedSchema_error h.1, h.2⟩

end VulcanDB.Express
