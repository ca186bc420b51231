import VulcanDB.Express.Attributes
import VulcanDB.Express.Coverage
import VulcanDB.Express.Initialised
import VulcanDB.Express.Integrity
import VulcanDB.Express.Printable

/-!
# EXPRESS — SQL types of a schema that is read

`typecast_express_to_sql` and `serialize_type_tree` follow the links of the records.  What is at
their ends comes from the declarations, and is not looked at when they are stored.

* `Reaches.shapes`: the records that the declarations leave.
* `total_iff`: where both return a string for every type.
-/

namespace VulcanDB.Express

open Cxx Steps Relation

/-! ### Declarations -/

/-- What a name of a type asks for: a `SELECT` has items, and an `ENUMERATION` literals. -/
structure TypeArgs.Full (args : TypeArgs) : Prop where
  wf : args.Wf
  known : args.type ≠ .unknown
  entity : args.type ≠ .entity
  select : args.type = .select → args.selectList ≠ []
  enum : args.type = .enum → args.enumList ≠ []

theorem splitString_ne_nil (n : Str) (ns : List Str) : splitString (joined (n :: ns)) ≠ [] := by
  have hcount : (joined (n :: ns)).count ',' ≠ 0 := by
    rw [Ne, List.count_eq_zero, not_not]
    simp [joined]
  rw [splitString, Ne, List.take_eq_nil_iff, not_or]
  exact ⟨hcount, List.splitOn_ne_nil _ _⟩

theorem TypeName.full (d : TypeName) : d.args.Full := by
  obtain ⟨hknown, hentity, -⟩ := d.type_args
  have hbase := keepsBase d
  refine ⟨(typeName_spec (typeName_tokens d [])).2, hknown, hentity, fun h => ?_, fun h => ?_⟩
  · rw [hbase.type] at h
    rw [hbase.selectList]
    cases hb : d.baseName with
    | select n ns => exact splitString_ne_nil n ns
    | _ => simp [hb, BaseName.args, newTypeNameArgs] at h
  · rw [hbase.type] at h
    rw [hbase.enumList]
    cases hb : d.baseName with
    | enumeration l ls => exact splitString_ne_nil l ls
    | _ => simp [hb, BaseName.args, newTypeNameArgs] at h

/-! ### Records -/

/-- A record that a declaration is stored in, or none. -/
structure TypeRecord.Formed (t : TypeRecord) : Prop where
  entity : t.type ≠ .entity
  reference : t.type ≠ .reference
  select : t.type = .select → 0 < t.selectNum
  enum : t.type = .enum → 0 < t.enumNum ∧ t.enumNum ≤ t.enumList.length

/-- The type of an attribute: of the table, a reference, or of a record without links. -/
inductive AttrType.Formed (s : Schema) : AttrType → Prop
  | shared {i} (h : i < s.types.length) : Formed s (.shared i)
  | reference {t} (h : t.type = .reference)
    (href : ∀ d, t.refType = some d → ∃ i, d = .entity i ∧ i < s.entities.length) :
    Formed s (.own t)
  | own {t} (h : t.Formed) (hname : t.name = none) (hu : t.type ≠ .unknown)
    (hd : t.type ≠ .derived) (hs : t.type ≠ .select) : Formed s (.own t)

/-- A record that is filled from such arguments is formed. -/
theorem assignTypeArgs_formed {schema : Option Schema} {t t' : TypeRecord} {args : TypeArgs}
    (hfull : args.Full) (h : assignTypeArgs schema t args = .ok t') : t'.Formed := by
  unfold assignTypeArgs at h
  split at h
  · rename_i hd
    split at h
    · cases h
    · simp only [bind_eq_ok, pure_eq_ok] at h
      obtain ⟨d, -, rfl⟩ := h
      refine ⟨?_, ?_, ?_, ?_⟩ <;> simp [hd]
  · rename_i he
    obtain rfl := pure_eq_ok.mp h
    refine ⟨?_, ?_, ?_, fun _ => ⟨?_, le_rfl⟩⟩
    · simp [he]
    · simp [he]
    · simp [he]
    · exact List.length_pos_iff.mpr (hfull.enum he)
  · rename_i hs
    simp only [bind_eq_ok, pure_eq_ok] at h
    obtain ⟨l, -, rfl⟩ := h
    refine ⟨?_, ?_, fun _ => ?_, ?_⟩
    · simp [hs]
    · simp [hs]
    · exact List.length_pos_iff.mpr (hfull.select hs)
    · simp [hs]
  · rename_i hd he hs
    obtain rfl := pure_eq_ok.mp h
    exact ⟨hfull.entity, hfull.wf.reference, fun h => absurd h hs, fun h => absurd h he⟩

theorem attrType_formed {s : Schema} {args : TypeArgs} {p : AttrType} (hfull : args.Full)
    (h : attrType s args = .ok p) : p.Formed s := by
  have hanon : ¬ args.AnonymousSelect := fun hanon => by
    rw [(attrType_error hfull.wf).mpr ⟨hanon, rfl⟩] at h
    cases h
  unfold attrType at h
  split at h
  · rename_i hnone
    simp only [bind_eq_ok, pure_eq_ok] at h
    obtain ⟨t, ht, rfl⟩ := h
    have htype := assignTypeArgs_type ht
    have hformed := assignTypeArgs_formed hfull ht
    have hd : args.type ≠ .derived := fun hd => by
      have hsome := hfull.wf.derived.mp hd
      simp [hnone] at hsome
    exact .own ⟨hformed.entity, hformed.reference, hformed.select, hformed.enum⟩
      (assignTypeArgs_name ht) (htype ▸ hfull.known) (htype ▸ hd)
      fun hs => hanon ⟨htype ▸ hs, hfull.select (htype ▸ hs)⟩
  · split at h
    · rename_i i hi
      obtain rfl := pure_eq_ok.mp h
      exact .shared (findTypeByName_lt hi)
    · obtain rfl := pure_eq_ok.mp h
      refine .reference rfl fun d hd => ?_
      obtain ⟨i, hi, rfl⟩ := Option.map_eq_some_iff.mp hd
      exact ⟨i, rfl, findEntityByName_lt hi⟩

/-- Whether it is depends on the sizes of the tables. -/
theorem SameSize.attrFormed {s s' : Schema} (h : SameSize s s') {p : AttrType} (hp : p.Formed s) :
    p.Formed s' := by
  cases hp with
  | shared hi => exact .shared (hi.trans_eq h.1)
  | reference ht href =>
      refine .reference ht fun d hd => ?_
      obtain ⟨i, rfl, hi⟩ := href d hd
      exact ⟨i, rfl, hi.trans_eq h.2⟩
  | own ht hname hu hd hs => exact .own ht hname hu hd hs

/-- What the declarations leave in the tables. -/
structure Shapes (s : Schema) : Prop where
  types : ∀ t ∈ s.types, t.Formed
  attrs : ∀ e ∈ s.entities, ∀ l, e.attrs = some l → ∀ a ∈ l, a.type.Formed s

/-- **The shapes after the first pass.** -/
theorem Shapes.preprocess {text : Str} {c : Context} (h : preprocess .new text = .ok c) :
    Shapes c.schema := by
  obtain ⟨htypes, hentities⟩ := preprocess_new h
  refine ⟨fun t ht => ?_, fun e he l hl => ?_⟩
  · obtain ⟨n, rfl⟩ := htypes t ht
    refine ⟨?_, ?_, ?_, ?_⟩ <;> simp [newType]
  · obtain ⟨n, rfl⟩ := hentities e he
    cases hl

theorem TypeRecord.Formed.flagged {t : TypeRecord} (h : t.Formed) (f : Option Bool) :
    (t.flagged f).Formed := by
  cases f with
  | none => exact h
  | some b => exact ⟨h.entity, h.reference, h.select, h.enum⟩

/-- The types in a declaration are those of derivations, and so ask for what they need. -/
theorem Shapes.declare {regs : List (Kind × Str)} {c c' : Context} {d : Declaration}
    (hc : c.Holds regs) (hderived : d.Derived) (h : Shapes c.schema) (hd : c.declare d = .ok c') :
    Shapes c'.schema := by
  have hsize := hc.sameSize (hc.declare hd)
  cases d with
  | type args =>
      obtain ⟨n, hn⟩ := hderived
      have hfull : args.Full := by
        have hf := n.full
        rw [hn]
        exact ⟨⟨hf.wf.derived, hf.wf.reference, hf.wf.select⟩, hf.known, hf.entity, hf.select,
          hf.enum⟩
      obtain ⟨name, i, t, t', -, -, -, hassign, rfl⟩ := initType_ok hd
      refine ⟨fun x hx => ?_, fun e he l hl a ha => hsize.attrFormed (h.attrs e he l hl a ha)⟩
      rcases List.mem_or_eq_of_mem_set hx with hx | rfl
      · exact h.types x hx
      · exact assignTypeArgs_formed hfull hassign
  | entity args =>
      obtain ⟨i, e, s', -, he, -, hassign, rfl⟩ := initEntity_ok hd
      obtain ⟨-, -, htypes⟩ := types_assignEntityArgs hassign
      obtain ⟨e₀, supertype, attrs, he₀, -, -, -, s₁, hattrs, rfl⟩ := assignEntityArgs_ok hassign
      refine ⟨fun x hx => ?_, fun x hx l hl a ha => ?_⟩
      · obtain ⟨j, hj⟩ := List.mem_iff_getElem?.mp hx
        rw [htypes, Option.map_eq_some_iff] at hj
        obtain ⟨t, ht, rfl⟩ := hj
        exact (h.types t (List.mem_of_getElem? ht)).flagged _
      · rcases List.mem_or_eq_of_mem_set hx with hx | rfl
        · exact hsize.attrFormed (h.attrs x hx l hl a ha)
        · obtain rfl := Option.some.inj hl
          obtain ⟨as, rfl, hstored⟩ := assignAttrs_stored hattrs
          obtain ⟨k, hk, rfl⟩ := List.getElem_of_mem ha
          have hk' : k < args.attrs.reverse.length := hstored.length_eq.symm ▸ hk
          obtain ⟨n, hn⟩ := hderived _ (List.mem_reverse.mp (List.getElem_mem hk'))
          exact hsize.attrFormed (attrType_formed (hn ▸ n.full) (hstored.get hk' hk).type)

/-- **The records that the declarations leave.** -/
theorem Reaches.shapes {text : Str} {c : Context} (h : Reaches text (schema (tokens text)).1 c) :
    Shapes c.schema := by
  obtain ⟨c₀, h₀, hdone⟩ := h
  have hboth := foldlM_invariant
    (P := fun _ c => Context.Holds (registrations (words text)).1 c ∧ Shapes c.schema) hdone
    ⟨.preprocess h₀, .preprocess h₀⟩ fun done d rest c c' hds hP hd =>
      ⟨hP.1.declare hd, hP.2.declare hP.1 (schema_derived (tokens text) d (by simp [hds])) hd⟩
  exact hboth.2

/-! ### Types that lead to types -/

/-- A type leads to that which it is derived from, and a `SELECT` to the types of its members. -/
inductive Leads (s : Schema) (t : TypeRecord) (j : ℕ) : Prop
  | derived (h : t.type = .derived) (href : t.refType = some (.type j))
  | select {d} (h : t.type = .select) (hd : d ∈ t.selectList.take t.selectNum)
    (hchild : s.child d = .ok (.type j))

/-- The type `j` is serialised by a call of its own, from the call for the type `i`. -/
def CalledFrom (s : Schema) (j i : ℕ) : Prop :=
  ∃ t t', s.types[i]? = some t ∧ s.types[j]? = some t' ∧ Leads s t j ∧
    (t.type = .derived ∨ t'.Nested)

theorem exists_typeNames {type : TypeEnum} :
    (∃ l, typeNames type = .ok l) ↔ type ≠ .reference ∧ type ≠ .unknown := by
  cases type <;> simp [typeNames]

section Calls

variable {s : Schema} {t t' : TypeRecord} {i j : ℕ}

theorem Unfolds.known (h : Unfolds s t) : t.type ≠ .unknown := by
  intro hu
  have hbase := (unfolds_iff.mp h).of_base (by simp [hu]) (by simp [hu]) (by simp [hu])
    (by simp [hu])
  exact (exists_typeNames.mp hbase).2 hu

theorem Castable.known (h : Castable s t) : t.type ≠ .unknown := by
  cases h with
  | simple h => rcases h with h | h | h | h | h | h | h | h | h <;> simp [h]
  | enum h => simp [h]
  | derived h => simp [h]

/-- A member that is a type is called for, or printed with the name of its kind. -/
theorem Member.of_type {d : Desc} {call : Option TypeRecord} (h : Member s d call)
    (hchild : s.child d = .ok (.type j)) (ht' : s.types[j]? = some t') :
    (t'.Nested ∧ call = some t') ∨ (¬ t'.Nested ∧ t'.type ≠ .unknown) := by
  cases h with
  | entity h =>
      rw [hchild] at h
      cases h
  | plain h hu hn _ hl =>
      rw [hchild] at h
      cases h
      obtain rfl := Option.some.inj (ht'.symm.trans hu)
      exact .inr ⟨hn, (exists_typeNames.mp ⟨_, hl⟩).2⟩
  | nested h hu hn =>
      rw [hchild] at h
      cases h
      obtain rfl := Option.some.inj (ht'.symm.trans hu)
      exact .inl ⟨hn, rfl⟩

/-- So is each type that a type leads to. -/
theorem Prints.of_leads {P : TypeRecord → Prop} (h : Prints P s t) (hleads : Leads s t j)
    (ht' : s.types[j]? = some t') :
    P t' ∨ (¬ (t.type = .derived ∨ t'.Nested) ∧ t'.type ≠ .unknown) := by
  cases hleads with
  | derived hd href =>
      obtain ⟨i, u, href', hu, hP⟩ := h.of_derived hd
      obtain rfl := Desc.type.inj (Option.some.inj (href.symm.trans href'))
      obtain rfl := Option.some.inj (ht'.symm.trans hu)
      exact .inl hP
  | select hs hmem hchild =>
      obtain ⟨-, -, hP⟩ := h.of_select hs
      obtain ⟨call, hcall, hcalls⟩ := hP _ hmem
      rcases hcall.of_type hchild ht' with ⟨-, rfl⟩ | ⟨hn, hknown⟩
      · exact .inl (hcalls t' rfl)
      · exact .inr ⟨by simp [hs, hn], hknown⟩

theorem known_of_unfolds (h : Unfolds s t) (hleads : Leads s t j) (ht' : s.types[j]? = some t') :
    t'.type ≠ .unknown := by
  rcases (unfolds_iff.mp h).of_leads hleads ht' with hu | ⟨-, hknown⟩
  · exact hu.known
  · exact hknown

/-- A type that is followed to an end is on no cycle of calls. -/
theorem acc_of_unfold {n : ℕ} (ht : s.types[i]? = some t) (h : ∃ tree, unfold n s t = .ok tree) :
    Acc (CalledFrom s) i := by
  induction n generalizing i t with
  | zero =>
      obtain ⟨tree, h⟩ := h
      cases h
  | succ n ih =>
      refine .intro i fun j hj => ?_
      obtain ⟨u, t', hu, ht', hleads, hkind⟩ := hj
      obtain rfl := Option.some.inj (ht.symm.trans hu)
      rcases (exists_unfold_succ.mp h).of_leads hleads ht' with h' | ⟨hnone, -⟩
      · exact ih ht' h'
      · exact absurd hkind hnone

/-- The types are as many as the table has, so that without cycles the calls end. -/
theorem acc_calledFrom (hacyclic : ∀ i, ¬ TransGen (CalledFrom s) i i) (i : ℕ) :
    Acc (CalledFrom s) i := by
  have hlt : ∀ j i, CalledFrom s j i → j < s.types.length ∧ i < s.types.length := by
    rintro j i ⟨t, t', ht, ht', -⟩
    exact ⟨(List.getElem?_eq_some_iff.mp ht').1, (List.getElem?_eq_some_iff.mp ht).1⟩
  by_cases hi : i < s.types.length
  · exact Kahn.acc_of_finite (Set.finite_lt_nat s.types.length)
      (fun j i hj _ => (hlt j i hj).1) (fun i _ => hacyclic i) hi
  · exact .intro i fun j hj => absurd (hlt j i hj).2 hi

end Calls

/-! ### Strings for the types -/

/-- Both functions return a string for the type. -/
def Mapped (s : Schema) (t : TypeRecord) : Prop :=
  (∃ n sql, typecastExpressToSql n s t = .ok sql) ∧
    ∃ n, ∃ buffer : CBuffer, serializeTypeTree n s t = .ok buffer

/-- The types that are declared, and those of the attributes, have their strings. -/
structure Total (s : Schema) : Prop where
  types : ∀ t ∈ s.types, t.type ≠ .unknown → Mapped s t
  attrs : ∀ e ∈ s.entities, ∀ l, e.attrs = some l → ∀ a ∈ l,
    ∃ t, s.attrRecord a.type = .ok t ∧ Mapped s t

/-- The type of the table is declared; the one of the attribute itself is no `ENUMERATION`, and no
reference to nothing. -/
def AttrType.Mappable (s : Schema) : AttrType → Prop
  | .shared i => ∀ t, s.types[i]? = some t → t.type ≠ .unknown
  | .own t => t.type ≠ .enum ∧ (t.type = .reference → t.refType ≠ none)

/-- Where every type leads to declared types only, none is derived from an entity, and none leads
to a call for itself. -/
structure Mappable (s : Schema) : Prop where
  known : ∀ t ∈ s.types, t.type ≠ .unknown → ∀ j t', Leads s t j → s.types[j]? = some t' →
    t'.type ≠ .unknown
  derived : ∀ t ∈ s.types, t.type = .derived → ∀ i, t.refType ≠ some (.entity i)
  acyclic : ∀ i, ¬ TransGen (CalledFrom s) i i
  attrs : ∀ e ∈ s.entities, ∀ l, e.attrs = some l → ∀ a ∈ l, a.type.Mappable s

/-- A type is mapped when it is cast and printed. -/
theorem mapped_iff {s : Schema} {t : TypeRecord} : Mapped s t ↔ Castable s t ∧ Unfolds s t := by
  rw [Mapped, castable_iff, exists_serialize]

/-- What is known of the tables when the declarations have been read. -/
structure Read (s : Schema) : Prop where
  shapes : Shapes s
  sound : ∀ t ∈ s.types, t.Sound s
  named : ∀ t ∈ s.types, ∃ name, t.name = some name

/-- **What the second pass leaves**, by induction on the declarations. -/
theorem Reaches.read {text : Str} {c : Context} (h : Reaches text (schema (tokens text)).1 c) :
    Read c.schema := by
  refine ⟨h.shapes, h.links.types, fun t ht => ?_⟩
  have hname := List.mem_map_of_mem (f := fun t : TypeRecord => t.name) ht
  rw [h.holds.types, List.mem_map] at hname
  obtain ⟨name, -, hname⟩ := hname
  exact ⟨name, hname.symm⟩

section Mapping

variable {s : Schema} {t : TypeRecord} {i : ℕ}

/-- What holds of the first places of a list. -/
theorem mem_take {α : Type} {l : List α} {n : ℕ} {P : α → Prop}
    (h : ∀ j < n, ∃ x, l[j]? = some x ∧ P x) : n ≤ l.length ∧ ∀ x ∈ l.take n, P x := by
  have hle : n ≤ l.length := by
    by_contra hlt
    obtain ⟨x, hx, -⟩ := h l.length (by omega)
    simp at hx
  refine ⟨hle, fun x hx => ?_⟩
  obtain ⟨j, hj, rfl⟩ := List.getElem_of_mem hx
  rw [List.length_take] at hj
  obtain ⟨y, hy, hP⟩ := h j (by omega)
  rw [List.getElem_take]
  rw [List.getElem?_eq_getElem (by omega)] at hy
  exact Option.some.inj hy ▸ hP

/-- A member leads to a record of the tables. -/
theorem exists_child (hread : Read s) {d : Desc} (hd : d.Valid s) :
    ∃ child, s.child d = .ok child ∧ child.Valid s := by
  cases d with
  | entity k => exact ⟨.entity k, rfl, hd⟩
  | type k =>
      obtain ⟨u, hu⟩ : ∃ u, s.types[k]? = some u := ⟨_, List.getElem?_eq_getElem hd⟩
      simp only [Schema.child, typeAt_ok.mpr hu, bind, Except.bind]
      by_cases hderived : u.type = .derived
      · obtain ⟨d', hd', hvalid⟩ :=
          (hread.sound u (List.mem_of_getElem? hu)).refType (.inr hderived)
        refine ⟨d', ?_, hvalid⟩
        simp only [hderived, if_true, hd']
        rfl
      · refine ⟨.type k, ?_, hd⟩
        simp only [hderived, if_false]
        rfl

/-- A type from which no calls go on for ever has its strings. -/
theorem mapped_of_acc (hread : Read s) (hmap : Mappable s) (hacc : Acc (CalledFrom s) i)
    (ht : s.types[i]? = some t) (hknown : t.type ≠ .unknown) : Castable s t ∧ Unfolds s t := by
  -- by induction on the calls: a type is mapped when all that it calls are
  induction hacc generalizing t with
  | intro i _ ih =>
    have hmem := List.mem_of_getElem? ht
    have hformed := hread.shapes.types t hmem
    have hsound := hread.sound t hmem
    cases htype : t.type with
    | derived =>
        obtain ⟨d, hd, hvalid⟩ := hsound.refType (.inr htype)
        cases d with
        -- a type that is derived from an entity has none
        | entity k => exact absurd hd (hmap.derived t hmem htype k)
        | type j =>
            obtain ⟨t', ht'⟩ : ∃ t', s.types[j]? = some t' := ⟨_, List.getElem?_eq_getElem hvalid⟩
            have hleads : Leads s t j := .derived htype hd
            obtain ⟨hc, hu⟩ := ih j ⟨t, t', ht, ht', hleads, .inl htype⟩ ht'
              (hmap.known t hmem hknown j t' hleads ht')
            exact ⟨.derived htype hd ht' hc, unfolds_iff.mpr (.derived htype hd ht' hu)⟩
    | select =>
        obtain ⟨hle, hvalid⟩ := mem_take hsound.selectList
        refine ⟨.simple (by simp [htype]), unfolds_iff.mpr (.select htype (hformed.select htype) hle
          fun d hd => ?_)⟩
        obtain ⟨child, hchild, hchildvalid⟩ := exists_child hread (hvalid d hd)
        cases child with
        | entity k =>
            exact ⟨none, .entity hchild (List.getElem?_eq_getElem hchildvalid), by simp⟩
        | type j =>
            obtain ⟨t', ht'⟩ : ∃ t', s.types[j]? = some t' :=
              ⟨_, List.getElem?_eq_getElem hchildvalid⟩
            have hmem' := List.mem_of_getElem? ht'
            have hleads : Leads s t j := .select htype hd hchild
            have hknown' := hmap.known t hmem hknown j t' hleads ht'
            -- only a nested child is unfolded, the others are printed by their names
            by_cases hn : t'.Nested
            · have hu := (ih j ⟨t, t', ht, ht', hleads, .inr hn⟩ ht' hknown').2
              exact ⟨some t', .nested hchild ht' hn, by simpa using hu⟩
            · obtain ⟨name, hname⟩ := hread.named t' hmem'
              obtain ⟨l, hl⟩ :=
                exists_typeNames.mpr ⟨(hread.shapes.types t' hmem').reference, hknown'⟩
              exact ⟨none, .plain hchild ht' hn hname hl, by simp⟩
    | enum =>
        obtain ⟨name, hname⟩ := hread.named t hmem
        obtain ⟨hpos, hle⟩ := hformed.enum htype
        exact ⟨.enum htype hname, unfolds_iff.mpr (.enum htype hpos hle)⟩
    | unknown => exact absurd htype hknown
    | entity => exact absurd htype hformed.entity
    | reference => exact absurd htype hformed.reference
    | real | number | integer | boolean | binary | logical | string =>
        obtain ⟨l, hl⟩ := exists_typeNames.mpr ⟨hformed.reference, hknown⟩
        refine ⟨.simple (by simp [htype]), unfolds_iff.mpr (.base ?_ ?_ ?_ ?_ hl)⟩ <;> simp [htype]

/-- A type without links has its strings. -/
theorem mapped_of_own (hformed : t.Formed) (hu : t.type ≠ .unknown) (hd : t.type ≠ .derived)
    (hs : t.type ≠ .select) (he : t.type ≠ .enum) : Castable s t ∧ Unfolds s t := by
  obtain ⟨l, hl⟩ := exists_typeNames.mpr ⟨hformed.reference, hu⟩
  refine ⟨.simple ?_, unfolds_iff.mpr (.base hformed.reference hd hs he hl)⟩
  have hentity := hformed.entity
  cases htype : t.type <;> simp_all

/-- An attribute whose type is mappable is mapped. -/
theorem attr_mapped (hread : Read s) (hmap : Mappable s) {p : AttrType} (hformed : p.Formed s)
    (hp : p.Mappable s) : ∃ t, s.attrRecord p = .ok t ∧ Castable s t ∧ Unfolds s t := by
  cases hformed with
  | @shared i hi =>
      obtain ⟨t, ht⟩ : ∃ t, s.types[i]? = some t := ⟨_, List.getElem?_eq_getElem hi⟩
      refine ⟨t, ?_, mapped_of_acc hread hmap (acc_calledFrom hmap.acyclic i) ht (hp t ht)⟩
      simp only [Schema.attrRecord, ht]
  | @reference t ht href =>
      obtain ⟨d, hd⟩ := Option.ne_none_iff_exists'.mp (hp.2 ht)
      obtain ⟨k, rfl, hk⟩ := href d hd
      exact ⟨t, rfl, .simple (by simp [ht]),
        unfolds_iff.mpr (.reference ht hd (List.getElem?_eq_getElem hk))⟩
  | @own t ht _ hu hd hs => exact ⟨t, rfl, mapped_of_own ht hu hd hs hp.1⟩

/-- The type of a mapped attribute is mappable. -/
theorem attr_mappable {p : AttrType} (hformed : p.Formed s) (hrecord : s.attrRecord p = .ok t)
    (hc : Castable s t) (hu : Unfolds s t) : p.Mappable s := by
  cases hformed with
  | @shared i _ =>
      intro u ht
      simp only [Schema.attrRecord, ht] at hrecord
      exact Except.ok.inj hrecord ▸ hc.known
  | @reference u htype href =>
      obtain rfl := Except.ok.inj hrecord
      refine ⟨by simp [htype], fun _ hnone => ?_⟩
      obtain ⟨i, e, hsome, -⟩ := (unfolds_iff.mp hu).of_reference htype
      simp [hnone] at hsome
  | @own u ht hname _ _ _ =>
      obtain rfl := Except.ok.inj hrecord
      refine ⟨fun htype => ?_, fun h => absurd h ht.reference⟩
      cases hc with
      | simple h => rcases h with h | h | h | h | h | h | h | h | h <;> simp [htype] at h
      | enum _ hsome => simp [hname] at hsome
      | derived h => simp [htype] at h

end Mapping

/-- **Main result.**  In a schema that is read, both functions return a string for each type that is
declared and for that of each attribute, if and only if the types lead to declared types, none is
derived from an entity or calls for itself, and no attribute has an `ENUMERATION` of its own or an
undeclared type. -/
theorem total_iff {text : Str} {c : Context} {r : ℕ} (h : parse text = .ok (c, r)) :
    Total c.schema ↔ Mappable c.schema := by
  have hread := (parse_ok.mp h).1.read
  constructor
  · intro htotal
    have hmapped : ∀ t ∈ c.schema.types, t.type ≠ .unknown →
        Castable c.schema t ∧ Unfolds c.schema t := fun t ht hknown =>
      mapped_iff.mp (htotal.types t ht hknown)
    refine ⟨fun t ht hknown j t' hleads ht' => ?_, fun t ht htype i href => ?_, fun i hcycle => ?_,
      fun e he l hl a ha => ?_⟩
    · exact known_of_unfolds (hmapped t ht hknown).2 hleads ht'
    · have hu := (hmapped t ht (by simp [htype])).2
      obtain ⟨j, t', href', -⟩ := (unfolds_iff.mp hu).of_derived htype
      simp [href] at href'
    · -- a type on a cycle leads to another, and is declared
      obtain ⟨j, -, t, t', ht, -, hleads, -⟩ := TransGen.tail'_iff.mp hcycle
      have hknown : t.type ≠ .unknown := by
        cases hleads with
        | derived h => simp [h]
        | select h => simp [h]
      obtain ⟨n, hn⟩ := (hmapped t (List.mem_of_getElem? ht) hknown).2
      exact Kahn.not_acc_of_loop hcycle (acc_of_unfold ht hn).transGen
    · obtain ⟨t, ht, hm⟩ := htotal.attrs e he l hl a ha
      obtain ⟨hc, hu⟩ := mapped_iff.mp hm
      exact attr_mappable (hread.shapes.attrs e he l hl a ha) ht hc hu
  · intro hmap
    refine ⟨fun t ht hknown => ?_, fun e he l hl a ha => ?_⟩
    · obtain ⟨i, hi⟩ := List.mem_iff_getElem?.mp ht
      exact mapped_iff.mpr (mapped_of_acc hread hmap (acc_calledFrom hmap.acyclic i) hi hknown)
    · obtain ⟨t, ht, hm⟩ := attr_mapped hread hmap (hread.shapes.attrs e he l hl a ha)
        (hmap.attrs e he l hl a ha)
      exact ⟨t, ht, mapped_iff.mpr hm⟩

/-- A type that is derived from what has this name, a type, and an entity. -/
def aliasText (name : String) : Str :=
  "SCHEMA S;TYPE IfcX = ".toList ++ name.toList ++
    ";END_TYPE;TYPE IfcY = REAL;END_TYPE;ENTITY IfcA ;b:IfcX;END_ENTITY;END_SCHEMA;".toList

/-- A type that is derived from another type, or from an entity. -/
def aliasSchema (d : Desc) : Schema :=
  ⟨[{ newType with name := "IfcX".toList, type := .derived, refType := d },
      { newType with name := "IfcY".toList, type := .real }],
    [⟨"IfcA".toList, false, some [⟨"b".toList, .shared 0, false⟩], some [], none⟩]⟩

/-- Derived from the other type, it leads to that and no further. -/
theorem total_alias : ∃ c, parse (aliasText "IfcY") = .ok (c, 0) ∧ Total c.schema := by
  obtain ⟨c, hc, hschema⟩ := parsedSchema_ok (show parsedSchema (aliasText "IfcY") =
    .ok (aliasSchema (.type 1), 0) by decide +kernel)
  refine ⟨c, hc, (total_iff hc).mpr ?_⟩
  rw [hschema]
  have hknown : ∀ t ∈ (aliasSchema (.type 1)).types, t.type ≠ .unknown := by decide
  refine ⟨fun t _ _ j t' _ ht' => hknown t' (List.mem_of_getElem? ht'), ?_, ?_, ?_⟩
  · intro t ht _ i href
    simp only [aliasSchema, List.mem_cons, List.not_mem_nil, or_false] at ht
    rcases ht with rfl | rfl <;> simp [newType] at href
  · refine Kahn.acyclic_of_rank (fun i => 1 - i) fun j i hj => ?_
    obtain ⟨t, t', ht, -, hleads, -⟩ := hj
    rcases i with _ | _ | i
    · obtain rfl := Option.some.inj ht
      cases hleads with
      | derived _ href =>
          cases href
          decide
      | select h => cases h
    · obtain rfl := Option.some.inj ht
      cases hleads with
      | derived h => cases h
      | select h => cases h
    · cases ht
  · intro e he l hl a ha
    obtain rfl := List.mem_singleton.mp he
    obtain rfl := Option.some.inj hl
    obtain rfl := List.mem_singleton.mp ha
    exact fun t ht => hknown t (List.mem_of_getElem? ht)

/-- A type that is derived from an entity has no column type: the entity is taken for a type. -/
theorem not_always_total : ∃ c, parse (aliasText "IfcA") = .ok (c, 0) ∧ c.schema.Sound ∧
    (∀ t ∈ c.schema.types, t.type ≠ .unknown) ∧ ¬ Total c.schema := by
  obtain ⟨c, hc, hschema⟩ := parsedSchema_ok (show parsedSchema (aliasText "IfcA") =
    .ok (aliasSchema (.entity 0), 0) by decide +kernel)
  refine ⟨c, hc, ?_, ?_, fun h => ?_⟩
  · rw [hschema]
    refine ⟨?_, ?_⟩
    · intro t ht
      simp only [aliasSchema, List.mem_cons, List.not_mem_nil, or_false] at ht
      rcases ht with rfl | rfl
      · exact ⟨fun _ => ⟨.entity 0, rfl, Nat.zero_lt_one⟩, by simp [newType]⟩
      · exact ⟨by simp, by simp [newType]⟩
    · intro e he
      obtain rfl := List.mem_singleton.mp he
      refine ⟨⟨_, rfl, fun a ha => ?_⟩, ⟨[], rfl, by simp⟩, by simp⟩
      obtain rfl := List.mem_singleton.mp ha
      exact Nat.zero_lt_two
  · rw [hschema]
    decide
  · rw [hschema] at h
    obtain ⟨-, hu⟩ := mapped_iff.mp (h.types _ List.mem_cons_self (by decide))
    obtain ⟨i, t', href, -⟩ := (unfolds_iff.mp hu).of_derived rfl
    cases href

end VulcanDB.Express
