import VulcanDB.Express.Order

/-!
# EXPRESS — The entities that are generated

Only the entities of the graph have a function in the output, and the types of their attributes
must have an SQL type.

* `castable_iff`: the types that have one.
* `covers_iff`: where the generation completes, with one function for each entity.
-/

namespace VulcanDB.Express

open Cxx Steps

/-! ### Types with an SQL type -/

/-- A chain of derived types ends in a type that is no entity. -/
inductive Castable (s : Schema) : TypeRecord → Prop
  | simple {t} (h : t.type = .real ∨ t.type = .number ∨ t.type = .integer ∨ t.type = .boolean ∨
      t.type = .binary ∨ t.type = .logical ∨ t.type = .string ∨ t.type = .select ∨
      t.type = .reference) : Castable s t
  | enum {t name} (h : t.type = .enum) (hname : t.name = some name) : Castable s t
  | derived {t i t'} (h : t.type = .derived) (href : t.refType = some (.type i))
      (ht' : s.types[i]? = some t') (hc : Castable s t') : Castable s t

section Types

variable {s : Schema} {t : TypeRecord} {sql : Str}

/-- The type of an element, when more types are cast. -/
theorem elementType_mono {f g : TypeRecord → Except Stop Str}
    (hfg : ∀ t sql, f t = .ok sql → g t = .ok sql) (h : elementType f s t = .ok sql) :
    elementType g s t = .ok sql := by
  unfold elementType at h ⊢
  split at h
  case h_11 ht =>
    split at h
    · cases h
    · cases h
    · rename_i i hi
      split at h
      · exact hfg _ _ h
      · cases h
  all_goals exact h

/-- More fuel gives the same. -/
theorem typecast_mono {n m : ℕ} (h : typecastExpressToSql n s t = .ok sql) (hle : n ≤ m) :
    typecastExpressToSql m s t = .ok sql := by
  induction n generalizing m t sql with
  | zero => cases h
  | succ n ih =>
      obtain ⟨m, rfl⟩ : ∃ k, m = k + 1 := ⟨m - 1, by omega⟩
      simp only [typecastExpressToSql, bind_eq_ok, pure_eq_ok] at h ⊢
      obtain ⟨res, hres, rfl⟩ := h
      exact ⟨res, elementType_mono (fun t sql ht => ih ht (Nat.le_of_succ_le_succ hle)) hres, rfl⟩

/-- **A type is cast with enough fuel** exactly when it is castable. -/
theorem castable_iff : (∃ n sql, typecastExpressToSql n s t = .ok sql) ↔ Castable s t := by
  constructor
  · rintro ⟨n, sql, h⟩
    -- the fuel bounds the derivations
    induction n generalizing t sql with
    | zero => cases h
    | succ n ih =>
        simp only [typecastExpressToSql, bind_eq_ok, pure_eq_ok] at h
        obtain ⟨res, hres, -⟩ := h
        unfold elementType at hres
        split at hres
        case h_8 ht =>
          split at hres
          · exact .enum ht ‹_›
          · cases hres
        case h_11 ht =>
          split at hres
          · cases hres
          · cases hres
          · rename_i i href
            split at hres
            · exact .derived ht href ‹_› (ih _ hres)
            · cases hres
        case h_12 => cases hres
        case h_13 => cases hres
        all_goals exact .simple (by simp [*])
  · intro h
    -- one turn for each derivation
    induction h with
    | simple h =>
        rename_i t
        refine ⟨1, ?_⟩
        simp only [typecastExpressToSql, bind_eq_ok, pure_eq_ok]
        have hel : ∃ res, elementType (typecastExpressToSql 0 s) s t = .ok res := by
          unfold elementType
          rcases h with h | h | h | h | h | h | h | h | h <;> rw [h] <;> exact ⟨_, rfl⟩
        obtain ⟨res, hres⟩ := hel
        exact ⟨_, res, hres, rfl⟩
    | enum h hname =>
        refine ⟨1, ?_⟩
        simp only [typecastExpressToSql, elementType, h, hname, bind_eq_ok, pure_eq_ok]
        exact ⟨_, _, rfl, rfl⟩
    | derived h href ht' _ ih =>
        obtain ⟨n, sql, hsql⟩ := ih
        refine ⟨n + 1, ?_⟩
        simp only [typecastExpressToSql, elementType, h, href, ht', hsql, bind_eq_ok, pure_eq_ok]
        exact ⟨_, _, rfl, rfl⟩

end Types

/-- The type of an attribute is. -/
def Attr.Castable (s : Schema) (a : Attr) : Prop :=
  ∃ t, s.attrRecord a.type = .ok t ∧ Express.Castable s t

/-! ### Functions -/

section Functions

variable {s : Schema}

theorem attrSql_mono {n m : ℕ} {a : Attr} {sql : Str} (h : attrSql n s a = .ok sql) (hle : n ≤ m) :
    attrSql m s a = .ok sql := by
  simp only [attrSql, bind_eq_ok] at h ⊢
  obtain ⟨t, ht, hsql⟩ := h
  exact ⟨t, ht, typecast_mono hsql hle⟩

/-- An attribute has an SQL type with enough fuel exactly when its type is castable. -/
theorem exists_attrSql {a : Attr} : (∃ n sql, attrSql n s a = .ok sql) ↔ a.Castable s := by
  simp only [attrSql, bind_eq_ok, Attr.Castable, ← castable_iff]
  constructor
  · rintro ⟨n, sql, t, ht, hsql⟩
    exact ⟨t, ht, n, sql, hsql⟩
  · rintro ⟨t, ht, n, sql, hsql⟩
    exact ⟨n, sql, t, ht, hsql⟩

/-- With fuel for each of the attributes there is fuel for them all. -/
theorem exists_columns {l : List Attr} :
    (∃ n, ∀ a ∈ l, ∃ sql, attrSql n s a = .ok sql) ↔ ∀ a ∈ l, a.Castable s := by
  constructor
  · rintro ⟨n, h⟩ a ha
    exact exists_attrSql.mp ⟨n, h a ha⟩
  · intro h
    induction l with
    | nil => exact ⟨0, by simp⟩
    | cons a l ih =>
        obtain ⟨ha, hl⟩ := List.forall_mem_cons.mp h
        obtain ⟨n, sql, hsql⟩ := exists_attrSql.mpr ha
        obtain ⟨m, hm⟩ := ih hl
        refine ⟨max n m, List.forall_mem_cons.mpr ⟨⟨sql, attrSql_mono hsql (le_max_left n m)⟩, ?_⟩⟩
        intro b hb
        obtain ⟨sql, hsql⟩ := hm b hb
        exact ⟨sql, attrSql_mono hsql (le_max_right n m)⟩

theorem superName_ok {e : EntityRecord} (h : e.Sound s) : ∃ name, s.superName e = .ok name := by
  unfold Schema.superName
  split
  · exact ⟨_, rfl⟩
  · rename_i p hp
    rw [List.getElem?_eq_getElem (h.supertype p hp)]
    exact ⟨_, rfl⟩

/-- What an entity needs for its function. -/
theorem exists_function {n : ℕ} {e : EntityRecord} (h : e.Sound s) {attrs : List Attr}
    (hattrs : e.attrs = some attrs) :
    (∃ f, createPgsqlForEntity n s e = .ok f) ↔ ∀ a ∈ attrs, ∃ sql, attrSql n s a = .ok sql := by
  obtain ⟨name, hname⟩ := superName_ok h
  have hcolumns : (∃ f, createPgsqlForEntity n s e = .ok f) ↔
      ∃ columns, attrs.mapM (attrColumn n s) = .ok columns := by
    simp only [createPgsqlForEntity, hname, hattrs, bind_eq_ok, pure_eq_ok, Except.ok.injEq,
      exists_eq_left']
    constructor
    · rintro ⟨f, columns, hc, -⟩
      exact ⟨columns, hc⟩
    · rintro ⟨columns, hc⟩
      exact ⟨_, columns, hc, rfl⟩
  rw [hcolumns, exists_mapM_ok]
  refine forall₂_congr fun a _ => ?_
  simp only [attrColumn, bind_eq_ok, pure_eq_ok]
  constructor
  · rintro ⟨column, sql, hsql, -⟩
    exact ⟨sql, hsql⟩
  · rintro ⟨sql, hsql⟩
    exact ⟨_, sql, hsql, rfl⟩

/-- The function of an entity has its name in small letters. -/
theorem function_name {n : ℕ} {e : EntityRecord} {f : Statement}
    (h : createPgsqlForEntity n s e = .ok f) : ∃ body, f = .function (toLower e.name) body := by
  simp only [createPgsqlForEntity, bind_eq_ok] at h
  obtain ⟨super, -, h⟩ := h
  split at h
  · cases h
  · simp only [bind_eq_ok, pure_eq_ok] at h
    obtain ⟨columns, -, rfl⟩ := h
    exact ⟨_, rfl⟩

end Functions

/-! ### Every entity -/

/-- The entity that is first among those in no `SUPERTYPE OF` has no `SUBTYPE OF`. -/
def Rooted (s : Schema) : Prop :=
  ∃ (i : ℕ) (e : EntityRecord), s.entities[i]? = some e ∧ Linked s i ∧ (∀ u, ¬ Edge s u i) ∧
    (∀ j < i, Linked s (j : ℕ) → ∃ u, Edge s u j) ∧ e.supertype = none

/-- Where every entity is generated once. -/
structure Generable (s : Schema) : Prop where
  rooted : Rooted s
  castable : ∀ (i : ℕ) (e : EntityRecord) (l : List Attr), s.entities[i]? = some e →
    Linked s i → e.attrs = some l → ∀ a ∈ l, a.Castable s
  covers : ∀ e ∈ s.entities, ∃! i : ℕ, Linked s i ∧
    (s.entities[i]?).map (fun e => toLower e.name) = some (toLower e.name)

/-- The statement makes a function of this name. -/
def Statement.isFunction (name : Str) : Statement → Bool
  | .function n _ => n = name
  | .text _ => false

/-- The functions of one name. -/
def functionsNamed (name : Str) (out : List Statement) : ℕ := out.countP (Statement.isFunction name)

section Covers

variable {s : Schema}

theorem findEntityById_natCast (i : ℕ) : findEntityById s (i : ℤ) = s.entities[i]? := by
  simp [findEntityById]

/-- What is in the graph of a sound schema is an entity. -/
theorem Linked.entity (hsound : s.Sound) {v : ℤ} (h : Linked s v) :
    ∃ (i : ℕ) (e : EntityRecord), v = i ∧ s.entities[i]? = some e := by
  have hedge : ∀ {u w : ℤ}, Edge s u w →
      (∃ (i : ℕ) (e : EntityRecord), u = i ∧ s.entities[i]? = some e) ∧
        ∃ (i : ℕ) (e : EntityRecord), w = i ∧ s.entities[i]? = some e := by
    rintro u w ⟨i, e, subtypes, j, he, hs, hj, rfl, rfl⟩
    obtain ⟨l, hl, hvalid⟩ := (hsound.entities e (List.mem_of_getElem? he)).subtypes
    obtain rfl := Option.some.inj (hs.symm.trans hl)
    obtain ⟨p, rfl, hp⟩ := hvalid j hj
    exact ⟨⟨i, e, rfl, he⟩, p, _, rfl, List.getElem?_eq_getElem hp⟩
  obtain ⟨u, hu | hu⟩ := h
  · exact (hedge hu).1
  · exact (hedge hu).2

/-- The order of a sound schema without cycles, which is that of its graph. -/
theorem exists_order (hsound : s.Sound) (hacyclic : ∀ v, ¬ Relation.TransGen (Edge s) v v) :
    ∃ es order, edges s = .ok es ∧ (topoGraph es).topoSort = some order ∧ order.Nodup ∧
      (∀ v, v ∈ order ↔ Linked s v) ∧ order.Pairwise (Kahn.Before (Edge s)) := by
  obtain ⟨es, hes⟩ := exists_edges.mpr fun e he hnone => by
    obtain ⟨l, hl, -⟩ := (hsound.entities e he).subtypes
    rw [hnone] at hl
    cases hl
  obtain ⟨order, hsort, hnodup, hmem, hpairs⟩ := topoSort_spec hes
  refine ⟨es, order, hes, hsort, hnodup, fun v => ?_, hpairs⟩
  rw [hmem]
  exact and_iff_left (acc_edge hes hacyclic v)

/-- **When the order of the entities is found**, and which entities are in it. -/
theorem topoOrder_iff (hsound : s.Sound) (hacyclic : ∀ v, ¬ Relation.TransGen (Edge s) v v)
    {es : List (ℤ × ℤ)} {order : List ℤ} (hes : edges s = .ok es)
    (hsort : (topoGraph es).topoSort = some order) (hmem : ∀ v, v ∈ order ↔ Linked s v)
    (hpairs : order.Pairwise (Kahn.Before (Edge s))) : topoOrder s = .ok order ↔ Rooted s := by
  -- the first of the order is the least root
  have hhead : ∀ id ids, order = id :: ids →
      (∀ u, ¬ Edge s u id) ∧ ∀ w ∈ ids, (∀ u, ¬ Edge s u w) → id < w := by
    rintro id ids rfl
    exact Kahn.head_spec hpairs (fun h => hacyclic id (.single h))
      fun u hu => (hmem u).mpr ⟨id, .inl hu⟩
  rw [topoOrder_ok]
  constructor
  · rintro ⟨-, id, ids, e, heq, he, hsuper⟩
    obtain ⟨hroot, hleast⟩ := hhead id ids heq
    have hlinked : Linked s id := (hmem id).mp (heq ▸ List.mem_cons_self)
    obtain ⟨i, e', rfl, he'⟩ := hlinked.entity hsound
    rw [findEntityById_natCast] at he
    refine ⟨i, e, he, hlinked, hroot, fun j hj hjlinked => ?_, hsuper⟩
    -- an earlier root would come first
    by_contra hjroot
    have hjmem : (j : ℤ) ∈ (i : ℤ) :: ids := heq ▸ (hmem j).mpr hjlinked
    rcases List.mem_cons.mp hjmem with hji | hjids
    · exact hj.ne (Nat.cast_inj.mp hji)
    · exact absurd (hleast j hjids (not_exists.mp hjroot)) (by simpa using hj.le)
  · rintro ⟨i, e, he, hlinked, hroot, hleast, hsuper⟩
    have hi : (i : ℤ) ∈ order := (hmem i).mpr hlinked
    refine ⟨⟨es, hes, hsort⟩, ?_⟩
    cases horder : order with
    | nil => rw [horder] at hi; cases hi
    | cons id ids =>
        obtain ⟨hidroot, hidleast⟩ := hhead id ids horder
        have hidlinked : Linked s id := (hmem id).mp (horder ▸ List.mem_cons_self)
        obtain ⟨k, e', rfl, he'⟩ := hidlinked.entity hsound
        have hki : k = i := by
          rw [horder] at hi
          rcases List.mem_cons.mp hi with hik | hids
          · exact (Nat.cast_inj.mp hik).symm
          · have hlt : k < i := by exact_mod_cast hidleast i hids hroot
            obtain ⟨u, hu⟩ := hleast k hlt hidlinked
            exact absurd hu (hidroot u)
        subst hki
        exact ⟨k, ids, e, rfl, by rw [findEntityById_natCast, he], hsuper⟩

/-- With fuel for each function there is fuel for them all. -/
theorem exists_functions (hsound : s.Sound) {order : List ℤ} (hmem : ∀ v, v ∈ order ↔ Linked s v) :
    (∃ n functions, order.mapM (createById n s) = .ok functions) ↔
      ∀ (i : ℕ) (e : EntityRecord) (l : List Attr), s.entities[i]? = some e → Linked s i →
        e.attrs = some l → ∀ a ∈ l, a.Castable s := by
  -- the attributes of all the entities in the order
  have hone : ∀ n (i : ℕ) (e : EntityRecord) (l : List Attr), s.entities[i]? = some e →
      e.attrs = some l →
        ((∃ f, createById n s i = .ok f) ↔ ∀ a ∈ l, ∃ sql, attrSql n s a = .ok sql) := by
    intro n i e l he hl
    rw [← exists_function (hsound.entities e (List.mem_of_getElem? he)) hl, createById,
      findEntityById_natCast, he]
  simp only [exists_mapM_ok]
  constructor
  · rintro ⟨n, h⟩ i e l he hlinked hl
    exact exists_columns.mp ⟨n, (hone n i e l he hl).mp (h i ((hmem i).mpr hlinked))⟩
  · intro h
    let all : List Attr := order.flatMap fun id =>
      ((findEntityById s id).bind (·.attrs)).getD []
    have hall : ∀ a ∈ all, a.Castable s := by
      intro a ha
      obtain ⟨id, hid, ha⟩ := List.mem_flatMap.mp ha
      have hlinked := (hmem id).mp hid
      obtain ⟨i, e, rfl, he⟩ := hlinked.entity hsound
      obtain ⟨l, hl, -⟩ := (hsound.entities e (List.mem_of_getElem? he)).attrs
      rw [findEntityById_natCast, he, Option.bind_some, hl, Option.getD_some] at ha
      exact h i e l he hlinked hl a ha
    obtain ⟨n, hn⟩ := exists_columns.mpr hall
    refine ⟨n, fun id hid => ?_⟩
    obtain ⟨i, e, rfl, he⟩ := ((hmem id).mp hid).entity hsound
    obtain ⟨l, hl, -⟩ := (hsound.entities e (List.mem_of_getElem? he)).attrs
    refine (hone n i e l he hl).mpr fun a ha => hn a (List.mem_flatMap.mpr ⟨i, hid, ?_⟩)
    rwa [findEntityById_natCast, he, Option.bind_some, hl, Option.getD_some]

/-- A function is made for the entity of the id. -/
theorem createById_ok {n : ℕ} {id : ℤ} {f : Statement} (h : createById n s id = .ok f) :
    ∃ e body, findEntityById s id = some e ∧ f = .function (toLower e.name) body := by
  rw [createById] at h
  split at h
  · cases h
  · rename_i e he
    obtain ⟨body, rfl⟩ := function_name h
    exact ⟨e, body, he, rfl⟩

/-- There are as many functions of a name as ids of entities with it. -/
theorem functionsNamed_functions {n : ℕ} {order : List ℤ} {functions : List Statement}
    (h : order.mapM (createById n s) = .ok functions) (name : Str) :
    functionsNamed name functions =
      order.countP fun id => (findEntityById s id).map (fun e => toLower e.name) = some name := by
  induction mapM_eq_ok.mp h with
  | nil => rfl
  | cons hab hrest ih =>
      have hrest' := ih (mapM_eq_ok.mpr hrest)
      obtain ⟨e, body, he, rfl⟩ := createById_ok hab
      rw [functionsNamed] at hrest' ⊢
      rw [List.countP_cons, List.countP_cons, hrest', he]
      simp [Statement.isFunction]

/-- The statements before the functions are none. -/
theorem functionsNamed_before {enums : List Statement} {ts : List TypeRecord}
    (h : ts.mapM createPgsqlForEnum = .ok enums) (name : Str) :
    functionsNamed name (preamble ++ enums) = 0 := by
  refine List.countP_eq_zero.mpr fun st hst => ?_
  have htext : ∃ t, st = .text t := by
    rcases List.mem_append.mp hst with hst | hst
    · simp only [preamble, List.mem_cons, List.not_mem_nil, or_false] at hst
      rcases hst with rfl | rfl <;> exact ⟨_, rfl⟩
    · obtain ⟨t, -, ht⟩ := (mem_mapM_ok h st).mp hst
      unfold createPgsqlForEnum at ht
      split at ht
      · cases ht
      · obtain rfl := Except.ok.inj ht
        exact ⟨_, rfl⟩
  obtain ⟨t, rfl⟩ := htext
  exact Bool.false_ne_true

theorem countP_eq_one {α : Type} {l : List α} (h : l.Nodup) (p : α → Bool) :
    l.countP p = 1 ↔ ∃! a, a ∈ l ∧ p a = true := by
  rw [List.countP_eq_length_filter, List.length_eq_one_iff]
  constructor
  · rintro ⟨a, ha⟩
    have hmem : ∀ b, b ∈ l ∧ p b = true ↔ b = a := fun b => by
      rw [← List.mem_filter, ha, List.mem_singleton]
    exact ⟨a, (hmem a).mpr rfl, fun b hb => (hmem b).mp hb⟩
  · rintro ⟨a, ha, huniq⟩
    refine ⟨a, List.perm_singleton.mp
      ((List.perm_ext_iff_of_nodup (h.filter _) (List.nodup_singleton a)).mpr fun b => ?_)⟩
    rw [List.mem_filter, List.mem_singleton]
    exact ⟨huniq b, fun hb => hb ▸ ha⟩

/-- **One function of a name** is one entity of that name in the graph. -/
theorem functionsNamed_out (hsound : s.Sound) {order : List ℤ} (hnodup : order.Nodup)
    (hmem : ∀ v, v ∈ order ↔ Linked s v) {n : ℕ} {ts : List TypeRecord}
    {enums functions : List Statement} (henums : ts.mapM createPgsqlForEnum = .ok enums)
    (hfunctions : order.mapM (createById n s) = .ok functions) (name : Str) :
    functionsNamed name (preamble ++ enums ++ functions) = 1 ↔
      ∃! i : ℕ, Linked s i ∧ (s.entities[i]?).map (fun e => toLower e.name) = some name := by
  have hsum : functionsNamed name (preamble ++ enums ++ functions) =
      functionsNamed name (preamble ++ enums) + functionsNamed name functions := List.countP_append
  rw [hsum, functionsNamed_before henums, Nat.zero_add, functionsNamed_functions hfunctions,
    countP_eq_one hnodup]
  simp only [decide_eq_true_eq, hmem]
  constructor
  · rintro ⟨id, ⟨hlinked, hname⟩, huniq⟩
    obtain ⟨i, e, rfl, he⟩ := hlinked.entity hsound
    rw [findEntityById_natCast] at hname
    refine ⟨i, ⟨hlinked, hname⟩, fun k hk => ?_⟩
    have hkid := huniq k ⟨hk.1, by rw [findEntityById_natCast]; exact hk.2⟩
    exact Nat.cast_inj.mp hkid
  · rintro ⟨i, ⟨hlinked, hname⟩, huniq⟩
    refine ⟨i, ⟨hlinked, by rw [findEntityById_natCast]; exact hname⟩, fun id hid => ?_⟩
    obtain ⟨k, e, rfl, he⟩ := hid.1.entity hsound
    have hk := hid.2
    rw [findEntityById_natCast] at hk
    rw [huniq k ⟨hid.1, hk⟩]

end Covers

/-- **Main result.**  The SQL of a schema with its names declared and no cycle of subtypes is
generated, with one function for each of the entities, if and only if it is `Generable`. -/
theorem covers_iff {text : Str} {c : Context} (hparse : parse text = .ok (c, 0))
    (hsound : c.schema.Sound) (hacyclic : ∀ v, ¬ Relation.TransGen (Edge c.schema) v v) :
    (∃ n out, generatePgsqlForSchema n c.schema = .ok out ∧
      ∀ e ∈ c.schema.entities, functionsNamed (toLower e.name) out = 1) ↔ Generable c.schema := by
  obtain ⟨es, order, hes, hsort, hnodup, hmem, hpairs⟩ := exists_order hsound hacyclic
  have htopo := topoOrder_iff hsound hacyclic hes hsort hmem hpairs
  have hunique : ∀ {o}, topoOrder c.schema = .ok o → o = order := by
    intro o ho
    obtain ⟨⟨es', hes', hsort'⟩, -⟩ := topoOrder_ok.mp ho
    obtain rfl := Except.ok.inj (hes'.symm.trans hes)
    exact Option.some.inj (hsort'.symm.trans hsort)
  -- every type of the table has a name
  have henums : ∃ enums, (c.schema.types.filter fun t => t.type = .enum).mapM createPgsqlForEnum =
      .ok enums := by
    refine exists_mapM_ok.mpr fun t ht => ?_
    have hname : t.name ∈ c.schema.types.map (·.name) :=
      List.mem_map_of_mem (List.mem_of_mem_filter ht)
    rw [(parse_ok.mp hparse).1.holds.types] at hname
    obtain ⟨name, -, hname⟩ := List.mem_map.mp hname
    rw [createPgsqlForEnum, ← hname]
    exact ⟨_, rfl⟩
  constructor
  · rintro ⟨n, out, hout, hone⟩
    obtain ⟨enums, o, functions, henums', ho, hfunctions, rfl⟩ := generate_ok.mp hout
    obtain rfl := hunique ho
    exact ⟨htopo.mp ho, (exists_functions hsound hmem).mp ⟨n, functions, hfunctions⟩,
      fun e he => (functionsNamed_out hsound hnodup hmem henums' hfunctions _).mp (hone e he)⟩
  · intro h
    obtain ⟨enums, henums⟩ := henums
    obtain ⟨n, functions, hfunctions⟩ := (exists_functions hsound hmem).mpr h.castable
    exact ⟨n, _, generate_ok.mpr
        ⟨enums, order, functions, henums, htopo.mpr h.rooted, hfunctions, rfl⟩,
      fun e he => (functionsNamed_out hsound hnodup hmem henums hfunctions _).mpr (h.covers e he)⟩

/-- A schema with a family of entities. -/
theorem covers_family : ∃ c, parse (familyText "IfcY" "IfcR") = .ok (c, 0) ∧
    ((∃ n out, generatePgsqlForSchema n c.schema = .ok out ∧
      ∀ e ∈ c.schema.entities, functionsNamed (toLower e.name) out = 1) ↔ Generable c.schema) := by
  obtain ⟨c, hc, hschema⟩ := parsedSchema_ok parsed_family
  refine ⟨c, hc, covers_iff hc (hschema ▸ family_sound (by decide) (by decide)) fun v hv => ?_⟩
  rw [hschema] at hv
  exact family_acyclic v (Relation.TransGen.mono (fun _ _ h => .inl h) _ _ hv)

/-- A schema of one entity, which is in no `SUPERTYPE OF`: nothing is generated. -/
theorem not_always_covers : ∃ c, parse (siteText "IfcA") = .ok (c, 0) ∧ c.schema.Sound ∧
    (∀ v, ¬ Relation.TransGen (Edge c.schema) v v) ∧ topoOrder c.schema = .error .badIndex ∧
    ¬ ∃ n out, generatePgsqlForSchema n c.schema = .ok out := by
  obtain ⟨c, hc, hschema⟩ := parsedSchema_ok
    (show parsedSchema (siteText "IfcA") = .ok (siteSchema (some 0), 0) by decide +kernel)
  have horder : topoOrder (siteSchema (some 0)) = .error .badIndex := by decide +kernel
  refine ⟨c, hc, ?_, ?_, hschema ▸ horder, ?_⟩
  · rw [hschema]
    refine ⟨by simp [siteSchema],
      List.forall_mem_singleton.mpr ⟨⟨_, rfl, ?_⟩, ⟨[], rfl, by simp⟩, ?_⟩⟩
    · refine List.forall_mem_singleton.mpr ⟨fun _ => ⟨.entity 0, rfl, Nat.zero_lt_one⟩, ?_⟩
      exact fun j hj => absurd hj (Nat.not_lt_zero j)
    · rintro p ⟨⟩
  · have hnone : ∀ u v, ¬ Edge c.schema u v := by
      rw [hschema]
      rintro u v ⟨i, e, subtypes, j, he, hs, hj, -, -⟩
      obtain rfl := List.mem_singleton.mp (List.mem_of_getElem? he)
      obtain rfl := Option.some.inj hs
      cases hj
    intro v hv
    cases hv with
    | single h => exact hnone _ _ h
    | tail _ h => exact hnone _ _ h
  · rintro ⟨n, out, hout⟩
    obtain ⟨-, order, -, -, ho, -⟩ := generate_ok.mp hout
    rw [hschema, horder] at ho
    cases ho

end VulcanDB.Express
