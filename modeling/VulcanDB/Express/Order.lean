import VulcanDB.Express.Graph
import VulcanDB.Express.Integrity

/-!
# EXPRESS — The order of the entities

The graph that is sorted has the edges of `SUPERTYPE OF`, from an entity to its subtypes, while a
statement refers to the supertype of `SUBTYPE OF`.

* `topoSort_spec`: the order is that of the greatest chains of `SUPERTYPE OF`.
* `parents_first_iff`: so a supertype comes before its subtypes where its greatest chain is less.
-/

namespace VulcanDB.Express

open Cxx Steps

/-! ### Entities and their subtypes -/

/-- The entity `u` has the subtype `v` in its `SUPERTYPE OF`. -/
def Edge (s : Schema) (u v : ℤ) : Prop :=
  ∃ (i : ℕ) (e : EntityRecord) (subtypes : List (Option ℕ)) (j : Option ℕ),
    s.entities[i]? = some e ∧ e.subtypes = some subtypes ∧ j ∈ subtypes ∧ u = i ∧ v = getEntityId j

/-- The entity has a `SUPERTYPE OF`, or is in one. -/
def Linked (s : Schema) (v : ℤ) : Prop := ∃ u, Edge s v u ∨ Edge s u v

section Entities

variable {s : Schema} {es : List (ℤ × ℤ)}

/-- The edges from an entity to its subtypes. -/
theorem subtypeEdges_ok {i : ℕ} {e : EntityRecord} {l : List (ℤ × ℤ)} :
    subtypeEdges i e = .ok l ↔ ∃ subtypes, e.subtypes = some subtypes ∧
      l = subtypes.map fun j => (↑i, getEntityId j) := by
  unfold subtypeEdges
  cases e.subtypes <;> simp [eq_comm]

theorem mem_edges (h : edges s = .ok es) (u v : ℤ) : (u, v) ∈ es ↔ Edge s u v := by
  simp only [edges, bind_eq_ok, pure_eq_ok] at h
  obtain ⟨ls, hls, rfl⟩ := h
  simp only [List.mem_flatten, mem_mapM_ok hls, Prod.exists, List.mem_zipIdx_iff_getElem?,
    subtypeEdges_ok]
  constructor
  · rintro ⟨l, ⟨e, i, he, subtypes, hs, rfl⟩, huv⟩
    obtain ⟨j, hj, heq⟩ := List.mem_map.mp huv
    obtain ⟨rfl, rfl⟩ := Prod.mk.inj heq
    exact ⟨i, e, subtypes, j, he, hs, hj, rfl, rfl⟩
  · rintro ⟨i, e, subtypes, j, he, hs, hj, rfl, rfl⟩
    exact ⟨_, ⟨e, i, he, subtypes, hs, rfl⟩, List.mem_map_of_mem hj⟩

theorem exists_edges : (∃ es, edges s = .ok es) ↔ ∀ e ∈ s.entities, e.subtypes ≠ none := by
  have hls : (∃ es, edges s = .ok es) ↔
      ∃ ls, (s.entities.zipIdx.mapM fun e => subtypeEdges e.2 e.1) = .ok ls := by
    simp only [edges, bind_eq_ok, pure_eq_ok]
    constructor
    · rintro ⟨es, ls, hls, -⟩
      exact ⟨ls, hls⟩
    · rintro ⟨ls, hls⟩
      exact ⟨_, ls, hls, rfl⟩
  rw [hls, exists_mapM_ok]
  simp only [Prod.forall, List.mem_zipIdx_iff_getElem?, subtypeEdges_ok]
  constructor
  · intro h e he
    obtain ⟨i, hi⟩ := List.mem_iff_getElem?.mp he
    obtain ⟨l, subtypes, hs, -⟩ := h e i hi
    simp [hs]
  · intro h e i hi
    obtain ⟨subtypes, hs⟩ := Option.ne_none_iff_exists'.mp (h e (List.mem_of_getElem? hi))
    exact ⟨_, subtypes, hs, rfl⟩

theorem graph_eq_edge (h : edges s = .ok es) :
    (fun u v => v ∈ (topoGraph es).graph u) = Edge s := by
  funext u v
  exact propext (((topoGraph_graphs es).mem_graph u v).trans (mem_edges h u v))

/-- Its nodes are the entities on an edge. -/
theorem mem_nodes (h : edges s = .ok es) (v : ℤ) : v ∈ (topoGraph es).nodes ↔ Linked s v := by
  rw [(topoGraph_graphs es).mem_nodes]
  constructor
  · rintro ⟨e, he, rfl | rfl⟩
    · exact ⟨e.2, .inl ((mem_edges h e.1 e.2).mp he)⟩
    · exact ⟨e.1, .inr ((mem_edges h e.1 e.2).mp he)⟩
  · rintro ⟨u, hu | hu⟩
    · exact ⟨(v, u), (mem_edges h v u).mpr hu, .inl rfl⟩
    · exact ⟨(u, v), (mem_edges h u v).mpr hu, .inr rfl⟩

/-- **The order of the entities** is that of their greatest chains, of those in no cycle. -/
theorem topoSort_spec (h : edges s = .ok es) : ∃ order, (topoGraph es).topoSort = some order ∧
    order.Nodup ∧ (∀ v, v ∈ order ↔ Linked s v ∧ Acc (Edge s) v) ∧
    order.Pairwise (Kahn.Before (Edge s)) := by
  obtain ⟨order, hsort, hnodup, hmem, hpairs⟩ :=
    Kahn.sort_spec (topoGraph_ordered es) fun v _ => (topoGraph_graphs es).degree v
  rw [graph_eq_edge h] at hpairs
  refine ⟨order, hsort, hnodup, fun v => ?_, hpairs⟩
  rw [hmem, mem_nodes h, graph_eq_edge h]

/-- Without cycles every entity is visited. -/
theorem acc_edge (h : edges s = .ok es) (hacyclic : ∀ v, ¬ Relation.TransGen (Edge s) v v) (v : ℤ) :
    Acc (Edge s) v := by
  have hacc := Kahn.acc_of_acyclic (topoGraph_ordered es) (graph_eq_edge h ▸ hacyclic) v
  rwa [graph_eq_edge h] at hacc

end Entities

/-! ### The statements -/

/-- The entity has a function in the output. -/
def Emitted (s : Schema) (v : ℤ) : Prop := Linked s v ∧ Acc (Edge s) v

/-- **The order of the entities**: the sort returns it, and its first id is an entity's. -/
theorem topoOrder_ok {s : Schema} {order : List ℤ} : topoOrder s = .ok order ↔
    (∃ es, edges s = .ok es ∧ (topoGraph es).topoSort = some order) ∧
    ∃ id ids e, order = id :: ids ∧ findEntityById s id = some e ∧ e.supertype = none := by
  constructor
  · intro h
    simp only [topoOrder, bind_eq_ok] at h
    obtain ⟨es, hes, h⟩ := h
    split at h
    · cases h
    · cases h
    · rename_i id ids hsort
      split at h
      · cases h
      · rename_i e he
        simp only [bind_eq_ok, require_eq_ok, pure_eq_ok] at h
        obtain ⟨-, hsuper, rfl⟩ := h
        exact ⟨⟨es, hes, hsort⟩, id, ids, e, rfl, he, hsuper⟩
  · rintro ⟨⟨es, hes, hsort⟩, id, ids, e, rfl, he, hsuper⟩
    simp only [topoOrder, hes, bind_eq_ok]
    refine ⟨es, rfl, ?_⟩
    rw [hsort]
    simp only [he]
    simp only [hsuper, bind_eq_ok, require_eq_ok, pure_eq_ok, exists_const, and_self]

theorem generate_ok {n : ℕ} {s : Schema} {out : List Statement} :
    generatePgsqlForSchema n s = .ok out ↔ ∃ enums order functions,
      (s.types.filter fun t => t.type = .enum).mapM createPgsqlForEnum = .ok enums ∧
      topoOrder s = .ok order ∧ order.mapM (createById n s) = .ok functions ∧
      preamble ++ enums ++ functions = out := by
  simp only [generatePgsqlForSchema, bind_eq_ok, pure_eq_ok]
  constructor
  · rintro ⟨enums, henums, order, horder, functions, hfunctions, rfl⟩
    exact ⟨enums, order, functions, henums, horder, hfunctions, rfl⟩
  · rintro ⟨enums, order, functions, henums, horder, hfunctions, rfl⟩
    exact ⟨enums, henums, order, horder, functions, hfunctions, rfl⟩

/-- The order of a schema, and the entities that are in it. -/
theorem topoOrder_spec {s : Schema} {order : List ℤ} (h : topoOrder s = .ok order) :
    order.Nodup ∧ (∀ v, v ∈ order ↔ Emitted s v) ∧ order.Pairwise (Kahn.Before (Edge s)) := by
  obtain ⟨⟨es, hes, hsort⟩, -⟩ := topoOrder_ok.mp h
  obtain ⟨order', hsort', hspec⟩ := topoSort_spec hes
  obtain rfl := Option.some.inj (hsort.symm.trans hsort')
  exact hspec

/-- In the output, the function of an entity comes after that of the supertype it refers to. -/
def ParentsFirst (n : ℕ) (s : Schema) (out : List Statement) : Prop :=
  ∃ before order functions, out = before ++ functions ∧ topoOrder s = .ok order ∧
    List.Forall₂ (fun id f => createById n s id = .ok f) order functions ∧
    ∀ (i p : ℕ) (e : EntityRecord), s.entities[i]? = some e → e.supertype = some p →
      (i : ℤ) ∈ order → (p : ℤ) ∈ order → order.idxOf (p : ℤ) < order.idxOf (i : ℤ)

/-- **Main result.**  A supertype comes before its subtypes, if and only if the greatest chain of
`SUPERTYPE OF` to it is less than those to them. -/
theorem parents_first_iff {n : ℕ} {s : Schema} {out : List Statement}
    (h : generatePgsqlForSchema n s = .ok out) : ParentsFirst n s out ↔
      ∀ (i p : ℕ) (e : EntityRecord), s.entities[i]? = some e → e.supertype = some p →
        Emitted s i → Emitted s p → Kahn.Before (Edge s) p i := by
  obtain ⟨enums, order, functions, henums, horder, hfunctions, rfl⟩ := generate_ok.mp h
  obtain ⟨hnodup, hmem, hpairs⟩ := topoOrder_spec horder
  have hplace : ∀ i p : ℕ, (i : ℤ) ∈ order → (p : ℤ) ∈ order →
      (order.idxOf (p : ℤ) < order.idxOf (i : ℤ) ↔ Kahn.Before (Edge s) p i) := fun i p hi hp =>
    Kahn.idxOf_lt_idxOf_iff (fun _ _ hab => hab.asymm) hpairs hp hi
  constructor
  · rintro ⟨before, order', functions', -, horder', -, hfirst⟩ i p e he hp hi hpe
    obtain rfl := Except.ok.inj (horder.symm.trans horder')
    have hi' := (hmem i).mpr hi
    have hp' := (hmem p).mpr hpe
    exact (hplace i p hi' hp').mp (hfirst i p e he hp hi' hp')
  · intro hbefore
    refine ⟨preamble ++ enums, order, functions, rfl, horder, mapM_eq_ok.mp hfunctions,
      fun i p e he hp hi hpe => ?_⟩
    exact (hplace i p hi hpe).mpr (hbefore i p e he hp ((hmem i).mp hi) ((hmem p).mp hpe))

/-- Three entities, of which the second and the third are subtypes of the first. -/
def family (x y : Option ℕ) : Schema :=
  ⟨[], [⟨"IfcR".toList, false, some [], some [some 1, some 2], none⟩,
    ⟨"IfcX".toList, false, some [], some [], x⟩, ⟨"IfcY".toList, false, some [], some [], y⟩]⟩

/-- A supertype with two subtypes, the supertypes of which are left open. -/
def familyText (x y : String) : Str :=
  "SCHEMA S;ENTITY IfcR SUPERTYPE OF(ONEOF(IfcX,IfcY));END_ENTITY;ENTITY IfcX SUBTYPE OF(".toList ++
    x.toList ++ ");END_ENTITY;ENTITY IfcY SUBTYPE OF(".toList ++ y.toList ++
    ");END_ENTITY;END_SCHEMA;".toList

/-- A family whose supertype comes first. -/
theorem parents_first_family : ∃ out, generatePgsqlForSchema 0 (family (some 0) (some 0)) = .ok out ∧
    (ParentsFirst 0 (family (some 0) (some 0)) out ↔
      ∀ (i p : ℕ) (e : EntityRecord), (family (some 0) (some 0)).entities[i]? = some e →
        e.supertype = some p → Emitted (family (some 0) (some 0)) i →
        Emitted (family (some 0) (some 0)) p →
        Kahn.Before (Edge (family (some 0) (some 0))) p i) := by
  obtain ⟨out, hout⟩ := exists_ok
    (show (generatePgsqlForSchema 0 (family (some 0) (some 0))).toOption.isSome = true by
      decide +kernel)
  exact ⟨out, hout, parents_first_iff hout⟩

/-- An entity inherits from another, by the clause of either. -/
def Inherits (s : Schema) (u v : ℤ) : Prop :=
  Edge s u v ∨ ∃ (i p : ℕ) (e : EntityRecord), s.entities[i]? = some e ∧ e.supertype = some p ∧
    u = p ∧ v = i

theorem family_sound {x y : ℕ} (hx : x < 3) (hy : y < 3) : (family (some x) (some y)).Sound := by
  refine ⟨by simp [family], ?_⟩
  refine List.forall_mem_cons.mpr ⟨?_, List.forall_mem_cons.mpr
    ⟨?_, List.forall_mem_singleton.mpr ?_⟩⟩
  · exact ⟨⟨[], rfl, by simp⟩, ⟨_, rfl, by simp [family]⟩, by rintro p ⟨⟩⟩
  · exact ⟨⟨[], rfl, by simp⟩, ⟨[], rfl, by simp⟩, by rintro p ⟨⟩; exact hx⟩
  · exact ⟨⟨[], rfl, by simp⟩, ⟨[], rfl, by simp⟩, by rintro p ⟨⟩; exact hy⟩

/-- The second entity inherits from the third, and both from the first. -/
theorem family_inherits {u v : ℤ} (h : Inherits (family (some 2) (some 0)) u v) :
    (u = 0 ∧ v = 1) ∨ (u = 0 ∧ v = 2) ∨ (u = 2 ∧ v = 1) := by
  rcases h with ⟨i, e, subtypes, j, he, hs, hj, rfl, rfl⟩ | ⟨i, p, e, he, hp, rfl, rfl⟩
  · rcases i with _ | _ | _ | i
    · obtain rfl := Option.some.inj he
      obtain rfl := Option.some.inj hs
      simp only [List.mem_cons, List.not_mem_nil, or_false] at hj
      rcases hj with rfl | rfl
      · exact .inl ⟨rfl, rfl⟩
      · exact .inr (.inl ⟨rfl, rfl⟩)
    · obtain rfl := Option.some.inj he
      obtain rfl := Option.some.inj hs
      cases hj
    · obtain rfl := Option.some.inj he
      obtain rfl := Option.some.inj hs
      cases hj
    · cases he
  · rcases i with _ | _ | _ | i
    · obtain rfl := Option.some.inj he
      cases hp
    · obtain rfl := Option.some.inj he
      obtain rfl := Option.some.inj hp
      exact .inr (.inr ⟨rfl, rfl⟩)
    · obtain rfl := Option.some.inj he
      obtain rfl := Option.some.inj hp
      exact .inr (.inl ⟨rfl, rfl⟩)
    · cases he

/-- Nothing in it inherits from itself. -/
theorem family_acyclic (v : ℤ) : ¬ Relation.TransGen (Inherits (family (some 2) (some 0))) v v := by
  refine Kahn.acyclic_of_rank (fun v => if v = 0 then 0 else if v = 2 then 1 else 2)
    (fun u v huv => ?_) v
  rcases family_inherits huv with ⟨rfl, rfl⟩ | ⟨rfl, rfl⟩ | ⟨rfl, rfl⟩ <;> decide

/-- The family is what the parser reads. -/
theorem parsed_family :
    parsedSchema (familyText "IfcY" "IfcR") = .ok (family (some 2) (some 0), 0) := by
  decide +kernel

/-- An entity whose supertype is the next of the subtypes of the first comes before its parent. -/
theorem not_always_parents_first : ∃ c out, parse (familyText "IfcY" "IfcR") = .ok (c, 0) ∧
    c.schema.Sound ∧ (∀ v, ¬ Relation.TransGen (Inherits c.schema) v v) ∧
    generatePgsqlForSchema 0 c.schema = .ok out ∧ ¬ ParentsFirst 0 c.schema out := by
  obtain ⟨c, hc, hschema⟩ := parsedSchema_ok parsed_family
  obtain ⟨out, hout⟩ := exists_ok
    (show (generatePgsqlForSchema 0 (family (some 2) (some 0))).toOption.isSome = true by
      decide +kernel)
  have horder : topoOrder (family (some 2) (some 0)) = .ok [0, 1, 2] := by decide +kernel
  rw [← hschema] at hout horder
  refine ⟨c, out, hc, hschema ▸ family_sound (by decide) (by decide), hschema ▸ family_acyclic,
    hout, ?_⟩
  · rintro ⟨before, order, functions, -, horder', -, hfirst⟩
    obtain rfl := Except.ok.inj (horder.symm.trans horder')
    have hlt := hfirst 1 2 ⟨"IfcX".toList, false, some [], some [], some 2⟩
      (by rw [hschema]; rfl) rfl (by decide) (by decide)
    exact absurd hlt (by decide)

end VulcanDB.Express
