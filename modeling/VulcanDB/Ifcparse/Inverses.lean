import VulcanDB.Ifcparse.File

/-!
# Ifcparse — Inverse references

What the maps of a file say, and that an attribute of an instance in it may be set.

* `Consistent`: the maps are those of the instances in the file, and the two maps of inverse
  references hold each reference as often as it is there.
* `Consistent.setArgument`: an attribute that is set keeps that.
-/

namespace VulcanDB.Ifcparse

open Cxx Steps Inverted

/-! ### The keys of an instance

An index of inverse references has keys for each reference, given by the type of the instance that
refers, the index of the attribute and the id of the other instance. -/

/-- The keys of `byref_excl`; those of `byref` are `refKeys`. -/
def exclKeys (_ _ id : ℕ) : List ℕ := [id]

section Keys

variable {K : Type} (r : ℕ → ℕ → ℕ → List K) (idOf : ℕ → ℕ)

/-- The keys under which the references of an attribute are filed. -/
def Argument.keys (decl i : ℕ) (v : Argument) : List K :=
  (v.instances.map idOf).flatMap (r decl i)

/-- Those of all attributes. -/
def EntityInstanceData.keys (d : EntityInstanceData) : List K :=
  d.attributes.zipIdx.flatMap fun x => x.1.keys r idOf d.type x.2

/-- An attribute is replaced. -/
def EntityInstanceData.set (d : EntityInstanceData) (i : ℕ) (v : Argument) : EntityInstanceData :=
  { d with attributes := d.attributes.set i v }

@[simp] theorem EntityInstanceData.set_id (d : EntityInstanceData) (i : ℕ) (v : Argument) :
    (d.set i v).id = d.id := rfl

@[simp] theorem EntityInstanceData.set_type (d : EntityInstanceData) (i : ℕ) (v : Argument) :
    (d.set i v).type = d.type := rfl

@[simp] theorem EntityInstanceData.set_file (d : EntityInstanceData) (i : ℕ) (v : Argument) :
    (d.set i v).file = d.file := rfl

/-- What is filed for the old element is exchanged for what is filed for the new. -/
theorem count_flatMap_zipIdx_set {α : Type} [DecidableEq K] (g : α × ℕ → List K) {l : List α}
    {i n : ℕ} {x : α} (h : l[i]? = some x) (y : α) (k : K) :
    (((l.set i y).zipIdx n).flatMap g).count k + (g (x, n + i)).count k =
      ((l.zipIdx n).flatMap g).count k + (g (y, n + i)).count k := by
  induction l generalizing i n with
  | nil => simp at h
  | cons z l ih =>
    cases i with
    | zero =>
      obtain rfl := Option.some.inj h
      simp only [List.set_cons_zero, List.zipIdx_cons, List.flatMap_cons, List.count_append,
        Nat.add_zero]
      omega
    | succ i =>
      have hrest := ih (n := n + 1) (i := i) h
      simp only [List.set_cons_succ, List.zipIdx_cons, List.flatMap_cons, List.count_append]
      rw [show n + (i + 1) = n + 1 + i by omega]
      omega

/-- A new attribute has its keys in the place of those of the old one. -/
theorem EntityInstanceData.count_keys_set [DecidableEq K] {d : EntityInstanceData} {i : ℕ}
    {old : Argument} (h : d.attributes[i]? = some old) (v : Argument) (k : K) :
    ((d.set i v).keys r idOf).count k + (old.keys r idOf d.type i).count k =
      (d.keys r idOf).count k + (v.keys r idOf d.type i).count k := by
  have hset := count_flatMap_zipIdx_set (fun x => x.1.keys r idOf d.type x.2) (n := 0) h v k
  rw [Nat.zero_add] at hset
  exact hset

variable {r idOf}

theorem mem_keys {d : EntityInstanceData} {k : K} (h : k ∈ d.keys r idOf) :
    ∃ b ∈ d.instances, ∃ i, k ∈ r d.type i (idOf b) := by
  obtain ⟨x, hx, hk⟩ := List.mem_flatMap.1 h
  obtain ⟨n, hn, hk⟩ := List.mem_flatMap.1 hk
  obtain ⟨b, hb, rfl⟩ := List.mem_map.1 hn
  have hmem : x.1 ∈ d.attributes := List.mem_of_getElem? (List.mk_mem_zipIdx_iff_getElem?.1 hx)
  exact ⟨b, List.mem_flatMap.2 ⟨x.1, hmem, hb⟩, x.2, hk⟩

/-- The keys depend on the ids of the references only. -/
theorem keys_congr {idOf' : ℕ → ℕ} {d : EntityInstanceData}
    (h : ∀ b ∈ d.instances, idOf b = idOf' b) : d.keys r idOf = d.keys r idOf' := by
  refine List.flatMap_congr fun x hx => ?_
  have hmem : x.1 ∈ d.attributes := List.mem_of_getElem? (List.mk_mem_zipIdx_iff_getElem?.1 hx)
  have hmap : x.1.instances.map idOf = x.1.instances.map idOf' :=
    List.map_congr_left fun b hb => h b (List.mem_flatMap.2 ⟨x.1, hmem, hb⟩)
  rw [Argument.keys, Argument.keys, hmap]

end Keys

/-- A reference is an old one or one of the new value. -/
theorem mem_instances_set {d : EntityInstanceData} {i b : ℕ} {v : Argument}
    (h : b ∈ (d.set i v).instances) : b ∈ d.instances ∨ b ∈ v.instances := by
  obtain ⟨w, hw, hb⟩ := List.mem_flatMap.1 h
  rcases List.mem_or_eq_of_mem_set hw with hw | rfl
  · exact Or.inl (List.mem_flatMap.2 ⟨w, hw, hb⟩)
  · exact Or.inr hb

/-- The references of an attribute are references of the instance. -/
theorem mem_instances_of_getElem {d : EntityInstanceData} {i b : ℕ} {v : Argument}
    (h : d.attributes[i]? = some v) (hb : b ∈ v.instances) : b ∈ d.instances :=
  List.mem_flatMap.2 ⟨v, List.mem_of_getElem? h, hb⟩

/-! ### What the operations do -/

namespace IfcFile

variable {s : SchemaDefinition} {f f' : IfcFile} {a i : ℕ} {d : EntityInstanceData}
  {old v : Argument}

/-- The id of an instance, 0 for one that has been deleted. -/
def idOf (f : IfcFile) (a : ℕ) : ℕ := ((f.heap a).map (·.id)).getD 0

theorem idOf_eq (h : f.heap a = some d) : f.idOf a = d.id := by
  rw [idOf, h]
  rfl

/-- The record of an instance in the heap. -/
theorem data_ok : f.data a = .ok d ↔ f.heap a = some d := by
  unfold data
  cases f.heap a <;> simp

theorem instanceById_ok {id : ℕ} : f.instanceById id = .ok a ↔ f.byid id = some a := by
  unfold instanceById
  cases f.byid id <;> simp

/-- An id is got of each instance that has not been deleted. -/
theorem mapM_ids {bs : List ℕ} (h : ∀ b ∈ bs, (f.heap b).isSome) :
    bs.mapM (fun b => do return (← f.data b).id) = .ok (bs.map f.idOf) := by
  refine mapM_eq_ok.2 (List.forall₂_map_right_iff.2 (List.forall₂_same.2 fun b hb => ?_))
  obtain ⟨d, hd⟩ := Option.isSome_iff_exists.1 (h b hb)
  rw [data_ok.2 hd, idOf_eq hd]
  rfl

/-- The ids of the references of a value. -/
theorem ids_eq (h : ∀ b ∈ v.instances, (f.heap b).isSome) :
    f.ids v = .ok (v.instances.map f.idOf) :=
  mapM_ids h

theorem flatMap_exclKeys (ids : List ℕ) : ids.flatMap (exclKeys d.type i) = ids :=
  List.flatMap_singleton' ids

/-- The references are filed, one after another. -/
theorem foldl_register (d : EntityInstanceData) (i : ℕ) (ids : List ℕ) (f : IfcFile) :
    ids.foldl (registerInverse s d i) f = { f with
      byrefExcl := pushAll d.id (ids.flatMap (exclKeys d.type i)) f.byrefExcl
      byref := pushAll d.id (ids.flatMap (refKeys s d.type i)) f.byref } := by
  rw [flatMap_exclKeys]
  induction ids generalizing f with
  | nil => rfl
  | cons id ids ih =>
    rw [List.foldl_cons, ih, List.flatMap_cons]
    simp only [registerInverse, pushAll, List.foldl_cons, List.foldl_append]

theorem foldl_unregister (d : EntityInstanceData) (i : ℕ) (ids : List ℕ) (f : IfcFile) :
    ids.foldl (unregisterInverse s d i) f = { f with
      byrefExcl := eraseAll d.id (ids.flatMap (exclKeys d.type i)) f.byrefExcl
      byref := eraseAll d.id (ids.flatMap (refKeys s d.type i)) f.byref } := by
  rw [flatMap_exclKeys]
  induction ids generalizing f with
  | nil => rfl
  | cons id ids ih =>
    rw [List.foldl_cons, ih, List.flatMap_cons]
    simp only [unregisterInverse, eraseAll, List.foldl_cons, List.foldl_append]

theorem buildInverses_eq (hd : f.heap a = some d) (h : ∀ b ∈ d.instances, (f.heap b).isSome) :
    f.buildInverses s a = .ok { f with
      byrefExcl := pushAll d.id (d.keys exclKeys f.idOf) f.byrefExcl
      byref := pushAll d.id (d.keys (refKeys s) f.idOf) f.byref } := by
  rw [buildInverses, data_ok.2 hd]
  change d.attributes.zipIdx.foldlM _ f = _
  unfold EntityInstanceData.keys
  have hlive : ∀ x ∈ d.attributes.zipIdx, ∀ b ∈ x.1.instances, (f.heap b).isSome := by
    intro x hx b hb
    exact h b (List.mem_flatMap.2
      ⟨x.1, List.mem_of_getElem? (List.mk_mem_zipIdx_iff_getElem?.1 hx), hb⟩)
  -- the heap stays as it is while the references are registered
  generalize hheap : f.heap = heap at hlive
  have hid : f.idOf = fun b => ((heap b).map (·.id)).getD 0 := by rw [← hheap]; rfl
  rw [hid]
  clear hid hd h
  generalize d.attributes.zipIdx = xs at hlive
  induction xs generalizing f with
  | nil => subst hheap; rfl
  | cons x xs ih =>
    obtain ⟨hx, hxs⟩ := List.forall_mem_cons.1 hlive
    have hids := ids_eq (f := f) (v := x.1) (hheap ▸ hx)
    rw [List.foldlM_cons, hids]
    change xs.foldlM _ ((x.1.instances.map f.idOf).foldl (registerInverse s d x.2) f) = _
    rw [foldl_register, ih (by exact hheap) hxs]
    have hid : f.idOf = fun b => ((heap b).map (·.id)).getD 0 := by rw [← hheap]; rfl
    simp only [List.flatMap_cons, pushAll, List.foldl_append, Argument.keys, hid]

/-- The map by GlobalId after an attribute has been set. -/
def guidsAfter (s : SchemaDefinition) (f : IfcFile) (a : ℕ) (d : EntityInstanceData) (i : ℕ)
    (old v : Argument) : Str → Option ℕ :=
  ((f.deregisterGuid s a d i old).registerGuid s d i v).byguid

/-- Only the map of the GlobalIds changes. -/
theorem deregisterGuid_eq (f : IfcFile) : f.deregisterGuid s a d i old =
    { f with byguid := (f.deregisterGuid s a d i old).byguid } := by
  unfold deregisterGuid
  split
  · split <;> rfl
  · rfl

theorem registerGuid_eq (f : IfcFile) (heap byrefExcl byref) :
    ({ f with heap := heap, byrefExcl := byrefExcl, byref := byref } : IfcFile).registerGuid s d i v
      = { f with
        heap := heap
        byrefExcl := byrefExcl
        byref := byref
        byguid := (f.registerGuid s d i v).byguid } := by
  unfold registerGuid
  cases hv : v.text with
  | none => rfl
  | some guid =>
    cases hb : f.byid d.id with
    | none => rfl
    | some b =>
      simp only
      split <;> rfl

/-- **What `setArgument` does**: the record, the GlobalId and the filed references. -/
theorem setArgument_eq (hd : f.heap a = some d) (hi : d.attributes[i]? = some old)
    (hfile : d.file = true) (hold : ∀ b ∈ old.instances, (f.heap b).isSome)
    (hv : ∀ b ∈ v.instances, (f.heap b).isSome) :
    f.setArgument s a i v = .ok { f with
      heap := Function.update f.heap a (some (d.set i v))
      byrefExcl := pushAll d.id (v.keys exclKeys f.idOf d.type i)
        (eraseAll d.id (old.keys exclKeys f.idOf d.type i) f.byrefExcl)
      byref := pushAll d.id (v.keys (refKeys s) f.idOf d.type i)
        (eraseAll d.id (old.keys (refKeys s) f.idOf d.type i) f.byref)
      byguid := f.guidsAfter s a d i old v } := by
  rw [setArgument, data_ok.2 hd]
  simp only [bind, Except.bind, hi, hfile, if_true]
  have hids : (f.deregisterGuid s a d i old).ids old = .ok (old.instances.map f.idOf) := by
    rw [deregisterGuid_eq]
    exact ids_eq hold
  rw [hids]
  have hids' : ((old.instances.map f.idOf).foldl (unregisterInverse s d i)
      (f.deregisterGuid s a d i old)).ids v = .ok (v.instances.map f.idOf) := by
    rw [foldl_unregister, deregisterGuid_eq]
    exact ids_eq hv
  simp only [hids']
  rw [foldl_register, foldl_unregister, guidsAfter, deregisterGuid_eq]
  generalize (f.deregisterGuid s a d i old).byguid = byguid
  exact congrArg Except.ok (registerGuid_eq { f with byguid := byguid } _ _ _)

/-- One level is traversed, in any order. -/
theorem foldlM_traverseFrom (bs : List ℕ) (visited : List (ℤ × ℕ)) :
    ∃ vs, bs.foldlM (fun visited b => f.traverseFrom 1 1 1 visited b) visited = .ok vs ∧
      ∀ b, b ∈ vs.map (·.2) ↔ b ∈ visited.map (·.2) ∨ b ∈ bs := by
  induction bs generalizing visited with
  | nil => exact ⟨visited, rfl, by simp⟩
  | cons c bs ih =>
    rw [List.foldlM_cons]
    by_cases hc : c ∈ visited.map (·.2)
    · rw [traverseFrom, if_pos hc]
      obtain ⟨vs, hvs, hmem⟩ := ih visited
      refine ⟨vs, hvs, fun b => (hmem b).trans ?_⟩
      rw [List.mem_cons]
      constructor
      · exact Or.imp_right Or.inr
      · rintro (hb | rfl | hb)
        exacts [Or.inl hb, Or.inl hc, Or.inr hb]
    · rw [traverseFrom, if_neg hc]
      obtain ⟨vs, hvs, hmem⟩ := ih (visited ++ [(1, c)])
      refine ⟨vs, hvs, fun b => (hmem b).trans ?_⟩
      rw [List.map_append, List.mem_append, List.mem_cons, or_assoc]
      simp

/-- The instance and those that it refers to. -/
theorem traverse_one (hd : f.heap a = some d) :
    ∃ bs, f.traverse 2 a 1 = .ok bs ∧ ∀ b, b ∈ bs ↔ b = a ∨ b ∈ d.instances := by
  obtain ⟨vs, hvs, hmem⟩ := f.foldlM_traverseFrom d.instances [(0, a)]
  refine ⟨vs.map (·.2), ?_, by simpa using hmem⟩
  rw [traverse, traverseFrom, if_neg (by simp), if_neg (by simp), data_ok.2 hd]
  change (d.instances.foldlM _ [(0, a)] >>= _) = _
  rw [show ((0 : ℤ) + 1) = 1 from rfl, hvs]
  rfl

/-! ### Consistent files -/

/-- The file has this instance with this record. -/
def InFile (f : IfcFile) (a : ℕ) (d : EntityInstanceData) : Prop :=
  f.heap a = some d ∧ d.file = true

/-- The keys of the instance with an id. -/
def keysAt {K : Type} (r : ℕ → ℕ → ℕ → List K) (f : IfcFile) (i : ℕ) : List K :=
  (((f.byid i).bind f.heap).map (·.keys r f.idOf)).getD []

theorem keysAt_some {K : Type} {r : ℕ → ℕ → ℕ → List K} (hb : f.byid i = some a)
    (hd : f.heap a = some d) : f.keysAt r i = d.keys r f.idOf := by
  simp only [keysAt, hb, Option.bind_some, hd, Option.map_some, Option.getD_some]

theorem keysAt_none {K : Type} {r : ℕ → ℕ → ℕ → List K} (hb : f.byid i = none) :
    f.keysAt r i = [] := by
  simp only [keysAt, hb, Option.bind_none, Option.map_none, Option.getD_none]

end IfcFile

open IfcFile

/-- The instances of the file, and the maps without those of the inverse references. -/
structure WellFormed (s : SchemaDefinition) (f : IfcFile) : Prop where
  byid : ∀ i a, f.byid i = some a ↔ ∃ d, f.InFile a d ∧ d.id = i
  id : ∀ a d, f.InFile a d → 0 < d.id ∧ d.id ≤ f.maxId
  /-- What an instance in the file refers to is in it too. -/
  closed : ∀ a d, f.InFile a d → ∀ b ∈ d.instances, ∃ e, f.InFile b e
  bytypeExcl : ∀ t a, a ∈ f.bytypeExcl t ↔ ∃ d, f.InFile a d ∧ d.type = t
  bytype : ∀ t a, a ∈ f.bytype t ↔ ∃ d, f.InFile a d ∧ t ∈ s.lineage d.type
  nodup : ∀ t, (f.bytypeExcl t).Nodup ∧ (f.bytype t).Nodup
  /-- One of two instances with the same GlobalId is not found by it. -/
  byguid : ∀ g a, f.byguid g = some a → ∃ d, f.InFile a d ∧ s.isRoot d ∧ d.guid = some g
  added : ∀ a ∈ f.entityFileMap, ∃ d, f.InFile a d
  batch : f.batchDeletionIds.Nodup ∧ ∀ i ∈ f.batchDeletionIds, (f.byid i).isSome

/-- **The maps are exact**. -/
structure Consistent (s : SchemaDefinition) (f : IfcFile) : Prop extends WellFormed s f where
  noBatch : f.batchMode = false → f.batchDeletionIds = []
  byrefExcl : Inverts f.byrefExcl (f.keysAt exclKeys)
  byref : Inverts f.byref (f.keysAt (refKeys s))

section Consistent

variable {s : SchemaDefinition} {f f' : IfcFile} {a i : ℕ} {d e : EntityInstanceData}
  {old v : Argument} {K : Type} {r : ℕ → ℕ → ℕ → List K}

theorem consistent_new : Consistent s IfcFile.new where
  byid i a := by simp [IfcFile.new, InFile]
  id a d h := by simp [IfcFile.new, InFile] at h
  closed a d h := by simp [IfcFile.new, InFile] at h
  bytypeExcl t a := by simp [IfcFile.new, InFile]
  bytype t a := by simp [IfcFile.new, InFile]
  nodup t := ⟨List.nodup_nil, List.nodup_nil⟩
  byguid g a h := by simp [IfcFile.new] at h
  added a h := by simp [IfcFile.new] at h
  batch := ⟨List.nodup_nil, nofun⟩
  noBatch _ := rfl
  byrefExcl := inverts_empty
  byref := inverts_empty

namespace WellFormed

variable (h : WellFormed s f)
include h

theorem byid_id (hd : f.InFile a d) : f.byid d.id = some a := (h.byid _ _).2 ⟨d, hd, rfl⟩

theorem eq_of_id (hd : f.InFile a d) {b : ℕ} (he : f.InFile b e) (hid : e.id = d.id) : b = a := by
  have hb := h.byid_id he
  rw [hid, h.byid_id hd] at hb
  exact (Option.some.inj hb).symm

/-- What is referred to is in the heap. -/
theorem live (hd : f.InFile a d) : ∀ b ∈ d.instances, (f.heap b).isSome := by
  intro b hb
  obtain ⟨e, he, -⟩ := h.closed a d hd b hb
  rw [he]
  rfl

/-- The keys of the instances in the file are the same as before, if the data of these are. -/
theorem keysAt_eq (hb : f'.byid i = f.byid i) (hd : ∀ a d, f.InFile a d → f'.heap a = some d) :
    f'.keysAt r i = f.keysAt r i := by
  cases hi : f.byid i with
  | none => rw [keysAt_none hi, keysAt_none (hb.trans hi)]
  | some a =>
    obtain ⟨d, hin, -⟩ := (h.byid i a).1 hi
    rw [keysAt_some hi hin.1, keysAt_some (hb.trans hi) (hd a d hin)]
    refine keys_congr fun b hb => ?_
    obtain ⟨e, he⟩ := h.closed a d hin b hb
    rw [idOf_eq (hd b e he), idOf_eq he.1]

/-- Only instances outside the file have changed. -/
theorem withHeap {heap : ℕ → Option EntityInstanceData}
    (hin : ∀ a d, ({ f with heap := heap } : IfcFile).InFile a d ↔ f.InFile a d) :
    WellFormed s { f with heap := heap } where
  byid i a := (h.byid i a).trans (exists_congr fun d => and_congr_left' (hin a d).symm)
  id a d hd := h.id a d ((hin a d).1 hd)
  closed a d hd b hb := (h.closed a d ((hin a d).1 hd) b hb).imp fun e => (hin b e).2
  bytypeExcl t a :=
    (h.bytypeExcl t a).trans (exists_congr fun d => and_congr_left' (hin a d).symm)
  bytype t a := (h.bytype t a).trans (exists_congr fun d => and_congr_left' (hin a d).symm)
  nodup := h.nodup
  byguid g a hg := (h.byguid g a hg).imp fun d => And.imp_left (hin a d).2
  added a ha := (h.added a ha).imp fun d => (hin a d).2
  batch := h.batch

end WellFormed

/-- A heap with the same instances in the file. -/
theorem Consistent.withHeap (h : Consistent s f) {heap : ℕ → Option EntityInstanceData}
    (hin : ∀ a d, ({ f with heap := heap } : IfcFile).InFile a d ↔ f.InFile a d) :
    Consistent s { f with heap := heap } where
  toWellFormed := h.toWellFormed.withHeap hin
  noBatch := h.noBatch
  byrefExcl := h.byrefExcl.congr fun _ => h.keysAt_eq rfl fun a d hd => ((hin a d).2 hd).1
  byref := h.byref.congr fun _ => h.keysAt_eq rfl fun a d hd => ((hin a d).2 hd).1

theorem Consistent.setData (h : Consistent s f) (ha : ∀ d, ¬ f.InFile a d)
    (he : e.file = false) : Consistent s (f.setData a e) := by
  refine h.withHeap fun b d => ?_
  unfold InFile
  by_cases hb : b = a
  · subst hb
    simp only [Function.update_self, Option.some.injEq]
    constructor
    · rintro ⟨rfl, hfile⟩
      simp [he] at hfile
    · exact fun hd => absurd hd (ha d)
  · simp only [Function.update_of_ne hb]

/-! ### Setting an attribute -/

/-- The GlobalId is the first attribute. -/
theorem guid_eq (h : d.attributes[0]? = some v) : d.guid = v.text := by
  rw [EntityInstanceData.guid, List.head?_eq_getElem?, h]
  rfl

/-- A new first attribute is the new GlobalId. -/
theorem guid_set_zero (h : d.attributes[0]? = some old) : (d.set 0 v).guid = v.text := by
  refine guid_eq ?_
  have hlt := (List.getElem?_eq_some_iff.1 h).1
  simp [EntityInstanceData.set, hlt]

theorem guid_set_of_ne (h : i ≠ 0) : (d.set i v).guid = d.guid := by
  unfold EntityInstanceData.guid EntityInstanceData.set
  simp only [List.head?_eq_getElem?]
  rw [List.getElem?_set_ne h]

/-- What is left in the map was there before and is not this GlobalId. -/
theorem deregisterGuid_some {g : Str} {b : ℕ}
    (hg : (f.deregisterGuid s a d i old).byguid g = some b) :
    f.byguid g = some b ∧ ¬ (i = 0 ∧ s.isRoot d ∧ old.text = some g ∧ b = a) := by
  unfold deregisterGuid at hg
  cases htext : old.text with
  | none => exact ⟨by rwa [htext] at hg, by simp⟩
  | some guid =>
    simp only [htext] at hg
    split at hg
    · by_cases hne : g = guid
      · rw [hne] at hg
        simp at hg
      · exact ⟨by simpa only [Function.update_of_ne hne] using hg, by simp [Ne.symm hne]⟩
    · rename_i hcond
      refine ⟨hg, ?_⟩
      rintro ⟨hi, hroot, hguid, rfl⟩
      obtain rfl := Option.some.inj hguid
      exact hcond ⟨hi, hroot, hg⟩

/-- What the map by GlobalId says after an attribute has been set. -/
theorem guidsAfter_some {g : Str} {b : ℕ} (hb : f.byid d.id = some a)
    (hg : f.guidsAfter s a d i old v g = some b) :
    (i = 0 ∧ s.isRoot d ∧ v.text = some g ∧ b = a) ∨
      (f.byguid g = some b ∧ ¬ (i = 0 ∧ s.isRoot d ∧ old.text = some g ∧ b = a)) := by
  have hid : (f.deregisterGuid s a d i old).byid d.id = some a := by rwa [deregisterGuid_eq]
  rw [guidsAfter, registerGuid, hid] at hg
  cases htext : v.text with
  | none =>
    rw [htext] at hg
    exact Or.inr (deregisterGuid_some hg)
  | some guid =>
    simp only [htext] at hg
    split at hg
    · rename_i hcond
      by_cases hne : g = guid
      · subst hne
        simp only [Function.update_self] at hg
        exact Or.inl ⟨hcond.1, hcond.2, rfl, (Option.some.inj hg).symm⟩
      · simp only [Function.update_of_ne hne] at hg
        exact Or.inr (deregisterGuid_some hg)
    · exact Or.inr (deregisterGuid_some hg)

theorem inFile_update {g : IfcFile}
    (hheap : g.heap = Function.update f.heap a (some e)) (he : e.file = true) {b : ℕ}
    {x : EntityInstanceData} : g.InFile b x ↔ if b = a then x = e else f.InFile b x := by
  unfold InFile
  rw [hheap]
  by_cases hb : b = a
  · subst hb
    simp only [Function.update_self, if_true, Option.some.injEq]
    constructor
    · exact fun hx => hx.1.symm
    · rintro rfl
      exact ⟨rfl, he⟩
  · simp only [Function.update_of_ne hb, if_neg hb]

/-- An instance has changed, but not in what `P` says of it. -/
theorem exists_inFile_set (hin : f.InFile a d) {g : IfcFile}
    (hheap : g.heap = Function.update f.heap a (some e)) (he : e.file = true) {b : ℕ}
    {P : EntityInstanceData → Prop} (hP : P e ↔ P d) :
    (∃ x, g.InFile b x ∧ P x) ↔ ∃ x, f.InFile b x ∧ P x := by
  simp only [inFile_update hheap he]
  by_cases hb : b = a
  · subst hb
    simp only [if_true, exists_eq_left, hP]
    constructor
    · exact fun hp => ⟨d, hin, hp⟩
    · rintro ⟨x, hx, hp⟩
      have hdx : d = x := Option.some.inj (hin.1.symm.trans hx.1)
      rwa [hdx]
  · simp only [if_neg hb]

theorem idOf_set (hd : f.heap a = some d) {g : IfcFile}
    (hheap : g.heap = Function.update f.heap a (some e)) (he : e.id = d.id) : g.idOf = f.idOf := by
  funext b
  unfold idOf
  rw [hheap]
  by_cases hb : b = a
  · subst hb
    rw [Function.update_self, hd, Option.map_some, Option.map_some, he]
  · rw [Function.update_of_ne hb]

namespace WellFormed

variable (h : WellFormed s f)
include h

/-- Only the keys of that instance change. -/
theorem keysAt_set (hin : f.InFile a d) {g : IfcFile} (hbyid : g.byid = f.byid)
    (hheap : g.heap = Function.update f.heap a (some e)) (he : e.id = d.id) (j : ℕ) :
    g.keysAt r j = if j = d.id then e.keys r f.idOf else f.keysAt r j := by
  have hid := idOf_set hin.1 hheap he
  split
  · subst j
    rw [keysAt_some (hbyid ▸ h.byid_id hin) (by rw [hheap, Function.update_self]), hid]
  · rename_i hj
    cases hb : f.byid j with
    | none => rw [keysAt_none hb, keysAt_none (hbyid ▸ hb)]
    | some b =>
      obtain ⟨x, hx, hxj⟩ := (h.byid j b).1 hb
      have hne : b ≠ a := by
        rintro rfl
        have hdx : d = x := Option.some.inj (hin.1.symm.trans hx.1)
        exact hj (hdx ▸ hxj.symm)
      rw [keysAt_some hb hx.1, keysAt_some (hbyid ▸ hb) (by rw [hheap, Function.update_of_ne hne,
        hx.1]), hid]

/-- **One map** stays exact where an attribute is replaced. -/
theorem inverts_set {m : StdMap K (List ℕ)} [DecidableEq K] (hm : Inverts m (f.keysAt r))
    (hin : f.InFile a d) (hi : d.attributes[i]? = some old) {g : IfcFile} (hbyid : g.byid = f.byid)
    (hheap : g.heap = Function.update f.heap a (some (d.set i v))) :
    Inverts (pushAll d.id (v.keys r f.idOf d.type i) (eraseAll d.id (old.keys r f.idOf d.type i) m))
      (g.keysAt r) := by
  have hkeys := h.keysAt_set (r := r) hin hbyid hheap (d.set_id i v)
  have hat := keysAt_some (r := r) (h.byid_id hin) hin.1
  refine hm.replace (fun k => ?_) (fun k => ?_) fun j hj => by rw [hkeys, if_neg hj]
  · have hnull := d.count_keys_set r f.idOf hi .null k
    rw [hat]
    change _ + _ = _ + List.count k [] at hnull
    rw [List.count_nil] at hnull
    omega
  · rw [hkeys, if_pos rfl, hat]
    exact d.count_keys_set r f.idOf hi v k

theorem set (hin : f.InFile a d) (hi : d.attributes[i]? = some old)
    (hv : ∀ b ∈ v.instances, ∃ e, f.InFile b e) {byguid : Str → Option ℕ}
    (hguid : ∀ g b, byguid g = some b → (i = 0 ∧ s.isRoot d ∧ v.text = some g ∧ b = a) ∨
      (f.byguid g = some b ∧ ¬ (i = 0 ∧ s.isRoot d ∧ old.text = some g ∧ b = a)))
    (byref : StdMap (ℕ × ℕ × ℕ) (List ℕ)) (byrefExcl : StdMap ℕ (List ℕ)) :
    WellFormed s { f with
      heap := Function.update f.heap a (some (d.set i v))
      byref := byref
      byrefExcl := byrefExcl
      byguid := byguid } := by
  have hfile (b : ℕ) (x : EntityInstanceData) := inFile_update (b := b) (x := x)
    (g := { f with heap := Function.update f.heap a (some (d.set i v)) }) rfl hin.2
  have hex (b : ℕ) (P : EntityInstanceData → Prop) (hP : P (d.set i v) ↔ P d) :=
    (exists_inFile_set (b := b) hin (g := { f with
      heap := Function.update f.heap a (some (d.set i v)) }) rfl hin.2 hP).symm
  -- the same instances are in the file, whatever their records
  have hany {b : ℕ} (hb : ∃ x, f.InFile b x) :=
    (exists_congr fun x => and_iff_left trivial).1
      ((hex b (fun _ => True) Iff.rfl).1 (hb.imp fun x hx => ⟨hx, trivial⟩))
  refine
    { byid := fun j b => (h.byid j b).trans (hex b _ Iff.rfl)
      bytypeExcl := fun t b => (h.bytypeExcl t b).trans (hex b _ Iff.rfl)
      bytype := fun t b => (h.bytype t b).trans (hex b _ Iff.rfl)
      nodup := h.nodup
      added := fun b hb => hany (h.added b hb)
      batch := h.batch
      id := fun b x hx => ?_
      closed := fun b x hx c hc => ?_
      byguid := fun g b hg => ?_ }
  · replace hx := (hfile b x).1 hx
    split at hx
    · subst hx
      exact h.id a d hin
    · exact h.id b x hx
  · replace hx := (hfile b x).1 hx
    refine hany ?_
    split at hx
    · subst hx
      rcases mem_instances_set hc with hc | hc
      exacts [h.closed a d hin c hc, hv c hc]
    · exact h.closed b x hx c hc
  · rcases hguid g b hg with ⟨rfl, hroot, htext, rfl⟩ | ⟨hb, hnot⟩
    · exact ⟨d.set 0 v, (hfile b _).2 (by rw [if_pos rfl]), hroot, (guid_set_zero hi).trans htext⟩
    · obtain ⟨x, hx, hroot, hxg⟩ := h.byguid g b hb
      -- an old entry is kept: it is another instance's, or another attribute was set
      by_cases hba : b = a
      · subst hba
        obtain rfl : d = x := Option.some.inj (hin.1.symm.trans hx.1)
        have hi0 : i ≠ 0 := by
          rintro rfl
          exact hnot ⟨rfl, hroot, (guid_eq hi).symm.trans hxg, rfl⟩
        exact ⟨d.set i v, (hfile b _).2 (by rw [if_pos rfl]), hroot,
          (guid_set_of_ne hi0).trans hxg⟩
      · exact ⟨x, (hfile b x).2 (by rwa [if_neg hba]), hroot, hxg⟩

end WellFormed

/-- An instance in the file may only get instances that are in it. -/
theorem Consistent.setArgument (h : Consistent s f)
    (hv : ∀ d, f.InFile a d → ∀ b ∈ v.instances, ∃ e, f.InFile b e)
    (hs : f.setArgument s a i v = .ok f') : Consistent s f' := by
  obtain ⟨d, hd, -⟩ := bind_eq_ok.1 hs
  rw [data_ok] at hd
  cases hi : d.attributes[i]? with
  | none =>
    rw [IfcFile.setArgument, data_ok.2 hd] at hs
    simp only [bind, Except.bind, hi] at hs
    cases hs
  | some old =>
    cases hfile : d.file with
    | true =>
      have hlive : ∀ b ∈ v.instances, (f.heap b).isSome := by
        intro b hb
        obtain ⟨e, he, -⟩ := hv d ⟨hd, hfile⟩ b hb
        rw [he]
        rfl
      rw [setArgument_eq hd hi hfile
        (fun b hb => h.live ⟨hd, hfile⟩ b (mem_instances_of_getElem hi hb)) hlive] at hs
      cases hs
      have hin : f.InFile a d := ⟨hd, hfile⟩
      exact
        { h.set hin hi (hv d hin) (fun g b => guidsAfter_some (h.byid_id hin)) _ _ with
          noBatch := h.noBatch
          byrefExcl := h.inverts_set h.byrefExcl hin hi rfl rfl
          byref := h.inverts_set h.byref hin hi rfl rfl }
    -- outside of the file nothing is filed
    | false =>
      rw [IfcFile.setArgument, data_ok.2 hd] at hs
      simp only [bind, Except.bind, hi, hfile, Bool.false_eq_true, if_false] at hs
      cases hs
      refine h.setData ?_ hfile
      rintro x ⟨hx, hxfile⟩
      obtain rfl := Option.some.inj (hd.symm.trans hx)
      rw [hfile] at hxfile
      cases hxfile

end Consistent

end VulcanDB.Ifcparse
