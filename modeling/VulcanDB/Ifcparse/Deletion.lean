import VulcanDB.Ifcparse.Inverses

/-!
# Ifcparse — Deleting instances

An instance that is deleted is taken out of the attributes that refer to it, of those instances
that are not to be deleted themselves.

* `Argument.without`: what is left of an attribute.
* `Removing`, `Listing`: the file while instances are deleted.
* `Scrubbing.scrubAll`: the references to an instance are taken out.
-/

namespace VulcanDB.Ifcparse

open Cxx Steps Inverted IfcFile

/-! ### What is left of an instance -/

/-- The attribute without the instances that are deleted. -/
def Argument.without (dead : ℕ → Bool) (optional : Bool) : Argument → Argument
  | .entity b => if dead b then .null else .entity b
  | .aggregate bs =>
    let rest := bs.filter fun b => !dead b
    if bs.any dead ∧ rest = [] ∧ optional then .null else .aggregate rest
  | .aggregates bss => .aggregates (bss.map fun bs => bs.filter fun b => !dead b)
  | v => v

/-- An instance whose attributes have lost the dead ones. -/
def EntityInstanceData.without (s : SchemaDefinition) (dead : ℕ → Bool)
    (d : EntityInstanceData) : EntityInstanceData :=
  { d with attributes := d.attributes.mapIdx fun i v => v.without dead (s.optional d.type i) }

section Without

variable {s : SchemaDefinition} {dead dead' : ℕ → Bool} {o : Bool} {d : EntityInstanceData}

/-- The references to the others stay, in order. -/
theorem Argument.instances_without (v : Argument) :
    (v.without dead o).instances = v.instances.filter fun b => !dead b := by
  cases v with
  | null | string | value => rfl
  | entity b => cases hb : dead b <;> simp [without, instances, hb]
  | aggregate bs =>
    by_cases h : bs.any dead ∧ bs.filter (fun b => !dead b) = [] ∧ o = true
    · rw [without, if_pos h]
      exact h.2.1.symm
    · rw [without, if_neg h]
      rfl
  | aggregates bss => simp [without, instances, List.filter_flatten]

theorem Argument.mem_of_mem_without {v : Argument} {b : ℕ}
    (h : b ∈ (v.without dead o).instances) : b ∈ v.instances := by
  rw [instances_without] at h
  exact List.mem_of_mem_filter h

theorem Argument.text_without (v : Argument) : (v.without dead o).text = v.text := by
  cases v with
  | null | string | value | aggregates => rfl
  | entity b => cases hb : dead b <;> simp [without, text, hb]
  | aggregate bs =>
    simp only [without]
    split <;> rfl

theorem Argument.without_eq {v : Argument} (h : ∀ b ∈ v.instances, dead b = false) :
    v.without dead o = v := by
  cases v with
  | null | string | value => rfl
  | entity b => simp [without, h b (List.mem_singleton_self b)]
  | aggregate bs =>
    replace h : ∀ b ∈ bs, dead b = false := h
    have hany : bs.any dead = false := by simpa using h
    have hrest : bs.filter (fun b => !dead b) = bs := List.filter_eq_self.2 (by simpa using h)
    simp only [without, hrest, hany, Bool.false_eq_true, false_and, if_false]
  | aggregates bss =>
    have hrest : ∀ bs ∈ bss, bs.filter (fun b => !dead b) = bs := by
      intro bs hbs
      refine List.filter_eq_self.2 fun b hb => ?_
      rw [h b (List.mem_flatten.2 ⟨bs, hbs, hb⟩)]
      rfl
    simp only [without]
    rw [List.map_congr_left hrest, List.map_id']

/-- Instances may be taken out one after the other. -/
theorem Argument.without_without (v : Argument) :
    (v.without dead o).without dead' o = v.without (fun b => dead b || dead' b) o := by
  cases v with
  | null | string | value => rfl
  | entity b => cases hb : dead b <;> simp [without, hb]
  | aggregate bs =>
    have hrest : (bs.filter fun b => !dead b).filter (fun b => !dead' b) =
        bs.filter fun b => !(dead b || dead' b) := by
      rw [List.filter_filter]
      simp [Bool.and_comm]
    by_cases h : bs.any dead ∧ bs.filter (fun b => !dead b) = [] ∧ o = true
    · rw [without, if_pos h, without, if_pos]
      · rfl
      · obtain ⟨b, hb, hdead⟩ := List.any_eq_true.1 h.1
        refine ⟨List.any_eq_true.2 ⟨b, hb, by rw [hdead]; rfl⟩, ?_, h.2.2⟩
        rw [← hrest, h.2.1]
        rfl
    · rw [without, if_neg h, without, without, hrest]
      refine if_congr (and_congr_left fun hnil => ?_) rfl rfl
      rw [← hrest, List.filter_eq_nil_iff] at hnil
      simp only [List.any_eq_true]
      constructor
      · rintro ⟨b, hb, hdead⟩
        exact ⟨b, List.mem_of_mem_filter hb, by rw [hdead, Bool.or_true]⟩
      · rintro ⟨b, hb, hdead⟩
        by_cases hb' : dead b = true
        · -- not all of the list was taken out first
          have hne : bs.filter (fun b => !dead b) ≠ [] := fun hnil' =>
            h ⟨List.any_eq_true.2 ⟨b, hb, hb'⟩, hnil', hnil.2⟩
          obtain ⟨c, hc⟩ := List.exists_mem_of_ne_nil _ hne
          exact ⟨c, hc, by simpa using hnil.1 c hc⟩
        · refine ⟨b, List.mem_filter.2 ⟨hb, by simpa using hb'⟩, ?_⟩
          simpa [hb'] using hdead
  | aggregates bss =>
    simp [without, List.filter_filter, Bool.and_comm]

@[simp] theorem EntityInstanceData.without_id : (d.without s dead).id = d.id := rfl

@[simp] theorem EntityInstanceData.without_type : (d.without s dead).type = d.type := rfl

@[simp] theorem EntityInstanceData.without_file : (d.without s dead).file = d.file := rfl

theorem EntityInstanceData.attributes_without (i : ℕ) : (d.without s dead).attributes[i]? =
    d.attributes[i]?.map fun v => v.without dead (s.optional d.type i) :=
  List.getElem?_mapIdx

/-- An instance refers to what its attributes refer to. -/
theorem EntityInstanceData.mem_instances_iff {b : ℕ} :
    b ∈ d.instances ↔ ∃ (i : ℕ) (v : Argument), d.attributes[i]? = some v ∧ b ∈ v.instances := by
  rw [EntityInstanceData.instances, List.mem_flatMap]
  constructor
  · rintro ⟨v, hv, hb⟩
    obtain ⟨i, hi⟩ := List.mem_iff_getElem?.1 hv
    exact ⟨i, v, hi, hb⟩
  · rintro ⟨i, v, hv, hb⟩
    exact ⟨v, List.mem_of_getElem? hv, hb⟩

/-- What is left are the references to the others. -/
theorem EntityInstanceData.mem_instances_without {b : ℕ} :
    b ∈ (d.without s dead).instances ↔ b ∈ d.instances ∧ dead b = false := by
  simp only [mem_instances_iff, attributes_without, Option.map_eq_some_iff]
  constructor
  · rintro ⟨i, w, ⟨v, hv, rfl⟩, hb⟩
    rw [Argument.instances_without, List.mem_filter] at hb
    exact ⟨⟨i, v, hv, hb.1⟩, by simpa using hb.2⟩
  · rintro ⟨⟨i, v, hv, hb⟩, hdead⟩
    refine ⟨i, _, ⟨v, hv, rfl⟩, ?_⟩
    rw [Argument.instances_without, List.mem_filter]
    exact ⟨hb, by simpa using hdead⟩

/-- Without dead ones the instance stays. -/
theorem EntityInstanceData.without_eq (h : ∀ b ∈ d.instances, dead b = false) :
    d.without s dead = d := by
  obtain ⟨type, id, file, attributes⟩ := d
  have hattributes : attributes.mapIdx (fun i v => v.without dead (s.optional type i)) =
      attributes := by
    refine List.ext_getElem? fun i => ?_
    rw [List.getElem?_mapIdx]
    cases hv : attributes[i]? with
    | none => rfl
    | some v =>
      exact congrArg some (v.without_eq fun b hb => h b (mem_instances_iff.2 ⟨i, v, hv, hb⟩))
  exact congrArg (EntityInstanceData.mk type id file) hattributes

theorem EntityInstanceData.without_without :
    (d.without s dead).without s dead' = d.without s fun b => dead b || dead' b := by
  unfold without
  simp only [List.mapIdx_mapIdx, Function.comp_def, Argument.without_without]

end Without

/-! ### The file while instances are deleted -/

/-- An instance in the file with one of the ids. -/
def IfcFile.gone (g : IfcFile) (done : List ℕ) (a : ℕ) : Bool :=
  match g.heap a with
  | some d => d.file && decide (d.id ∈ done)
  | none => false

/-- In `f` the instances with the ids in `done` have been deleted, which are still there in `g`. -/
structure Removing (s : SchemaDefinition) (done : List ℕ) (g f : IfcFile) : Prop where
  heap : ∀ a, f.heap a = if g.gone done a then none else g.heap a
  byid : ∀ i, f.byid i = if i ∈ done then none else g.byid i
  bytypeExcl : ∀ t, f.bytypeExcl t = (g.bytypeExcl t).filter fun a => !g.gone done a
  bytype : ∀ t, f.bytype t = (g.bytype t).filter fun a => !g.gone done a
  byguid : ∀ guid b, f.byguid guid = some b ↔ g.byguid guid = some b ∧
    ¬ ∃ a d, g.InFile a d ∧ d.id ∈ done ∧ s.isRoot d ∧ d.guid = some guid
  entityFileMap : f.entityFileMap = g.entityFileMap.filter fun a => !g.gone done a
  rest : f.maxId = g.maxId ∧ f.batchMode = g.batchMode ∧
    f.batchDeletionIds = g.batchDeletionIds
  /-- What is not to be deleted does not refer to what has been. -/
  clean : ∀ b d, g.InFile b d → d.id ∉ g.batchDeletionIds →
    ∀ c ∈ d.instances, g.gone done c = false

/-- The inverse references while instances are deleted.  Those to an instance that is to be
deleted may be there when they are not any more. -/
structure Listing (s : SchemaDefinition) (g f : IfcFile) : Prop where
  byrefExcl : Covers (fun k x => k ∈ g.batchDeletionIds ∧ x ∉ g.batchDeletionIds) f.byrefExcl
    (g.keysAt exclKeys)
  byref : Covers (fun k x => k.1 ∈ g.batchDeletionIds ∧ x ∉ g.batchDeletionIds) f.byref
    (g.keysAt (refKeys s))
  found : ∀ k, ∀ x ∈ Inverted.get f.byrefExcl k, (g.byid x).isSome

section Keys

variable {K : Type} {r : ℕ → ℕ → ℕ → List K} {idOf idOf' : ℕ → ℕ} {ref : K → ℕ}
  {decl i : ℕ} {old mid v : Argument}

/-- The keys depend on the ids of the references only. -/
theorem Argument.keys_congr (h : ∀ b ∈ v.instances, idOf b = idOf' b) :
    v.keys r idOf decl i = v.keys r idOf' decl i := by
  rw [keys, keys, List.map_congr_left h]

/-- An attribute without some of the instances has no other keys, and no fewer under an id that
is not one of theirs. -/
theorem Argument.count_keys_filter [DecidableEq K] {p : ℕ → Bool} (idOf : ℕ → ℕ) (decl i : ℕ)
    (hr : ∀ decl i id, ∀ k ∈ r decl i id, ref k = id)
    (hmid : mid.instances = old.instances.filter p) (k : K) :
    (mid.keys r idOf decl i).count k ≤ (old.keys r idOf decl i).count k ∧
      ((∀ b ∈ old.instances, p b = false → idOf b ≠ ref k) →
        (mid.keys r idOf decl i).count k = (old.keys r idOf decl i).count k) := by
  unfold keys
  rw [hmid]
  induction old.instances with
  | nil => simp
  | cons b bs ih =>
    simp only [List.map_cons, List.flatMap_cons, List.count_append, List.forall_mem_cons]
    cases hb : p b with
    | true =>
      rw [List.filter_cons_of_pos hb]
      simp only [List.map_cons, List.flatMap_cons, List.count_append]
      exact ⟨Nat.add_le_add_left ih.1 _, fun h => congrArg _ (ih.2 h.2)⟩
    | false =>
      rw [List.filter_cons_of_neg (by simp [hb])]
      refine ⟨ih.1.trans (Nat.le_add_left ..), fun h => ?_⟩
      have hnone : k ∉ r decl i (idOf b) := fun hk => h.1 rfl (hr _ _ _ k hk).symm
      rw [ih.2 h.2, List.count_eq_zero.2 hnone, Nat.zero_add]

end Keys

section Removing

variable {s : SchemaDefinition} {done : List ℕ} {f g : IfcFile} {a i j n : ℕ}
  {d : EntityInstanceData} {old mid v : Argument}

/-- Gone are the instances whose ids are done. -/
theorem gone_iff : g.gone done a = true ↔ ∃ d, g.InFile a d ∧ d.id ∈ done := by
  unfold gone InFile
  cases g.heap a <;> simp

/-- For an instance of the file its id decides. -/
theorem gone_eq (hin : g.InFile a d) : g.gone done a = decide (d.id ∈ done) := by
  unfold gone
  simp only [hin.1, hin.2, Bool.true_and]

/-- An attribute without a text is no GlobalId. -/
theorem guidsAfter_eq {d : EntityInstanceData} (hold : old.text = none) (hv : v.text = none) :
    f.guidsAfter s a d i old v = f.byguid := by
  simp only [guidsAfter, deregisterGuid, hold, registerGuid, hv]

/-- What is not gone has the data and the id that it had. -/
theorem Removing.heap_eq (h : Removing s done g f) (ha : g.gone done a = false) :
    f.heap a = g.heap a := by
  rw [h.heap, ha]
  rfl

theorem Removing.idOf_eq (h : Removing s done g f) (ha : g.gone done a = false) :
    f.idOf a = g.idOf a := by
  rw [idOf, idOf, h.heap_eq ha]

/-- An attribute of an instance loses instances that are to be deleted. -/
theorem Listing.set {K : Type} [DecidableEq K] {r : ℕ → ℕ → ℕ → List K} {ref : K → ℕ}
    (hr : ∀ decl i id, ∀ k ∈ r decl i id, ref k = id) {B : List ℕ} {m : StdMap K (List ℕ)}
    (hm : Covers (fun k x => ref k ∈ B ∧ x ∉ B) m (g.keysAt r)) (hw : WellFormed s g)
    (hin : g.InFile n d) (hB : d.id ∉ B) (hi : d.attributes[i]? = some old) {p : ℕ → Bool}
    (hmid : mid.instances = old.instances.filter p)
    (hp : ∀ b ∈ old.instances, p b = false → g.idOf b ∈ B) :
    Covers (fun k x => ref k ∈ B ∧ x ∉ B)
      (pushAll d.id (v.keys r g.idOf d.type i) (eraseAll d.id (mid.keys r g.idOf d.type i) m))
      ((g.setData n (d.set i v)).keysAt r) := by
  have hkeys (w : Argument) (x : ℕ) := hw.keysAt_set (r := r) hin
    (g := g.setData n (d.set i w)) rfl rfl (d.set_id i w) x
  have hat := keysAt_some (r := r) (hw.byid_id hin) hin.1
  have hcount (w : Argument) (k : K) := d.count_keys_set r g.idOf hi w k
  -- the references that the index is not told of
  have hlose : Covers (fun k x => ref k ∈ B ∧ x ∉ B) m
      ((g.setData n (d.set i mid)).keysAt r) := by
    refine hm.lose (fun k x => ?_) fun k x hoff => ?_
    · rw [hkeys]
      split
      · subst x
        have hle := (Argument.count_keys_filter g.idOf d.type i hr hmid k).1
        have heq := hcount mid k
        rw [hat]
        omega
      · exact le_rfl
    · rw [hkeys]
      split
      · subst x
        have hk : ref k ∉ B := fun hk => hoff ⟨hk, hB⟩
        have hle := (Argument.count_keys_filter g.idOf d.type i hr hmid k).2
          fun b hb hpb hid => hk (hid ▸ hp b hb hpb)
        have heq := hcount mid k
        rw [hat]
        omega
      · rfl
  refine hlose.replace (fun k => ?_) (fun k => ?_) fun x hx => by
    rw [hkeys, hkeys, if_neg hx, if_neg hx]
  · have hnull := hcount .null k
    have heq := hcount mid k
    rw [hkeys, if_pos rfl]
    change _ + _ = _ + List.count k [] at hnull
    rw [List.count_nil] at hnull
    omega
  · have hv := hcount v k
    have heq := hcount mid k
    rw [hkeys, hkeys, if_pos rfl, if_pos rfl]
    omega

theorem inFile_setData {e : EntityInstanceData} (he : e.file = true) {b : ℕ}
    {x : EntityInstanceData} :
    (g.setData n e).InFile b x ↔ if b = n then x = e else g.InFile b x :=
  inFile_update rfl he

/-- A record with the same id is as gone as before. -/
theorem gone_setData (done : List ℕ) {e : EntityInstanceData} (hin : g.InFile n d)
    (hid : e.id = d.id) (hfile : e.file = d.file) : (g.setData n e).gone done = g.gone done := by
  funext b
  unfold gone IfcFile.setData
  by_cases hb : b = n
  · subst hb
    simp only [Function.update_self, hin.1, hid, hfile]
  · simp only [Function.update_of_ne hb]

/-- Everything but the inverse references, when an attribute loses instances. -/
theorem Removing.set (h : Removing s done g f) (hin : g.InFile n d)
    (hB : d.id ∉ g.batchDeletionIds) (hdone : ∀ i ∈ done, i ∈ g.batchDeletionIds)
    (hi : d.attributes[i]? = some old) (hv : ∀ b ∈ v.instances, b ∈ old.instances)
    (byref : StdMap (ℕ × ℕ × ℕ) (List ℕ)) (byrefExcl : StdMap ℕ (List ℕ)) :
    Removing s done (g.setData n (d.set i v)) { f with
      heap := Function.update f.heap n (some (d.set i v))
      byref := byref
      byrefExcl := byrefExcl } := by
  have hgone := gone_setData done (e := d.set i v) hin rfl rfl
  have hnot : d.id ∉ done := fun hd => hB (hdone _ hd)
  constructor
  · intro b
    rw [hgone]
    by_cases hb : b = n
    · subst hb
      simp [gone_eq hin, hnot, setData]
    · simpa [setData, hb] using h.heap b
  · exact h.byid
  · rw [hgone]
    exact h.bytypeExcl
  · rw [hgone]
    exact h.bytype
  · intro guid b
    refine (h.byguid guid b).trans (and_congr_right' (not_congr ?_))
    -- a survivor was set, so those that are gone have their records
    refine exists_congr fun c => exists_congr fun x => ?_
    simp only [inFile_setData (g := g) (e := d.set i v) (n := n) hin.2]
    by_cases hc : c = n
    · subst hc
      simp only [if_true]
      constructor
      · rintro ⟨hx, hxd, -⟩
        obtain rfl := Option.some.inj (hin.1.symm.trans hx.1)
        exact absurd hxd hnot
      · rintro ⟨rfl, hxd, -⟩
        exact absurd hxd hnot
    · simp only [if_neg hc]
  · rw [hgone]
    exact h.entityFileMap
  · exact h.rest
  · intro b x hx hxB c hc
    rw [hgone]
    rw [inFile_setData (e := d.set i v) hin.2] at hx
    split at hx
    · subst hx
      rcases mem_instances_set hc with hc | hc
      · exact h.clean n d hin hB c hc
      · exact h.clean n d hin hB c (mem_instances_of_getElem hi (hv c hc))
    · exact h.clean b x hx hxB c hc

/-! ### Taking an instance out of the attributes of another -/

/-- What is kept while the references are taken out. -/
structure Scrubbing (s : SchemaDefinition) (done : List ℕ) (g f : IfcFile) : Prop where
  wellFormed : WellFormed s g
  within : ∀ i ∈ done, i ∈ g.batchDeletionIds
  removing : Removing s done g f
  listing : Listing s g f

theorem mem_exclKeys (decl i id : ℕ) : ∀ k ∈ exclKeys decl i id, k = id :=
  fun _ hk => List.mem_singleton.1 hk

theorem mem_refKeys (decl i id : ℕ) : ∀ k ∈ refKeys s decl i id, k.1 = id := by
  intro k hk
  obtain ⟨e, -, rfl⟩ := List.mem_map.1 hk
  rfl

/-- An attribute is set to what is left of it, after the list in it may have lost the instances. -/
theorem Scrubbing.setArgument (h : Scrubbing s done g f) (hin : g.InFile n d)
    (hB : d.id ∉ g.batchDeletionIds) (hi : d.attributes[i]? = some old) {p : ℕ → Bool}
    (hmid : mid.instances = old.instances.filter p)
    (hp : ∀ b ∈ old.instances, p b = false → g.idOf b ∈ g.batchDeletionIds)
    (hv : ∀ b ∈ v.instances, b ∈ old.instances) (hmidText : mid.text = none)
    (hvText : v.text = none) (hoText : old.text = none) :
    ∃ f', (f.setAttribute n d i mid).setArgument s n i v = .ok f' ∧
      Scrubbing s done (g.setData n (d.set i v)) f' := by
  -- the references of a survivor are all alive, so each of them has its id
  have hgone : ∀ b ∈ old.instances, g.gone done b = false := fun b hb =>
    h.removing.clean n d hin hB b (mem_instances_of_getElem hi hb)
  have hsub : ∀ b ∈ mid.instances, b ∈ old.instances := by
    rw [hmid]
    exact fun b => List.mem_of_mem_filter
  have hn : g.gone done n = false := by
    rw [gone_eq hin, decide_eq_false_iff_not]
    exact fun hd => hB (h.within _ hd)
  have hfn : f.heap n = some d := (h.removing.heap_eq hn).trans hin.1
  have hlive : ∀ b ∈ old.instances, ((f.setAttribute n d i mid).heap b).isSome := by
    intro b hb
    change (Function.update f.heap n (some (d.set i mid)) b).isSome
    by_cases hbn : b = n
    · rw [hbn, Function.update_self]
      rfl
    · obtain ⟨e, he⟩ := h.wellFormed.closed n d hin b (mem_instances_of_getElem hi hb)
      rw [Function.update_of_ne hbn, h.removing.heap_eq (hgone b hb), he.1, Option.isSome_some]
  have hidOf : (f.setAttribute n d i mid).idOf = f.idOf := idOf_set (e := d.set i mid) hfn rfl rfl
  have hkeys {K : Type} (r : ℕ → ℕ → ℕ → List K) (w : Argument)
      (hw : ∀ b ∈ w.instances, b ∈ old.instances) :
      w.keys r (f.setAttribute n d i mid).idOf d.type i = w.keys r g.idOf d.type i := by
    rw [hidOf]
    exact Argument.keys_congr fun b hb => h.removing.idOf_eq (hgone b (hw b hb))
  have hat : (d.set i mid).attributes[i]? = some mid := by
    have hlt := (List.getElem?_eq_some_iff.1 hi).1
    simp [EntityInstanceData.set, hlt]
  have hset : (d.set i mid).set i v = d.set i v := by
    simp [EntityInstanceData.set]
  have hdata : (f.setAttribute n d i mid).heap n = some (d.set i mid) := Function.update_self ..
  -- what `setArgument` does to the half-written record
  have hok := setArgument_eq (s := s) (v := v) hdata hat hin.2 (fun b hb => hlive b (hsub b hb))
    fun b hb => hlive b (hv b hb)
  refine ⟨{ f with
    heap := Function.update f.heap n (some (d.set i v))
    byref := pushAll d.id (v.keys (refKeys s) g.idOf d.type i)
      (eraseAll d.id (mid.keys (refKeys s) g.idOf d.type i) f.byref)
    byrefExcl := pushAll d.id (v.keys exclKeys g.idOf d.type i)
      (eraseAll d.id (mid.keys exclKeys g.idOf d.type i) f.byrefExcl) }, ?_, ?_⟩
  · rw [hok, guidsAfter_eq hmidText hvText, hset, d.set_type, d.set_id, hkeys _ _ hv,
      hkeys _ _ hv, hkeys _ _ hsub, hkeys _ _ hsub]
    simp only [setAttribute, setData, Function.update_idem]
  · refine ⟨h.wellFormed.set hin hi (fun b hb => ?_) (fun guid b hb => ?_) g.byref g.byrefExcl,
      h.within, h.removing.set hin hB h.within hi hv _ _, ?_, ?_, ?_⟩
    · exact h.wellFormed.closed n d hin b (mem_instances_of_getElem hi (hv b hb))
    · exact Or.inr ⟨hb, by simp [hoText]⟩
    · exact Listing.set mem_exclKeys h.listing.byrefExcl h.wellFormed hin hB hi hmid hp
    · exact Listing.set mem_refKeys h.listing.byref h.wellFormed hin hB hi hmid hp
    · intro k x hx
      rcases mem_pushAll hx with hx | rfl
      · exact h.listing.found k x (mem_eraseAll hx)
      · exact Option.isSome_iff_exists.2 ⟨n, h.wellFormed.byid_id hin⟩

theorem set_self (hi : d.attributes[i]? = some v) : d.set i v = d := by
  obtain ⟨type, id, file, attributes⟩ := d
  obtain ⟨hlt, rfl⟩ := List.getElem?_eq_some_iff.1 hi
  exact congrArg (EntityInstanceData.mk type id file) (List.set_getElem_self hlt)

theorem setAttribute_self (hd : f.heap n = some d) (hi : d.attributes[i]? = some v) :
    f.setAttribute n d i v = f := by
  change f.setData n (d.set i v) = f
  rw [set_self hi, setData, ← hd, Function.update_eq_self]

/-- The attribute is left without the instance. -/
theorem Scrubbing.scrubArgument (h : Scrubbing s done g f) (hin : g.InFile n d)
    (hB : d.id ∉ g.batchDeletionIds) (hi : d.attributes[i]? = some v)
    (ha : g.idOf a ∈ g.batchDeletionIds) : ∃ f', scrubArgument s a n f i = .ok f' ∧
      Scrubbing s done
        (g.setData n (d.set i (v.without (fun b => decide (b = a)) (s.optional d.type i)))) f' := by
  have hn : g.gone done n = false := by
    rw [gone_eq hin, decide_eq_false_iff_not]
    exact fun hd => hB (h.within _ hd)
  have hfn : f.heap n = some d := (h.removing.heap_eq hn).trans hin.1
  have hself := setAttribute_self hfn hi
  -- nothing is to be done
  have hnone (hno : ∀ b ∈ v.instances, b ≠ a) : Scrubbing s done
      (g.setData n (d.set i (v.without (fun b => decide (b = a)) (s.optional d.type i)))) f := by
    have hg : g.setData n (d.set i v) = g := setAttribute_self hin.1 hi
    rw [v.without_eq fun b hb => by simpa using hno b hb, hg]
    exact h
  unfold IfcFile.scrubArgument
  rw [data_ok.2 hfn]
  simp only [bind, Except.bind, hi]
  cases v with
  | null | string | value => exact ⟨f, rfl, hnone nofun⟩
  | entity b =>
    by_cases hba : b = a
    · subst hba
      have hmid : (Argument.entity b).instances =
          (Argument.entity b).instances.filter fun _ => true := by simp
      obtain ⟨f', hf', hs⟩ := h.setArgument (v := .null) hin hB hi hmid nofun nofun rfl rfl rfl
      rw [hself] at hf'
      exact ⟨f', by simpa using hf', by simpa [Argument.without] using hs⟩
    · exact ⟨f, by simp [hba], hnone fun c hc => List.mem_singleton.1 hc ▸ hba⟩
  | aggregate bs =>
    by_cases hmem : a ∈ bs
    · have hmid : (Argument.aggregate (bs.filter fun b => !decide (b = a))).instances =
          (Argument.aggregate bs).instances.filter fun b => !decide (b = a) := rfl
      obtain ⟨f', hf', hs⟩ := h.setArgument
        (v := (Argument.aggregate bs).without (fun b => decide (b = a)) (s.optional d.type i))
        hin hB hi hmid (fun b _ hb => by simp_all) (fun b => Argument.mem_of_mem_without) rfl
        (Argument.text_without _) rfl
      refine ⟨f', ?_, hs⟩
      rw [Argument.without] at hf'
      simpa [hmem] using hf'
    · exact ⟨f, by simp [hmem], hnone fun c hc => ne_of_mem_of_not_mem hc hmem⟩
  | aggregates bss =>
    by_cases hmem : ∃ bs ∈ bss, a ∈ bs
    · have hmid : (Argument.aggregates bss).instances =
          (Argument.aggregates bss).instances.filter fun _ => true := by simp
      obtain ⟨f', hf', hs⟩ := h.setArgument
        (v := (Argument.aggregates bss).without (fun b => decide (b = a)) (s.optional d.type i))
        hin hB hi hmid nofun (fun b => Argument.mem_of_mem_without) rfl (Argument.text_without _)
        rfl
      refine ⟨f', ?_, hs⟩
      rw [hself, Argument.without] at hf'
      simpa [hmem] using hf'
    · refine ⟨f, by simp [hmem], hnone fun c hc hca => hmem ?_⟩
      obtain ⟨bs, hbs, hc⟩ := List.mem_flatten.1 hc
      exact ⟨bs, hbs, hca ▸ hc⟩

/-- The instance with the first attributes left without the others. -/
def EntityInstanceData.upTo (s : SchemaDefinition) (dead : ℕ → Bool) (k : ℕ)
    (d : EntityInstanceData) : EntityInstanceData :=
  { d with attributes := d.attributes.mapIdx fun i v =>
      if i < k then v.without dead (s.optional d.type i) else v }

theorem upTo_zero (dead : ℕ → Bool) : d.upTo s dead 0 = d := by
  obtain ⟨type, id, file, attributes⟩ := d
  refine congrArg (EntityInstanceData.mk type id file) (List.ext_getElem? fun i => ?_)
  simp

theorem upTo_length (dead : ℕ → Bool) : d.upTo s dead d.attributes.length = d.without s dead := by
  obtain ⟨type, id, file, attributes⟩ := d
  refine congrArg (EntityInstanceData.mk type id file) (List.ext_getElem? fun i => ?_)
  simp only [List.getElem?_mapIdx]
  cases hv : attributes[i]? with
  | none => rfl
  | some v =>
    have hlt := (List.getElem?_eq_some_iff.1 hv).1
    simp [hlt]

theorem getElem_upTo (dead : ℕ → Bool) {k : ℕ} (hk : d.attributes[k]? = some v) :
    (d.upTo s dead k).attributes[k]? = some v := by
  simp [EntityInstanceData.upTo, hk]

/-- **One attribute** is done. -/
theorem upTo_succ (dead : ℕ → Bool) {k : ℕ} (hk : d.attributes[k]? = some v) :
    (d.upTo s dead k).set k (v.without dead (s.optional d.type k)) = d.upTo s dead (k + 1) := by
  obtain ⟨type, id, file, attributes⟩ := d
  refine congrArg (EntityInstanceData.mk type id file) (List.ext_getElem? fun i => ?_)
  have hlt := (List.getElem?_eq_some_iff.1 hk).1
  rw [List.getElem?_set]
  by_cases hik : k = i
  · subst hik
    have hk' : attributes[k]? = some v := hk
    rw [List.getElem?_mapIdx, hk']
    simpa [EntityInstanceData.upTo] using hlt
  · have hiff : i < k ↔ i < k + 1 := by omega
    simp [EntityInstanceData.upTo, hik, hiff]

theorem setData_setData (x y : EntityInstanceData) :
    (g.setData n x).setData n y = g.setData n y := by
  simp [setData]

theorem setData_self (hd : g.heap n = some d) : g.setData n d = g := by
  rw [setData, ← hd, Function.update_eq_self]

/-- **The attributes of one instance**, by induction on how many are done. -/
theorem Scrubbing.upTo (h : Scrubbing s done g f) (hin : g.InFile n d)
    (hB : d.id ∉ g.batchDeletionIds) (ha : g.idOf a ∈ g.batchDeletionIds) {k : ℕ}
    (hk : k ≤ d.attributes.length) :
    ∃ f', (List.range k).foldlM (IfcFile.scrubArgument s a n) f = .ok f' ∧
      Scrubbing s done (g.setData n (d.upTo s (fun b => decide (b = a)) k)) f' := by
  induction k with
  | zero =>
    refine ⟨f, rfl, ?_⟩
    rw [upTo_zero, setData_self hin.1]
    exact h
  | succ k ih =>
    obtain ⟨f₁, hf₁, h₁⟩ := ih (Nat.le_of_succ_le hk)
    obtain ⟨v, hv⟩ : ∃ v, d.attributes[k]? = some v := ⟨_, List.getElem?_eq_getElem hk⟩
    have hid := idOf_set (e := d.upTo s (fun b => decide (b = a)) k) hin.1
      (g := g.setData n (d.upTo s (fun b => decide (b = a)) k)) rfl rfl
    obtain ⟨f₂, hf₂, h₂⟩ := h₁.scrubArgument ⟨Function.update_self .., hin.2⟩ hB
      (getElem_upTo _ hv) (hid ▸ ha)
    refine ⟨f₂, ?_, ?_⟩
    · rw [List.range_succ, List.foldlM_append, hf₁]
      change (IfcFile.scrubArgument s a n f₁ k >>= pure) = _
      rw [hf₂]
      rfl
    · have hset := upTo_succ (s := s) (fun b => decide (b = a)) hv
      rw [setData_setData] at h₂
      exact hset ▸ h₂

/-- The instances after one of them has lost its references to `a`. -/
def IfcFile.scrubbed (s : SchemaDefinition) (a : ℕ) (g : IfcFile) (n : ℕ) : IfcFile :=
  match g.heap n with
  | some d =>
    if d.id ∈ g.batchDeletionIds then g
    else g.setData n (d.without s fun b => decide (b = a))
  | none => g

theorem Scrubbing.scrub (h : Scrubbing s done g f) (hin : g.InFile n d) (hn : d.id ∉ done)
    (ha : g.idOf a ∈ g.batchDeletionIds) :
    ∃ f', IfcFile.scrub s a f n = .ok f' ∧ Scrubbing s done (g.scrubbed s a n) f' := by
  have hfn : f.heap n = some d := by
    rw [h.removing.heap_eq (by rw [gone_eq hin, decide_eq_false_iff_not]; exact hn), hin.1]
  rw [IfcFile.scrub, data_ok.2 hfn]
  simp only [bind, Except.bind, h.removing.rest.2.2, scrubbed, hin.1]
  by_cases hB : d.id ∈ g.batchDeletionIds
  · rw [if_pos hB, if_pos hB]
    exact ⟨f, rfl, h⟩
  · rw [if_neg hB, if_neg hB, ← upTo_length]
    exact h.upTo hin hB ha le_rfl

theorem scrubbed_eq (g : IfcFile) (n : ℕ) : g.scrubbed s a n = { g with
    heap := fun b => if b = n then (g.heap n).map fun d =>
      if d.id ∈ g.batchDeletionIds then d else d.without s fun b => decide (b = a)
    else g.heap b } := by
  unfold scrubbed
  cases hd : g.heap n with
  | none =>
    refine congrArg (fun heap => ({ g with heap := heap } : IfcFile)) (funext fun b => ?_)
    by_cases hb : b = n <;> simp [hb, hd]
  | some d =>
    by_cases hB : d.id ∈ g.batchDeletionIds
    · simp only [hB, if_true]
      refine congrArg (fun heap => ({ g with heap := heap } : IfcFile)) (funext fun b => ?_)
      by_cases hb : b = n <;> simp [hb, hd, hB]
    · simp only [hB, if_false]
      refine congrArg (fun heap => ({ g with heap := heap } : IfcFile)) (funext fun b => ?_)
      by_cases hb : b = n <;> simp [hb, hB]

/-- What is left of an instance when one is deleted. -/
def IfcFile.remaining (s : SchemaDefinition) (g : IfcFile) (dead : ℕ → Bool)
    (d : EntityInstanceData) : EntityInstanceData :=
  if d.id ∈ g.batchDeletionIds then d else d.without s dead

@[simp] theorem remaining_id (dead : ℕ → Bool) : (g.remaining s dead d).id = d.id := by
  unfold remaining
  split <;> rfl

@[simp] theorem remaining_file (dead : ℕ → Bool) : (g.remaining s dead d).file = d.file := by
  unfold remaining
  split <;> rfl

theorem remaining_remaining (dead dead' : ℕ → Bool) :
    g.remaining s dead' (g.remaining s dead d) = g.remaining s (fun b => dead b || dead' b) d := by
  unfold remaining
  split
  · rfl
  · rename_i hB
    rw [EntityInstanceData.without_id, if_neg hB, EntityInstanceData.without_without]

/-- The instances with those in a list left without `a`. -/
theorem foldl_scrubbed (refs : List ℕ) (g : IfcFile) :
    refs.foldl (scrubbed s a) g = { g with
      heap := fun b =>
        if b ∈ refs then (g.heap b).map (g.remaining s fun c => decide (c = a))
        else g.heap b } := by
  induction refs generalizing g with
  | nil => simp
  | cons n refs ih =>
    rw [List.foldl_cons, ih, scrubbed_eq]
    refine congrArg (fun heap => ({ g with heap := heap } : IfcFile)) (funext fun b => ?_)
    change (if b ∈ refs then Option.map (g.remaining s fun b => decide (b = a)) _ else _) = _
    by_cases hb : b = n
    · subst hb
      simp only [if_true, List.mem_cons, true_or]
      split
      · cases g.heap b with
        | none => rfl
        | some d =>
          change some (g.remaining s _ (g.remaining s _ d)) = some (g.remaining s _ d)
          rw [remaining_remaining]
          simp
      · rfl
    · simp only [List.mem_cons, hb, false_or, if_false]

/-- **All that refer to it** lose their references, by induction on the list. -/
theorem Scrubbing.scrubAll (h : Scrubbing s done g f) {refs : List ℕ}
    (hrefs : ∀ n ∈ refs, ∃ d, g.InFile n d ∧ d.id ∉ done)
    (ha : g.idOf a ∈ g.batchDeletionIds) :
    ∃ f', refs.foldlM (IfcFile.scrub s a) f = .ok f' ∧
      Scrubbing s done (refs.foldl (scrubbed s a) g) f' := by
  induction refs generalizing g f with
  | nil => exact ⟨f, rfl, h⟩
  | cons n refs ih =>
    obtain ⟨⟨d, hin, hd⟩, hrest⟩ := List.forall_mem_cons.1 hrefs
    obtain ⟨f₁, hf₁, h₁⟩ := h.scrub hin hd ha
    have hid : (g.scrubbed s a n).idOf a = g.idOf a := by
      unfold scrubbed
      simp only [hin.1]
      split
      · rfl
      · exact congrFun (idOf_set (e := d.without s fun b => decide (b = a)) hin.1 rfl rfl) a
    have hbatch : (g.scrubbed s a n).batchDeletionIds = g.batchDeletionIds := by
      rw [scrubbed_eq]
    -- the others keep their ids, also one that is listed twice
    have hstill : ∀ m ∈ refs, ∃ d, (g.scrubbed s a n).InFile m d ∧ d.id ∉ done := by
      intro m hm
      obtain ⟨x, hx, hxd⟩ := hrest m hm
      by_cases hmn : m = n
      · subst hmn
        obtain rfl := Option.some.inj (hin.1.symm.trans hx.1)
        refine ⟨g.remaining s (fun b => decide (b = a)) d, ⟨?_, by simpa using hin.2⟩, ?_⟩
        swap
        · simpa using hd
        rw [scrubbed_eq]
        simp [hin.1, remaining]
      · refine ⟨x, ⟨?_, hx.2⟩, hxd⟩
        rw [scrubbed_eq]
        simpa [hmn] using hx.1
    obtain ⟨f₂, hf₂, h₂⟩ := ih h₁ hstill (by rw [hid, hbatch]; exact ha)
    refine ⟨f₂, ?_, h₂⟩
    rw [List.foldlM_cons, hf₁]
    exact hf₂

/-- Without dead references nothing changes. -/
theorem remaining_eq {dead : ℕ → Bool}
    (h : d.id ∉ g.batchDeletionIds → ∀ b ∈ d.instances, dead b = false) :
    g.remaining s dead d = d := by
  unfold remaining
  split
  · rfl
  · rename_i hB
    exact EntityInstanceData.without_eq (h hB)

end Removing

end VulcanDB.Ifcparse
