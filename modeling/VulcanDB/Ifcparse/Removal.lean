import VulcanDB.Ifcparse.Deletion

/-!
# Ifcparse — Removing instances

The instances that are removed in batch mode are deleted one after the other, and the maps of
inverse references are cleared at the end; outside batch mode they are cleared for each.

* `deprived`: the file as it was, but what stays has lost what has been deleted.
* `Scrubbing.deleteAll`: when the instances can be deleted in their order.
* `processDeletion_spec`: when that completes, and what the file is then.
-/

namespace VulcanDB.Ifcparse

open Cxx Steps Inverted IfcFile

variable {s : SchemaDefinition} {done : List ℕ} {f g : IfcFile} {a i : ℕ}
  {d : EntityInstanceData}

/-! ### One instance after the other -/

/-- The file as it was, but what stays has lost the instances with the ids in `done`. -/
def IfcFile.deprived (s : SchemaDefinition) (f : IfcFile) (done : List ℕ) : IfcFile :=
  { f with heap := fun b => (f.heap b).map fun d =>
      if d.file then f.remaining s (f.gone done) d else d }

theorem heap_deprived (b : ℕ) : (f.deprived s done).heap b = (f.heap b).map fun d =>
    if d.file then f.remaining s (f.gone done) d else d := rfl

/-- Its instances are those of the file, with what remains of them. -/
theorem inFile_deprived {b : ℕ} {x : EntityInstanceData} : (f.deprived s done).InFile b x ↔
    ∃ d, f.InFile b d ∧ x = f.remaining s (f.gone done) d := by
  unfold InFile deprived
  simp only [Option.map_eq_some_iff]
  constructor
  · rintro ⟨⟨d, hd, rfl⟩, hfile⟩
    cases hdf : d.file with
    | true =>
      refine ⟨d, ⟨hd, hdf⟩, ?_⟩
      simp
    | false => simp [hdf] at hfile
  · rintro ⟨d, ⟨hd, hdf⟩, rfl⟩
    exact ⟨⟨d, hd, by simp [hdf]⟩, by simpa using hdf⟩

theorem deprived_nil : f.deprived s [] = f := by
  refine congrArg (fun heap => ({ f with heap := heap } : IfcFile)) (funext fun b => ?_)
  cases f.heap b with
  | none => rfl
  | some d =>
    have hno : f.remaining s (f.gone []) d = d := remaining_eq fun _ c _ => by
      unfold gone
      cases f.heap c <;> simp
    simp [hno]

theorem idOf_deprived : (f.deprived s done).idOf = f.idOf := by
  funext b
  unfold idOf
  rw [heap_deprived]
  cases f.heap b with
  | none => rfl
  | some d =>
    cases hdf : d.file <;> simp [hdf]

theorem gone_deprived (ids : List ℕ) : (f.deprived s done).gone ids = f.gone ids := by
  funext b
  unfold gone
  rw [heap_deprived]
  cases f.heap b with
  | none => rfl
  | some d =>
    cases hdf : d.file <;> simp [hdf]

theorem gone_append (done : List ℕ) (h : WellFormed s f) (hin : f.InFile a d) :
    f.gone (done ++ [d.id]) = fun b => f.gone done b || decide (b = a) := by
  funext b
  unfold gone
  cases hb : f.heap b with
  | none =>
    have hne : b ≠ a := by
      rintro rfl
      rw [hin.1] at hb
      cases hb
    simp [hne]
  | some x =>
    cases hxf : x.file with
    | false =>
      have hne : b ≠ a := by
        rintro rfl
        obtain rfl := Option.some.inj (hin.1.symm.trans hb)
        rw [hin.2] at hxf
        cases hxf
      simp [hne, hxf]
    | true =>
      have hiff : x.id = d.id ↔ b = a := by
        constructor
        · exact h.eq_of_id hin ⟨hb, hxf⟩
        · rintro rfl
          rw [Option.some.inj (hin.1.symm.trans hb)]
      simp [hxf, hiff, Bool.decide_or]

/-- The references to an instance have been taken out of those that stay. -/
theorem foldl_scrubbed_deprived (h : WellFormed s f) (hin : f.InFile a d) {refs : List ℕ}
    (hrefs : ∀ n ∈ refs, ∃ x, f.InFile n x)
    (hall : ∀ b x, f.InFile b x → x.id ∉ f.batchDeletionIds →
      a ∈ (f.remaining s (f.gone done) x).instances → b ∈ refs) :
    refs.foldl (scrubbed s a) (f.deprived s done) = f.deprived s (done ++ [d.id]) := by
  rw [foldl_scrubbed]
  refine congrArg (fun heap => ({ f with heap := heap } : IfcFile)) (funext fun b => ?_)
  change (if b ∈ refs then Option.map (f.remaining s fun c => decide (c = a))
    ((f.heap b).map fun d => if d.file then f.remaining s (f.gone done) d else d)
    else (f.heap b).map fun d => if d.file then f.remaining s (f.gone done) d else d) = _
  rw [gone_append done h hin]
  cases hb : f.heap b with
  | none => simp
  | some x =>
    cases hxf : x.file with
    | false =>
      have hno : b ∉ refs := by
        intro hmem
        obtain ⟨y, hy⟩ := hrefs b hmem
        obtain rfl := Option.some.inj (hb.symm.trans hy.1)
        rw [hy.2] at hxf
        cases hxf
      simp [hno, hxf]
    | true =>
      simp only [Option.map_some, hxf, if_true, ← remaining_remaining]
      split
      · rfl
      · rename_i hno
        refine congrArg some (remaining_eq fun hB c hc => ?_).symm
        rw [remaining_id] at hB
        have hca : c ≠ a := by
          rintro rfl
          exact hno (hall b x ⟨hb, hxf⟩ hB hc)
        simpa using hca

/-- In the deprived file no survivor refers to what is gone. -/
theorem clean_deprived {b c : ℕ} {x : EntityInstanceData} (hx : (f.deprived s done).InFile b x)
    (hB : x.id ∉ f.batchDeletionIds) (hc : c ∈ x.instances) : f.gone done c = false := by
  obtain ⟨d, -, rfl⟩ := inFile_deprived.1 hx
  rw [remaining_id] at hB
  rw [remaining, if_neg hB, EntityInstanceData.mem_instances_without] at hc
  exact hc.2

/-- The rooted instance with an id in `done` that has the GlobalId, if the last of them has. -/
theorem exists_root_append (h : WellFormed s g) (hin : g.InFile a d) (guid : Str) :
    (∃ b x, g.InFile b x ∧ x.id ∈ done ++ [d.id] ∧ s.isRoot x ∧ x.guid = some guid) ↔
      (∃ b x, g.InFile b x ∧ x.id ∈ done ∧ s.isRoot x ∧ x.guid = some guid) ∨
        (s.isRoot d ∧ d.guid = some guid) := by
  constructor
  · rintro ⟨b, x, hx, hxid, hroot, hguid⟩
    rcases List.mem_append.1 hxid with hxid | hxid
    · exact Or.inl ⟨b, x, hx, hxid, hroot, hguid⟩
    · obtain rfl := h.eq_of_id hin hx (List.mem_singleton.1 hxid)
      obtain rfl := Option.some.inj (hin.1.symm.trans hx.1)
      exact Or.inr ⟨hroot, hguid⟩
  · rintro (⟨b, x, hx, hxid, hroot, hguid⟩ | ⟨hroot, hguid⟩)
    · exact ⟨b, x, hx, List.mem_append_left _ hxid, hroot, hguid⟩
    · exact ⟨a, d, hin, by simp, hroot, hguid⟩

/-- The maps without an instance. -/
theorem Removing.erased (h : Removing s done g f) (hw : WellFormed s g) (hin : g.InFile a d)
    (hclean : ∀ b x, g.InFile b x → x.id ∉ g.batchDeletionIds → ∀ c ∈ x.instances,
      g.gone (done ++ [d.id]) c = false) {byguid : Str → Option ℕ}
    (hguid : ∀ guid b, byguid guid = some b ↔
      f.byguid guid = some b ∧ ¬ (s.isRoot d ∧ d.guid = some guid)) :
    Removing s (done ++ [d.id]) g { f with
      byguid := byguid
      byid := Function.update f.byid d.id none
      bytypeExcl := Function.update f.bytypeExcl d.type ((f.bytypeExcl d.type).filter (· ≠ a))
      bytype := fun t => if t ∈ s.lineage d.type then (f.bytype t).filter (· ≠ a) else f.bytype t
      entityFileMap := f.entityFileMap.filter (· ≠ a)
      heap := Function.update f.heap a none } := by
  have hgone := gone_append done hw hin
  -- a list with the instance, and one without it
  have hwith (l : List ℕ) : (l.filter fun b => !g.gone done b).filter (· ≠ a) =
      l.filter fun b => !g.gone (done ++ [d.id]) b := by
    rw [hgone, List.filter_filter]
    exact List.filter_congr fun b _ => by simp [Bool.and_comm]
  have hwithout (l : List ℕ) (ha : a ∉ l) : (l.filter fun b => !g.gone done b) =
      l.filter fun b => !g.gone (done ++ [d.id]) b := by
    rw [hgone]
    exact List.filter_congr fun b hb => by simp [ne_of_mem_of_not_mem hb ha]
  constructor
  · intro b
    rw [hgone]
    by_cases hb : b = a
    · simp [hb]
    · simpa [hb] using h.heap b
  · intro i
    by_cases hi : i = d.id
    · simp [hi]
    · simpa [hi] using h.byid i
  · intro t
    by_cases ht : t = d.type
    · subst ht
      simp only [Function.update_self]
      rw [h.bytypeExcl, hwith]
    · simp only [Function.update_of_ne ht]
      rw [h.bytypeExcl]
      refine hwithout _ fun hmem => ?_
      obtain ⟨x, hx, hxt⟩ := (hw.bytypeExcl t a).1 hmem
      obtain rfl := Option.some.inj (hin.1.symm.trans hx.1)
      exact ht hxt.symm
  · intro t
    by_cases ht : t ∈ s.lineage d.type
    · simp only [if_pos ht]
      rw [h.bytype, hwith]
    · simp only [if_neg ht]
      rw [h.bytype]
      refine hwithout _ fun hmem => ?_
      obtain ⟨x, hx, hxt⟩ := (hw.bytype t a).1 hmem
      obtain rfl := Option.some.inj (hin.1.symm.trans hx.1)
      exact ht hxt
  · intro guid b
    rw [exists_root_append hw hin, not_or, ← and_assoc, ← h.byguid]
    exact hguid guid b
  · rw [← hwith, ← h.entityFileMap]
  · exact h.rest
  · exact hclean

/-- A rooted instance can only be deleted if its GlobalId is a text. -/
theorem Removing.erase (h : Removing s done g f) (hw : WellFormed s g) (hin : g.InFile a d)
    (hd : d.id ∉ done) (hclean : ∀ b x, g.InFile b x → x.id ∉ g.batchDeletionIds →
      ∀ c ∈ x.instances, g.gone (done ++ [d.id]) c = false) :
    ((∃ f', IfcFile.erase s f a d.id = .ok f') ↔ (s.isRoot d → d.guid.isSome)) ∧
      ∀ f', IfcFile.erase s f a d.id = .ok f' → Removing s (done ++ [d.id]) g f' ∧
        f'.byref = f.byref ∧ f'.byrefExcl = f.byrefExcl := by
  have hna : g.gone done a = false := by
    rw [gone_eq hin, decide_eq_false_iff_not]
    exact hd
  have hfa : f.heap a = some d := (h.heap_eq hna).trans hin.1
  -- the lists of its types still have the instance, so they are not empty
  have hbytype : ∀ t ∈ s.lineage d.type, f.bytype t ≠ [] := by
    intro t ht
    rw [h.bytype]
    exact List.ne_nil_of_mem (List.mem_filter.2 ⟨(hw.bytype t a).2 ⟨d, hin, ht⟩, by simp [hna]⟩)
  have hbytypeExcl : f.bytypeExcl d.type ≠ [] := by
    rw [h.bytypeExcl]
    exact List.ne_nil_of_mem
      (List.mem_filter.2 ⟨(hw.bytypeExcl d.type a).2 ⟨d, hin, rfl⟩, by simp [hna]⟩)
  unfold IfcFile.erase
  rw [data_ok.2 hfa]
  cases hroot : s.isRoot d with
  | false =>
    simp only [bind, Except.bind, hroot, Bool.false_eq_true, if_false, pure, Except.pure, require,
      if_pos hbytype, if_pos hbytypeExcl]
    refine ⟨iff_of_true ⟨_, rfl⟩ nofun, ?_⟩
    rintro f' hf'
    cases hf'
    refine ⟨h.erased hw hin hclean fun guid b => ?_, rfl, rfl⟩
    simp [hroot]
  | true =>
    -- only a root has its GlobalId taken out
    cases hguid : d.guid with
    | none =>
      simp only [bind, Except.bind, hroot, if_true, hguid]
      refine ⟨iff_of_false ?_ (by simp), ?_⟩
      · rintro ⟨f', hf'⟩
        cases hf'
      · intro f' hf'
        cases hf'
    | some guid =>
      simp only [bind, Except.bind, hroot, if_true, hguid, pure, Except.pure, require,
        if_pos hbytype, if_pos hbytypeExcl]
      refine ⟨iff_of_true ⟨_, rfl⟩ (by simp), ?_⟩
      rintro f' hf'
      cases hf'
      refine ⟨h.erased hw hin hclean fun guid' b => ?_, rfl, rfl⟩
      by_cases hne : guid' = guid
      · simp [hne, hroot, hguid]
      · simp [hne, hroot, hguid, Ne.symm hne]

/-- The keys are the ids of the references. -/
theorem mem_keys_exclKeys {idOf : ℕ → ℕ} {k : ℕ} :
    k ∈ d.keys exclKeys idOf ↔ ∃ b ∈ d.instances, idOf b = k := by
  constructor
  · intro hk
    obtain ⟨b, hb, i, hk⟩ := mem_keys hk
    exact ⟨b, hb, (mem_exclKeys _ _ _ k hk).symm⟩
  · rintro ⟨b, hb, rfl⟩
    obtain ⟨i, v, hv, hb⟩ := EntityInstanceData.mem_instances_iff.1 hb
    refine List.mem_flatMap.2 ⟨(v, i), List.mk_mem_zipIdx_iff_getElem?.2 hv, ?_⟩
    exact List.mem_flatMap.2 ⟨idOf b, List.mem_map_of_mem hb, List.mem_singleton_self _⟩

/-- What is to be deleted keeps its keys. -/
theorem keysAt_deprived {K : Type} {r : ℕ → ℕ → ℕ → List K} (hw : WellFormed s f)
    (hi : i ∈ f.batchDeletionIds) : (f.deprived s done).keysAt r i = f.keysAt r i := by
  cases hb : f.byid i with
  | none => rw [keysAt_none hb, keysAt_none (f := f.deprived s done) hb]
  | some b =>
    obtain ⟨x, hx, rfl⟩ := (hw.byid i b).1 hb
    have hsame : f.remaining s (f.gone done) x = x := if_pos hi
    have hx' : (f.deprived s done).heap b = some x := by
      rw [heap_deprived, hx.1, Option.map_some, hx.2, hsame]
      rfl
    rw [keysAt_some hb hx.1, keysAt_some (f := f.deprived s done) hb hx', idOf_deprived]

/-- The instances that refer to one are looked up, which fails for one that has been deleted, and
it is taken out of those that stay. -/
theorem Scrubbing.takeOut {f₀ : IfcFile} (h : Scrubbing s done (f₀.deprived s done) f)
    (hw : WellFormed s f₀) (hin : f₀.InFile a d) (hB : d.id ∈ f₀.batchDeletionIds) :
    ((∃ rs f', (Inverted.get f.byrefExcl d.id).mapM f.instanceById = .ok rs ∧
        rs.foldlM (IfcFile.scrub s a) f = .ok f') ↔ ∀ i ∈ done, d.id ∉ f₀.keysAt exclKeys i) ∧
      ∀ rs f', (Inverted.get f.byrefExcl d.id).mapM f.instanceById = .ok rs →
        rs.foldlM (IfcFile.scrub s a) f = .ok f' →
        Scrubbing s done (f₀.deprived s (done ++ [d.id])) f' := by
  have hbyid (i : ℕ) (hi : i ∉ done) : f.byid i = f₀.byid i := by
    rw [h.removing.byid, if_neg hi]
    rfl
  have hid : (f₀.deprived s done).idOf a = d.id := by
    rw [idOf_deprived, idOf_eq hin.1]
  -- an id that is done is still listed exactly where it referred to the instance
  have hlisted (i : ℕ) (hi : i ∈ done) :
      i ∈ Inverted.get f.byrefExcl d.id ↔ d.id ∈ f₀.keysAt exclKeys i := by
    have hoff := h.listing.byrefExcl.eq d.id i fun hoff => hoff.2 (h.within i hi)
    rw [keysAt_deprived hw (h.within i hi)] at hoff
    rw [← List.count_pos_iff, hoff, List.count_pos_iff]
  -- where all ids are found, those that refer to it lose their references
  have hrest (rs : List ℕ) (hrs : (Inverted.get f.byrefExcl d.id).mapM f.instanceById = .ok rs) :
      ∃ f', rs.foldlM (IfcFile.scrub s a) f = .ok f' ∧
        Scrubbing s done (f₀.deprived s (done ++ [d.id])) f' := by
    have hmem (n : ℕ) (hn : n ∈ rs) :
        ∃ x, (f₀.deprived s done).InFile n x ∧ x.id ∉ done := by
      obtain ⟨i, -, hi⟩ := (mem_mapM_ok hrs n).1 hn
      rw [instanceById_ok, h.removing.byid] at hi
      split at hi
      · cases hi
      · rename_i hdone
        obtain ⟨x, hx, rfl⟩ := (h.wellFormed.byid i n).1 hi
        exact ⟨x, hx, hdone⟩
    obtain ⟨f', hf', hs⟩ := h.scrubAll hmem (by rw [hid]; exact hB)
    refine ⟨f', hf', ?_⟩
    rw [foldl_scrubbed_deprived hw hin] at hs
    · exact hs
    · intro n hn
      obtain ⟨x, hx, -⟩ := hmem n hn
      obtain ⟨y, hy, -⟩ := inFile_deprived.1 hx
      exact ⟨y, hy⟩
    · intro b x hx hxB hxa
      have hx' : (f₀.deprived s done).InFile b (f₀.remaining s (f₀.gone done) x) :=
        inFile_deprived.2 ⟨x, hx, rfl⟩
      have hkey : d.id ∈ (f₀.deprived s done).keysAt exclKeys x.id := by
        have hxb := h.wellFormed.byid_id hx'
        rw [remaining_id] at hxb
        rw [keysAt_some hxb hx'.1]
        exact mem_keys_exclKeys.2 ⟨a, hxa, hid⟩
      refine (mem_mapM_ok hrs b).2 ⟨x.id, h.listing.byrefExcl.mem hkey, instanceById_ok.2 ?_⟩
      rw [hbyid x.id fun hdone => hxB (h.within _ hdone)]
      exact hw.byid_id hx
  refine ⟨⟨?_, fun hno => ?_⟩, fun rs f' hrs hf' => ?_⟩
  · -- a listed id that is done is found no more
    rintro ⟨rs, -, hrs, -⟩ i hi hkey
    obtain ⟨n, hn⟩ := exists_mapM_ok.1 ⟨rs, hrs⟩ i ((hlisted i hi).2 hkey)
    rw [instanceById_ok, h.removing.byid, if_pos hi] at hn
    cases hn
  · obtain ⟨rs, hrs⟩ := exists_mapM_ok.2 fun i (hi : i ∈ Inverted.get f.byrefExcl d.id) => by
      have hdone : i ∉ done := fun hdone => hno i hdone ((hlisted i hdone).1 hi)
      obtain ⟨n, hn⟩ := Option.isSome_iff_exists.1 (h.listing.found d.id i hi)
      exact ⟨n, instanceById_ok.2 ((hbyid i hdone).trans hn)⟩
    obtain ⟨f', hf', -⟩ := hrest rs hrs
    exact ⟨rs, f', hrs, hf'⟩
  · obtain ⟨f'', hf'', hs⟩ := hrest rs hrs
    rw [hf''] at hf'
    rw [← Except.ok.inj hf']
    exact hs

theorem deleteOne_ok {id : ℕ} {f' : IfcFile} : deleteOne s f id = .ok f' ↔
    ∃ a rs f₁ f₂, f.byid id = some a ∧ (Inverted.get f.byrefExcl id).mapM f.instanceById = .ok rs ∧
      rs.foldlM (IfcFile.scrub s a) f = .ok f₁ ∧
      (if f₁.batchMode then pure f₁ else f₁.forget a id) = .ok f₂ ∧
      f₂.erase s a id = .ok f' := by
  unfold deleteOne
  simp only [bind_eq_ok, instanceById_ok]
  constructor
  · rintro ⟨a, ha, rs, hrs, f₁, hf₁, hf'⟩
    cases hm : f₁.batchMode with
    | true =>
      simp only [hm, if_true, pure_bind] at hf'
      exact ⟨a, rs, f₁, f₁, ha, hrs, hf₁, by simp [hm], hf'⟩
    | false =>
      simp only [hm, Bool.false_eq_true, if_false, bind_eq_ok] at hf'
      obtain ⟨f₂, hf₂, hf'⟩ := hf'
      exact ⟨a, rs, f₁, f₂, ha, hrs, hf₁, by simpa [hm] using hf₂, hf'⟩
  · rintro ⟨a, rs, f₁, f₂, ha, hrs, hf₁, hf₂, hf'⟩
    refine ⟨a, ha, rs, hrs, f₁, hf₁, ?_⟩
    cases hm : f₁.batchMode with
    | true =>
      rw [hm, if_pos rfl, pure_eq_ok] at hf₂
      rw [if_pos rfl, pure_bind, hf₂]
      exact hf'
    | false =>
      rw [hm, if_neg (by simp)] at hf₂
      rw [if_neg (by simp), hf₂]
      exact hf'

/-- Whether an instance can be deleted after others: none of these refers to it, and its GlobalId
is a text if it is rooted. -/
def IfcFile.DeletableAfter (s : SchemaDefinition) (f : IfcFile) (done : List ℕ) (id : ℕ) : Prop :=
  (∀ i ∈ done, id ∉ f.keysAt exclKeys i) ∧
    ∀ a d, f.InFile a d → d.id = id → s.isRoot d → d.guid.isSome

theorem guid_iff (hw : WellFormed s f) (hin : f.InFile a d) :
    (∀ b x, f.InFile b x → x.id = d.id → s.isRoot x → x.guid.isSome) ↔
      (s.isRoot d → d.guid.isSome) := by
  refine ⟨fun hall => hall a d hin rfl, fun hd b x hx hxid => ?_⟩
  obtain rfl := hw.eq_of_id hin hx hxid
  obtain rfl := Option.some.inj (hin.1.symm.trans hx.1)
  exact hd

/-- In batch mode the inverse references are left for later. -/
theorem Scrubbing.deleteOne {f₀ : IfcFile} {id : ℕ}
    (h : Scrubbing s done (f₀.deprived s done) f) (hw : WellFormed s f₀) (hd : id ∉ done)
    (hB : id ∈ f₀.batchDeletionIds) (hmode : f₀.batchMode = true) :
    ((∃ f', IfcFile.deleteOne s f id = .ok f') ↔ f₀.DeletableAfter s done id) ∧
      ∀ f', IfcFile.deleteOne s f id = .ok f' →
        Scrubbing s (done ++ [id]) (f₀.deprived s (done ++ [id])) f' := by
  -- what is to be deleted has kept its own references
  obtain ⟨a, ha⟩ := Option.isSome_iff_exists.1 (hw.batch.2 id hB)
  obtain ⟨d, hin, rfl⟩ := (hw.byid id a).1 ha
  have hfa : f.byid d.id = some a := by
    rw [h.removing.byid, if_neg hd]
    exact ha
  obtain ⟨htake, htaken⟩ := h.takeOut hw hin hB
  have hin' : (f₀.deprived s (done ++ [d.id])).InFile a d :=
    inFile_deprived.2 ⟨d, hin, (if_pos hB).symm⟩
  have herase {f₁ : IfcFile} (h₁ : Scrubbing s done (f₀.deprived s (done ++ [d.id])) f₁) :=
    h₁.removing.erase h₁.wellFormed hin' hd fun b x hx hxB c hc => by
      rw [gone_deprived]
      exact clean_deprived hx hxB hc
  have hpure {f₁ : IfcFile} (h₁ : Scrubbing s done (f₀.deprived s (done ++ [d.id])) f₁) :
      (if f₁.batchMode then pure f₁ else f₁.forget a d.id : Except FileError IfcFile) =
        .ok f₁ := by
    rw [h₁.removing.rest.2.1]
    exact if_pos hmode
  constructor
  · rw [DeletableAfter, guid_iff hw hin, ← htake]
    constructor
    · rintro ⟨f', hf'⟩
      obtain ⟨a', rs, f₁, f₂, ha', hrs, hf₁, hf₂, hf'⟩ := deleteOne_ok.1 hf'
      obtain rfl := Option.some.inj (hfa.symm.trans ha')
      have h₁ := htaken rs f₁ hrs hf₁
      rw [hpure h₁] at hf₂
      obtain rfl := Except.ok.inj hf₂
      exact ⟨⟨rs, f₁, hrs, hf₁⟩, (herase h₁).1.1 ⟨f', hf'⟩⟩
    · rintro ⟨⟨rs, f₁, hrs, hf₁⟩, hroot⟩
      have h₁ := htaken rs f₁ hrs hf₁
      obtain ⟨f', hf'⟩ := (herase h₁).1.2 hroot
      exact ⟨f', deleteOne_ok.2 ⟨a, rs, f₁, f₁, hfa, hrs, hf₁, hpure h₁, hf'⟩⟩
  · intro f' hf'
    obtain ⟨a', rs, f₁, f₂, ha', hrs, hf₁, hf₂, hf'⟩ := deleteOne_ok.1 hf'
    obtain rfl := Option.some.inj (hfa.symm.trans ha')
    have h₁ := htaken rs f₁ hrs hf₁
    rw [hpure h₁] at hf₂
    obtain rfl := Except.ok.inj hf₂
    obtain ⟨hremoving, hbyref, hbyrefExcl⟩ := (herase h₁).2 f' hf'
    refine ⟨h₁.wellFormed, fun i hi => ?_, hremoving, ?_, ?_, ?_⟩
    · rcases List.mem_append.1 hi with hi | hi
      · exact h.within i hi
      · rw [List.mem_singleton.1 hi]
        exact hB
    · rw [hbyrefExcl]
      exact h₁.listing.byrefExcl
    · rw [hbyref]
      exact h₁.listing.byref
    · rw [hbyrefExcl]
      exact h₁.listing.found

/-- All of them, in the order in which they were removed. -/
theorem Scrubbing.deleteAll {f₀ : IfcFile} (hw : WellFormed s f₀) (hmode : f₀.batchMode = true)
    {rest : List ℕ} (h : Scrubbing s done (f₀.deprived s done) f)
    (hB : f₀.batchDeletionIds = done ++ rest) :
    ((∃ f', rest.foldlM (IfcFile.deleteOne s) f = .ok f') ↔
        ∀ before id after, rest = before ++ id :: after →
          f₀.DeletableAfter s (done ++ before) id) ∧
      ∀ f', rest.foldlM (IfcFile.deleteOne s) f = .ok f' →
        Scrubbing s f₀.batchDeletionIds (f₀.deprived s f₀.batchDeletionIds) f' := by
  -- on what is left to be deleted, with what has been in `done`
  induction rest generalizing done f with
  | nil =>
    rw [List.append_nil] at hB
    refine ⟨iff_of_true ⟨f, rfl⟩ (by simp), fun f' hf' => ?_⟩
    cases hf'
    rw [hB]
    exact h
  | cons id rest ih =>
    have hnodup := hw.batch.1
    rw [hB] at hnodup
    have hd : id ∉ done := fun hmem =>
      (List.nodup_append.1 hnodup).2.2 id hmem id (List.mem_cons_self ..) rfl
    obtain ⟨hone, honed⟩ := h.deleteOne hw hd (by simp [hB]) hmode
    have hB' : f₀.batchDeletionIds = (done ++ [id]) ++ rest := by simp [hB]
    constructor
    · constructor
      · rintro ⟨f', hf'⟩
        rw [List.foldlM_cons, bind_eq_ok] at hf'
        obtain ⟨f₁, hf₁, hf'⟩ := hf'
        have hrest := (ih (honed f₁ hf₁) hB').1.1 ⟨f', hf'⟩
        intro before i after heq
        cases before with
        | nil =>
          obtain ⟨rfl, rfl⟩ := List.cons.inj heq
          rw [List.append_nil]
          exact hone.1 ⟨f₁, hf₁⟩
        | cons j before =>
          obtain ⟨rfl, hrest'⟩ := List.cons.inj heq
          have hi := hrest before i after hrest'
          rwa [List.append_assoc] at hi
      · intro hall
        obtain ⟨f₁, hf₁⟩ := hone.2 (by simpa using hall [] id rest rfl)
        obtain ⟨f', hf'⟩ := (ih (honed f₁ hf₁) hB').1.2 fun before i after heq => by
          rw [List.append_assoc]
          exact hall (id :: before) i after (by rw [heq]; rfl)
        refine ⟨f', ?_⟩
        rw [List.foldlM_cons, hf₁]
        exact hf'
    · intro f' hf'
      rw [List.foldlM_cons, bind_eq_ok] at hf'
      obtain ⟨f₁, hf₁, hf'⟩ := hf'
      exact (ih (honed f₁ hf₁) hB').2 f' hf'

/-! ### The end -/

section Ends

variable {B : List ℕ}

/-- **Behind the deletions** the survivors are left. -/
theorem Removing.inFile_iff (h : Removing s B g f) {b : ℕ} {x : EntityInstanceData} :
    f.InFile b x ↔ g.InFile b x ∧ x.id ∉ B := by
  unfold InFile
  rw [h.heap]
  constructor
  · rintro ⟨hx, hfile⟩
    split at hx
    · cases hx
    · rename_i hgone
      refine ⟨⟨hx, hfile⟩, fun hB => hgone ?_⟩
      exact gone_iff.2 ⟨x, ⟨hx, hfile⟩, hB⟩
  · rintro ⟨hx, hB⟩
    have hgone : g.gone B b = decide (x.id ∈ B) := gone_eq hx
    rw [decide_eq_false hB] at hgone
    rw [hgone]
    exact hx

/-- The keys of the instances that stay. -/
theorem Removing.keysAt_eq {K : Type} {r : ℕ → ℕ → ℕ → List K} (h : Removing s B g f)
    (hw : WellFormed s g) (hB : g.batchDeletionIds = B) (i : ℕ) :
    f.keysAt r i = if i ∈ B then [] else g.keysAt r i := by
  have hbyid := h.byid i
  split at hbyid
  · rename_i hi
    rw [if_pos hi, keysAt_none hbyid]
  · rename_i hi
    rw [if_neg hi]
    cases hb : g.byid i with
    | none => rw [keysAt_none hb, keysAt_none (hbyid.trans hb)]
    | some b =>
      obtain ⟨x, hx, rfl⟩ := (hw.byid i b).1 hb
      rw [keysAt_some hb hx.1, keysAt_some (hbyid.trans hb) (h.inFile_iff.2 ⟨hx, hi⟩).1]
      exact keys_congr fun c hc => h.idOf_eq (h.clean b x hx (hB ▸ hi) c hc)

/-- An instance that stays has no key under the id of one that does not. -/
theorem ref_notMem {K : Type} {r : ℕ → ℕ → ℕ → List K} {ref : K → ℕ}
    (hr : ∀ decl i id, ∀ k ∈ r decl i id, ref k = id) (hw : WellFormed s g)
    (hclean : ∀ b x, g.InFile b x → x.id ∉ g.batchDeletionIds → ∀ c ∈ x.instances,
      g.gone B c = false) (hi : i ∉ g.batchDeletionIds) {k : K} (hk : k ∈ g.keysAt r i) :
    ref k ∉ B := by
  cases hb : g.byid i with
  | none =>
    rw [keysAt_none hb] at hk
    cases hk
  | some b =>
    obtain ⟨x, hx, rfl⟩ := (hw.byid i b).1 hb
    rw [keysAt_some hb hx.1] at hk
    obtain ⟨c, hc, j, hk⟩ := mem_keys hk
    obtain ⟨e, he⟩ := hw.closed b x hx c hc
    have hgone := hclean b x hx hi c hc
    rw [gone_eq he, decide_eq_false_iff_not] at hgone
    rwa [hr _ _ _ k hk, idOf_eq he.1]

/-- The maps are those of the file again, if those of the inverse references are. -/
theorem Removing.consistent (h : Removing s B g f) (hw : WellFormed s g)
    (hB : g.batchDeletionIds = B) {byref : StdMap (ℕ × ℕ × ℕ) (List ℕ)}
    {byrefExcl : StdMap ℕ (List ℕ)}
    (hexcl : Inverts byrefExcl fun i => if i ∈ B then [] else g.keysAt exclKeys i)
    (href : Inverts byref fun i => if i ∈ B then [] else g.keysAt (refKeys s) i) :
    Consistent s { f with byref := byref, byrefExcl := byrefExcl, batchDeletionIds := [] } where
  byid i a := by
    change f.byid i = some a ↔ ∃ d, f.InFile a d ∧ d.id = i
    rw [h.byid]
    split
    · rename_i hi
      refine iff_of_false nofun ?_
      rintro ⟨d, hd, rfl⟩
      exact (h.inFile_iff.1 hd).2 hi
    · rename_i hi
      rw [hw.byid]
      refine exists_congr fun d => ⟨?_, ?_⟩
      · rintro ⟨hd, rfl⟩
        exact ⟨h.inFile_iff.2 ⟨hd, hi⟩, rfl⟩
      · rintro ⟨hd, rfl⟩
        exact ⟨(h.inFile_iff.1 hd).1, rfl⟩
  id a d hd := by
    have hid := hw.id a d (h.inFile_iff.1 hd).1
    rwa [← h.rest.1] at hid
  closed a d hd b hb := by
    obtain ⟨hd, hdB⟩ := h.inFile_iff.1 hd
    obtain ⟨e, he⟩ := hw.closed a d hd b hb
    -- a survivor refers to no instance that is gone
    have hgone := h.clean a d hd (hB ▸ hdB) b hb
    rw [gone_eq he, decide_eq_false_iff_not] at hgone
    exact ⟨e, h.inFile_iff.2 ⟨he, hgone⟩⟩
  bytypeExcl t a := by
    change a ∈ f.bytypeExcl t ↔ ∃ d, f.InFile a d ∧ d.type = t
    rw [h.bytypeExcl, List.mem_filter, hw.bytypeExcl]
    constructor
    · rintro ⟨⟨d, hd, ht⟩, hgone⟩
      exact ⟨d, h.inFile_iff.2 ⟨hd, by simpa [gone_eq hd] using hgone⟩, ht⟩
    · rintro ⟨d, hd, ht⟩
      obtain ⟨hd, hdB⟩ := h.inFile_iff.1 hd
      exact ⟨⟨d, hd, ht⟩, by simpa [gone_eq hd] using hdB⟩
  bytype t a := by
    change a ∈ f.bytype t ↔ ∃ d, f.InFile a d ∧ t ∈ s.lineage d.type
    rw [h.bytype, List.mem_filter, hw.bytype]
    constructor
    · rintro ⟨⟨d, hd, ht⟩, hgone⟩
      exact ⟨d, h.inFile_iff.2 ⟨hd, by simpa [gone_eq hd] using hgone⟩, ht⟩
    · rintro ⟨d, hd, ht⟩
      obtain ⟨hd, hdB⟩ := h.inFile_iff.1 hd
      exact ⟨⟨d, hd, ht⟩, by simpa [gone_eq hd] using hdB⟩
  nodup t := by
    change (f.bytypeExcl t).Nodup ∧ (f.bytype t).Nodup
    rw [h.bytypeExcl, h.bytype]
    exact ⟨(hw.nodup t).1.filter _, (hw.nodup t).2.filter _⟩
  byguid guid a hg := by
    obtain ⟨hg, hno⟩ := (h.byguid guid a).1 hg
    obtain ⟨d, hd, hroot, hguid⟩ := hw.byguid guid a hg
    exact ⟨d, h.inFile_iff.2 ⟨hd, fun hdB => hno ⟨a, d, hd, hdB, hroot, hguid⟩⟩, hroot, hguid⟩
  added a ha := by
    have ha : a ∈ f.entityFileMap := ha
    rw [h.entityFileMap, List.mem_filter] at ha
    obtain ⟨d, hd⟩ := hw.added a ha.1
    exact ⟨d, h.inFile_iff.2 ⟨hd, by simpa [gone_eq hd] using ha.2⟩⟩
  batch := ⟨List.nodup_nil, nofun⟩
  noBatch _ := rfl
  byrefExcl := hexcl.congr (h.keysAt_eq hw hB)
  byref := href.congr (h.keysAt_eq hw hB)

/-- In batch mode all the inverse references are cleared at once. -/
theorem inverts_prune {K : Type} [DecidableEq K] {r : ℕ → ℕ → ℕ → List K} {ref : K → ℕ}
    (hr : ∀ decl i id, ∀ k ∈ r decl i id, ref k = id) {m : StdMap K (List ℕ)}
    (hm : Covers (fun k x => ref k ∈ g.batchDeletionIds ∧ x ∉ g.batchDeletionIds) m (g.keysAt r))
    (hw : WellFormed s g) (hclean : ∀ b x, g.InFile b x → x.id ∉ g.batchDeletionIds →
      ∀ c ∈ x.instances, g.gone g.batchDeletionIds c = false) :
    Inverts (prune (fun k => ref k ∈ g.batchDeletionIds) (fun i => i ∈ g.batchDeletionIds) m)
      fun i => if i ∈ g.batchDeletionIds then [] else g.keysAt r i := by
  refine (hm.prune (p := fun k => ref k ∈ g.batchDeletionIds)
    (fun k x hoff => decide_eq_true hoff.1) _).congr fun i => ?_
  by_cases hi : i ∈ g.batchDeletionIds
  · simp [hi]
  · simp only [hi, if_false, decide_false, Bool.false_eq_true]
    refine (List.filter_eq_self.2 fun k hk => ?_).symm
    simpa using ref_notMem hr hw hclean hi hk

/-- Outside batch mode, those of and to the one instance are. -/
theorem inverts_forget {K : Type} [DecidableEq K] {r : ℕ → ℕ → ℕ → List K} {ref : K → ℕ}
    (hr : ∀ decl i id, ∀ k ∈ r decl i id, ref k = id) {m : StdMap K (List ℕ)}
    (hB : g.batchDeletionIds = [d.id])
    (hm : Covers (fun k x => ref k ∈ g.batchDeletionIds ∧ x ∉ g.batchDeletionIds) m (g.keysAt r))
    (hw : WellFormed s g) (hclean : ∀ b x, g.InFile b x → x.id ∉ g.batchDeletionIds →
      ∀ c ∈ x.instances, g.gone g.batchDeletionIds c = false)
    (hin : g.InFile a d) {names : List ℕ}
    (hnames : ∀ b ∈ d.instances, b ≠ a → g.idOf b ∈ names) :
    Inverts (names.foldl (fun m n => removeAt (fun k => ref k = n) d.id m)
        (eraseKeys (fun k => ref k = d.id) m))
      fun i => if i ∈ g.batchDeletionIds then [] else g.keysAt r i := by
  have hone := hm.eraseKeys (p := fun k => ref k = d.id) fun k x hoff => by
    rw [hB] at hoff
    simpa using hoff.1
  refine hone.removeAll ref names d.id (fun i hi => ?_) ?_
  · have hiB : i ∉ g.batchDeletionIds := by simpa [hB] using hi
    rw [if_neg hiB]
    refine (List.filter_eq_self.2 fun k hk => ?_).symm
    have href := ref_notMem hr hw hclean hiB hk
    simpa [hB] using href
  · rw [if_pos (by simp [hB]), eq_comm, List.filter_filter, List.filter_eq_nil_iff]
    intro k hk
    rw [keysAt_some (hw.byid_id hin) hin.1] at hk
    obtain ⟨b, hb, j, hk⟩ := mem_keys hk
    have hkb := hr _ _ _ k hk
    by_cases hba : b = a
    · subst hba
      rw [idOf_eq hin.1] at hkb
      simp [hkb]
    · simp [hkb, hnames b hb hba]

/-- The references of the deleted instance are taken out of the maps. -/
theorem forget_ok (hfa : f.heap a = some d) (hlive : ∀ b ∈ d.instances, (f.heap b).isSome)
    (hpos : ∀ b ∈ d.instances, f.idOf b ≠ 0) (id : ℕ) :
    ∃ (names : List ℕ) (f' : IfcFile), f.forget a id = .ok f' ∧ f' = { f with
        byref := names.foldl (fun m n => removeAt (fun k => k.1 = n) id m)
          (eraseKeys (fun k => k.1 = id) f.byref)
        byrefExcl := names.foldl (fun m n => removeAt (fun k => k = n) id m)
          (eraseKeys (fun k => k = id) f.byrefExcl) } ∧
      ∀ b ∈ d.instances, b ≠ a → f.idOf b ∈ names := by
  obtain ⟨bs, hbs, hmem⟩ := traverse_one hfa
  have hids : (bs.filter (· ≠ a)).mapM (fun b => do return (← f.data b).id) =
      .ok ((bs.filter (· ≠ a)).map f.idOf) := by
    refine mapM_ids fun b hb => ?_
    obtain ⟨hb, hne⟩ := List.mem_filter.1 hb
    exact hlive b (((hmem b).1 hb).resolve_left (by simpa using hne))
  refine ⟨((bs.filter (· ≠ a)).map f.idOf).filter (· ≠ 0), _, ?_, rfl, fun b hb hba => ?_⟩
  · rw [forget, hbs]
    simp only [bind, Except.bind] at hids ⊢
    rw [hids]
    rfl
  · refine List.mem_filter.2 ⟨List.mem_map_of_mem (List.mem_filter.2 ⟨?_, ?_⟩), ?_⟩
    · exact (hmem b).2 (Or.inr hb)
    · simpa using hba
    · simpa using hpos b hb

/-! ### What a removal does -/

/-- Whether the removed instances can be deleted in their order. -/
def IfcFile.Deletable (s : SchemaDefinition) (f : IfcFile) : Prop :=
  ∀ before id after, f.batchDeletionIds = before ++ id :: after → f.DeletableAfter s before id

/-- The file without the instances, of which those that stay have lost every reference to them. -/
structure Removed (s : SchemaDefinition) (f f' : IfcFile) : Prop where
  heap : ∀ b, f'.heap b = (f.heap b).bind fun d =>
    if d.file then
      if d.id ∈ f.batchDeletionIds then none
      else some (d.without s (f.gone f.batchDeletionIds))
    else some d
  byid : ∀ i, f'.byid i = if i ∈ f.batchDeletionIds then none else f.byid i
  maxId : f'.maxId = f.maxId

/-- What the deletions end with is the removal. -/
theorem Removing.removed (h : Removing s f.batchDeletionIds (f.deprived s f.batchDeletionIds) g)
    {byref : StdMap (ℕ × ℕ × ℕ) (List ℕ)} {byrefExcl : StdMap ℕ (List ℕ)} :
    Removed s f
      { g with byref := byref, byrefExcl := byrefExcl, batchDeletionIds := [] } where
  heap b := by
    change g.heap b = _
    rw [h.heap, gone_deprived, heap_deprived]
    unfold gone
    cases f.heap b with
    | none => rfl
    | some d =>
      cases hfile : d.file with
      | false => simp [hfile]
      | true =>
        by_cases hB : d.id ∈ f.batchDeletionIds <;> simp [hfile, hB, remaining]
  byid := h.byid
  maxId := h.rest.1

theorem gone_nil (b : ℕ) : f.gone [] b = false := by
  unfold gone
  cases f.heap b <;> simp

theorem removed_nil (hB : f.batchDeletionIds = []) : Removed s f f where
  heap b := by
    rw [hB]
    cases hd : f.heap b with
    | none => rfl
    | some d =>
      have hself : d.without s (f.gone []) = d :=
        EntityInstanceData.without_eq fun c _ => gone_nil c
      cases hfile : d.file <;> simp [hfile, hself]
  byid i := by simp [hB]
  maxId := rfl

theorem scrubbing_start (hw : WellFormed s f) (hexcl : Inverts f.byrefExcl (f.keysAt exclKeys))
    (href : Inverts f.byref (f.keysAt (refKeys s))) : Scrubbing s [] (f.deprived s []) f := by
  rw [deprived_nil]
  refine ⟨hw, nofun, ?_, ?_⟩
  · constructor <;> simp [gone_nil]
  · refine ⟨⟨fun k x => (hexcl k x).ge, fun k x _ => hexcl k x⟩,
      ⟨fun k x => (href k x).ge, fun k x _ => href k x⟩, fun k x hx => ?_⟩
    by_contra hno
    rw [hexcl.mem, keysAt_none (by simpa using hno)] at hx
    cases hx

/-- **A batch** is processed exactly where it can be, and removes its ids. -/
theorem processDeletion_batch (hw : WellFormed s f) (hstart : Scrubbing s [] (f.deprived s []) f)
    (hm : f.batchMode = true) :
    ((∃ f', f.processDeletion s = .ok f') ↔ f.Deletable s) ∧
      ∀ f', f.processDeletion s = .ok f' → Consistent s f' ∧ Removed s f f' := by
  obtain ⟨hiff, hok⟩ := hstart.deleteAll hw hm (List.nil_append f.batchDeletionIds).symm
  constructor
  · refine Iff.trans ?_ hiff
    rw [processDeletion]
    constructor
    · rintro ⟨f', hf'⟩
      obtain ⟨f₁, hf₁, -⟩ := bind_eq_ok.1 hf'
      exact ⟨f₁, hf₁⟩
    · rintro ⟨f₁, hf₁⟩
      rw [hf₁]
      exact ⟨_, rfl⟩
  · intro f' hf'
    obtain ⟨f₁, hf₁, hf'⟩ := bind_eq_ok.1 hf'
    have h := hok f₁ hf₁
    have hbatch : f₁.batchDeletionIds = f.batchDeletionIds := h.removing.rest.2.2
    have hmode₁ : f₁.batchMode = true := h.removing.rest.2.1.trans hm
    rw [if_pos hmode₁, hbatch] at hf'
    obtain rfl := Except.ok.inj hf'
    refine ⟨h.removing.consistent h.wellFormed rfl ?_ ?_, h.removing.removed⟩
    · exact inverts_prune mem_exclKeys h.listing.byrefExcl h.wellFormed h.removing.clean
    · exact inverts_prune mem_refKeys h.listing.byref h.wellFormed h.removing.clean

/-- One id can be deleted where a root has a GlobalId. -/
theorem deletable_one (hw : WellFormed s f) (hin : f.InFile a d)
    (hB : f.batchDeletionIds = [d.id]) :
    f.Deletable s ↔ (s.isRoot d → d.guid.isSome) := by
  rw [← guid_iff hw hin, Deletable, hB]
  constructor
  · intro hall
    exact (hall [] d.id [] rfl).2
  · intro hroot before id after heq
    cases before with
    | nil =>
      obtain ⟨rfl, -⟩ := List.cons.inj heq
      exact ⟨nofun, hroot⟩
    | cons j before => simp at heq

/-- Outside of a batch the deletion erases from the maps at once. -/
theorem deleteOne_eq_erase {id : ℕ} {rs : List ℕ} {f₁ f₂ f₃ : IfcFile} (ha : f.byid id = some a)
    (hrs : (Inverted.get f.byrefExcl id).mapM f.instanceById = .ok rs)
    (hf₁ : rs.foldlM (IfcFile.scrub s a) f = .ok f₁) (hm : f₁.batchMode = false)
    (hforget : f₁.forget a id = .ok f₂) :
    IfcFile.deleteOne s f id = .ok f₃ ↔ IfcFile.erase s f₂ a id = .ok f₃ := by
  rw [deleteOne_ok]
  constructor
  · rintro ⟨a', rs', f₁', f₂', ha', hrs', hf₁', hf₂, hf₃⟩
    obtain rfl := Option.some.inj (ha.symm.trans ha')
    obtain rfl := Except.ok.inj (hrs.symm.trans hrs')
    obtain rfl := Except.ok.inj (hf₁.symm.trans hf₁')
    rw [hm, if_neg Bool.false_ne_true, hforget] at hf₂
    rw [Except.ok.inj hf₂]
    exact hf₃
  · intro hf₃
    refine ⟨a, rs, f₁, f₂, ha, hrs, hf₁, ?_, hf₃⟩
    rw [hm, if_neg Bool.false_ne_true, hforget]

theorem processDeletion_singleton {id : ℕ} (hB : f.batchDeletionIds = [id])
    (hm : ∀ g, IfcFile.deleteOne s f id = .ok g → g.batchMode = false) {f' : IfcFile} :
    f.processDeletion s = .ok f' ↔
      ∃ g, IfcFile.deleteOne s f id = .ok g ∧ { g with batchDeletionIds := [] } = f' := by
  rw [processDeletion, hB, List.foldlM_cons]
  simp only [List.foldlM_nil, bind_pure, bind_eq_ok]
  refine exists_congr fun g => and_congr_right fun hg => ?_
  rw [if_neg (by simp [hm g hg])]
  exact pure_eq_ok

/-- **A single removal**, likewise. -/
theorem processDeletion_one (hw : WellFormed s f) (hstart : Scrubbing s [] (f.deprived s []) f)
    (hm : f.batchMode = false) (hin : f.InFile a d) (hB : f.batchDeletionIds = [d.id]) :
    ((∃ f', f.processDeletion s = .ok f') ↔ f.Deletable s) ∧
      ∀ f', f.processDeletion s = .ok f' → Consistent s f' ∧ Removed s f f' := by
  have hmem : d.id ∈ f.batchDeletionIds := by simp [hB]
  obtain ⟨htake, htaken⟩ := hstart.takeOut hw hin hmem
  obtain ⟨rs, f₁, hrs, hf₁⟩ := htake.2 (by simp)
  have h₁ := htaken rs f₁ hrs hf₁
  rw [List.nil_append] at h₁
  have hin' : (f.deprived s [d.id]).InFile a d :=
    inFile_deprived.2 ⟨d, hin, (if_pos hmem).symm⟩
  have hfa : f₁.heap a = some d := (h₁.removing.heap_eq (gone_nil a)).trans hin'.1
  have hmode₁ : f₁.batchMode = false := h₁.removing.rest.2.1.trans hm
  obtain ⟨names, f₂, hforget, hforgotten, hnames⟩ := forget_ok hfa (fun b hb => by
    obtain ⟨e, he⟩ := h₁.wellFormed.closed a d hin' b hb
    rw [h₁.removing.heap_eq (gone_nil b), he.1]
    rfl) (fun b hb => by
    obtain ⟨e, he⟩ := h₁.wellFormed.closed a d hin' b hb
    rw [h₁.removing.idOf_eq (gone_nil b), idOf_eq he.1]
    exact (h₁.wellFormed.id b e he).1.ne') d.id
  replace hnames : ∀ b ∈ d.instances, b ≠ a → (f.deprived s [d.id]).idOf b ∈ names := by
    intro b hb hba
    rw [← h₁.removing.idOf_eq (gone_nil b)]
    exact hnames b hb hba
  -- only the maps of inverse references are others
  have h₂ : Removing s [] (f.deprived s [d.id]) f₂ := by
    rw [hforgotten]
    exact { h₁.removing with }
  obtain ⟨hiff, hok⟩ := h₂.erase h₁.wellFormed hin' (by simp) fun b x hx hxB c hc => by
    rw [List.nil_append, gone_deprived]
    exact clean_deprived hx hxB hc
  have herase (f₃ : IfcFile) : IfcFile.deleteOne s f d.id = .ok f₃ ↔
      IfcFile.erase s f₂ a d.id = .ok f₃ :=
    deleteOne_eq_erase (hw.byid_id hin) hrs hf₁ hmode₁ hforget
  have hproc (f' : IfcFile) : f.processDeletion s = .ok f' ↔
      ∃ f₃, IfcFile.erase s f₂ a d.id = .ok f₃ ∧ { f₃ with batchDeletionIds := [] } = f' := by
    simp only [← herase]
    exact processDeletion_singleton hB fun f₃ hf₃ =>
      (hok f₃ ((herase f₃).1 hf₃)).1.rest.2.1.trans hm
  constructor
  · rw [deletable_one hw hin hB, ← hiff]
    constructor
    · rintro ⟨f', hf'⟩
      obtain ⟨f₃, hf₃, -⟩ := (hproc f').1 hf'
      exact ⟨f₃, hf₃⟩
    · rintro ⟨f₃, hf₃⟩
      exact ⟨_, (hproc _).2 ⟨f₃, hf₃, rfl⟩⟩
  · intro f' hf'
    obtain ⟨f₃, hf₃, rfl⟩ := (hproc f').1 hf'
    obtain ⟨h₃, hbyref, hbyrefExcl⟩ := hok f₃ hf₃
    rw [List.nil_append, ← hB] at h₃
    rw [← hB] at h₁ hin' hnames
    have hB' : (f.deprived s f.batchDeletionIds).batchDeletionIds = [d.id] := hB
    refine ⟨h₃.consistent h₁.wellFormed rfl ?_ ?_, h₃.removed⟩
    · rw [hbyrefExcl, hforgotten]
      exact inverts_forget mem_exclKeys hB' h₁.listing.byrefExcl h₁.wellFormed h₃.clean hin' hnames
    · rw [hbyref, hforgotten]
      exact inverts_forget mem_refKeys hB' h₁.listing.byref h₁.wellFormed h₃.clean hin' hnames

/-- **A removal.**  It completes if no instance to be deleted refers to one that was removed after
it and every rooted one has its GlobalId, and then the file is consistent, without the instances
and without references to them. -/
theorem processDeletion_spec (hw : WellFormed s f)
    (hexcl : Inverts f.byrefExcl (f.keysAt exclKeys))
    (href : Inverts f.byref (f.keysAt (refKeys s)))
    (hmode : f.batchMode = true ∨ f.batchDeletionIds.length ≤ 1) :
    ((∃ f', f.processDeletion s = .ok f') ↔ f.Deletable s) ∧
      ∀ f', f.processDeletion s = .ok f' → Consistent s f' ∧ Removed s f f' := by
  have hstart := scrubbing_start hw hexcl href
  cases hm : f.batchMode with
  | true => exact processDeletion_batch hw hstart hm
  | false =>
    have hlen := hmode.resolve_left (by simp [hm])
    rcases Nat.le_one_iff_eq_zero_or_eq_one.1 hlen with hlen | hlen
    · have hB : f.batchDeletionIds = [] := List.length_eq_zero_iff.1 hlen
      have hok : f.processDeletion s = .ok { f with batchDeletionIds := [] } := by
        rw [processDeletion, hB]
        simp [hm]
      have hf : f = { f with batchDeletionIds := [] } := by rw [← hB]
      refine ⟨iff_of_true ⟨_, hok⟩ (fun before id after heq => ?_), fun f' hf' => ?_⟩
      · rw [hB] at heq
        simp at heq
      · rw [hok, ← hf] at hf'
        cases hf'
        exact ⟨{ hw with noBatch := fun _ => hB, byrefExcl := hexcl, byref := href },
          removed_nil hB⟩
    · obtain ⟨id, hB⟩ := List.length_eq_one_iff.1 hlen
      obtain ⟨a, ha⟩ := Option.isSome_iff_exists.1 (hw.batch.2 id (by simp [hB]))
      obtain ⟨d, hin, rfl⟩ := (hw.byid id a).1 ha
      exact processDeletion_one hw hstart hm hin hB

end Ends

end VulcanDB.Ifcparse
