import VulcanDB.Ifcparse.Inverses

/-!
# Ifcparse — Adding instances

An instance is added after those that it refers to, each of which is added in the same way.

* `Grows`: what is in the file stays as it is.
* `Consistent.addEntity`: the maps are those of the file again.
-/

namespace VulcanDB.Ifcparse

open Cxx Steps Inverted IfcFile

variable {s : SchemaDefinition} {f f' : IfcFile} {a i : ℕ} {d e : EntityInstanceData}

/-! ### What is entered -/

/-- An instance that is in the file is not entered again. -/
theorem enter_inFile (hin : f.InFile a d) (id : Option ℕ) : f.enter s a id = .ok f := by
  rw [enter, data_ok.2 hin.1]
  simp only [bind, Except.bind, hin.2, if_true]
  rfl

/-- The instance as it is in the file. -/
def EntityInstanceData.entered (d : EntityInstanceData) (id : ℕ) : EntityInstanceData :=
  { d with file := true, id := id }

/-- **What is entered**: the instance under its id, its GlobalId and its references. -/
theorem enter_eq (hd : f.heap a = some d) (hfile : d.file = false)
    (hlive : ∀ b ∈ d.instances, (f.heap b).isSome) (id : Option ℕ) :
    let e := d.entered (id.getD (f.maxId + 1))
    let g := f.setData a e
    ∃ byguid, f.enter s a id = .ok { f with
        heap := Function.update f.heap a (some e)
        byid := Function.update f.byid e.id (some a)
        bytype := fun t => if t ∈ s.lineage d.type then f.bytype t ++ [a] else f.bytype t
        bytypeExcl := Function.update f.bytypeExcl d.type (f.bytypeExcl d.type ++ [a])
        byref := pushAll e.id (e.keys (refKeys s) g.idOf) f.byref
        byrefExcl := pushAll e.id (e.keys exclKeys g.idOf) f.byrefExcl
        byguid := byguid
        maxId := max f.maxId e.id } ∧
      ∀ guid b, byguid guid = some b →
        (b = a ∧ s.isRoot d ∧ d.guid = some guid) ∨ f.byguid guid = some b := by
  intro e g
  have hlive' : ∀ b ∈ e.instances, (g.heap b).isSome := by
    intro b hb
    change (Function.update f.heap a (some e) b).isSome
    by_cases hba : b = a
    · rw [hba, Function.update_self]
      rfl
    · rw [Function.update_of_ne hba]
      exact hlive b hb
  have hbuild (byguid : Str → Option ℕ) := buildInverses_eq (s := s) (d := e) (a := a) (f := { f with
    heap := Function.update f.heap a (some e)
    byid := Function.update f.byid e.id (some a)
    bytype := fun t => if t ∈ s.lineage d.type then f.bytype t ++ [a] else f.bytype t
    bytypeExcl := Function.update f.bytypeExcl d.type (f.bytypeExcl d.type ++ [a])
    byguid := byguid
    maxId := max f.maxId e.id }) (Function.update_self ..) hlive'
  rw [enter, data_ok.2 hd]
  simp only [bind, Except.bind, hfile, Bool.false_eq_true, if_false]
  -- the GlobalId is registered for a root that has one
  cases hguid : d.guid with
  | none => exact ⟨f.byguid, hbuild f.byguid, fun _ _ => Or.inr⟩
  | some guid =>
    by_cases hroot : s.isRoot d = true
    · refine ⟨Function.update f.byguid guid (some a), ?_, fun guid' b hb => ?_⟩
      · simp only [hroot, if_true]
        exact hbuild _
      · by_cases hne : guid' = guid
        · subst hne
          rw [Function.update_self] at hb
          exact Or.inl ⟨(Option.some.inj hb).symm, hroot, rfl⟩
        · rw [Function.update_of_ne hne] at hb
          exact Or.inr hb
    · refine ⟨f.byguid, ?_, fun _ _ => Or.inr⟩
      simp only [hroot]
      exact hbuild _

/-- What adding leaves as it was, if an instance may get the id. -/
structure Grows (id : Option ℕ) (f f' : IfcFile) : Prop where
  kept : ∀ a d, f.InFile a d → f'.InFile a d
  same : ∀ a d, f.heap a = some d → ∃ e, f'.heap a = some e ∧ e.instances = d.instances
  maxId : f.maxId ≤ f'.maxId
  byid : ∀ i ≤ f.maxId, some i ≠ id → f'.byid i = f.byid i

theorem Grows.refl (id : Option ℕ) (f : IfcFile) : Grows id f f :=
  ⟨fun _ _ hd => hd, fun _ d hd => ⟨d, hd, rfl⟩, le_rfl, fun _ _ _ => rfl⟩

theorem Grows.trans {id : Option ℕ} {f₁ f₂ f₃ : IfcFile} (h₁ : Grows none f₁ f₂)
    (h₂ : Grows id f₂ f₃) : Grows id f₁ f₃ where
  kept a d hd := h₂.kept a d (h₁.kept a d hd)
  same a d hd := by
    obtain ⟨e, he, heq⟩ := h₁.same a d hd
    obtain ⟨x, hx, hxeq⟩ := h₂.same a e he
    exact ⟨x, hx, hxeq.trans heq⟩
  maxId := h₁.maxId.trans h₂.maxId
  byid i hi hne := (h₂.byid i (hi.trans h₁.maxId) hne).trans (h₁.byid i hi nofun)

/-- Behind the entry the instances are those of before and the new one. -/
theorem exists_inFile_entered (ha : ∀ d, ¬ f.InFile a d) {g : IfcFile}
    (hheap : g.heap = Function.update f.heap a (some e)) (he : e.file = true) {b : ℕ}
    {P : EntityInstanceData → Prop} :
    (∃ x, g.InFile b x ∧ P x) ↔ (b = a ∧ P e) ∨ ∃ x, f.InFile b x ∧ P x := by
  simp only [inFile_update hheap he]
  by_cases hb : b = a
  · subst hb
    simp [ha]
  · simp [hb]

/-- An instance has come into the file under a new id. -/
theorem Consistent.entered (h : Consistent s f) (hd : f.heap a = some d)
    (ha : ∀ d, ¬ f.InFile a d) (hrefs : ∀ b ∈ d.instances, b = a ∨ ∃ e, f.InFile b e) {id : ℕ}
    (hpos : 0 < id) (hnew : f.byid id = none) {byguid : Str → Option ℕ}
    (hguid : ∀ guid b, byguid guid = some b →
      (b = a ∧ s.isRoot d ∧ d.guid = some guid) ∨ f.byguid guid = some b) :
    let e := d.entered id
    let g := f.setData a e
    Consistent s { f with
      heap := Function.update f.heap a (some e)
      byid := Function.update f.byid e.id (some a)
      bytype := fun t => if t ∈ s.lineage d.type then f.bytype t ++ [a] else f.bytype t
      bytypeExcl := Function.update f.bytypeExcl d.type (f.bytypeExcl d.type ++ [a])
      byref := pushAll e.id (e.keys (refKeys s) g.idOf) f.byref
      byrefExcl := pushAll e.id (e.keys exclKeys g.idOf) f.byrefExcl
      byguid := byguid
      maxId := max f.maxId e.id } := by
  intro e g
  have hex (b : ℕ) (P : EntityInstanceData → Prop) :=
    exists_inFile_entered (b := b) (P := P) ha (g := g) (e := e) rfl rfl
  have hkept (b : ℕ) (x : EntityInstanceData) (hx : f.InFile b x) : g.InFile b x := by
    refine (inFile_update (g := g) (e := e) rfl rfl).2 ?_
    rw [if_neg]
    · exact hx
    · rintro rfl
      exact ha x hx
  have hnot (b : ℕ) {P : EntityInstanceData → Prop} (hb : ∃ x, f.InFile b x ∧ P x) : b ≠ a := by
    rintro rfl
    exact ha _ hb.choose_spec.1
  have hkeys {K : Type} (r : ℕ → ℕ → ℕ → List K) (j : ℕ) (hj : j ≠ id) :
      keysAt r { g with byid := Function.update f.byid e.id (some a) } j = f.keysAt r j :=
    h.keysAt_eq (Function.update_of_ne hj ..) fun b x hx => (hkept b x hx).1
  refine
    { byid := fun j b => Iff.trans ?_ (hex b _).symm
      id := fun b x hx => ?_
      closed := fun b x hx c hc => ?_
      bytypeExcl := fun t b => Iff.trans ?_ (hex b _).symm
      bytype := fun t b => Iff.trans ?_ (hex b _).symm
      nodup := fun t => ⟨?_, ?_⟩
      byguid := fun guid b hb => ?_
      added := fun b hb => (h.added b hb).imp (hkept b)
      batch := ⟨h.batch.1, fun j hj => ?_⟩
      noBatch := h.noBatch
      byrefExcl := h.byrefExcl.pushAll (keysAt_none hnew) (keysAt_some (Function.update_self ..)
        (Function.update_self ..)) (hkeys exclKeys)
      byref := h.byref.pushAll (keysAt_none hnew) (keysAt_some (Function.update_self ..)
        (Function.update_self ..)) (hkeys (refKeys s)) }
  · -- `byid`: the new id is the instance's, the others are those of before
    by_cases hj : j = id
    · subst hj
      have hno : ¬ ∃ x, f.InFile b x ∧ x.id = j := by
        rw [← h.byid, hnew]
        exact nofun
      rw [or_iff_left hno]
      change Function.update f.byid j (some a) j = some b ↔ b = a ∧ j = j
      rw [Function.update_self, Option.some.injEq, and_iff_left rfl, eq_comm]
    · rw [← h.byid, or_iff_right fun hba => hj hba.2.symm]
      exact Iff.of_eq (congrArg (· = some b) (Function.update_of_ne hj ..))
  · replace hx := (inFile_update (g := g) (e := e) rfl rfl).1 hx
    split at hx
    · subst hx
      exact ⟨hpos, le_max_right ..⟩
    · exact (h.id b x hx).imp_right fun hle => hle.trans (le_max_left ..)
  · -- `closed`: the references of the instance are in the file, or its own
    replace hx := (inFile_update (g := g) (e := e) rfl rfl).1 hx
    split at hx
    · subst hx
      rcases hrefs c hc with rfl | hin
      · exact ⟨e, (inFile_update (g := g) (e := e) rfl rfl).2 (by rw [if_pos rfl])⟩
      · exact hin.imp (hkept c)
    · exact (h.closed b x hx c hc).imp (hkept c)
  · -- the two maps of types get the instance at the end
    rw [← h.bytypeExcl, or_comm]
    by_cases ht : t = d.type
    · subst ht
      simp [e, EntityInstanceData.entered]
    · simp [e, EntityInstanceData.entered, ht, Ne.symm ht]
  · rw [← h.bytype, or_comm]
    by_cases ht : t ∈ s.lineage d.type
    · simp [e, EntityInstanceData.entered, ht]
    · simp [e, EntityInstanceData.entered, ht]
  · -- it is listed once, since it was not in the file
    have hno : a ∉ f.bytypeExcl t := fun hmem => hnot a ((h.bytypeExcl t a).1 hmem) rfl
    by_cases ht : t = d.type
    · subst ht
      simpa [List.nodup_append, (h.nodup d.type).1] using fun b hb => ne_of_mem_of_not_mem hb hno
    · simpa [ht] using (h.nodup t).1
  · have hno : a ∉ f.bytype t := fun hmem => hnot a ((h.bytype t a).1 hmem) rfl
    simp only
    split
    · simpa [List.nodup_append, (h.nodup t).2] using fun b hb => ne_of_mem_of_not_mem hb hno
    · exact (h.nodup t).2
  · -- `byguid`
    rcases hguid guid b hb with ⟨rfl, hroot, hg⟩ | hb
    · exact ⟨e, (inFile_update (g := g) (e := e) rfl rfl).2 (by rw [if_pos rfl]), hroot, hg⟩
    · exact (h.byguid guid b hb).imp fun x => And.imp_left (hkept b x)
  · -- no id that waits for its deletion is the new one
    by_cases hji : j = id
    · subst hji
      simp [e, EntityInstanceData.entered]
    · simpa [e, EntityInstanceData.entered, hji] using h.batch.2 j hj

/-- The id of the next instance is new. -/
theorem Consistent.byid_fresh (h : Consistent s f) : f.byid (f.maxId + 1) = none := by
  by_contra hne
  obtain ⟨b, hb⟩ := Option.ne_none_iff_exists'.1 hne
  obtain ⟨x, hx, hid⟩ := (h.byid _ b).1 hb
  have hle := (h.id b x hx).2
  omega

/-- **The entry** keeps the maps exact. -/
theorem Consistent.enter (h : Consistent s f) (hd : f.heap a = some d)
    (hrefs : ∀ b ∈ d.instances, b = a ∨ ∃ e, f.InFile b e) {id : Option ℕ}
    (hid : ∀ i ∈ id, 0 < i ∧ f.byid i = none) (hs : f.enter s a id = .ok f') :
    Consistent s f' ∧ Grows id f f' ∧ ∃ e, f'.InFile a e := by
  cases hfile : d.file with
  | true =>
    rw [enter_inFile ⟨hd, hfile⟩] at hs
    cases hs
    exact ⟨h, .refl id f, d, hd, hfile⟩
  | false =>
    have ha : ∀ x, ¬ f.InFile a x := by
      rintro x ⟨hx, hxfile⟩
      obtain rfl := Option.some.inj (hd.symm.trans hx)
      rw [hfile] at hxfile
      cases hxfile
    have hlive : ∀ b ∈ d.instances, (f.heap b).isSome := by
      intro b hb
      rcases hrefs b hb with rfl | ⟨e, he, -⟩
      · rw [hd]
        rfl
      · rw [he]
        rfl
    have hname : 0 < id.getD (f.maxId + 1) ∧ f.byid (id.getD (f.maxId + 1)) = none := by
      cases id with
      | none => exact ⟨Nat.succ_pos _, h.byid_fresh⟩
      | some i => exact hid i rfl
    obtain ⟨byguid, heq, hguid⟩ := enter_eq (s := s) hd hfile hlive id
    rw [heq] at hs
    cases hs
    refine ⟨h.entered hd ha hrefs hname.1 hname.2 hguid, ?_, d.entered (id.getD (f.maxId + 1)),
      Function.update_self .., rfl⟩
    refine ⟨fun b x hx => ?_, fun b x hx => ?_, le_max_left .., fun i hi hne => ?_⟩
    · refine ⟨?_, hx.2⟩
      have hba : b ≠ a := by
        rintro rfl
        exact ha x hx
      exact (Function.update_of_ne hba ..).trans hx.1
    · by_cases hba : b = a
      · subst hba
        obtain rfl := Option.some.inj (hd.symm.trans hx)
        exact ⟨_, Function.update_self .., rfl⟩
      · exact ⟨x, (Function.update_of_ne hba ..).trans hx, rfl⟩
    · refine Function.update_of_ne ?_ ..
      cases id with
      | none => exact (Nat.lt_succ_of_le hi).ne
      | some j => exact fun hij => hne (congrArg some hij)

/-! ### What it refers to -/

/-- What is kept for each instance that one to be added refers to. -/
theorem Consistent.addReferences {add : IfcFile → ℕ → Except FileError IfcFile}
    (hadd : ∀ {f f' b}, Consistent s f → add f b = .ok f' →
      Consistent s f' ∧ Grows none f f' ∧ ∃ e, f'.InFile b e)
    (h : Consistent s f) {bs : List ℕ} (hs : bs.foldlM (addReference add a) f = .ok f') :
    Consistent s f' ∧ Grows none f f' ∧ ∀ b ∈ bs, b = a ∨ ∃ e, f'.InFile b e := by
  induction bs generalizing f with
  | nil =>
    cases hs
    exact ⟨h, .refl none _, nofun⟩
  | cons c bs ih =>
    rw [List.foldlM_cons, bind_eq_ok] at hs
    obtain ⟨g, hg, hs⟩ := hs
    have hone : Consistent s g ∧ Grows none f g ∧ (c = a ∨ ∃ e, g.InFile c e) := by
      unfold addReference at hg
      split at hg
      · rename_i hc
        cases hg
        exact ⟨h, .refl none _, hc.imp_right (h.added c)⟩
      · obtain ⟨f₁, hf₁, hg⟩ := bind_eq_ok.1 hg
        cases hg
        obtain ⟨h₁, hgrow, hin⟩ := hadd h hf₁
        refine ⟨{ h₁ with added := fun b hb => ?_ }, ⟨hgrow.kept, hgrow.same, hgrow.maxId,
          hgrow.byid⟩, Or.inr hin⟩
        rcases List.mem_cons.1 hb with rfl | hb
        exacts [hin, h₁.added b hb]
    obtain ⟨hcons, hgrow, hin⟩ := ih hone.1 hs
    refine ⟨hcons, hone.2.1.trans hgrow, fun b hb => ?_⟩
    rcases List.mem_cons.1 hb with rfl | hb
    · exact hone.2.2.imp_right fun hc => hc.imp (hgrow.kept b)
    · exact hin b hb

/-- Where an id is given that an instance to be added before might get, the id is refused. -/
theorem addEntity_ok {n : ℕ} {id : Option ℕ} (hs : addEntity s n f a id = .ok f') :
    ∃ m, n = m + 1 ∧ (∀ i ∈ id, f.byid i = none) ∧
      ((a ∈ f.entityFileMap ∧ f' = f) ∨ a ∉ f.entityFileMap ∧
        ∃ (d : EntityInstanceData) (bs : List ℕ) (g : IfcFile), f.heap a = some d ∧
        (∀ b, b ∈ bs ↔ b = a ∨ b ∈ d.instances) ∧
        bs.foldlM (addReference (fun f b => addEntity s m f b none) a) f = .ok g ∧
        g.enter s a id = .ok f') := by
  cases n with
  | zero => cases hs
  | succ m =>
    rw [addEntity, bind_eq_ok] at hs
    obtain ⟨_, hid, hs⟩ := hs
    refine ⟨m, rfl, require_eq_ok.1 hid, ?_⟩
    split at hs
    · rename_i ha
      exact Or.inl ⟨ha, (Except.ok.inj hs).symm⟩
    · rename_i ha
      obtain ⟨bs, hbs, hs⟩ := bind_eq_ok.1 hs
      obtain ⟨g, hg, hs⟩ := bind_eq_ok.1 hs
      obtain ⟨vs, hvs, -⟩ := bind_eq_ok.1 hbs
      rw [traverseFrom, if_neg (by simp), if_neg (by simp)] at hvs
      obtain ⟨d, hd, -⟩ := bind_eq_ok.1 hvs
      rw [data_ok] at hd
      obtain ⟨bs', hbs', hmem⟩ := traverse_one hd
      obtain rfl := Except.ok.inj (hbs.symm.trans hbs')
      exact Or.inr ⟨ha, d, bs, g, hd, hmem, hg, hs⟩

/-- Without an id for it, an instance is added with all that it refers to. -/
theorem Consistent.addEntity_none {n : ℕ} (h : Consistent s f)
    (hs : addEntity s n f a none = .ok f') :
    Consistent s f' ∧ Grows none f f' ∧ ∃ e, f'.InFile a e := by
  induction n generalizing f f' a with
  | zero => cases hs
  | succ n ih =>
    obtain ⟨m, hm, -, hs⟩ := addEntity_ok hs
    obtain rfl := Nat.succ.inj hm
    rcases hs with ⟨ha, rfl⟩ | ⟨-, d, bs, g, hd, hmem, hg, hs⟩
    · exact ⟨h, .refl none f', h.added a ha⟩
    · obtain ⟨hcons, hgrow, hin⟩ := h.addReferences ih hg
      obtain ⟨e, he, heq⟩ := hgrow.same a d hd
      obtain ⟨hcons, hgrow', hin'⟩ := hcons.enter he
        (fun b hb => hin b ((hmem b).2 (Or.inr (heq ▸ hb)))) (by simp) hs
      exact ⟨hcons, hgrow.trans hgrow', hin'⟩

/-- For an instance in the file only the map of the copies changes. -/
theorem Consistent.addReferences_inFile {add : IfcFile → ℕ → Except FileError IfcFile}
    (hadd : ∀ {f f' b d}, Consistent s f → f.InFile b d → add f b = .ok f' →
      Consistent s f' ∧ ∃ map, f' = { f with entityFileMap := map })
    (h : Consistent s f) {bs : List ℕ} (hin : ∀ b ∈ bs, b = a ∨ ∃ e, f.InFile b e)
    (hs : bs.foldlM (addReference add a) f = .ok f') :
    ∃ map, f' = { f with entityFileMap := map } := by
  induction bs generalizing f with
  | nil =>
    cases hs
    exact ⟨_, rfl⟩
  | cons c bs ih =>
    rw [List.foldlM_cons, bind_eq_ok] at hs
    obtain ⟨g, hg, hs⟩ := hs
    obtain ⟨hc, hbs⟩ := List.forall_mem_cons.1 hin
    unfold addReference at hg
    split at hg
    · cases hg
      exact ih h hbs hs
    · rename_i hnot
      obtain ⟨e, he⟩ := hc.resolve_left fun heq => hnot (Or.inl heq)
      obtain ⟨f₁, hf₁, hg⟩ := bind_eq_ok.1 hg
      cases hg
      obtain ⟨h₁, map, rfl⟩ := hadd h he hf₁
      have hadded : ∀ b ∈ c :: map, ∃ d, f.InFile b d := by
        intro b hb
        rcases List.mem_cons.1 hb with rfl | hb
        exacts [⟨e, he⟩, h₁.added b hb]
      have h₂ : Consistent s { f with entityFileMap := c :: map } := { h₁ with added := hadded }
      obtain ⟨map', rfl⟩ := ih h₂ hbs hs
      exact ⟨map', rfl⟩

/-- To add what is in the file changes only what is said to have been added. -/
theorem Consistent.addEntity_inFile {n : ℕ} (h : Consistent s f) (hin : f.InFile a d)
    (hs : addEntity s n f a none = .ok f') :
    Consistent s f' ∧ ∃ map, f' = { f with entityFileMap := map } := by
  refine ⟨(h.addEntity_none hs).1, ?_⟩
  induction n generalizing f f' a d with
  | zero => cases hs
  | succ n ih =>
    obtain ⟨m, hm, -, hs⟩ := addEntity_ok hs
    obtain rfl := Nat.succ.inj hm
    rcases hs with ⟨ha, rfl⟩ | ⟨-, x, bs, g, hx, hmem, hg, hs⟩
    · exact ⟨_, rfl⟩
    · obtain rfl := Option.some.inj (hin.1.symm.trans hx)
      obtain ⟨map, rfl⟩ := h.addReferences_inFile
        (fun h hin hs => ⟨(h.addEntity_none hs).1, ih h hin hs⟩)
        (fun b hb => ((hmem b).1 hb).imp_right (h.closed a d hin b)) hg
      have hin' : ({ f with entityFileMap := map } : IfcFile).InFile a d := hin
      rw [enter_inFile hin'] at hs
      exact ⟨map, (Except.ok.inj hs).symm⟩

/-- An id may be given that is at most the greatest one, or to an instance that refers to none
outside the file: those get the next ones. -/
theorem Consistent.addEntity {n : ℕ} {id : Option ℕ} (h : Consistent s f)
    (hpos : ∀ i ∈ id, 0 < i) (hid : ∀ i ∈ id, i ≤ f.maxId ∨
      ∀ d, f.heap a = some d → ∀ b ∈ d.instances, b = a ∨ ∃ e, f.InFile b e)
    (hs : addEntity s n f a id = .ok f') :
    Consistent s f' ∧ Grows id f f' ∧ ∃ e, f'.InFile a e := by
  obtain ⟨m, rfl, hnew, hs⟩ := addEntity_ok hs
  rcases hs with ⟨ha, rfl⟩ | ⟨-, d, bs, g, hd, hmem, hg, hs⟩
  · exact ⟨h, .refl id f', h.added a ha⟩
  · obtain ⟨hcons, hgrow, hin⟩ := h.addReferences (fun h hs => h.addEntity_none hs) hg
    obtain ⟨e, he, heq⟩ := hgrow.same a d hd
    have hid' : ∀ i ∈ id, 0 < i ∧ g.byid i = none := by
      intro i hi
      refine ⟨hpos i hi, ?_⟩
      rcases hid i hi with hle | hall
      · rw [hgrow.byid i hle nofun]
        exact hnew i hi
      · obtain ⟨map, rfl⟩ := h.addReferences_inFile (fun h hin hs => h.addEntity_inFile hin hs)
          (fun b hb => ((hmem b).1 hb).elim Or.inl (hall d hd b)) hg
        exact hnew i hi
    obtain ⟨hcons, hgrow', hin'⟩ := hcons.enter he
      (fun b hb => hin b ((hmem b).2 (Or.inr (heq ▸ hb)))) hid' hs
    exact ⟨hcons, hgrow.trans hgrow', hin'⟩

end VulcanDB.Ifcparse
