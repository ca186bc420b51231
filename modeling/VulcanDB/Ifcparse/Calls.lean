import VulcanDB.Ifcparse.Addition
import VulcanDB.Ifcparse.Removal

/-!
# Ifcparse — Calls

A program holds a file and makes instances, sets their attributes, adds them and removes them.  The
runs are those of *proper* calls: where the file relies on its caller and checks nothing, the call
is what the file expects (`Call.proper`).

* `consistent_of_runs`: the maps of the file are those of its instances after every run of calls.
* `instancesByReference_spec`, `getInverse_spec`: what the inverse queries answer then.
* `removeEntity_spec`, `unbatch_spec`: what is removed at once, and what in batch mode.
-/

namespace VulcanDB.Ifcparse

open Cxx Steps Inverted IfcFile

variable {s : SchemaDefinition} {f f' : IfcFile} {a : ℕ} {d : EntityInstanceData}
  {ls : List Unit}

/-! ### The machine -/

/-- The calls; `n` is how deep the recursion of `addEntity` may go. -/
inductive Call where
  | create (a type : ℕ) (attributes : List Argument)
  | setArgument (a i : ℕ) (v : Argument)
  | addEntity (n a : ℕ) (id : Option ℕ)
  | removeEntity (a : ℕ)
  | batch
  | unbatch

/-- The machine of a file and the program that holds it. -/
def calls (s : SchemaDefinition) : Machine IfcFile Call FileError Unit where
  step f
    | .create a type attributes => .ok (f.setData a ⟨type, 0, false, attributes⟩)
    | .setArgument a i v => f.setArgument s a i v
    | .addEntity n a id => addEntity s n f a id
    | .removeEntity a => f.removeEntity s a
    | .batch => .ok f.batch
    | .unbatch => f.unbatch s
  label _ _ := []

/-- Whether there is an instance in the file at an address. -/
def IfcFile.present (f : IfcFile) (b : ℕ) : Bool := (f.heap b).any (·.file)

/-- An instance is present where the file has it. -/
theorem present_iff {b : ℕ} : f.present b = true ↔ ∃ e, f.InFile b e := by
  unfold IfcFile.present InFile
  cases f.heap b <;> simp

/-- What the file does not check.  A new instance is somewhere else; one in the file only gets
instances that are in it, since another would be registered under the id it does not have yet; an id
is given that is at most the greatest one, or to an instance that refers to none outside the
file. -/
def Call.proper (f : IfcFile) : Call → Bool
  | .create a _ _ => (f.heap a).isNone
  | .setArgument a _ v => !f.present a || v.instances.all f.present
  | .addEntity _ a (some id) => decide (0 < id) && (decide (id ≤ f.maxId) ||
      (f.heap a).all fun d => d.instances.all fun b => decide (b = a) || f.present b)
  | _ => true

/-! ### The maps -/

/-- The file with one more instance to be deleted. -/
def IfcFile.pend (f : IfcFile) (id : ℕ) : IfcFile :=
  { f with batchDeletionIds :=
      if id ∈ f.batchDeletionIds then f.batchDeletionIds else f.batchDeletionIds ++ [id] }

/-- An id that waits for its deletion changes no map. -/
theorem WellFormed.pend (h : WellFormed s f) (hin : f.InFile a d) : WellFormed s (f.pend d.id) := by
  refine { h with batch := ?_ }
  unfold IfcFile.pend
  split
  · exact h.batch
  · rename_i hnot
    refine ⟨List.nodup_append.2 ⟨h.batch.1, List.nodup_singleton _, ?_⟩, ?_⟩
    · rintro i hi j hj rfl
      exact hnot (List.mem_singleton.1 hj ▸ hi)
    · intro i hi
      rcases List.mem_append.1 hi with hi | hi
      · exact h.batch.2 i hi
      · rw [List.mem_singleton.1 hi]
        exact Option.isSome_iff_exists.2 ⟨a, h.byid_id hin⟩

/-- Outside a batch a removal is the pending deletion and its processing. -/
theorem removeEntity_ok (h : WellFormed s f) : f.removeEntity s a = .ok f' ↔
    ∃ d, f.InFile a d ∧ if f.batchMode then f.pend d.id = f'
      else (f.pend d.id).processDeletion s = .ok f' := by
  unfold IfcFile.removeEntity
  simp only [bind_eq_ok, data_ok, instanceById_ok, require_eq_ok]
  constructor
  · rintro ⟨d, hd, b, hb, -, rfl, hf'⟩
    obtain ⟨e, he, -⟩ := (h.byid _ _).1 hb
    obtain rfl := Option.some.inj (hd.symm.trans he.1)
    refine ⟨d, he, ?_⟩
    split
    · rename_i hm
      rw [if_pos hm, pure_eq_ok] at hf'
      exact hf'
    · rename_i hm
      rw [if_neg hm] at hf'
      exact hf'
  · rintro ⟨d, hin, hf'⟩
    refine ⟨d, hin.1, a, h.byid_id hin, (), rfl, ?_⟩
    split
    · rename_i hm
      rw [if_pos hm] at hf'
      exact pure_eq_ok.2 hf'
    · rename_i hm
      rw [if_neg hm] at hf'
      exact hf'

/-- Outside a batch the id waits alone. -/
theorem Consistent.pend_one (h : Consistent s f) (hm : f.batchMode = false) (id : ℕ) :
    (f.pend id).batchDeletionIds = [id] := by
  simp [IfcFile.pend, h.noBatch hm]

/-- **A removal** keeps the maps exact. -/
theorem Consistent.removeEntity (h : Consistent s f) (hs : f.removeEntity s a = .ok f') :
    Consistent s f' := by
  obtain ⟨d, hin, hs⟩ := (removeEntity_ok h.toWellFormed).1 hs
  have hw := h.toWellFormed.pend hin
  cases hm : f.batchMode with
  | true =>
    rw [if_pos hm] at hs
    subst hs
    refine { hw with noBatch := fun hno => ?_, byrefExcl := h.byrefExcl, byref := h.byref }
    change f.batchMode = false at hno
    rw [hm] at hno
    cases hno
  | false =>
    rw [if_neg (by simp [hm])] at hs
    have hmode : (f.pend d.id).batchMode = true ∨ (f.pend d.id).batchDeletionIds.length ≤ 1 :=
      Or.inr (by rw [h.pend_one hm]; exact le_rfl)
    exact ((processDeletion_spec hw h.byrefExcl h.byref hmode).2 f' hs).1

/-- Outside a batch at most one id waits. -/
theorem Consistent.mode (h : Consistent s f) :
    f.batchMode = true ∨ f.batchDeletionIds.length ≤ 1 := by
  cases hm : f.batchMode with
  | true => exact Or.inl rfl
  | false => exact Or.inr (by simp [h.noBatch hm])

theorem processDeletion_pending (hs : f.processDeletion s = .ok f') : f'.batchDeletionIds = [] := by
  obtain ⟨g, -, hs⟩ := bind_eq_ok.1 hs
  cases hs
  rfl

/-- The end of a batch is the processing of its ids. -/
theorem unbatch_ok : f.unbatch s = .ok f' ↔
    ∃ g, f.processDeletion s = .ok g ∧ { g with batchMode := false } = f' := by
  unfold IfcFile.unbatch
  simp only [bind_eq_ok, pure_eq_ok]

/-- **The end of a batch** keeps the maps exact. -/
theorem Consistent.unbatch (h : Consistent s f) (hs : f.unbatch s = .ok f') : Consistent s f' := by
  obtain ⟨g, hg, rfl⟩ := unbatch_ok.1 hs
  have hcons := ((processDeletion_spec h.toWellFormed h.byrefExcl h.byref h.mode).2 g hg).1
  have hpending : g.batchDeletionIds = [] := processDeletion_pending hg
  exact { hcons with noBatch := fun _ => hpending }

/-- **Every call** keeps the maps exact. -/
theorem Consistent.call (h : Consistent s f) {c : Call} (hc : c.proper f = true)
    (hs : (calls s).step f c = .ok f') : Consistent s f' := by
  cases c with
  | create a type attributes =>
    cases hs
    refine h.setData (fun d hd => ?_) rfl
    rw [Call.proper, hd.1] at hc
    cases hc
  | setArgument a i v =>
    refine h.setArgument (fun d hd b hb => present_iff.1 ?_) hs
    rw [Call.proper, present_iff.2 ⟨d, hd⟩, Bool.not_true, Bool.false_or, List.all_eq_true] at hc
    exact hc b hb
  | addEntity n a id =>
    refine (h.addEntity (fun i hi => ?_) (fun i hi => ?_) hs).1
    · subst hi
      rw [Call.proper, Bool.and_eq_true, decide_eq_true_iff] at hc
      exact hc.1
    · subst hi
      rw [Call.proper, Bool.and_eq_true, Bool.or_eq_true] at hc
      refine hc.2.imp decide_eq_true_iff.1 fun hall d hd b hb => ?_
      rw [hd, Option.all_some, List.all_eq_true] at hall
      have hb' := hall b hb
      rw [Bool.or_eq_true, decide_eq_true_iff, present_iff] at hb'
      exact hb'
  | removeEntity a => exact h.removeEntity hs
  | batch =>
    cases hs
    exact { h with noBatch := nofun }
  | unbatch => exact h.unbatch hs

/-- The runs of proper calls on a new file. -/
abbrev Runs (s : SchemaDefinition) : List Unit → IfcFile → Prop :=
  RunWhere (calls s) (fun f c => c.proper f = true) .new

/-- **Every run.**  After proper calls the maps of the file are those of the instances in it. -/
theorem consistent_of_runs (h : Runs s ls f) : Consistent s f :=
  h.invariant (P := fun _ f => Consistent s f) consistent_new fun _ _ _ _ hf hc hs => hf.call hc hs

/-- A wall, which is rooted, and points, which are not. -/
def wallSchema : SchemaDefinition where
  lineage d := if d = 1 then [1, 0] else [d]
  ifcRoot := 0
  optional _ _ := true
  self d := by split <;> simp_all
  nodup d := by split <;> simp

/-- A wall with a GlobalId that refers to a point. -/
def wall : List Call :=
  [.create 10 2 [], .create 11 1 [.string ['g'], .entity 10], .addEntity 3 11 none]

/-- The point and then the wall are removed in batch mode. -/
theorem consistent_of_runs_wall : ∃ f, Runs wallSchema [] f ∧ f.maxId = 2 ∧
    Consistent wallSchema f := by
  obtain ⟨f, hf⟩ : ∃ f, exec (calls wallSchema) .new (wall ++ [.batch, .removeEntity 10,
      .removeEntity 11, .unbatch]) = .ok ([], f) ∧ f.maxId = 2 := ⟨_, rfl, rfl⟩
  have hrun : Runs wallSchema [] f := RunWhere.exec _ .start (by decide) hf.1
  exact ⟨f, hrun, hf.2, consistent_of_runs hrun⟩

/-! ### Inverse queries -/

/-- What is found once for each element is counted as the element is. -/
theorem count_mapM_ok {E A B : Type} [DecidableEq A] [DecidableEq B] {g : A → Except E B}
    {as : List A} {bs : List B} {x : A} {b : B} (h : as.mapM g = .ok bs)
    (hx : ∀ a ∈ as, g a = .ok b ↔ a = x) : bs.count b = as.count x := by
  induction mapM_eq_ok.1 h with
  | nil => rfl
  | cons hab hrest ih =>
    obtain ⟨ha, has⟩ := List.forall_mem_cons.1 hx
    rw [List.count_cons, List.count_cons, ih (mapM_eq_ok.2 hrest) has]
    refine congrArg _ (if_congr ?_ rfl rfl)
    rw [beq_iff_eq, beq_iff_eq, ← ha, hab, Except.ok.injEq]

/-- How often the instance in the file at `b` refers to that at `a`. -/
def IfcFile.references (f : IfcFile) (a b : ℕ) : ℕ :=
  match f.heap b with
  | some e => if e.file then e.instances.count a else 0
  | none => 0

/-- The keys of an instance are the ids that it refers to. -/
theorem keys_exclKeys (d : EntityInstanceData) (idOf : ℕ → ℕ) :
    d.keys exclKeys idOf = d.instances.map idOf := by
  have hone (x : Argument × ℕ) : x.1.keys exclKeys idOf d.type x.2 = x.1.instances.map idOf :=
    flatMap_exclKeys (d := d) (i := x.2) _
  calc d.keys exclKeys idOf
    _ = d.attributes.zipIdx.flatMap fun x => x.1.instances.map idOf := by
        simp only [EntityInstanceData.keys, hone]
    _ = (d.attributes.zipIdx.map Prod.fst).flatMap fun v => v.instances.map idOf := by
        rw [List.flatMap_map]
    _ = d.instances.map idOf := by
        rw [List.zipIdx_map_fst, EntityInstanceData.instances, List.map_flatMap]

/-- The ids of instances are as distinct as the instances. -/
theorem WellFormed.count_ids (h : WellFormed s f) (hin : f.InFile a d) {bs : List ℕ}
    (hbs : ∀ b ∈ bs, ∃ e, f.InFile b e) : (bs.map f.idOf).count d.id = bs.count a := by
  rw [List.count_eq_countP, List.count_eq_countP, List.countP_map]
  refine List.countP_congr fun c hc => ?_
  obtain ⟨x, hx⟩ := hbs c hc
  simp only [Function.comp_apply, beq_iff_eq, idOf_eq hx.1]
  constructor
  · exact h.eq_of_id hin hx
  · rintro rfl
    rw [Option.some.inj (hx.1.symm.trans hin.1)]

/-- What is found under a key: each instance in the file as often as it has this key. -/
theorem Consistent.query {K : Type} [DecidableEq K] {r : ℕ → ℕ → ℕ → List K}
    {m : StdMap K (List ℕ)} (hf : Consistent s f) (hm : Inverts m (f.keysAt r)) (k : K) :
    ∃ rs, (Inverted.get m k).mapM f.instanceById = .ok rs ∧
      (∀ b e, f.InFile b e → rs.count b = (e.keys r f.idOf).count k) ∧
      ∀ b, (∀ e, ¬ f.InFile b e) → rs.count b = 0 := by
  obtain ⟨rs, hrs⟩ := exists_mapM_ok.2 fun i (hi : i ∈ Inverted.get m k) => by
    rw [hm.mem] at hi
    cases hb : f.byid i with
    | none =>
      rw [keysAt_none hb] at hi
      cases hi
    | some b => exact ⟨b, instanceById_ok.2 hb⟩
  refine ⟨rs, hrs, fun b e he => ?_, fun b hb => ?_⟩
  · have hcount := hm k e.id
    rw [keysAt_some (hf.byid_id he) he.1] at hcount
    rw [← hcount]
    refine count_mapM_ok hrs fun i _ => ?_
    rw [instanceById_ok]
    constructor
    · intro hi
      obtain ⟨x, hx, rfl⟩ := (hf.byid i b).1 hi
      rw [Option.some.inj (hx.1.symm.trans he.1)]
    · rintro rfl
      exact hf.byid_id he
  · rw [List.count_eq_zero, mem_mapM_ok hrs]
    rintro ⟨i, -, hi⟩
    obtain ⟨x, hx, -⟩ := (hf.byid i b).1 (instanceById_ok.1 hi)
    exact hb x hx

/-- **Inverse queries.**  In every state of every run of proper calls, `instances_by_reference`
answers for an instance in the file with each instance in it as often as it refers to this one, and
`getTotalInverses` with their number. -/
theorem instancesByReference_spec (h : Runs s ls f) (hin : f.InFile a d) :
    ∃ rs, f.instancesByReference d.id = .ok rs ∧ (∀ b, rs.count b = f.references a b) ∧
      f.getTotalInverses d.id = rs.length := by
  have hf := consistent_of_runs h
  obtain ⟨rs, hrs, hcount, hnone⟩ := hf.query hf.byrefExcl d.id
  refine ⟨rs, hrs, fun b => ?_, (mapM_eq_ok.1 hrs).length_eq⟩
  rw [IfcFile.references]
  split
  · rename_i e he
    split
    · rename_i hfile
      rw [hcount b e ⟨he, hfile⟩, keys_exclKeys, hf.count_ids hin (hf.closed b e ⟨he, hfile⟩)]
    · rename_i hfile
      refine hnone b fun x hx => hfile ?_
      rw [Option.some.inj (he.symm.trans hx.1)]
      exact hx.2
  · rename_i he
    refine hnone b fun x hx => ?_
    cases he.symm.trans hx.1

/-- The point of the wall. -/
theorem instancesByReference_wall : ∃ f rs, Runs wallSchema [] f ∧
    f.instancesByReference 1 = .ok rs ∧ rs.count 11 = 1 := by
  obtain ⟨f, hf⟩ : ∃ f, exec (calls wallSchema) .new wall = .ok ([], f) ∧
      f.InFile 10 ⟨2, 1, true, []⟩ ∧ f.references 10 11 = 1 := ⟨_, rfl, ⟨rfl, rfl⟩, rfl⟩
  have hrun : Runs wallSchema [] f := RunWhere.exec _ .start (by decide) hf.1
  obtain ⟨rs, hrs, hcount, -⟩ := instancesByReference_spec hrun hf.2.1
  exact ⟨f, rs, hrun, hrs, (hcount 11).trans hf.2.2⟩

/-- How often the instance in the file at `b` refers to that at `a` in an attribute, if it has a
type. -/
def IfcFile.referencesAt (s : SchemaDefinition) (f : IfcFile) (t i a b : ℕ) : ℕ :=
  match f.heap b with
  | some e =>
    if e.file ∧ t ∈ s.lineage e.type then
      ((e.attributes[i]?).map fun v => v.instances.count a).getD 0
    else 0
  | none => 0

/-- Only the attribute at that place is counted. -/
theorem count_zipIdx {α K : Type} [BEq K] {g : α → ℕ → List K} {k : K} {i : ℕ}
    (hne : ∀ v j, j ≠ i → (g v j).count k = 0) (l : List α) (n : ℕ) :
    ((l.zipIdx n).flatMap fun x => g x.1 x.2).count k =
      if n ≤ i then ((l[i - n]?).map fun v => (g v i).count k).getD 0 else 0 := by
  induction l generalizing n with
  | nil => simp
  | cons v l ih =>
    rw [List.zipIdx_cons, List.flatMap_cons, List.count_append, ih]
    rcases Nat.lt_trichotomy n i with hlt | rfl | hgt
    · have hrest : i - n = i - (n + 1) + 1 := by omega
      rw [hne v n hlt.ne, if_pos (Nat.succ_le_of_lt hlt), if_pos hlt.le, hrest,
        List.getElem?_cons_succ, Nat.zero_add]
    · simp
    · rw [hne v n hgt.ne', if_neg (by omega), if_neg (by omega)]

/-- The keys under an ancestor count the references. -/
theorem count_refKeys (decl j id t i : ℕ) (ids : List ℕ) :
    (ids.flatMap (refKeys s decl j)).count (id, t, i) =
      if j = i ∧ t ∈ s.lineage decl then ids.count id else 0 := by
  induction ids with
  | nil => simp
  | cons n ids ih =>
    rw [List.flatMap_cons, List.count_append, ih, List.count_cons]
    have hone : (refKeys s decl j n).count (id, t, i) =
        if n = id ∧ j = i ∧ t ∈ s.lineage decl then 1 else 0 := by
      unfold refKeys
      split
      · rename_i hall
        obtain ⟨rfl, rfl, ht⟩ := hall
        have hinj : Function.Injective fun e : ℕ => (n, e, j) := fun x y hxy => by simpa using hxy
        rw [List.count_map_of_injective _ _ hinj t, List.count_eq_one_of_mem (s.nodup decl) ht]
      · rename_i hnot
        refine List.count_eq_zero.2 fun hmem => hnot ?_
        obtain ⟨e, he, heq⟩ := List.mem_map.1 hmem
        simp only [Prod.mk.injEq] at heq
        obtain ⟨rfl, rfl, rfl⟩ := heq
        exact ⟨rfl, rfl, he⟩
    rw [hone]
    by_cases hn : n = id <;> by_cases hj : j = i ∧ t ∈ s.lineage decl <;> simp [hn, hj]
    omega

theorem count_keys_refKeys (e : EntityInstanceData) (idOf : ℕ → ℕ) (id t i : ℕ) :
    (e.keys (refKeys s) idOf).count (id, t, i) = if t ∈ s.lineage e.type then
      ((e.attributes[i]?).map fun v => (v.instances.map idOf).count id).getD 0 else 0 := by
  have hne (v : Argument) (j : ℕ) (hj : j ≠ i) :
      (v.keys (refKeys s) idOf e.type j).count (id, t, i) = 0 := by
    rw [Argument.keys, count_refKeys, if_neg fun h => hj h.1]
  have hcount := count_zipIdx hne e.attributes 0
  rw [if_pos (Nat.zero_le i), Nat.sub_zero] at hcount
  refine hcount.trans ?_
  simp only [Argument.keys, count_refKeys, true_and]
  cases e.attributes[i]? with
  | none => simp
  | some v => rfl

/-- **Inverse attributes.**  In every state of every run of proper calls, `getInverse` with a type
and the index of an attribute answers with each instance of this type or a subtype as often as this
attribute of it refers to the instance. -/
theorem getInverse_spec (h : Runs s ls f) (hin : f.InFile a d) (t i : ℕ) :
    ∃ rs, f.getInverse d.id t i = .ok rs ∧ ∀ b, rs.count b = f.referencesAt s t i a b := by
  have hf := consistent_of_runs h
  obtain ⟨rs, hrs, hcount, hnone⟩ := hf.query hf.byref (d.id, t, i)
  refine ⟨rs, hrs, fun b => ?_⟩
  rw [IfcFile.referencesAt]
  split
  · rename_i e he
    by_cases hfile : e.file = true
    · have heb : f.InFile b e := ⟨he, hfile⟩
      have hkeys : rs.count b = (e.keys (refKeys s) f.idOf).count (d.id, t, i) :=
        (hcount b e heb).trans (List.countP_congr fun x _ => by simp only [beq_iff_eq])
      rw [hkeys, count_keys_refKeys]
      refine if_congr (by simp [hfile]) ?_ rfl
      cases hv : e.attributes[i]? with
      | none => rfl
      | some v =>
        exact hf.count_ids hin fun c hc => hf.closed b e heb c (mem_instances_of_getElem hv hc)
    · rw [if_neg fun hall => hfile hall.1]
      refine hnone b fun x hx => hfile ?_
      rw [Option.some.inj (he.symm.trans hx.1)]
      exact hx.2
  · rename_i he
    refine hnone b fun x hx => ?_
    cases he.symm.trans hx.1

/-- The wall by its attribute, and not by another. -/
theorem getInverse_wall : ∃ f rs, Runs wallSchema [] f ∧ f.getInverse 1 0 1 = .ok rs ∧
    rs.count 11 = 1 := by
  obtain ⟨f, hf⟩ : ∃ f, exec (calls wallSchema) .new wall = .ok ([], f) ∧
      f.InFile 10 ⟨2, 1, true, []⟩ ∧ f.referencesAt wallSchema 0 1 10 11 = 1 :=
    ⟨_, rfl, ⟨rfl, rfl⟩, rfl⟩
  have hrun : Runs wallSchema [] f := RunWhere.exec _ .start (by decide) hf.1
  obtain ⟨rs, hrs, hcount⟩ := getInverse_spec hrun hf.2.1 0 1
  exact ⟨f, rs, hrun, hrs, (hcount 11).trans hf.2.2⟩

/-! ### Removing -/

/-- **Outside batch mode.**  In every state of every run of proper calls, `removeEntity` completes
for an instance in the file if its GlobalId is a text or it is not rooted, and then the instance is
gone and the others have lost their references to it. -/
theorem removeEntity_spec (h : Runs s ls f) (hm : f.batchMode = false) (hin : f.InFile a d) :
    ((∃ f', f.removeEntity s a = .ok f') ↔ (s.isRoot d → d.guid.isSome)) ∧
      ∀ f', f.removeEntity s a = .ok f' → ∀ b, f'.heap b = (f.heap b).bind fun e =>
        if e.file then if b = a then none else some (e.without s fun c => decide (c = a))
        else some e := by
  have hf := consistent_of_runs h
  have hw := hf.toWellFormed.pend hin
  have hone := hf.pend_one hm d.id
  have hgone := gone_append [] hf.toWellFormed hin
  obtain ⟨hiff, hok⟩ := processDeletion_spec hw hf.byrefExcl hf.byref
    (Or.inr (by rw [hone]; exact le_rfl))
  -- outside a batch the id is processed at once
  have hremove (f' : IfcFile) : f.removeEntity s a = .ok f' ↔
      (f.pend d.id).processDeletion s = .ok f' := by
    rw [removeEntity_ok hf.toWellFormed]
    constructor
    · rintro ⟨x, hx, hs⟩
      obtain rfl := Option.some.inj (hin.1.symm.trans hx.1)
      rwa [if_neg (by simp [hm])] at hs
    · intro hs
      exact ⟨d, hin, by rwa [if_neg (by simp [hm])]⟩
  constructor
  · simp only [hremove]
    rw [hiff, deletable_one hw hin hone]
  · intro f' hs b
    obtain ⟨-, hremoved⟩ := hok f' ((hremove f').1 hs)
    have hheap := hremoved.heap b
    rw [hone] at hheap
    -- gone is this instance and no other
    have hdead : (f.pend d.id).gone [d.id] = fun c => decide (c = a) := by
      change f.gone [d.id] = _
      rw [List.nil_append] at hgone
      rw [hgone]
      funext c
      rw [gone_nil, Bool.false_or]
    rw [hdead] at hheap
    rw [hheap]
    change (f.heap b).bind _ = (f.heap b).bind _
    refine Option.bind_congr fun e he => ?_
    split
    · rename_i hfile
      have hid : e.id ∈ [d.id] ↔ b = a := by
        have hb : (f.pend d.id).gone [d.id] b = decide (e.id ∈ [d.id]) := gone_eq ⟨he, hfile⟩
        rw [hdead] at hb
        exact (decide_eq_decide.1 hb).symm
      exact if_congr hid rfl rfl
    · rfl

/-- A wall loses its point. -/
theorem removeEntity_wall : ∃ f f', Runs wallSchema [] f ∧ f.removeEntity wallSchema 10 = .ok f' ∧
    f'.heap 10 = none ∧ f'.heap 11 = some ⟨1, 2, true, [.string ['g'], .null]⟩ := by
  obtain ⟨f, hf⟩ : ∃ f, exec (calls wallSchema) .new wall = .ok ([], f) ∧ f.batchMode = false ∧
      f.InFile 10 ⟨2, 1, true, []⟩ ∧
      f.heap 11 = some ⟨1, 2, true, [.string ['g'], .entity 10]⟩ := ⟨_, rfl, rfl, ⟨rfl, rfl⟩, rfl⟩
  have hrun : Runs wallSchema [] f := RunWhere.exec _ .start (by decide) hf.1
  obtain ⟨hiff, hok⟩ := removeEntity_spec hrun hf.2.1 hf.2.2.1
  obtain ⟨f', hf'⟩ := hiff.2 (by decide)
  refine ⟨f, f', hrun, hf', ?_, ?_⟩
  · rw [hok f' hf', hf.2.2.1.1]
    rfl
  · rw [hok f' hf', hf.2.2.2]
    rfl

/-- **Batch mode.**  In every state of every run of proper calls, `unbatch` completes if none of the
instances that were removed refers to one removed after it and the rooted ones have their GlobalIds,
and then all of them are gone and the others have lost their references to them. -/
theorem unbatch_spec (h : Runs s ls f) :
    ((∃ f', f.unbatch s = .ok f') ↔ f.Deletable s) ∧
      ∀ f', f.unbatch s = .ok f' → Removed s f f' := by
  have hf := consistent_of_runs h
  obtain ⟨hiff, hok⟩ := processDeletion_spec hf.toWellFormed hf.byrefExcl hf.byref hf.mode
  constructor
  · rw [← hiff]
    constructor
    · rintro ⟨f', hs⟩
      obtain ⟨g, hg, -⟩ := unbatch_ok.1 hs
      exact ⟨g, hg⟩
    · rintro ⟨g, hg⟩
      exact ⟨_, unbatch_ok.2 ⟨g, hg, rfl⟩⟩
  · intro f' hs
    obtain ⟨g, hg, rfl⟩ := unbatch_ok.1 hs
    have hremoved := (hok g hg).2
    exact { hremoved with }

/-- A wall that was removed before its point. -/
theorem unbatch_wall : ∃ f, Runs wallSchema [] f ∧ f.batchDeletionIds = [2, 1] ∧
    ¬ ∃ f', f.unbatch wallSchema = .ok f' := by
  obtain ⟨f, hf⟩ : ∃ f, exec (calls wallSchema) .new (wall ++ [.batch, .removeEntity 11,
      .removeEntity 10]) = .ok ([], f) ∧ f.batchDeletionIds = [2, 1] ∧
      f.keysAt exclKeys 2 = [1] := ⟨_, rfl, rfl, rfl⟩
  have hrun : Runs wallSchema [] f := RunWhere.exec _ .start (by decide) hf.1
  refine ⟨f, hrun, hf.2.1, fun hok => ?_⟩
  have hdeletable := (unbatch_spec hrun).1.1 hok
  exact (hdeletable [2] 1 [] hf.2.1).1 2 (by simp) (by simp [hf.2.2])

end VulcanDB.Ifcparse
