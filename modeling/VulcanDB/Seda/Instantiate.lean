import VulcanDB.Seda.Config

/-!
# SEDA — What is instantiated

The thread pools, the stages and their next stages, after each part of an initialisation that
succeeds.

* `initThreadPool_ok`, `initStages_success`, `genNextStages_ok`, `connectStages_success`: what each
  part creates and what it leaves.
* `instantiate_holds`, `init_holds`: what is there after all of them.
-/

namespace VulcanDB.Seda.Config

open Cxx Steps

/-! ### What is read of the configuration -/

/-- The count of a thread pool, as the configuration has it. -/
def poolCount (env : Environment) (seda : StdMap Str Section) (threadName : Str) : Int :=
  threadCount env (getKey seda countName (dec env.cpuNum) threadName).2

/-- The names of the stages that the configuration lists. -/
def stageNamesOf (seda : StdMap Str Section) : List Str :=
  match (getSection seda sedaBaseName).find stagesName with
  | none => []
  | some names => splitString names

/-- The names of the next stages that the configuration lists for a stage. -/
def nextStageNames (seda : StdMap Str Section) (stageName : Str) : List Str :=
  match (getSection seda stageName).find nextStagesName with
  | none => []
  | some names => splitString names

/-- The same counts, and the same entries under the keys that are not counts. -/
structure SameReads (env : Environment) (seda seda' : StdMap Str Section) : Prop where
  count : ∀ threadName, poolCount env seda' threadName = poolCount env seda threadName
  entry : ∀ sec key, key ≠ countName →
    (getSection seda' sec).find key = (getSection seda sec).find key

theorem SameReads.refl (env : Environment) (seda : StdMap Str Section) :
    SameReads env seda seda := ⟨fun _ => rfl, fun _ _ _ => rfl⟩

theorem SameReads.trans {env : Environment} {s₁ s₂ s₃ : StdMap Str Section}
    (h : SameReads env s₁ s₂) (h' : SameReads env s₂ s₃) : SameReads env s₁ s₃ :=
  ⟨fun k => (h'.count k).trans (h.count k),
    fun sec k hk => (h'.entry sec k hk).trans (h.entry sec k hk)⟩

/-- A lookup changes what is found under its own key only. -/
theorem find_getKey_of_ne (seda : StdMap Str Section) {key key' : Str} (h : key' ≠ key)
    (d sec sec' : Str) : (getSection (getKey seda key d sec).1 sec').find key' =
      (getSection seda sec').find key' := by
  unfold getKey getSection
  cases hm : seda.find sec with
  | none => rfl
  | some m =>
      simp only [StdMap.find_assign, StdMap.subscript]
      by_cases hs : sec' = sec
      · subst hs
        simp [hm, StdMap.find_insertNew, h]
      · rw [if_neg hs]

theorem sameReads_getKey (env : Environment) (seda : StdMap Str Section) (d sec : Str) :
    SameReads env seda (getKey seda countName d sec).1 where
  count threadName := by rw [poolCount, poolCount, getKey_getKey]
  entry _ _ hne := find_getKey_of_ne seda hne d sec _

/-- The names of the stages are read alike. -/
theorem stageNamesOf_eq {env : Environment} {seda seda' : StdMap Str Section}
    (h : SameReads env seda seda') : stageNamesOf seda' = stageNamesOf seda := by
  rw [stageNamesOf, stageNamesOf, h.entry _ _ (by decide)]

theorem nextStageNames_eq {env : Environment} {seda seda' : StdMap Str Section}
    (h : SameReads env seda seda') (stageName : Str) :
    nextStageNames seda' stageName = nextStageNames seda stageName := by
  rw [nextStageNames, nextStageNames, h.entry _ _ (by decide)]

theorem poolNames_eq {env : Environment} {seda seda' : StdMap Str Section}
    (h : SameReads env seda seda') : poolNames seda' = poolNames seda := by
  rw [poolNames, poolNames, h.entry _ _ (by decide)]

/-! ### The thread pools -/

/-- Every thread pool has its own name, and the threads that its count says. -/
def PoolsMade (env : Environment) (c : SedaConfig) : Prop :=
  ∀ k p, c.threadPools.find k = some p →
    ∃ j, p = some j ∧ c.poolObjects[j]? = some ⟨(poolCount env c.seda k).toNat, k, false⟩

theorem addPool_made {env : Environment} {c : SedaConfig} (h : PoolsMade env c)
    (threadName : Str) : PoolsMade env
      (addPool (readCount env c threadName).1 threadName (readCount env c threadName).2) := by
  have hreads := sameReads_getKey env c.seda (dec env.cpuNum) threadName
  intro k p hk
  simp only [addPool, readCount, StdMap.find_assign] at hk ⊢
  rw [hreads.count]
  by_cases hkn : k = threadName
  · subst hkn
    rw [if_pos rfl] at hk
    obtain rfl := Option.some.inj hk
    exact ⟨_, rfl, by rw [List.getElem?_concat_length, poolCount]⟩
  · rw [if_neg hkn] at hk
    obtain ⟨j, rfl, hj⟩ := h k p hk
    exact ⟨j, rfl, by rwa [List.getElem?_append_left (List.getElem?_eq_some_iff.mp hj).1]⟩

/-- What the loop over the names of the thread pools keeps, and what it reads. -/
theorem createPools_ok {env : Environment} {c : SedaConfig} (h : PoolsMade env c)
    (names : List Str) : PoolsMade env (createPools env c names).2 ∧
      SameReads env c.seda (createPools env c names).2.seda ∧
      (createPools env c names).2.stageNames = c.stageNames := by
  induction names generalizing c with
  | nil => exact ⟨h, .refl _ _, rfl⟩
  | cons threadName rest ih =>
      have hreads := sameReads_getKey env c.seda (dec env.cpuNum) threadName
      rw [createPools]
      split
      · refine ⟨fun k p hk => ?_, hreads, rfl⟩
        have hmade := h k p hk
        rwa [← hreads.count] at hmade
      · obtain ⟨hmade, hsame, hnames⟩ := ih (addPool_made h threadName)
        exact ⟨hmade, hreads.trans hsame, hnames⟩

/-- What a successful `init_thread_pool` creates. -/
structure PoolsHeld (env : Environment) (c c' : SedaConfig) : Prop where
  reads : SameReads env c.seda c'.seda
  stageNames : c'.stageNames = c.stageNames
  stages : c'.stages = c.stages
  stageObjects : c'.stageObjects = c.stageObjects
  listed : ∀ k, (c'.threadPools.find k).isSome ↔ k ∈ poolNames c.seda
  made : PoolsMade env c'

/-- **The pools** that a success leaves. -/
theorem initThreadPool_ok {env : Environment} {c c' : SedaConfig} (h₀ : c.threadPools = ∅)
    (h : initThreadPool env c = .ok (.success, c')) : PoolsHeld env c c' := by
  have hmade : PoolsMade env c := by
    intro k p hk
    rw [h₀, StdMap.find_empty] at hk
    cases hk
  unfold initThreadPool at h
  split at h
  · cases h
  · rename_i names hnames
    have hspec := createPools_spec env c (splitString names)
    obtain ⟨hmade', hreads, hstageNames⟩ := createPools_ok hmade (splitString names)
    generalize createPools env c (splitString names) = r at h hspec hmade' hreads hstageNames
    obtain ⟨status, c₁⟩ := r
    cases status with
    | initFail => cases h
    | success =>
        have hpools : poolNames c.seda = splitString names := by rw [poolNames, hnames]
        simp only at h
        split at h
        · rename_i hdefault
          rw [if_neg (Nat.not_lt.mpr (StdMap.size_pos_of_find hdefault))] at h
          obtain ⟨-, rfl⟩ := Prod.mk.inj (Except.ok.inj h)
          refine ⟨hreads, hstageNames, hspec.stages, hspec.stageObjects, fun k => ?_, hmade'⟩
          rw [hspec.listed rfl, h₀, hpools]
          simp
        · cases h

/-! ### The stages -/

/-- A stage that is created gets the thread pool that is configured for it. -/
theorem createStage_success {env : Environment} {c c' : SedaConfig} {stageName : Str}
    (h : createStage env c stageName = .ok (.success, c')) : ∃ p,
    c.threadPools.find (getThreadPool c stageName) = some (some p) ∧
      c' = { c with
        stages := c.stages.assign stageName (some c.stageObjects.length)
        stageObjects := c.stageObjects ++ [⟨stageName, some p, [], false, false⟩] } := by
  rw [createStage] at h
  simp only at h
  split at h
  · cases h
  · cases h
  · obtain ⟨_, hpool, h⟩ := bind_eq_ok.mp h
    obtain ⟨-, rfl⟩ := Prod.mk.inj (Except.ok.inj h)
    have hne := require_eq_ok.mp hpool
    simp only [StdMap.subscript] at hne ⊢
    cases hfind : c.threadPools.find (getThreadPool c stageName) with
    | none => simp [hfind] at hne
    | some q =>
        cases q with
        | none => simp [hfind] at hne
        | some p =>
            refine ⟨p, rfl, ?_⟩
            rw [StdMap.insertNew_of_isSome (by rw [hfind]; rfl), Option.getD_some]

/-- The stages that are registered after those of `names` were created. -/
structure StagesMade (base : SedaConfig) (names : List Str) (c : SedaConfig) : Prop where
  frame : c = { base with stages := c.stages, stageObjects := c.stageObjects }
  objects : c.stageObjects.map (·.name) = base.stageObjects.map (·.name) ++ names
  fresh : ∀ i st, base.stageObjects.length ≤ i → c.stageObjects[i]? = some st →
    st.deleted = false
  listed : ∀ k, (c.stages.find k).isSome ↔ k ∈ names
  stage : ∀ k p, c.stages.find k = some p → ∃ i q, p = some i ∧
    base.threadPools.find (getThreadPool base k) = some (some q) ∧
    c.stageObjects[i]? = some ⟨k, some q, [], false, false⟩

theorem StagesMade.start {base : SedaConfig} (h : base.stages = ∅) : StagesMade base [] base where
  frame := rfl
  objects := by simp
  fresh i st hi hget := absurd (List.getElem?_eq_some_iff.mp hget).1 (Nat.not_lt.mpr hi)
  listed k := by simp [h]
  stage k p hk := by
    rw [h, StdMap.find_empty] at hk
    cases hk

/-- The pool of a stage is looked up in the same map. -/
theorem StagesMade.getThreadPool {base c : SedaConfig} {names : List Str}
    (h : StagesMade base names c) (k : Str) :
    c.threadPools.find (Config.getThreadPool c k) =
      base.threadPools.find (Config.getThreadPool base k) := by
  rw [h.frame]
  rfl

/-- Every name is that of a stage, where they are the names of the stages. -/
theorem StagesMade.pointer {base c : SedaConfig} (h : StagesMade base base.stageNames c) :
    ∀ n ∈ c.stageNames, ∃ i, c.stages.find n = some (some i) := by
  intro n hn
  rw [h.frame, ← h.listed, Option.isSome_iff_exists] at hn
  obtain ⟨p, hfind⟩ := hn
  obtain ⟨i, -, rfl, -⟩ := h.stage n p hfind
  exact ⟨i, hfind⟩

theorem StagesMade.createStage {env : Environment} {base c c' : SedaConfig} {names : List Str}
    {stageName : Str} (h : StagesMade base names c)
    (hc : createStage env c stageName = .ok (.success, c')) :
    StagesMade base (names ++ [stageName]) c' := by
  obtain ⟨p, hpool, rfl⟩ := createStage_success hc
  rw [h.getThreadPool] at hpool
  have hlen : base.stageObjects.length ≤ c.stageObjects.length := by
    have hle := congrArg List.length h.objects
    simp only [List.length_map, List.length_append] at hle
    omega
  refine ⟨?_, ?_, ?_, ?_, ?_⟩
  · conv_lhs => rw [h.frame]
  · simp [h.objects]
  · intro i st hi hget
    rcases Nat.lt_or_ge i c.stageObjects.length with hlt | hge
    · rw [List.getElem?_append_left hlt] at hget
      exact h.fresh i st hi hget
    · obtain rfl := List.mem_singleton.mp
        (List.mem_of_getElem? ((List.getElem?_append_right hge).symm.trans hget))
      rfl
  · intro k
    rw [StdMap.find_assign, List.mem_append, List.mem_singleton, ← h.listed]
    by_cases hk : k = stageName
    · simp [hk]
    · simp [hk]
  · -- the name has the new stage, the other names have theirs
    intro k q hk
    rw [StdMap.find_assign] at hk
    by_cases hkn : k = stageName
    · subst hkn
      rw [if_pos rfl] at hk
      obtain rfl := Option.some.inj hk
      exact ⟨_, p, rfl, hpool, List.getElem?_concat_length⟩
    · rw [if_neg hkn] at hk
      obtain ⟨i, q, rfl, hq, hi⟩ := h.stage k q hk
      exact ⟨i, q, rfl, hq,
        by rwa [List.getElem?_append_left (List.getElem?_eq_some_iff.mp hi).1]⟩

/-- **The stages**, by induction on their names. -/
theorem StagesMade.createStages {env : Environment} {base c c' : SedaConfig}
    {names rest : List Str} (h : StagesMade base names c)
    (hc : createStages env c rest = .ok (.success, c')) : StagesMade base (names ++ rest) c' := by
  induction rest generalizing names c with
  | nil =>
      obtain ⟨-, rfl⟩ := Prod.mk.inj (Except.ok.inj hc)
      rwa [List.append_nil]
  | cons stageName rest ih =>
      rw [Config.createStages, bind_eq_ok] at hc
      obtain ⟨⟨status, c₁⟩, hone, hc⟩ := hc
      cases status with
      | initFail =>
          obtain ⟨hs, -⟩ := Prod.mk.inj (Except.ok.inj hc)
          cases hs
      | success =>
          have hmade := ih (h.createStage hone) hc
          rwa [List.append_assoc] at hmade

/-- The stages are those of all the names, also of the names that were there before. -/
theorem initStages_success {env : Environment} {c c' : SedaConfig} (h₀ : c.stages = ∅)
    (h : initStages env c = .ok (.success, c')) :
    StagesMade { c with stageNames := c.stageNames ++ stageNamesOf c.seda }
      (c.stageNames ++ stageNamesOf c.seda) c' ∧ c'.stages ≠ ∅ := by
  unfold initStages at h
  split at h
  · obtain ⟨c₁, -, heq⟩ := bind_eq_ok.mp h
    cases Except.ok.inj heq
  · rename_i names hnames
    have hlisted : stageNamesOf c.seda = splitString names := by rw [stageNamesOf, hnames]
    rw [hlisted]
    obtain ⟨⟨status, c₁⟩, hcreate, h⟩ := bind_eq_ok.mp h
    cases status with
    | initFail =>
        obtain ⟨c₂, -, heq⟩ := bind_eq_ok.mp h
        cases Except.ok.inj heq
    | success =>
        simp only at h
        split at h
        · obtain ⟨c₂, -, heq⟩ := bind_eq_ok.mp h
          cases Except.ok.inj heq
        · rename_i hsize
          obtain ⟨-, rfl⟩ := Prod.mk.inj (Except.ok.inj h)
          refine ⟨?_, fun hempty => hsize ?_⟩
          · have hstart : StagesMade { c with stageNames := c.stageNames ++ splitString names } []
                { c with stageNames := c.stageNames ++ splitString names } := .start h₀
            exact hstart.createStages hcreate
          · rw [StdMap.size_eq_zero.mpr hempty]
            exact Nat.zero_lt_one

/-! ### The next stages -/

/-- The stages with these names. -/
def registered (stages : StdMap Str (Option ℕ)) (names : List Str) : List ℕ :=
  names.filterMap fun k => (stages.find k).join

/-- The next stages that are pushed on the `i`-th stage for the entries of `names`. -/
def pushedFor (c : SedaConfig) (names : List Str) (i : ℕ) : List ℕ :=
  names.flatMap fun n =>
    if c.stages.find n = some (some i) then registered c.stages (nextStageNames c.seda n) else []

/-- The configuration with the next stages that `f` says pushed on each stage. -/
def SedaConfig.push (c : SedaConfig) (f : ℕ → List ℕ) : SedaConfig :=
  { c with stageObjects := c.stageObjects.mapIdx fun i st =>
      { st with nextStageList := st.nextStageList ++ f i } }

theorem mapIdx_stages {f : ℕ → Stage → Stage} (h : ∀ i st, f i st = st) (l : List Stage) :
    l.mapIdx f = l :=
  List.ext_getElem (by simp) fun i _ _ => by rw [List.getElem_mapIdx, h]

/-- A stage that is replaced, seen through functions that differ at its place only. -/
theorem mapIdx_set {l : List Stage} {i : ℕ} {st st' : Stage} {f g : ℕ → Stage → Stage}
    (h : l[i]? = some st) (hi : f i st' = g i st) (hne : ∀ j, j ≠ i → f j = g j) :
    (l.set i st').mapIdx f = l.mapIdx g := by
  refine List.ext_getElem? fun j => ?_
  rw [List.getElem?_mapIdx, List.getElem?_mapIdx]
  by_cases hj : j = i
  · subst hj
    rw [List.getElem?_set_self (List.getElem?_eq_some_iff.mp h).1, h, Option.map_some, hi]
    rfl
  · rw [List.getElem?_set_ne (Ne.symm hj), hne j hj]

theorem SedaConfig.push_nil (c : SedaConfig) : c.push (fun _ => []) = c := by
  rw [SedaConfig.push, mapIdx_stages fun _ _ => by rw [List.append_nil]]

theorem SedaConfig.push_push (c : SedaConfig) (f g : ℕ → List ℕ) :
    (c.push f).push g = c.push fun i => f i ++ g i := by
  simp [SedaConfig.push, List.mapIdx_mapIdx, Function.comp_def, List.append_assoc]

theorem SedaConfig.map_name_push (c : SedaConfig) (f : ℕ → List ℕ) :
    (c.push f).stageObjects.map (·.name) = c.stageObjects.map (·.name) := by
  refine List.ext_getElem? fun i => ?_
  simp only [SedaConfig.push, List.getElem?_map, List.getElem?_mapIdx]
  cases c.stageObjects[i]? <;> rfl

theorem setStage_push {c : SedaConfig} {i : ℕ} {st : Stage} (h : c.stageAt i = .ok st)
    (next : ℕ) : c.setStage i { st with nextStageList := st.nextStageList ++ [next] } =
      c.push fun j => if j = i then [next] else [] := by
  rw [SedaConfig.setStage, SedaConfig.push]
  congr 1
  rw [← mapIdx_stages (f := fun _ st => st) (fun _ _ => rfl) (c.stageObjects.set i _)]
  exact mapIdx_set (stageAt_ok h) (by simp) fun j hj => by simp [hj]

/-- Only a stage that is registered is pushed. -/
theorem pushStage_ok {stage : Option ℕ} {c c' : SedaConfig} {k : Str}
    (h : pushStage stage c k = .ok c') : ∃ i next, stage = some i ∧
    c.stages.find k = some (some next) ∧ c' = c.push fun j => if j = i then [next] else [] := by
  unfold pushStage at h
  simp only [StdMap.subscript] at h
  split at h
  · cases h
  · cases h
  · rename_i i next hnext
    have hfind : c.stages.find k = some (some next) := by
      cases hk : c.stages.find k with
      | none => simp [hk] at hnext
      | some p => rw [hk] at hnext; exact congrArg some hnext
    rw [StdMap.insertNew_of_isSome (by rw [hfind]; rfl)] at h
    obtain ⟨st, hget, h⟩ := bind_eq_ok.mp h
    obtain ⟨-, -, h⟩ := bind_eq_ok.mp h
    obtain rfl := Except.ok.inj h
    exact ⟨i, next, rfl, hfind, setStage_push hget next⟩

/-- **The next stages** of one stage, by induction on their names. -/
theorem pushStages_ok {i : ℕ} {c c' : SedaConfig} {names : List Str}
    (h : names.foldlM (pushStage (some i)) c = .ok c') :
    names.map c.stages.find = (registered c.stages names).map (some ∘ some) ∧
      c' = c.push fun j => if j = i then registered c.stages names else [] := by
  refine foldlM_invariant (P := fun done c' =>
    done.map c.stages.find = (registered c.stages done).map (some ∘ some) ∧
      c' = c.push fun j => if j = i then registered c.stages done else []) h ?_ ?_
  · refine ⟨rfl, ?_⟩
    simp only [registered, List.filterMap_nil, ite_self, SedaConfig.push_nil]
  · rintro done k rest c₁ c₂ - ⟨hmap, rfl⟩ hstep
    obtain ⟨j, next, hj, hfind, rfl⟩ := pushStage_ok hstep
    obtain rfl := Option.some.inj hj
    have hfind' : c.stages.find k = some (some next) := hfind
    have hreg : registered c.stages (done ++ [k]) = registered c.stages done ++ [next] := by
      simp [registered, hfind']
    refine ⟨by simp [hreg, hmap, hfind'], ?_⟩
    rw [SedaConfig.push_push, hreg]
    congr 1
    funext j
    split <;> rfl

theorem genNextStagesOf_ok {c c' : SedaConfig} {n : Str} {i : ℕ}
    (hn : c.stages.find n = some (some i)) (h : genNextStagesOf c n = .ok c') :
    (nextStageNames c.seda n).map c.stages.find =
        (registered c.stages (nextStageNames c.seda n)).map (some ∘ some) ∧
      c' = c.push fun j => if j = i then registered c.stages (nextStageNames c.seda n) else [] := by
  unfold genNextStagesOf at h
  simp only [StdMap.subscript, hn, Option.getD_some] at h
  rw [StdMap.insertNew_of_isSome (by rw [hn]; rfl)] at h
  cases hnames : (getSection c.seda n).find nextStagesName with
  | none =>
      have hnil : nextStageNames c.seda n = [] := by rw [nextStageNames, hnames]
      simp only [hnames] at h
      obtain rfl := Except.ok.inj h
      rw [hnil]
      refine ⟨rfl, ?_⟩
      simp only [registered, List.filterMap_nil, ite_self, SedaConfig.push_nil]
  | some names =>
      have hlist : nextStageNames c.seda n = splitString names := by rw [nextStageNames, hnames]
      simp only [hnames] at h
      rw [hlist]
      exact pushStages_ok h

/-- **What `gen_next_stages` does** where every name is that of a stage: it registers nothing, and
every name of a next stage is registered. -/
theorem genNextStages_ok {c c' : SedaConfig}
    (hn : ∀ n ∈ c.stageNames, ∃ i, c.stages.find n = some (some i))
    (h : genNextStages c = .ok c') :
    (∀ n ∈ c.stageNames, (nextStageNames c.seda n).map c.stages.find =
        (registered c.stages (nextStageNames c.seda n)).map (some ∘ some)) ∧
      c' = c.push (pushedFor c c.stageNames) := by
  refine foldlM_invariant (P := fun done c' => (∀ n ∈ done, (nextStageNames c.seda n).map
    c.stages.find = (registered c.stages (nextStageNames c.seda n)).map (some ∘ some)) ∧
      c' = c.push (pushedFor c done)) h ?_ ?_
  · exact ⟨by simp, (SedaConfig.push_nil c).symm⟩
  · rintro done n rest c₁ c₂ heq ⟨hnext, rfl⟩ hstep
    obtain ⟨i, hi⟩ := hn n (by rw [heq]; simp)
    obtain ⟨hmap, rfl⟩ := genNextStagesOf_ok (i := i) (by exact hi) hstep
    constructor
    · intro m hm
      rcases List.mem_append.mp hm with hm | hm
      · exact hnext m hm
      · obtain rfl := List.mem_singleton.mp hm
        exact hmap
    · rw [SedaConfig.push_push]
      congr 1
      funext j
      have hif : (c.stages.find n = some (some j)) = (j = i) := by
        rw [hi]
        simp [eq_comm]
      simp only [pushedFor, List.flatMap_append, List.flatMap_singleton, hif]
      rfl

/-! ### The connections -/

/-- A successful `start` connects every stage that is registered, and changes nothing else. -/
theorem connectStages_success {env : Environment} {c c' : SedaConfig} {ptrs : List (Option ℕ)}
    (h : connectStages env c ptrs = .ok (.success, c')) :
    c' = { c with stageObjects := c.stageObjects.mapIdx fun i st =>
      { st with connected := st.connected || decide (some i ∈ ptrs) } } := by
  induction ptrs generalizing c with
  | nil =>
      obtain ⟨-, rfl⟩ := Prod.mk.inj (Except.ok.inj h)
      rw [mapIdx_stages fun _ _ => by simp]
  | cons p rest ih =>
      cases p with
      | none =>
          rw [ih h]
          simp
      | some i =>
          rw [connectStages, bind_eq_ok] at h
          obtain ⟨st, hget, h⟩ := h
          obtain ⟨-, -, h⟩ := bind_eq_ok.mp h
          obtain ⟨-, -, h⟩ := bind_eq_ok.mp h
          have hi := stageAt_ok hget
          split at h
          · rw [ih h]
            congr 1
            exact mapIdx_set hi (by simp) fun j hj => by simp [hj]
          · obtain ⟨c₁, -, heq⟩ := bind_eq_ok.mp h
            cases Except.ok.inj heq

/-! ### After all of them -/

/-- The next stages of the stage `k`: those of its entry, once for each time it is named. -/
def nextList (c : SedaConfig) (k : Str) : List ℕ :=
  c.stageNames.flatMap fun n =>
    if n = k then registered c.stages (nextStageNames c.seda n) else []

/-- What is there after an initialisation from `base`. -/
structure Holds (env : Environment) (base : SedaConfig) (connected : Bool) (c : SedaConfig) :
    Prop where
  reads : SameReads env base.seda c.seda
  stageNames : c.stageNames = base.stageNames ++ stageNamesOf base.seda
  pools : ∀ k, (c.threadPools.find k).isSome ↔ k ∈ poolNames base.seda
  made : PoolsMade env c
  nonempty : c.stages ≠ ∅
  listed : ∀ k, (c.stages.find k).isSome ↔ k ∈ c.stageNames
  stage : ∀ k p, c.stages.find k = some p → ∃ i q, p = some i ∧
    c.threadPools.find (getThreadPool c k) = some (some q) ∧
    c.stageObjects[i]? = some ⟨k, some q, nextList c k, connected, false⟩
  next : ∀ n ∈ c.stageNames, (nextStageNames c.seda n).map c.stages.find =
    (registered c.stages (nextStageNames c.seda n)).map (some ∘ some)
  objects : c.stageObjects.map (·.name) = base.stageObjects.map (·.name) ++ c.stageNames
  fresh : ∀ i st, base.stageObjects.length ≤ i → c.stageObjects[i]? = some st →
    st.deleted = false

/-- The next stages that a registered stage gets. -/
theorem StagesMade.pushedFor {base c : SedaConfig} {names : List Str} {k : Str} {i : ℕ}
    (h : StagesMade base names c) (hk : c.stages.find k = some (some i)) :
    Config.pushedFor c c.stageNames i = nextList c k := by
  refine List.flatMap_congr fun n _ => ?_
  have hiff : c.stages.find n = some (some i) ↔ n = k := by
    constructor
    · intro hn
      obtain ⟨j, q, hj, -, hget⟩ := h.stage n _ hn
      obtain ⟨j', q', hj', -, hget'⟩ := h.stage k _ hk
      obtain rfl := Option.some.inj hj
      obtain rfl := Option.some.inj hj'
      exact congrArg Stage.name (Option.some.inj (hget.symm.trans hget'))
    · rintro rfl
      exact hk
  simp only [hiff]

/-- **What a round leaves**. -/
theorem StagesMade.holds {env : Environment} {base c₁ c : SedaConfig} (hp : PoolsHeld env base c₁)
    (hs : StagesMade { c₁ with stageNames := base.stageNames ++ stageNamesOf base.seda }
      (base.stageNames ++ stageNamesOf base.seda) c) (hne : c.stages ≠ ∅)
    (hnext : ∀ n ∈ c.stageNames, (nextStageNames c.seda n).map c.stages.find =
      (registered c.stages (nextStageNames c.seda n)).map (some ∘ some)) :
    Holds env base false (c.push (Config.pushedFor c c.stageNames)) where
  reads := by
    rw [SedaConfig.push, hs.frame]
    exact hp.reads
  stageNames := by rw [SedaConfig.push, hs.frame]
  pools k := by
    rw [← hp.listed, SedaConfig.push, hs.frame]
  made := by
    rw [SedaConfig.push, hs.frame]
    exact hp.made
  nonempty := hne
  listed k := by
    have hnames : c.stageNames = base.stageNames ++ stageNamesOf base.seda := by rw [hs.frame]
    exact (hs.listed k).trans (by rw [← hnames]; rfl)
  stage k p hk := by
    obtain ⟨i, q, rfl, hq, hi⟩ := hs.stage k p hk
    rw [← hs.getThreadPool] at hq
    refine ⟨i, q, rfl, hq, ?_⟩
    rw [SedaConfig.push, List.getElem?_mapIdx, hi, hs.pushedFor hk]
    rfl
  next := hnext
  objects := by
    have hnames : c.stageNames = base.stageNames ++ stageNamesOf base.seda := by rw [hs.frame]
    have hobjects := hs.objects
    rw [← hnames, hp.stageObjects] at hobjects
    rw [← SedaConfig.map_name_push c (Config.pushedFor c c.stageNames)] at hobjects
    exact hobjects
  fresh i st hi hget := by
    rw [SedaConfig.push, List.getElem?_mapIdx] at hget
    obtain ⟨st', hst', rfl⟩ := Option.map_eq_some_iff.mp hget
    exact hs.fresh i st' (by rwa [hp.stageObjects]) hst'

/-- **Main result.**  What `instantiate` creates when it succeeds. -/
theorem instantiate_holds {env : Environment} {base c : SedaConfig}
    (hpools : base.threadPools = ∅) (hstages : base.stages = ∅)
    (h : instantiate env base = .ok (.success, c)) : Holds env base false c := by
  obtain ⟨⟨status₁, c₁⟩, h₁, h⟩ := bind_eq_ok.mp h
  cases status₁ with
  | initFail => cases Except.ok.inj h
  | success =>
      obtain ⟨⟨status₂, c₂⟩, h₂, h⟩ := bind_eq_ok.mp h
      cases status₂ with
      | initFail => cases Except.ok.inj h
      | success =>
          obtain ⟨c₃, h₃, heq⟩ := bind_eq_ok.mp h
          obtain ⟨-, rfl⟩ := Prod.mk.inj (Except.ok.inj heq)
          have hp := initThreadPool_ok hpools h₁
          obtain ⟨hs, hne⟩ := initStages_success (hp.stages.trans hstages) h₂
          rw [stageNamesOf_eq hp.reads, hp.stageNames] at hs
          obtain ⟨hnext, rfl⟩ := genNextStages_ok hs.pointer h₃
          exact hs.holds hp hne hnext

/-- After `start` the same is there, and every stage that is registered is connected. -/
theorem Holds.start {env : Environment} {base c c' : SedaConfig} (hh : Holds env base false c)
    (h : start env c = .ok (.success, c')) : Holds env base true c' := by
  obtain ⟨-, -, h⟩ := bind_eq_ok.mp h
  obtain rfl := connectStages_success h
  refine ⟨hh.reads, hh.stageNames, hh.pools, hh.made, hh.nonempty, hh.listed, ?_, hh.next, ?_, ?_⟩
  · intro k p hk
    obtain ⟨i, q, rfl, hq, hi⟩ := hh.stage k p hk
    refine ⟨i, q, rfl, hq, ?_⟩
    have hmem : some i ∈ c.stages.values strLe := StdMap.mem_values.mpr ⟨k, hk⟩
    rw [List.getElem?_mapIdx, hi]
    simp only [Option.map_some, hmem, decide_true, Bool.or_true]
    rfl
  · rw [← hh.objects]
    refine List.ext_getElem? fun i => ?_
    simp only [List.getElem?_map, List.getElem?_mapIdx]
    cases c.stageObjects[i]? <;> rfl
  · intro i st hi hget
    rw [List.getElem?_mapIdx] at hget
    obtain ⟨st', hst', rfl⟩ := Option.map_eq_some_iff.mp hget
    exact hh.fresh i st' hi hst'

/-- **Main result.**  What a successful initialisation holds. -/
theorem init_holds {env : Environment} {base c : SedaConfig}
    (h : init env base = .ok (.success, c)) : Holds env base true c := by
  obtain ⟨_, hstages, h⟩ := bind_eq_ok.mp h
  obtain ⟨_, hpools, h⟩ := bind_eq_ok.mp h
  obtain ⟨⟨status, c₁⟩, hinst, h⟩ := bind_eq_ok.mp h
  rw [require_eq_ok, StdMap.size_eq_zero] at hstages hpools
  cases status with
  | initFail => cases Except.ok.inj h
  | success => exact (instantiate_holds hpools hstages hinst).start h

end VulcanDB.Seda.Config
