import VulcanDB.Common.IniFile
import VulcanDB.Seda.NextStages

/-!
# SEDA — Lookups

`Seda::get` and `SedaConfig::get_stage` read a map through `operator[]`, which enters a key that is
missing.

* `initThreadPool_getKey`: no lookup changes the thread pools that are created.
* `pureGet_iff`: when a lookup of a key is that of an INI file.
* `lookups_pure`: which lookups of stages change nothing, and what is read where none does.
-/

namespace VulcanDB.Seda.Config

open Cxx Steps

/-! ### Keys of the configuration -/

/-- What `init_thread_pool` returns, and the thread pools that it has created. -/
def created (r : Outcome) : Except Stop (Status × List Threadpool) :=
  r.map fun r => (r.1, r.2.poolObjects)

/-- A key that is entered reads as no names. -/
theorem poolNames_getKey (seda : StdMap Str Section) (key d sec : Str) :
    poolNames (getKey seda key d sec).1 = poolNames seda := by
  by_cases hkey : key = threadPoolsName
  · subst hkey
    unfold poolNames getKey getSection
    cases hm : seda.find sec with
    | none => rfl
    | some m =>
        simp only [StdMap.find_assign, StdMap.subscript]
        by_cases hs : sedaBaseName = sec
        · subst hs
          simp only [if_true, hm, Option.getD_some, StdMap.find_insertNew]
          cases m.find threadPoolsName <;> rfl
        · rw [if_neg hs]
  · unfold poolNames
    rw [find_getKey_of_ne seda (Ne.symm hkey)]

/-- The same counts are read, and the same thread pools are there. -/
structure SamePools (env : Environment) (c c' : SedaConfig) : Prop where
  count : ∀ threadName, poolCount env c'.seda threadName = poolCount env c.seda threadName
  threadPools : c'.threadPools = c.threadPools
  poolObjects : c'.poolObjects = c.poolObjects

theorem SamePools.createPools {env : Environment} {c c' : SedaConfig} (h : SamePools env c c')
    (names : List Str) : (createPools env c' names).1 = (createPools env c names).1 ∧
      SamePools env (createPools env c names).2 (createPools env c' names).2 := by
  induction names generalizing c c' with
  | nil => exact ⟨rfl, h⟩
  | cons threadName rest ih =>
      have hcount : (readCount env c' threadName).2 = (readCount env c threadName).2 :=
        h.count threadName
      have hread : SamePools env (readCount env c threadName).1 (readCount env c' threadName).1 :=
        ⟨fun k => by
          simp only [readCount, (sameReads_getKey env _ _ _).count, h.count],
          h.threadPools, h.poolObjects⟩
      rw [Config.createPools, Config.createPools]
      simp only [hcount]
      split
      · exact ⟨rfl, hread⟩
      · refine ih ⟨hread.count, ?_, ?_⟩
        · simp only [addPool, hread.threadPools, hread.poolObjects]
        · simp only [addPool, hread.poolObjects]

/-- `init_thread_pool`, from the names that are read. -/
theorem created_initThreadPool (env : Environment) {c : SedaConfig} (h : c.threadPools = ∅) :
    created (initThreadPool env c) = .ok (
      if (createPools env c (poolNames c.seda)).1 = .success ∧
          ((createPools env c (poolNames c.seda)).2.threadPools.find defaultThreadPool).isSome then
        (.success, (createPools env c (poolNames c.seda)).2.poolObjects)
      else (.initFail, (createPools env c (poolNames c.seda)).2.poolObjects)) := by
  unfold initThreadPool poolNames
  cases (getSection c.seda sedaBaseName).find threadPoolsName with
  | none => simp [created, Except.map, createPools, h]
  | some names =>
      simp only
      generalize createPools env c (splitString names) = r
      obtain ⟨status, c'⟩ := r
      cases status with
      | initFail => simp [created, Except.map]
      | success =>
          simp only [true_and]
          split
          · rename_i hdefault
            rw [if_neg (Nat.not_lt.mpr (StdMap.size_pos_of_find hdefault))]
            rfl
          · rfl

/-- **No lookup changes the thread pools that are created.** -/
theorem initThreadPool_getKey (env : Environment) {c : SedaConfig} (h : c.threadPools = ∅)
    (key d sec : Str) :
    created (initThreadPool env { c with seda := (getKey c.seda key d sec).1 }) =
      created (initThreadPool env c) := by
  have hsame : SamePools env c { c with seda := (getKey c.seda key d sec).1 } :=
    ⟨fun k => by rw [poolCount, poolCount, getKey_getKey], rfl, rfl⟩
  obtain ⟨hstatus, hpools⟩ := hsame.createPools (poolNames c.seda)
  rw [created_initThreadPool env h, created_initThreadPool env (by exact h), poolNames_getKey,
    hstatus, hpools.threadPools, hpools.poolObjects]

/-- The lookup that an INI file makes: the same string, nothing entered, and nothing changed for
the thread pools. -/
structure PureGet (seda : StdMap Str Section) (key d sec : Str) : Prop where
  value : (getKey seda key d sec).2 = (Common.IniFile.mk seda).get key d sec
  kept : ∀ s, (getKey seda key d sec).1.find s = seda.find s
  pools : ∀ env c, c.seda = seda → c.threadPools = ∅ →
    created (initThreadPool env { c with seda := (getKey seda key d sec).1 }) =
      created (initThreadPool env c)

/-- **Main result.**  `Seda::get` is the `get` of an INI file if and only if the section is missing
or has the key. -/
theorem pureGet_iff (seda : StdMap Str Section) (key d sec : Str) :
    PureGet seda key d sec ↔ ∀ m, seda.find sec = some m → (m.find key).isSome := by
  constructor
  · intro h m hm
    have hkept := h.kept sec
    simp only [getKey, hm, StdMap.find_assign, StdMap.subscript, if_true] at hkept
    have hkey := congrArg (fun m => m.find key) (Option.some.inj hkept)
    simp only [StdMap.find_insertNew, if_true] at hkey
    rw [← hkey]
    rfl
  · intro h
    have hpools : ∀ env c, c.seda = seda → c.threadPools = ∅ →
        created (initThreadPool env { c with seda := (getKey seda key d sec).1 }) =
          created (initThreadPool env c) := by
      rintro env c rfl hempty
      exact initThreadPool_getKey env hempty key d sec
    cases hm : seda.find sec with
    | none =>
        refine ⟨?_, ?_, hpools⟩
        · simp [getKey, Common.IniFile.get, Common.IniFile.getSection, hm]
        · intro s
          simp [getKey, hm]
    | some m =>
        obtain ⟨v, hv⟩ := Option.isSome_iff_exists.mp (h m hm)
        refine ⟨?_, ?_, hpools⟩
        · simp [getKey, Common.IniFile.get, Common.IniFile.getSection, StdMap.subscript, hm, hv]
        · intro s
          simp only [getKey, hm, StdMap.subscript, StdMap.insertNew_of_isSome (h m hm),
            StdMap.find_assign]
          by_cases hs : s = sec
          · rw [if_pos hs, hs, hm]
          · rw [if_neg hs]

/-- A section that lacks the key: the default is not returned, and the key is there afterwards. -/
theorem getKey_missing : ∃ seda key d sec,
    (getKey seda key d sec).2 ≠ (Common.IniFile.mk seda).get key d sec ∧
      (getKey seda key d sec).1.find sec ≠ seda.find sec := by
  refine ⟨builtInSeda, countName, "4".toList, sessionStageName, ?_, ?_⟩
  · decide +kernel
  · intro heq
    have hsize := congrArg (Option.map StdMap.size) heq
    revert hsize
    decide +kernel

/-! ### Stages -/

/-- `get_stage`, for a null pointer or a name. -/
def getStage (c : SedaConfig) (stageName : Option Str) : SedaConfig × Option ℕ :=
  match stageName with
  | none => (c, none)
  | some stageName =>
    let r := c.stages.subscript stageName none
    ({ c with stages := r.1 }, r.2)

/-- `get_stage_queue_status`, where `qlen` are the lengths of the queues of the stages. -/
def getStageQueueStatus (qlen : ℕ → ℕ) (c : SedaConfig) : Except Stop (List ℕ) :=
  (c.stages.values strLe).mapM fun p => match p with
    | none => .error .badPointer
    | some i => do
      let _ ← c.stageAt i
      return qlen i

/-- The calls of a user. -/
inductive Call where
  | init
  | cleanup
  | getStage (stageName : Option Str)

/-- A call. -/
def step (env : Environment) (c : SedaConfig) : Call → Except Stop SedaConfig
  | .init => do return (← init env c).2
  | .cleanup => cleanup c
  | .getStage stageName => .ok (getStage c stageName).1

/-- The machine of these calls. -/
def machine (env : Environment) : Machine SedaConfig Call Stop Unit :=
  ⟨step env, fun _ _ => []⟩

/-- The pointer is null, or the name is that of a registered stage. -/
def Known (c : SedaConfig) (stageName : Option Str) : Prop :=
  ∀ k ∈ stageName, (c.stages.find k).isSome

/-- Stages are looked up by the names of registered stages only. -/
def LooksUpKnown (c : SedaConfig) : Call → Prop
  | .getStage stageName => Known c stageName
  | _ => True

/-- Every registered stage has a name that is configured, and can be read. -/
structure Sound (c : SedaConfig) : Prop where
  listed : c.stages ≠ ∅ → ∀ k, (c.stages.find k).isSome ↔ k ∈ c.stageNames
  stage : ∀ k p, c.stages.find k = some p → ∃ i st, p = some i ∧ c.stageAt i = .ok st

theorem Sound.of_empty {c : SedaConfig} (h : c.stages = ∅) : Sound c where
  listed hne := absurd h hne
  stage k p hk := by
    rw [h, StdMap.find_empty] at hk
    cases hk

/-- Behind a round every name has its stage. -/
theorem Holds.sound {env : Environment} {base c : SedaConfig} {connected : Bool}
    (h : Holds env base connected c) : Sound c where
  listed _ := h.listed
  stage k p hk := by
    obtain ⟨i, q, rfl, -, hi⟩ := h.stage k p hk
    refine ⟨i, ⟨k, some q, nextList c k, connected, false⟩, rfl, ?_⟩
    rw [SedaConfig.stageAt, hi]
    rfl

/-! ### What a failed initialisation leaves -/

theorem clearConfig_stages {c c' : SedaConfig} (h : clearConfig c = .ok c') : c'.stages = ∅ := by
  rw [clearConfig, bind_eq_ok] at h
  obtain ⟨c₁, -, h⟩ := h
  obtain ⟨c₂, hpools, h⟩ := bind_eq_ok.mp h
  obtain rfl := Except.ok.inj h
  have hempty : c₂.stages = ∅ := by
    refine forEach_invariant (P := fun c => c.stages = ∅) hpools rfl ?_
    exact fun _ _ _ hc hd => (deletePool_kept hd).1.trans hc
  exact hempty

theorem clearAndFail_stages {c c' : SedaConfig} {status : Status}
    (h : clearAndFail c = .ok (status, c')) : c'.stages = ∅ := by
  obtain ⟨c₁, hclear, heq⟩ := bind_eq_ok.mp h
  obtain ⟨-, rfl⟩ := Prod.mk.inj (Except.ok.inj heq)
  exact clearConfig_stages hclear

theorem cleanup_stages {c c' : SedaConfig} (h : cleanup c = .ok c') : c'.stages = ∅ := by
  obtain ⟨c₁, -, hclear⟩ := bind_eq_ok.mp h
  exact clearConfig_stages hclear

theorem initStages_fail {env : Environment} {c c' : SedaConfig}
    (h : initStages env c = .ok (.initFail, c')) : c'.stages = ∅ := by
  unfold initStages at h
  split at h
  · exact clearAndFail_stages h
  · obtain ⟨⟨status, c₁⟩, -, h⟩ := bind_eq_ok.mp h
    cases status with
    | initFail => exact clearAndFail_stages h
    | success =>
        simp only at h
        split at h
        · exact clearAndFail_stages h
        · cases Except.ok.inj h

theorem connectStages_fail {env : Environment} {c c' : SedaConfig} {ptrs : List (Option ℕ)}
    (h : connectStages env c ptrs = .ok (.initFail, c')) : c'.stages = ∅ := by
  induction ptrs generalizing c with
  | nil => cases Except.ok.inj h
  | cons p rest ih =>
      cases p with
      | none => exact ih h
      | some i =>
          rw [connectStages, bind_eq_ok] at h
          obtain ⟨st, -, h⟩ := h
          obtain ⟨-, -, h⟩ := bind_eq_ok.mp h
          obtain ⟨-, -, h⟩ := bind_eq_ok.mp h
          split at h
          · exact ih h
          · obtain ⟨c₁, hclean, heq⟩ := bind_eq_ok.mp h
            obtain ⟨-, rfl⟩ := Prod.mk.inj (Except.ok.inj heq)
            exact cleanup_stages hclean

/-- No stage is registered after an initialisation that failed. -/
theorem init_fail_stages {env : Environment} {c c' : SedaConfig}
    (h : init env c = .ok (.initFail, c')) : c'.stages = ∅ := by
  obtain ⟨_, hstages, h⟩ := bind_eq_ok.mp h
  obtain ⟨_, hpools, h⟩ := bind_eq_ok.mp h
  rw [require_eq_ok, StdMap.size_eq_zero] at hstages hpools
  obtain ⟨⟨status₁, c₁⟩, hinst, h⟩ := bind_eq_ok.mp h
  cases status₁ with
  | success =>
      obtain ⟨-, -, h⟩ := bind_eq_ok.mp h
      exact connectStages_fail h
  | initFail =>
      obtain ⟨-, rfl⟩ := Prod.mk.inj (Except.ok.inj h)
      obtain ⟨⟨status₂, c₂⟩, hthreads, hinst⟩ := bind_eq_ok.mp hinst
      cases status₂ with
      | initFail =>
          obtain ⟨-, rfl⟩ := Prod.mk.inj (Except.ok.inj hinst)
          obtain ⟨status, c₃, hok, hspec⟩ := initThreadPool_spec env hpools
          obtain ⟨-, rfl⟩ := Prod.mk.inj (Except.ok.inj (hthreads.symm.trans hok))
          exact hspec.stages.trans hstages
      | success =>
          obtain ⟨⟨status₃, c₃⟩, hinit, hinst⟩ := bind_eq_ok.mp hinst
          cases status₃ with
          | initFail =>
              obtain ⟨-, rfl⟩ := Prod.mk.inj (Except.ok.inj hinst)
              exact initStages_fail hinit
          | success =>
              obtain ⟨c₄, -, heq⟩ := bind_eq_ok.mp hinst
              cases Except.ok.inj heq

/-! ### Runs of lookups -/

/-- A lookup of a known name changes nothing. -/
theorem getStage_known {c : SedaConfig} {stageName : Option Str} (h : Known c stageName) :
    (getStage c stageName).1 = c := by
  cases stageName with
  | none => rfl
  | some k =>
      simp only [getStage, StdMap.subscript]
      rw [StdMap.insertNew_of_isSome (h k rfl)]

/-- A lookup changes the names of the registered stages exactly when it is of none of them. -/
theorem getStage_keys_iff (c : SedaConfig) (stageName : Option Str) :
    (∀ k, ((getStage c stageName).1.stages.find k).isSome ↔ (c.stages.find k).isSome) ↔
      Known c stageName := by
  constructor
  · rintro h k hk
    obtain rfl := Option.mem_def.mp hk
    rw [← h k]
    simp only [getStage, StdMap.subscript, StdMap.find_insertNew, if_true]
    rfl
  · intro h k
    rw [getStage_known h]

/-- **One call**. -/
theorem step_sound {env : Environment} {c c' : SedaConfig} {call : Call} (h : Sound c)
    (hknown : LooksUpKnown c call) (hs : step env c call = .ok c') : Sound c' := by
  cases call with
  | init =>
      obtain ⟨⟨status, c₁⟩, hinit, heq⟩ := bind_eq_ok.mp hs
      obtain rfl := Except.ok.inj heq
      cases status with
      | success => exact (init_holds hinit).sound
      | initFail => exact .of_empty (init_fail_stages hinit)
  | cleanup => exact .of_empty (cleanup_stages hs)
  | getStage stageName =>
      obtain rfl := Except.ok.inj hs
      rw [getStage_known hknown]
      exact h

/-- What is expected of the lookups in a state. -/
structure LooksUp (env : Environment) (c : SedaConfig) : Prop where
  getStage : ∀ stageName, (∀ k, ((getStage c stageName).1.stages.find k).isSome ↔
    (c.stages.find k).isSome) ↔ Known c stageName
  genNextStages : ∀ c₁ c₂ c₃, c.stages = ∅ → c.threadPools = ∅ →
    initThreadPool env c = .ok (.success, c₁) → initStages env c₁ = .ok (.success, c₂) →
    genNextStages c₂ = .ok c₃ → c₃.stages = c₂.stages
  queueStatus : ∀ qlen, ∃ stats, getStageQueueStatus qlen c = .ok stats ∧
    stats.length = c.stages.size
  listed : c.stages = ∅ ∨ ∀ k, (c.stages.find k).isSome ↔ k ∈ c.stageNames

/-- Each registered stage gives the length of its queue. -/
theorem Sound.queueStatus {c : SedaConfig} (h : Sound c) (qlen : ℕ → ℕ) :
    ∃ stats, getStageQueueStatus qlen c = .ok stats ∧ stats.length = c.stages.size := by
  have hall : ∃ stats, getStageQueueStatus qlen c = .ok stats := by
    refine exists_mapM_ok.mpr fun p hp => ?_
    obtain ⟨k, hk⟩ := StdMap.mem_values.mp hp
    obtain ⟨i, st, rfl, hst⟩ := h.stage k p hk
    exact ⟨qlen i, bind_eq_ok.mpr ⟨st, hst, rfl⟩⟩
  obtain ⟨stats, hstats⟩ := hall
  refine ⟨stats, hstats, ?_⟩
  rw [← (mapM_eq_ok.mp hstats).length_eq, StdMap.length_values]

/-- **The stages behind `instantiate`** are those of the file. -/
theorem genNextStages_stages {env : Environment} {c c₁ c₂ c₃ : SedaConfig}
    (hstages : c.stages = ∅) (hpools : c.threadPools = ∅)
    (h₁ : initThreadPool env c = .ok (.success, c₁)) (h₂ : initStages env c₁ = .ok (.success, c₂))
    (h₃ : genNextStages c₂ = .ok c₃) : c₃.stages = c₂.stages := by
  obtain ⟨hmade, -⟩ := initStages_success ((initThreadPool_ok hpools h₁).stages.trans hstages) h₂
  obtain ⟨-, rfl⟩ := genNextStages_ok hmade.pointer h₃
  rfl

/-- **Main result.**  In a run that looks stages up by registered names only, a lookup enters a
name exactly when it is not registered, the resolution of the next stages enters none, and there is
one length for each registered stage. -/
theorem lookups_pure {env : Environment} {seda : StdMap Str Section} {ls : List Unit}
    {c : SedaConfig} (h : RunWhere (machine env) LooksUpKnown (.before seda []) ls c) :
    LooksUp env c := by
  have hsound : Sound c := h.invariant (P := fun _ c => Sound c) (.of_empty rfl)
    fun _ _ _ _ hc hknown hs => step_sound hc hknown hs
  refine ⟨getStage_keys_iff c, fun _ _ _ => genNextStages_stages, hsound.queueStatus, ?_⟩
  by_cases hempty : c.stages = ∅
  · exact .inl hempty
  · exact .inr (hsound.listed hempty)

/-- One lookup of an unknown name, and the next query of the queues reads a null pointer. -/
theorem getStage_unknown : ∃ env c stageName,
    Run (machine env) (.before builtInSeda []) [] c ∧ c.stages.size = 1 ∧
      getStageQueueStatus (fun _ => 0) c = .ok [0] ∧
      (getStage c (some stageName)).1.stages.size = 2 ∧
      getStageQueueStatus (fun _ => 0) (getStage c (some stageName)).1 = .error .badPointer := by
  have hrun : ((exec (machine ⟨4, fun _ _ => .stage, fun _ => true⟩) (.before builtInSeda [])
      [.init]).toOption.map fun r => (r.1, r.2.stages.size,
        (getStageQueueStatus (fun _ => 0) r.2).toOption,
        (getStage r.2 (some "Plan".toList)).1.stages.values strLe)) =
      some ([], 1, some [0], [none, some 0]) := by decide +kernel
  obtain ⟨⟨ls, c⟩, heq, hr⟩ := Option.map_eq_some_iff.mp hrun
  simp only [Prod.mk.injEq] at hr
  obtain ⟨rfl, hsize, hstatus, hvalues⟩ := hr
  refine ⟨_, c, "Plan".toList, Run.start.exec _ (ok_of_toOption heq), hsize,
    ok_of_toOption hstatus, ?_, ?_⟩
  · rw [← StdMap.length_values strLe, hvalues]
    rfl
  · rw [getStageQueueStatus, hvalues]
    rfl

/-- The built-in configuration, initialised. -/
theorem lookups_pure_example : ∃ env c,
    RunWhere (machine env) LooksUpKnown (.before builtInSeda []) [] c ∧ LooksUp env c := by
  have hrun : ((machine ⟨4, fun _ _ => .stage, fun _ => true⟩).step (.before builtInSeda [])
      .init).toOption.isSome = true := by decide +kernel
  obtain ⟨c, hc⟩ := exists_ok hrun
  have hwhere : RunWhere (machine ⟨4, fun _ _ => .stage, fun _ => true⟩) LooksUpKnown
      (.before builtInSeda []) [] c := RunWhere.start.next (C := LooksUpKnown) (by trivial) hc
  exact ⟨_, c, hwhere, lookups_pure hwhere⟩

end VulcanDB.Seda.Config
