import VulcanDB.Library.Numbers
import VulcanDB.Library.StdMap
import VulcanDB.Library.Steps

/-!
# SEDA — Configuration

`SedaConfig::init`, from the configuration map to the connected stages.  The stages and thread
pools that are created stay in two lists, also those that no map points to any more.

The assertions are on in every build of the repository, so a stage without a factory, or a next
stage that does not exist, ends the process.  No event is added during the initialisation.

* `clearConfig_ok`, `cleanup_ok`: what is left when the configuration is taken down.
* `initThreadPool_clean`: when the thread pools are created, or none is left.
* `init_clean_iff`: the configurations for which a failed initialisation leaves nothing behind.
-/

namespace VulcanDB.Seda.Config

open Cxx Steps

/-- A section of the file. -/
abbrev Section := StdMap Str Str

/-- A pool; `threads` is how many it was made with. -/
structure Threadpool where
  threads : ℕ
  name : Str
  deleted : Bool
  deriving DecidableEq

/-- A stage, with its pool and its next stages. -/
structure Stage where
  name : Str
  pool : Option ℕ
  nextStageList : List ℕ
  connected : Bool
  deleted : Bool
  deriving DecidableEq

/-- `threadPools` and `stages` hold pointers into the two lists of objects. -/
structure SedaConfig where
  seda : StdMap Str Section
  threadPools : StdMap Str (Option ℕ)
  stages : StdMap Str (Option ℕ)
  stageNames : List Str
  poolObjects : List Threadpool
  stageObjects : List Stage

/-- `status_t`. -/
inductive Status where
  | success
  | initFail
  deriving DecidableEq

/-- Why a call does not return.  A pool without threads waits for ever to be deleted. -/
inductive Stop where
  | assertion
  | badPointer
  | waits
  deriving DecidableEq

/-- What a factory gives. -/
inductive Instance where
  | stage
  | null
  | thrown
  deriving DecidableEq

/-- What the code around the configuration does: the factories, for a name and the number of the
stage, and `initialize()` of each stage. -/
structure Environment where
  cpuNum : ℕ
  factory : Str → ℕ → Instance
  initializes : ℕ → Bool

/-- The status with the state behind it, or a stop. -/
abbrev Outcome := Except Stop (Status × SedaConfig)

/-- `SEDA_BASE_NAME`. -/
def sedaBaseName : Str := "SEDA_BASE".toList
/-- `THREAD_POOLS_NAME`. -/
def threadPoolsName : Str := "ThreadPools".toList
/-- `STAGES`. -/
def stagesName : Str := "STAGES".toList
/-- `COUNT`. -/
def countName : Str := "count".toList
/-- `THREAD_POOL_ID`. -/
def threadPoolId : Str := "ThreadId".toList
/-- `NEXT_STAGES`. -/
def nextStagesName : Str := "NextStages".toList
/-- `DEFAULT_THREAD_POOL`. -/
def defaultThreadPool : Str := "DefaultThreads".toList

/-- The bound on the number of threads. -/
def maxThreadCount : Int := 1000000

/-- `split_string` at the commas: empty pieces are skipped. -/
def splitString (s : Str) : List Str := (s.splitOn ',').filter (· ≠ [])

/-! ### The configuration map -/

/-- `Seda::get(section)`. -/
def getSection (seda : StdMap Str Section) (sec : Str) : Section := (seda.find sec).getD ∅

/-- `Seda::get(key, defaultValue, section)`, which enters a key that the section lacks. -/
def getKey (seda : StdMap Str Section) (key defaultValue sec : Str) : StdMap Str Section × Str :=
  match seda.find sec with
  | none => (seda, defaultValue)
  | some m =>
    let r := m.subscript key []
    (seda.assign sec r.1, r.2)

/-! ### Objects -/

/-- A stage behind its pointer. -/
def SedaConfig.stageAt (c : SedaConfig) (i : ℕ) : Except Stop Stage :=
  match c.stageObjects[i]? with
  | none => .error .badPointer
  | some st => if st.deleted then .error .badPointer else .ok st

/-- A write to a stage. -/
def SedaConfig.setStage (c : SedaConfig) (i : ℕ) (st : Stage) : SedaConfig :=
  { c with stageObjects := c.stageObjects.set i st }

/-- A loop over a map of pointers, which skips the null pointers. -/
def forEach (f : SedaConfig → ℕ → Except Stop SedaConfig) (c : SedaConfig)
    (ptrs : List (Option ℕ)) : Except Stop SedaConfig :=
  ptrs.foldlM (fun c p => match p with
    | none => .ok c
    | some i => f c i) c

/-- `delete` of a stage, whose destructor asserts that it is disconnected. -/
def deleteStage (c : SedaConfig) (i : ℕ) : Except Stop SedaConfig := do
  let st ← c.stageAt i
  require (st.connected = false) .assertion
  return c.setStage i { st with deleted := true }

/-- `delete` of a pool. -/
def deletePool (c : SedaConfig) (i : ℕ) : Except Stop SedaConfig :=
  match c.poolObjects[i]? with
  | none => .error .badPointer
  | some t => do
    require (t.deleted = false) .badPointer
    require (0 < t.threads) .waits
    return { c with poolObjects := c.poolObjects.set i { t with deleted := true } }

/-- `clear_config`. -/
def clearConfig (c : SedaConfig) : Except Stop SedaConfig := do
  let c ← forEach deleteStage c (c.stages.values strLe)
  let c ← forEach deletePool { c with stages := ∅ } (c.threadPools.values strLe)
  return { c with threadPools := ∅ }

/-- `is_connected()` and then `Stage::disconnect`. -/
def disconnectStage (c : SedaConfig) (i : ℕ) : Except Stop SedaConfig := do
  let st ← c.stageAt i
  if st.connected then
    return c.setStage i { st with connected := false, pool := none, nextStageList := [] }
  else return c

/-- `cleanup`. -/
def cleanup (c : SedaConfig) : Except Stop SedaConfig := do
  let c ← forEach disconnectStage c (c.stages.values strLe)
  clearConfig c

/-- The end of a function that fails after `clear_config`. -/
def clearAndFail (c : SedaConfig) : Outcome := do return (.initFail, ← clearConfig c)

/-! ### Thread pools -/

/-- The count as it is read. -/
def threadCount (env : Environment) (countStr : Str) : Int :=
  if strToVal countStr < 1 then env.cpuNum else strToVal countStr

/-- The count of a thread pool. -/
def readCount (env : Environment) (c : SedaConfig) (threadName : Str) : SedaConfig × Int :=
  let r := getKey c.seda countName (dec env.cpuNum) threadName
  ({ c with seda := r.1 }, threadCount env r.2)

/-- A new pool under its name. -/
def addPool (c : SedaConfig) (threadName : Str) (count : Int) : SedaConfig :=
  { c with
    threadPools := c.threadPools.assign threadName (some c.poolObjects.length)
    poolObjects := c.poolObjects ++ [⟨count.toNat, threadName, false⟩] }

/-- The loop of `init_thread_pool`. -/
def createPools (env : Environment) (c : SedaConfig) : List Str → Status × SedaConfig
  | [] => (.success, c)
  | threadName :: rest =>
    let r := readCount env c threadName
    if maxThreadCount ≤ r.2 then (.initFail, r.1)
    else createPools env (addPool r.1 threadName r.2) rest

/-- `init_thread_pool`. -/
def initThreadPool (env : Environment) (c : SedaConfig) : Outcome :=
  match (getSection c.seda sedaBaseName).find threadPoolsName with
  | none => .ok (.initFail, c)
  | some poolNames =>
    match createPools env c (splitString poolNames) with
    | (.initFail, c) => .ok (.initFail, c)
    | (.success, c) =>
      if (c.threadPools.find defaultThreadPool).isSome then
        if c.threadPools.size < 1 then clearAndFail c else .ok (.success, c)
      else .ok (.initFail, c)

/-! ### Stages -/

/-- `get_thread_pool`. -/
def getThreadPool (c : SedaConfig) (stageName : Str) : Str :=
  match (getSection c.seda stageName).find threadPoolId with
  | none => defaultThreadPool
  | some threadName =>
    if threadName = [] then defaultThreadPool
    else if (c.threadPools.find threadName).isSome then threadName else defaultThreadPool

/-- One turn of the loop of `init_stages`; it fails if the factory throws. -/
def createStage (env : Environment) (c : SedaConfig) (stageName : Str) : Outcome :=
  let r := c.threadPools.subscript (getThreadPool c stageName) none
  let c := { c with threadPools := r.1 }
  let i := c.stageObjects.length
  match env.factory stageName i with
  -- the assertion of `make_instance`
  | .null => .error .assertion
  | .thrown => .ok (.initFail, c)
  | .stage => do
    require (r.2 ≠ none) .assertion
    return (.success, { c with
      stages := c.stages.assign stageName (some i)
      stageObjects := c.stageObjects ++ [⟨stageName, r.2, [], false, false⟩] })

/-- The stages, one after another. -/
def createStages (env : Environment) (c : SedaConfig) : List Str → Outcome
  | [] => .ok (.success, c)
  | stageName :: rest => do
    match ← createStage env c stageName with
    | (.initFail, c) => return (.initFail, c)
    | (.success, c) => createStages env c rest

/-- `init_stages`. -/
def initStages (env : Environment) (c : SedaConfig) : Outcome :=
  match (getSection c.seda sedaBaseName).find stagesName with
  | none => clearAndFail c
  | some names => do
    let c := { c with stageNames := c.stageNames ++ splitString names }
    match ← createStages env c c.stageNames with
    | (.initFail, c) => clearAndFail c
    | (.success, c) => if c.stages.size < 1 then clearAndFail c else return (.success, c)

/-- `stages_[next_stage_name]` is pushed on the next stages of the stage. -/
def pushStage (stage : Option ℕ) (c : SedaConfig) (nextStageName : Str) :
    Except Stop SedaConfig := do
  let r := c.stages.subscript nextStageName none
  let c := { c with stages := r.1 }
  match stage, r.2 with
  | none, _ => throw .badPointer
  | some _, none => throw .assertion
  | some i, some next =>
    let st ← c.stageAt i
    require (st.connected = false) .assertion
    return c.setStage i { st with nextStageList := st.nextStageList ++ [next] }

/-- The next stages of one stage. -/
def genNextStagesOf (c : SedaConfig) (stageName : Str) : Except Stop SedaConfig :=
  let r := c.stages.subscript stageName none
  let c := { c with stages := r.1 }
  match (getSection c.seda stageName).find nextStagesName with
  | none => .ok c
  | some names => (splitString names).foldlM (pushStage r.2) c

/-- `gen_next_stages`, where nothing is thrown. -/
def genNextStages (c : SedaConfig) : Except Stop SedaConfig :=
  c.stageNames.foldlM genNextStagesOf c

/-! ### Initialisation -/

/-- `instantiate`. -/
def instantiate (env : Environment) (c : SedaConfig) : Outcome := do
  match ← initThreadPool env c with
  | (.initFail, c) => return (.initFail, c)
  | (.success, c) =>
    match ← initStages env c with
    | (.initFail, c) => return (.initFail, c)
    | (.success, c) => return (.success, ← genNextStages c)

/-- The loop of `start`: `Stage::connect`, and `cleanup` once it fails. -/
def connectStages (env : Environment) (c : SedaConfig) : List (Option ℕ) → Outcome
  | [] => .ok (.success, c)
  | none :: rest => connectStages env c rest
  | some i :: rest => do
    let st ← c.stageAt i
    require (st.connected = false) .assertion
    require (st.pool ≠ none) .assertion
    if env.initializes i then connectStages env (c.setStage i { st with connected := true }) rest
    else return (.initFail, ← cleanup c)

/-- `start`. -/
def start (env : Environment) (c : SedaConfig) : Outcome := do
  require (c.threadPools.size ≠ 0) .assertion
  connectStages env c (c.stages.values strLe)

/-- **`init`**. -/
def init (env : Environment) (c : SedaConfig) : Outcome := do
  require (c.stages.size = 0) .assertion
  require (c.threadPools.size = 0) .assertion
  match ← instantiate env c with
  | (.initFail, c) => return (.initFail, c)
  | (.success, c) => start env c

/-! ### Thread pools that are left -/

/-- The names of the thread pools that the configuration lists. -/
def poolNames (seda : StdMap Str Section) : List Str :=
  match (getSection seda sedaBaseName).find threadPoolsName with
  | none => []
  | some names => splitString names

/-- The thread pool is refused for the number of its threads. -/
def TooBig (env : Environment) (seda : StdMap Str Section) (threadName : Str) : Prop :=
  maxThreadCount ≤ threadCount env (getKey seda countName (dec env.cpuNum) threadName).2

/-- No thread pool is listed, or the first is refused, or none is and the default one is listed. -/
def Clean (env : Environment) (seda : StdMap Str Section) : Prop :=
  poolNames seda = [] ∨ (∃ threadName ∈ (poolNames seda).head?, TooBig env seda threadName) ∨
    ((∀ threadName ∈ poolNames seda, ¬ TooBig env seda threadName) ∧
      defaultThreadPool ∈ poolNames seda)

/-- A lookup reads as it did before any other. -/
theorem getKey_getKey (seda : StdMap Str Section) (key d sec key' d' sec' : Str) :
    (getKey (getKey seda key d sec).1 key' d' sec').2 = (getKey seda key' d' sec').2 := by
  unfold getKey
  cases hm : seda.find sec with
  | none => rfl
  | some m =>
      simp only [StdMap.find_assign, StdMap.subscript]
      by_cases he : sec' = sec
      · subst he
        simp only [if_true, hm, StdMap.find_insertNew]
        by_cases hk : key' = key
        · simp [hk]
        · rw [if_neg hk]
      · rw [if_neg he]
        cases seda.find sec' <;> rfl

theorem tooBig_getKey {env : Environment} {seda : StdMap Str Section} {sec threadName : Str} :
    TooBig env (getKey seda countName (dec env.cpuNum) sec).1 threadName ↔
      TooBig env seda threadName := by
  rw [TooBig, TooBig, getKey_getKey]

/-- What the loop over the names of the thread pools gives. -/
structure CreatesPools (env : Environment) (c : SedaConfig) (names : List Str)
    (r : Status × SedaConfig) : Prop where
  stages : r.2.stages = c.stages
  stageObjects : r.2.stageObjects = c.stageObjects
  success : r.1 = .success ↔ ∀ threadName ∈ names, ¬ TooBig env c.seda threadName
  listed : r.1 = .success → ∀ k, (r.2.threadPools.find k).isSome ↔
    (c.threadPools.find k).isSome ∨ k ∈ names
  kept : ∀ k, (c.threadPools.find k).isSome → (r.2.threadPools.find k).isSome
  none_left : r.1 = .initFail → (∃ threadName ∈ names.head?, TooBig env c.seda threadName) →
    r.2.threadPools = c.threadPools
  first_left : ∀ threadName ∈ names.head?, ¬ TooBig env c.seda threadName →
    (r.2.threadPools.find threadName).isSome

/-- **The pools that are made**, by induction on their names. -/
theorem createPools_spec (env : Environment) (c : SedaConfig) (names : List Str) :
    CreatesPools env c names (createPools env c names) := by
  induction names generalizing c with
  | nil => exact ⟨rfl, rfl, by simp [createPools], by simp [createPools], fun _ h => h, by simp,
      by simp⟩
  | cons threadName rest ih =>
      have hcount : TooBig env c.seda threadName ↔
          maxThreadCount ≤ (readCount env c threadName).2 := Iff.rfl
      rw [createPools]
      -- the pools in front of one that is too big are kept
      by_cases hbig : TooBig env c.seda threadName
      · rw [if_pos (hcount.mp hbig)]
        exact ⟨rfl, rfl, by simpa using fun h => absurd hbig h, by simp, fun _ h => h,
          fun _ _ => rfl, by simpa using fun h => absurd hbig h⟩
      · rw [if_neg (mt hcount.mpr hbig)]
        generalize hc' : addPool _ threadName _ = c'
        have hseda : c'.seda = (getKey c.seda countName (dec env.cpuNum) threadName).1 := by
          rw [← hc']
          rfl
        have hpools : ∀ k, (c'.threadPools.find k).isSome ↔
            (c.threadPools.find k).isSome ∨ k = threadName := by
          intro k
          rw [← hc']
          simp only [addPool, readCount, StdMap.find_assign]
          split <;> simp_all
        have h := ih c'
        refine ⟨?_, ?_, ?_, ?_, ?_, ?_, ?_⟩
        · rw [h.stages, ← hc']
          rfl
        · rw [h.stageObjects, ← hc']
          rfl
        · rw [h.success, hseda]
          simp [tooBig_getKey, hbig]
        · intro hs k
          rw [h.listed hs, hpools, List.mem_cons, or_assoc]
        · exact fun k hk => h.kept k ((hpools k).mpr (.inl hk))
        · simp [hbig]
        · rintro k ⟨⟩ -
          exact h.kept _ ((hpools _).mpr (.inr rfl))

section Created

variable {env : Environment} {c c' : SedaConfig} {names : List Str}

/-- A loop that fails leaves no pool if the first is the one that is too big. -/
theorem CreatesPools.empty_of_fail (hspec : CreatesPools env c names (.initFail, c'))
    (h : c.threadPools = ∅) :
    c'.threadPools = ∅ ↔ ∃ threadName ∈ names.head?, TooBig env c.seda threadName := by
  constructor
  · intro hempty
    rcases hcons : names with _ | ⟨threadName, rest⟩
    · cases hspec.success.mpr (by simp [hcons])
    · refine ⟨threadName, rfl, ?_⟩
      by_contra hbig
      have hleft := hspec.first_left threadName (by rw [hcons]; rfl) hbig
      rw [hempty, StdMap.find_empty] at hleft
      cases hleft
  · intro hbig
    rw [hspec.none_left rfl hbig, h]

/-- On success every name has its pool. -/
theorem CreatesPools.listed_of_success (hspec : CreatesPools env c names (.success, c'))
    (h : c.threadPools = ∅) (k : Str) : (c'.threadPools.find k).isSome ↔ k ∈ names := by
  rw [hspec.listed rfl k, h, StdMap.find_empty]
  simp

theorem CreatesPools.empty_of_success (hspec : CreatesPools env c names (.success, c'))
    (h : c.threadPools = ∅) : c'.threadPools = ∅ ↔ names = [] := by
  constructor
  · refine fun hempty => List.eq_nil_iff_forall_not_mem.mpr fun k hk => ?_
    have hsome := (hspec.listed_of_success h k).mpr hk
    rw [hempty, StdMap.find_empty] at hsome
    cases hsome
  · refine fun hnil => StdMap.eq_empty_of_find fun k => ?_
    have hnone := (hspec.listed_of_success h k).not
    rw [hnil] at hnone
    simpa using hnone

end Created

/-- What `init_thread_pool` gives.  It clears nothing when it fails. -/
structure InitsPools (env : Environment) (c : SedaConfig) (status : Status) (c' : SedaConfig) :
    Prop where
  stages : c'.stages = c.stages
  stageObjects : c'.stageObjects = c.stageObjects
  success : status = .success → Clean env c.seda
  fail : status = .initFail → (c'.threadPools = ∅ ↔ Clean env c.seda)

/-- **`init_thread_pool`** makes the pools, or stops at the first that fails. -/
theorem initThreadPool_spec (env : Environment) {c : SedaConfig} (h : c.threadPools = ∅) :
    ∃ status c', initThreadPool env c = .ok (status, c') ∧ InitsPools env c status c' := by
  unfold initThreadPool
  cases hn : (getSection c.seda sedaBaseName).find threadPoolsName with
  | none =>
      have hclean : Clean env c.seda := .inl (by rw [poolNames, hn])
      exact ⟨_, _, rfl, rfl, rfl, fun _ => hclean, fun _ => iff_of_true h hclean⟩
  | some names =>
      have hnames : poolNames c.seda = splitString names := by rw [poolNames, hn]
      have hspec := createPools_spec env c (splitString names)
      simp only
      generalize createPools env c (splitString names) = r at hspec
      obtain ⟨status, c'⟩ := r
      have hclean : Clean env c.seda ↔ splitString names = [] ∨
          (∃ threadName ∈ (splitString names).head?, TooBig env c.seda threadName) ∨
          (status = .success ∧ defaultThreadPool ∈ splitString names) := by
        rw [Clean, hnames, ← hspec.success]
      cases status with
      | initFail =>
          refine ⟨_, _, rfl, hspec.stages, hspec.stageObjects, by simp, fun _ => ?_⟩
          have hsome : splitString names ≠ [] := fun hnil => by
            cases hspec.success.mpr (by simp [hnil])
          rw [hclean, hspec.empty_of_fail h]
          simp [hsome]
      | success =>
          have hlisted := hspec.listed_of_success h
          simp only
          by_cases hdefault : (c'.threadPools.find defaultThreadPool).isSome
          · have hone : ¬ c'.threadPools.size < 1 :=
              Nat.not_lt.mpr (StdMap.size_pos_of_find hdefault)
            rw [if_pos hdefault, if_neg hone]
            exact ⟨_, _, rfl, hspec.stages, hspec.stageObjects,
              fun _ => hclean.mpr (.inr (.inr ⟨rfl, (hlisted _).mp hdefault⟩)), by simp⟩
          · rw [if_neg hdefault]
            refine ⟨_, _, rfl, hspec.stages, hspec.stageObjects, by simp, fun _ => ?_⟩
            -- all pools are there, so the first is not too big, and the default is not listed
            have hfirst : ¬ ∃ threadName ∈ (splitString names).head?,
                TooBig env c.seda threadName := by
              rintro ⟨threadName, hhead, hbig⟩
              exact hspec.success.mp rfl threadName (List.mem_of_mem_head? hhead) hbig
            have hlast := mt (hlisted _).mpr hdefault
            rw [hclean, hspec.empty_of_success h]
            exact ⟨.inl, fun hor => hor.resolve_right fun hor => hor.elim hfirst fun h => hlast h.2⟩

/-! ### Taking the configuration down -/

/-- No stage that was created is connected. -/
def Disconnected (c : SedaConfig) : Prop := ∀ st ∈ c.stageObjects, st.connected = false

/-- Nothing is left. -/
structure Empty (c : SedaConfig) : Prop where
  threadPools : c.threadPools = ∅
  stages : c.stages = ∅
  disconnected : Disconnected c

theorem stageAt_ok {c : SedaConfig} {i : ℕ} {st : Stage} (h : c.stageAt i = .ok st) :
    c.stageObjects[i]? = some st := by
  unfold SedaConfig.stageAt at h
  split at h
  · cases h
  · rename_i st' hget
    split at h
    · cases h
    · rw [hget, Except.ok.inj h]

theorem Disconnected.setStage {c : SedaConfig} (h : Disconnected c) (i : ℕ) {st : Stage}
    (hst : st.connected = false) : Disconnected (c.setStage i st) := by
  intro st' hmem
  rcases List.mem_or_eq_of_mem_set hmem with hmem | rfl
  · exact h st' hmem
  · exact hst

/-- What each turn of a loop over a map keeps. -/
theorem forEach_invariant {P : SedaConfig → Prop} {f : SedaConfig → ℕ → Except Stop SedaConfig}
    {c c' : SedaConfig} {ptrs : List (Option ℕ)} (h : forEach f c ptrs = .ok c') (h₀ : P c)
    (hstep : ∀ c i c', P c → f c i = .ok c' → P c') : P c' := by
  refine foldlM_invariant (P := fun _ c => P c) h h₀ fun _ p _ c c' _ hc hp => ?_
  cases p with
  | none =>
      obtain rfl := Except.ok.inj hp
      exact hc
  | some i => exact hstep c i c' hc hp

theorem deleteStage_disconnected {c c' : SedaConfig} {i : ℕ} (h : Disconnected c)
    (hd : deleteStage c i = .ok c') : Disconnected c' := by
  rw [deleteStage, bind_eq_ok] at hd
  obtain ⟨st, -, hd⟩ := hd
  obtain ⟨_, hst, hd⟩ := bind_eq_ok.mp hd
  obtain rfl := Except.ok.inj hd
  exact h.setStage i (require_eq_ok.mp hst)

theorem deletePool_kept {c c' : SedaConfig} {i : ℕ} (hd : deletePool c i = .ok c') :
    c'.stages = c.stages ∧ c'.stageObjects = c.stageObjects := by
  unfold deletePool at hd
  split at hd
  · cases hd
  · obtain ⟨-, -, hd⟩ := bind_eq_ok.mp hd
    obtain ⟨-, -, hd⟩ := bind_eq_ok.mp hd
    obtain rfl := Except.ok.inj hd
    exact ⟨rfl, rfl⟩

/-- Everything is deleted when no stage is connected. -/
theorem clearConfig_ok {c c' : SedaConfig} (h : Disconnected c) (hc : clearConfig c = .ok c') :
    Empty c' := by
  rw [clearConfig, bind_eq_ok] at hc
  obtain ⟨c₁, hstages, hc⟩ := hc
  obtain ⟨c₂, hpools, hc⟩ := bind_eq_ok.mp hc
  obtain rfl := Except.ok.inj hc
  have h₁ : Disconnected c₁ :=
    forEach_invariant hstages h fun _ _ _ hd hstep => deleteStage_disconnected hd hstep
  have h₂ : c₂.stages = ∅ ∧ Disconnected c₂ := by
    refine forEach_invariant (P := fun c => c.stages = ∅ ∧ Disconnected c) hpools ⟨rfl, h₁⟩ ?_
    rintro c i c' ⟨hs, hd⟩ hstep
    obtain ⟨hstages', hobjects⟩ := deletePool_kept hstep
    exact ⟨hstages'.trans hs, by rwa [Disconnected, hobjects]⟩
  exact ⟨rfl, h₂.1, h₂.2⟩

/-- **A failure clears**, where nothing is connected. -/
theorem clearAndFail_ok {c c' : SedaConfig} {status : Status} (h : Disconnected c)
    (hc : clearAndFail c = .ok (status, c')) : status = .initFail ∧ Empty c' := by
  obtain ⟨c₁, hclear, heq⟩ := bind_eq_ok.mp hc
  obtain ⟨rfl, rfl⟩ := Prod.mk.inj (Except.ok.inj heq)
  exact ⟨rfl, clearConfig_ok h hclear⟩

/-- Every connected stage is one that the map of stages points to. -/
def Linked (c : SedaConfig) : Prop :=
  ∀ i st, c.stageObjects[i]? = some st → st.connected = true → some i ∈ c.stages.values strLe

/-- One stage is disconnected, and no other is connected. -/
theorem disconnectStage_ok {c c' : SedaConfig} {i : ℕ} (hd : disconnectStage c i = .ok c') :
    ∀ j st, c'.stageObjects[j]? = some st → st.connected = true →
      j ≠ i ∧ c.stageObjects[j]? = some st := by
  rw [disconnectStage, bind_eq_ok] at hd
  obtain ⟨st, hget, hd⟩ := hd
  have hi := stageAt_ok hget
  intro j st' hj hconn
  split at hd
  · obtain rfl := Except.ok.inj hd
    rcases eq_or_ne j i with rfl | hne
    · rw [SedaConfig.setStage, List.getElem?_set_self (List.getElem?_eq_some_iff.mp hi).1] at hj
      obtain rfl := Option.some.inj hj
      cases hconn
    · rw [SedaConfig.setStage, List.getElem?_set_ne hne.symm] at hj
      exact ⟨hne, hj⟩
  · rename_i hst
    obtain rfl := Except.ok.inj hd
    refine ⟨?_, hj⟩
    rintro rfl
    obtain rfl := Option.some.inj (hi.symm.trans hj)
    exact hst hconn

/-- Every stage that the map points to is disconnected, and then all is deleted. -/
theorem cleanup_ok {c c' : SedaConfig} (h : Linked c) (hc : cleanup c = .ok c') : Empty c' := by
  rw [cleanup, bind_eq_ok] at hc
  obtain ⟨c₁, hdis, hclear⟩ := hc
  refine clearConfig_ok (fun st hst => ?_) hclear
  obtain ⟨i, hi⟩ := List.mem_iff_getElem?.mp hst
  by_contra hconn
  have hleft : some i ∉ c.stages.values strLe ∧ c.stageObjects[i]? = some st := by
    refine foldlM_invariant (P := fun done c' => ∀ i st, c'.stageObjects[i]? = some st →
      st.connected = true → some i ∉ done ∧ c.stageObjects[i]? = some st) hdis ?_ ?_ i st hi
      (by simpa using hconn)
    · exact fun j st hj _ => ⟨by simp, hj⟩
    · intro done p rest c₂ c₃ _ hdone hp j st hj hconn
      cases p with
      | none =>
          obtain rfl := Except.ok.inj hp
          obtain ⟨hnot, hget⟩ := hdone j st hj hconn
          exact ⟨by simpa using hnot, hget⟩
      | some k =>
          obtain ⟨hne, hj⟩ := disconnectStage_ok hp j st hj hconn
          obtain ⟨hnot, hget⟩ := hdone j st hj hconn
          exact ⟨by simpa [hne] using hnot, hget⟩
  exact hleft.1 (h i st hleft.2 (by simpa using hconn))

/-! ### Creating the stages -/

theorem createStage_disconnected {env : Environment} {c c' : SedaConfig} {stageName : Str}
    {status : Status} (h : Disconnected c) (hc : createStage env c stageName = .ok (status, c')) :
    Disconnected c' := by
  rw [createStage] at hc
  simp only at hc
  split at hc
  · cases hc
  · obtain ⟨-, rfl⟩ := Prod.mk.inj (Except.ok.inj hc)
    exact h
  · obtain ⟨-, -, hc⟩ := bind_eq_ok.mp hc
    obtain ⟨-, rfl⟩ := Prod.mk.inj (Except.ok.inj hc)
    intro st hst
    rcases List.mem_append.mp hst with hst | hst
    · exact h st hst
    · rw [List.mem_singleton.mp hst]

theorem createStages_disconnected {env : Environment} {c c' : SedaConfig} {names : List Str}
    {status : Status} (h : Disconnected c) (hc : createStages env c names = .ok (status, c')) :
    Disconnected c' := by
  induction names generalizing c with
  | nil =>
      obtain ⟨-, rfl⟩ := Prod.mk.inj (Except.ok.inj hc)
      exact h
  | cons stageName rest ih =>
      rw [createStages, bind_eq_ok] at hc
      obtain ⟨⟨status₁, c₁⟩, hone, hc⟩ := hc
      have h₁ := createStage_disconnected h hone
      cases status₁ with
      | initFail =>
          obtain ⟨-, rfl⟩ := Prod.mk.inj (Except.ok.inj hc)
          exact h₁
      | success => exact ih h₁ hc

/-- `init_stages` clears the configuration whenever it fails. -/
theorem initStages_ok {env : Environment} {c c' : SedaConfig} {status : Status}
    (h : Disconnected c) (hc : initStages env c = .ok (status, c')) :
    (status = .initFail → Empty c') ∧ Disconnected c' := by
  unfold initStages at hc
  split at hc
  · obtain ⟨-, he⟩ := clearAndFail_ok h hc
    exact ⟨fun _ => he, he.disconnected⟩
  · rename_i names _
    obtain ⟨⟨status₁, c₁⟩, hcreate, hc⟩ := bind_eq_ok.mp hc
    have h₁ : Disconnected c₁ := createStages_disconnected
      (c := { c with stageNames := c.stageNames ++ splitString names }) h hcreate
    cases status₁ with
    | initFail =>
        obtain ⟨-, he⟩ := clearAndFail_ok h₁ hc
        exact ⟨fun _ => he, he.disconnected⟩
    | success =>
        simp only at hc
        split at hc
        · obtain ⟨-, he⟩ := clearAndFail_ok h₁ hc
          exact ⟨fun _ => he, he.disconnected⟩
        · obtain ⟨rfl, rfl⟩ := Prod.mk.inj (Except.ok.inj hc)
          exact ⟨by simp, h₁⟩

theorem pushStage_disconnected {stage : Option ℕ} {c c' : SedaConfig} {nextStageName : Str}
    (h : Disconnected c) (hp : pushStage stage c nextStageName = .ok c') : Disconnected c' := by
  unfold pushStage at hp
  simp only at hp
  split at hp
  · cases hp
  · cases hp
  · obtain ⟨st, -, hp⟩ := bind_eq_ok.mp hp
    obtain ⟨_, hst, hp⟩ := bind_eq_ok.mp hp
    obtain rfl := Except.ok.inj hp
    have h₁ : Disconnected { c with stages := (c.stages.subscript nextStageName none).1 } := h
    exact h₁.setStage _ (require_eq_ok.mp hst)

theorem genNextStages_disconnected {c c' : SedaConfig} (h : Disconnected c)
    (hg : genNextStages c = .ok c') : Disconnected c' := by
  refine foldlM_invariant (P := fun _ c => Disconnected c) hg h fun _ stageName _ c c' _ hc hp => ?_
  unfold genNextStagesOf at hp
  simp only at hp
  split at hp
  · obtain rfl := Except.ok.inj hp
    exact hc
  · refine foldlM_invariant (P := fun _ c => Disconnected c) hp hc ?_
    exact fun _ _ _ _ _ _ hd hstep => pushStage_disconnected hd hstep

/-! ### Connecting the stages -/

theorem Disconnected.linked {c : SedaConfig} (h : Disconnected c) : Linked c := by
  intro i st hi hconn
  rw [h st (List.mem_of_getElem? hi)] at hconn
  cases hconn

/-- The loop of `start` connects only stages that the map points to. -/
theorem connectStages_ok {env : Environment} {c c' : SedaConfig} {ptrs : List (Option ℕ)}
    {status : Status} (h : Linked c) (hsub : ∀ p ∈ ptrs, p ∈ c.stages.values strLe)
    (hc : connectStages env c ptrs = .ok (status, c')) : status = .initFail → Empty c' := by
  induction ptrs generalizing c with
  | nil =>
      obtain ⟨rfl, -⟩ := Prod.mk.inj (Except.ok.inj hc)
      simp
  | cons p rest ih =>
      have hrest : ∀ p ∈ rest, p ∈ c.stages.values strLe :=
        fun p hp => hsub p (List.mem_cons_of_mem _ hp)
      cases p with
      | none => exact ih h hrest hc
      | some i =>
          rw [connectStages, bind_eq_ok] at hc
          obtain ⟨st, -, hc⟩ := hc
          obtain ⟨-, -, hc⟩ := bind_eq_ok.mp hc
          obtain ⟨-, -, hc⟩ := bind_eq_ok.mp hc
          split at hc
          · refine ih (c := c.setStage i { st with connected := true }) ?_ hrest hc
            intro j st' hj hconn
            rcases eq_or_ne j i with rfl | hne
            · exact hsub _ List.mem_cons_self
            · rw [SedaConfig.setStage, List.getElem?_set_ne hne.symm] at hj
              exact h j st' hj hconn
          · obtain ⟨c₁, hclean, heq⟩ := bind_eq_ok.mp hc
            obtain ⟨rfl, rfl⟩ := Prod.mk.inj (Except.ok.inj heq)
            exact fun _ => cleanup_ok h hclean

/-- **A start that fails** leaves nothing. -/
theorem start_ok {env : Environment} {c c' : SedaConfig} {status : Status} (h : Disconnected c)
    (hc : start env c = .ok (status, c')) : status = .initFail → Empty c' := by
  obtain ⟨-, -, hc⟩ := bind_eq_ok.mp hc
  exact connectStages_ok h.linked (fun p hp => hp) hc

/-! ### Initialisation -/

/-- Before the initialisation: nothing is created.  The names of the stages are never cleared, so
some may be left from before. -/
def SedaConfig.before (seda : StdMap Str Section) (stageNames : List Str) : SedaConfig :=
  ⟨seda, ∅, ∅, stageNames, [], []⟩

/-- A failure after the thread pools are there leaves nothing behind. -/
theorem instantiate_ok {env : Environment} {c c₁ c' : SedaConfig} {status : Status}
    (hpools : initThreadPool env c = .ok (.success, c₁)) (hd : Disconnected c₁)
    (h : instantiate env c = .ok (status, c')) :
    (status = .initFail → Empty c') ∧ Disconnected c' := by
  obtain ⟨r, hr, h⟩ := bind_eq_ok.mp h
  obtain rfl := Except.ok.inj (hpools.symm.trans hr)
  obtain ⟨⟨status₂, c₂⟩, hstages, h⟩ := bind_eq_ok.mp h
  obtain ⟨hfail, hd₂⟩ := initStages_ok hd hstages
  cases status₂ with
  | initFail =>
      obtain ⟨rfl, rfl⟩ := Prod.mk.inj (Except.ok.inj h)
      exact ⟨hfail, hd₂⟩
  | success =>
      obtain ⟨c₃, hnext, heq⟩ := bind_eq_ok.mp h
      obtain ⟨rfl, rfl⟩ := Prod.mk.inj (Except.ok.inj heq)
      exact ⟨by simp, genNextStages_disconnected hd₂ hnext⟩

/-- **So does `init`**, behind its pools. -/
theorem init_ok {env : Environment} {c c₁ c' : SedaConfig} {status : Status}
    (hpools : initThreadPool env c = .ok (.success, c₁)) (hd : Disconnected c₁)
    (h : init env c = .ok (status, c')) : status = .initFail → Empty c' := by
  obtain ⟨-, -, h⟩ := bind_eq_ok.mp h
  obtain ⟨-, -, h⟩ := bind_eq_ok.mp h
  obtain ⟨⟨status₁, c₂⟩, hinst, h⟩ := bind_eq_ok.mp h
  obtain ⟨hfail, hd₂⟩ := instantiate_ok hpools hd hinst
  cases status₁ with
  | initFail =>
      obtain ⟨rfl, rfl⟩ := Prod.mk.inj (Except.ok.inj h)
      exact fun _ => hfail rfl
  | success => exact start_ok hd₂ h

/-- **Main result.**  A failed initialisation leaves nothing behind exactly when no thread pool is
listed, or the first is refused for its count, or none is and the default one is listed. -/
theorem init_clean_iff (env : Environment) (seda : StdMap Str Section) (stageNames : List Str) :
    (∀ c', init env (.before seda stageNames) = .ok (.initFail, c') → Empty c') ↔
      Clean env seda := by
  obtain ⟨status, c₁, hpools, hspec⟩ :=
    initThreadPool_spec env (c := .before seda stageNames) rfl
  have hd : Disconnected c₁ := by
    rw [Disconnected, hspec.stageObjects]
    simp [SedaConfig.before]
  cases status with
  | success => exact iff_of_true (fun c' h => init_ok hpools hd h rfl) (hspec.success rfl)
  | initFail =>
      have hinst : instantiate env (.before seda stageNames) = .ok (.initFail, c₁) := by
        rw [instantiate, hpools]
        rfl
      have hinit : init env (.before seda stageNames) = .ok (.initFail, c₁) :=
        bind_eq_ok.mpr ⟨(), require_eq_ok.mpr rfl, bind_eq_ok.mpr ⟨(), require_eq_ok.mpr rfl,
          bind_eq_ok.mpr ⟨_, hinst, rfl⟩⟩⟩
      have hempty := hspec.fail rfl
      constructor
      · exact fun h => hempty.mp (h c₁ hinit).threadPools
      · intro hclean c' h
        obtain ⟨-, rfl⟩ := Prod.mk.inj (Except.ok.inj (hinit.symm.trans h))
        exact ⟨hempty.mpr hclean, hspec.stages, hd⟩

/-- One thread pool, which is not the default one. -/
theorem init_not_clean : ∃ env seda stageNames c',
    init env (.before seda stageNames) = .ok (.initFail, c') ∧ c'.threadPools ≠ ∅ := by
  have hrun : ((init ⟨4, fun _ _ => .stage, fun _ => true⟩
      (.before ((∅ : StdMap Str Section).assign sedaBaseName
        ((∅ : Section).assign threadPoolsName "IOThreads".toList)) [])).toOption.map
      fun r => (r.1, r.2.threadPools.size)) = some (.initFail, 1) := by decide +kernel
  obtain ⟨⟨status, c'⟩, heq, hr⟩ := Option.map_eq_some_iff.mp hrun
  obtain ⟨rfl, hsize⟩ := Prod.mk.inj hr
  refine ⟨_, _, _, c', ok_of_toOption heq, mt StdMap.size_eq_zero.mpr ?_⟩
  rw [show c'.threadPools.size = 1 from hsize]
  decide

end VulcanDB.Seda.Config
