import VulcanDB.Seda.Instantiate

/-!
# SEDA — The next stage of a session stage

`SessionStage::initialize` reads the first of the next stages, on every `connect`.  The list is
filled by `gen_next_stages` and emptied by `disconnect`; nothing else calls `push_stage`.

* `nextStageList_run`: the list after any calls.
* `initialize_iff`: when the read is of an element of the list.
-/

namespace VulcanDB.Seda.Config

open Cxx Steps

/-- `SessionStage`. -/
def sessionStageName : Str := "SessionStage".toList

/-- `Seda::seda_`, as it is built in. -/
def builtInSeda : StdMap Str Section :=
  let sections : StdMap Str Section := ∅
  let base : Section := ∅
  let base := base.assign "EventHistory".toList "false".toList
  let base := base.assign "MaxEventHistoryNum".toList "100".toList
  let base := base.assign threadPoolsName "SQLThreads,IOThreads,DefaultThreads".toList
  let base := base.assign stagesName "SessionStage".toList
  let sections := sections.assign sedaBaseName base
  let sections := sections.assign "SQLThreads".toList (StdMap.assign ∅ countName "3".toList)
  let sections := sections.assign "IOThreads".toList (StdMap.assign ∅ countName "3".toList)
  let sections := sections.assign defaultThreadPool (StdMap.assign ∅ countName "3".toList)
  sections.assign sessionStageName (StdMap.assign ∅ threadPoolId "SQLThreads".toList)

/-- The stage and the pointer that `initialize` sets. -/
structure SessionStage where
  nextStageList : List ℕ
  pool : Option ℕ
  connected : Bool
  planCacheStage : Option ℕ
  deriving DecidableEq

namespace SessionStage

/-- The session stage that was created as `st`. -/
def of (st : Stage) : SessionStage := ⟨st.nextStageList, st.pool, st.connected, none⟩

/-- `SessionStage::initialize`: `plan_cache_stage_ = *(stgp++)`.  The end of the list points to
nothing. -/
def initializeStage (s : SessionStage) : Except Stop SessionStage :=
  match s.nextStageList with
  | [] => .error .badPointer
  | next :: _ => .ok { s with planCacheStage := some next }

/-- `set_pool`. -/
def setPool (s : SessionStage) (pool : ℕ) : Except Stop SessionStage := do
  require (s.connected = false) .assertion
  return { s with pool := some pool }

/-- `connect`. -/
def connect (s : SessionStage) : Except Stop SessionStage := do
  require (s.connected = false) .assertion
  require (s.pool ≠ none) .assertion
  let s ← s.initializeStage
  return { s with connected := true }

/-- `disconnect`, whose cleanup clears the list. -/
def disconnect (s : SessionStage) : Except Stop SessionStage := do
  require (s.connected = true) .assertion
  return { s with connected := false, pool := none, nextStageList := [] }

/-- What the configuration calls. -/
inductive Call where
  | setPool (pool : ℕ)
  | connect
  | disconnect
  deriving DecidableEq

/-- A call. -/
def step (s : SessionStage) : Call → Except Stop SessionStage
  | .setPool pool => s.setPool pool
  | .connect => s.connect
  | .disconnect => s.disconnect

/-! ### The list after some calls -/

theorem initialize_ok {s s' : SessionStage} (h : s.initializeStage = .ok s') :
    s'.nextStageList = s.nextStageList := by
  unfold initializeStage at h
  split at h
  · cases h
  · obtain rfl := Except.ok.inj h
    rfl

/-- **One call**: a disconnect clears the list, no other call changes it. -/
theorem nextStageList_step {s s' : SessionStage} {call : Call} (h : s.step call = .ok s') :
    s'.nextStageList = if call = .disconnect then [] else s.nextStageList := by
  cases call with
  | setPool pool =>
      obtain ⟨-, -, h⟩ := bind_eq_ok.mp h
      obtain rfl := Except.ok.inj h
      rfl
  | connect =>
      obtain ⟨-, -, h⟩ := bind_eq_ok.mp h
      obtain ⟨-, -, h⟩ := bind_eq_ok.mp h
      obtain ⟨s₁, hinit, h⟩ := bind_eq_ok.mp h
      obtain rfl := Except.ok.inj h
      have hlist := initialize_ok hinit
      exact hlist
  | disconnect =>
      obtain ⟨-, -, h⟩ := bind_eq_ok.mp h
      obtain rfl := Except.ok.inj h
      rfl

/-- The next stages are there until the first `disconnect`. -/
theorem nextStageList_run {s s' : SessionStage} {calls : List Call}
    (h : calls.foldlM step s = .ok s') :
    s'.nextStageList = if Call.disconnect ∈ calls then [] else s.nextStageList := by
  refine foldlM_invariant (P := fun done s' =>
    s'.nextStageList = if Call.disconnect ∈ done then [] else s.nextStageList) h rfl ?_
  intro done call rest s₁ s₂ _ hdone hstep
  rw [nextStageList_step hstep, hdone]
  by_cases hcall : call = .disconnect
  · simp [hcall]
  · have hne : Call.disconnect ≠ call := Ne.symm hcall
    simp [hcall, hne]

end SessionStage

/-! ### The next stages that are configured -/

/-- A name of a next stage is that of a registered stage, so the list is empty only if no name is
configured. -/
theorem Holds.nextList_eq_nil {env : Environment} {base c : SedaConfig} {connected : Bool}
    (h : Holds env base connected c) {k : Str} (hk : k ∈ c.stageNames) :
    nextList c k = [] ↔ nextStageNames base.seda k = [] := by
  have hreg : registered c.stages (nextStageNames c.seda k) = [] ↔
      nextStageNames c.seda k = [] := by
    have hlen := congrArg List.length (h.next k hk)
    rw [List.length_map, List.length_map] at hlen
    rw [← List.length_eq_zero_iff, ← hlen, List.length_eq_zero_iff]
  rw [← nextStageNames_eq h.reads, ← hreg, nextList, List.flatMap_eq_nil_iff]
  constructor
  · intro hall
    simpa using hall k hk
  · intro hnil n _
    by_cases hn : n = k
    · rw [if_pos hn, hn, hnil]
    · rw [if_neg hn]

/-- Every next stage is one that is configured. -/
theorem Holds.mem_nextList {env : Environment} {base c : SedaConfig} {connected : Bool}
    (h : Holds env base connected c) {k : Str} {next : ℕ} (hmem : next ∈ nextList c k) :
    ∃ m ∈ nextStageNames base.seda k, c.stages.find m = some (some next) := by
  obtain ⟨n, -, hn⟩ := List.mem_flatMap.mp hmem
  split at hn
  · rename_i heq
    obtain ⟨m, hm, hjoin⟩ := List.mem_filterMap.mp hn
    rw [heq, nextStageNames_eq h.reads] at hm
    exact ⟨m, hm, Option.join_eq_some_iff.mp hjoin⟩
  · cases hn

/-- What `initialize` is to do: read an element of the list, and find a stage that is configured
for `stageName`. -/
def Initializes (seda : StdMap Str Section) (c : SedaConfig) (stageName : Str)
    (s : SessionStage) : Prop :=
  ∃ s', s.initializeStage = .ok s' ∧ (s'.planCacheStage = none ∨
    ∃ m ∈ nextStageNames seda stageName, c.stages.find m = some s'.planCacheStage)

/-- **Main result.**  After any calls on a stage that was instantiated, `initialize` reads an
element of the list if and only if a next stage is configured for the stage and it was not
disconnected before. -/
theorem initialize_iff {env : Environment} {seda : StdMap Str Section} {names : List Str}
    {c : SedaConfig} {stageName : Str} {i : ℕ} {st : Stage} {calls : List SessionStage.Call}
    {s : SessionStage} (hinst : instantiate env (.before seda names) = .ok (.success, c))
    (hfind : c.stages.find stageName = some (some i)) (hst : c.stageObjects[i]? = some st)
    (hcalls : calls.foldlM SessionStage.step (.of st) = .ok s) :
    Initializes seda c stageName s ↔
      nextStageNames seda stageName ≠ [] ∧ SessionStage.Call.disconnect ∉ calls := by
  have h := instantiate_holds rfl rfl hinst
  have hk : stageName ∈ c.stageNames := (h.listed stageName).mp (by rw [hfind]; rfl)
  obtain ⟨j, q, hj, -, hget⟩ := h.stage stageName _ hfind
  obtain rfl := Option.some.inj hj
  obtain rfl := Option.some.inj (hst.symm.trans hget)
  have hlist := SessionStage.nextStageList_run hcalls
  -- the list is empty where it was made so, or where a disconnect cleared it
  have hnil : s.nextStageList = [] ↔
      nextStageNames seda stageName = [] ∨ SessionStage.Call.disconnect ∈ calls := by
    have hempty : nextList c stageName = [] ↔ nextStageNames seda stageName = [] :=
      h.nextList_eq_nil hk
    rw [hlist, ← hempty]
    split
    · rename_i hmem
      simp [hmem]
    · rename_i hmem
      simp [hmem, SessionStage.of]
  have hcond : (nextStageNames seda stageName ≠ [] ∧ SessionStage.Call.disconnect ∉ calls) ↔
      s.nextStageList ≠ [] := by rw [ne_eq s.nextStageList, hnil, not_or]
  rw [hcond]
  constructor
  · rintro ⟨s', hinit, -⟩ heq
    rw [SessionStage.initializeStage, heq] at hinit
    cases hinit
  · intro hne
    obtain ⟨next, rest, heq⟩ := List.exists_cons_of_ne_nil hne
    have hnext : next ∈ nextList c stageName := by
      have hdis := mt (fun hmem => hnil.mpr (.inr hmem)) hne
      rw [if_neg hdis] at hlist
      rw [show nextList c stageName = s.nextStageList from hlist.symm, heq]
      exact List.mem_cons_self
    refine ⟨{ s with planCacheStage := some next }, ?_, .inr (h.mem_nextList hnext)⟩
    rw [SessionStage.initializeStage, heq]

/-- With the built-in configuration the session stage has no next stage. -/
theorem initialize_builtIn : ∃ env c i st,
    instantiate env (.before builtInSeda []) = .ok (.success, c) ∧
      c.stages.find sessionStageName = some (some i) ∧ c.stageObjects[i]? = some st ∧
        (SessionStage.of st).initializeStage = .error .badPointer := by
  have hrun : ((instantiate ⟨4, fun _ _ => .stage, fun _ => true⟩
      (.before builtInSeda [])).toOption.map fun r =>
        (r.1, r.2.stages.find sessionStageName, r.2.stageObjects)) =
      some (.success, some (some 0), [⟨sessionStageName, some 0, [], false, false⟩]) := by
    decide +kernel
  obtain ⟨⟨status, c⟩, heq, hr⟩ := Option.map_eq_some_iff.mp hrun
  obtain ⟨rfl, hr⟩ := Prod.mk.inj hr
  obtain ⟨hfind, hobjects⟩ := Prod.mk.inj hr
  have hget : c.stageObjects = [⟨sessionStageName, some 0, [], false, false⟩] := hobjects
  exact ⟨_, c, 0, _, ok_of_toOption heq, hfind, by rw [hget]; rfl, rfl⟩

/-- A stage behind the session stage, and the session stage disconnected. -/
theorem initialize_iff_example : ∃ env seda c stageName i st s,
    instantiate env (.before seda []) = .ok (.success, c) ∧
      c.stages.find stageName = some (some i) ∧ c.stageObjects[i]? = some st ∧
      [SessionStage.Call.connect, .disconnect].foldlM SessionStage.step (.of st) = .ok s ∧
      (Initializes seda c stageName s ↔ nextStageNames seda stageName ≠ [] ∧
        SessionStage.Call.disconnect ∉ [SessionStage.Call.connect, .disconnect]) := by
  let seda : StdMap Str Section := (builtInSeda.assign sedaBaseName ((StdMap.assign ∅
    threadPoolsName defaultThreadPool).assign stagesName "SessionStage,Plan".toList)).assign
      sessionStageName (StdMap.assign ∅ nextStagesName "Plan".toList)
  have hrun : ((instantiate ⟨4, fun _ _ => .stage, fun _ => true⟩
      (.before seda [])).toOption.map fun r =>
        (r.1, r.2.stages.find sessionStageName, r.2.stageObjects[0]?)) =
      some (.success, some (some 0), some ⟨sessionStageName, some 0, [1], false, false⟩) := by
    decide +kernel
  obtain ⟨⟨status, c⟩, heq, hr⟩ := Option.map_eq_some_iff.mp hrun
  obtain ⟨rfl, hr⟩ := Prod.mk.inj hr
  obtain ⟨hfind, hget⟩ := Prod.mk.inj hr
  have hcalls : [SessionStage.Call.connect, .disconnect].foldlM SessionStage.step
      (.of ⟨sessionStageName, some 0, [1], false, false⟩) =
        .ok ⟨[], none, false, some 1⟩ := by decide
  exact ⟨_, seda, c, sessionStageName, 0, _, _, ok_of_toOption heq, hfind, hget, hcalls,
    initialize_iff (ok_of_toOption heq) hfind hget hcalls⟩

end VulcanDB.Seda.Config
