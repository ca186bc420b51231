import VulcanDB.Seda.NextStages

/-!
# SEDA — Initialised again

Rounds of `init` and `cleanup` on one `SedaConfig`.  `clear_config` empties the maps of stages and
thread pools but not `stage_names_`, which `init_stages` appends to and then goes through.

* `Rounds.same_views`: the registered stages and the thread pools are those of the first round.
* `Rounds.nextStages`: the next stages of each are those of the first, once for each round.
* `Rounds.fresh_iff`: when all is as after a single initialisation.
-/

namespace VulcanDB.Seda.Config

open Cxx Steps

/-! ### Configurations without their addresses -/

/-- A registered stage. -/
structure StageView where
  name : Str
  pool : Option Threadpool
  connected : Bool
  deleted : Bool

/-- The pool behind its pointer. -/
def poolView (c : SedaConfig) (p : Option ℕ) : Option Threadpool := p.bind (c.poolObjects[·]?)

/-- The stage behind its pointer, with its pool. -/
def stageView (c : SedaConfig) (p : Option ℕ) : Option StageView :=
  (p.bind (c.stageObjects[·]?)).map fun st => ⟨st.name, poolView c st.pool, st.connected, st.deleted⟩

/-- The names of the next stages of a stage. -/
def nextView (c : SedaConfig) (p : Option ℕ) : Option (List (Option Str)) :=
  (p.bind (c.stageObjects[·]?)).map fun st =>
    st.nextStageList.map fun next => (c.stageObjects[next]?).map (·.name)

/-- `get_stage_names`. -/
def getStageNames (c : SedaConfig) : List Str := c.stageNames

/-- The configuration is that of `c₁`, up to the addresses, and every stage that is not deleted is
registered. -/
structure Fresh (c₁ c : SedaConfig) : Prop where
  stages : ∀ k, (c.stages.find k).map (stageView c) = (c₁.stages.find k).map (stageView c₁)
  threadPools : ∀ k,
    (c.threadPools.find k).map (poolView c) = (c₁.threadPools.find k).map (poolView c₁)
  nextStages : ∀ k, (c.stages.find k).map (nextView c) = (c₁.stages.find k).map (nextView c₁)
  stageNames : getStageNames c = getStageNames c₁
  reachable : ∀ i st, c.stageObjects[i]? = some st → st.deleted = false →
    ∃ k, c.stages.find k = some (some i)

/-- After rounds of `init` and `cleanup`, the last an `init`, all of which succeed. -/
inductive Rounds (env : Environment) (seda : StdMap Str Section) : ℕ → SedaConfig → Prop
  | first {c} : init env (.before seda []) = .ok (.success, c) → Rounds env seda 1 c
  | again {n c c' c''} : Rounds env seda n c → cleanup c = .ok c' →
      init env c' = .ok (.success, c'') → Rounds env seda (n + 1) c''

/-! ### What a cleanup leaves -/

/-- What no call changes, the loop does not. -/
theorem forEach_frame {f : SedaConfig → ℕ → Except Stop SedaConfig} {c c' : SedaConfig}
    {ptrs : List (Option ℕ)} (h : forEach f c ptrs = .ok c')
    (hf : ∀ c i c', f c i = .ok c' → c'.seda = c.seda ∧ c'.stageNames = c.stageNames) :
    c'.seda = c.seda ∧ c'.stageNames = c.stageNames := by
  refine forEach_invariant (P := fun d => d.seda = c.seda ∧ d.stageNames = c.stageNames) h
    ⟨rfl, rfl⟩ fun d i d' hd hstep => ?_
  obtain ⟨hseda, hnames⟩ := hf d i d' hstep
  exact ⟨hseda.trans hd.1, hnames.trans hd.2⟩

theorem deleteStage_frame {c c' : SedaConfig} {i : ℕ} (h : deleteStage c i = .ok c') :
    c'.seda = c.seda ∧ c'.stageNames = c.stageNames := by
  obtain ⟨st, -, h⟩ := bind_eq_ok.mp h
  obtain ⟨-, -, h⟩ := bind_eq_ok.mp h
  obtain rfl := Except.ok.inj h
  exact ⟨rfl, rfl⟩

theorem deletePool_frame {c c' : SedaConfig} {i : ℕ} (h : deletePool c i = .ok c') :
    c'.seda = c.seda ∧ c'.stageNames = c.stageNames := by
  unfold deletePool at h
  split at h
  · cases h
  · obtain ⟨-, -, h⟩ := bind_eq_ok.mp h
    obtain ⟨-, -, h⟩ := bind_eq_ok.mp h
    obtain rfl := Except.ok.inj h
    exact ⟨rfl, rfl⟩

theorem disconnectStage_frame {c c' : SedaConfig} {i : ℕ} (h : disconnectStage c i = .ok c') :
    c'.seda = c.seda ∧ c'.stageNames = c.stageNames := by
  obtain ⟨st, -, h⟩ := bind_eq_ok.mp h
  split at h
  · obtain rfl := Except.ok.inj h
    exact ⟨rfl, rfl⟩
  · obtain rfl := Except.ok.inj h
    exact ⟨rfl, rfl⟩

/-- The names of the stages stay. -/
theorem cleanup_frame {c c' : SedaConfig} (h : cleanup c = .ok c') :
    c'.seda = c.seda ∧ c'.stageNames = c.stageNames := by
  obtain ⟨c₁, hdis, h⟩ := bind_eq_ok.mp h
  rw [clearConfig, bind_eq_ok] at h
  obtain ⟨c₂, hdel, h⟩ := h
  obtain ⟨c₃, hpools, h⟩ := bind_eq_ok.mp h
  obtain rfl := Except.ok.inj h
  have h₁ := forEach_frame hdis fun _ _ _ => disconnectStage_frame
  have h₂ := forEach_frame hdel fun _ _ _ => deleteStage_frame
  have h₃ := forEach_frame hpools fun _ _ _ => deletePool_frame
  exact ⟨h₃.1.trans (h₂.1.trans h₁.1), h₃.2.trans (h₂.2.trans h₁.2)⟩

/-! ### What the rounds hold -/

/-- What every round holds. -/
structure RoundHolds (env : Environment) (seda : StdMap Str Section) (n : ℕ) (c : SedaConfig) :
    Prop where
  reads : SameReads env seda c.seda
  stageNames : c.stageNames = (List.replicate n (stageNamesOf seda)).flatten
  holds : ∃ base, Holds env base true c ∧ SameReads env seda base.seda

theorem Rounds.holds {env : Environment} {seda : StdMap Str Section} {n : ℕ} {c : SedaConfig}
    (h : Rounds env seda n c) : RoundHolds env seda n c := by
  induction h with
  | first hinit =>
      have hh := init_holds hinit
      refine ⟨hh.reads, ?_, _, hh, .refl _ _⟩
      rw [hh.stageNames]
      simp [SedaConfig.before]
  | again _ hclean hinit ih =>
      obtain ⟨hseda, hnames⟩ := cleanup_frame hclean
      have hh := init_holds hinit
      have hreads : SameReads env seda _ := hseda ▸ ih.reads
      refine ⟨hreads.trans hh.reads, ?_, _, hh, hreads⟩
      rw [hh.stageNames, hnames, ih.stageNames, stageNamesOf_eq hreads]
      rw [List.replicate_succ', List.flatten_append, List.flatten_singleton]

theorem Rounds.pos {env : Environment} {seda : StdMap Str Section} {n : ℕ} {c : SedaConfig}
    (h : Rounds env seda n c) : 0 < n := by
  cases h with
  | first => exact Nat.one_pos
  | again => exact Nat.succ_pos _

/-! ### What is registered, from the configuration -/

/-- The name of the thread pool of a stage. -/
def threadPoolFor (seda : StdMap Str Section) (stageName : Str) : Str :=
  match (getSection seda stageName).find threadPoolId with
  | none => defaultThreadPool
  | some threadName =>
    if (poolNames seda).contains threadName && !threadName.isEmpty then threadName
    else defaultThreadPool

/-- The thread pool with a name. -/
def threadPoolOf (env : Environment) (seda : StdMap Str Section) (threadName : Str) : Threadpool :=
  ⟨(poolCount env seda threadName).toNat, threadName, false⟩

/-- The next stages of a stage, once for each time it is named. -/
def nextStagesOf (seda : StdMap Str Section) (k : Str) : List Str :=
  (stageNamesOf seda).flatMap fun n => if n = k then nextStageNames seda n else []

section Holds

variable {env : Environment} {base c : SedaConfig} {connected : Bool} {k : Str} {p : Option ℕ}

theorem Holds.getThreadPool (h : Holds env base connected c) (k : Str) :
    getThreadPool c k = threadPoolFor c.seda k := by
  unfold Config.getThreadPool threadPoolFor
  cases (getSection c.seda k).find threadPoolId with
  | none => rfl
  | some threadName =>
      simp only
      rw [poolNames_eq h.reads]
      by_cases hnil : threadName = []
      · simp [hnil]
      · by_cases hmem : threadName ∈ poolNames base.seda
        · simp [hnil, hmem, (h.pools threadName).mpr hmem]
        · have hnone := Option.not_isSome_iff_eq_none.mp (mt (h.pools threadName).mp hmem)
          simp [hnil, hmem, hnone]

/-- A pool as it was read from the file. -/
theorem Holds.poolView (h : Holds env base connected c) (hk : c.threadPools.find k = some p) :
    poolView c p = some (threadPoolOf env c.seda k) := by
  obtain ⟨j, rfl, hj⟩ := h.made k p hk
  exact hj

/-- A stage as it was read from the file. -/
theorem Holds.stageView (h : Holds env base connected c) (hk : c.stages.find k = some p) :
    stageView c p =
      some ⟨k, some (threadPoolOf env c.seda (threadPoolFor c.seda k)), connected, false⟩ := by
  obtain ⟨i, q, rfl, hq, hi⟩ := h.stage k p hk
  have hpool := h.poolView hq
  rw [h.getThreadPool] at hpool
  simp only [Config.stageView, Option.bind_some, hi, Option.map_some, hpool]

/-- Two lists that agree seen through two functions. -/
theorem map_of_map_eq {α β γ δ : Type} {l : List α} {r : List β} {f : α → γ} {g : β → γ}
    {f' : α → δ} {g' : β → δ} (h : l.map f = r.map g) (hfg : ∀ a b, f a = g b → g' b = f' a) :
    r.map g' = l.map f' := by
  induction l generalizing r with
  | nil =>
      obtain rfl := List.map_eq_nil_iff.mp h.symm
      rfl
  | cons a l ih =>
      cases r with
      | nil => cases h
      | cons b r =>
          obtain ⟨hab, hrest⟩ := List.cons.inj h
          rw [List.map_cons, List.map_cons, hfg a b hab, ih hrest]

/-- The names of the stages that are registered for some names. -/
theorem Holds.map_registered (h : Holds env base connected c) {n : Str} (hn : n ∈ c.stageNames) :
    (registered c.stages (nextStageNames c.seda n)).map
        (fun next => (c.stageObjects[next]?).map (·.name)) =
      (nextStageNames c.seda n).map some := by
  refine map_of_map_eq (h.next n hn) fun m next hm => ?_
  obtain ⟨i, q, hi, -, hget⟩ := h.stage m _ hm
  obtain rfl := Option.some.inj hi
  rw [hget]
  rfl

/-- **The next stages**, as often as the name of the stage is listed. -/
theorem Holds.nextView (h : Holds env base connected c) (hk : c.stages.find k = some p) :
    nextView c p = some ((c.stageNames.flatMap fun n =>
      if n = k then nextStageNames c.seda n else []).map some) := by
  obtain ⟨i, q, rfl, -, hi⟩ := h.stage k p hk
  simp only [Config.nextView, Option.bind_some, hi, Option.map_some, nextList, List.map_flatMap]
  refine congrArg some (List.flatMap_congr fun n hn => ?_)
  split
  · exact h.map_registered hn
  · rfl

end Holds

/-! ### Rounds compared -/

section Rounds

variable {env : Environment} {seda : StdMap Str Section} {n : ℕ} {c c₁ : SedaConfig}

theorem threadPoolFor_eq {seda' : StdMap Str Section} (h : SameReads env seda seda') (k : Str) :
    threadPoolFor seda' k = threadPoolFor seda k := by
  rw [threadPoolFor, threadPoolFor, h.entry _ _ (by decide), poolNames_eq h]

theorem threadPoolOf_eq {seda' : StdMap Str Section} (h : SameReads env seda seda') (k : Str) :
    threadPoolOf env seda' k = threadPoolOf env seda k := by
  rw [threadPoolOf, threadPoolOf, h.count]

/-- A value that is there for some keys. -/
theorem map_find_eq {β γ : Type} {m : StdMap Str β} {f : β → γ} {v : Str → γ} {names : List Str}
    (hlisted : ∀ k, (m.find k).isSome ↔ k ∈ names) (hf : ∀ k p, m.find k = some p → f p = v k)
    (k : Str) : (m.find k).map f = if k ∈ names then some (v k) else none := by
  cases hk : m.find k with
  | none =>
      rw [if_neg fun hmem => ?_]
      · rfl
      · have hsome := (hlisted k).mpr hmem
        rw [hk] at hsome
        cases hsome
  | some p =>
      rw [if_pos ((hlisted k).mp (by rw [hk]; rfl)), Option.map_some, hf k p hk]

theorem mem_flatten_replicate {α : Type} {l : List α} (hn : 0 < n) (a : α) :
    a ∈ (List.replicate n l).flatten ↔ a ∈ l := by
  simp [List.mem_flatten, hn.ne']

/-- The names are those of the file, however often. -/
theorem Rounds.mem_stageNames (h : Rounds env seda n c) (k : Str) :
    k ∈ c.stageNames ↔ k ∈ stageNamesOf seda := by
  rw [h.holds.stageNames, mem_flatten_replicate h.pos]

/-- The registered stages. -/
theorem Rounds.stages (h : Rounds env seda n c) (k : Str) :
    (c.stages.find k).map (stageView c) = if k ∈ stageNamesOf seda then
      some (some ⟨k, some (threadPoolOf env seda (threadPoolFor seda k)), true, false⟩)
    else none := by
  obtain ⟨base, hh, -⟩ := h.holds.holds
  refine map_find_eq (v := fun k => some (StageView.mk k
    (some (threadPoolOf env seda (threadPoolFor seda k))) true false))
    (fun k => (hh.listed k).trans (h.mem_stageNames k)) (fun k p hk => ?_) k
  rw [hh.stageView hk, threadPoolOf_eq h.holds.reads, threadPoolFor_eq h.holds.reads]

/-- The thread pools. -/
theorem Rounds.threadPools (h : Rounds env seda n c) (k : Str) :
    (c.threadPools.find k).map (poolView c) =
      if k ∈ poolNames seda then some (some (threadPoolOf env seda k)) else none := by
  obtain ⟨base, hh, hreads⟩ := h.holds.holds
  refine map_find_eq (v := fun k => some (threadPoolOf env seda k)) (fun k => ?_)
    (fun k p hk => ?_) k
  · rw [hh.pools, poolNames_eq hreads]
  · rw [hh.poolView hk, threadPoolOf_eq h.holds.reads]

theorem flatMap_flatten_replicate {α β : Type} (l : List α) (f : α → List β) (n : ℕ) :
    (List.replicate n l).flatten.flatMap f = (List.replicate n (l.flatMap f)).flatten := by
  induction n with
  | zero => rfl
  | succ n ih =>
      simp only [List.replicate_succ, List.flatten_cons, List.flatMap_append, ih]

/-- **The next stages multiply**: after `n` rounds they are there `n` times. -/
theorem Rounds.nextStages (h : Rounds env seda n c) (k : Str) :
    (c.stages.find k).map (nextView c) = if k ∈ stageNamesOf seda then
      some (some ((List.replicate n (nextStagesOf seda k)).flatten.map some)) else none := by
  obtain ⟨base, hh, -⟩ := h.holds.holds
  refine map_find_eq (v := fun k => some ((List.replicate n (nextStagesOf seda k)).flatten.map some))
    (fun k => (hh.listed k).trans (h.mem_stageNames k)) (fun k p hk => ?_) k
  -- the names are listed once more for each round, and each time read in full
  rw [hh.nextView hk, h.holds.stageNames, flatMap_flatten_replicate, nextStagesOf]
  simp only [nextStageNames_eq h.holds.reads]

/-- The registered stages and the thread pools are those of the first round. -/
theorem Rounds.same_views (h₁ : Rounds env seda 1 c₁) (h : Rounds env seda n c) :
    (∀ k, (c.stages.find k).map (stageView c) = (c₁.stages.find k).map (stageView c₁)) ∧
      ∀ k, (c.threadPools.find k).map (poolView c) = (c₁.threadPools.find k).map (poolView c₁) :=
  ⟨fun k => by rw [h.stages, h₁.stages], fun k => by rw [h.threadPools, h₁.threadPools]⟩

/-- There is a stage. -/
theorem Rounds.stageNamesOf_ne_nil (h : Rounds env seda n c) : stageNamesOf seda ≠ [] := by
  intro hnil
  obtain ⟨base, hh, -⟩ := h.holds.holds
  refine hh.nonempty (StdMap.eq_empty_of_find fun k => ?_)
  have hnot : k ∉ stageNamesOf seda := by simp [hnil]
  rw [← h.mem_stageNames, ← hh.listed] at hnot
  exact Option.not_isSome_iff_eq_none.mp hnot

/-- After one round each stage has been created once for each time it is listed. -/
theorem Rounds.objects (h : Rounds env seda 1 c) :
    (∀ (i : ℕ) (k : Str), (stageNamesOf seda)[i]? = some k ↔
      ∃ st : Stage, c.stageObjects[i]? = some st ∧ st.name = k) ∧
    ∀ (i : ℕ) (st : Stage), c.stageObjects[i]? = some st → st.deleted = false := by
  have hinit : init env (.before seda []) = .ok (.success, c) := by
    cases h with
    | first hinit => exact hinit
    | again h' => exact absurd h'.pos (lt_irrefl 0)
  have hh := init_holds hinit
  have hnames : c.stageObjects.map (·.name) = stageNamesOf seda := by
    rw [hh.objects, hh.stageNames]
    rfl
  refine ⟨fun i k => ?_, fun i st => hh.fresh i st (Nat.zero_le i)⟩
  rw [← hnames, List.getElem?_map, Option.map_eq_some_iff]

/-- A name that is listed twice has two stages, of which one is registered. -/
theorem Rounds.nodup_of_reachable (h : Rounds env seda 1 c)
    (hreach : ∀ i st, c.stageObjects[i]? = some st → st.deleted = false →
      ∃ k, c.stages.find k = some (some i)) : (stageNamesOf seda).Nodup := by
  obtain ⟨hname, hfresh⟩ := h.objects
  obtain ⟨base, hh, -⟩ := h.holds.holds
  -- what is registered for a name is the stage in its place
  have hfind : ∀ (i : ℕ) (k : Str), (stageNamesOf seda)[i]? = some k →
      c.stages.find k = some (some i) := by
    intro i k hik
    obtain ⟨st, hst, rfl⟩ := (hname i k).mp hik
    obtain ⟨m, hm⟩ := hreach i st hst (hfresh i st hst)
    obtain ⟨i', q, hi', -, hget⟩ := hh.stage m _ hm
    obtain rfl := Option.some.inj hi'
    obtain rfl := Option.some.inj (hst.symm.trans hget)
    exact hm
  refine List.nodup_iff_injective_getElem.mpr fun ⟨i, hi⟩ ⟨j, hj⟩ heq => ?_
  have hi' := hfind i _ (List.getElem?_eq_getElem hi)
  have hj' := hfind j _ (List.getElem?_eq_getElem hj)
  have hkey : (stageNamesOf seda)[i] = (stageNamesOf seda)[j] := heq
  rw [hkey] at hi'
  exact Fin.ext (Option.some.inj (Option.some.inj (hi'.symm.trans hj')))

/-- After one round every stage is registered exactly when their names are distinct. -/
theorem Rounds.reachable_iff (h : Rounds env seda 1 c) :
    (∀ i st, c.stageObjects[i]? = some st → st.deleted = false →
      ∃ k, c.stages.find k = some (some i)) ↔ (stageNamesOf seda).Nodup := by
  refine ⟨h.nodup_of_reachable, fun hnodup i st hst hdel => ?_⟩
  obtain ⟨hname, -⟩ := h.objects
  obtain ⟨base, hh, -⟩ := h.holds.holds
  have hmem : st.name ∈ stageNamesOf seda := List.mem_of_getElem? ((hname i _).mpr ⟨st, hst, rfl⟩)
  rw [← h.mem_stageNames, ← hh.listed, Option.isSome_iff_exists] at hmem
  obtain ⟨p, hp⟩ := hmem
  obtain ⟨j, q, rfl, -, hj⟩ := hh.stage _ p hp
  have hi' := (hname i st.name).mpr ⟨st, hst, rfl⟩
  have hj' := (hname j st.name).mpr ⟨_, hj, rfl⟩
  have hlt := (List.getElem?_eq_some_iff.mp hi').1
  obtain rfl := (List.getElem?_inj hlt hnodup).mp (hi'.trans hj'.symm)
  exact ⟨st.name, hp⟩

/-- **Main result.**  After rounds of `init` and `cleanup` all is as after a single `init`, and
every stage is registered, if and only if there was one round and the stages have different names. -/
theorem Rounds.fresh_iff (h₁ : Rounds env seda 1 c₁) (h : Rounds env seda n c) :
    Fresh c₁ c ↔ n = 1 ∧ (stageNamesOf seda).Nodup := by
  have hnames : getStageNames c = (List.replicate n (stageNamesOf seda)).flatten :=
    h.holds.stageNames
  have hnames₁ : getStageNames c₁ = stageNamesOf seda := by
    rw [getStageNames, h₁.holds.stageNames]
    simp
  constructor
  · intro hfresh
    have hlen := congrArg List.length (hnames.symm.trans (hfresh.stageNames.trans hnames₁))
    have hpos := List.length_pos_iff.mpr h.stageNamesOf_ne_nil
    have hone : n = 1 := by
      rw [List.length_flatten, List.map_replicate, List.sum_replicate, smul_eq_mul] at hlen
      exact Nat.eq_of_mul_eq_mul_right hpos (hlen.trans (Nat.one_mul _).symm)
    subst hone
    exact ⟨rfl, h.reachable_iff.mp hfresh.reachable⟩
  · rintro ⟨rfl, hnodup⟩
    obtain ⟨hstages, hpools⟩ := h₁.same_views h
    refine ⟨hstages, hpools, fun k => ?_, ?_, h.reachable_iff.mpr hnodup⟩
    · rw [h.nextStages, h₁.nextStages]
    · rw [hnames, hnames₁]
      simp

end Rounds

/-- Two rounds with the built-in configuration. -/
theorem rounds_builtIn : ∃ env c₁ c, Rounds env builtInSeda 1 c₁ ∧ Rounds env builtInSeda 2 c ∧
    getStageNames c₁ = [sessionStageName] ∧
      getStageNames c = [sessionStageName, sessionStageName] := by
  let env : Environment := ⟨4, fun _ _ => .stage, fun _ => true⟩
  have hrun : ((init env (.before builtInSeda [])).toOption.bind fun r =>
      (cleanup r.2).toOption.bind fun c' => (init env c').toOption.map fun r' =>
        (r.1, r'.1, r.2.stageNames, r'.2.stageNames)) = some (.success, .success,
          [sessionStageName], [sessionStageName, sessionStageName]) := by decide +kernel
  obtain ⟨⟨status, c₁⟩, h₁, hrun⟩ := Option.bind_eq_some_iff.mp hrun
  obtain ⟨c', hclean, hrun⟩ := Option.bind_eq_some_iff.mp hrun
  obtain ⟨⟨status', c⟩, h₂, hr⟩ := Option.map_eq_some_iff.mp hrun
  simp only [Prod.mk.injEq] at hr
  obtain ⟨rfl, rfl, hnames₁, hnames⟩ := hr
  have hfirst := Rounds.first (ok_of_toOption h₁)
  exact ⟨env, c₁, c, hfirst, hfirst.again (ok_of_toOption hclean) (ok_of_toOption h₂), hnames₁,
    hnames⟩

/-- The second round names the stage twice. -/
theorem rounds_not_fresh : ∃ env c₁ c, Rounds env builtInSeda 1 c₁ ∧
    Rounds env builtInSeda 2 c ∧ ¬ Fresh c₁ c := by
  obtain ⟨env, c₁, c, h₁, h, hnames₁, hnames⟩ := rounds_builtIn
  refine ⟨env, c₁, c, h₁, h, fun hfresh => ?_⟩
  have heq := hfresh.stageNames
  rw [hnames, hnames₁] at heq
  cases List.cons.inj heq |>.2

theorem rounds_fresh_example : ∃ env c₁ c, Rounds env builtInSeda 1 c₁ ∧
    Rounds env builtInSeda 2 c ∧
      (Fresh c₁ c ↔ 2 = 1 ∧ (stageNamesOf builtInSeda).Nodup) := by
  obtain ⟨env, c₁, c, h₁, h, -, -⟩ := rounds_builtIn
  exact ⟨env, c₁, c, h₁, h, h₁.fresh_iff h⟩

end VulcanDB.Seda.Config
