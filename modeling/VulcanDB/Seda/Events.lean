import VulcanDB.Seda.View

/-!
# SEDA — Events and quiescence

What the ledgers say about the events and the calls of a process, in every state of every run.

* `events_kept`: a visit of a service thread finds an event, and the events leave a stage in the
  order in which they came.
* `disconnect_quiesces`: the reference count is exact, a pool is there where it is used, and a
  stage whose `disconnect` returns is left alone.
-/

namespace VulcanDB.Seda

open Steps

variable {σ ε : Type} [DecidableEq σ] {killer : σ → Bool}

/-! ### Assertions that hold -/

/-- What a failed assertion says: a queue that is empty at a visit, or a pool that is missing where
there is an event to be scheduled or handled. -/
inductive Failure (y : Sys σ ε) : Stop → Prop
  | noEvent {t : Thread σ ε} {s : σ} (ht : t ∈ y.threads) (hv : 0 < t.due s ∨ 0 < t.popped s)
      (hl : (y.stage s).eventList = []) : Failure y .noEvent
  | connected {s : σ} (hc : (y.stage s).connected = true) (hp : (y.stage s).thPool = none) :
      Failure y .noPool
  | noPool {t : Thread σ ε} {s : σ} (ht : t ∈ y.threads) (hv : 0 < t.due s ∨ 0 < t.held s)
      (hp : (y.stage s).thPool = none) : Failure y .noPool

omit [DecidableEq σ] in
@[simp] theorem thread_eq_error {y : Sys σ ε} {i : ℕ} {e : Stop} :
    y.thread i = .error e ↔ y.threads[i]? = none ∧ e = .disabled := by
  unfold Sys.thread
  cases y.threads[i]? <;> simp [eq_comm]

omit [DecidableEq σ] in
theorem failed_of_thread {α : Type} {y : Sys σ ε} {i : ℕ} {f : Thread σ ε → Except Stop α}
    {e : Stop} (h : y.thread i >>= f = .error e) (hd : e ≠ .disabled) :
    ∃ t, y.threads[i]? = some t ∧ f t = .error e := by
  simp only [bind_eq_error, thread_eq_error, hd, and_false, false_or, thread_eq_ok] at h
  exact h

section Functions

variable {y : Sys σ ε} {i : ℕ} {e : Stop}

/-! The functions with an assertion that may fail. -/

theorem failure_of_addEvent {s : σ} {event : ε} (h : addEvent y i s event = .error e)
    (hd : e ≠ .disabled) (hm : e ≠ .misuse) : Failure y e := by
  have hd' := hd.symm
  have hm' := hm.symm
  simp only [addEvent, bind_eq_error, thread_eq_error, hd, and_false, false_or,
    thread_eq_ok, require_eq_error, hd'] at h
  obtain ⟨t, -, -, -, h⟩ := h
  split at h
  · rename_i hc
    simp only [bind_eq_error, require_eq_error, pure_ne_error, and_false, exists_false,
      or_false, ne_eq, not_not] at h
    obtain ⟨hp, rfl⟩ := h
    exact .connected hc hp
  · cases h

theorem failure_of_schedule (h : schedule y i = .error e)
    (hd : e ≠ .disabled) : Failure y e := by
  have hd' := hd.symm
  obtain ⟨⟨p, w, c⟩, ht, h⟩ := failed_of_thread h hd
  have hmem := List.mem_of_getElem? ht
  split at h
  · rename_i s left connecting hcall
    obtain rfl : c = .scheduling s (left + 1) connecting := hcall
    have hdue : 0 < Thread.due s (⟨p, w, .scheduling s (left + 1) connecting⟩ : Thread σ ε) := by
      simp [Thread.due]
    split at h
    · rename_i hp
      obtain rfl := Except.error.inj h
      exact .noPool hmem (.inl hdue) hp
    · simp only [bind_eq_error, require_eq_error, pure_ne_error, and_false, exists_false,
        or_false, ne_eq, not_not] at h
      obtain ⟨hl, rfl⟩ := h
      exact .noEvent hmem (.inl hdue) hl
  · exact absurd (Except.error.inj h) hd'

theorem failure_of_removeEvent {callback : Bool} (h : removeEvent y i callback = .error e)
    (hd : e ≠ .disabled) : Failure y e := by
  have hd' := hd.symm
  obtain ⟨⟨p, w, c⟩, ht, h⟩ := failed_of_thread h hd
  cases w with
  | popped s =>
      simp only at h
      split at h
      · rename_i hl
        obtain rfl := Except.error.inj h
        refine .noEvent (List.mem_of_getElem? ht) (.inr ?_) hl
        simp [Thread.popped]
      · cases h
  | _ => exact absurd (Except.error.inj h) hd'

theorem failure_of_threadKill (h : threadKill killer y i = .error e)
    (hd : e ≠ .disabled) (hm : e ≠ .misuse) : Failure y e := by
  have hd' := hd.symm
  have hm' := hm.symm
  obtain ⟨⟨p, w, c⟩, ht, h⟩ := failed_of_thread h hd
  split at h
  · rename_i s event hwork
    obtain rfl : w = .handling s event false := hwork
    simp only [bind_eq_error, require_eq_error, pure_ne_error, and_false, exists_false,
      or_false, ne_eq, not_not, hd', false_or] at h
    obtain ⟨-, -, -, -, hp, rfl⟩ := h
    refine .noPool (List.mem_of_getElem? ht) (.inr ?_) hp
    simp [Thread.held]
  · exact absurd (Except.error.inj h) hd'

end Functions

/-- A step that is the thread's to take fails by a failed assertion. -/
theorem failure_of_step {y : Sys σ ε} {a : Action σ ε} {e : Stop} (h : step killer y a = .error e)
    (hd : e ≠ .disabled) (hm : e ≠ .misuse) : Failure y e := by
  have hd' := hd.symm
  have hm' := hm.symm
  cases a with
  | newPool => cases h
  | newThread pool => cases h
  | setPool i s p => simp [step, setPool, hd, hd', hm'] at h
  | connect i s => simp [step, connect, hd, hd', hm'] at h
  | disconnect i s => simp [step, disconnect, hd, hd', hm'] at h
  | initialized i success =>
      obtain ⟨⟨p, w, c⟩, -, h⟩ := failed_of_thread h hd
      cases c with
      | initializing s => cases success <;> cases h
      | _ => exact absurd (Except.error.inj h) hd'
  | wake i =>
      obtain ⟨⟨p, w, c⟩, -, h⟩ := failed_of_thread h hd
      cases c with
      | waiting s => cases h
      | _ => exact absurd (Except.error.inj h) hd'
  | addEvent i s event => exact failure_of_addEvent h hd hm
  | schedule i => exact failure_of_schedule h hd
  | push i =>
      obtain ⟨⟨p, w, c⟩, -, h⟩ := failed_of_thread h hd
      cases c with
      | pushing s pool left connecting =>
          simp only at h
          split at h
          · exact absurd (Except.error.inj h) hd'
          · cases h
      | _ => exact absurd (Except.error.inj h) hd'
  | finish i =>
      obtain ⟨t, -, h⟩ := failed_of_thread h hd
      split at h
      · cases h
      · exact absurd (Except.error.inj h) hd'
  | pop i =>
      obtain ⟨t, -, h⟩ := failed_of_thread h hd
      split at h
      · split at h
        · cases h
        · exact absurd (Except.error.inj h) hd'
      · exact absurd (Except.error.inj h) hd'
  | removeEvent i callback => exact failure_of_removeEvent h hd
  | handled i =>
      obtain ⟨⟨p, w, c⟩, -, h⟩ := failed_of_thread h hd
      cases w with
      | handling s event callback => simp [hd'] at h
      | _ => exact absurd (Except.error.inj h) hd'
  | threadKill i => exact failure_of_threadKill h hd hm
  | exit i =>
      obtain ⟨⟨p, w, c⟩, -, h⟩ := failed_of_thread h hd
      cases w with
      | killing s event => simp [hd'] at h
      | _ => exact absurd (Except.error.inj h) hd'

/-- **No assertion fails** where the ledgers are sound. -/
theorem not_failure {y : Sys σ ε} (h : ∀ s, (y.ledger s).Sound) {e : Stop} : ¬ Failure y e := by
  intro hf
  cases hf with
  | @noEvent t s ht hv hl =>
      have hq := (h s).queued
      have hdue : t.due s ≤ (y.ledger s).due := le_tally ht
      have hpopped : t.popped s ≤ (y.ledger s).popped := le_tally ht
      have hlen : (y.ledger s).queued = 0 := by rw [Sys.ledger, hl]; rfl
      omega
  | @connected s hc hp =>
      have hpool : (y.ledger s).pool = false := by rw [Sys.ledger, hp]; rfl
      have := ((h s).pool hpool).1
      rw [Sys.ledger, hc] at this
      cases this
  | @noPool t s ht hv hp =>
      have hpool : (y.ledger s).pool = false := by rw [Sys.ledger, hp]; rfl
      have hz := ((h s).pool hpool).2
      have href := (h s).ref
      have hdue : t.due s ≤ (y.ledger s).due := le_tally ht
      have hheld : t.held s ≤ (y.ledger s).held := le_tally ht
      omega

/-- **No step fails** in a sound state, apart from a misuse. -/
theorem step_ne_error {y : Sys σ ε} (h : ∀ s, (y.ledger s).Sound) (a : Action σ ε) {e : Stop}
    (hd : e ≠ .disabled) (hm : e ≠ .misuse) : step killer y a ≠ .error e :=
  fun he => not_failure h (failure_of_step he hd hm)

/-! ### The order of events -/

/-- The events added to a stage, in order. -/
def added (s : σ) (ls : List (Label σ ε)) : List ε :=
  ls.filterMap fun
    | .added s' event => if s' = s then some event else none
    | _ => none

/-- The events removed from a stage, in order. -/
def removed (s : σ) (ls : List (Label σ ε)) : List ε :=
  ls.filterMap fun
    | .removed s' event => if s' = s then some event else none
    | _ => none

theorem added_append (s : σ) (ls ls' : List (Label σ ε)) :
    added s (ls ++ ls') = added s ls ++ added s ls' := List.filterMap_append

theorem removed_append (s : σ) (ls ls' : List (Label σ ε)) :
    removed s (ls ++ ls') = removed s ls ++ removed s ls' := List.filterMap_append

/-- What a step that neither adds nor removes leaves of a queue. -/
theorem eventList_setStage (y : Sys σ ε) {s : σ} {st : StageState ε}
    (h : st.eventList = (y.stage s).eventList) (s' : σ) :
    ((y.setStage s st).stage s').eventList = (y.stage s').eventList := by
  by_cases hs : s = s'
  · subst hs; rw [setStage_self, h]
  · rw [setStage_of_ne hs]

/-- An addition is at the end of its queue. -/
theorem addEvent_eventList {y y' : Sys σ ε} {i : ℕ} {s : σ} {event : ε}
    (h : step killer y (.addEvent i s event) = .ok y') (s' : σ) :
    (y'.stage s').eventList =
      (y.stage s').eventList ++ if s = s' then [event] else [] := by
  have hset : ∀ st : StageState ε, st.eventList = (y.stage s).eventList ++ [event] →
      ((y.setStage s st).stage s').eventList =
        (y.stage s').eventList ++ if s = s' then [event] else [] := by
    intro st hst
    by_cases hs : s = s'
    · subst hs; rw [setStage_self, if_pos rfl, hst]
    · rw [setStage_of_ne hs, if_neg hs, List.append_nil]
  cases moves_of_step h with
  | add ht hc => exact hset _ rfl
  | store hc => exact hset _ rfl

theorem removeEvent_eventList {y y' : Sys σ ε} {i : ℕ} {callback : Bool}
    (h : step killer y (.removeEvent i callback) = .ok y') (s' : σ) :
    (y.stage s').eventList = removed s' (removal y i) ++ (y'.stage s').eventList := by
  cases moves_of_step h with
  | @removeEvent _ _ s _ _ event es ht hl =>
      have hremoval : removal y i = [.removed s event] := by simp [removal, ht, hl]
      rw [hremoval, setThread_stage]
      by_cases hs : s = s'
      · subst hs; simp [removed, setStage_self, hl]
      · simp [removed, setStage_of_ne hs, hs]

/-- Every other step leaves the queues. -/
theorem eventList_kept {y y' : Sys σ ε} {a : Action σ ε} (h : step killer y a = .ok y')
    (ha : ∀ i s event, a ≠ .addEvent i s event) (ha' : ∀ i callback, a ≠ .removeEvent i callback)
    (s : σ) : (y'.stage s).eventList = (y.stage s).eventList := by
  cases moves_of_step h with
  | add => exact absurd rfl (ha _ _ _)
  | store => exact absurd rfl (ha _ _ _)
  | removeEvent => exact absurd rfl (ha' _ _)
  | setPool | connected | disconnect | disconnected | quiesced | handled | exit =>
      exact eventList_setStage y (by rfl) s
  | newPool | newThread | connect | refused | wait | schedule | push | finish | pop | threadKill =>
      rfl

/-- A step adds at the end of a queue and removes at its front. -/
theorem eventList_step {y y' : Sys σ ε} {a : Action σ ε} (h : step killer y a = .ok y') (s : σ) :
    (y.stage s).eventList ++ added s (label y a) =
      removed s (label y a) ++ (y'.stage s).eventList := by
  cases a with
  | addEvent i s' event =>
      rw [addEvent_eventList h]
      by_cases hs : s' = s <;> simp [label, added, removed, hs]
  | removeEvent i callback =>
      have hnone : added s (removal y i) = [] := by
        unfold removal
        split
        · cases (y.stage _).eventList <;> rfl
        · rfl
      rw [show label y (.removeEvent i callback) = removal y i from rfl, hnone, List.append_nil]
      exact removeEvent_eventList h s
  | _ =>
      rw [eventList_kept h (by simp) (by simp) s]
      exact List.append_nil _

/-- **Events leave a stage in the order in which they came**, each of them once. -/
theorem added_of_runs {ls : List (Label σ ε)} {y : Sys σ ε} (h : Runs killer ls y) (s : σ) :
    added s ls = removed s ls ++ (y.stage s).eventList := by
  refine h.invariant (P := fun ls y => added s ls = removed s ls ++ (y.stage s).eventList) rfl ?_
  intro ls y a y' ih hs
  have hstep : _ ++ added s (label y a) = _ := eventList_step hs s
  calc added s (ls ++ label y a)
      = removed s ls ++ ((y.stage s).eventList ++ added s (label y a)) := by
        rw [added_append, ih, List.append_assoc]
    _ = removed s (ls ++ label y a) ++ (y'.stage s).eventList := by
        rw [hstep, removed_append, List.append_assoc]

/-! ### No event is lost -/

/-- **No event is lost, duplicated or taken from an empty queue.** -/
theorem events_kept {ls : List (Label σ ε)} {y : Sys σ ε} (h : Runs killer ls y) :
    (∀ s, tally (Thread.due s) y.threads + tally (List.count s) y.runQueues +
        tally (Thread.popped s) y.threads ≤ (y.stage s).eventList.length) ∧
    (∀ a, step killer y a ≠ .error .noEvent) ∧
    ∀ s, added s ls = removed s ls ++ (y.stage s).eventList :=
  ⟨fun s => (sound_of_runs h s).queued,
    fun a => step_ne_error (sound_of_runs h) a (by simp) (by simp), added_of_runs h⟩

/-- An event stored before `connect`, another added after it, and a worker that has the first. -/
def backlogAndWorker : List (Action Bool ℕ) :=
  [.newPool, .newThread (some 0), .newThread none, .setPool 1 false 0, .addEvent 1 false 7,
    .connect 1 false, .initialized 1 true, .schedule 1, .push 1, .finish 1, .addEvent 1 false 8,
    .pop 0, .removeEvent 0 false]

/-- A backlog that is scheduled at the connect. -/
theorem events_kept_backlog : ∃ ls y, exec (machine id) .new backlogAndWorker = .ok (ls, y) ∧
    (tally (Thread.due false) y.threads + tally (List.count false) y.runQueues +
        tally (Thread.popped false) y.threads ≤ (y.stage false).eventList.length) ∧
    step id y (.schedule 1) ≠ .error .noEvent ∧
    added false ls = removed false ls ++ (y.stage false).eventList ∧
    added false ls = [7, 8] ∧ removed false ls = [7] := by
  refine ⟨_, _, rfl, ?_⟩
  have hrun : Runs id _ _ := Run.exec backlogAndWorker .start rfl
  have h := events_kept hrun
  exact ⟨h.1 false, h.2.1 _, h.2.2 false, rfl, rfl⟩

/-! ### A stage that is left alone -/

/-- The step from `y` to `y'` ends a call of `disconnect` of `s`. -/
def Disconnected (y : Sys σ ε) (s : σ) (a : Action σ ε) (y' : Sys σ ε) : Prop :=
  ∃ i t t', y.threads[i]? = some t ∧ y'.threads[i]? = some t' ∧ t'.call = .idle ∧
    (a = .disconnect i s ∨ a = .wake i ∧ t.call = .waiting s)

/-- The loop of `disconnect` ends at a count that is not positive. -/
theorem quiesce_idle {y : Sys σ ε} {i : ℕ} {t t' : Thread σ ε} {s : σ}
    (ht : (quiesce y i t s).threads[i]? = some t') (hidle : t'.call = .idle) :
    ((quiesce y i t s).stage s).eventRef ≤ 0 := by
  unfold quiesce at ht ⊢
  split
  · rename_i hpos
    rw [if_pos hpos, Sys.setThread, List.getElem?_set_self'] at ht
    obtain ⟨u, hu, rfl⟩ := Option.map_eq_some_iff.mp ht
    cases hidle
  · rename_i hpos
    simp only [Sys.setThread, setStage_self]
    omega

theorem Disconnected.eventRef_le {y y' : Sys σ ε} {s : σ} {a : Action σ ε}
    (hd : Disconnected y s a y') (h : step killer y a = .ok y') : (y'.stage s).eventRef ≤ 0 := by
  obtain ⟨i, t, t', ht, ht', hidle, rfl | ⟨rfl, hw⟩⟩ := hd
  · simp only [step, disconnect, bind_eq_ok, require_eq_ok, pure_eq_ok] at h
    obtain ⟨u, -, -, -, -, -, -, -, rfl⟩ := h
    exact quiesce_idle ht' hidle
  · obtain ⟨p, w, c⟩ := t
    obtain rfl : c = .waiting s := hw
    simp only [step, wake, bind_eq_ok, thread_eq_ok, ht, Option.some.injEq, exists_eq_left',
      pure_eq_ok] at h
    subst h
    exact quiesce_idle ht' hidle

/-- Where `disconnect` returns, no visit is on its way and no event is held. -/
theorem Disconnected.quiet {ls : List (Label σ ε)} {y y' : Sys σ ε} {s : σ} {a : Action σ ε}
    (hd : Disconnected y s a y') (hr : Runs killer ls y) (h : step killer y a = .ok y') :
    (∀ t ∈ y'.threads, t.due s = 0 ∧ t.popped s = 0 ∧ t.held s = 0) ∧
      ∀ q ∈ y'.runQueues, s ∉ q := by
  have hsound := sound_of_runs (Run.next hr h) s
  have hzero : (y'.ledger s).ref = 0 := le_antisymm (hd.eventRef_le h) hsound.ref_nonneg
  obtain ⟨hdue, hscheduled, hpopped, hheld⟩ := hsound.quiesced hzero
  refine ⟨fun t ht => ⟨tally_eq_zero.mp hdue t ht, tally_eq_zero.mp hpopped t ht,
    tally_eq_zero.mp hheld t ht⟩, fun q hq => ?_⟩
  exact List.count_eq_zero.mp (tally_eq_zero.mp hscheduled q hq)

/-- **Disconnect quiesces a stage**, and until then the stage has its pool and counts its events. -/
theorem disconnect_quiesces {ls : List (Label σ ε)} {y : Sys σ ε} (h : Runs killer ls y) :
    (∀ s, (y.stage s).eventRef = tally (Thread.due s) y.threads + tally (List.count s) y.runQueues +
        tally (Thread.popped s) y.threads + tally (Thread.held s) y.threads ∧
      0 ≤ (y.stage s).eventRef) ∧
    (∀ a, step killer y a ≠ .error .noPool) ∧
    ∀ s a y', step killer y a = .ok y' → Disconnected y s a y' →
      (∀ t ∈ y'.threads, t.due s = 0 ∧ t.popped s = 0 ∧ t.held s = 0) ∧
        ∀ q ∈ y'.runQueues, s ∉ q :=
  ⟨fun s => ⟨(sound_of_runs h s).ref, (sound_of_runs h s).ref_nonneg⟩,
    fun a => step_ne_error (sound_of_runs h) a (by simp) (by simp),
    fun _ _ _ hs hd => hd.quiet h hs⟩

/-- A `KillThreadStage` disconnected while its handler runs: the thread releases the event and
exits. -/
def killAndDisconnect : List (Action Bool ℕ) :=
  [.newPool, .newThread (some 0), .newThread none, .setPool 1 true 0, .connect 1 true,
    .initialized 1 true, .finish 1, .addEvent 1 true 7, .schedule 1, .push 1, .finish 1, .pop 0,
    .removeEvent 0 false, .threadKill 0, .disconnect 1 true, .exit 0]

/-- A disconnect while a thread is killed. -/
theorem disconnect_quiesces_kill : ∃ ls y y',
    exec (machine id) .new killAndDisconnect = .ok (ls, y) ∧ step id y (.wake 1) = .ok y' ∧
    (y.stage true).eventRef = 0 ∧ (∀ t ∈ y'.threads, t.due true = 0 ∧ t.popped true = 0 ∧
      t.held true = 0) ∧ ∀ q ∈ y'.runQueues, true ∉ q := by
  refine ⟨_, _, _, rfl, rfl, rfl, ?_⟩
  have hrun : Runs id _ _ := Run.exec killAndDisconnect .start rfl
  have h := disconnect_quiesces hrun
  exact h.2.2 true (.wake 1) _ rfl ⟨1, _, _, rfl, rfl, rfl, .inr ⟨rfl, rfl⟩⟩

end VulcanDB.Seda
