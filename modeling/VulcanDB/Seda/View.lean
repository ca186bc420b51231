import VulcanDB.Seda.Stages
import VulcanDB.Seda.Ledger

/-!
# SEDA — Every stage keeps its ledger

The ledger of a stage is read off the threads and the run queues.  A step of the machine is one
step of the ledger, or none, for every stage.

* `moves_of_step`: what each step needs, and what it does.
* `ledger_step`: the step of the ledger.
* `sound_of_runs`: so the ledgers are sound in every state that is reached.
-/

namespace VulcanDB.Seda

open Steps Relation

variable {σ ε : Type} [DecidableEq σ]

/-! ### What a step does -/

/-- The steps, with what each needs. -/
inductive Moves (killer : σ → Bool) (y : Sys σ ε) : Action σ ε → Sys σ ε → Prop
  | newPool : Moves killer y .newPool { y with runQueues := y.runQueues ++ [[]] }
  | newThread {pool} :
      Moves killer y (.newThread pool) { y with threads := y.threads ++ [.new pool] }
  | setPool {i s p} (hc : (y.stage s).connected = false) :
      Moves killer y (.setPool i s p) (y.setStage s { y.stage s with thPool := some p })
  | connect {i s p w} (ht : y.threads[i]? = some ⟨p, w, .idle⟩) (hfree : y.controllers s = 0)
      (hc : (y.stage s).connected = false) (hpool : (y.stage s).thPool ≠ none) :
      Moves killer y (.connect i s) (y.setThread i ⟨p, w, .initializing s⟩)
  | connected {i s p w} (ht : y.threads[i]? = some ⟨p, w, .initializing s⟩) :
      Moves killer y (.initialized i true)
        ((y.setStage s { y.stage s with
            eventRef := ((y.stage s).eventList.length % 2 ^ 32 : ℕ),
            connected := true }).setThread i
          ⟨p, w, .scheduling s ((y.stage s).eventList.length % 2 ^ 32) true⟩)
  | refused {i s p w} (ht : y.threads[i]? = some ⟨p, w, .initializing s⟩) :
      Moves killer y (.initialized i false) (y.setThread i ⟨p, w, .idle⟩)
  | disconnect {i s p w} (ht : y.threads[i]? = some ⟨p, w, .idle⟩) (hfree : y.controllers s = 0)
      (hc : (y.stage s).connected = true) (hr : 0 < (y.stage s).eventRef) :
      Moves killer y (.disconnect i s)
        ((y.setStage s { y.stage s with connected := false }).setThread i ⟨p, w, .waiting s⟩)
  | disconnected {i s p w} (ht : y.threads[i]? = some ⟨p, w, .idle⟩) (hfree : y.controllers s = 0)
      (hc : (y.stage s).connected = true) (hr : ¬ 0 < (y.stage s).eventRef) :
      Moves killer y (.disconnect i s)
        ((y.setStage s { y.stage s with connected := false, thPool := none }).setThread i
          ⟨p, w, .idle⟩)
  | wait {i s p w} (ht : y.threads[i]? = some ⟨p, w, .waiting s⟩)
      (hr : 0 < (y.stage s).eventRef) : Moves killer y (.wake i) y
  | quiesced {i s p w} (ht : y.threads[i]? = some ⟨p, w, .waiting s⟩)
      (hr : ¬ 0 < (y.stage s).eventRef) :
      Moves killer y (.wake i)
        ((y.setStage s { y.stage s with thPool := none }).setThread i ⟨p, w, .idle⟩)
  | add {i s event p w} (ht : y.threads[i]? = some ⟨p, w, .idle⟩)
      (hc : (y.stage s).connected = true) :
      Moves killer y (.addEvent i s event)
        ((y.setStage s { y.stage s with
            eventList := (y.stage s).eventList ++ [event],
            eventRef := (y.stage s).eventRef + 1 }).setThread i ⟨p, w, .scheduling s 1 false⟩)
  | store {i s event} (hc : (y.stage s).connected = false) :
      Moves killer y (.addEvent i s event)
        (y.setStage s { y.stage s with eventList := (y.stage s).eventList ++ [event] })
  | schedule {i s p w left connecting pool}
      (ht : y.threads[i]? = some ⟨p, w, .scheduling s (left + 1) connecting⟩) :
      Moves killer y (.schedule i) (y.setThread i ⟨p, w, .pushing s pool left connecting⟩)
  | push {i s p w left connecting pool q}
      (ht : y.threads[i]? = some ⟨p, w, .pushing s pool left connecting⟩)
      (hq : y.runQueues[pool]? = some q) :
      Moves killer y (.push i) { y.setThread i ⟨p, w, .scheduling s left connecting⟩ with
        runQueues := y.runQueues.set pool (q ++ [s]) }
  | finish {i s p w connecting} (ht : y.threads[i]? = some ⟨p, w, .scheduling s 0 connecting⟩) :
      Moves killer y (.finish i) (y.setThread i ⟨p, w, .idle⟩)
  | pop {i s p c pool q} (ht : y.threads[i]? = some ⟨p, .idle, c⟩)
      (hq : y.runQueues[pool]? = some (s :: q)) :
      Moves killer y (.pop i) { y.setThread i ⟨p, .popped s, c⟩ with
        runQueues := y.runQueues.set pool q }
  | removeEvent {i callback s p c event es} (ht : y.threads[i]? = some ⟨p, .popped s, c⟩)
      (hl : (y.stage s).eventList = event :: es) :
      Moves killer y (.removeEvent i callback)
        ((y.setStage s { y.stage s with eventList := es }).setThread i
          ⟨p, .handling s event callback, c⟩)
  | handled {i s p c event callback}
      (ht : y.threads[i]? = some ⟨p, .handling s event callback, c⟩) :
      Moves killer y (.handled i)
        ((y.setStage s { y.stage s with eventRef := (y.stage s).eventRef - 1 }).setThread i
          ⟨p, .idle, c⟩)
  | threadKill {i s p c event} (ht : y.threads[i]? = some ⟨p, .handling s event false, c⟩) :
      Moves killer y (.threadKill i) (y.setThread i ⟨p, .killing s event, c⟩)
  | exit {i s p c event} (ht : y.threads[i]? = some ⟨p, .killing s event, c⟩) :
      Moves killer y (.exit i)
        ((y.setStage s { y.stage s with eventRef := (y.stage s).eventRef - 1 }).setThread i
          ⟨p, .exited, c⟩)

theorem setStage_self (y : Sys σ ε) (s : σ) (st : StageState ε) : (y.setStage s st).stage s = st :=
  Function.update_self ..

theorem setStage_of_ne {s s' : σ} (h : s ≠ s') (y : Sys σ ε) (st : StageState ε) :
    (y.setStage s st).stage s' = y.stage s' :=
  Function.update_of_ne h.symm ..

omit [DecidableEq σ] in
theorem thread_eq_ok {y : Sys σ ε} {i : ℕ} {t : Thread σ ε} :
    y.thread i = .ok t ↔ y.threads[i]? = some t := by
  unfold Sys.thread
  cases y.threads[i]? <;> simp

omit [DecidableEq σ] in
theorem Thread.CanCall.idle {t : Thread σ ε} (h : t.CanCall) : t.call = .idle := by
  obtain ⟨p, w, c⟩ := t
  cases c with
  | idle => rfl
  | _ => cases h.1

theorem setStage_setStage (y : Sys σ ε) (s : σ) (st st' : StageState ε) :
    (y.setStage s st).setStage s st' = y.setStage s st' := by
  unfold Sys.setStage
  rw [Function.update_idem]

omit [DecidableEq σ] in
theorem setThread_self {y : Sys σ ε} {i : ℕ} {t : Thread σ ε} (h : y.threads[i]? = some t) :
    y.setThread i t = y := by
  obtain ⟨hi, rfl⟩ := List.getElem?_eq_some_iff.mp h
  unfold Sys.setThread
  rw [List.set_getElem_self hi]

section Functions

variable {killer : σ → Bool} {y y' : Sys σ ε} {i : ℕ}

/-! Each function of the source, by the moves it makes. -/

theorem moves_of_setPool {s : σ} {p : ℕ} (h : setPool y i s p = .ok y') :
    Moves killer y (.setPool i s p) y' := by
  simp only [setPool, bind_eq_ok, require_eq_ok, pure_eq_ok] at h
  obtain ⟨-, -, -, -, -, -, -, hc, rfl⟩ := h
  exact .setPool hc

theorem moves_of_connect {s : σ} (h : connect y i s = .ok y') :
    Moves killer y (.connect i s) y' := by
  simp only [connect, bind_eq_ok, thread_eq_ok, require_eq_ok, pure_eq_ok] at h
  obtain ⟨⟨p, w, c⟩, ht, -, hcan, -, hfree, -, hc, -, hpool, rfl⟩ := h
  obtain rfl : c = .idle := hcan.idle
  exact .connect ht hfree hc hpool

theorem moves_of_initialized {success : Bool} (h : initialized y i success = .ok y') :
    Moves killer y (.initialized i success) y' := by
  simp only [initialized, bind_eq_ok, thread_eq_ok] at h
  obtain ⟨⟨p, w, c⟩, ht, h⟩ := h
  cases c with
  | initializing s =>
      cases success with
      | true =>
          obtain rfl := pure_eq_ok.mp h
          exact .connected ht
      | false =>
          obtain rfl := pure_eq_ok.mp h
          exact .refused ht
  | _ => cases h

theorem moves_of_disconnect {s : σ} (h : disconnect y i s = .ok y') :
    Moves killer y (.disconnect i s) y' := by
  simp only [disconnect, quiesce, bind_eq_ok, thread_eq_ok, require_eq_ok, pure_eq_ok,
    setStage_self, setStage_setStage] at h
  obtain ⟨⟨p, w, c⟩, ht, -, hcan, -, hfree, -, hc, rfl⟩ := h
  obtain rfl : c = .idle := hcan.idle
  split
  · exact .disconnect ht hfree hc ‹_›
  · exact .disconnected ht hfree hc ‹_›

theorem moves_of_wake (h : wake y i = .ok y') :
    Moves killer y (.wake i) y' := by
  simp only [wake, quiesce, bind_eq_ok, thread_eq_ok] at h
  obtain ⟨⟨p, w, c⟩, ht, h⟩ := h
  cases c with
  | waiting s =>
      obtain rfl := pure_eq_ok.mp h
      split
      · rw [setThread_self ht]
        exact .wait ht ‹_›
      · exact .quiesced ht ‹_›
  | _ => cases h

theorem moves_of_addEvent {s : σ} {event : ε} (h : addEvent y i s event = .ok y') :
    Moves killer y (.addEvent i s event) y' := by
  simp only [addEvent, bind_eq_ok, thread_eq_ok, require_eq_ok] at h
  obtain ⟨⟨p, w, c⟩, ht, -, hcan, h⟩ := h
  obtain rfl : c = .idle := hcan.idle
  split at h
  · rename_i hc
    simp only [bind_eq_ok, require_eq_ok, pure_eq_ok] at h
    obtain ⟨-, -, rfl⟩ := h
    exact .add ht hc
  · rename_i hc
    obtain rfl := pure_eq_ok.mp h
    exact .store (Bool.eq_false_iff.mpr hc)

theorem moves_of_schedule (h : schedule y i = .ok y') :
    Moves killer y (.schedule i) y' := by
  simp only [schedule, bind_eq_ok, thread_eq_ok] at h
  obtain ⟨⟨p, w, c⟩, ht, h⟩ := h
  split at h
  · rename_i s left connecting hcall
    obtain rfl : c = .scheduling s (left + 1) connecting := hcall
    split at h
    · cases h
    · simp only [bind_eq_ok, require_eq_ok, pure_eq_ok] at h
      obtain ⟨-, -, rfl⟩ := h
      exact .schedule ht
  · cases h

theorem moves_of_push (h : push y i = .ok y') :
    Moves killer y (.push i) y' := by
  simp only [push, bind_eq_ok, thread_eq_ok] at h
  obtain ⟨⟨p, w, c⟩, ht, h⟩ := h
  cases c with
  | pushing s pool left connecting =>
      simp only at h
      split at h
      · cases h
      · rename_i q hq
        obtain rfl := pure_eq_ok.mp h
        exact .push ht hq
  | _ => cases h

theorem moves_of_finish (h : finish y i = .ok y') :
    Moves killer y (.finish i) y' := by
  simp only [finish, bind_eq_ok, thread_eq_ok] at h
  obtain ⟨⟨p, w, c⟩, ht, h⟩ := h
  split at h
  · rename_i s connecting hcall
    obtain rfl : c = .scheduling s 0 connecting := hcall
    obtain rfl := pure_eq_ok.mp h
    exact .finish ht
  · cases h

theorem moves_of_pop (h : pop y i = .ok y') :
    Moves killer y (.pop i) y' := by
  simp only [pop, bind_eq_ok, thread_eq_ok] at h
  obtain ⟨⟨p, w, c⟩, ht, h⟩ := h
  split at h
  · rename_i pool _ hwork
    obtain rfl : w = .idle := hwork
    split at h
    · rename_i s q hq
      obtain rfl := pure_eq_ok.mp h
      exact .pop ht hq
    · cases h
  · cases h

theorem moves_of_removeEvent {callback : Bool} (h : removeEvent y i callback = .ok y') :
    Moves killer y (.removeEvent i callback) y' := by
  simp only [removeEvent, bind_eq_ok, thread_eq_ok] at h
  obtain ⟨⟨p, w, c⟩, ht, h⟩ := h
  cases w with
  | popped s =>
      simp only at h
      split at h
      · cases h
      · rename_i event es hl
        obtain rfl := pure_eq_ok.mp h
        exact .removeEvent ht hl
  | _ => cases h

theorem moves_of_handled (h : handled killer y i = .ok y') :
    Moves killer y (.handled i) y' := by
  simp only [handled, bind_eq_ok, thread_eq_ok] at h
  obtain ⟨⟨p, w, c⟩, ht, h⟩ := h
  cases w with
  | handling s event callback =>
      simp only [bind_eq_ok, require_eq_ok, pure_eq_ok] at h
      obtain ⟨-, -, -, -, rfl⟩ := h
      exact .handled ht
  | _ => cases h

theorem moves_of_threadKill (h : threadKill killer y i = .ok y') :
    Moves killer y (.threadKill i) y' := by
  simp only [threadKill, bind_eq_ok, thread_eq_ok] at h
  obtain ⟨⟨p, w, c⟩, ht, h⟩ := h
  split at h
  · rename_i s event hwork
    obtain rfl : w = .handling s event false := hwork
    simp only [bind_eq_ok, require_eq_ok, pure_eq_ok] at h
    obtain ⟨-, -, -, -, -, -, rfl⟩ := h
    exact .threadKill ht
  · cases h

theorem moves_of_exit (h : exit y i = .ok y') :
    Moves killer y (.exit i) y' := by
  simp only [exit, bind_eq_ok, thread_eq_ok] at h
  obtain ⟨⟨p, w, c⟩, ht, h⟩ := h
  cases w with
  | killing s event =>
      simp only [bind_eq_ok, require_eq_ok, pure_eq_ok] at h
      obtain ⟨-, -, rfl⟩ := h
      exact .exit ht
  | _ => cases h

end Functions

/-- **What each step needs, and what it does.** -/
theorem moves_of_step {killer : σ → Bool} {y y' : Sys σ ε} {a : Action σ ε}
    (h : step killer y a = .ok y') : Moves killer y a y' := by
  cases a with
  | newPool =>
      obtain rfl := Except.ok.inj h
      exact .newPool
  | newThread pool =>
      obtain rfl := Except.ok.inj h
      exact .newThread
  | setPool i s p => exact moves_of_setPool h
  | connect i s => exact moves_of_connect h
  | initialized i success => exact moves_of_initialized h
  | disconnect i s => exact moves_of_disconnect h
  | wake i => exact moves_of_wake h
  | addEvent i s event => exact moves_of_addEvent h
  | schedule i => exact moves_of_schedule h
  | push i => exact moves_of_push h
  | finish i => exact moves_of_finish h
  | pop i => exact moves_of_pop h
  | removeEvent i callback => exact moves_of_removeEvent h
  | handled i => exact moves_of_handled h
  | threadKill i => exact moves_of_threadKill h
  | exit i => exact moves_of_exit h

/-- The thread has taken the stage from its run queue. -/
def Thread.popped (s : σ) (t : Thread σ ε) : ℕ :=
  match t.work with
  | .popped s' => if s' = s then 1 else 0
  | _ => 0

/-- The thread has removed an event from the queue of `s` and not released it. -/
def Thread.held (s : σ) (t : Thread σ ε) : ℕ :=
  match t.work with
  | .handling s' _ _ => if s' = s then 1 else 0
  | .killing s' _ => if s' = s then 1 else 0
  | _ => 0

/-- **The ledger of a stage**: what the threads do with it, counted. -/
def Sys.ledger (y : Sys σ ε) (s : σ) : Ledger where
  queued := (y.stage s).eventList.length
  connected := (y.stage s).connected
  ref := (y.stage s).eventRef
  pool := (y.stage s).thPool.isSome
  due := tally (Thread.due s) y.threads
  scheduled := tally (List.count s) y.runQueues
  popped := tally (Thread.popped s) y.threads
  held := tally (Thread.held s) y.threads
  starting := tally (Thread.starting s) y.threads
  looping := tally (Thread.looping s) y.threads
  waiting := tally (Thread.waiting s) y.threads

/-! ### One thread changed -/

/-- What the other threads count for a stage. -/
structure Rest where
  due : ℕ
  popped : ℕ
  held : ℕ
  starting : ℕ
  looping : ℕ
  waiting : ℕ

/-- The ledger of a stage in the state `st`, with what `t` counts for it apart. -/
def Rest.ledger (r : Rest) (s : σ) (st : StageState ε) (scheduled : ℕ) (t : Thread σ ε) :
    Ledger where
  queued := st.eventList.length
  connected := st.connected
  ref := st.eventRef
  pool := st.thPool.isSome
  due := r.due + t.due s
  scheduled := scheduled
  popped := r.popped + t.popped s
  held := r.held + t.held s
  starting := r.starting + t.starting s
  looping := r.looping + t.looping s
  waiting := r.waiting + t.waiting s

/-- The ledger of a stage, with what `t` counts for it apart. -/
def Rest.ledgerOf (r : Rest) (y : Sys σ ε) (s : σ) (t : Thread σ ε) : Ledger :=
  r.ledger s (y.stage s) (tally (List.count s) y.runQueues) t

/-- What one element counts, apart from the rest. -/
theorem tally_rest {α : Type} (f : α → ℕ) {l : List α} {i : ℕ} {x : α} (h : l[i]? = some x) :
    ∃ r, ∀ y, tally f (l.set i y) = r + f y := by
  have hx := le_tally (f := f) (List.mem_of_getElem? h)
  refine ⟨tally f l - f x, fun y => ?_⟩
  have := tally_set f h y
  omega

/-- The ledgers that are the same but for one thread. -/
theorem exists_rest {y : Sys σ ε} {i : ℕ} {t : Thread σ ε} (h : y.threads[i]? = some t) (s : σ) :
    ∃ r : Rest, ∀ (t' : Thread σ ε) (y' : Sys σ ε),
      (y'.threads = y.threads ∧ t' = t) ∨ y'.threads = y.threads.set i t' →
        y'.ledger s = r.ledgerOf y' s t' := by
  obtain ⟨d, hd⟩ := tally_rest (Thread.due s) h
  obtain ⟨p, hp⟩ := tally_rest (Thread.popped s) h
  obtain ⟨e, he⟩ := tally_rest (Thread.held s) h
  obtain ⟨a, ha⟩ := tally_rest (Thread.starting s) h
  obtain ⟨b, hb⟩ := tally_rest (Thread.looping s) h
  obtain ⟨w, hw⟩ := tally_rest (Thread.waiting s) h
  refine ⟨⟨d, p, e, a, b, w⟩, fun t' y' hy' => ?_⟩
  have hset : y'.threads = y.threads.set i t' := by
    rcases hy' with ⟨hy', rfl⟩ | hy'
    · obtain ⟨hi, rfl⟩ := List.getElem?_eq_some_iff.mp h
      rw [hy', List.set_getElem_self hi]
    · exact hy'
  rw [Sys.ledger, hset, hd, hp, he, ha, hb, hw, Rest.ledgerOf, Rest.ledger]

/-- Only the calls of a stage count for it. -/
def Call.Of (s : σ) : Call σ → Prop
  | .idle => True
  | .initializing s' => s' = s
  | .scheduling s' _ _ => s' = s
  | .pushing s' _ _ _ => s' = s
  | .waiting s' => s' = s

/-- Only the work at a stage counts for it. -/
def Work.At (s : σ) : Work σ ε → Prop
  | .popped s' => s' = s
  | .handling s' _ _ => s' = s
  | .killing s' _ => s' = s
  | _ => True

section Counts

variable {s : σ} {p : Option ℕ} {w : Work σ ε} {c : Call σ}

theorem due_scheduling {left : ℕ} {connecting : Bool} :
    Thread.due s (⟨p, w, .scheduling s left connecting⟩ : Thread σ ε) = left := if_pos rfl

theorem due_pushing {pool left : ℕ} {connecting : Bool} :
    Thread.due s (⟨p, w, .pushing s pool left connecting⟩ : Thread σ ε) = left + 1 := if_pos rfl

theorem starting_initializing :
    Thread.starting s (⟨p, w, .initializing s⟩ : Thread σ ε) = 1 := if_pos rfl

theorem looping_scheduling {left : ℕ} :
    Thread.looping s (⟨p, w, .scheduling s left true⟩ : Thread σ ε) = 1 := if_pos rfl

theorem waiting_waiting : Thread.waiting s (⟨p, w, .waiting s⟩ : Thread σ ε) = 1 := if_pos rfl

theorem popped_popped : Thread.popped s (⟨p, .popped s, c⟩ : Thread σ ε) = 1 := if_pos rfl

theorem held_handling {event : ε} {callback : Bool} :
    Thread.held s (⟨p, .handling s event callback, c⟩ : Thread σ ε) = 1 := if_pos rfl

theorem held_killing {event : ε} :
    Thread.held s (⟨p, .killing s event, c⟩ : Thread σ ε) = 1 := if_pos rfl

omit [DecidableEq σ] in
theorem setThread_stage {y : Sys σ ε} {i : ℕ} {t : Thread σ ε} :
    (y.setThread i t).stage = y.stage := rfl

end Counts

/-- A call of one stage counts for no other. -/
theorem Call.Of.counts {s s' : σ} {c : Call σ} (hc : c.Of s) (hs : s ≠ s') (p : Option ℕ)
    (w : Work σ ε) : Thread.due s' ⟨p, w, c⟩ = 0 ∧ Thread.starting s' ⟨p, w, c⟩ = 0 ∧
      Thread.looping s' ⟨p, w, c⟩ = 0 ∧ Thread.waiting s' ⟨p, w, c⟩ = 0 := by
  cases c with
  | idle => exact ⟨rfl, rfl, rfl, rfl⟩
  | initializing s =>
      obtain rfl := hc
      exact ⟨rfl, if_neg hs, rfl, rfl⟩
  | scheduling s left connecting =>
      obtain rfl := hc
      cases connecting with
      | false => exact ⟨if_neg hs, rfl, rfl, rfl⟩
      | true => exact ⟨if_neg hs, rfl, if_neg hs, rfl⟩
  | pushing s pool left connecting =>
      obtain rfl := hc
      cases connecting with
      | false => exact ⟨if_neg hs, rfl, rfl, rfl⟩
      | true => exact ⟨if_neg hs, rfl, if_neg hs, rfl⟩
  | waiting s =>
      obtain rfl := hc
      exact ⟨rfl, rfl, rfl, if_neg hs⟩

theorem Work.At.counts {s s' : σ} {w : Work σ ε} (hw : w.At s) (hs : s ≠ s') (p : Option ℕ)
    (c : Call σ) : Thread.popped s' ⟨p, w, c⟩ = 0 ∧ Thread.held s' ⟨p, w, c⟩ = 0 := by
  cases w with
  | idle => exact ⟨rfl, rfl⟩
  | popped s =>
      obtain rfl := hw
      exact ⟨if_neg hs, rfl⟩
  | handling s event callback =>
      obtain rfl := hw
      exact ⟨rfl, if_neg hs⟩
  | killing s event =>
      obtain rfl := hw
      exact ⟨rfl, if_neg hs⟩
  | exited => exact ⟨rfl, rfl⟩

/-- The step from `y` to `y'` takes thread `i` from `t` to `t'`, and changes nothing that counts for
a stage other than `s`. -/
structure MovesAt (y : Sys σ ε) (s : σ) (i : ℕ) (t t' : Thread σ ε) (y' : Sys σ ε) : Prop where
  thread : y.threads[i]? = some t
  threads : y'.threads = y.threads.set i t'
  stage : ∀ s', s ≠ s' → y'.stage s' = y.stage s'
  runQueues : ∀ s', s ≠ s' →
    tally (List.count s') y'.runQueues = tally (List.count s') y.runQueues

section Ledgers

variable {y y' : Sys σ ε} {i : ℕ} {s s' : σ} {p : Option ℕ} {w w' : Work σ ε} {c c' : Call σ}

/-- It is enough to look at the ledger of that stage. -/
theorem MovesAt.ledger {t t' : Thread σ ε} (h : MovesAt y s i t t' y')
    (hsame : ∀ s', s ≠ s' → ∀ (r : Rest) st n, r.ledger s' st n t' = r.ledger s' st n t)
    (hself : ∀ r : Rest, y.ledger s = r.ledgerOf y s t →
      ReflGen Ledger.Step (r.ledgerOf y s t) (r.ledgerOf y' s t')) :
    ReflGen Ledger.Step (y.ledger s') (y'.ledger s') := by
  obtain ⟨r, hr⟩ := exists_rest h.thread s'
  have hy := hr t y (.inl ⟨rfl, rfl⟩)
  rw [hr t' y' (.inr h.threads)]
  by_cases hs : s = s'
  · subst hs
    rw [hy]
    exact hself r hy
  · rw [hy, Rest.ledgerOf, Rest.ledgerOf, h.stage s' hs, h.runQueues s' hs, hsame s' hs]

/-- **A thread changes its call** of one stage. -/
theorem MovesAt.call (h : MovesAt y s i ⟨p, w, c⟩ ⟨p, w, c'⟩ y') (hc : c.Of s) (hc' : c'.Of s)
    (hself : ∀ r : Rest, y.ledger s = r.ledgerOf y s ⟨p, w, c⟩ →
      ReflGen Ledger.Step (r.ledgerOf y s ⟨p, w, c⟩) (r.ledgerOf y' s ⟨p, w, c'⟩)) :
    ReflGen Ledger.Step (y.ledger s') (y'.ledger s') := by
  refine h.ledger (fun s' hs r st n => ?_) hself
  obtain ⟨hdue, hstarting, hlooping, hwaiting⟩ := hc.counts hs p w
  obtain ⟨hdue', hstarting', hlooping', hwaiting'⟩ := hc'.counts hs p w
  rw [Rest.ledger, hdue', hstarting', hlooping', hwaiting', Rest.ledger, hdue, hstarting, hlooping,
    hwaiting]
  rfl

/-- **A thread changes its work** at one stage. -/
theorem MovesAt.work (h : MovesAt y s i ⟨p, w, c⟩ ⟨p, w', c⟩ y') (hw : w.At s) (hw' : w'.At s)
    (hself : ∀ r : Rest, y.ledger s = r.ledgerOf y s ⟨p, w, c⟩ →
      ReflGen Ledger.Step (r.ledgerOf y s ⟨p, w, c⟩) (r.ledgerOf y' s ⟨p, w', c⟩)) :
    ReflGen Ledger.Step (y.ledger s') (y'.ledger s') := by
  refine h.ledger (fun s' hs r st n => ?_) hself
  obtain ⟨hpopped, hheld⟩ := hw.counts hs p c
  obtain ⟨hpopped', hheld'⟩ := hw'.counts hs p c
  rw [Rest.ledger, hpopped', hheld', Rest.ledger, hpopped, hheld]
  rfl

/-- A move that leaves the other stages and all run queues. -/
theorem movesAt_setThread {t t' : Thread σ ε} (ht : y.threads[i]? = some t) :
    MovesAt y s i t t' (y.setThread i t') :=
  ⟨ht, rfl, fun _ _ => rfl, fun _ _ => rfl⟩

theorem movesAt_setStage {t t' : Thread σ ε} (ht : y.threads[i]? = some t) {st : StageState ε} :
    MovesAt y s i t t' ((y.setStage s st).setThread i t') :=
  ⟨ht, rfl, fun _ hs => setStage_of_ne hs y st, fun _ _ => rfl⟩

theorem movesAt_runQueues {t t' : Thread σ ε} (ht : y.threads[i]? = some t) {qs : List (List σ)}
    (hq : ∀ s', s ≠ s' → tally (List.count s') qs = tally (List.count s') y.runQueues) :
    MovesAt y s i t t' { y.setThread i t' with runQueues := qs } :=
  ⟨ht, rfl, fun _ _ => rfl, hq⟩

/-- What is said of a stage that is changed apart from the threads. -/
theorem setStage_ledger {st : StageState ε}
    (hself : ReflGen Ledger.Step (y.ledger s) ((y.setStage s st).ledger s)) :
    ReflGen Ledger.Step (y.ledger s') ((y.setStage s st).ledger s') := by
  by_cases hs : s = s'
  · subst hs
    exact hself
  · rw [Sys.ledger, Sys.ledger, setStage_of_ne hs]
    exact .refl

end Ledgers

/-! ### Steps of the ledger -/

section Steps

variable {y : Sys σ ε} {i : ℕ} {s s' : σ} {p : Option ℕ} {w : Work σ ε} {c : Call σ}

/-- The ledger of `s'` makes a step to that of `y'`, or none. -/
abbrev LedgerStep (y y' : Sys σ ε) (s' : σ) : Prop :=
  ReflGen Ledger.Step (y.ledger s') (y'.ledger s')

theorem ledger_newPool : LedgerStep y { y with runQueues := y.runQueues ++ [[]] } s' := by
  have hsame : ({ y with runQueues := y.runQueues ++ [[]] } : Sys σ ε).ledger s' =
      y.ledger s' := by
    simp [Sys.ledger]
  rw [LedgerStep, hsame]

theorem ledger_newThread {pool : Option ℕ} :
    LedgerStep y { y with threads := y.threads ++ [.new pool] } s' := by
  have hsame : ({ y with threads := y.threads ++ [.new pool] } : Sys σ ε).ledger s' =
      y.ledger s' := by
    simp only [Sys.ledger, tally_append, tally_cons, tally_nil]
    rfl
  rw [LedgerStep, hsame]

theorem ledger_setPool {pool : ℕ} (hc : (y.stage s).connected = false) :
    LedgerStep y (y.setStage s { y.stage s with thPool := some pool }) s' := by
  refine setStage_ledger ?_
  rw [Sys.ledger, Sys.ledger, setStage_self]
  exact .single (.setPool hc)

/-! Connecting and disconnecting. -/

theorem ledger_connect (ht : y.threads[i]? = some ⟨p, w, .idle⟩) (hfree : y.controllers s = 0)
    (hc : (y.stage s).connected = false) (hpool : (y.stage s).thPool ≠ none) :
    LedgerStep y (y.setThread i ⟨p, w, .initializing s⟩) s' := by
  refine (movesAt_setThread ht).call trivial rfl fun r hr => ?_
  have hfree : (y.ledger s).controllers = 0 := hfree
  rw [hr] at hfree
  simp only [Rest.ledgerOf, Rest.ledger, starting_initializing]
  exact .single (.connect hfree hc (Option.isSome_iff_ne_none.mpr hpool))

theorem ledger_connected (ht : y.threads[i]? = some ⟨p, w, .initializing s⟩) :
    LedgerStep y ((y.setStage s { y.stage s with
        eventRef := ((y.stage s).eventList.length % 2 ^ 32 : ℕ), connected := true }).setThread i
      ⟨p, w, .scheduling s ((y.stage s).eventList.length % 2 ^ 32) true⟩) s' := by
  refine (movesAt_setStage ht).call rfl rfl fun r _ => ?_
  simp only [Rest.ledgerOf, Rest.ledger, starting_initializing, setThread_stage, setStage_self,
    due_scheduling, looping_scheduling]
  exact .single (.connected rfl (Nat.mod_le _ _))

theorem ledger_refused (ht : y.threads[i]? = some ⟨p, w, .initializing s⟩) :
    LedgerStep y (y.setThread i ⟨p, w, .idle⟩) s' := by
  refine (movesAt_setThread ht).call rfl trivial fun r _ => ?_
  simp only [Rest.ledgerOf, Rest.ledger, starting_initializing]
  exact .single (.refused rfl)

theorem ledger_disconnect (ht : y.threads[i]? = some ⟨p, w, .idle⟩) (hfree : y.controllers s = 0)
    (hc : (y.stage s).connected = true) (hr : 0 < (y.stage s).eventRef) :
    LedgerStep y ((y.setStage s { y.stage s with connected := false }).setThread i
      ⟨p, w, .waiting s⟩) s' := by
  refine (movesAt_setStage ht).call trivial rfl fun r hl => ?_
  have hfree : (y.ledger s).controllers = 0 := hfree
  rw [hl] at hfree
  simp only [Rest.ledgerOf, Rest.ledger, setThread_stage, setStage_self, waiting_waiting]
  exact .single (.disconnect hfree hc hr)

theorem ledger_disconnected (ht : y.threads[i]? = some ⟨p, w, .idle⟩) (hfree : y.controllers s = 0)
    (hc : (y.stage s).connected = true) (hr : ¬ 0 < (y.stage s).eventRef) :
    LedgerStep y ((y.setStage s { y.stage s with connected := false, thPool := none }).setThread i
      ⟨p, w, .idle⟩) s' := by
  refine (movesAt_setStage ht).call trivial trivial fun r hl => ?_
  have hfree : (y.ledger s).controllers = 0 := hfree
  rw [hl] at hfree
  simp only [Rest.ledgerOf, Rest.ledger, setThread_stage, setStage_self]
  exact .single (.disconnected hfree hc hr)

theorem ledger_quiesced (ht : y.threads[i]? = some ⟨p, w, .waiting s⟩)
    (hr : ¬ 0 < (y.stage s).eventRef) :
    LedgerStep y ((y.setStage s { y.stage s with thPool := none }).setThread i ⟨p, w, .idle⟩)
      s' := by
  refine (movesAt_setStage ht).call rfl trivial fun r _ => ?_
  simp only [Rest.ledgerOf, Rest.ledger, setThread_stage, setStage_self, waiting_waiting]
  exact .single (.quiesced rfl hr)

/-! Adding an event and scheduling its stage. -/

theorem ledger_add {event : ε} (ht : y.threads[i]? = some ⟨p, w, .idle⟩)
    (hc : (y.stage s).connected = true) :
    LedgerStep y ((y.setStage s { y.stage s with
        eventList := (y.stage s).eventList ++ [event],
        eventRef := (y.stage s).eventRef + 1 }).setThread i ⟨p, w, .scheduling s 1 false⟩) s' := by
  refine (movesAt_setStage ht).call trivial rfl fun r _ => ?_
  simp only [Rest.ledgerOf, Rest.ledger, setThread_stage, setStage_self, due_scheduling,
    List.length_append]
  exact .single (.add hc)

theorem ledger_store {event : ε} (hc : (y.stage s).connected = false) :
    LedgerStep y (y.setStage s { y.stage s with eventList := (y.stage s).eventList ++ [event] })
      s' := by
  refine setStage_ledger ?_
  rw [Sys.ledger, Sys.ledger, setStage_self, List.length_append]
  exact .single (.store hc)

theorem ledger_schedule {left pool : ℕ} {connecting : Bool}
    (ht : y.threads[i]? = some ⟨p, w, .scheduling s (left + 1) connecting⟩) :
    LedgerStep y (y.setThread i ⟨p, w, .pushing s pool left connecting⟩) s' := by
  refine (movesAt_setThread ht).call rfl rfl fun r _ => ?_
  simp only [Rest.ledgerOf, Rest.ledger, due_scheduling, due_pushing]
  cases connecting <;> exact .refl

/-- A run queue with one more of a stage. -/
theorem tally_push {qs : List (List σ)} {pool : ℕ} {q : List σ} (hq : qs[pool]? = some q) (s' : σ) :
    tally (List.count s') (qs.set pool (q ++ [s])) =
      tally (List.count s') qs + List.count s' [s] := by
  have hset := tally_set (List.count s') hq (q ++ [s])
  rw [List.count_append] at hset
  omega

theorem ledger_push {left pool : ℕ} {connecting : Bool} {q : List σ}
    (ht : y.threads[i]? = some ⟨p, w, .pushing s pool left connecting⟩)
    (hq : y.runQueues[pool]? = some q) :
    LedgerStep y { y.setThread i ⟨p, w, .scheduling s left connecting⟩ with
      runQueues := y.runQueues.set pool (q ++ [s]) } s' := by
  refine (movesAt_runQueues ht fun s' hs => ?_).call rfl rfl fun r _ => ?_
  · rw [tally_push hq, List.count_singleton, if_neg (by simpa using hs)]
    rfl
  · simp only [Rest.ledgerOf, Rest.ledger, setThread_stage, due_pushing, due_scheduling,
      tally_push hq, List.count_singleton_self]
    cases connecting <;> exact .single (.schedule rfl)

theorem ledger_finish {connecting : Bool}
    (ht : y.threads[i]? = some ⟨p, w, .scheduling s 0 connecting⟩) :
    LedgerStep y (y.setThread i ⟨p, w, .idle⟩) s' := by
  refine (movesAt_setThread ht).call rfl trivial fun r _ => ?_
  simp only [Rest.ledgerOf, Rest.ledger, due_scheduling]
  cases connecting with
  | false => exact .refl
  | true =>
    rw [looping_scheduling]
    exact .single (.looped rfl)

/-! Taking a stage from a run queue, and handling an event of it. -/

theorem ledger_pop {pool : ℕ} {q : List σ} (ht : y.threads[i]? = some ⟨p, .idle, c⟩)
    (hq : y.runQueues[pool]? = some (s :: q)) :
    LedgerStep y { y.setThread i ⟨p, .popped s, c⟩ with runQueues := y.runQueues.set pool q }
      s' := by
  have hrun : ∀ s', tally (List.count s') y.runQueues =
      tally (List.count s') (y.runQueues.set pool q) + List.count s' [s] := by
    intro s'
    have hset := tally_set (List.count s') hq q
    rw [show s :: q = [s] ++ q from rfl, List.count_append] at hset
    omega
  refine (movesAt_runQueues ht fun s' hs => ?_).work trivial rfl fun r _ => ?_
  · rw [hrun, List.count_singleton, if_neg (by simpa using hs)]
    rfl
  · simp only [Rest.ledgerOf, Rest.ledger, setThread_stage, popped_popped, hrun,
      List.count_singleton_self]
    exact .single (.pop rfl)

theorem ledger_removeEvent {callback : Bool} {event : ε} {es : List ε}
    (ht : y.threads[i]? = some ⟨p, .popped s, c⟩) (hl : (y.stage s).eventList = event :: es) :
    LedgerStep y ((y.setStage s { y.stage s with eventList := es }).setThread i
      ⟨p, .handling s event callback, c⟩) s' := by
  refine (movesAt_setStage ht).work rfl rfl fun r _ => ?_
  simp only [Rest.ledgerOf, Rest.ledger, setThread_stage, setStage_self, popped_popped,
    held_handling, hl]
  exact .single (.remove rfl rfl)

theorem ledger_handled {callback : Bool} {event : ε}
    (ht : y.threads[i]? = some ⟨p, .handling s event callback, c⟩) :
    LedgerStep y ((y.setStage s { y.stage s with eventRef := (y.stage s).eventRef - 1 }).setThread i
      ⟨p, .idle, c⟩) s' := by
  refine (movesAt_setStage ht).work rfl trivial fun r _ => ?_
  simp only [Rest.ledgerOf, Rest.ledger, setThread_stage, setStage_self, held_handling]
  exact .single (.release rfl)

theorem ledger_threadKill {event : ε} (ht : y.threads[i]? = some ⟨p, .handling s event false, c⟩) :
    LedgerStep y (y.setThread i ⟨p, .killing s event, c⟩) s' := by
  refine (movesAt_setThread ht).work rfl rfl fun r _ => ?_
  simp only [Rest.ledgerOf, Rest.ledger, held_handling, held_killing]
  exact .refl

theorem ledger_exit {event : ε} (ht : y.threads[i]? = some ⟨p, .killing s event, c⟩) :
    LedgerStep y ((y.setStage s { y.stage s with eventRef := (y.stage s).eventRef - 1 }).setThread i
      ⟨p, .exited, c⟩) s' := by
  refine (movesAt_setStage ht).work rfl trivial fun r _ => ?_
  simp only [Rest.ledgerOf, Rest.ledger, setThread_stage, setStage_self, held_killing]
  exact .single (.release rfl)

end Steps

/-- **A step of the machine** is a step of the ledger of every stage, or none. -/
theorem ledger_step {killer : σ → Bool} {y y' : Sys σ ε} {a : Action σ ε}
    (h : step killer y a = .ok y') (s : σ) : ReflGen Ledger.Step (y.ledger s) (y'.ledger s) := by
  change LedgerStep y y' s
  cases moves_of_step h with
  | newPool => exact ledger_newPool
  | newThread => exact ledger_newThread
  | setPool hc => exact ledger_setPool hc
  | connect ht hfree hc hpool => exact ledger_connect ht hfree hc hpool
  | connected ht => exact ledger_connected ht
  | refused ht => exact ledger_refused ht
  | disconnect ht hfree hc hr => exact ledger_disconnect ht hfree hc hr
  | disconnected ht hfree hc hr => exact ledger_disconnected ht hfree hc hr
  | wait => exact .refl
  | quiesced ht hr => exact ledger_quiesced ht hr
  | add ht hc => exact ledger_add ht hc
  | store hc => exact ledger_store hc
  | schedule ht => exact ledger_schedule ht
  | push ht hq => exact ledger_push ht hq
  | finish ht => exact ledger_finish ht
  | pop ht hq => exact ledger_pop ht hq
  | removeEvent ht hl => exact ledger_removeEvent ht hl
  | handled ht => exact ledger_handled ht
  | threadKill ht => exact ledger_threadKill ht
  | exit ht => exact ledger_exit ht

/-- **The ledgers are sound** in every state of every run. -/
theorem sound_of_runs {killer : σ → Bool} {ls : List (Label σ ε)} {y : Sys σ ε}
    (h : Runs killer ls y) (s : σ) : (y.ledger s).Sound :=
  Ledger.sound_of_path (h.simulates (f := fun y => Sys.ledger y s) fun _ _ _ hs => ledger_step hs s)

end VulcanDB.Seda
