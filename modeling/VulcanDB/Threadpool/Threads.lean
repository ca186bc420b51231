import VulcanDB.Threadpool.Pool

/-!
# Thread pool — What a step does to a thread

A step moves the thread that takes it, and a thread that it signals.  In its loop a thread is a
thread of the pool, and has no call but in a handler.

* `moves_of_step`: what each step needs, and what it does.
* `all_step`: what every move of a thread keeps, every step keeps for all threads.
* `placed_of_runs`: a call is made outside the pool or in a handler.
-/

namespace VulcanDB.Threadpool

open Steps

/-- The call has passed its test, and has not returned. -/
def Call.inProgress : Call → Bool
  | .idle => false
  | .entering _ => false
  | _ => true

/-- A move of a thread, where only threads whose work is `ok` pass the test of `kill_threads`. -/
inductive Thread.Next (ok : Work → Prop) : Thread → Thread → Prop
  | loop {w w' c} (ho : w ≠ .outside) (hh : w = .handling → c = .idle) : Next ok ⟨w, c⟩ ⟨w', c⟩
  | call {w n} (h : w = .outside ∨ w = .handling) : Next ok ⟨w, .idle⟩ ⟨w, .entering n⟩
  | enter {w n total backlog} (h : ok w) :
      Next ok ⟨w, .entering n⟩ ⟨w, .connecting total backlog⟩
  | go {w c c'} (hc : c.inProgress = true) : Next ok ⟨w, c⟩ ⟨w, c'⟩
  | leave {w c} : Next ok ⟨w, c⟩ ⟨w, .idle⟩

/-- Every thread has the property. -/
def Pool.All (P : Thread → Prop) (y : Pool) : Prop := ∀ t ∈ y.threads, P t

/-- What the moves of a thread keep. -/
structure Kept (ok : Work → Prop) (P : Thread → Prop) : Prop where
  next : ∀ {t t'}, P t → Thread.Next ok t t' → P t'
  new : ∀ w, P ⟨w, .idle⟩

/-- `n_idles_` after a thread has come out of its wait, if it was in one. -/
def Pool.idlesOf (y : Pool) (w : Work) : ℕ := if w = .woken then y.nIdles - 1 else y.nIdles

/-- The steps, with what each needs of the thread that takes it. -/
inductive Moves (y : Pool) : Action → Pool → Prop
  | newThread : Moves y .newThread { y with threads := y.threads ++ [⟨.outside, .idle⟩] }
  | addThreads {n} (hl : y.locked = false) : Moves y (.addThreads n) { y with
      threads := y.threads ++ List.replicate n ⟨.ready, .idle⟩, nthreads := y.nthreads + n }
  | addEvent {i w t y'} (ht : y.threads[i]? = some t) (hc : t.CanCall)
      (hs : schedule y i .other w = .ok y') : Moves y (.addEvent i w) y'
  | sleep {i w c} (ht : y.threads[i]? = some ⟨w, c⟩) (hw : w = .ready ∨ w = .woken)
      (hq : y.runQueue = []) :
      Moves y (.run i) { y.setWork i .waiting with nIdles := y.idlesOf w + 1 }
  | takeOther {i w c q} (ht : y.threads[i]? = some ⟨w, c⟩) (hw : w = .ready ∨ w = .woken)
      (hq : y.runQueue = .other :: q) :
      Moves y (.run i) { y.setWork i .handling with runQueue := q, nIdles := y.idlesOf w }
  | takeKill {i w c q} (ht : y.threads[i]? = some ⟨w, c⟩) (hw : w = .ready ∨ w = .woken)
      (hq : y.runQueue = .kill :: q) :
      Moves y (.run i) { y.setWork i .visiting with runQueue := q, nIdles := y.idlesOf w }
  | spuriousRun {i c} (ht : y.threads[i]? = some ⟨.waiting, c⟩) :
      Moves y (.spuriousRun i) (y.setWork i .woken)
  | handled {i} (ht : y.threads[i]? = some ⟨.handling, .idle⟩) :
      Moves y (.handled i) (y.setWork i .ready)
  | removeEvent {i c} (ht : y.threads[i]? = some ⟨.visiting, c⟩) (hq : y.queued ≠ 0) :
      Moves y (.removeEvent i) { y.setWork i .killing with queued := y.queued - 1 }
  | killLast {i w c y'} (ht : y.threads[i]? = some ⟨.killing, c⟩) (hl : y.locked = false)
      (hz : pred32 y.threadsToKill = 0)
      (hs : signalThread { y.setWork i .killed with
        nthreads := pred32 y.nthreads, threadsToKill := pred32 y.threadsToKill } w = .ok y') :
      Moves y (.threadKill i w) y'
  | kill {i w c} (ht : y.threads[i]? = some ⟨.killing, c⟩) (hl : y.locked = false)
      (hz : pred32 y.threadsToKill ≠ 0) : Moves y (.threadKill i w) { y.setWork i .killed with
        nthreads := pred32 y.nthreads, threadsToKill := pred32 y.threadsToKill }
  | exit {i c} (ht : y.threads[i]? = some ⟨.killed, c⟩) :
      Moves y (.exit i) { y.setWork i .exited with eventRef := y.eventRef - 1 }
  | killThreads {i n w} (ht : y.threads[i]? = some ⟨w, .idle⟩) (hw : w = .outside ∨ w = .handling) :
      Moves y (.killThreads i n) (y.setCall i (.entering n))
  | reject {i w n} (ht : y.threads[i]? = some ⟨w, .entering n⟩) (hl : y.locked = false)
      (hk : 0 < y.threadsToKill) : Moves y (.enter i) (y.setCall i .idle)
  | enter {i w n} (ht : y.threads[i]? = some ⟨w, .entering n⟩) (hl : y.locked = false)
      (hk : y.threadsToKill = 0) (hc : y.connected = false) :
      Moves y (.enter i) { y.setCall i (.connecting (min n y.nthreads) y.queued) with
        locked := true, connected := true, eventRef := y.queued }
  | connect {i v w total backlog y'}
      (ht : y.threads[i]? = some ⟨v, .connecting total (backlog + 1)⟩)
      (hs : schedule y i .kill w = .ok y') :
      Moves y (.connect i w) (y'.setCall i (.connecting total backlog))
  | generate {i v w total} (ht : y.threads[i]? = some ⟨v, .connecting total 0⟩) :
      Moves y (.connect i w) (y.setCall i (.adding total total))
  | addKill {i w total left} (ht : y.threads[i]? = some ⟨w, .adding total (left + 1)⟩)
      (hc : y.connected = true) : Moves y (.addKill i) { y.setCall i (.scheduling total left) with
        queued := y.queued + 1, eventRef := y.eventRef + 1 }
  | storeKill {i w total left} (ht : y.threads[i]? = some ⟨w, .adding total (left + 1)⟩)
      (hc : y.connected = false) :
      Moves y (.addKill i) { y.setCall i (.adding total left) with queued := y.queued + 1 }
  | scheduleKill {i v w total left y'} (ht : y.threads[i]? = some ⟨v, .scheduling total left⟩)
      (hs : schedule y i .kill w = .ok y') :
      Moves y (.scheduleKill i w) (y'.setCall i (.adding total left))
  | await {i w total} (ht : y.threads[i]? = some ⟨w, .adding total 0⟩) : Moves y (.await i)
      { y.setCall i (.waiting total) with threadsToKill := total, locked := false }
  | spuriousCall {i y'} (hs : wakeCall y i = .ok y') : Moves y (.spuriousCall i) y'
  | resume {i w total} (ht : y.threads[i]? = some ⟨w, .woken total⟩) (hl : y.locked = false)
      (hc : y.connected = true) : Moves y (.resume i)
      { y.setCall i (.quiescing total) with locked := true, connected := false }
  | quiesced {i w total} (ht : y.threads[i]? = some ⟨w, .quiescing total⟩)
      (href : y.eventRef ≤ 0) :
      Moves y (.quiesced i) { y.setCall i .idle with locked := false }

section Frame

variable {y y' : Pool} {i : ℕ} {t : Thread}

@[simp] theorem thread_eq_ok : y.thread i = .ok t ↔ y.threads[i]? = some t := by
  unfold Pool.thread
  cases y.threads[i]? <;> simp

@[simp] theorem thread_eq_error {e : Stop} :
    y.thread i = .error e ↔ y.threads[i]? = none ∧ e = .disabled := by
  unfold Pool.thread
  cases y.threads[i]? <;> simp [eq_comm]

theorem wakeCall_eq_ok (hs : wakeCall y i = .ok y') : ∃ w total,
    y.threads[i]? = some ⟨w, .waiting total⟩ ∧ y' = y.setCall i (.woken total) := by
  simp only [wakeCall, bind_eq_ok, thread_eq_ok] at hs
  obtain ⟨⟨w, c⟩, ht, hs⟩ := hs
  cases c with
  | waiting total => exact ⟨w, total, ht, (pure_eq_ok.mp hs).symm⟩
  | _ => cases hs

/-! Each function of the source, by the moves it makes. -/

theorem moves_of_addThreads {n : ℕ} (hs : addThreads y n = .ok y') :
    Moves y (.addThreads n) y' := by
  simp only [addThreads, bind_eq_ok, require_eq_ok, pure_eq_ok] at hs
  obtain ⟨-, hl, -, -, rfl⟩ := hs
  exact .addThreads hl

theorem moves_of_addEvent {w : Option ℕ} (hs : addEvent y i w = .ok y') :
    Moves y (.addEvent i w) y' := by
  simp only [addEvent, bind_eq_ok, thread_eq_ok, require_eq_ok] at hs
  obtain ⟨t, ht, -, hc, hs⟩ := hs
  exact .addEvent ht hc hs

theorem moves_of_run (hs : run y i = .ok y') :
    Moves y (.run i) y' := by
  simp only [run, bind_eq_ok, thread_eq_ok, require_eq_ok] at hs
  obtain ⟨⟨w, c⟩, ht, -, hw, hs⟩ := hs
  split at hs
  · obtain rfl := pure_eq_ok.mp hs
    exact .sleep ht hw ‹_›
  · obtain rfl := pure_eq_ok.mp hs
    exact .takeOther ht hw ‹_›
  · obtain rfl := pure_eq_ok.mp hs
    exact .takeKill ht hw ‹_›

theorem moves_of_spuriousRun (hs : spuriousRun y i = .ok y') :
    Moves y (.spuriousRun i) y' := by
  simp only [spuriousRun, bind_eq_ok, thread_eq_ok, require_eq_ok, pure_eq_ok] at hs
  obtain ⟨⟨w, c⟩, ht, -, hw, rfl⟩ := hs
  obtain rfl : w = .waiting := hw
  exact .spuriousRun ht

theorem moves_of_handled (hs : handled y i = .ok y') :
    Moves y (.handled i) y' := by
  simp only [handled, bind_eq_ok, thread_eq_ok, require_eq_ok, pure_eq_ok] at hs
  obtain ⟨⟨w, c⟩, ht, -, ⟨hw, hc⟩, rfl⟩ := hs
  obtain rfl : w = .handling := hw
  obtain rfl : c = .idle := hc
  exact .handled ht

theorem moves_of_removeEvent (hs : removeEvent y i = .ok y') :
    Moves y (.removeEvent i) y' := by
  simp only [removeEvent, bind_eq_ok, thread_eq_ok, require_eq_ok, pure_eq_ok] at hs
  obtain ⟨⟨w, c⟩, ht, -, hw, -, hq, rfl⟩ := hs
  obtain rfl : w = .visiting := hw
  exact .removeEvent ht hq

theorem moves_of_threadKill {w : Option ℕ} (hs : threadKill y i w = .ok y') :
    Moves y (.threadKill i w) y' := by
  simp only [threadKill, bind_eq_ok, thread_eq_ok, require_eq_ok] at hs
  obtain ⟨⟨w', c⟩, ht, -, hw, -, hl, hs⟩ := hs
  obtain rfl : w' = .killing := hw
  split at hs
  · exact .killLast ht hl ‹_› hs
  · obtain rfl := pure_eq_ok.mp hs
    exact .kill ht hl ‹_›

theorem moves_of_exit (hs : exit y i = .ok y') :
    Moves y (.exit i) y' := by
  simp only [exit, bind_eq_ok, thread_eq_ok, require_eq_ok, pure_eq_ok] at hs
  obtain ⟨⟨w, c⟩, ht, -, hw, rfl⟩ := hs
  obtain rfl : w = .killed := hw
  exact .exit ht

theorem moves_of_killThreads {threads : ℕ} (hs : killThreads y i threads = .ok y') :
    Moves y (.killThreads i threads) y' := by
  simp only [killThreads, bind_eq_ok, thread_eq_ok, require_eq_ok, pure_eq_ok] at hs
  obtain ⟨⟨w, c⟩, ht, -, ⟨hc, hw⟩, rfl⟩ := hs
  obtain rfl : c = .idle := hc
  exact .killThreads ht hw

theorem moves_of_enter (hs : enter y i = .ok y') :
    Moves y (.enter i) y' := by
  simp only [enter, bind_eq_ok, thread_eq_ok] at hs
  obtain ⟨⟨w, c⟩, ht, hs⟩ := hs
  cases c with
  | entering threads =>
      simp only [bind_eq_ok, require_eq_ok] at hs
      obtain ⟨-, hl, hs⟩ := hs
      split at hs
      · obtain rfl := pure_eq_ok.mp hs
        exact .reject ht hl ‹_›
      · rename_i hk
        simp only [bind_eq_ok, require_eq_ok, pure_eq_ok] at hs
        obtain ⟨-, hc, rfl⟩ := hs
        exact .enter ht hl (Nat.eq_zero_of_not_pos hk) hc
  | _ => cases hs

theorem moves_of_connect {w : Option ℕ} (hs : connect y i w = .ok y') :
    Moves y (.connect i w) y' := by
  simp only [connect, bind_eq_ok, thread_eq_ok] at hs
  obtain ⟨⟨w', c⟩, ht, hs⟩ := hs
  split at hs
  · rename_i total backlog hc
    obtain rfl : c = .connecting total (backlog + 1) := hc
    simp only [bind_eq_ok, require_eq_ok, pure_eq_ok] at hs
    obtain ⟨-, -, y₁, hs, rfl⟩ := hs
    exact .connect ht hs
  · rename_i total hc
    obtain rfl : c = .connecting total 0 := hc
    simp only [bind_eq_ok, require_eq_ok, pure_eq_ok] at hs
    obtain ⟨-, -, rfl⟩ := hs
    exact .generate ht
  · cases hs

theorem moves_of_addKill (hs : addKill y i = .ok y') :
    Moves y (.addKill i) y' := by
  simp only [addKill, bind_eq_ok, thread_eq_ok] at hs
  obtain ⟨⟨w', c⟩, ht, hs⟩ := hs
  split at hs
  · rename_i total left hc
    obtain rfl : c = .adding total (left + 1) := hc
    split at hs
    · obtain rfl := pure_eq_ok.mp hs
      exact .addKill ht ‹_›
    · obtain rfl := pure_eq_ok.mp hs
      exact .storeKill ht (Bool.eq_false_iff.mpr ‹_›)
  · cases hs

theorem moves_of_scheduleKill {w : Option ℕ} (hs : scheduleKill y i w = .ok y') :
    Moves y (.scheduleKill i w) y' := by
  simp only [scheduleKill, bind_eq_ok, thread_eq_ok] at hs
  obtain ⟨⟨w', c⟩, ht, hs⟩ := hs
  cases c with
  | scheduling total left =>
      simp only [bind_eq_ok, require_eq_ok, pure_eq_ok] at hs
      obtain ⟨-, -, y₁, hs, rfl⟩ := hs
      exact .scheduleKill ht hs
  | _ => cases hs

theorem moves_of_await (hs : await y i = .ok y') :
    Moves y (.await i) y' := by
  simp only [await, bind_eq_ok, thread_eq_ok] at hs
  obtain ⟨⟨w', c⟩, ht, hs⟩ := hs
  split at hs
  · rename_i total hc
    obtain rfl : c = .adding total 0 := hc
    obtain rfl := pure_eq_ok.mp hs
    exact .await ht
  · cases hs

theorem moves_of_resume (hs : resume y i = .ok y') :
    Moves y (.resume i) y' := by
  simp only [resume, bind_eq_ok, thread_eq_ok] at hs
  obtain ⟨⟨w', c⟩, ht, hs⟩ := hs
  cases c with
  | woken total =>
      simp only [bind_eq_ok, require_eq_ok, pure_eq_ok] at hs
      obtain ⟨-, hl, -, hc, rfl⟩ := hs
      exact .resume ht hl hc
  | _ => cases hs

theorem moves_of_quiesced (hs : quiesced y i = .ok y') :
    Moves y (.quiesced i) y' := by
  simp only [quiesced, bind_eq_ok, thread_eq_ok] at hs
  obtain ⟨⟨w', c⟩, ht, hs⟩ := hs
  cases c with
  | quiescing total =>
      simp only [bind_eq_ok, require_eq_ok, pure_eq_ok] at hs
      obtain ⟨-, href, rfl⟩ := hs
      exact .quiesced ht href
  | _ => cases hs

/-- **What each step needs, and what it does.** -/
theorem moves_of_step {a : Action} (hs : step y a = .ok y') : Moves y a y' := by
  cases a with
  | newThread =>
      obtain rfl := Except.ok.inj hs
      exact .newThread
  | addThreads n => exact moves_of_addThreads hs
  | addEvent i w => exact moves_of_addEvent hs
  | run i => exact moves_of_run hs
  | spuriousRun i => exact moves_of_spuriousRun hs
  | handled i => exact moves_of_handled hs
  | removeEvent i => exact moves_of_removeEvent hs
  | threadKill i w => exact moves_of_threadKill hs
  | exit i => exact moves_of_exit hs
  | killThreads i threads => exact moves_of_killThreads hs
  | enter i => exact moves_of_enter hs
  | connect i w => exact moves_of_connect hs
  | addKill i => exact moves_of_addKill hs
  | scheduleKill i w => exact moves_of_scheduleKill hs
  | await i => exact moves_of_await hs
  | spuriousCall i => exact .spuriousCall hs
  | resume i => exact moves_of_resume hs
  | quiesced i => exact moves_of_quiesced hs

theorem mem_modify {α : Type} {l : List α} {i : ℕ} {f : α → α} {x : α} (h : x ∈ l.modify i f) :
    x ∈ l ∨ ∃ z, l[i]? = some z ∧ x = f z := by
  obtain ⟨j, hj⟩ := List.mem_iff_getElem?.mp h
  rw [List.getElem?_modify] at hj
  cases hz : l[j]? with
  | none => rw [hz] at hj; cases hj
  | some z =>
      rw [hz] at hj
      obtain rfl := Option.some.inj hj
      by_cases hi : i = j
      · subst hi
        exact .inr ⟨z, hz, if_pos rfl⟩
      · exact .inl (List.mem_of_getElem? (hz.trans (congrArg some (if_neg hi).symm)))

theorem setWork_self (ht : y.threads[i]? = some t) (w : Work) :
    (y.setWork i w).threads[i]? = some ⟨w, t.call⟩ := by
  simp [Pool.setWork, ht]

theorem setCall_self (ht : y.threads[i]? = some t) (c : Call) :
    (y.setCall i c).threads[i]? = some ⟨t.work, c⟩ := by
  simp [Pool.setCall, ht]

theorem setWork_of_ne {j : ℕ} (h : i ≠ j) (w : Work) :
    (y.setWork i w).threads[j]? = y.threads[j]? := by
  simp [Pool.setWork, h]

theorem setCall_of_ne {j : ℕ} (h : i ≠ j) (c : Call) :
    (y.setCall i c).threads[j]? = y.threads[j]? := by
  simp [Pool.setCall, h]

/-- What does not look at the calls. -/
theorem tally_setCall (y : Pool) (i : ℕ) (c : Call) {f : Thread → ℕ}
    (hf : ∀ t : Thread, f { t with call := c } = f t) :
    tally f (y.setCall i c).threads = tally f y.threads := by
  cases ht : y.threads[i]? with
  | none =>
      rw [Pool.setCall, List.modify_eq_set_getElem?, ht]
      rfl
  | some t => rw [Pool.setCall, tally_modify f ht, hf, ← tally_eraseIdx f ht]

/-- What does not look at the work. -/
theorem tally_setWork (y : Pool) (i : ℕ) (w : Work) {f : Thread → ℕ}
    (hf : ∀ t : Thread, f { t with work := w } = f t) :
    tally f (y.setWork i w).threads = tally f y.threads := by
  cases ht : y.threads[i]? with
  | none =>
      rw [Pool.setWork, List.modify_eq_set_getElem?, ht]
      rfl
  | some t => rw [Pool.setWork, tally_modify f ht, hf, ← tally_eraseIdx f ht]

/-- A signal to the service threads leaves the calls, and the work of a thread that does not
wait. -/
theorem signalRun_thread {w : Option ℕ} (hs : signalRun y w = .ok y') {j : ℕ}
    (ht : y.threads[j]? = some t) :
    ∃ t', y'.threads[j]? = some t' ∧ t'.call = t.call ∧ (t.work ≠ .waiting → t' = t) := by
  cases w with
  | none =>
      simp only [signalRun, bind_eq_ok, require_eq_ok, pure_eq_ok] at hs
      obtain ⟨-, -, rfl⟩ := hs
      exact ⟨t, ht, rfl, fun _ => rfl⟩
  | some i =>
      simp only [signalRun, bind_eq_ok, thread_eq_ok, require_eq_ok, pure_eq_ok] at hs
      obtain ⟨u, hu, -, hw, rfl⟩ := hs
      by_cases hij : i = j
      · subst hij
        obtain rfl := Option.some.inj (ht.symm.trans hu)
        exact ⟨⟨.woken, t.call⟩, setWork_self ht _, rfl, fun hne => absurd hw hne⟩
      · exact ⟨t, (setWork_of_ne hij _).trans ht, rfl, fun _ => rfl⟩

theorem schedule_thread {v : Visit} {w : Option ℕ} (hs : schedule y i v w = .ok y') {j : ℕ}
    (ht : y.threads[j]? = some t) :
    ∃ t', y'.threads[j]? = some t' ∧ t'.call = t.call ∧ (t.work ≠ .waiting → t' = t) := by
  simp only [schedule, bind_eq_ok, thread_eq_ok] at hs
  obtain ⟨u, -, hs⟩ := hs
  split at hs
  · split at hs
    · exact signalRun_thread hs ht
    · obtain rfl := pure_eq_ok.mp hs
      exact ⟨t, ht, rfl, fun _ => rfl⟩
  · obtain rfl := pure_eq_ok.mp hs
    exact ⟨t, ht, rfl, fun _ => rfl⟩

end Frame

section All

variable {ok : Work → Prop} {P : Thread → Prop} {y y' : Pool} {i : ℕ} {t : Thread}

theorem Pool.All.get (h : y.All P) (ht : y.threads[i]? = some t) : P t :=
  h t (List.mem_of_getElem? ht)

theorem Pool.All.setWork (h : y.All P) (ht : y.threads[i]? = some t) {w : Work}
    (hw : P ⟨w, t.call⟩) : (y.setWork i w).All P := by
  intro x hx
  obtain hx | ⟨z, hz, rfl⟩ := mem_modify hx
  · exact h x hx
  · obtain rfl := Option.some.inj (ht.symm.trans hz)
    exact hw

theorem Pool.All.setCall (h : y.All P) (ht : y.threads[i]? = some t) {c : Call}
    (hc : P ⟨t.work, c⟩) : (y.setCall i c).All P := by
  intro x hx
  obtain hx | ⟨z, hz, rfl⟩ := mem_modify hx
  · exact h x hx
  · obtain rfl := Option.some.inj (ht.symm.trans hz)
    exact hc

theorem all_signalRun (hP : Kept ok P) (h : y.All P) {w : Option ℕ}
    (hs : signalRun y w = .ok y') : y'.All P := by
  cases w with
  | none =>
      simp only [signalRun, bind_eq_ok, require_eq_ok, pure_eq_ok] at hs
      obtain ⟨-, -, rfl⟩ := hs
      exact h
  | some j =>
      simp only [signalRun, bind_eq_ok, thread_eq_ok, require_eq_ok, pure_eq_ok] at hs
      obtain ⟨⟨w, c⟩, ht, -, hw, rfl⟩ := hs
      obtain rfl : w = .waiting := hw
      exact h.setWork ht (hP.next (h.get ht) (.loop (by simp) (by simp)))

theorem all_schedule (hP : Kept ok P) (h : y.All P) {v : Visit} {w : Option ℕ}
    (hs : schedule y i v w = .ok y') : y'.All P := by
  simp only [schedule, bind_eq_ok, thread_eq_ok] at hs
  obtain ⟨t, -, hs⟩ := hs
  split at hs
  · have hq : Pool.All P { y with runQueue := y.runQueue ++ [v] } := h
    split at hs
    · exact all_signalRun hP hq hs
    · obtain rfl := pure_eq_ok.mp hs
      exact h
  · obtain rfl := pure_eq_ok.mp hs
    exact h

theorem all_wakeCall (hP : Kept ok P) (h : y.All P) (hs : wakeCall y i = .ok y') : y'.All P := by
  obtain ⟨w, total, ht, rfl⟩ := wakeCall_eq_ok hs
  exact h.setCall ht (hP.next (h.get ht) (.go rfl))

theorem all_signalThread (hP : Kept ok P) (h : y.All P) {w : Option ℕ}
    (hs : signalThread y w = .ok y') : y'.All P := by
  cases w with
  | none =>
      simp only [signalThread, bind_eq_ok, require_eq_ok, pure_eq_ok] at hs
      obtain ⟨-, -, rfl⟩ := hs
      exact h
  | some j => exact all_wakeCall hP h hs

theorem all_schedule_setCall (hP : Kept ok P) (h : y.All P) {v : Visit} {w : Option ℕ}
    (hs : schedule y i v w = .ok y') (ht : y.threads[i]? = some t)
    (hc : t.call.inProgress = true) {c : Call} : (y'.setCall i c).All P := by
  obtain ⟨⟨w', c'⟩, ht', hcall, -⟩ := schedule_thread hs ht
  obtain rfl : c' = t.call := hcall
  have h' := all_schedule hP h hs
  exact h'.setCall ht' (hP.next (h'.get ht') (.go hc))

/-- The threads that pass the test of `kill_threads` in the step are `ok`. -/
def Passes (ok : Work → Prop) (y : Pool) : Action → Prop
  | .enter i => ∀ t ∈ y.threads[i]?, y.threadsToKill = 0 → ok t.work
  | _ => True

/-- What every move of a thread keeps, every step keeps. -/
theorem all_step (hP : Kept ok P) (h : y.All P) {a : Action} (ha : Passes ok y a)
    (hs : step y a = .ok y') : y'.All P := by
  -- the moves in the loop, which no handler makes with a call
  have hloop {i : ℕ} {w : Work} {c : Call} (ht : y.threads[i]? = some ⟨w, c⟩) (ho : w ≠ .outside)
      (hh : w ≠ .handling) (w' : Work) : (y.setWork i w').All P :=
    h.setWork ht (hP.next (h.get ht) (.loop ho fun hw => absurd hw hh))
  have hgo {i : ℕ} {w : Work} {c : Call} (ht : y.threads[i]? = some ⟨w, c⟩)
      (hc : c.inProgress = true) (c' : Call) : (y.setCall i c').All P :=
    h.setCall ht (hP.next (h.get ht) (.go hc))
  have hleave {i : ℕ} {w : Work} {c : Call} (ht : y.threads[i]? = some ⟨w, c⟩) :
      (y.setCall i .idle).All P := h.setCall ht (hP.next (h.get ht) .leave)
  cases moves_of_step hs with
  | newThread =>
      intro x hx
      obtain hx | hx := List.mem_append.mp hx
      · exact h x hx
      · obtain rfl := List.mem_singleton.mp hx
        exact hP.new _
  | addThreads hl =>
      intro x hx
      obtain hx | hx := List.mem_append.mp hx
      · exact h x hx
      · obtain rfl := List.eq_of_mem_replicate hx
        exact hP.new _
  | addEvent ht hc hpush => exact all_schedule hP h hpush
  | sleep ht hw hq => obtain rfl | rfl := hw <;> exact hloop ht (by simp) (by simp) _
  | takeOther ht hw hq => obtain rfl | rfl := hw <;> exact hloop ht (by simp) (by simp) _
  | takeKill ht hw hq => obtain rfl | rfl := hw <;> exact hloop ht (by simp) (by simp) _
  | spuriousRun ht => exact hloop ht (by simp) (by simp) _
  | handled ht => exact h.setWork ht (hP.next (h.get ht) (.loop (by simp) fun _ => rfl))
  | removeEvent ht hq => exact hloop ht (by simp) (by simp) _
  | @killLast i _ _ _ ht hl hz hsignal =>
      have hk : Pool.All P { y.setWork i .killed with
          nthreads := pred32 y.nthreads, threadsToKill := pred32 y.threadsToKill } :=
        hloop ht (by simp) (by simp) .killed
      exact all_signalThread hP hk hsignal
  | kill ht hl hz => exact hloop ht (by simp) (by simp) _
  | exit ht => exact hloop ht (by simp) (by simp) _
  | killThreads ht hw => exact h.setCall ht (hP.next (h.get ht) (.call hw))
  | reject ht hl hk => exact hleave ht
  | enter ht hl hk hc => exact h.setCall ht (hP.next (h.get ht) (.enter (ha _ ht hk)))
  | connect ht hpush => exact all_schedule_setCall hP h hpush ht rfl
  | generate ht => exact hgo ht rfl _
  | addKill ht hc => exact hgo ht rfl _
  | storeKill ht hc => exact hgo ht rfl _
  | scheduleKill ht hpush => exact all_schedule_setCall hP h hpush ht rfl
  | await ht => exact hgo ht rfl _
  | spuriousCall hwake => exact all_wakeCall hP h hwake
  | resume ht hl hc => exact hgo ht rfl _
  | quiesced ht href => exact hleave ht

end All

/-! ### Where the calls are made -/

/-- A caller is no worker, or handles an event. -/
def Thread.Placed (t : Thread) : Prop := t.call = .idle ∨ t.work = .outside ∨ t.work = .handling

theorem kept_placed : Kept (fun _ => True) Thread.Placed where
  new _ := .inl rfl
  next := by
    intro t t' h hn
    cases hn with
    | loop ho hh =>
        refine .inl ?_
        obtain hc | hw | hw := h
        · exact hc
        · exact absurd hw ho
        · exact hh hw
    | call hw => exact .inr hw
    | enter => exact .inr (h.resolve_left (by simp))
    | go hc =>
        refine .inr (h.resolve_left fun hi => ?_)
        dsimp only at hi
        subst hi
        cases hc
    | leave => exact .inl rfl

/-- A call is made outside the pool or in a handler. -/
theorem placed_of_runs {ls : List Label} {y : Pool} (h : Runs ls y) : y.All Thread.Placed := by
  refine h.invariant (P := fun _ y => y.All Thread.Placed) (by simp [Pool.All, Pool.new]) ?_
  intro ls y a y' ih hs
  refine all_step kept_placed ih ?_ hs
  cases a with
  | enter i => exact fun _ _ _ => trivial
  | _ => trivial

end VulcanDB.Threadpool
