import VulcanDB.Threadpool.Idling
import VulcanDB.Threadpool.Kills

/-!
# Thread pool — A call of `kill_threads` that waits

A call that waits is signalled by the last of the threads it kills.  The others go on to that point
by themselves, if the call has at least one thread to kill and is not made by a thread of the pool.

* `onward_step`: some other thread can go on, and comes closer to the signal.
* `kill_not_stuck`: so a call that waits can be signalled.
* `nothing_to_kill`: a call that waits with no thread to kill never is.
-/

namespace VulcanDB.Threadpool

open Steps Relation

/-- A step by which a thread other than `i` goes on with what it does. -/
def Onward (i : ℕ) : Action → Prop
  | .run j => j ≠ i
  | .handled j => j ≠ i
  | .removeEvent j => j ≠ i
  | .threadKill j _ => j ≠ i
  | .exit j => j ≠ i
  | .enter j => j ≠ i
  | .connect j _ => j ≠ i
  | .addKill j => j ≠ i
  | .scheduleKill j _ => j ≠ i
  | .await j => j ≠ i
  | .resume j => j ≠ i
  | .quiesced j => j ≠ i
  | _ => False

/-- Threads other than `i` can go on to a signal that wakes the call of `i`. -/
def CanBeSignalled (y : Pool) (i : ℕ) : Prop :=
  ∃ y', ReflTransGen (fun y y' => ∃ a, Onward i a ∧ step y a = .ok y') y y' ∧
    ∃ w total, y'.threads[i]? = some ⟨w, .woken total⟩

/-- No wait of `kill_threads` ends by itself, and a call that passes its test is made by a thread
outside the pool and has a thread to kill. -/
def HasWork (y : Pool) : Action → Prop
  | .spuriousCall _ => False
  | .enter i =>
    match y.threads[i]? with
    | some ⟨w, .entering threads⟩ =>
      y.threadsToKill = 0 → w = .outside ∧ 0 < min threads y.nthreads
    | _ => True
  | _ => True

theorem hasWork_enter {y : Pool} {i threads : ℕ} {w : Work}
    (ht : y.threads[i]? = some ⟨w, .entering threads⟩) :
    HasWork y (.enter i) ↔ (y.threadsToKill = 0 → w = .outside ∧ 0 < min threads y.nthreads) := by
  rw [HasWork, ht]

/-- A call that is rejected has no work to have. -/
theorem hasWork_rejected {y : Pool} (i : ℕ) (hk : 0 < y.threadsToKill) : HasWork y (.enter i) := by
  rw [HasWork]
  split
  · exact fun hz => absurd hz (Nat.ne_of_gt hk)
  · trivial

instance (y : Pool) (a : Action) : Decidable (HasWork y a) :=
  match a with
  | .spuriousCall _ => isFalse id
  | .enter i =>
    if hk : y.threadsToKill = 0 then
      match ht : y.threads[i]? with
      | some ⟨w, .entering threads⟩ =>
        decidable_of_iff (w = .outside ∧ 0 < min threads y.nthreads)
          (by rw [hasWork_enter ht]; simp [hk])
      | some ⟨_, .idle⟩ | some ⟨_, .connecting _ _⟩ | some ⟨_, .adding _ _⟩
      | some ⟨_, .scheduling _ _⟩ | some ⟨_, .waiting _⟩ | some ⟨_, .woken _⟩
      | some ⟨_, .quiescing _⟩ | none => isTrue (by rw [HasWork, ht]; trivial)
    else isTrue (hasWork_rejected i (Nat.pos_of_ne_zero hk))
  | .newThread | .addThreads _ | .addEvent _ _ | .run _ | .spuriousRun _ | .handled _
  | .removeEvent _ | .threadKill _ _ | .exit _ | .killThreads _ _ | .connect _ _ | .addKill _
  | .scheduleKill _ _ | .await _ | .resume _ | .quiesced _ => isTrue trivial

/-! ### How far the signal is -/

/-- The steps that are left to the work of a thread. -/
def Work.rank : Work → ℕ
  | .visiting => 2
  | .killing => 1
  | .handling => 1
  | _ => 0

/-- Those that are left to its call. -/
def Call.rank : Call → ℕ
  | .entering _ => 1
  | _ => 0

/-- Those that are left to all. -/
def Pool.rank (y : Pool) : ℕ :=
  4 * y.runQueue.length + tally (fun t => t.work.rank) y.threads +
    tally (fun t => t.call.rank) y.threads

section Rank

variable {y : Pool} {i : ℕ} {t : Thread}

theorem rank_setWork (ht : y.threads[i]? = some t) (w : Work) {q : List Visit} {n : ℕ}
    (h : 4 * q.length + w.rank < 4 * y.runQueue.length + t.work.rank) :
    Pool.rank { y.setWork i w with runQueue := q, nIdles := n } < y.rank := by
  have hcall := tally_setWork y i w (f := fun t => t.call.rank) fun _ => rfl
  simp only [Pool.rank, hcall]
  rw [Pool.setWork, tally_modify _ ht, tally_eraseIdx (fun t => t.work.rank) ht]
  dsimp only
  omega

theorem rank_setCall (ht : y.threads[i]? = some t) {c : Call} (h : c.rank < t.call.rank) :
    (y.setCall i c).rank < y.rank := by
  have hwork := tally_setCall y i c (f := fun t => t.work.rank) fun _ => rfl
  simp only [Pool.rank, hwork]
  rw [Pool.setCall, tally_modify _ ht, tally_eraseIdx (fun t => t.call.rank) ht]
  dsimp only
  omega

end Rank

/-! ### What holds while a call waits -/

section Waiting

variable {y : Pool} {ls : List Label} {i total : ℕ}

/-- A call past its test is made by a thread outside the pool. -/
def Thread.Outside (t : Thread) : Prop := t.call.inProgress = true → t.work = .outside

theorem kept_outside : Kept (· = .outside) Thread.Outside where
  new _ hc := Bool.noConfusion hc
  next := by
    intro t t' h hn
    cases hn with
    | loop ho hh => exact fun hc => absurd (h hc) ho
    | call hw => exact fun hc => Bool.noConfusion hc
    | enter hok => exact fun _ => hok
    | go hc => exact fun _ => h hc
    | leave => exact fun hc => Bool.noConfusion hc

theorem outside_of_runs (h : RunWhere machine HasWork .new ls y) : y.All Thread.Outside := by
  refine h.invariant (P := fun _ y => y.All Thread.Outside) (by simp [Pool.All, Pool.new]) ?_
  intro ls y a y' ih hc hs
  refine all_step kept_outside ih ?_ hs
  cases a with
  | enter i =>
      simp only [machine, step, enter, bind_eq_ok, thread_eq_ok] at hs
      obtain ⟨⟨w, c⟩, ht, hs⟩ := hs
      rintro t ht' hk
      obtain rfl := Option.some.inj (ht.symm.trans ht')
      cases c with
      | entering threads => exact ((hasWork_enter ht).mp hc hk).1
      | _ => cases hs
  | _ => trivial

/-- **Every run**, by induction on it. -/
theorem waits_of_runs (h : RunWhere machine HasWork .new ls y) : (transaction ls y).Waits := by
  refine (h.invariant (P := fun ls y => (transaction ls y).Sound ∧ (transaction ls y).Waits)
    ⟨Transaction.sound_new, fun hpos => absurd hpos (lt_irrefl 0),
      fun hpos => absurd hpos (lt_irrefl 0)⟩ ?_).2
  rintro ls y a y' ⟨hsound, ih⟩ hc hs
  refine ⟨sound_step hs hsound, ?_⟩
  have hadm : Admits 1 False y a := by
    cases a with
    | enter i =>
        rintro ⟨w, c⟩ ht threads rfl hk
        exact ((hasWork_enter ht).mp hc hk).2
    | spuriousCall i => exact hc.elim
    | _ => trivial
  have hstep := transaction_step ls hadm hs
  change (transaction (ls ++ label y a) y').Waits
  generalize transaction (ls ++ label y a) y' = x at hstep ⊢
  cases hstep with
  | refl => exact ih
  | single hstep => exact ih.step hsound Nat.one_pos hstep

theorem workers_eq (l : List Thread) : (crew l).workers = tally Thread.waiting l +
    tally Thread.woken l + tally Thread.busy l + (crew l).visiting + (crew l).killing := by
  simp only [crew]
  induction l with
  | nil => rfl
  | cons t l ih =>
      obtain ⟨w, c⟩ := t
      simp only [tally_cons, ih]
      cases w <;> simp [Work.crew, Thread.waiting, Thread.woken, Thread.busy] <;> omega

/-- While kill events are in the run queue and none is with a thread, some thread comes back to the
queue. -/
theorem exists_busy (hs : (transaction ls y).Sound) (hi : y.idling.Sound)
    (hgen : (transaction ls y).generating = 0) (hk : 0 < y.threadsToKill)
    (hv : (transaction ls y).visiting = 0) (hkill : (transaction ls y).killing = 0) :
    ∃ (j : ℕ) (t : Thread), y.threads[j]? = some t ∧
      (t.work = .ready ∨ t.work = .woken ∨ t.work = .handling) := by
  have hcount := (hs.counted hgen).1
  have hfit := hs.fits
  have hworkers := hs.workers
  have hcover := hi.covered
  have hall : (transaction ls y).workers = y.idling.waiting + y.idling.woken + y.idling.busy +
      (transaction ls y).visiting + (transaction ls y).killing := workers_eq y.threads
  have hqueue : (transaction ls y).visits ≤ y.idling.queue := List.count_le_length
  change 0 < (transaction ls y).threadsToKill at hk
  have hpos : 0 < y.idling.woken + y.idling.busy := by omega
  rcases Nat.add_pos_iff_pos_or_pos.mp hpos with hpos | hpos
  · obtain ⟨j, t, ht, hwoken⟩ := exists_of_tally_pos hpos
    refine ⟨j, t, ht, .inr (.inl ?_)⟩
    by_contra hne
    simp [Thread.woken, hne] at hwoken
  · obtain ⟨j, t, ht, hbusy⟩ := exists_of_tally_pos hpos
    refine ⟨j, t, ht, ?_⟩
    by_contra hne
    rw [not_or, not_or] at hne
    simp [Thread.busy, hne.1, hne.2.2] at hbusy

/-- A thread at its loop takes a stage from the run queue. -/
theorem run_of_queue {j : ℕ} {t : Thread} (ht : y.threads[j]? = some t)
    (hw : t.work = .ready ∨ t.work = .woken) (hq : y.runQueue ≠ []) :
    ∃ w q n, run y j = .ok { y.setWork j w with runQueue := q, nIdles := n } ∧
      4 * q.length + w.rank < 4 * y.runQueue.length + t.work.rank := by
  simp only [run, bind_eq_ok, thread_eq_ok, require_eq_ok]
  cases hv : y.runQueue with
  | nil => exact absurd hv hq
  | cons v q =>
      cases v with
      | kill =>
          refine ⟨.visiting, q, if t.work = .woken then y.nIdles - 1 else y.nIdles,
            ⟨t, ht, (), hw, rfl⟩, ?_⟩
          simp only [Work.rank, List.length_cons]
          omega
      | other =>
          refine ⟨.handling, q, if t.work = .woken then y.nIdles - 1 else y.nIdles,
            ⟨t, ht, (), hw, rfl⟩, ?_⟩
          simp only [Work.rank, List.length_cons]
          omega

theorem wakeCall_ok {w : Work} (ht : y.threads[i]? = some ⟨w, .waiting total⟩) :
    wakeCall y i = .ok (y.setCall i (.woken total)) := by
  rw [wakeCall, thread_eq_ok.mpr ht]
  rfl

/-- A thread of the pool is not the one that waits. -/
theorem ne_of_work {j : ℕ} {w : Work} {c c' : Call} (ht : y.threads[i]? = some ⟨.outside, c⟩)
    (hj : y.threads[j]? = some ⟨w, c'⟩) (hw : w ≠ .outside) : j ≠ i := by
  rintro rfl
  exact hw (Thread.mk.inj (Option.some.inj (hj.symm.trans ht))).1

/-- **Some other thread goes on**, to the signal or closer to it. -/
theorem onward_step (h : RunWhere machine HasWork .new ls y)
    (ht : y.threads[i]? = some ⟨.outside, .waiting total⟩) :
    ∃ a y', Onward i a ∧ HasWork y a ∧ step y a = .ok y' ∧
      (y'.threads[i]? = some ⟨.outside, .woken total⟩ ∨
        y'.threads[i]? = some ⟨.outside, .waiting total⟩ ∧ y'.rank < y.rank) := by
  have hs := sound_of_runs h.run
  have hi := idling_of_runs h.run
  have hasleep : 1 ≤ (transaction ls y).asleep :=
    le_tally (f := fun t : Thread => t.call.calls.asleep) (List.mem_of_getElem? ht)
  have hone := hs.one
  unfold Transaction.inProgress at hone
  have hgen : (transaction ls y).generating = 0 := by omega
  have hk : 0 < y.threadsToKill := (waits_of_runs h).asleep hasleep
  have hl : y.locked = false := by
    have hlocked := hs.locked
    change y.locked = true ↔ _ at hlocked
    rw [← Bool.not_eq_true, hlocked]
    omega
  have hcount := (hs.counted hgen).1
  have hqueued := hs.queued
  by_cases hkill : 0 < (transaction ls y).killing
  · obtain ⟨j, ⟨w, c⟩, hj, hw⟩ := exists_of_tally_pos hkill
    obtain rfl : w = .killing := by
      cases w <;> first | rfl | cases hw
    have hji := ne_of_work ht hj (by simp)
    have hti := (setWork_of_ne hji .killed).trans ht
    by_cases hz : pred32 y.threadsToKill = 0
    · -- the last thread signals the call
      refine ⟨.threadKill j (some i), Pool.setCall { y.setWork j .killed with
        nthreads := pred32 y.nthreads, threadsToKill := pred32 y.threadsToKill } i (.woken total),
        hji, trivial, ?_, .inl (setCall_self hti _)⟩
      simp only [step, threadKill, bind_eq_ok, thread_eq_ok, require_eq_ok]
      refine ⟨_, hj, (), rfl, (), hl, ?_⟩
      rw [if_pos hz, signalThread]
      exact wakeCall_ok hti
    · refine ⟨.threadKill j none, { y.setWork j .killed with
        nthreads := pred32 y.nthreads, threadsToKill := pred32 y.threadsToKill },
        hji, trivial, ?_, .inr ⟨hti, ?_⟩⟩
      · simp only [step, threadKill, bind_eq_ok, thread_eq_ok, require_eq_ok]
        refine ⟨_, hj, (), rfl, (), hl, ?_⟩
        rw [if_neg hz]
        rfl
      · exact rank_setWork (q := y.runQueue) (n := y.nIdles) hj .killed (by simp [Work.rank])
  by_cases hv : 0 < (transaction ls y).visiting
  · obtain ⟨j, ⟨w, c⟩, hj, hw⟩ := exists_of_tally_pos hv
    obtain rfl : w = .visiting := by
      cases w <;> first | rfl | cases hw
    have hji := ne_of_work ht hj (by simp)
    change y.queued = _ at hqueued
    have hstep : step y (.removeEvent j) =
        .ok { y.setWork j .killing with queued := y.queued - 1 } := by
      simp only [step, removeEvent, bind_eq_ok, thread_eq_ok, require_eq_ok]
      exact ⟨_, hj, (), rfl, (), by omega, rfl⟩
    refine ⟨.removeEvent j, _, hji, trivial, hstep, .inr ⟨?_, ?_⟩⟩
    · exact (setWork_of_ne hji .killing).trans ht
    · exact rank_setWork (q := y.runQueue) (n := y.nIdles) hj .killing (by simp [Work.rank])
  obtain ⟨j, ⟨w, c⟩, hj, hw⟩ := exists_busy hs hi hgen hk (by omega) (by omega)
  have hji := ne_of_work ht hj (by rintro rfl; simp at hw)
  have hne : y.runQueue ≠ [] := by
    intro hq
    have hzero : (transaction ls y).visits = 0 := by simp [transaction, hq]
    change 0 < (transaction ls y).threadsToKill at hk
    omega
  have hready (hw : w = .ready ∨ w = .woken) : ∃ a y', Onward i a ∧ HasWork y a ∧
      step y a = .ok y' ∧ (y'.threads[i]? = some ⟨.outside, .woken total⟩ ∨
        y'.threads[i]? = some ⟨.outside, .waiting total⟩ ∧ y'.rank < y.rank) := by
    obtain ⟨w', q, n, hrun, hrank⟩ := run_of_queue hj hw hne
    exact ⟨.run j, _, hji, trivial, hrun,
      .inr ⟨(setWork_of_ne hji w').trans ht, rank_setWork hj w' hrank⟩⟩
  rcases hw with hw | hw | hw
  · exact hready (.inl hw)
  · exact hready (.inr hw)
  -- a handler goes on: it has no call, or one that is rejected
  obtain rfl : w = .handling := hw
  cases c with
  | idle =>
      have hstep : step y (.handled j) = .ok (y.setWork j .ready) := by
        simp only [step, handled, bind_eq_ok, thread_eq_ok, require_eq_ok]
        exact ⟨_, hj, (), ⟨rfl, rfl⟩, rfl⟩
      exact ⟨.handled j, _, hji, trivial, hstep, .inr ⟨(setWork_of_ne hji .ready).trans ht,
        rank_setWork (q := y.runQueue) (n := y.nIdles) hj .ready (by simp [Work.rank])⟩⟩
  | entering threads =>
      have hstep : step y (.enter j) = .ok (y.setCall j .idle) := by
        simp only [step, enter, bind_eq_ok, thread_eq_ok]
        refine ⟨_, hj, ?_⟩
        simp only [bind_eq_ok, require_eq_ok, if_pos hk]
        exact ⟨(), hl, rfl⟩
      refine ⟨.enter j, _, hji, hasWork_rejected j hk, hstep, .inr ⟨?_, ?_⟩⟩
      · exact (setCall_of_ne hji .idle).trans ht
      · exact rank_setCall hj Nat.zero_lt_one
  | _ =>
      have hout := (outside_of_runs h).get hj rfl
      cases hout

/-- **Main result.**  A call of `kill_threads` that waits can be signalled, in every state of every
run in which no wait of `kill_threads` ends by itself and a call that passes its test is made
outside the pool and has a thread to kill. -/
theorem kill_not_stuck (h : RunWhere machine HasWork .new ls y) {w : Work}
    (ht : y.threads[i]? = some ⟨w, .waiting total⟩) : CanBeSignalled y i := by
  obtain rfl : w = .outside := (outside_of_runs h).get ht rfl
  -- by how far the signal is
  induction hn : y.rank using Nat.strong_induction_on generalizing y ls with
  | _ n ih =>
      obtain ⟨a, y', ha, hc, hs, hwoken | ⟨hwait, hlt⟩⟩ := onward_step h ht
      · exact ⟨y', .single ⟨a, ha, hs⟩, _, _, hwoken⟩
      · obtain ⟨z, hz, hwoken⟩ := ih _ (hn ▸ hlt) (h.next hc hs) hwait rfl
        exact ⟨z, .head ⟨a, ha, hs⟩ hz, hwoken⟩

/-- A call that waits for one of two threads, with the kill event in the run queue. -/
theorem kill_not_stuck_outside :
    CanBeSignalled ⟨[.kill], 0, 2, 1, false, true, 1, 1,
      [⟨.ready, .idle⟩, ⟨.ready, .idle⟩, ⟨.outside, .waiting 1⟩]⟩ 2 :=
  kill_not_stuck (RunWhere.exec [.addThreads 2, .newThread, .killThreads 2 1, .enter 2,
    .connect 2 none, .addKill 2, .scheduleKill 2 none, .await 2] .start (by decide +kernel) rfl) rfl

/-! ### Nothing to kill -/

/-- A step without a signal leaves a call in its wait. -/
theorem asleep_step {w : Work} (h : Runs ls y) (ht : y.threads[i]? = some ⟨w, .waiting total⟩)
    (hz : y.threadsToKill = 0) {a : Action} (ha : ∀ j, a ≠ .spuriousCall j) {y' : Pool}
    (hs : step y a = .ok y') :
    y'.threadsToKill = 0 ∧ ∃ w', y'.threads[i]? = some ⟨w', .waiting total⟩ := by
  have hsound := sound_of_runs h
  have hasleep : 1 ≤ (transaction ls y).asleep :=
    le_tally (f := fun t : Thread => t.call.calls.asleep) (List.mem_of_getElem? ht)
  have hone := hsound.one
  unfold Transaction.inProgress at hone
  have hgen {j : ℕ} {t : Thread} (hj : y.threads[j]? = some t) : t.call.calls.generating = 0 := by
    have hle : t.call.calls.generating ≤ (transaction ls y).generating :=
      le_tally (f := fun t : Thread => t.call.calls.generating) (List.mem_of_getElem? hj)
    omega
  have hwork (j : ℕ) (v : Work) : ∃ w', (y.setWork j v).threads[i]? = some ⟨w', .waiting total⟩ := by
    by_cases hji : j = i
    · subst hji
      exact ⟨v, setWork_self ht v⟩
    · exact ⟨w, (setWork_of_ne hji v).trans ht⟩
  have hcall {j : ℕ} {t : Thread} (hj : y.threads[j]? = some t) (hne : t.call ≠ .waiting total)
      (c : Call) : ∃ w', (y.setCall j c).threads[i]? = some ⟨w', .waiting total⟩ := by
    refine ⟨w, (setCall_of_ne ?_ c).trans ht⟩
    rintro rfl
    exact hne (congrArg Thread.call (Option.some.inj (hj.symm.trans ht)))
  have happend (l : List Thread) : ∃ w', (y.threads ++ l)[i]? = some ⟨w', .waiting total⟩ := by
    obtain ⟨hi, -⟩ := List.getElem?_eq_some_iff.mp ht
    exact ⟨w, (List.getElem?_append_left hi).trans ht⟩
  have hschedule {j : ℕ} {v : Visit} {x : Option ℕ} {y' : Pool} (hs : schedule y j v x = .ok y') :
      y'.threadsToKill = 0 ∧ ∃ w', y'.threads[i]? = some ⟨w', .waiting total⟩ := by
    obtain ⟨⟨w', c⟩, ht', hc, -⟩ := schedule_thread hs ht
    obtain rfl : c = .waiting total := hc
    obtain ⟨l, rfl, -, -⟩ := schedule_eq hs
    exact ⟨hz, w', ht'⟩
  -- a thread that runs `thread_kill` is one left to kill
  have hkill {j : ℕ} {c : Call} (hj : y.threads[j]? = some ⟨.killing, c⟩)
      (hl : y.locked = false) : False := by
    have hle : 1 ≤ (transaction ls y).killing :=
      le_tally (f := fun t : Thread => t.work.crew.killing) (List.mem_of_getElem? hj)
    obtain ⟨n, hn⟩ := Nat.exists_eq_add_of_le' hle
    obtain ⟨k, -, hk, -⟩ := hsound.killing hn hl
    exact absurd (hz.symm.trans hk) (Nat.succ_ne_zero k).symm
  have hmake {j : ℕ} {w : Work} {c : Call} (hj : y.threads[j]? = some ⟨w, c⟩)
      (hc : 0 < c.calls.generating) : False := hc.ne' (hgen hj)
  cases moves_of_step hs with
  | newThread => exact ⟨hz, happend _⟩
  | addThreads => exact ⟨hz, happend _⟩
  | addEvent _ _ hpush => exact hschedule hpush
  | sleep | takeOther | takeKill | spuriousRun | handled | removeEvent | exit =>
      exact ⟨hz, hwork _ _⟩
  | killLast hj hl => exact (hkill hj hl).elim
  | kill hj hl => exact (hkill hj hl).elim
  | killThreads hj => exact ⟨hz, hcall hj (by simp) _⟩
  | reject hj => exact ⟨hz, hcall hj (by simp) _⟩
  | enter hj => exact ⟨hz, hcall hj (by simp) _⟩
  | connect hj => exact (hmake hj Nat.zero_lt_one).elim
  | generate hj => exact (hmake hj Nat.zero_lt_one).elim
  | addKill hj => exact (hmake hj Nat.zero_lt_one).elim
  | storeKill hj => exact (hmake hj Nat.zero_lt_one).elim
  | scheduleKill hj => exact (hmake hj Nat.zero_lt_one).elim
  | await hj => exact (hmake hj Nat.zero_lt_one).elim
  | spuriousCall => exact absurd rfl (ha _)
  | resume hj => exact ⟨hz, hcall hj (by simp) _⟩
  | quiesced hj => exact ⟨hz, hcall hj (by simp) _⟩

/-- **A call that waits with nothing to kill waits on**, whatever the other threads do. -/
theorem nothing_to_kill {w : Work} (h : Runs ls y) (ht : y.threads[i]? = some ⟨w, .waiting total⟩)
    (hz : y.threadsToKill = 0) {y' : Pool} (hpath : ReflTransGen
      (fun y y' => ∃ a, (∀ j, a ≠ .spuriousCall j) ∧ step y a = .ok y') y y') :
    ∃ w', y'.threads[i]? = some ⟨w', .waiting total⟩ := by
  suffices hall : (∃ ls, Runs ls y') ∧ y'.threadsToKill = 0 ∧
      ∃ w', y'.threads[i]? = some ⟨w', .waiting total⟩ from hall.2.2
  induction hpath with
  | refl => exact ⟨⟨ls, h⟩, hz, w, ht⟩
  | tail _ hs ih =>
      obtain ⟨⟨ls', hrun⟩, hz', w', ht'⟩ := ih
      obtain ⟨a, ha, hs⟩ := hs
      exact ⟨⟨_, hrun.next hs⟩, asleep_step hrun ht' hz' ha hs⟩

end Waiting

/-! ### Calls that are stuck -/

/-- Not a wait that ends by itself. -/
def Signalled (_ : Pool) : Action → Prop
  | .spuriousRun _ => False
  | .spuriousCall _ => False
  | _ => True

instance (y : Pool) (a : Action) : Decidable (Signalled y a) :=
  match a with
  | .spuriousRun _ | .spuriousCall _ => isFalse id
  | .newThread | .addThreads _ | .addEvent _ _ | .run _ | .handled _ | .removeEvent _
  | .threadKill _ _ | .exit _ | .killThreads _ _ | .enter _ | .connect _ _ | .addKill _
  | .scheduleKill _ _ | .await _ | .resume _ | .quiesced _ => isTrue trivial

/-- A worker of a pool of two kills a thread, while the other waits for a stage. -/
def ownWorker : Pool :=
  ⟨[.kill], 1, 2, 1, false, true, 1, 1,
    [⟨.handling, .waiting 1⟩, ⟨.waiting, .idle⟩, ⟨.outside, .idle⟩]⟩

/-- A worker who kills its own pool waits for itself. -/
theorem ownWorker_stuck {a : Action} (ha : Onward 0 a) (y : Pool) :
    step ownWorker a ≠ .ok y := by
  intro h
  cases a with
  | newThread => exact ha
  | addThreads n => exact ha
  | addEvent j x => exact ha
  | spuriousRun j => exact ha
  | killThreads j threads => exact ha
  | spuriousCall j => exact ha
  | run j => rcases j with _ | _ | _ | j <;> first | exact ha rfl | cases h
  | handled j => rcases j with _ | _ | _ | j <;> first | exact ha rfl | cases h
  | removeEvent j => rcases j with _ | _ | _ | j <;> first | exact ha rfl | cases h
  | threadKill j x => rcases j with _ | _ | _ | j <;> first | exact ha rfl | cases h
  | exit j => rcases j with _ | _ | _ | j <;> first | exact ha rfl | cases h
  | enter j => rcases j with _ | _ | _ | j <;> first | exact ha rfl | cases h
  | connect j x => rcases j with _ | _ | _ | j <;> first | exact ha rfl | cases h
  | addKill j => rcases j with _ | _ | _ | j <;> first | exact ha rfl | cases h
  | scheduleKill j x => rcases j with _ | _ | _ | j <;> first | exact ha rfl | cases h
  | await j => rcases j with _ | _ | _ | j <;> first | exact ha rfl | cases h
  | resume j => rcases j with _ | _ | _ | j <;> first | exact ha rfl | cases h
  | quiesced j => rcases j with _ | _ | _ | j <;> first | exact ha rfl | cases h

/-- A call with nothing to kill waits whatever comes after: with a count of zero, on a pool without
threads, and when a thread of the pool makes it that no other thread wakes. -/
theorem kill_can_be_stuck :
    (∃ ls y, RunWhere machine Signalled .new ls y ∧
      y.threads = [⟨.ready, .idle⟩, ⟨.outside, .waiting 0⟩] ∧
      ∀ y', ReflTransGen (fun y y' => ∃ a, (∀ j, a ≠ .spuriousCall j) ∧ step y a = .ok y') y y' →
        ∃ w, y'.threads[1]? = some ⟨w, .waiting 0⟩) ∧
    (∃ ls y, RunWhere machine Signalled .new ls y ∧ y.threads = [⟨.outside, .waiting 0⟩] ∧
      ∀ y', ReflTransGen (fun y y' => ∃ a, (∀ j, a ≠ .spuriousCall j) ∧ step y a = .ok y') y y' →
        ∃ w, y'.threads[0]? = some ⟨w, .waiting 0⟩) ∧
    (∃ ls, RunWhere machine Signalled .new ls ownWorker ∧ ¬ CanBeSignalled ownWorker 0) := by
  refine ⟨?_, ?_, ?_⟩
  · have hrun := RunWhere.exec [.addThreads 1, .newThread, .killThreads 1 0, .enter 1,
      .connect 1 none, .await 1] (RunWhere.start : RunWhere machine Signalled .new [] .new)
      (by decide +kernel) rfl
    exact ⟨_, _, hrun, rfl, fun y' hpath => nothing_to_kill hrun.run rfl rfl hpath⟩
  · have hrun := RunWhere.exec [.newThread, .killThreads 0 5, .enter 0, .connect 0 none, .await 0]
      (RunWhere.start : RunWhere machine Signalled .new [] .new) (by decide +kernel) rfl
    exact ⟨_, _, hrun, rfl, fun y' hpath => nothing_to_kill hrun.run rfl rfl hpath⟩
  · have hrun := RunWhere.exec [.addThreads 2, .newThread, .run 1, .addEvent 2 (some 1), .run 0,
      .run 1, .killThreads 0 1, .enter 0, .connect 0 none, .addKill 0, .scheduleKill 0 none,
      .await 0] (RunWhere.start : RunWhere machine Signalled .new [] .new) (by decide +kernel) rfl
    refine ⟨_, hrun, ?_⟩
    rintro ⟨y', hpath, w, total, hw⟩
    obtain rfl | ⟨z, ⟨a, ha, hs⟩, -⟩ := hpath.cases_head
    · cases hw
    · exact ownWorker_stuck ha z hs

end VulcanDB.Threadpool
