import VulcanDB.Threadpool.Threads

/-!
# Thread pool — No wake-up is lost

The condition of the run queue, with its waiters counted.  A thread that pushes need not signal
where it comes back to the queue itself, or where no thread is counted as idle.

* `Idling.Sound.step`: the count is that of the threads in the wait, and while a thread waits the
  queue is no longer than the threads that come back to it.
* `no_lost_wakeup`: so the threads of a pool never all wait while a stage is in the queue.
-/

namespace VulcanDB.Threadpool

open Steps Relation

/-! ### Waiters and their counter -/

/-- `busy` counts the threads that come back to the queue without a signal. -/
structure Idling where
  queue : ℕ
  nIdles : ℕ
  waiting : ℕ
  woken : ℕ
  busy : ℕ

namespace Idling

/-- A push signals a waiter, finds none, or leaves the stage to the thread that pushes. -/
inductive Signal : Idling → Idling → Prop
  | wake {l n} (h : l.waiting = n + 1) : Signal l { l with waiting := n, woken := l.woken + 1 }
  | nobody {l} (h : l.waiting = 0) : Signal l l
  | noIdles {l} (h : l.nIdles = 0) : Signal l l
  | myself {l} (hq : l.queue = 0) (hb : 0 < l.busy) : Signal l l

/-- What happens to the queue and its workers. -/
inductive Step : Idling → Idling → Prop
  | start {l} (n : ℕ) : Step l { l with busy := l.busy + n }
  | push {l l'} (h : Signal l l') : Step l { l' with queue := l'.queue + 1 }
  | wake {l n} (h : l.waiting = n + 1) : Step l { l with waiting := n, woken := l.woken + 1 }
  | sleep {l n} (hq : l.queue = 0) (h : l.busy = n + 1) :
      Step l { l with busy := n, waiting := l.waiting + 1, nIdles := l.nIdles + 1 }
  | sleepAgain {l n} (hq : l.queue = 0) (h : l.woken = n + 1) :
      Step l { l with woken := n, waiting := l.waiting + 1, nIdles := l.nIdles - 1 + 1 }
  | take {l n q} (hq : l.queue = q + 1) (h : l.busy = n + 1) : Step l { l with queue := q }
  | leave {l n q} (hq : l.queue = q + 1) (h : l.busy = n + 1) :
      Step l { l with queue := q, busy := n }
  | takeWoken {l n q} (hq : l.queue = q + 1) (h : l.woken = n + 1) :
      Step l { l with queue := q, woken := n, nIdles := l.nIdles - 1, busy := l.busy + 1 }
  | leaveWoken {l n q} (hq : l.queue = q + 1) (h : l.woken = n + 1) :
      Step l { l with queue := q, woken := n, nIdles := l.nIdles - 1 }

/-- The counter is exact, and no visit waits while workers sleep. -/
structure Sound (l : Idling) : Prop where
  nIdles : l.nIdles = l.waiting + l.woken
  covered : l.waiting = 0 ∨ l.queue ≤ l.woken + l.busy

/-- After a push with its signal, the queue is still covered. -/
theorem Sound.signal {l l' : Idling} (h : Sound l) (hs : Signal l l') :
    l'.nIdles = l'.waiting + l'.woken ∧
      (l'.waiting = 0 ∨ l'.queue + 1 ≤ l'.woken + l'.busy) := by
  have hn := h.nIdles
  have hc := h.covered
  cases hs with
  | wake hw =>
      dsimp only
      omega
  | nobody hw => exact ⟨hn, .inl hw⟩
  | noIdles hi => exact ⟨hn, .inl (by omega)⟩
  | myself hq hb => exact ⟨hn, .inr (by omega)⟩

/-- **One step**. -/
theorem Sound.step {l l' : Idling} (h : Sound l) (hs : Step l l') : Sound l' := by
  have hn := h.nIdles
  have hc := h.covered
  cases hs with
  | start n => exact ⟨hn, by dsimp only; omega⟩
  | push hsig =>
      obtain ⟨hn', hc'⟩ := h.signal hsig
      exact ⟨hn', hc'⟩
  | wake hw => constructor <;> dsimp only <;> omega
  | sleep hq hb =>
      -- a thread waits only when the queue is empty
      exact ⟨by dsimp only; omega, .inr (by dsimp only; omega)⟩
  | sleepAgain hq hw => exact ⟨by dsimp only; omega, .inr (by dsimp only; omega)⟩
  | take hq hb => exact ⟨hn, by dsimp only; omega⟩
  | leave hq hb => exact ⟨hn, by dsimp only; omega⟩
  | takeWoken hq hw => constructor <;> dsimp only <;> omega
  | leaveWoken hq hw => constructor <;> dsimp only <;> omega

end Idling

/-! ### The waiters of a pool -/

/-- The thread waits for a visit. -/
def Thread.waiting (t : Thread) : ℕ := if t.work = .waiting then 1 else 0

/-- It was woken. -/
def Thread.woken (t : Thread) : ℕ := if t.work = .woken then 1 else 0

/-- It is about to look at the queue. -/
def Thread.busy (t : Thread) : ℕ := if t.work = .ready ∨ t.work = .handling then 1 else 0

/-- The pool, counted. -/
def Pool.idling (y : Pool) : Idling where
  queue := y.runQueue.length
  nIdles := y.nIdles
  waiting := tally Thread.waiting y.threads
  woken := tally Thread.woken y.threads
  busy := tally Thread.busy y.threads

section View

variable {y y' : Pool} {i : ℕ} {t : Thread}

/-- The waiters, with one thread apart. -/
theorem exists_idling (ht : y.threads[i]? = some t) :
    ∃ n k b : ℕ,
      y.idling = ⟨y.runQueue.length, y.nIdles, n + t.waiting, k + t.woken, b + t.busy⟩ ∧
      ∀ (w : Work) (y' : Pool), y'.threads = (y.setWork i w).threads →
        y'.idling = ⟨y'.runQueue.length, y'.nIdles, n + Thread.waiting ⟨w, t.call⟩,
          k + Thread.woken ⟨w, t.call⟩, b + Thread.busy ⟨w, t.call⟩⟩ := by
  refine ⟨tally Thread.waiting (y.threads.eraseIdx i), tally Thread.woken (y.threads.eraseIdx i),
    tally Thread.busy (y.threads.eraseIdx i), ?_, fun w y' hy' => ?_⟩
  · rw [Pool.idling, tally_eraseIdx _ ht, tally_eraseIdx _ ht, tally_eraseIdx _ ht]
  · rw [Pool.idling, hy', Pool.setWork, tally_modify _ ht, tally_modify _ ht, tally_modify _ ht]

/-- The calls do not matter. -/
theorem setCall_idling (y : Pool) (i : ℕ) (c : Call) : (y.setCall i c).idling = y.idling := by
  rw [Pool.idling, tally_setCall y i c (f := Thread.waiting) fun _ => rfl,
    tally_setCall y i c (f := Thread.woken) fun _ => rfl,
    tally_setCall y i c (f := Thread.busy) fun _ => rfl]
  rfl

theorem tally_pos {f : Thread → ℕ} (ht : y.threads[i]? = some t) (hf : 0 < f t) :
    0 < tally f y.threads :=
  lt_of_lt_of_le hf (le_tally (List.mem_of_getElem? ht))

/-- A signal wakes one, or nobody waits. -/
theorem signalRun_idling {w : Option ℕ} (hs : signalRun y w = .ok y') (q : ℕ) :
    Idling.Signal { y.idling with queue := q } { y'.idling with queue := q } ∧
      y'.runQueue = y.runQueue := by
  cases w with
  | none =>
      simp only [signalRun, bind_eq_ok, require_eq_ok, pure_eq_ok] at hs
      obtain ⟨-, hall, rfl⟩ := hs
      exact ⟨.nobody (tally_eq_zero.mpr fun t ht => if_neg (hall t ht)), rfl⟩
  | some j =>
      simp only [signalRun, bind_eq_ok, thread_eq_ok, require_eq_ok, pure_eq_ok] at hs
      obtain ⟨⟨w, c⟩, ht, -, hw, rfl⟩ := hs
      obtain rfl : w = .waiting := hw
      obtain ⟨n, k, b, hy, hr⟩ := exists_idling ht
      rw [hy, hr .woken _ rfl]
      exact ⟨.wake rfl, rfl⟩

/-- The section of `schedule` is a push, by a thread outside the pool or in a handler. -/
theorem schedule_idling {v : Visit} {w : Option ℕ} (hs : schedule y i v w = .ok y')
    (ht : y.threads[i]? = some t) (hw : t.work = .outside ∨ t.work = .handling) :
    Idling.Step y.idling y'.idling := by
  have hpush {l : Idling} (hsig : Idling.Signal y.idling l)
      (heq : y'.idling = { l with queue := l.queue + 1 }) : Idling.Step y.idling y'.idling :=
    heq ▸ .push hsig
  simp only [schedule, bind_eq_ok, thread_eq_ok] at hs
  obtain ⟨u, hu, hs⟩ := hs
  obtain rfl := Option.some.inj (ht.symm.trans hu)
  split at hs
  · split at hs
    · obtain ⟨hsig, hq⟩ := signalRun_idling hs y.runQueue.length
      exact hpush hsig (by simp [Pool.idling, hq])
    · rename_i hidle
      obtain rfl := pure_eq_ok.mp hs
      exact hpush (.noIdles (show y.nIdles = 0 by omega)) (by simp [Pool.idling])
  · rename_i hq
    obtain rfl := pure_eq_ok.mp hs
    rw [not_or, not_not] at hq
    have hb : 0 < y.idling.busy := tally_pos ht (by simp [Thread.busy, hw.resolve_left hq.2])
    exact hpush (.myself (by simp [Pool.idling, hq.1]) hb) (by simp [Pool.idling])

/-- A move in the loop that leaves the waiters and the queue. -/
theorem setWork_idling (ht : y.threads[i]? = some t) {w : Work}
    (hw : Thread.waiting ⟨w, t.call⟩ = t.waiting) (hk : Thread.woken ⟨w, t.call⟩ = t.woken)
    (hb : Thread.busy ⟨w, t.call⟩ = t.busy) : (y.setWork i w).idling = y.idling := by
  obtain ⟨n, k, b, hy, hr⟩ := exists_idling ht
  rw [hy, hr w _ rfl, hw, hk, hb]
  rfl

theorem wakeCall_idling (hs : wakeCall y i = .ok y') : y'.idling = y.idling := by
  obtain ⟨w, total, ht, rfl⟩ := wakeCall_eq_ok hs
  exact setCall_idling ..

theorem signalThread_idling {w : Option ℕ} (hs : signalThread y w = .ok y') :
    y'.idling = y.idling := by
  cases w with
  | none =>
      simp only [signalThread, bind_eq_ok, require_eq_ok, pure_eq_ok] at hs
      obtain ⟨-, -, rfl⟩ := hs
      rfl
  | some j => exact wakeCall_idling hs

theorem scheduleKill_idling {v : Visit} {w : Option ℕ} {y₁ : Pool} {c : Call}
    (hp : y.All Thread.Placed) (hs : schedule y i v w = .ok y₁) (ht : y.threads[i]? = some t)
    (hc : t.call ≠ .idle) : Idling.Step y.idling (y₁.setCall i c).idling := by
  rw [setCall_idling]
  exact schedule_idling hs ht ((hp.get ht).resolve_left hc)

/-- Every step of a pool is a step of its waiters, or none. -/
theorem idling_step (hp : y.All Thread.Placed) {a : Action} (hs : step y a = .ok y') :
    ReflGen Idling.Step y.idling y'.idling := by
  have hcall (i : ℕ) (c : Call) : ReflGen Idling.Step y.idling (y.setCall i c).idling :=
    setCall_idling y i c ▸ .refl
  cases moves_of_step hs with
  | newThread =>
      have hsame : Pool.idling { y with threads := y.threads ++ [⟨.outside, .idle⟩] } = y.idling := by
        simp [Pool.idling, Thread.waiting, Thread.woken, Thread.busy]
      rw [hsame]
  | @addThreads n hl =>
      have hstart : Pool.idling { y with
          threads := y.threads ++ List.replicate n ⟨.ready, .idle⟩, nthreads := y.nthreads + n } =
          { y.idling with busy := y.idling.busy + n } := by
        simp [Pool.idling, tally, Thread.waiting, Thread.woken, Thread.busy]
      rw [hstart]
      exact .single (.start n)
  | addEvent ht hc hpush => exact .single (schedule_idling hpush ht hc.2)
  -- a worker at the queue: it was ready, or it was woken
  | sleep ht hw hq =>
      obtain ⟨n, k, b, hy, hr⟩ := exists_idling ht
      rw [hy, hr .waiting _ (by rfl)]
      obtain rfl | rfl := hw
      · exact .single (.sleep (by simp [hq]) rfl)
      · exact .single (.sleepAgain (by simp [hq]) rfl)
  | takeOther ht hw hq =>
      obtain ⟨n, k, b, hy, hr⟩ := exists_idling ht
      rw [hy, hr .handling _ (by rfl)]
      obtain rfl | rfl := hw
      · exact .single (.take (by simp [hq]) rfl)
      · exact .single (.takeWoken (by simp [hq]) rfl)
  | takeKill ht hw hq =>
      obtain ⟨n, k, b, hy, hr⟩ := exists_idling ht
      rw [hy, hr .visiting _ (by rfl)]
      obtain rfl | rfl := hw
      · exact .single (.leave (by simp [hq]) rfl)
      · exact .single (.leaveWoken (by simp [hq]) rfl)
  -- from here on nobody joins or leaves those who wait
  | spuriousRun ht =>
      obtain ⟨n, k, b, hy, hr⟩ := exists_idling ht
      rw [hy, hr .woken _ rfl]
      exact .single (.wake rfl)
  | handled ht =>
      have hsame := setWork_idling ht (w := .ready) rfl rfl rfl
      rw [hsame]
  | removeEvent ht hq =>
      have hsame := setWork_idling ht (w := .killing) rfl rfl rfl
      exact hsame ▸ .refl
  | killLast ht hl hz hsignal =>
      have hsame := setWork_idling ht (w := .killed) rfl rfl rfl
      rw [signalThread_idling hsignal]
      exact hsame ▸ .refl
  | kill ht hl hz =>
      have hsame := setWork_idling ht (w := .killed) rfl rfl rfl
      exact hsame ▸ .refl
  | exit ht =>
      have hsame := setWork_idling ht (w := .exited) rfl rfl rfl
      exact hsame ▸ .refl
  | connect ht hpush => exact .single (scheduleKill_idling hp hpush ht (by simp))
  | scheduleKill ht hpush => exact .single (scheduleKill_idling hp hpush ht (by simp))
  | spuriousCall hwake => rw [wakeCall_idling hwake]
  | killThreads | reject | enter | generate | addKill | storeKill | await | resume | quiesced =>
      exact hcall ..

end View

/-! ### What holds in every run -/

/-- **Every run**, by induction on it. -/
theorem idling_of_runs {ls : List Label} {y : Pool} (h : Runs ls y) : y.idling.Sound := by
  refine (h.invariant (P := fun ls y => Runs ls y ∧ y.idling.Sound) ⟨.start, rfl, .inl rfl⟩ ?_).2
  rintro ls y a y' ⟨hrun, ih⟩ hs
  refine ⟨hrun.next hs, ?_⟩
  have hstep := idling_step (placed_of_runs hrun) hs
  generalize y'.idling = l at hstep ⊢
  cases hstep with
  | refl => exact ih
  | single hstep => exact ih.step hstep

/-- A thread of the pool that `nthreads_` counts. -/
def Thread.Live (t : Thread) : Prop := t.work ≠ .outside ∧ t.work ≠ .killed ∧ t.work ≠ .exited

/-- A thread in the wait on `run_cond_`, woken or not. -/
def Thread.Idle (t : Thread) : Prop := t.work = .waiting ∨ t.work = .woken

instance (t : Thread) : Decidable t.Idle := inferInstanceAs (Decidable (_ ∨ _))

/-- The idle threads are those that wait and those that were woken. -/
theorem countP_idle (l : List Thread) :
    l.countP (fun t => t.Idle) = tally Thread.waiting l + tally Thread.woken l := by
  induction l with
  | nil => rfl
  | cons t l ih =>
      obtain ⟨w, c⟩ := t
      rw [List.countP_cons, ih, tally_cons, tally_cons]
      cases w <;> simp [Thread.Idle, Thread.waiting, Thread.woken] <;> omega

/-- **Main result.**  In every state of every run `n_idles_` counts the threads in the wait, and no
stage is in the run queue while all the threads of the pool wait for a wake-up. -/
theorem no_lost_wakeup {ls : List Label} {y : Pool} (h : Runs ls y) :
    y.nIdles = y.threads.countP (fun t => t.Idle) ∧
      ¬ (y.runQueue ≠ [] ∧ (∃ t ∈ y.threads, t.Live) ∧
          ∀ t ∈ y.threads, t.Live → t.work = .waiting) := by
  have hs := idling_of_runs h
  refine ⟨?_, ?_⟩
  · rw [countP_idle]
    exact hs.nIdles
  · rintro ⟨hq, ⟨t, ht, hlive⟩, hall⟩
    have hother {t : Thread} {w : Work} (ht : t ∈ y.threads) (hw : t.work = w)
        (hlive : Thread.Live ⟨w, t.call⟩) (hne : w ≠ .waiting) : False :=
      hne (hw.symm.trans (hall t ht (by rwa [← hw] at hlive)))
    have hwait : 0 < y.idling.waiting :=
      lt_of_lt_of_le (by simp [Thread.waiting, hall t ht hlive]) (le_tally ht)
    have hwoken : y.idling.woken = 0 := by
      refine tally_eq_zero.mpr fun t ht => if_neg fun hw => hother ht hw ?_ ?_
      · simp [Thread.Live]
      · simp
    have hbusy : y.idling.busy = 0 := by
      refine tally_eq_zero.mpr fun t ht => if_neg ?_
      rintro (hw | hw) <;> exact hother ht hw (by simp [Thread.Live]) (by simp)
    have hpos : 0 < y.idling.queue := List.length_pos_iff.mpr hq
    have hcov := hs.covered
    omega

/-- A thread waits, and a push from outside wakes it. -/
theorem no_lost_wakeup_push :
    let y : Pool := ⟨[.other], 1, 1, 0, false, false, 0, 0, [⟨.woken, .idle⟩, ⟨.outside, .idle⟩]⟩
    y.nIdles = y.threads.countP (fun t => t.Idle) ∧
      ¬ (y.runQueue ≠ [] ∧ (∃ t ∈ y.threads, t.Live) ∧
          ∀ t ∈ y.threads, t.Live → t.work = .waiting) :=
  no_lost_wakeup (Run.exec [.addThreads 1, .newThread, .run 0, .addEvent 1 (some 0)] .start rfl)

end VulcanDB.Threadpool
