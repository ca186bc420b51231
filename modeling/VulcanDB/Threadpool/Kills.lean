import VulcanDB.Threadpool.Threads
import VulcanDB.Threadpool.Transaction

/-!
# Thread pool — The kill transactions of a pool

The transaction of a pool is read off its threads, its run queue and its killer.  A step of the
machine is a step of the transaction, or none.

* `transaction_step`: the step, by the functions of the source.
* `survives_spurious`: a call whose wait has ended has nothing left to kill, unless the wait ended
  by itself.
* `one_transaction`: the calls of `kill_threads` that return have killed what they return.
-/

namespace VulcanDB.Threadpool

open Steps Relation

/-! ### The transaction of a pool -/

/-- What a thread counts, by its work. -/
def Work.crew : Work → Crew
  | .outside => ⟨0, 0, 0, 0⟩
  | .ready => ⟨0, 0, 0, 1⟩
  | .waiting => ⟨0, 0, 0, 1⟩
  | .woken => ⟨0, 0, 0, 1⟩
  | .handling => ⟨0, 0, 0, 1⟩
  | .visiting => ⟨1, 0, 0, 1⟩
  | .killing => ⟨0, 1, 0, 1⟩
  | .killed => ⟨0, 0, 1, 0⟩
  | .exited => ⟨0, 0, 0, 0⟩

/-- What it counts, by its call. -/
def Call.calls : Call → Calls
  | .idle => ⟨0, 0, 0, 0, 0, 0, 0, 0⟩
  | .entering _ => ⟨0, 0, 0, 0, 0, 0, 0, 0⟩
  | .connecting total backlog => ⟨1, 0, 0, 0, backlog, total, total, 0⟩
  | .adding total left => ⟨1, 0, 0, 0, 0, left, total, 0⟩
  | .scheduling total left => ⟨1, 0, 0, 0, 1, left, total, 0⟩
  | .waiting total => ⟨0, 1, 0, 0, 0, 0, 0, total⟩
  | .woken total => ⟨0, 0, 1, 0, 0, 0, 0, total⟩
  | .quiescing total => ⟨0, 0, 0, 1, 0, 0, 0, total⟩

/-- All threads, by their work. -/
def crew (l : List Thread) : Crew where
  visiting := tally (fun t => t.work.crew.visiting) l
  killing := tally (fun t => t.work.crew.killing) l
  killed := tally (fun t => t.work.crew.killed) l
  workers := tally (fun t => t.work.crew.workers) l

/-- All threads, by their calls. -/
def calls (l : List Thread) : Calls where
  generating := tally (fun t => t.call.calls.generating) l
  asleep := tally (fun t => t.call.calls.asleep) l
  awake := tally (fun t => t.call.calls.awake) l
  quiescing := tally (fun t => t.call.calls.quiescing) l
  pending := tally (fun t => t.call.calls.pending) l
  left := tally (fun t => t.call.calls.left) l
  wanted := tally (fun t => t.call.calls.wanted) l
  claimed := tally (fun t => t.call.calls.claimed) l

/-- How many are started. -/
def Label.nStarted : Label → ℕ
  | .started n => n
  | .returned _ => 0

/-- How many are reported as killed. -/
def Label.nReturned : Label → ℕ
  | .started _ => 0
  | .returned n => n

/-- **The pool, counted**. -/
def transaction (ls : List Label) (y : Pool) : Transaction where
  toCrew := crew y.threads
  toCalls := calls y.threads
  visits := y.runQueue.count .kill
  queued := y.queued
  nthreads := y.nthreads
  threadsToKill := y.threadsToKill
  connected := y.connected
  locked := y.locked
  ref := y.eventRef
  started := tally Label.nStarted ls
  returned := tally Label.nReturned ls

/-! ### One thread changed -/

/-- The crew with one more thread. -/
def Crew.add (r : Crew) (w : Work) : Crew :=
  ⟨r.visiting + w.crew.visiting, r.killing + w.crew.killing, r.killed + w.crew.killed,
    r.workers + w.crew.workers⟩

/-- One thread more. -/
def Calls.add (r : Calls) (c : Call) : Calls :=
  ⟨r.generating + c.calls.generating, r.asleep + c.calls.asleep, r.awake + c.calls.awake,
    r.quiescing + c.calls.quiescing, r.pending + c.calls.pending, r.left + c.calls.left,
    r.wanted + c.calls.wanted, r.claimed + c.calls.claimed⟩

section View

variable {y y' : Pool} {i : ℕ} {t : Thread}

theorem crew_eq (ht : y.threads[i]? = some t) :
    crew y.threads = (crew (y.threads.eraseIdx i)).add t.work := by
  simp only [crew, Crew.add, tally_eraseIdx _ ht]

theorem crew_setWork (ht : y.threads[i]? = some t) (w : Work) :
    crew (y.setWork i w).threads = (crew (y.threads.eraseIdx i)).add w := by
  simp only [Pool.setWork, crew, Crew.add, tally_modify _ ht]

theorem calls_eq (ht : y.threads[i]? = some t) :
    calls y.threads = (calls (y.threads.eraseIdx i)).add t.call := by
  simp only [calls, Calls.add, tally_eraseIdx _ ht]

theorem calls_setCall (ht : y.threads[i]? = some t) (c : Call) :
    calls (y.setCall i c).threads = (calls (y.threads.eraseIdx i)).add c := by
  simp only [Pool.setCall, calls, Calls.add, tally_modify _ ht]

theorem crew_setCall (y : Pool) (i : ℕ) (c : Call) :
    crew (y.setCall i c).threads = crew y.threads := by
  simp only [crew]
  congr 1 <;> exact tally_setCall y i c fun _ => rfl

theorem calls_setWork (y : Pool) (i : ℕ) (w : Work) :
    calls (y.setWork i w).threads = calls y.threads := by
  simp only [calls]
  congr 1 <;> exact tally_setWork y i w fun _ => rfl

/-- Only a call that makes its events has events to be made. -/
theorem calls_generating {l : List Thread} (h : (calls l).generating = 0) :
    (calls l).pending = 0 ∧ (calls l).left = 0 ∧ (calls l).wanted = 0 := by
  have hnone := tally_eq_zero.mp h
  refine ⟨?_, ?_, ?_⟩
  all_goals
    refine tally_eq_zero.mpr fun t ht => ?_
    have hz := hnone t ht
    obtain ⟨w, c⟩ := t
    cases c <;> first | rfl | cases hz

/-- Only a call that has set `threads_to_kill_` claims what it kills. -/
theorem calls_claimed {l : List Thread}
    (h : (calls l).quiescing + (calls l).asleep + (calls l).awake = 0) : (calls l).claimed = 0 := by
  obtain ⟨hqa, hk⟩ := Nat.add_eq_zero_iff.mp h
  obtain ⟨hq, ha⟩ := Nat.add_eq_zero_iff.mp hqa
  refine tally_eq_zero.mpr fun t ht => ?_
  have hq := tally_eq_zero.mp hq t ht
  have ha := tally_eq_zero.mp ha t ht
  have hk := tally_eq_zero.mp hk t ht
  obtain ⟨w, c⟩ := t
  cases c with
  | waiting total => cases ha
  | woken total => cases hk
  | quiescing total => cases hq
  | _ => rfl

/-! ### The functions, one by one -/

theorem signalRun_eq {w : Option ℕ} (hs : signalRun y w = .ok y') :
    ∃ l, y' = { y with threads := l } ∧ crew l = crew y.threads ∧ calls l = calls y.threads := by
  cases w with
  | none =>
      simp only [signalRun, bind_eq_ok, require_eq_ok, pure_eq_ok] at hs
      obtain ⟨-, -, rfl⟩ := hs
      exact ⟨y.threads, rfl, rfl, rfl⟩
  | some j =>
      simp only [signalRun, bind_eq_ok, thread_eq_ok, require_eq_ok, pure_eq_ok] at hs
      obtain ⟨⟨w, c⟩, ht, -, hw, rfl⟩ := hs
      obtain rfl : w = .waiting := hw
      refine ⟨_, rfl, ?_, calls_setWork y j .woken⟩
      exact (crew_setWork ht .woken).trans (crew_eq ht).symm

/-- The section of `schedule` has no part in the transaction but for the stage it pushes. -/
theorem schedule_eq {v : Visit} {w : Option ℕ} (hs : schedule y i v w = .ok y') :
    ∃ l, y' = { y with runQueue := y.runQueue ++ [v], threads := l } ∧
      crew l = crew y.threads ∧ calls l = calls y.threads := by
  simp only [schedule, bind_eq_ok, thread_eq_ok] at hs
  obtain ⟨t, -, hs⟩ := hs
  split at hs
  · split at hs
    · exact signalRun_eq hs
    · obtain rfl := pure_eq_ok.mp hs
      exact ⟨y.threads, rfl, rfl, rfl⟩
  · obtain rfl := pure_eq_ok.mp hs
    exact ⟨y.threads, rfl, rfl, rfl⟩

theorem wakeCall_eq (hs : wakeCall y i = .ok y') :
    ∃ l a, y' = { y with threads := l } ∧ crew l = crew y.threads ∧
      (calls y.threads).asleep = a + 1 ∧
      calls l = { calls y.threads with asleep := a, awake := (calls y.threads).awake + 1 } := by
  obtain ⟨w, total, ht, rfl⟩ := wakeCall_eq_ok hs
  refine ⟨_, (calls (y.threads.eraseIdx i)).asleep, rfl, crew_setCall y i _, ?_, ?_⟩
  · rw [calls_eq ht]
    rfl
  · rw [calls_eq ht]
    exact calls_setCall ht _

theorem signalThread_eq {w : Option ℕ} (hs : signalThread y w = .ok y') :
    ∃ l a b, y' = { y with threads := l } ∧ crew l = crew y.threads ∧
      calls l = { calls y.threads with asleep := a, awake := b } ∧
      ((calls y.threads).asleep = a + 1 ∧ b = (calls y.threads).awake + 1 ∨
        (calls y.threads).asleep = 0 ∧ a = 0 ∧ b = (calls y.threads).awake) := by
  cases w with
  | none =>
      simp only [signalThread, bind_eq_ok, require_eq_ok, pure_eq_ok] at hs
      obtain ⟨-, hall, rfl⟩ := hs
      have hzero : (calls y.threads).asleep = 0 := by
        refine tally_eq_zero.mpr fun t ht => ?_
        have hsleep := hall t ht
        obtain ⟨w, c⟩ := t
        cases c <;> first | rfl | cases hsleep
      refine ⟨y.threads, 0, _, rfl, rfl, ?_, .inr ⟨hzero, rfl, rfl⟩⟩
      rw [← hzero]
  | some j =>
      obtain ⟨l, a, rfl, hcrew, ha, hcalls⟩ := wakeCall_eq hs
      exact ⟨l, a, _, rfl, hcrew, hcalls, .inl ⟨ha, rfl⟩⟩

/-- What a step may do: the calls that pass their test are to kill `least` threads or more, and
only if `early` a wait ends by itself with threads left to kill. -/
def Admits (least : ℕ) (early : Prop) (y : Pool) : Action → Prop
  | .enter i => ∀ t ∈ y.threads[i]?, ∀ threads, t.call = .entering threads →
      y.threadsToKill = 0 → least ≤ min threads y.nthreads
  | .spuriousCall _ => early ∨ y.threadsToKill = 0
  | _ => True

variable {least : ℕ} {early : Prop} {ls : List Label}

/-- **The last kill** signals the call. -/
theorem killLast_transaction {c : Call} {w : Option ℕ} (ht : y.threads[i]? = some ⟨.killing, c⟩)
    (hl : y.locked = false) (hz : pred32 y.threadsToKill = 0)
    (hs : signalThread { y.setWork i .killed with
      nthreads := pred32 y.nthreads, threadsToKill := pred32 y.threadsToKill } w = .ok y') :
    Transaction.Step least early (transaction ls y) (transaction ls y') := by
  obtain ⟨l, a, b, rfl, hcrew, hcalls, ha⟩ := signalThread_eq hs
  have hcrew : crew l = (crew (y.threads.eraseIdx i)).add .killed :=
    hcrew.trans (crew_setWork ht .killed)
  have hsame : calls (y.setWork i .killed).threads = calls y.threads := calls_setWork y i .killed
  rw [show calls _ = calls y.threads from hsame] at hcalls ha
  simp only [transaction, hcrew, hcalls, crew_eq ht, hz]
  exact .killLast rfl rfl hl hz ha

theorem schedule_transaction {v : Visit} {w : Option ℕ} (hs : schedule y i v w = .ok y') :
    transaction ls y' =
      { transaction ls y with visits := (transaction ls y).visits + List.count .kill [v] } := by
  obtain ⟨l, rfl, hcrew, hcalls⟩ := schedule_eq hs
  simp only [transaction, hcrew, hcalls, List.count_append]

/-- A call that makes its events pushes one of them. -/
theorem scheduleKill_transaction {w : Option ℕ} {c c' : Call} {y₁ : Pool}
    (hs : schedule y i .kill w = .ok y₁) (ht : y.threads[i]? = some t) (hc : t.call = c)
    (hg : 0 < c.calls.generating)
    (hpush : ∀ r : Calls, ∃ n, (r.add c).pending = n + 1 ∧
      r.add c' = { r.add c with pending := n }) :
    Transaction.Step least early (transaction ls y) (transaction ls (y₁.setCall i c')) := by
  obtain ⟨⟨w', c₁⟩, ht₁, hcall, -⟩ := schedule_thread hs ht
  obtain rfl : c₁ = c := hcall.trans hc
  obtain ⟨l, rfl, hcrew, hcalls⟩ := schedule_eq hs
  have hcalls : calls y.threads = (calls (l.eraseIdx i)).add c₁ := hcalls.symm.trans (calls_eq ht₁)
  obtain ⟨n, hn, hadd⟩ := hpush (calls (l.eraseIdx i))
  have hgen : 0 < ((calls (l.eraseIdx i)).add c₁).generating := by
    dsimp only [Calls.add]
    omega
  have hafter : transaction ls (Pool.setCall
      { y with runQueue := y.runQueue ++ [.kill], threads := l } i c') =
      { transaction ls y with
        toCalls := { (calls (l.eraseIdx i)).add c₁ with pending := n },
        visits := y.runQueue.count .kill + 1 } := by
    simp only [transaction, crew_setCall, hcrew, calls_setCall ht₁, hadd]
    simp [Pool.setCall]
  rw [hafter]
  simp only [transaction, hcalls]
  exact .schedule hn hgen

theorem crew_of_run {w : Work} (hw : w = .ready ∨ w = .woken) : w.crew = ⟨0, 0, 0, 1⟩ := by
  obtain rfl | rfl := hw <;> rfl

/-- A step without labels. -/
theorem silent {a : Action} (ha : label y a = [])
    (h : ReflGen (Transaction.Step least early) (transaction ls y) (transaction ls y')) :
    ReflGen (Transaction.Step least early) (transaction ls y)
      (transaction (ls ++ label y a) y') := by
  rwa [ha, List.append_nil]

/-- A step of the pool is a step of its transaction, or none. -/
abbrev TransactionStep (least : ℕ) (early : Prop) (ls : List Label) (y : Pool) (a : Action)
    (y' : Pool) : Prop :=
  ReflGen (Transaction.Step least early) (transaction ls y) (transaction (ls ++ label y a) y')

/-! The threads of the pool. -/

theorem transaction_newThread : TransactionStep least early ls y .newThread
    { y with threads := y.threads ++ [⟨.outside, .idle⟩] } := by
  have hsame : transaction ls { y with threads := y.threads ++ [⟨.outside, .idle⟩] } =
      transaction ls y := by
    simp [transaction, crew, calls, Work.crew, Call.calls]
  refine silent rfl ?_
  rw [hsame]

theorem transaction_addThreads {n : ℕ} (hl : y.locked = false) :
    TransactionStep least early ls y (.addThreads n) { y with
      threads := y.threads ++ List.replicate n ⟨.ready, .idle⟩, nthreads := y.nthreads + n } := by
  have hstart : transaction (ls ++ [.started n]) { y with
      threads := y.threads ++ List.replicate n ⟨.ready, .idle⟩, nthreads := y.nthreads + n } =
      { transaction ls y with
        workers := (crew y.threads).workers + n, nthreads := y.nthreads + n,
        started := tally Label.nStarted ls + n } := by
    simp [transaction, crew, calls, tally, Work.crew, Call.calls, Label.nStarted,
      Label.nReturned]
  rw [TransactionStep, label, hstart]
  exact .single (.start n hl)

theorem transaction_addEvent {w : Option ℕ} (hpush : schedule y i .other w = .ok y') :
    TransactionStep least early ls y (.addEvent i w) y' := by
  refine silent rfl ?_
  rw [schedule_transaction hpush]
  exact .refl

theorem transaction_sleep {w : Work} {c : Call} (ht : y.threads[i]? = some ⟨w, c⟩)
    (hw : w = .ready ∨ w = .woken) : TransactionStep least early ls y (.run i)
      { y.setWork i .waiting with nIdles := y.idlesOf w + 1 } := by
  refine silent rfl ?_
  simp only [transaction, crew_setWork ht, calls_setWork, crew_eq ht, Crew.add, crew_of_run hw]
  exact .refl

theorem transaction_takeOther {w : Work} {c : Call} {q : List Visit}
    (ht : y.threads[i]? = some ⟨w, c⟩) (hw : w = .ready ∨ w = .woken)
    (hq : y.runQueue = .other :: q) : TransactionStep least early ls y (.run i)
      { y.setWork i .handling with runQueue := q, nIdles := y.idlesOf w } := by
  refine silent rfl ?_
  simp only [transaction, crew_setWork ht, calls_setWork, crew_eq ht, Crew.add, crew_of_run hw,
    hq]
  exact .refl

theorem transaction_takeKill {w : Work} {c : Call} {q : List Visit}
    (ht : y.threads[i]? = some ⟨w, c⟩) (hw : w = .ready ∨ w = .woken)
    (hq : y.runQueue = .kill :: q) : TransactionStep least early ls y (.run i)
      { y.setWork i .visiting with runQueue := q, nIdles := y.idlesOf w } := by
  refine silent rfl ?_
  simp only [transaction, crew_setWork ht, calls_setWork, crew_eq ht, Crew.add, crew_of_run hw,
    hq, List.count_cons_self]
  exact .single (.take rfl)

theorem transaction_spuriousRun {c : Call} (ht : y.threads[i]? = some ⟨.waiting, c⟩) :
    TransactionStep least early ls y (.spuriousRun i) (y.setWork i .woken) := by
  refine silent rfl ?_
  simp only [transaction, crew_setWork ht, calls_setWork, crew_eq ht]
  exact .refl

theorem transaction_handled {c : Call} (ht : y.threads[i]? = some ⟨.handling, c⟩) :
    TransactionStep least early ls y (.handled i) (y.setWork i .ready) := by
  refine silent rfl ?_
  simp only [transaction, crew_setWork ht, calls_setWork, crew_eq ht]
  exact .refl

theorem transaction_removeEvent {c : Call} (ht : y.threads[i]? = some ⟨.visiting, c⟩)
    (hq : y.queued ≠ 0) : TransactionStep least early ls y (.removeEvent i)
      { y.setWork i .killing with queued := y.queued - 1 } := by
  refine silent rfl ?_
  simp only [transaction, crew_setWork ht, calls_setWork, crew_eq ht]
  exact .single (.remove rfl (by dsimp only; omega))

theorem transaction_kill {w : Option ℕ} {c : Call} (ht : y.threads[i]? = some ⟨.killing, c⟩)
    (hl : y.locked = false) (hz : pred32 y.threadsToKill ≠ 0) :
    TransactionStep least early ls y (.threadKill i w) { y.setWork i .killed with
      nthreads := pred32 y.nthreads, threadsToKill := pred32 y.threadsToKill } := by
  refine silent rfl ?_
  simp only [transaction, crew_setWork ht, calls_setWork, crew_eq ht]
  exact .single (.kill rfl rfl hl hz)

theorem transaction_exit {c : Call} (ht : y.threads[i]? = some ⟨.killed, c⟩) :
    TransactionStep least early ls y (.exit i)
      { y.setWork i .exited with eventRef := y.eventRef - 1 } := by
  refine silent rfl ?_
  simp only [transaction, crew_setWork ht, calls_setWork, crew_eq ht]
  exact .single (.exit rfl)

/-! The calls of `kill_threads`. -/

theorem transaction_killThreads {w : Work} {n : ℕ} (ht : y.threads[i]? = some ⟨w, .idle⟩) :
    TransactionStep least early ls y (.killThreads i n) (y.setCall i (.entering n)) := by
  refine silent rfl ?_
  simp only [transaction, calls_setCall ht, crew_setCall, calls_eq ht]
  exact .refl

/-- A call that finds another at work returns 0. -/
theorem transaction_reject {w : Work} {n : ℕ} (ht : y.threads[i]? = some ⟨w, .entering n⟩)
    (hk : 0 < y.threadsToKill) :
    TransactionStep least early ls y (.enter i) (y.setCall i .idle) := by
  have hlabel : label y (.enter i) = [.returned 0] := by simp [label, returns, ht, hk]
  rw [TransactionStep, hlabel]
  simp only [transaction, calls_setCall ht, crew_setCall, calls_eq ht, tally_append,
    tally_cons, tally_nil, Label.nStarted, Label.nReturned]
  exact .refl

theorem transaction_enter {w : Work} {n : ℕ} (ht : y.threads[i]? = some ⟨w, .entering n⟩)
    (hl : y.locked = false) (hk : y.threadsToKill = 0) (hc : y.connected = false)
    (hleast : least ≤ min n y.nthreads) : TransactionStep least early ls y (.enter i)
      { y.setCall i (.connecting (min n y.nthreads) y.queued) with
        locked := true, connected := true, eventRef := y.queued } := by
  refine silent (by simp [label, returns, ht, hk]) ?_
  simp only [transaction, calls_setCall ht, crew_setCall, calls_eq ht]
  exact .single (.enter _ hl hk hc hleast (Nat.min_le_right _ _))

theorem transaction_generate {v : Work} {w : Option ℕ} {total : ℕ}
    (ht : y.threads[i]? = some ⟨v, .connecting total 0⟩) :
    TransactionStep least early ls y (.connect i w) (y.setCall i (.adding total total)) := by
  refine silent rfl ?_
  simp only [transaction, calls_setCall ht, crew_setCall, calls_eq ht]
  exact .refl

theorem transaction_addKill {w : Work} {total left : ℕ}
    (ht : y.threads[i]? = some ⟨w, .adding total (left + 1)⟩) (hc : y.connected = true) :
    TransactionStep least early ls y (.addKill i) { y.setCall i (.scheduling total left) with
      queued := y.queued + 1, eventRef := y.eventRef + 1 } := by
  refine silent rfl ?_
  simp only [transaction, calls_setCall ht, crew_setCall, calls_eq ht]
  exact .single (.add rfl (Nat.succ_pos _) hc)

theorem transaction_storeKill {w : Work} {total left : ℕ}
    (ht : y.threads[i]? = some ⟨w, .adding total (left + 1)⟩) (hc : y.connected = false) :
    TransactionStep least early ls y (.addKill i)
      { y.setCall i (.adding total left) with queued := y.queued + 1 } := by
  refine silent rfl ?_
  simp only [transaction, calls_setCall ht, crew_setCall, calls_eq ht]
  exact .single (.store rfl (Nat.succ_pos _) hc)

theorem transaction_await {w : Work} {total : ℕ}
    (ht : y.threads[i]? = some ⟨w, .adding total 0⟩) : TransactionStep least early ls y (.await i)
      { y.setCall i (.waiting total) with threadsToKill := total, locked := false } := by
  refine silent rfl ?_
  simp only [transaction, calls_setCall ht, crew_setCall, calls_eq ht]
  refine .single (.await total rfl rfl fun hnone => ?_)
  obtain ⟨hpending, hleft, hwanted⟩ := calls_generating hnone
  exact ⟨hleft, hpending, hwanted⟩

theorem transaction_spuriousCall (hwake : wakeCall y i = .ok y')
    (ha : early ∨ y.threadsToKill = 0) :
    TransactionStep least early ls y (.spuriousCall i) y' := by
  refine silent rfl ?_
  obtain ⟨l, k, rfl, hcrew, hasleep, hcalls⟩ := wakeCall_eq hwake
  simp only [transaction, hcrew, hcalls]
  exact .single (.wake hasleep ha)

theorem transaction_resume {w : Work} {total : ℕ} (ht : y.threads[i]? = some ⟨w, .woken total⟩)
    (hl : y.locked = false) (hc : y.connected = true) :
    TransactionStep least early ls y (.resume i)
      { y.setCall i (.quiescing total) with locked := true, connected := false } := by
  refine silent rfl ?_
  simp only [transaction, calls_setCall ht, crew_setCall, calls_eq ht]
  exact .single (.resume rfl hl hc)

/-- A call that is done returns what it has been asked for. -/
theorem transaction_quiesced {w : Work} {total : ℕ}
    (ht : y.threads[i]? = some ⟨w, .quiescing total⟩) (href : y.eventRef ≤ 0) :
    TransactionStep least early ls y (.quiesced i)
      { y.setCall i .idle with locked := false } := by
  have hlabel : label y (.quiesced i) = [.returned total] := by simp [label, returns, ht]
  rw [TransactionStep, hlabel]
  simp only [transaction, calls_setCall ht, crew_setCall, calls_eq ht, tally_append,
    tally_cons, tally_nil, Label.nStarted, Label.nReturned]
  exact .single (.leave total rfl href rfl fun hnone => calls_claimed hnone)

variable (ls) in
/-- Every step of a pool is a step of its transaction, or none. -/
theorem transaction_step {a : Action} (ha : Admits least early y a) (hs : step y a = .ok y') :
    ReflGen (Transaction.Step least early) (transaction ls y)
      (transaction (ls ++ label y a) y') := by
  change TransactionStep least early ls y a y'
  cases moves_of_step hs with
  | newThread => exact transaction_newThread
  | addThreads hl => exact transaction_addThreads hl
  | addEvent _ _ hpush => exact transaction_addEvent hpush
  | sleep ht hw _ => exact transaction_sleep ht hw
  | takeOther ht hw hq => exact transaction_takeOther ht hw hq
  | takeKill ht hw hq => exact transaction_takeKill ht hw hq
  | spuriousRun ht => exact transaction_spuriousRun ht
  | handled ht => exact transaction_handled ht
  | removeEvent ht hq => exact transaction_removeEvent ht hq
  | killLast ht hl hz hsignal => exact silent rfl (.single (killLast_transaction ht hl hz hsignal))
  | kill ht hl hz => exact transaction_kill ht hl hz
  | exit ht => exact transaction_exit ht
  | killThreads ht _ => exact transaction_killThreads ht
  | reject ht _ hk => exact transaction_reject ht hk
  | enter ht hl hk hc => exact transaction_enter ht hl hk hc (ha _ ht _ rfl hk)
  | connect ht hpush =>
      exact silent rfl (.single
        (scheduleKill_transaction hpush ht rfl Nat.zero_lt_one fun r => ⟨_, rfl, rfl⟩))
  | generate ht => exact transaction_generate ht
  | addKill ht hc => exact transaction_addKill ht hc
  | storeKill ht hc => exact transaction_storeKill ht hc
  | scheduleKill ht hpush =>
      exact silent rfl (.single
        (scheduleKill_transaction hpush ht rfl Nat.zero_lt_one fun r => ⟨_, rfl, rfl⟩))
  | await ht => exact transaction_await ht
  | spuriousCall hwake => exact transaction_spuriousCall hwake ha
  | resume ht hl hc => exact transaction_resume ht hl hc
  | quiesced ht href => exact transaction_quiesced ht href

end View

/-! ### Runs -/

section Runs

variable {y y' : Pool} {ls : List Label} {least : ℕ} {early : Prop}

/-- **One step**. -/
theorem sound_step {a : Action} (hs : step y a = .ok y') (h : (transaction ls y).Sound) :
    (transaction (ls ++ label y a) y').Sound := by
  have hany : Admits 0 True y a := by
    cases a with
    | enter i => exact fun _ _ _ _ _ => Nat.zero_le _
    | spuriousCall i => exact .inl trivial
    | _ => trivial
  have hstep := transaction_step ls hany hs
  generalize transaction (ls ++ label y a) y' = x at hstep ⊢
  cases hstep with
  | refl => exact h
  | single hstep => exact h.step hstep

/-- **Every run**, by induction on it. -/
theorem sound_of_runs (h : Runs ls y) : (transaction ls y).Sound :=
  h.invariant (P := fun ls y => (transaction ls y).Sound) Transaction.sound_new
    fun _ _ _ _ ih hs => sound_step hs ih

/-! ### A wait that ends -/

/-- The wait of `kill_threads` does not end without a signal while there is a thread to kill. -/
def OnSignal (y : Pool) : Action → Prop
  | .spuriousCall _ => y.threadsToKill = 0
  | _ => True

instance (y : Pool) (a : Action) : Decidable (OnSignal y a) :=
  match a with
  | .spuriousCall _ => inferInstanceAs (Decidable (_ = _))
  | .newThread | .addThreads _ | .addEvent _ _ | .run _ | .spuriousRun _ | .handled _
  | .removeEvent _ | .threadKill _ _ | .exit _ | .killThreads _ _ | .enter _ | .connect _ _
  | .addKill _ | .scheduleKill _ _ | .await _ | .resume _ | .quiesced _ => isTrue trivial

/-- The call is past its `COND_WAIT`, with or without the mutex. -/
def Call.continues : Call → Bool
  | .woken _ => true
  | .quiescing _ => true
  | _ => false

/-- **Every run** without wake-ups by chance, by induction on it. -/
theorem quits_of_runs (h : RunWhere machine OnSignal .new ls y) : (transaction ls y).Quits := by
  refine (h.invariant (P := fun ls y => (transaction ls y).Sound ∧ (transaction ls y).Quits)
    ⟨Transaction.sound_new, fun hpos => absurd hpos (lt_irrefl 0)⟩ ?_).2
  rintro ls y a y' ⟨hsound, ih⟩ hc hs
  refine ⟨sound_step hs hsound, ?_⟩
  have hadm : Admits 0 False y a := by
    cases a with
    | enter i => exact fun _ _ _ _ _ => Nat.zero_le _
    | spuriousCall i => exact .inr hc
    | _ => trivial
  have hstep := transaction_step ls hadm hs
  change (transaction (ls ++ label y a) y').Quits
  generalize transaction (ls ++ label y a) y' = x at hstep ⊢
  cases hstep with
  | refl => exact ih
  | single hstep => exact ih.step hsound hstep

theorem countP_killed (l : List Thread) :
    l.countP (fun u => u.work = .killed) = tally (fun t => t.work.crew.killed) l := by
  induction l with
  | nil => rfl
  | cons t l ih =>
      obtain ⟨w, c⟩ := t
      rw [List.countP_cons, ih, tally_cons]
      cases w <;> simp [Work.crew, add_comm]

/-- **Main result.**  A call of `kill_threads` that goes on past its wait has nothing left to kill:
every event it has made has run `thread_kill`, and its `disconnect` waits only for threads that have
run it. -/
theorem survives_spurious (h : RunWhere machine OnSignal .new ls y) {t : Thread}
    (ht : t ∈ y.threads) (hc : t.call.continues = true) :
    y.threadsToKill = 0 ∧ .kill ∉ y.runQueue ∧
      (∀ u ∈ y.threads, u.work ≠ .visiting ∧ u.work ≠ .killing) ∧
      y.eventRef = y.threads.countP (fun u => u.work = .killed) := by
  have hsound := sound_of_runs h.run
  have hpos : 0 < (transaction ls y).awake + (transaction ls y).quiescing := by
    obtain ⟨w, c⟩ := t
    cases c with
    | woken total =>
        have hle := le_tally (f := fun t : Thread => t.call.calls.awake) ht
        exact Nat.add_pos_left hle _
    | quiescing total =>
        have hle := le_tally (f := fun t : Thread => t.call.calls.quiescing) ht
        exact Nat.add_pos_right _ hle
    | _ => cases hc
  have hzero := quits_of_runs h hpos
  have hgen : (transaction ls y).generating = 0 := by
    have hone := hsound.one
    unfold Transaction.inProgress at hone
    omega
  obtain ⟨hvisits, hvisiting, hkilling, href⟩ := hsound.settled hgen hzero
  refine ⟨hzero, List.count_eq_zero.mp hvisits, fun u hu => ⟨fun hw => ?_, fun hw => ?_⟩, ?_⟩
  · have := tally_eq_zero.mp hvisiting u hu
    simp [hw, Work.crew] at this
  · have := tally_eq_zero.mp hkilling u hu
    simp [hw, Work.crew] at this
  · rw [countP_killed]
    exact href

/-- After a wait that ends by itself the call holds `thread_mutex_` and waits for the thread that
waits for `thread_mutex_`. -/
theorem not_survives_spurious : ∃ ls y, Runs ls y ∧ y.threadsToKill = 1 ∧
    y.threads = [⟨.killing, .idle⟩, ⟨.outside, .quiescing 1⟩] ∧
    step y (.quiesced 1) = .error .disabled ∧
    ∀ w, step y (.threadKill 0 w) = .error .disabled := by
  refine ⟨_, _, Run.exec [.addThreads 1, .newThread, .killThreads 1 1, .enter 1, .connect 1 none,
    .addKill 1, .scheduleKill 1 none, .await 1, .run 0, .removeEvent 0, .spuriousCall 1, .resume 1]
    .start rfl, rfl, rfl, rfl, fun w => rfl⟩

/-- A call that is signalled, and the thread that signals it. -/
theorem survives_spurious_signalled :
    let y : Pool := ⟨[], 0, 0, 0, true, false, 0, 1,
      [⟨.killed, .idle⟩, ⟨.outside, .quiescing 1⟩]⟩
    y.threadsToKill = 0 ∧ .kill ∉ y.runQueue ∧
      (∀ u ∈ y.threads, u.work ≠ .visiting ∧ u.work ≠ .killing) ∧
      y.eventRef = y.threads.countP (fun u => u.work = .killed) :=
  survives_spurious (RunWhere.exec [.addThreads 1, .newThread, .killThreads 1 1, .enter 1,
    .connect 1 none, .addKill 1, .scheduleKill 1 none, .await 1, .run 0, .removeEvent 0,
    .threadKill 0 (some 1), .resume 1] .start (by decide +kernel) rfl)
    (t := ⟨.outside, .quiescing 1⟩) (by simp) rfl

/-! ### One transaction at a time -/

/-- A call passes its test only while no other call is past its own. -/
def Alone (y : Pool) : Action → Prop
  | .enter i => ∀ t ∈ y.threads[i]?, ∀ threads, t.call = .entering threads → y.locked = false →
      y.threadsToKill = 0 → ∀ u ∈ y.threads, u.call.inProgress = false
  | _ => True

variable (ls y) in
theorem inProgress_eq_zero :
    (transaction ls y).inProgress = 0 ↔ ∀ u ∈ y.threads, u.call.inProgress = false := by
  have hsum : (transaction ls y).inProgress =
      tally (fun u => if u.call.inProgress = true then 1 else 0) y.threads := by
    change tally _ y.threads + tally _ y.threads + tally _ y.threads + tally _ y.threads = _
    induction y.threads with
    | nil => rfl
    | cons t l ih =>
        obtain ⟨w, c⟩ := t
        simp only [tally_cons]
        rw [← ih]
        cases c <;> simp only [Call.calls, Call.inProgress] <;> simp <;> omega
  rw [hsum, tally_eq_zero]
  simp

/-! ### Assertions -/

theorem signalRun_ne_assertion {w : Option ℕ} : signalRun y w ≠ .error .assertion := by
  cases w <;> simp [signalRun]

theorem schedule_ne_assertion {i : ℕ} {v : Visit} {w : Option ℕ} :
    schedule y i v w ≠ .error .assertion := by
  intro h
  simp only [schedule, bind_eq_error, thread_eq_error, reduceCtorEq, and_false, false_or,
    thread_eq_ok] at h
  obtain ⟨t, -, h⟩ := h
  split at h
  · split at h
    · exact signalRun_ne_assertion h
    · cases h
  · cases h

theorem wakeCall_ne_assertion {i : ℕ} : wakeCall y i ≠ .error .assertion := by
  intro h
  simp only [wakeCall, bind_eq_error, thread_eq_error, reduceCtorEq, and_false, false_or,
    thread_eq_ok] at h
  obtain ⟨t, -, h⟩ := h
  split at h <;> cases h

theorem signalThread_ne_assertion {w : Option ℕ} : signalThread y w ≠ .error .assertion := by
  cases w with
  | none => simp [signalThread]
  | some j => exact wakeCall_ne_assertion

/-- A call that makes its events finds the killer with an event for every place in the run queue. -/
theorem queued_of_pending (h : (transaction ls y).Sound) {i : ℕ} {t : Thread}
    (ht : y.threads[i]? = some t) (hp : 0 < t.call.calls.pending) : y.queued ≠ 0 := by
  have hle : t.call.calls.pending ≤ (transaction ls y).pending :=
    le_tally (f := fun t : Thread => t.call.calls.pending) (List.mem_of_getElem? ht)
  have hq := h.queued
  change y.queued = _ at hq
  omega

/-- The steps with an assertion that fails, each at its own. -/
inductive Fails (y : Pool) : Action → Prop
  | removeEvent {i c} (ht : y.threads[i]? = some ⟨.visiting, c⟩) (hq : y.queued = 0) :
      Fails y (.removeEvent i)
  | enter {i w n} (ht : y.threads[i]? = some ⟨w, .entering n⟩) (hl : y.locked = false)
      (hk : y.threadsToKill = 0) (hc : y.connected = true) : Fails y (.enter i)
  | connect {i v w total backlog}
      (ht : y.threads[i]? = some ⟨v, .connecting total (backlog + 1)⟩) (hq : y.queued = 0) :
      Fails y (.connect i w)
  | generate {i v w total} (ht : y.threads[i]? = some ⟨v, .connecting total 0⟩)
      (hn : y.nthreads < total) : Fails y (.connect i w)
  | scheduleKill {i v w total left} (ht : y.threads[i]? = some ⟨v, .scheduling total left⟩)
      (hq : y.queued = 0) : Fails y (.scheduleKill i w)
  | resume {i w total} (ht : y.threads[i]? = some ⟨w, .woken total⟩) (hl : y.locked = false)
      (hc : y.connected = false) : Fails y (.resume i)

/-- The assertion is behind the lookup of the thread. -/
theorem failed_of_thread {α : Type} {i : ℕ} {f : Thread → Except Stop α}
    (h : y.thread i >>= f = .error .assertion) :
    ∃ t, y.threads[i]? = some t ∧ f t = .error .assertion := by
  simp only [bind_eq_error, thread_eq_error, reduceCtorEq, and_false, false_or, thread_eq_ok] at h
  exact h

/-! The functions with an assertion that may fail. -/

theorem fails_of_removeEvent {i : ℕ} (h : removeEvent y i = .error .assertion) :
    Fails y (.removeEvent i) := by
  simp only [removeEvent, bind_eq_error, thread_eq_error, reduceCtorEq, and_false,
    false_or, require_eq_error, thread_eq_ok, pure_ne_error, exists_false, or_false,
    and_true, not_not] at h
  obtain ⟨⟨w, c⟩, ht, u, hw, hq⟩ := h
  obtain rfl : w = .visiting := require_eq_ok.mp hw
  exact .removeEvent ht hq

theorem fails_of_enter {i : ℕ} (h : enter y i = .error .assertion) :
    Fails y (.enter i) := by
  obtain ⟨⟨w, c⟩, ht, h⟩ := failed_of_thread h
  cases c with
  | entering threads =>
      simp only [bind_eq_error, require_eq_error, reduceCtorEq, and_false, false_or,
        require_eq_ok] at h
      obtain ⟨-, hl, h⟩ := h
      split at h
      · cases h
      · rename_i hk
        simp only [bind_eq_error, require_eq_error, pure_ne_error, exists_false, or_false,
          and_false, and_true, Bool.not_eq_false] at h
        exact .enter ht hl (Nat.eq_zero_of_not_pos hk) h
  | _ => cases h

theorem fails_of_connect {i : ℕ} {w : Option ℕ} (h : connect y i w = .error .assertion) :
    Fails y (.connect i w) := by
  obtain ⟨⟨w', c⟩, ht, h⟩ := failed_of_thread h
  split at h
  · rename_i total backlog hc
    obtain rfl : c = .connecting total (backlog + 1) := hc
    simp only [bind_eq_error, require_eq_error, ne_eq, not_not, and_true, pure_ne_error,
      exists_false, or_false, and_false] at h
    rcases h with hq | ⟨-, -, h⟩
    · exact .connect ht hq
    · exact absurd h schedule_ne_assertion
  · rename_i total hc
    obtain rfl : c = .connecting total 0 := hc
    simp only [bind_eq_error, require_eq_error, pure_ne_error, exists_false, or_false,
      and_false, and_true, not_le] at h
    exact .generate ht h
  · cases h

theorem fails_of_scheduleKill {i : ℕ} {w : Option ℕ} (h : scheduleKill y i w = .error .assertion) :
    Fails y (.scheduleKill i w) := by
  obtain ⟨⟨w', c⟩, ht, h⟩ := failed_of_thread h
  cases c with
  | scheduling total left =>
      simp only [bind_eq_error, require_eq_error, ne_eq, not_not, and_true, pure_ne_error,
        exists_false, or_false, and_false] at h
      rcases h with hq | ⟨-, -, h⟩
      · exact .scheduleKill ht hq
      · exact absurd h schedule_ne_assertion
  | _ => cases h

theorem fails_of_resume {i : ℕ} (h : resume y i = .error .assertion) :
    Fails y (.resume i) := by
  obtain ⟨⟨w', c⟩, ht, h⟩ := failed_of_thread h
  cases c with
  | woken total =>
      simp only [bind_eq_error, require_eq_error, reduceCtorEq, and_false, false_or,
        require_eq_ok, pure_ne_error, exists_false, or_false, and_true,
        Bool.not_eq_true] at h
      obtain ⟨-, hl, hc⟩ := h
      exact .resume ht hl hc
  | _ => cases h

/-- A step fails an assertion where `Fails` says so. -/
theorem fails_of_step {a : Action} (h : step y a = .error .assertion) : Fails y a := by
  cases a with
  | newThread => cases h
  | addThreads n => simp [step, addThreads] at h
  | addEvent i w =>
      simp only [step, addEvent, bind_eq_error, thread_eq_error, reduceCtorEq, and_false, false_or,
        require_eq_error, thread_eq_ok] at h
      obtain ⟨t, -, -, -, h⟩ := h
      exact absurd h schedule_ne_assertion
  | run i =>
      simp only [step, run, bind_eq_error, thread_eq_error, reduceCtorEq, and_false, false_or,
        require_eq_error, thread_eq_ok] at h
      obtain ⟨t, -, -, -, h⟩ := h
      split at h <;> cases h
  | spuriousRun i => simp [step, spuriousRun] at h
  | handled i => simp [step, handled] at h
  -- these have assertions, the others do not
  | removeEvent i => exact fails_of_removeEvent h
  | threadKill i w =>
      simp only [step, threadKill, bind_eq_error, thread_eq_error, reduceCtorEq, and_false,
        false_or, require_eq_error, thread_eq_ok] at h
      obtain ⟨t, -, -, -, -, -, h⟩ := h
      split at h
      · exact absurd h signalThread_ne_assertion
      · cases h
  | exit i => simp [step, exit] at h
  | killThreads i threads => simp [step, killThreads] at h
  | enter i => exact fails_of_enter h
  | connect i w => exact fails_of_connect h
  | addKill i =>
      obtain ⟨t, -, h⟩ := failed_of_thread h
      split at h
      · split at h <;> cases h
      · cases h
  | scheduleKill i w => exact fails_of_scheduleKill h
  | await i =>
      obtain ⟨t, -, h⟩ := failed_of_thread h
      split at h <;> cases h
  | spuriousCall i => exact absurd h wakeCall_ne_assertion
  | resume i => exact fails_of_resume h
  | quiesced i =>
      obtain ⟨t, -, h⟩ := failed_of_thread h
      split at h
      · simp at h
      · cases h

/-- Only the test of `kill_threads` can be followed by an assertion that fails. -/
theorem enter_of_fails (hs : (transaction ls y).Sound) {a : Action} (h : Fails y a) :
    ∃ i, a = .enter i := by
  cases h with
  | enter => exact ⟨_, rfl⟩
  | removeEvent ht hq =>
      have hle : 1 ≤ (transaction ls y).visiting :=
        le_tally (f := fun t : Thread => t.work.crew.visiting) (List.mem_of_getElem? ht)
      have hqueued := hs.queued
      change y.queued = _ at hqueued
      omega
  | connect ht hq => exact absurd hq (queued_of_pending hs ht (Nat.succ_pos _))
  | @generate i v w total ht hn =>
      have hgen : 1 ≤ (transaction ls y).generating :=
        le_tally (f := fun t : Thread => t.call.calls.generating) (List.mem_of_getElem? ht)
      have hle : total ≤ (transaction ls y).wanted :=
        le_tally (f := fun t : Thread => t.call.calls.wanted) (List.mem_of_getElem? ht)
      have hfit := (hs.generating hgen).2.1
      change _ ≤ y.nthreads at hfit
      omega
  | scheduleKill ht hq => exact absurd hq (queued_of_pending hs ht Nat.zero_lt_one)
  | resume ht hl hc =>
      have hle : 1 ≤ (transaction ls y).awake :=
        le_tally (f := fun t : Thread => t.call.calls.awake) (List.mem_of_getElem? ht)
      have hconn : y.connected = true := hs.connected.mpr (by omega)
      rw [hc] at hconn
      cases hconn

/-- Where `thread_mutex_` is free, the killer is disconnected if no call is past its test. -/
theorem disconnected_iff (hs : (transaction ls y).Sound) (hl : y.locked = false) :
    y.connected = false ↔ ∀ u ∈ y.threads, u.call.inProgress = false := by
  refine ⟨fun hc => (inProgress_eq_zero y ls).mp (hs.free hl hc), fun hall => ?_⟩
  have hzero := (inProgress_eq_zero y ls).mpr hall
  unfold Transaction.inProgress at hzero
  have hconn := hs.connected
  change y.connected = true ↔ _ at hconn
  rw [← Bool.not_eq_true, hconn]
  omega

/-- **A step fails an assertion** exactly when it is not alone. -/
theorem assertion_iff (hs : (transaction ls y).Sound) (a : Action) :
    step y a ≠ .error .assertion ↔ Alone y a := by
  constructor
  · intro hne
    cases a with
    | enter i =>
        intro t ht threads hc hl hk
        rw [← disconnected_iff hs hl]
        by_contra hconn
        refine hne ?_
        have ht : y.thread i = .ok t := thread_eq_ok.mpr ht
        simp [step, enter, ht, hc, hl, hk, hconn, require, bind, Except.bind]
    | _ => trivial
  · intro hall he
    have hfails := fails_of_step he
    obtain ⟨i, rfl⟩ := enter_of_fails hs hfails
    cases hfails with
    | enter ht hl hk hc =>
        have hconn := (disconnected_iff hs hl).mpr (hall _ ht _ rfl hl hk)
        rw [hc] at hconn
        cases hconn

/-- **Main result.**  In every state of every run an assertion is ahead only of a call that passes
its test while another call is past its own; a call passes its test alone exactly where it finds
the killer disconnected; the counters are not zero where `thread_kill` takes one from them; and with
no call past its test the threads that are gone are those the calls have returned. -/
theorem one_transaction (h : Runs ls y) :
    (∀ a, step y a ≠ .error .assertion ↔ Alone y a) ∧
    (y.locked = false →
      (y.connected = false ↔ ∀ u ∈ y.threads, u.call.inProgress = false)) ∧
    (∀ i w y', step y (.threadKill i w) = .ok y' → 0 < y.threadsToKill ∧ 0 < y.nthreads) ∧
    ((∀ u ∈ y.threads, u.call.inProgress = false) →
      y.threadsToKill = 0 ∧ y.nthreads + tally Label.nReturned ls = tally Label.nStarted ls) := by
  have hs := sound_of_runs h
  refine ⟨assertion_iff hs, disconnected_iff hs, fun i w y' hk => ?_, fun hall => ?_⟩
  · obtain ⟨c, ht, hl⟩ : ∃ c, y.threads[i]? = some ⟨.killing, c⟩ ∧ y.locked = false := by
      cases moves_of_step hk with
      | killLast ht hl => exact ⟨_, ht, hl⟩
      | kill ht hl => exact ⟨_, ht, hl⟩
    have hle : 1 ≤ (transaction ls y).killing :=
      le_tally (f := fun t : Thread => t.work.crew.killing) (List.mem_of_getElem? ht)
    obtain ⟨n, hn⟩ := Nat.exists_eq_add_of_le' hle
    obtain ⟨k, m, hk, hm, -, -⟩ := hs.killing hn hl
    change y.threadsToKill = _ at hk
    change y.nthreads = _ at hm
    omega
  · have hzero := (inProgress_eq_zero y ls).mpr hall
    obtain ⟨href, hclaimed⟩ := hs.quiet hzero
    unfold Transaction.inProgress at hzero
    have hcounted := (hs.counted (by omega)).1
    have hsum := hs.sum
    have hparts := hs.ref
    have htk : (transaction ls y).threadsToKill = 0 := by omega
    refine ⟨htk, ?_⟩
    change y.nthreads + _ + _ = _ + _ at hsum
    rw [htk, hclaimed] at hsum
    exact hsum

/-- A call that comes after the last `thread_kill` of another, and before that other has the mutex
again, fails the assertion. -/
theorem not_one_transaction : ∃ ls y, Runs ls y ∧ y.threadsToKill = 0 ∧ y.connected = true ∧
    y.threads = [⟨.killed, .idle⟩, ⟨.outside, .woken 1⟩, ⟨.outside, .entering 1⟩] ∧
    step y (.enter 2) = .error .assertion :=
  ⟨_, _, Run.exec [.addThreads 1, .newThread, .newThread, .killThreads 1 1, .enter 1,
    .connect 1 none, .addKill 1, .scheduleKill 1 none, .await 1, .run 0, .removeEvent 0,
    .threadKill 0 (some 1), .killThreads 2 1] .start rfl, rfl, rfl, rfl, rfl⟩

/-- A call that kills one of two threads and returns. -/
theorem one_transaction_killed :
    let y : Pool := ⟨[], 0, 1, 0, false, false, 0, 0,
      [⟨.exited, .idle⟩, ⟨.ready, .idle⟩, ⟨.outside, .idle⟩]⟩
    (∀ a, step y a ≠ .error .assertion ↔ Alone y a) ∧
    (y.locked = false →
      (y.connected = false ↔ ∀ u ∈ y.threads, u.call.inProgress = false)) ∧
    (∀ i w y', step y (.threadKill i w) = .ok y' → 0 < y.threadsToKill ∧ 0 < y.nthreads) ∧
    ((∀ u ∈ y.threads, u.call.inProgress = false) →
      y.threadsToKill = 0 ∧ y.nthreads + tally Label.nReturned [.started 2, .returned 1] =
        tally Label.nStarted [.started 2, .returned 1]) :=
  one_transaction (Run.exec [.addThreads 2, .newThread, .killThreads 2 1, .enter 2,
    .connect 2 none, .addKill 2, .scheduleKill 2 none, .await 2, .run 0, .removeEvent 0,
    .threadKill 0 (some 2), .resume 2, .exit 0, .quiesced 2] .start rfl)

end Runs

end VulcanDB.Threadpool
