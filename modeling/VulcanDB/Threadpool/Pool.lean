import VulcanDB.Library.Steps

/-!
# Thread pool — The run queue, its threads and the kill transaction

One thread pool: the run queue with the condition its threads wait for, and `kill_threads` with the
condition it waits for.  Any thread may push stages with `schedule`, in a handler of the pool or
outside it, and call `kill_threads`.  A section of `run_mutex_`, and one of the killer's
`list_mutex_`, is one step.  `thread_mutex_` is held from step to step.

A signal wakes one waiting thread if there is one, and any wait may end without a signal.  The
killer's events are counted, not named; `new StageEvent()` gives them no callback, so that
`event->done()` only deletes them.  Other stages are what their handlers do to the pool.
-/

namespace VulcanDB.Threadpool

open Steps

/-! ### State -/

/-- A stage in the run queue: the pool's own `KillThreadStage`, or any other. -/
inductive Visit where
  | kill
  | other
  deriving DecidableEq

/-- Where a thread is in the loop of `run_thread`. -/
inductive Work where
  /-- Not a thread of this pool. -/
  | outside
  /-- Before the section of the loop. -/
  | ready
  /-- In `COND_WAIT` on `run_cond_`. -/
  | waiting
  /-- In `COND_WAIT` still, but woken. -/
  | woken
  /-- In a handler, or in a callback. -/
  | handling
  /-- With the killer taken from the run queue, before `remove_event`. -/
  | visiting
  /-- In `KillThreadStage::handle_event`, before the section of `thread_kill`. -/
  | killing
  /-- Past that section, before `release_event`. -/
  | killed
  | exited
  deriving DecidableEq

/-- Where a thread is in `kill_threads`. -/
inductive Call where
  | idle
  /-- Before `MUTEX_LOCK`. -/
  | entering (threads : ℕ)
  /-- In `killer_.connect()`, with `backlog` events to schedule. -/
  | connecting (total backlog : ℕ)
  /-- In `gen_kill_thread_events`, with `left` events to add. -/
  | adding (total left : ℕ)
  /-- In `killer_.add_event`, past its section. -/
  | scheduling (total left : ℕ)
  /-- In `COND_WAIT` on `thread_cond_`. -/
  | waiting (total : ℕ)
  /-- In `COND_WAIT` still, but woken. -/
  | woken (total : ℕ)
  /-- In `killer_.disconnect()`. -/
  | quiescing (total : ℕ)
  deriving DecidableEq

/-- What a thread does as a worker, and the call it is in. -/
structure Thread where
  work : Work
  call : Call
  deriving DecidableEq

/-- The pool with its kill stage. -/
structure Pool where
  runQueue : List Visit
  nIdles : ℕ
  nthreads : ℕ
  threadsToKill : ℕ
  /-- `thread_mutex_` is held. -/
  locked : Bool
  /-- `killer_`: `connected_`, the length of `event_list_`, and `event_ref_`. -/
  connected : Bool
  queued : ℕ
  eventRef : Int
  threads : List Thread

/-- No thread. -/
def Pool.new : Pool := ⟨[], 0, 0, 0, false, false, 0, 0, []⟩

/-- Why a step is not taken. -/
inductive Stop where
  | disabled
  /-- An assertion fails: of `set_pool`, `connect` or `disconnect`, of `gen_kill_thread_events`, or
  of `remove_event` or `schedule`. -/
  | assertion
  deriving DecidableEq

/-- A thread by its number. -/
def Pool.thread (y : Pool) (i : ℕ) : Except Stop Thread :=
  match y.threads[i]? with
  | some t => .ok t
  | none => .error .disabled

/-- A thread changes its work. -/
def Pool.setWork (y : Pool) (i : ℕ) (w : Work) : Pool :=
  { y with threads := y.threads.modify i fun t => { t with work := w } }

/-- A thread changes its call. -/
def Pool.setCall (y : Pool) (i : ℕ) (c : Call) : Pool :=
  { y with threads := y.threads.modify i fun t => { t with call := c } }

/-- A thread outside the pool, or in a handler, can make a call. -/
def Thread.CanCall (t : Thread) : Prop := t.call = .idle ∧ (t.work = .outside ∨ t.work = .handling)

instance (t : Thread) : Decidable t.CanCall := by unfold Thread.CanCall; infer_instance

/-- `unsigned int` less one. -/
def pred32 : ℕ → ℕ
  | 0 => 2 ^ 32 - 1
  | n + 1 => n

/-! ### The run queue -/

/-- `COND_SIGNAL(&run_cond_)`, which wakes `w`. -/
def signalRun (y : Pool) : Option ℕ → Except Stop Pool
  | some j => do
    let t ← y.thread j
    require (t.work = .waiting) .disabled
    return y.setWork j .woken
  | none => do
    require (∀ t ∈ y.threads, t.work ≠ .waiting) .disabled
    return y

/-- The section of `Threadpool::schedule`. -/
def schedule (y : Pool) (i : ℕ) (v : Visit) (w : Option ℕ) : Except Stop Pool := do
  let t ← y.thread i
  let y' := { y with runQueue := y.runQueue ++ [v] }
  if y.runQueue ≠ [] ∨ t.work = .outside then
    if 0 < y.nIdles then signalRun y' w else return y'
  else return y'

/-- A thread adds an event to a stage other than the killer. -/
def addEvent (y : Pool) (i : ℕ) (w : Option ℕ) : Except Stop Pool := do
  let t ← y.thread i
  require t.CanCall .disabled
  schedule y i .other w

/-- The section of `run_thread`, to its wait or to the end. -/
def run (y : Pool) (i : ℕ) : Except Stop Pool := do
  let t ← y.thread i
  require (t.work = .ready ∨ t.work = .woken) .disabled
  let idles := if t.work = .woken then y.nIdles - 1 else y.nIdles
  match y.runQueue with
  | [] => return { y.setWork i .waiting with nIdles := idles + 1 }
  | .other :: q => return { y.setWork i .handling with runQueue := q, nIdles := idles }
  | .kill :: q => return { y.setWork i .visiting with runQueue := q, nIdles := idles }

/-- The wait of a service thread ends without a signal. -/
def spuriousRun (y : Pool) (i : ℕ) : Except Stop Pool := do
  let t ← y.thread i
  require (t.work = .waiting) .disabled
  return y.setWork i .woken

/-- A handler returns, and the event is released. -/
def handled (y : Pool) (i : ℕ) : Except Stop Pool := do
  let t ← y.thread i
  require (t.work = .handling ∧ t.call = .idle) .disabled
  return y.setWork i .ready

/-- `killer_.remove_event()`. -/
def removeEvent (y : Pool) (i : ℕ) : Except Stop Pool := do
  let t ← y.thread i
  require (t.work = .visiting) .disabled
  require (y.queued ≠ 0) .assertion
  return { y.setWork i .killing with queued := y.queued - 1 }

/-! ### Killing threads -/

/-- A thread is in `COND_WAIT` on `thread_cond_`. -/
def Call.asleep : Call → Bool
  | .waiting _ => true
  | _ => false

/-- The wait on `thread_cond_` ends, but for the mutex. -/
def wakeCall (y : Pool) (i : ℕ) : Except Stop Pool := do
  let t ← y.thread i
  match t.call with
  | .waiting total => return y.setCall i (.woken total)
  | _ => throw .disabled

/-- `COND_SIGNAL(&thread_cond_)`, which wakes `w`. -/
def signalThread (y : Pool) : Option ℕ → Except Stop Pool
  | some j => wakeCall y j
  | none => do
    require (∀ t ∈ y.threads, t.call.asleep = false) .disabled
    return y

/-- `Threadpool::thread_kill`. -/
def threadKill (y : Pool) (i : ℕ) (w : Option ℕ) : Except Stop Pool := do
  let t ← y.thread i
  require (t.work = .killing) .disabled
  require (y.locked = false) .disabled
  let y' := { y.setWork i .killed with
    nthreads := pred32 y.nthreads, threadsToKill := pred32 y.threadsToKill }
  if y'.threadsToKill = 0 then signalThread y' w else return y'

/-- `release_event` and `pthread_exit` in `KillThreadStage::handle_event`. -/
def exit (y : Pool) (i : ℕ) : Except Stop Pool := do
  let t ← y.thread i
  require (t.work = .killed) .disabled
  return { y.setWork i .exited with eventRef := y.eventRef - 1 }

/-- A thread calls `kill_threads`. -/
def killThreads (y : Pool) (i threads : ℕ) : Except Stop Pool := do
  let t ← y.thread i
  require t.CanCall .disabled
  return y.setCall i (.entering threads)

/-- `kill_threads` from `MUTEX_LOCK` to the section of `connect`, or to its early return. -/
def enter (y : Pool) (i : ℕ) : Except Stop Pool := do
  let t ← y.thread i
  match t.call with
  | .entering threads =>
    require (y.locked = false) .disabled
    if 0 < y.threadsToKill then return y.setCall i .idle
    else
      require (y.connected = false) .assertion
      return { y.setCall i (.connecting (min threads y.nthreads) y.queued) with
        locked := true, connected := true, eventRef := y.queued }
  | _ => throw .disabled

/-- `connect` schedules an event of its backlog, or `gen_kill_thread_events` starts. -/
def connect (y : Pool) (i : ℕ) (w : Option ℕ) : Except Stop Pool := do
  let t ← y.thread i
  match t.call with
  | .connecting total (backlog + 1) =>
    require (y.queued ≠ 0) .assertion
    return (← schedule y i .kill w).setCall i (.connecting total backlog)
  | .connecting total 0 =>
    require (total ≤ y.nthreads) .assertion
    return y.setCall i (.adding total total)
  | _ => throw .disabled

/-- The section of `killer_.add_event`. -/
def addKill (y : Pool) (i : ℕ) : Except Stop Pool := do
  let t ← y.thread i
  match t.call with
  | .adding total (left + 1) =>
    if y.connected = true then
      return { y.setCall i (.scheduling total left) with
        queued := y.queued + 1, eventRef := y.eventRef + 1 }
    else return { y.setCall i (.adding total left) with queued := y.queued + 1 }
  | _ => throw .disabled

/-- `th_pool_->schedule(this)` in `killer_.add_event`. -/
def scheduleKill (y : Pool) (i : ℕ) (w : Option ℕ) : Except Stop Pool := do
  let t ← y.thread i
  match t.call with
  | .scheduling total left =>
    require (y.queued ≠ 0) .assertion
    return (← schedule y i .kill w).setCall i (.adding total left)
  | _ => throw .disabled

/-- `threads_to_kill_ = i` and `COND_WAIT`. -/
def await (y : Pool) (i : ℕ) : Except Stop Pool := do
  let t ← y.thread i
  match t.call with
  | .adding total 0 =>
    return { y.setCall i (.waiting total) with threadsToKill := total, locked := false }
  | _ => throw .disabled

/-- `COND_WAIT` has the mutex again; `killer_.disconnect()` to its wait. -/
def resume (y : Pool) (i : ℕ) : Except Stop Pool := do
  let t ← y.thread i
  match t.call with
  | .woken total =>
    require (y.locked = false) .disabled
    require (y.connected = true) .assertion
    return { y.setCall i (.quiescing total) with locked := true, connected := false }
  | _ => throw .disabled

/-- `killer_.disconnect()` and `kill_threads` return. -/
def quiesced (y : Pool) (i : ℕ) : Except Stop Pool := do
  let t ← y.thread i
  match t.call with
  | .quiescing _ =>
    require (y.eventRef ≤ 0) .disabled
    return { y.setCall i .idle with locked := false }
  | _ => throw .disabled

/-- `Threadpool::add_threads` that starts `n` threads. -/
def addThreads (y : Pool) (n : ℕ) : Except Stop Pool := do
  require (y.locked = false) .disabled
  require (y.nthreads + n < 2 ^ 32) .disabled
  return { y with
    threads := y.threads ++ List.replicate n ⟨.ready, .idle⟩, nthreads := y.nthreads + n }

/-! ### The machine -/

/-- What happens. -/
inductive Action where
  /-- A thread of another kind starts. -/
  | newThread
  | addThreads (n : ℕ)
  | addEvent (i : ℕ) (w : Option ℕ)
  | run (i : ℕ)
  | spuriousRun (i : ℕ)
  | handled (i : ℕ)
  | removeEvent (i : ℕ)
  | threadKill (i : ℕ) (w : Option ℕ)
  | exit (i : ℕ)
  | killThreads (i threads : ℕ)
  | enter (i : ℕ)
  | connect (i : ℕ) (w : Option ℕ)
  | addKill (i : ℕ)
  | scheduleKill (i : ℕ) (w : Option ℕ)
  | await (i : ℕ)
  /-- The wait of `kill_threads` ends without a signal. -/
  | spuriousCall (i : ℕ)
  | resume (i : ℕ)
  | quiesced (i : ℕ)

/-- The functions, by their actions. -/
def step (y : Pool) : Action → Except Stop Pool
  | .newThread => .ok { y with threads := y.threads ++ [⟨.outside, .idle⟩] }
  | .addThreads n => addThreads y n
  | .addEvent i w => addEvent y i w
  | .run i => run y i
  | .spuriousRun i => spuriousRun y i
  | .handled i => handled y i
  | .removeEvent i => removeEvent y i
  | .threadKill i w => threadKill y i w
  | .exit i => exit y i
  | .killThreads i threads => killThreads y i threads
  | .enter i => enter y i
  | .connect i w => connect y i w
  | .addKill i => addKill y i
  | .scheduleKill i w => scheduleKill y i w
  | .await i => await y i
  | .spuriousCall i => wakeCall y i
  | .resume i => resume y i
  | .quiesced i => quiesced y i

/-- What is told of a step. -/
inductive Label where
  /-- `add_threads` has started `n` threads. -/
  | started (n : ℕ)
  /-- `kill_threads` returns `n`. -/
  | returned (n : ℕ)
  deriving DecidableEq

/-- What a call of `kill_threads` that ends returns. -/
def returns (y : Pool) (i : ℕ) : List Label :=
  match y.threads[i]? with
  | some ⟨_, .entering _⟩ => if 0 < y.threadsToKill then [.returned 0] else []
  | some ⟨_, .quiescing total⟩ => [.returned total]
  | _ => []

/-- What a step tells. -/
def label (y : Pool) : Action → List Label
  | .addThreads n => [.started n]
  | .enter i => returns y i
  | .quiesced i => returns y i
  | _ => []

/-- **The machine** of the pool. -/
def machine : Machine Pool Action Stop Label := ⟨step, label⟩

/-- A run from a pool without threads. -/
abbrev Runs (ls : List Label) (y : Pool) : Prop := Run machine .new ls y

end VulcanDB.Threadpool
