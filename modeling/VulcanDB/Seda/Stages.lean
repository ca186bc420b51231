import VulcanDB.Library.Steps

/-!
# SEDA — Stages, thread pools and their threads

The event queues of the stages, the run queues of the thread pools, and the threads that call
`add_event`, `connect` and `disconnect` or run the loop of `run_thread`.  A section that holds a
mutex is one step; between two sections any thread may step.  A wait on a condition is a section
that ends at the wait and another that tests the condition again.

Handlers are whatever calls their thread makes before it releases the event.  `initialize`,
`disconnect_prepare` and `cleanup` call nothing.  The counters `nthreads_`, `threads_to_kill_` and
`n_idles_`, the event history and the timeouts do not change what a stage does and are left out.
-/

namespace VulcanDB.Seda

open Steps

variable {σ ε : Type}

/-! ### State -/

/-- A stage: its queue, its flag, its references and its pool. -/
structure StageState (ε : Type) where
  eventList : List ε
  connected : Bool
  eventRef : Int
  thPool : Option ℕ

/-- `Stage::Stage(tag)`. -/
def StageState.new : StageState ε := ⟨[], false, 0, none⟩

/-- Where a thread is in a call of `add_event`, `connect` or `disconnect`. -/
inductive Call (σ : Type) where
  | idle
  /-- In `connect`, before its section. -/
  | initializing (s : σ)
  /-- After the section of `add_event` or `connect`, with `left` calls of `schedule` to make. -/
  | scheduling (s : σ) (left : ℕ) (connecting : Bool)
  /-- In `Threadpool::schedule`, past its assertion, with `left` more calls to make. -/
  | pushing (s : σ) (pool left : ℕ) (connecting : Bool)
  /-- In `disconnect`, waiting for `disconnect_cond_`. -/
  | waiting (s : σ)

/-- Where a service thread is in the loop of `run_thread`. -/
inductive Work (σ ε : Type) where
  | idle
  /-- Between the run queue and `remove_event`. -/
  | popped (s : σ)
  /-- In `handle_event`, or in `done_immediate` for a rescheduled callback. -/
  | handling (s : σ) (event : ε) (callback : Bool)
  /-- In `KillThreadStage::handle_event`, past `thread_kill`. -/
  | killing (s : σ) (event : ε)
  | exited

/-- A thread, of a pool if it is a service thread. -/
structure Thread (σ ε : Type) where
  pool : Option ℕ
  work : Work σ ε
  call : Call σ

/-- A thread at its start. -/
def Thread.new (pool : Option ℕ) : Thread σ ε := ⟨pool, .idle, .idle⟩

/-- Every stage, the run queues of the pools, and the threads. -/
structure Sys (σ ε : Type) where
  stage : σ → StageState ε
  runQueues : List (List σ)
  threads : List (Thread σ ε)

/-- No pool and no thread. -/
def Sys.new : Sys σ ε := ⟨fun _ => .new, [], []⟩

/-- Why a step is not taken. -/
inductive Stop where
  /-- It is not the thread's turn, or the step is not the thread's next one. -/
  | disabled
  /-- An assertion about the caller: connected already, or not connected, or no pool. -/
  | misuse
  /-- `assert(!stage->qempty())`, `assert(!event_list_.empty())`. -/
  | noEvent
  /-- `th_pool_` is null where it is used. -/
  | noPool
  deriving DecidableEq

/-- A thread outside the service loop, or in a handler, can make a call. -/
def Thread.CanCall (t : Thread σ ε) : Prop :=
  t.call matches .idle ∧
    ((t.pool = none ∧ t.work matches .idle) ∨ t.work matches .handling .. ∨
      t.work matches .killing ..)

instance (t : Thread σ ε) : Decidable t.CanCall := by unfold Thread.CanCall; infer_instance

/-- A thread by its number. -/
def Sys.thread (y : Sys σ ε) (i : ℕ) : Except Stop (Thread σ ε) :=
  match y.threads[i]? with
  | some t => .ok t
  | none => .error .disabled

/-- A write to a thread. -/
def Sys.setThread (y : Sys σ ε) (i : ℕ) (t : Thread σ ε) : Sys σ ε :=
  { y with threads := y.threads.set i t }

section Step

variable [DecidableEq σ]

/-- A write to a stage. -/
def Sys.setStage (y : Sys σ ε) (s : σ) (st : StageState ε) : Sys σ ε :=
  { y with stage := Function.update y.stage s st }

/-! ### Calls under way -/

/-- Calls of `schedule` for `s` that the thread has yet to make or to finish. -/
def Thread.due (s : σ) (t : Thread σ ε) : ℕ :=
  match t.call with
  | .scheduling s' left _ => if s' = s then left else 0
  | .pushing s' _ left _ => if s' = s then left + 1 else 0
  | _ => 0

/-- The thread is in `connect`, before the backlog. -/
def Thread.starting (s : σ) (t : Thread σ ε) : ℕ :=
  match t.call with
  | .initializing s' => if s' = s then 1 else 0
  | _ => 0

/-- The thread schedules the backlog. -/
def Thread.looping (s : σ) (t : Thread σ ε) : ℕ :=
  match t.call with
  | .scheduling s' _ true => if s' = s then 1 else 0
  | .pushing s' _ _ true => if s' = s then 1 else 0
  | _ => 0

/-- The thread waits in `disconnect`. -/
def Thread.waiting (s : σ) (t : Thread σ ε) : ℕ :=
  match t.call with
  | .waiting s' => if s' = s then 1 else 0
  | _ => 0

/-- The calls of `connect` and `disconnect` of a stage that are under way. -/
def Sys.controllers (y : Sys σ ε) (s : σ) : ℕ :=
  tally (Thread.starting s) y.threads + tally (Thread.looping s) y.threads +
    tally (Thread.waiting s) y.threads

/-! ### The stages -/

/-- `Stage::set_pool`. -/
def setPool (y : Sys σ ε) (i : ℕ) (s : σ) (p : ℕ) : Except Stop (Sys σ ε) := do
  let t ← y.thread i
  require t.CanCall .disabled
  require (p < y.runQueues.length) .disabled
  require ((y.stage s).connected = false) .misuse
  return y.setStage s { y.stage s with thPool := some p }

/-- `Stage::connect` up to `initialize`.  No other `connect` or `disconnect` of the stage is under
way. -/
def connect (y : Sys σ ε) (i : ℕ) (s : σ) : Except Stop (Sys σ ε) := do
  let t ← y.thread i
  require t.CanCall .disabled
  require (y.controllers s = 0) .disabled
  require ((y.stage s).connected = false) .misuse
  require ((y.stage s).thPool ≠ none) .misuse
  return y.setThread i { t with call := .initializing s }

/-- `initialize` returns; the section of `connect`.  `backlog` is an `unsigned int`. -/
def initialized (y : Sys σ ε) (i : ℕ) (success : Bool) : Except Stop (Sys σ ε) := do
  let t ← y.thread i
  match t.call with
  | .initializing s =>
    if success then
      let st := y.stage s
      let backlog : ℕ := st.eventList.length % 2 ^ 32
      return (y.setStage s { st with eventRef := backlog, connected := true }).setThread i
        { t with call := .scheduling s backlog true }
    else return y.setThread i { t with call := .idle }
  | _ => throw .disabled

/-- `Stage::disconnect` from its `while (event_ref_ > 0)` on. -/
def quiesce (y : Sys σ ε) (i : ℕ) (t : Thread σ ε) (s : σ) : Sys σ ε :=
  if 0 < (y.stage s).eventRef then y.setThread i { t with call := .waiting s }
  else (y.setStage s { y.stage s with thPool := none }).setThread i { t with call := .idle }

/-- `Stage::disconnect`, to its wait or its end. -/
def disconnect (y : Sys σ ε) (i : ℕ) (s : σ) : Except Stop (Sys σ ε) := do
  let t ← y.thread i
  require t.CanCall .disabled
  require (y.controllers s = 0) .disabled
  require ((y.stage s).connected = true) .misuse
  return quiesce (y.setStage s { y.stage s with connected := false }) i t s

/-- The wait of `disconnect` returns. -/
def wake (y : Sys σ ε) (i : ℕ) : Except Stop (Sys σ ε) := do
  let t ← y.thread i
  match t.call with
  | .waiting s => return quiesce y i t s
  | _ => throw .disabled

/-- The section of `Stage::add_event`. -/
def addEvent (y : Sys σ ε) (i : ℕ) (s : σ) (event : ε) : Except Stop (Sys σ ε) := do
  let t ← y.thread i
  require t.CanCall .disabled
  let st := y.stage s
  if st.connected then
    require (st.thPool ≠ none) .noPool
    return (y.setStage s { st with
        eventList := st.eventList ++ [event], eventRef := st.eventRef + 1 }).setThread i
      { t with call := .scheduling s 1 false }
  else return y.setStage s { st with eventList := st.eventList ++ [event] }

/-- `th_pool_->schedule(this)`, up to its assertion. -/
def schedule (y : Sys σ ε) (i : ℕ) : Except Stop (Sys σ ε) := do
  let t ← y.thread i
  match t.call with
  | .scheduling s (left + 1) connecting =>
    match (y.stage s).thPool with
    | none => throw .noPool
    | some p =>
      require ((y.stage s).eventList ≠ []) .noEvent
      return y.setThread i { t with call := .pushing s p left connecting }
  | _ => throw .disabled

/-- The section of `Threadpool::schedule`. -/
def push (y : Sys σ ε) (i : ℕ) : Except Stop (Sys σ ε) := do
  let t ← y.thread i
  match t.call with
  | .pushing s p left connecting =>
    match y.runQueues[p]? with
    | none => throw .disabled
    | some q =>
      return { y.setThread i { t with call := .scheduling s left connecting } with
        runQueues := y.runQueues.set p (q ++ [s]) }
  | _ => throw .disabled

/-- `add_event` or `connect` returns. -/
def finish (y : Sys σ ε) (i : ℕ) : Except Stop (Sys σ ε) := do
  let t ← y.thread i
  match t.call with
  | .scheduling _ 0 _ => return y.setThread i { t with call := .idle }
  | _ => throw .disabled

/-! ### The service threads -/

/-- The section of `run_thread` that takes a stage from the run queue. -/
def pop (y : Sys σ ε) (i : ℕ) : Except Stop (Sys σ ε) := do
  let t ← y.thread i
  match t.pool, t.work with
  | some p, .idle =>
    match y.runQueues[p]? with
    | some (s :: q) =>
      return { y.setThread i { t with work := .popped s } with runQueues := y.runQueues.set p q }
    | _ => throw .disabled
  | _, _ => throw .disabled

/-- `Stage::remove_event`; `callback` is `event->is_callback()`. -/
def removeEvent (y : Sys σ ε) (i : ℕ) (callback : Bool) : Except Stop (Sys σ ε) := do
  let t ← y.thread i
  match t.work with
  | .popped s =>
    match (y.stage s).eventList with
    | [] => throw .noEvent
    | event :: es =>
      return (y.setStage s { y.stage s with eventList := es }).setThread i
        { t with work := .handling s event callback }
  | _ => throw .disabled

/-- `Stage::release_event`, with what the thread goes on to. -/
def releaseEvent (y : Sys σ ε) (i : ℕ) (t : Thread σ ε) (s : σ) (work : Work σ ε) : Sys σ ε :=
  (y.setStage s { y.stage s with eventRef := (y.stage s).eventRef - 1 }).setThread i
    { t with work := work }

/-- The handler returns and the loop releases the event.  `KillThreadStage::handle_event` does not
return. -/
def handled (killer : σ → Bool) (y : Sys σ ε) (i : ℕ) : Except Stop (Sys σ ε) := do
  let t ← y.thread i
  match t.work with
  | .handling s _ callback =>
    require (t.call matches .idle) .disabled
    require (killer s = false ∨ callback = true) .disabled
    return releaseEvent y i t s .idle
  | _ => throw .disabled

/-- `get_pool()->thread_kill()` in `KillThreadStage::handle_event`. -/
def threadKill (killer : σ → Bool) (y : Sys σ ε) (i : ℕ) : Except Stop (Sys σ ε) := do
  let t ← y.thread i
  match t.work with
  | .handling s event false =>
    require (t.call matches .idle) .disabled
    require (killer s = true) .disabled
    require ((y.stage s).thPool ≠ none) .noPool
    return y.setThread i { t with work := .killing s event }
  | _ => throw .disabled

/-- `release_event` and `pthread_exit` in `KillThreadStage::handle_event`. -/
def exit (y : Sys σ ε) (i : ℕ) : Except Stop (Sys σ ε) := do
  let t ← y.thread i
  match t.work with
  | .killing s _ =>
    require (t.call matches .idle) .disabled
    return releaseEvent y i t s .exited
  | _ => throw .disabled

/-! ### The machine -/

/-- What happens. -/
inductive Action (σ ε : Type) where
  /-- `Threadpool::Threadpool`, without its threads. -/
  | newPool
  /-- `pthread_create`: of a service thread for a pool, or of any other thread. -/
  | newThread (pool : Option ℕ)
  | setPool (i : ℕ) (s : σ) (p : ℕ)
  | connect (i : ℕ) (s : σ)
  | initialized (i : ℕ) (success : Bool)
  | disconnect (i : ℕ) (s : σ)
  | wake (i : ℕ)
  | addEvent (i : ℕ) (s : σ) (event : ε)
  | schedule (i : ℕ)
  | push (i : ℕ)
  | finish (i : ℕ)
  | pop (i : ℕ)
  | removeEvent (i : ℕ) (callback : Bool)
  | handled (i : ℕ)
  | threadKill (i : ℕ)
  | exit (i : ℕ)

/-- The functions, by their actions. -/
def step (killer : σ → Bool) (y : Sys σ ε) : Action σ ε → Except Stop (Sys σ ε)
  | .newPool => .ok { y with runQueues := y.runQueues ++ [[]] }
  | .newThread pool => .ok { y with threads := y.threads ++ [.new pool] }
  | .setPool i s p => setPool y i s p
  | .connect i s => connect y i s
  | .initialized i success => initialized y i success
  | .disconnect i s => disconnect y i s
  | .wake i => wake y i
  | .addEvent i s event => addEvent y i s event
  | .schedule i => schedule y i
  | .push i => push y i
  | .finish i => finish y i
  | .pop i => pop y i
  | .removeEvent i callback => removeEvent y i callback
  | .handled i => handled killer y i
  | .threadKill i => threadKill killer y i
  | .exit i => exit y i

/-- What a step does to the event queue of a stage. -/
inductive Label (σ ε : Type) where
  | added (s : σ) (event : ε)
  | removed (s : σ) (event : ε)

/-- The event that the step of a thread takes from a queue. -/
def removal (y : Sys σ ε) (i : ℕ) : List (Label σ ε) :=
  match y.threads[i]? with
  | some ⟨_, .popped s, _⟩ => (y.stage s).eventList.head?.toList.map (.removed s)
  | _ => []

/-- What is added and removed. -/
def label (y : Sys σ ε) : Action σ ε → List (Label σ ε)
  | .addEvent _ s event => [.added s event]
  | .removeEvent i _ => removal y i
  | _ => []

/-- The stages and pools of a process; `killer` tells which stages are `KillThreadStage`s. -/
def machine (killer : σ → Bool) : Machine (Sys σ ε) (Action σ ε) Stop (Label σ ε) :=
  ⟨step killer, label⟩

/-- A run from a state in which nothing is there yet. -/
abbrev Runs (killer : σ → Bool) (ls : List (Label σ ε)) (y : Sys σ ε) : Prop :=
  Run (machine killer) .new ls y

end Step

end VulcanDB.Seda
