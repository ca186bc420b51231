import VulcanDB.Seda.Events

/-!
# SEDA — Events and their callbacks

The `StageEvent`s that the stages of `Stages` queue, with the `CompletionCallback`s linked through
their `next_cb_`, and the code that the threads run: `run_thread` after `remove_event`, handlers and
callbacks, which may call each other on one stack.

A handler, a callback or a thread of its own acts on an event that it has in hand: it created the
event, or was called with it.  It hands the event on by `add_event`, `done`, `done_immediate` or
`done_timeout`, and returns once it has.  A callback object is pushed once, by `push_callback`.

The user data, the context of a callback and the event history do not change what is done with an
event and are left out.  Without `ENABLE_STAGE_LEVEL_TIMEOUT` no event is found timed out.
-/

namespace VulcanDB.Seda.Callbacks

open Steps

/-! ### State -/

/-- Where the pointer to an event is: in the queue of a stage, taken from it by a thread that has
not looked at it yet, or in the hands of a thread. -/
inductive Place (σ : Type) where
  | queued (s : σ)
  | removed (i : ℕ)
  | held (i : ℕ)
  | destroyed
  deriving DecidableEq

/-- An event and the top of its callbacks. -/
structure StageEvent (σ : Type) where
  compCb : Option ℕ
  cbFlag : Bool
  place : Place σ

/-- Where a callback is: on the stack of an event, or called by a thread that deletes it then. -/
inductive CbPlace where
  | pushed (ev : ℕ)
  | running (i : ℕ)
  | deleted
  deriving DecidableEq

/-- A callback, with what it was pushed over. -/
structure CompletionCallback (σ : Type) where
  targetStage : σ
  nextCb : Option ℕ
  place : CbPlace

/-- A function that a thread is in. -/
inductive Frame where
  /-- `run_thread`, between `remove_event` and the look at the event. -/
  | removed (ev : ℕ)
  /-- `run_thread`, in or after the call that it makes for the event. -/
  | dispatched
  | handler (ev : ℕ)
  /-- `callback_event` or `timeout_event`, called for a callback by `done_immediate` or
  `done_timeout`. -/
  | callback (ev cb : ℕ) (timeout : Bool)
  deriving DecidableEq

/-- The stages and threads, the objects, and the functions that each thread is in. -/
structure World (σ : Type) where
  sys : Sys σ ℕ
  events : List (StageEvent σ)
  callbacks : List (CompletionCallback σ)
  frames : ℕ → List Frame

/-- Why a step is not taken. -/
inductive Stop where
  | seda (e : Seda.Stop)
  | disabled
  /-- A pointer to a deleted object is used. -/
  | badPointer
  /-- `ASSERT((!next_cb_), "cannot push a callback twice")`. -/
  | pushedTwice
  /-- `~CompletionCallback` deletes the callbacks that follow. -/
  | chained
  deriving DecidableEq

/-- What is done to an event. -/
inductive Label where
  | created (ev : ℕ)
  | pushed (ev cb : ℕ)
  /-- `add_event`, by `done` or to forward the event. -/
  | added (ev : ℕ) (byDone : Bool)
  /-- A worker that has removed the event takes the callback path, or not. -/
  | took (ev : ℕ) (callback : Bool)
  | invoked (ev cb : ℕ)
  | destroyed (ev : ℕ)
  deriving DecidableEq

/-- The event that a label speaks of. -/
def Label.event : Label → ℕ
  | .created ev | .pushed ev _ | .added ev _ | .took ev _ | .invoked ev _ | .destroyed ev => ev

/-- What a step leaves, and what it has done. -/
abbrev Result (σ : Type) := World σ × List Label

section Code

variable {σ : Type}

/-- A write to an event. -/
def World.setEvent (w : World σ) (ev : ℕ) (e : StageEvent σ) : World σ :=
  { w with events := w.events.set ev e }

/-- The frames of a thread. -/
def World.setFrames (w : World σ) (i : ℕ) (fs : List Frame) : World σ :=
  { w with frames := Function.update w.frames i fs }

/-- A step of the stages and threads. -/
def World.seda (w : World σ) (r : Except Seda.Stop (Sys σ ℕ)) :
    Except Stop (World σ) :=
  match r with
  | .error e => .error (.seda e)
  | .ok y => .ok { w with sys := y }

/-- The object behind a pointer. -/
def World.callback (w : World σ) (cb : ℕ) : Except Stop (CompletionCallback σ) :=
  match w.callbacks[cb]? with
  | none => .error .badPointer
  | some c => if c.place = .deleted then .error .badPointer else .ok c

/-- The code of a handler, a callback or a thread of its own is at the top. -/
def World.userTurn (w : World σ) (i : ℕ) : Bool :=
  match w.frames i with
  | .removed _ :: _ | .dispatched :: _ => false
  | _ => true

/-- The thread can run code, and it is not in a call of `add_event`, `connect` or `disconnect`. -/
def World.ready (w : World σ) (i : ℕ) : Except Stop Unit :=
  match w.sys.threads[i]? with
  | none => .error .disabled
  | some t => require t.CanCall .disabled

/-- `CompletionCallback::push_callback`. -/
def CompletionCallback.pushCallback (cb : CompletionCallback σ) (next : Option ℕ) :
    Except Stop (CompletionCallback σ) := do
  require (cb.nextCb = none) .pushedTwice
  return { cb with nextCb := next }

variable [DecidableEq σ]

/-- An event behind its pointer. -/
def World.event (w : World σ) (ev : ℕ) : Except Stop (StageEvent σ) :=
  match w.events[ev]? with
  | none => .error .badPointer
  | some e => if e.place = .destroyed then .error .badPointer else .ok e

/-- The thread has the event in hand. -/
def World.inHand (w : World σ) (i ev : ℕ) : Except Stop (StageEvent σ) := do
  w.ready i
  match w.events[ev]? with
  | none => throw .disabled
  | some e =>
    require (e.place = .held i) .disabled
    return e

/-! ### Events -/

/-- `StageEvent::StageEvent()`. -/
def create (w : World σ) (i : ℕ) : Except Stop (Result σ) := do
  w.ready i
  return ({ w with events := w.events ++ [⟨none, false, .held i⟩] }, [.created w.events.length])

/-- `push_callback(new CompletionCallback(target))`. -/
def pushCallback (w : World σ) (i ev : ℕ) (target : σ) : Except Stop (Result σ) := do
  let e ← w.inHand i ev
  let cb := w.callbacks.length
  let c ← CompletionCallback.pushCallback ⟨target, none, .pushed ev⟩ e.compCb
  return ({ w.setEvent ev { e with compCb := some cb } with callbacks := w.callbacks ++ [c] },
    [.pushed ev cb])

/-- `s->add_event(ev)`, which the thread has in hand. -/
def addEvent (w : World σ) (i : ℕ) (s : σ) (ev : ℕ) (byDone : Bool) : Except Stop (Result σ) := do
  let e ← w.inHand i ev
  let w ← w.seda (Seda.addEvent w.sys i s ev)
  return (w.setEvent ev { e with place := .queued s }, [.added ev byDone])

/-- `delete this`, where `comp_cb_` is null: the destructor finds no callback. -/
def destroy (w : World σ) (ev : ℕ) (e : StageEvent σ) : Except Stop (Result σ) :=
  .ok (w.setEvent ev { e with place := .destroyed }, [.destroyed ev])

/-- `StageEvent::done`. -/
def done (w : World σ) (i ev : ℕ) : Except Stop (Result σ) := do
  let e ← w.inHand i ev
  match e.compCb with
  | none => destroy w ev e
  | some top =>
    -- `mark_callback`, `event_reschedule`
    let c ← w.callback top
    addEvent (w.setEvent ev { e with cbFlag := true }) i c.targetStage ev true

/-- `done_immediate` and `done_timeout`, up to the body of the callback. -/
def complete (timeout : Bool) (w : World σ) (i ev : ℕ) : Except Stop (Result σ) := do
  let e ← w.inHand i ev
  match e.compCb with
  | none => destroy w ev e
  | some top =>
    let c ← w.callback top
    -- `clear_callback`, `pop_callback`
    let w := w.setEvent ev { e with cbFlag := false, compCb := c.nextCb }
    let w := { w with callbacks := w.callbacks.set top { c with nextCb := none, place := .running i } }
    return (w.setFrames i (.callback ev top timeout :: w.frames i), [.invoked ev top])

/-- `StageEvent::done_immediate`. -/
def doneImmediate (w : World σ) (i ev : ℕ) : Except Stop (Result σ) := complete false w i ev

/-- `StageEvent::done_timeout`. -/
def doneTimeout (w : World σ) (i ev : ℕ) : Except Stop (Result σ) := complete true w i ev

/-! ### Threads -/

/-- `remove_event` in the loop of `run_thread`. -/
def removeEvent (w : World σ) (i : ℕ) : Except Stop (Result σ) := do
  require (w.frames i = []) .disabled
  match removal w.sys i with
  | [.removed _ ev] =>
    let e ← w.event ev
    let w ← w.seda (Seda.removeEvent w.sys i e.cbFlag)
    return ((w.setEvent ev { e with place := .removed i }).setFrames i [.removed ev], [])
  | _ => return (← w.seda (Seda.removeEvent w.sys i false), [])

/-- The call that `run_thread` makes for the event, above the functions `fs`.  An event is found
timed out only with `ENABLE_STAGE_LEVEL_TIMEOUT`. -/
def callFor (w : World σ) (i ev : ℕ) (fs : List Frame) (callback timedOut : Bool) :
    Except Stop (Result σ) :=
  match callback, timedOut with
  | true, true => doneTimeout (w.setFrames i (.dispatched :: fs)) i ev
  | true, false => doneImmediate (w.setFrames i (.dispatched :: fs)) i ev
  | false, true => done (w.setFrames i (.dispatched :: fs)) i ev
  | false, false => .ok (w.setFrames i (.handler ev :: .dispatched :: fs), [])

/-- `run_thread` looks at the event: `is_callback()`, `has_timed_out()`. -/
def dispatch (w : World σ) (i : ℕ) (timedOut : Bool) : Except Stop (Result σ) :=
  match w.frames i with
  | .removed ev :: fs => do
    let e ← w.event ev
    let r ← callFor (w.setEvent ev { e with place := .held i }) i ev fs e.cbFlag timedOut
    return (r.1, .took ev e.cbFlag :: r.2)
  | _ => .error .disabled

/-- The event has been handed on. -/
def World.HandedOn (w : World σ) (i ev : ℕ) : Prop := ∀ e ∈ w.events[ev]?, e.place ≠ .held i

instance (w : World σ) (i ev : ℕ) : Decidable (w.HandedOn i ev) := by
  unfold World.HandedOn
  infer_instance

/-- A handler returns, or a callback, which is then deleted. -/
def ret (w : World σ) (i : ℕ) : Except Stop (Result σ) := do
  w.ready i
  match w.frames i with
  | .handler ev :: fs =>
    require (w.HandedOn i ev) .disabled
    return (w.setFrames i fs, [])
  | .callback ev cb _ :: fs =>
    require (w.HandedOn i ev) .disabled
    let c ← w.callback cb
    require (c.nextCb = none) .chained
    let w := { w with callbacks := w.callbacks.set cb { c with place := .deleted } }
    return (w.setFrames i fs, [])
  | _ => throw .disabled

/-- `release_event` in the loop of `run_thread`. -/
def release (killer : σ → Bool) (w : World σ) (i : ℕ) : Except Stop (Result σ) := do
  require (w.frames i = [.dispatched]) .disabled
  let w ← w.seda (handled killer w.sys i)
  return (w.setFrames i [], [])

/-- `release_event` and `pthread_exit` in `KillThreadStage::handle_event`. -/
def exitThread (w : World σ) (i : ℕ) : Except Stop (Result σ) :=
  match w.frames i with
  | [.handler ev, .dispatched] => do
    require (w.HandedOn i ev) .disabled
    let w ← w.seda (exit w.sys i)
    return (w.setFrames i [], [])
  | _ => .error .disabled

/-! ### The machine -/

/-- Whether a step of the stages and threads is taken that moves no event: a call by user code in
its turn, a kill by the handler of a `KillThreadStage`, or another. -/
def World.passes (w : World σ) : Seda.Action σ ℕ → Bool
  | .addEvent .. | .removeEvent .. | .handled _ | .exit _ => false
  | .setPool i _ _ | .connect i _ | .disconnect i _ => w.userTurn i
  | .threadKill i =>
    match w.frames i with
    | .handler _ :: _ => true
    | _ => false
  | _ => true

/-- What a thread may do. -/
inductive Action (σ : Type) where
  | create (i : ℕ)
  | pushCallback (i ev : ℕ) (target : σ)
  | forward (i : ℕ) (s : σ) (ev : ℕ)
  | done (i ev : ℕ)
  | doneImmediate (i ev : ℕ)
  | doneTimeout (i ev : ℕ)
  | removeEvent (i : ℕ)
  | dispatch (i : ℕ) (timedOut : Bool)
  | ret (i : ℕ)
  | release (i : ℕ)
  | exit (i : ℕ)
  | seda (a : Seda.Action σ ℕ)

/-- A call that handlers and callbacks make, when it is their turn. -/
def user (w : World σ) (i : ℕ) (f : World σ → ℕ → Except Stop (Result σ)) :
    Except Stop (Result σ) := do
  require (w.userTurn i = true) .disabled
  f w i

/-- The functions, by their actions. -/
def effect (killer : σ → Bool) (w : World σ) : Action σ → Except Stop (Result σ)
  | .create i => user w i create
  | .pushCallback i ev target => user w i fun w i => pushCallback w i ev target
  | .forward i s ev => user w i fun w i => addEvent w i s ev false
  | .done i ev => user w i fun w i => done w i ev
  | .doneImmediate i ev => user w i fun w i => doneImmediate w i ev
  | .doneTimeout i ev => user w i fun w i => doneTimeout w i ev
  | .removeEvent i => removeEvent w i
  | .dispatch i timedOut => dispatch w i timedOut
  | .ret i => ret w i
  | .release i => release killer w i
  | .exit i => exitThread w i
  | .seda a => do
    require (w.passes a = true) .disabled
    return (← w.seda (step killer w.sys a), [])

/-- **The machine** of the threads. -/
def machine (killer : σ → Bool) : Machine (World σ) (Action σ) Stop Label where
  step w a := (effect killer w a).map (·.1)
  label w a := match effect killer w a with
    | .error _ => []
    | .ok r => r.2

/-- Nothing is there yet. -/
def World.new : World σ := ⟨.new, [], [], fun _ => []⟩

end Code

end VulcanDB.Seda.Callbacks
