import VulcanDB.Seda.CallbackRuns
import VulcanDB.Server.Connection

/-!
# Server — Session stages

The event loop makes events and adds them to session stages; the workers of the stages run
`handle_request`, `done_immediate` and `callback_event` on them, over the stages, threads and
objects of `VulcanDB.Seda.Callbacks`.  All stages are session stages here: nothing else is called
with a `SessionEvent`.  What `send` does with the connections is the subject of
`VulcanDB.Server.Connection`, and is left out.

The callback neither forwards the event nor calls `done`, as the handlers and callbacks of
`Callbacks` do before they return.
-/

namespace VulcanDB.Server.SessionStage

open Steps
open Seda Seda.Callbacks

/-! ### State -/

/-- Where a thread is in the code for an event. -/
inductive Phase (σ : Type) where
  | idle
  /-- In `Server::recv`, past `new SessionEvent`. -/
  | received (ev : ℕ)
  /-- In the loop of a worker that has removed an event of this stage. -/
  | removed (s : σ)
  /-- In `handle_request` of this stage. -/
  | handling (s : σ) (ev : ℕ)
  /-- In `handle_request`, before `done_immediate`. -/
  | responded (ev : ℕ)
  /-- In `callback_event`, with calls of `send` to make. -/
  | sending (ev : ℕ) (messages : List (List UInt8))
  /-- In `handle_request`, past `done_immediate`. -/
  | leaving (ev : ℕ)

/-- The stages, what each thread does, and the responses. -/
structure Sys (σ : Type) where
  world : World σ
  phase : ℕ → Phase σ
  /-- `response_` of each event. -/
  response : ℕ → List UInt8

/-- What is told of a step. -/
inductive Label where
  /-- What is done to an event by its own functions. -/
  | object (l : Callbacks.Label)
  /-- `new (std::nothrow) CompletionCallback` returns null. -/
  | refused (ev : ℕ)
  /-- `handle_event` returns. -/
  | finished (ev : ℕ)
  deriving DecidableEq

/-- The system behind a step, and what is told of it. -/
abbrev Result (σ : Type) := Sys σ × List Label

section Code

variable {σ : Type} [DecidableEq σ]

/-- What a thread does. -/
def Sys.setPhase (y : Sys σ) (i : ℕ) (p : Phase σ) : Sys σ :=
  { y with phase := Function.update y.phase i p }

/-- The world and the phase of a thread after a call, and its labels. -/
def Sys.after (y : Sys σ) (r : Callbacks.Result σ) (i : ℕ) (p : Phase σ) : Result σ :=
  ({ y with world := r.1 }.setPhase i p, r.2.map .object)

/-- The callback of the event sends its response. -/
def Sys.calls (y : Sys σ) (ev : ℕ) : Phase σ := .sending ev (callbackMessages (y.response ev))

/-! ### The event loop -/

/-- `new SessionEvent(client)` in `Server::recv`. -/
def receive (y : Sys σ) (i : ℕ) : Except Callbacks.Stop (Result σ) :=
  match y.phase i, y.world.frames i with
  | .idle, [] => do
    let r ← create y.world i
    return y.after r i (.received y.world.events.length)
  | _, _ => .error .disabled

/-- `session_stage_->add_event(sev)`. -/
def addEvent (y : Sys σ) (i : ℕ) (s : σ) : Except Callbacks.Stop (Result σ) :=
  match y.phase i with
  | .received ev => do
    let r ← Callbacks.addEvent y.world i s ev false
    return y.after r i .idle
  | _ => .error .disabled

/-! ### The workers -/

/-- `remove_event` in the loop of `run_thread`. -/
def removeEvent (y : Sys σ) (i : ℕ) : Except Callbacks.Stop (Result σ) :=
  match y.phase i, removal y.world.sys i with
  | .idle, [.removed s _] => do
    let r ← Callbacks.removeEvent y.world i
    return y.after r i (.removed s)
  | _, _ => .error .disabled

/-- `run_thread` calls `handle_event`, or `done_immediate` for an event that `done` has queued.  A
session event has no deadline. -/
def dispatch (y : Sys σ) (i : ℕ) : Except Callbacks.Stop (Result σ) :=
  match y.phase i with
  | .removed s => do
    let r ← Callbacks.dispatch y.world i false
    match r.1.frames i with
    | .handler ev :: _ => return y.after r i (.handling s ev)
    | .callback ev _ _ :: _ => return y.after r i (y.calls ev)
    | _ => return y.after r i .idle
  | _ => .error .disabled

/-- `set_response` with any bytes, where `handle_request` has those of `helloResponse`, and the
callback, which is allocated or not. -/
def respond (y : Sys σ) (i : ℕ) (response : List UInt8) (allocated : Bool) :
    Except Callbacks.Stop (Result σ) :=
  match y.phase i with
  | .handling s ev => do
    let y := { y with response := Function.update y.response ev response }
    if allocated then
      let r ← pushCallback y.world i ev s
      return y.after r i (.responded ev)
    else return (y.setPhase i (.responded ev), [.refused ev])
  | _ => .error .disabled

/-- `done_immediate`, up to the body of `callback_event`. -/
def doneImmediate (y : Sys σ) (i : ℕ) : Except Callbacks.Stop (Result σ) :=
  match y.phase i with
  | .responded ev => do
    let r ← Callbacks.doneImmediate y.world i ev
    match r.1.frames i with
    | .callback ev _ _ :: _ => return y.after r i (y.calls ev)
    | _ => return y.after r i (.leaving ev)
  | _ => .error .disabled

/-- `Server::send`. -/
def send (y : Sys σ) (i : ℕ) : Except Callbacks.Stop (Result σ) :=
  match y.phase i with
  | .sending ev (_ :: ms) => .ok (y.setPhase i (.sending ev ms), [])
  | _ => .error .disabled

/-- `callback_event` returns, past `// sev->done();`, and the callback is deleted. -/
def callbackReturns (y : Sys σ) (i : ℕ) : Except Callbacks.Stop (Result σ) :=
  match y.phase i, y.world.frames i with
  | .sending ev [], .callback _ cb _ :: fs => do
    let c ← y.world.callback cb
    require (c.nextCb = none) .chained
    let w := { y.world with callbacks := y.world.callbacks.set cb { c with place := .deleted } }
    match fs with
    | .handler _ :: _ => return y.after (w.setFrames i fs, []) i (.leaving ev)
    | _ => return y.after (w.setFrames i fs, []) i .idle
  | _, _ => .error .disabled

/-- `handle_event` returns. -/
def handlerReturns (y : Sys σ) (i : ℕ) : Except Callbacks.Stop (Result σ) :=
  match y.phase i, y.world.frames i with
  | .leaving ev, .handler _ :: fs =>
    .ok ({ y with world := y.world.setFrames i fs }.setPhase i .idle, [.finished ev])
  | _, _ => .error .disabled

/-- `release_event` in the loop of `run_thread`. -/
def release (y : Sys σ) (i : ℕ) : Except Callbacks.Stop (Result σ) :=
  match y.phase i with
  | .idle => do
    let r ← Callbacks.release (fun _ => false) y.world i
    return y.after r i .idle
  | _ => .error .disabled

/-! ### The machine -/

/-- A thread in none of the functions above. -/
def Sys.free (y : Sys σ) (i : ℕ) : Bool :=
  match y.phase i, y.world.frames i with
  | .idle, [] => true
  | _, _ => false

/-- Whether a step of the stages and threads is taken that moves no event. -/
def Sys.passes (y : Sys σ) : Seda.Action σ ℕ → Bool
  | .addEvent .. | .removeEvent .. | .handled _ | .exit _ | .threadKill _ => false
  | .setPool i _ _ | .connect i _ | .disconnect i _ => y.free i
  | _ => true

/-- What a thread may do. -/
inductive Action (σ : Type) where
  | receive (i : ℕ)
  | addEvent (i : ℕ) (s : σ)
  | removeEvent (i : ℕ)
  | dispatch (i : ℕ)
  | respond (i : ℕ) (response : List UInt8) (allocated : Bool)
  | doneImmediate (i : ℕ)
  | send (i : ℕ)
  | callbackReturns (i : ℕ)
  | handlerReturns (i : ℕ)
  | release (i : ℕ)
  | seda (a : Seda.Action σ ℕ)

/-- The functions, by their actions. -/
def effect (y : Sys σ) : Action σ → Except Callbacks.Stop (Result σ)
  | .receive i => receive y i
  | .addEvent i s => addEvent y i s
  | .removeEvent i => removeEvent y i
  | .dispatch i => dispatch y i
  | .respond i response allocated => respond y i response allocated
  | .doneImmediate i => doneImmediate y i
  | .send i => send y i
  | .callbackReturns i => callbackReturns y i
  | .handlerReturns i => handlerReturns y i
  | .release i => release y i
  | .seda a => do
    require (y.passes a = true) .disabled
    return ({ y with world := ← y.world.seda (Seda.step (fun _ => false) y.world.sys a) }, [])

/-- **The machine** of the session stage. -/
def machine : Machine (Sys σ) (Action σ) Callbacks.Stop Label where
  step y a := (effect y a).map (·.1)
  label y a := match effect y a with
    | .error _ => []
    | .ok r => r.2

/-- Nothing is there yet. -/
def Sys.new : Sys σ := ⟨.new, fun _ => .idle, fun _ => []⟩

end Code

end VulcanDB.Server.SessionStage
