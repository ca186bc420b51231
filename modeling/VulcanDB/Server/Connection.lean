import VulcanDB.Library.Steps

/-!
# Server — Connections, the event loop and the session stage

The event loop runs `Server::accept` and `Server::recv` in one thread.  The workers of the session
stage run `SessionStage::handle_request`, `SessionStage::callback_event` and `Server::send`.  The
peers send bytes and read what is written to them.  Between two steps of one of them any other may
step.

The stage is its queue of events: what the gap between the queue and the workers does is the
subject of `VulcanDB.Seda`.  A connection that is deleted is never allocated again, and a step that
uses it fails.  `read` with `EAGAIN` changes nothing and is left out, as are the `Session`s, the
addresses and the errors of `accept`.
-/

namespace VulcanDB.Server

open Steps

/-! ### State -/

/-- `SOCKET_BUFFER_SIZE`. -/
def socketBufferSize : ℕ := 1024 * 1024

/-- A connected socket, from both ends. -/
structure Socket where
  /-- What the peer has sent. -/
  sent : List UInt8
  /-- How much of it has been read. -/
  taken : ℕ
  /-- What has been written to the peer. -/
  received : List UInt8
  /-- The peer has closed, or the connection has failed. -/
  hungUp : Bool

/-- Nothing was sent. -/
def Socket.new : Socket := ⟨[], 0, [], false⟩

namespace Socket

/-- Sent and not yet read. -/
def incoming (k : Socket) : List UInt8 := k.sent.drop k.taken

/-- The peer sends a byte. -/
def send (k : Socket) (b : UInt8) : Socket := { k with sent := k.sent ++ [b] }

/-- `n` bytes are read. -/
def read (k : Socket) (n : ℕ) : Socket := { k with taken := k.taken + n }

/-- `bytes` are written. -/
def write (k : Socket) (bytes : List UInt8) : Socket := { k with received := k.received ++ bytes }

end Socket

/-- A connection of the server. -/
structure ConnectionContext where
  fd : Socket
  /-- `mutex` is held. -/
  locked : Bool
  buf : ℕ → UInt8
  /-- Not yet deleted. -/
  live : Bool

/-- A connection as `accept` makes it. -/
def ConnectionContext.new : ConnectionContext := ⟨.new, false, fun _ => 0, true⟩

/-- The `id`th event, with its pointer `client_`. -/
structure SessionEvent where
  id : ℕ
  client : ℕ
  deriving DecidableEq

/-- Where the event loop is in `recv`. -/
inductive Recv where
  | idle
  /-- Past `memset`. -/
  | cleared (c : ℕ)
  /-- In the loop that reads, with the mutex. -/
  | reading (c dataLen : ℕ)
  /-- Past the section. -/
  | finished (c dataLen : ℕ) (readLen : Int)

/-- Where a worker of the session stage is. -/
inductive Worker where
  | idle
  /-- In `handle_request`, reading the request; `text` is what it has read. -/
  | reading (e : SessionEvent) (text : List UInt8)
  /-- In `handle_request`, past the request. -/
  | answering (e : SessionEvent)
  /-- In `callback_event`, with calls of `send` to make. -/
  | sending (e : SessionEvent) (messages : List (List UInt8))
  /-- In `send`, with the mutex. -/
  | writing (e : SessionEvent) (message : List UInt8) (messages : List (List UInt8))

/-- The server, with its clients. -/
structure Sys where
  clients : List ConnectionContext
  loop : Recv
  queue : List SessionEvent
  /-- The number of events made so far. -/
  created : ℕ
  workers : List Worker

/-- No client. -/
def Sys.new : Sys := ⟨[], .idle, [], 0, []⟩

/-- Why a step is not taken. -/
inductive Stop where
  | disabled
  /-- The step uses a `ConnectionContext` that is deleted. -/
  | deleted
  /-- The step reads behind the end of `buf`. -/
  | overrun
  deriving DecidableEq

/-- A connection, alive or not. -/
def Sys.record (y : Sys) (c : ℕ) : Except Stop ConnectionContext :=
  match y.clients[c]? with
  | some x => .ok x
  | none => .error .disabled

/-- The connection behind a pointer. -/
def Sys.client (y : Sys) (c : ℕ) : Except Stop ConnectionContext := do
  let x ← y.record c
  require (x.live = true) .deleted
  return x

/-- A write to a connection. -/
def Sys.setClient (y : Sys) (c : ℕ) (x : ConnectionContext) : Sys :=
  { y with clients := y.clients.set c x }

/-- A worker by its number. -/
def Sys.worker (y : Sys) (i : ℕ) : Except Stop Worker :=
  match y.workers[i]? with
  | some w => .ok w
  | none => .error .disabled

/-- A write to a worker. -/
def Sys.setWorker (y : Sys) (i : ℕ) (w : Worker) : Sys :=
  { y with workers := y.workers.set i w }

/-! ### The peers -/

/-- The peer sends a byte. -/
def clientSend (y : Sys) (c : ℕ) (b : UInt8) : Except Stop Sys := do
  let x ← y.record c
  require (x.fd.hungUp = false) .disabled
  return y.setClient c { x with fd := x.fd.send b }

/-- The peer closes, or the connection fails. -/
def hangUp (y : Sys) (c : ℕ) : Except Stop Sys := do
  let x ← y.record c
  return y.setClient c { x with fd := { x.fd with hungUp := true } }

/-! ### The event loop -/

/-- `Server::accept`. -/
def accept (y : Sys) : Except Stop Sys := do
  require (y.loop matches .idle) .disabled
  return { y with clients := y.clients ++ [.new] }

/-- `Server::close_connection`. -/
def closeConnection (y : Sys) (c : ℕ) (x : ConnectionContext) : Sys :=
  y.setClient c { x with live := false }

/-- The event loop calls `recv` for a socket that is readable, to the end of `memset`.  After
`event_del` it does not. -/
def dispatch (y : Sys) (c : ℕ) : Except Stop Sys := do
  require (y.loop matches .idle) .disabled
  let x ← y.record c
  require (x.live = true) .disabled
  require (x.fd.incoming ≠ [] ∨ x.fd.hungUp = true) .disabled
  return { y.setClient c { x with buf := fun _ => 0 } with loop := .cleared c }

/-- `MUTEX_LOCK` in `recv`. -/
def lock (y : Sys) : Except Stop Sys :=
  match y.loop with
  | .cleared c => do
    let x ← y.client c
    require (x.locked = false) .disabled
    return { y.setClient c { x with locked := true } with loop := .reading c 0 }
  | _ => throw .disabled

/-- What `read` returns. -/
inductive Read where
  | bytes (n : ℕ)
  | eof
  | error

/-- What `read` of `size` bytes can return. -/
def Socket.CanRead (k : Socket) (size : ℕ) : Read → Prop
  | .bytes n => 0 < n ∧ n ≤ size ∧ n ≤ k.incoming.length
  | .eof => size = 0 ∨ k.incoming = [] ∧ k.hungUp = true
  | .error => True

instance (k : Socket) (size : ℕ) : DecidablePred (k.CanRead size) := fun r => by
  cases r <;> unfold Socket.CanRead <;> infer_instance

/-- `buf` with `bytes` written from `dataLen` on. -/
def store (buf : ℕ → UInt8) (dataLen : ℕ) (bytes : List UInt8) (k : ℕ) : UInt8 :=
  if dataLen ≤ k then bytes.getD (k - dataLen) (buf k) else buf k

/-- The loop of `recv` ends, and its section. -/
def finish (y : Sys) (c : ℕ) (x : ConnectionContext) (dataLen : ℕ) (readLen : Int) : Sys :=
  { y.setClient c { x with locked := false } with loop := .finished c dataLen readLen }

/-- One round of the loop of `recv`. -/
def read (y : Sys) (r : Read) : Except Stop Sys :=
  match y.loop with
  | .reading c dataLen => do
    let x ← y.client c
    require (x.fd.CanRead (socketBufferSize - dataLen) r) .disabled
    match r with
    | .bytes n =>
      let bytes := x.fd.incoming.take n
      let x' : ConnectionContext := { x with
        fd := x.fd.read n
        buf := store x.buf dataLen bytes }
      if n + dataLen > socketBufferSize then
        return finish y c x' (dataLen + n) n
      else match bytes.findIdx? (· == 0) with
        | some i => return finish y c x' (dataLen + i + 1) n
        | none => return { y.setClient c x' with loop := .reading c (dataLen + n) }
    | .eof => return finish y c x dataLen 0
    | .error => return finish y c x dataLen (-1)
  | _ => throw .disabled

/-- `recv` closes the connection: the command is too long, the peer has closed, or `read` failed. -/
def Closes (dataLen : ℕ) (readLen : Int) : Prop :=
  dataLen > socketBufferSize ∨ readLen = 0 ∨ readLen < 0

instance (dataLen : ℕ) (readLen : Int) : Decidable (Closes dataLen readLen) := by
  unfold Closes; infer_instance

/-- The end of `recv`. -/
def conclude (y : Sys) : Except Stop Sys :=
  match y.loop with
  | .finished c dataLen readLen => do
    let x ← y.client c
    if Closes dataLen readLen then return { closeConnection y c x with loop := .idle }
    else return { y with
      loop := .idle, queue := y.queue ++ [⟨y.created, c⟩], created := y.created + 1 }
  | _ => throw .disabled

/-! ### The workers -/

/-- A worker takes the first event of the stage. -/
def take (y : Sys) (i : ℕ) : Except Stop Sys := do
  let w ← y.worker i
  match w, y.queue with
  | .idle, e :: es => return { y.setWorker i (.reading e []) with queue := es }
  | _, _ => throw .disabled

/-- `handle_request` reads the next byte of `get_request_buf()`. -/
def readByte (y : Sys) (i : ℕ) : Except Stop Sys := do
  let w ← y.worker i
  match w with
  | .reading e text =>
    let x ← y.client e.client
    require (text.length < socketBufferSize) .overrun
    if x.buf text.length = 0 then return y.setWorker i (.answering e)
    else return y.setWorker i (.reading e (text ++ [x.buf text.length]))
  | _ => throw .disabled

/-- `"Hello, world!\n"` and its NUL. -/
def helloResponse : List UInt8 :=
  [72, 101, 108, 108, 111, 44, 32, 119, 111, 114, 108, 100, 33, 10, 0]

/-- `"No data\n"` and its NUL. -/
def noData : List UInt8 := [78, 111, 32, 100, 97, 116, 97, 10, 0]

/-- What `callback_event` sends for a response. -/
def callbackMessages (response : List UInt8) : List (List UInt8) :=
  let response := if response = [] then noData else response
  if response.getLast? = some 0 then [response] else [response, [0]]

/-- `handle_request` sets the response and, if the callback is allocated, calls `callback_event`. -/
def respond (y : Sys) (i : ℕ) (allocated : Bool) : Except Stop Sys := do
  let w ← y.worker i
  match w with
  | .answering e =>
    if allocated then return y.setWorker i (.sending e (callbackMessages helloResponse))
    else return y.setWorker i .idle
  | _ => throw .disabled

/-- What is left of `callback_event`. -/
def Worker.goOn (e : SessionEvent) : List (List UInt8) → Worker
  | [] => .idle
  | m :: ms => .sending e (m :: ms)

/-- `Server::send` to its `MUTEX_LOCK`. -/
def sendLock (y : Sys) (i : ℕ) : Except Stop Sys := do
  let w ← y.worker i
  match w with
  | .sending e (m :: ms) =>
    if m = [] then return y.setWorker i (.goOn e ms)
    else
      let x ← y.client e.client
      require (x.locked = false) .disabled
      return (y.setClient e.client { x with locked := true }).setWorker i (.writing e m ms)
  | _ => throw .disabled

/-- What `writen` returns when `n` of `size` bytes are written and the next `write` fails with
`errno`. -/
def writen (size n errno : ℕ) : Int := if n = size then 0 else errno

/-- `writen` in `Server::send`, and what follows. -/
def sendWrite (y : Sys) (i n errno : ℕ) : Except Stop Sys := do
  let w ← y.worker i
  match w with
  | .writing e m ms =>
    let x ← y.client e.client
    require (n ≤ m.length) .disabled
    let x' : ConnectionContext := { x with
      fd := x.fd.write (m.take n)
      locked := false }
    if writen m.length n errno < 0 then
      return (closeConnection y e.client x').setWorker i (.goOn e ms)
    else return (y.setClient e.client x').setWorker i (.goOn e ms)
  | _ => throw .disabled

/-! ### The machine -/

/-- What happens. -/
inductive Action where
  | clientSend (c : ℕ) (b : UInt8)
  | hangUp (c : ℕ)
  | accept
  | dispatch (c : ℕ)
  | lock
  | read (r : Read)
  | conclude
  /-- A thread of the session stage's pool. -/
  | newWorker
  | take (i : ℕ)
  | readByte (i : ℕ)
  | respond (i : ℕ) (allocated : Bool)
  | sendLock (i : ℕ)
  | sendWrite (i n errno : ℕ)

/-- The functions, by their actions. -/
def step (y : Sys) : Action → Except Stop Sys
  | .clientSend c b => clientSend y c b
  | .hangUp c => hangUp y c
  | .accept => accept y
  | .dispatch c => dispatch y c
  | .lock => lock y
  | .read r => read y r
  | .conclude => conclude y
  | .newWorker => .ok { y with workers := y.workers ++ [.idle] }
  | .take i => take y i
  | .readByte i => readByte y i
  | .respond i allocated => respond y i allocated
  | .sendLock i => sendLock y i
  | .sendWrite i n errno => sendWrite y i n errno

/-- What is told of a step. -/
inductive Label where
  /-- An event is made for the command in the buffer. -/
  | created (e : SessionEvent) (command : List UInt8)
  /-- `handle_request` has read the request of an event. -/
  | request (e : SessionEvent) (text : List UInt8)
  deriving DecidableEq

/-- The first `n` bytes of a buffer. -/
def contents (buf : ℕ → UInt8) (n : ℕ) : List UInt8 := (List.range n).map buf

/-- The connection with a number, or a new one. -/
def Sys.context (y : Sys) (c : ℕ) : ConnectionContext := y.clients[c]?.getD .new

/-- The event that the end of `recv` makes.  The last of the `dataLen` bytes is the NUL. -/
def creation (y : Sys) : List Label :=
  match y.loop with
  | .finished c dataLen readLen =>
    if Closes dataLen readLen then []
    else [.created ⟨y.created, c⟩ (contents (y.context c).buf (dataLen - 1))]
  | _ => []

/-- The request whose NUL a worker reads. -/
def requestText (y : Sys) (i : ℕ) : List Label :=
  match y.workers[i]? with
  | some (.reading e text) =>
    if (y.context e.client).buf text.length = 0 then [.request e text] else []
  | _ => []

/-- What a step tells. -/
def label (y : Sys) : Action → List Label
  | .conclude => creation y
  | .readByte i => requestText y i
  | _ => []

/-- **The machine** of the server. -/
def machine : Machine Sys Action Stop Label := ⟨step, label⟩

/-- A run from a server without connections and without workers. -/
abbrev Runs (ls : List Label) (y : Sys) : Prop := Run machine .new ls y

end VulcanDB.Server
