import VulcanDB.Server.Exchange
import VulcanDB.Server.Lifetime

/-!
# Server — Requests with their own bytes

All events of a connection read the one buffer of the connection, which `recv` clears and fills
for the next command.  `recv` is written for peers that send one command and receive one response;
for them the buffer is still what it was when the event was made.

* `exchange_step`: every connection of such a peer is an exchange.
* `request_own_bytes`: each request is the command that its event was made for.
* `Polite.quietClose`: and no connection is closed before its events are done.
-/

namespace VulcanDB.Server

open Steps Relation

/-- The peer sends, or hangs up, only once all it has sent is answered. -/
def Polite (y : Sys) : Action → Prop
  | .clientSend c _ => (y.context c).fd.Answered
  | .hangUp c => (y.context c).fd.Answered
  | _ => True

instance (y : Sys) (a : Action) : Decidable (Polite y a) :=
  match a with
  | .clientSend c _ => inferInstanceAs (Decidable (y.context c).fd.Answered)
  | .hangUp c => inferInstanceAs (Decidable (y.context c).fd.Answered)
  | .accept | .dispatch _ | .lock | .read _ | .conclude | .newWorker | .take _ | .readByte _
  | .respond .. | .sendLock _ | .sendWrite .. => isTrue trivial

/-! ### Connections as exchanges -/

/-- `recv` for a connection; `some true` if it has a whole command. -/
def Recv.heard (c : ℕ) : Recv → Option Bool
  | .idle => none
  | .cleared c' => if c' = c then some false else none
  | .reading c' _ => if c' = c then some false else none
  | .finished c' dataLen readLen =>
    if c' = c then some (decide (¬ Closes dataLen readLen)) else none

/-- The open events of a connection. -/
def Sys.owed (y : Sys) (c : ℕ) : ℕ := y.events.countP fun e => e.client == c

/-- The exchange of one connection. -/
def Sys.exchange (y : Sys) (c : ℕ) : Exchange := ⟨(y.context c).fd, y.loop.heard c, y.owed c⟩

/-- A worker's messages are the one response. -/
def Worker.OneMessage : Worker → Prop
  | .sending _ ms => ms = [helloResponse]
  | .writing _ m ms => m = helloResponse ∧ ms = []
  | _ => True

theorem callbackMessages_hello : callbackMessages helloResponse = [helloResponse] := rfl

theorem context_setClient_self {y : Sys} {c : ℕ} {x : ConnectionContext}
    (h : y.clients[c]? = some x) (x' : ConnectionContext) : (y.setClient c x').context c = x' := by
  have hlt := (List.getElem?_eq_some_iff.mp h).1
  rw [Sys.context, Sys.setClient, List.getElem?_set_self hlt, Option.getD_some]

theorem context_setClient_of_ne {c c' : ℕ} (h : c ≠ c') (y : Sys) (x' : ConnectionContext) :
    (y.setClient c x').context c' = y.context c' := by
  rw [Sys.context, Sys.setClient, List.getElem?_set_ne h, Sys.context]

/-- A connection changed in something other than its socket. -/
theorem fd_setClient {y : Sys} {c : ℕ} {x x' : ConnectionContext} (h : y.clients[c]? = some x)
    (hfd : x'.fd = x.fd) (c' : ℕ) : ((y.setClient c x').context c').fd = (y.context c').fd := by
  by_cases hc : c = c'
  · subst hc; rw [context_setClient_self h, context_eq h, hfd]
  · rw [context_setClient_of_ne hc]

theorem context_accept (y : Sys) (c : ℕ) :
    ({ y with clients := y.clients ++ [.new] } : Sys).context c = y.context c := by
  rw [Sys.context, Sys.context]
  rcases lt_trichotomy c y.clients.length with hc | rfl | hc
  · rw [List.getElem?_append_left hc]
  · simp
  · rw [List.getElem?_eq_none (by simpa using hc), List.getElem?_eq_none hc.le]

theorem idle_event : Worker.idle.event? = none := rfl

theorem owed_done {y : Sys} {i : ℕ} {w : Worker} {e : SessionEvent}
    (hw : y.workers[i]? = some w) (he : w.event? = some e) {w' : Worker} (he' : w'.event? = none)
    (c : ℕ) :
    y.owed c = (y.setWorker i w').owed c + if e.client = c then 1 else 0 := by
  rw [Sys.owed, (events_done hw he he').countP_eq, List.countP_cons]
  simp [Sys.owed]

/-- Every worker's messages are the one response. -/
def Sys.OneMessage (y : Sys) : Prop := ∀ w ∈ y.workers, w.OneMessage

theorem oneMessage_set {y : Sys} (h : y.OneMessage) {i : ℕ} {w : Worker} (hw : w.OneMessage) :
    ∀ v ∈ y.workers.set i w, v.OneMessage := by
  intro v hv
  rcases List.mem_or_eq_of_mem_set hv with hv | rfl
  · exact h v hv
  · exact hw

/-- **One step** leaves every worker at most one message. -/
theorem oneMessage_step {y y' : Sys} {a : Action} {ls : List Label} (h : y.OneMessage)
    (he : Effect y a ls y') : y'.OneMessage := by
  cases he with
  | newWorker =>
      intro w hw
      rcases List.mem_append.mp hw with hw | hw
      · exact h w hw
      · obtain rfl := List.mem_singleton.mp hw
        trivial
  | take hw hq => exact oneMessage_set h trivial
  | readByte hw hx hb => exact oneMessage_set h trivial
  | request hw hx hb => exact oneMessage_set h trivial
  | respond hw => exact oneMessage_set h callbackMessages_hello
  | drop hw => exact oneMessage_set h trivial
  | sendNothing hw =>
      -- the response is not empty
      have hone : _ = [helloResponse] := h _ (List.mem_of_getElem? hw)
      cases hone
  | sendLock hw hx hf =>
      have hone : _ = [helloResponse] := h _ (List.mem_of_getElem? hw)
      exact oneMessage_set h (List.cons.inj hone)
  | sendWrite hw hx =>
      obtain ⟨-, rfl⟩ := h _ (List.mem_of_getElem? hw)
      exact oneMessage_set h trivial
  | _ => exact h

/-! ### What the event loop does to a connection -/

theorem heard_of_ne {c c' : ℕ} {l : Recv} (h : c ≠ c')
    (hl : l.client? = none ∨ l.client? = some c) : l.heard c' = none := by
  cases l with
  | idle => rfl
  | _ =>
      rcases hl with hl | hl
      · cases hl
      · obtain rfl := Option.some.inj hl
        exact if_neg h

section Loop

variable {y : Sys} {c c' : ℕ} {x x' : ConnectionContext} {l : Recv}

theorem exchange_self (hx : y.clients[c]? = some x) :
    ({ y.setClient c x' with loop := l } : Sys).exchange c = ⟨x'.fd, l.heard c, y.owed c⟩ := by
  have hcontext := context_setClient_self hx x'
  rw [Sys.context] at hcontext
  rw [Sys.exchange, Sys.context, hcontext]
  rfl

theorem exchange_of_ne (h : c ≠ c') (hl : y.loop.client? = none ∨ y.loop.client? = some c) :
    y.exchange c' = ⟨(y.context c').fd, none, y.owed c'⟩ := by
  rw [Sys.exchange, heard_of_ne h hl]

theorem exchange_loop_of_ne (h : c ≠ c') (hl : y.loop.client? = none ∨ y.loop.client? = some c)
    (hl' : l.client? = none ∨ l.client? = some c) :
    ({ y.setClient c x' with loop := l } : Sys).exchange c' = y.exchange c' := by
  have hcontext := context_setClient_of_ne h y x'
  rw [exchange_of_ne h hl, Sys.exchange, heard_of_ne h hl', Sys.context]
  rw [Sys.context] at hcontext
  rw [hcontext]
  rfl

/-- A step of `recv` for a connection, seen from all of them. -/
theorem exchange_loop (hx : y.clients[c]? = some x)
    (hl : y.loop.client? = none ∨ y.loop.client? = some c)
    (hl' : l.client? = none ∨ l.client? = some c)
    (h : ReflGen Exchange.Step ⟨x.fd, y.loop.heard c, y.owed c⟩ ⟨x'.fd, l.heard c, y.owed c⟩) :
    ReflGen Exchange.Step (y.exchange c')
      (({ y.setClient c x' with loop := l } : Sys).exchange c') := by
  by_cases hc : c = c'
  · subst hc
    rwa [exchange_self hx, Sys.exchange, context_eq hx]
  · rw [exchange_loop_of_ne hc hl hl']

end Loop

theorem heard_idle (c : ℕ) : Recv.idle.heard c = none := rfl

theorem heard_cleared (c : ℕ) : (Recv.cleared c).heard c = some false := if_pos rfl

theorem heard_reading (c dataLen : ℕ) : (Recv.reading c dataLen).heard c = some false := if_pos rfl

theorem heard_finished (c dataLen : ℕ) (readLen : Int) :
    (Recv.finished c dataLen readLen).heard c = some (decide (¬ Closes dataLen readLen)) :=
  if_pos rfl

/-- What a command in the buffer says about its length. -/
theorem not_closes_command {dataLen n i : ℕ} {bytes : List UInt8}
    (hs : n + dataLen ≤ socketBufferSize) (hn : bytes.length ≤ n)
    (hi : bytes.findIdx? (· == 0) = some i) : ¬ Closes (dataLen + i + 1) n := by
  have hlt := (List.findIdx?_eq_some_iff_findIdx_eq.mp hi).1
  unfold Closes
  omega

theorem mem_of_findIdx {bytes : List UInt8} {i : ℕ} (hi : bytes.findIdx? (· == 0) = some i) :
    0 ∈ bytes := by
  by_contra hnone
  rw [List.findIdx?_eq_none_iff.mpr fun b hb => ?_] at hi
  · cases hi
  · exact beq_eq_false_iff_ne.mpr fun h => hnone (h ▸ hb)

theorem closes_of_nonpos (dataLen : ℕ) {readLen : Int} (h : readLen ≤ 0) :
    Closes dataLen readLen := by
  unfold Closes
  omega

/-- The response has one NUL, and what is written of it at most one. -/
theorem count_hello_take (n : ℕ) : (helloResponse.take n).count 0 ≤ 1 :=
  (List.take_sublist n helloResponse).count_le 0

theorem owed_create (y : Sys) (l : Recv) (e : SessionEvent) (n c : ℕ) :
    Sys.owed { y with loop := l, queue := y.queue ++ [e], created := n } c =
      y.owed c + if e.client = c then 1 else 0 := by
  simp only [Sys.owed, Sys.events, List.countP_append, List.countP_singleton, beq_iff_eq]
  omega

/-- A step that changes no socket and leaves the event loop and the open events. -/
theorem refl_of_owed {y y' : Sys} {c : ℕ} (ho : y'.owed c = y.owed c)
    (hc : (y'.context c).fd = (y.context c).fd) (hl : y'.loop = y.loop) :
    ReflGen Exchange.Step (y.exchange c) (y'.exchange c) := by
  rw [Sys.exchange, Sys.exchange, hc, hl, ho]

/-- Nothing happens on this connection. -/
theorem refl_of_events {y y' : Sys} {c : ℕ} (he : y'.events = y.events)
    (hc : (y'.context c).fd = (y.context c).fd) (hl : y'.loop = y.loop) :
    ReflGen Exchange.Step (y.exchange c) (y'.exchange c) :=
  refl_of_owed (by rw [Sys.owed, he, Sys.owed]) hc hl

theorem write_nil (k : Socket) : k.write [] = k := by rw [Socket.write, List.append_nil]

/-- **Every connection of a polite peer is an exchange.** -/
theorem exchange_step {y y' : Sys} {a : Action} {ls : List Label} (hp : Polite y a)
    (hone : y.OneMessage) (he : Effect y a ls y') (c' : ℕ) :
    ReflGen Exchange.Step (y.exchange c') (y'.exchange c') := by
  cases he with
  -- what the client does is on its own connection
  | @clientSend c b x hx hu =>
      by_cases hc : c = c'
      · subst hc
        have ha : (y.context c).fd.Answered := hp
        rw [Sys.exchange, Sys.exchange, context_setClient_self hx]
        rw [context_eq hx] at ha ⊢
        exact .single (.send b ha hu)
      · rw [Sys.exchange, Sys.exchange, context_setClient_of_ne hc]
        exact .refl
  | @hangUp c x hx =>
      by_cases hc : c = c'
      · subst hc
        have ha : (y.context c).fd.Answered := hp
        rw [Sys.exchange, Sys.exchange, context_setClient_self hx]
        rw [context_eq hx] at ha ⊢
        exact .single (.hangUp ha)
      · rw [Sys.exchange, Sys.exchange, context_setClient_of_ne hc]
        exact .refl
  | accept hl =>
      rw [Sys.exchange, Sys.exchange, context_accept]
      exact .refl
  -- the steps of `recv`
  | dispatch hl hx hlive hr =>
      refine exchange_loop hx (.inl (by rw [hl]; rfl)) (.inr rfl) ?_
      rw [hl, heard_idle, heard_cleared]
      exact .single (.dispatch hr)
  | lock hl hx hlive hf =>
      refine exchange_loop hx (.inr (by rw [hl]; rfl)) (.inr rfl) ?_
      rw [hl, heard_cleared, heard_reading]
  | bytes hl hx hlive hs hn hz =>
      refine exchange_loop hx (.inr (by rw [hl]; rfl)) (.inr rfl) ?_
      rw [hl, heard_reading, heard_reading]
      exact .single (.read hn hz)
  | command hl hx hlive hs hn hi =>
      refine exchange_loop hx (.inr (by rw [hl]; rfl)) (.inr rfl) ?_
      have hopen := not_closes_command hs (List.length_take_le _ _) hi
      rw [hl, heard_reading, heard_finished, decide_eq_true hopen]
      exact .single (.command hn (mem_of_findIdx hi))
  | @stopped c x dataLen r readLen hl hx hlive hr =>
      refine exchange_loop hx (.inr (by rw [hl]; rfl)) (.inr rfl) ?_
      have hclose := closes_of_nonpos dataLen hr
      rw [hl, heard_reading, heard_finished, decide_eq_false (not_not.mpr hclose)]
  | close hl hx hlive hc =>
      refine exchange_loop hx (.inr (by rw [hl]; rfl)) (.inl rfl) ?_
      rw [hl, heard_finished, decide_eq_false (not_not.mpr hc), heard_idle]
      exact .single .close
  -- the command becomes an event, which is owed an answer
  | @create c x dataLen readLen hl hx hlive hc =>
      by_cases hcc : c = c'
      · subst hcc
        rw [Sys.exchange, Sys.exchange, owed_create, if_pos rfl, hl, heard_finished,
          decide_eq_true hc]
        exact .single .create
      · have hne := heard_of_ne hcc (l := y.loop) (.inr (by rw [hl]; rfl))
        rw [Sys.exchange, Sys.exchange, owed_create, if_neg hcc, hne]
        exact .refl
  -- until it answers a worker keeps its event
  | newWorker => exact refl_of_events (by simp [Sys.events, Worker.event?]) rfl rfl
  | take hw hempty => exact refl_of_owed ((events_take hw hempty).countP_eq _) rfl rfl
  | readByte hw hx hb => exact refl_of_events (events_setWorker hw rfl) rfl rfl
  | request hw hx hb => exact refl_of_events (events_setWorker hw rfl) rfl rfl
  | respond hw => exact refl_of_events (events_setWorker hw rfl) rfl rfl
  -- an answer that is dropped is an answer without bytes
  | @drop i e hw =>
      have howed := owed_done hw rfl idle_event c'
      by_cases hc : e.client = c'
      · rw [if_pos hc] at howed
        have hreply : Exchange.Step (y.exchange c') _ :=
          howed ▸ Exchange.Step.reply (show ([] : List UInt8).count 0 ≤ 1 from Nat.zero_le 1)
        rw [write_nil] at hreply
        exact .single hreply
      · exact refl_of_owed (by rw [howed, if_neg hc]; rfl) rfl rfl
  | sendNothing hw =>
      have hnone : _ = [helloResponse] := hone _ (List.mem_of_getElem? hw)
      cases hnone
  | sendLock hw hx hf =>
      exact refl_of_events (events_setWorker hw rfl) (fd_setClient hx (by rfl) c') rfl
  | @sendWrite i n errno e m ms x hw hx =>
      obtain ⟨rfl, rfl⟩ := hone _ (List.mem_of_getElem? hw)
      have howed := owed_done hw rfl idle_event c'
      by_cases hc : e.client = c'
      · subst hc
        rw [if_pos rfl] at howed
        have hfd : (((y.setClient e.client { x with
            fd := x.fd.write (helloResponse.take n), locked := false }).setWorker i
            .idle).context e.client).fd = x.fd.write (helloResponse.take n) :=
          congrArg _ (context_setClient_self hx _)
        rw [Sys.exchange, howed, context_eq hx, Sys.exchange, Worker.goOn, hfd]
        exact .single (.reply (count_hello_take n))
      · exact refl_of_owed (by rw [howed, if_neg hc]; rfl)
          (congrArg _ (context_setClient_of_ne hc y _)) rfl

/-! ### Polite runs -/

/-- What every state of a polite run has. -/
structure Civil (y : Sys) : Prop where
  sound : ∀ c, (y.exchange c).Sound
  one : y.OneMessage

theorem civil_new : Civil .new := ⟨fun _ => Exchange.sound_new, fun w hw => by cases hw⟩

/-- **One step of a polite client**. -/
theorem Civil.step {y y' : Sys} {a : Action} {ls : List Label} (h : Civil y) (hp : Polite y a)
    (he : Effect y a ls y') : Civil y' := by
  refine ⟨fun c => ?_, oneMessage_step h.one he⟩
  have hstep := exchange_step hp h.one he c
  generalize y'.exchange c = x' at hstep ⊢
  cases hstep with
  | refl => exact h.sound c
  | single hs => exact (h.sound c).step hs

/-- While `recv` runs for a connection, none of its events is open. -/
theorem Civil.events {y : Sys} (h : Civil y) {c : ℕ} (hl : y.loop.client? = some c) :
    ∀ e ∈ y.events, e.client ≠ c := by
  have hrecv : (y.exchange c).recv ≠ none := by
    rw [Sys.exchange]
    cases hloop : y.loop with
    | idle => rw [hloop] at hl; cases hl
    | _ =>
        rw [hloop] at hl
        obtain rfl := Option.some.inj hl
        simp [Recv.heard]
  have howed : y.owed c = 0 := (h.sound c).recv hrecv
  intro e he hc
  have := List.countP_eq_zero.mp howed e he
  exact this (beq_iff_eq.mpr hc)

/-- **A polite peer's connection is closed only when its events are done.** -/
theorem Civil.quietClose {y : Sys} (h : Civil y) (a : Action) : QuietClose y a := by
  unfold QuietClose
  split
  · split
    · rename_i c dataLen readLen hl
      exact fun _ => h.events (by rw [hl]; rfl)
    · trivial
  · trivial

/-- **Every polite run**, by induction on it. -/
theorem civil_of_runs {ls : List Label} {y : Sys} (h : RunWhere machine Polite .new ls y) :
    Civil y :=
  h.invariant (P := fun _ y => Civil y) civil_new
    fun _ _ _ _ ih hp hs => ih.step hp (effect_of_step hs)

/-- A run whose peers are polite deletes no connection that is in use. -/
theorem quietClose_of_polite {ls : List Label} {y : Sys}
    (h : RunWhere machine Polite .new ls y) : RunWhere machine QuietClose .new ls y := by
  induction h with
  | start => exact .start
  | next hrun _ hs ih => exact ih.next ((civil_of_runs hrun).quietClose _) hs

/-- So whatever uses a connection finds it, as long as the peers are polite. -/
theorem uses_live_of_polite {ls : List Label} {y : Sys}
    (h : RunWhere machine Polite .new ls y) (c : ℕ) (hc : y.Uses c) : y.Live c :=
  uses_live (quietClose_of_polite h) c hc

/-! ### The buffer -/

/-- The buffer holds a command and its NUL. -/
structure Spells (buf : ℕ → UInt8) (command : List UInt8) : Prop where
  text : command = contents buf command.length
  nonzero : ∀ k < command.length, buf k ≠ 0
  zero : buf command.length = 0

/-- What `recv` has read has no NUL, but for the last byte of a command. -/
def Recv.Filled (buf : ℕ → ℕ → UInt8) : Recv → Prop
  | .reading c dataLen => ∀ k < dataLen, buf c k ≠ 0
  | .finished c dataLen readLen => ¬ Closes dataLen readLen →
    0 < dataLen ∧ (∀ k < dataLen - 1, buf c k ≠ 0) ∧ buf c (dataLen - 1) = 0
  | _ => True

/-- The bytes that `recv` has read so far are not NUL. -/
def Filled (y : Sys) : Prop := y.loop.Filled fun c => (y.context c).buf

theorem contents_length (buf : ℕ → UInt8) (n : ℕ) : (contents buf n).length = n := by
  rw [contents, List.length_map, List.length_range]

theorem contents_succ (buf : ℕ → UInt8) (n : ℕ) :
    contents buf (n + 1) = contents buf n ++ [buf n] := by
  rw [contents, List.range_succ, List.map_append]
  rfl

theorem store_of_lt (buf : ℕ → UInt8) {dataLen k : ℕ} (bytes : List UInt8) (h : k < dataLen) :
    store buf dataLen bytes k = buf k := if_neg (Nat.not_le.mpr h)

theorem store_add (buf : ℕ → UInt8) (dataLen : ℕ) {bytes : List UInt8} {i : ℕ}
    (h : i < bytes.length) : store buf dataLen bytes (dataLen + i) = bytes[i] := by
  rw [store, if_pos (Nat.le_add_right _ _), Nat.add_sub_cancel_left, List.getD_eq_getElem?_getD,
    List.getElem?_eq_getElem h, Option.getD_some]

/-- The bytes before the first NUL of what is stored. -/
theorem store_ne_zero {buf : ℕ → UInt8} {dataLen m : ℕ} {bytes : List UInt8}
    (hbuf : ∀ k < dataLen, buf k ≠ 0) (hm : m ≤ bytes.length)
    (hbytes : ∀ (i : ℕ) (h : i < bytes.length), i < m → bytes[i] ≠ 0) :
    ∀ k < dataLen + m, store buf dataLen bytes k ≠ 0 := by
  intro k hk
  rcases Nat.lt_or_ge k dataLen with hlt | hge
  · rw [store_of_lt buf bytes hlt]
    exact hbuf k hlt
  · obtain ⟨i, rfl⟩ := Nat.exists_eq_add_of_le hge
    have hi : i < m := by omega
    rw [store_add buf dataLen (hi.trans_le hm)]
    exact hbytes i _ hi

theorem buf_setClient {y : Sys} {c : ℕ} {x x' : ConnectionContext} (h : y.clients[c]? = some x)
    (hbuf : x'.buf = x.buf) (c' : ℕ) :
    ((y.setClient c x').context c').buf = (y.context c').buf := by
  by_cases hc : c = c'
  · subst hc; rw [context_setClient_self h, context_eq h, hbuf]
  · rw [context_setClient_of_ne hc]

/-- A step that stores nothing, and leaves the event loop where it is. -/
theorem Filled.kept {y y' : Sys} (h : Filled y) (hl : y'.loop = y.loop)
    (hbuf : ∀ c, (y'.context c).buf = (y.context c).buf) : Filled y' := by
  rw [Filled, hl, funext hbuf]
  exact h

theorem context_loop {y : Sys} {c : ℕ} {x : ConnectionContext} (h : y.clients[c]? = some x)
    (x' : ConnectionContext) (l : Recv) :
    ({ y.setClient c x' with loop := l } : Sys).context c = x' := context_setClient_self h x'

theorem Filled.reading {y : Sys} {c dataLen : ℕ} {x : ConnectionContext} (h : Filled y)
    (hl : y.loop = .reading c dataLen) (hx : y.clients[c]? = some x) :
    ∀ k < dataLen, x.buf k ≠ 0 := by
  rw [Filled, hl] at h
  simpa only [Recv.Filled, context_eq hx] using h

/-- **One step**. -/
theorem filled_step {y y' : Sys} {a : Action} {ls : List Label} (h : Filled y)
    (he : Effect y a ls y') : Filled y' := by
  cases he with
  | clientSend hx hu => exact h.kept rfl (buf_setClient hx (by rfl))
  | hangUp hx => exact h.kept rfl (buf_setClient hx (by rfl))
  | accept hl => exact h.kept rfl fun c => by rw [context_accept]
  | dispatch hl hx hlive hr => trivial
  | lock hl hx hlive hf => exact fun k hk => absurd hk (Nat.not_lt_zero k)
  | @bytes c x dataLen n hl hx hlive hs hn hz =>
      have hlen : (x.fd.incoming.take n).length = n := List.length_take_of_le hn
      simp only [Filled, Recv.Filled, context_loop hx]
      exact store_ne_zero (h.reading hl hx) hlen.ge
        fun i hi _ h0 => hz (h0 ▸ List.getElem_mem hi)
  | @command c x dataLen n i hl hx hlive hs hn hi =>
      obtain ⟨hlt, hzero, hbefore⟩ := List.findIdx?_eq_some_iff_getElem.mp hi
      simp only [Filled, finish, Recv.Filled, context_loop hx, Nat.add_sub_cancel]
      refine fun _ => ⟨Nat.succ_pos _, ?_, ?_⟩
      · refine store_ne_zero (h.reading hl hx) hlt.le fun j hj hji h0 => ?_
        exact hbefore j hji (beq_iff_eq.mpr h0)
      · rw [store_add x.buf dataLen hlt]
        exact beq_iff_eq.mp hzero
  | stopped hl hx hlive hr => exact fun hc => absurd (closes_of_nonpos _ hr) hc
  | close hl hx hlive hc => trivial
  | create hl hx hlive hc => trivial
  | newWorker => exact h.kept rfl fun _ => rfl
  | take hw hq => exact h.kept rfl fun _ => rfl
  | readByte hw hx hb => exact h.kept rfl fun _ => rfl
  | request hw hx hb => exact h.kept rfl fun _ => rfl
  | respond hw => exact h.kept rfl fun _ => rfl
  | drop hw => exact h.kept rfl fun _ => rfl
  | sendNothing hw => exact h.kept rfl fun _ => rfl
  | sendLock hw hx hf => exact h.kept rfl (buf_setClient hx (by rfl))
  | sendWrite hw hx => exact h.kept rfl (buf_setClient hx (by rfl))

/-- The buffer of a connection with open events is left alone. -/
theorem buf_kept {y y' : Sys} {a : Action} {ls : List Label} (hcivil : Civil y')
    (he : Effect y a ls y') (e : SessionEvent) (hmem : e ∈ y.events) :
    (y'.context e.client).buf = (y.context e.client).buf := by
  cases he with
  | clientSend hx hu => exact buf_setClient hx (by rfl) _
  | hangUp hx => exact buf_setClient hx (by rfl) _
  | accept hl => rw [context_accept]
  | @dispatch c x hl hx hlive hr =>
      have hne := hcivil.events (c := c) rfl e hmem
      exact congrArg _ (context_setClient_of_ne hne.symm y _)
  | lock hl hx hlive hf => exact buf_setClient hx (by rfl) _
  | @bytes c x dataLen n hl hx hlive hs hn hz =>
      have hne := hcivil.events (c := c) rfl e hmem
      exact congrArg _ (context_setClient_of_ne hne.symm y _)
  | @command c x dataLen n i hl hx hlive hs hn hi =>
      have hne := hcivil.events (c := c) rfl e hmem
      exact congrArg _ (context_setClient_of_ne hne.symm y _)
  | stopped hl hx hlive hr => exact buf_setClient hx (by rfl) _
  | close hl hx hlive hc => exact buf_setClient hx (by rfl) _
  | sendLock hw hx hf => exact buf_setClient hx (by rfl) _
  | sendWrite hw hx => exact buf_setClient hx (by rfl) _
  | _ => rfl

/-! ### What the workers read -/

/-- The command that an event was made for is still in the buffer. -/
def Sys.Keeps (y : Sys) (ls : List Label) (e : SessionEvent) (command : List UInt8) : Prop :=
  .created e command ∈ ls ∧ Spells (y.context e.client).buf command

/-- A worker in `handle_request` has read a part of the command. -/
def Worker.Reads (y : Sys) (ls : List Label) : Worker → Prop
  | .reading e text => ∃ command, y.Keeps ls e command ∧ text.length ≤ command.length ∧
    text = contents (y.context e.client).buf text.length
  | _ => True

/-- What was told of the events is true. -/
structure Told (ls : List Label) (y : Sys) : Prop where
  fresh : ∀ e command, .created e command ∈ ls → e.id < y.created
  once : ∀ e command command', .created e command ∈ ls → .created e command' ∈ ls →
    command = command'
  queued : ∀ e ∈ y.queue, ∃ command, y.Keeps ls e command
  reading : ∀ w ∈ y.workers, w.Reads y ls
  told : ∀ e text, .request e text ∈ ls → .created e text ∈ ls

theorem told_new : Told [] .new := by
  refine ⟨?_, ?_, ?_, ?_, ?_⟩ <;> simp [Sys.new]

/-- An event keeps its command while the buffer stays. -/
theorem Sys.Keeps.kept {y y' : Sys} {ls ls' : List Label} {e : SessionEvent}
    {command : List UInt8} (h : y.Keeps ls e command)
    (hbuf : (y'.context e.client).buf = (y.context e.client).buf) :
    y'.Keeps (ls ++ ls') e command :=
  ⟨List.mem_append_left _ h.1, hbuf ▸ h.2⟩

theorem Worker.Reads.kept {y y' : Sys} {ls ls' : List Label} {w : Worker} (h : w.Reads y ls)
    (hbuf : ∀ e, w.event? = some e → (y'.context e.client).buf = (y.context e.client).buf) :
    w.Reads y' (ls ++ ls') := by
  cases w with
  | reading e text =>
      obtain ⟨command, hkeeps, hle, htext⟩ := h
      exact ⟨command, hkeeps.kept (hbuf e rfl), hle, by rw [hbuf e rfl]; exact htext⟩
  | _ => trivial

/-- A step that makes no event and reads no request to its end. -/
theorem Told.kept {y y' : Sys} {ls : List Label} (h : Told ls y)
    (hbuf : ∀ e ∈ y.events, (y'.context e.client).buf = (y.context e.client).buf)
    (hq : ∀ e ∈ y'.queue, e ∈ y.queue) (hc : y'.created = y.created)
    (hw : ∀ w ∈ y'.workers, w ∈ y.workers ∨ w.Reads y' (ls ++ [])) : Told (ls ++ []) y' := by
  refine ⟨?_, ?_, fun e he => ?_, fun w hmem => ?_, ?_⟩
  · rw [List.append_nil, hc]; exact h.fresh
  · rw [List.append_nil]; exact h.once
  · obtain ⟨command, hkeeps⟩ := h.queued e (hq e he)
    exact ⟨command, hkeeps.kept (hbuf e (List.mem_append_left _ (hq e he)))⟩
  · rcases hw w hmem with hmem | hreads
    · refine (h.reading w hmem).kept fun e he => hbuf e ?_
      exact List.mem_append_right _ (List.mem_filterMap.mpr ⟨w, hmem, he⟩)
    · exact hreads
  · rw [List.append_nil]; exact h.told

/-- One worker has gone on to something that reads no request, or reads on. -/
theorem mem_setWorker {y : Sys} {i : ℕ} {w : Worker} {P : Worker → Prop} (hw : P w) :
    ∀ v ∈ y.workers.set i w, v ∈ y.workers ∨ P v := by
  intro v hv
  rcases List.mem_or_eq_of_mem_set hv with hv | rfl
  · exact .inl hv
  · exact .inr hw

/-- The next byte of a command that is not its NUL. -/
theorem Worker.Reads.next {y y' : Sys} {ls : List Label} {e : SessionEvent} {text : List UInt8}
    (h : (Worker.reading e text).Reads y ls) (hcontext : y'.context e.client = y.context e.client)
    (hb : (y.context e.client).buf text.length ≠ 0) :
    (Worker.reading e (text ++ [(y.context e.client).buf text.length])).Reads y' (ls ++ []) := by
  obtain ⟨command, hkeeps, hle, htext⟩ := h
  refine ⟨command, hkeeps.kept (congrArg _ hcontext), ?_, ?_⟩
  · rw [List.length_append, List.length_singleton]
    by_contra hlt
    have hlen : text.length = command.length := by omega
    exact hb (hlen ▸ hkeeps.2.zero)
  · rw [List.length_append, List.length_singleton, contents_succ, hcontext, ← htext]

/-- The NUL of a command: the text is the command. -/
theorem Worker.Reads.text {y : Sys} {ls : List Label} {e : SessionEvent} {text : List UInt8}
    (h : (Worker.reading e text).Reads y ls) (hb : (y.context e.client).buf text.length = 0) :
    .created e text ∈ ls := by
  obtain ⟨command, ⟨hmem, hspells⟩, hle, htext⟩ := h
  have hlen : text.length = command.length := by
    by_contra hne
    exact hspells.nonzero text.length (lt_of_le_of_ne hle hne) hb
  rwa [htext, hlen, ← hspells.text]

theorem goOn_reads (y : Sys) (ls : List Label) (e : SessionEvent) (ms : List (List UInt8)) :
    (Worker.goOn e ms).Reads y ls := by
  cases ms <;> trivial

theorem Told.append_request {y : Sys} {ls : List Label} (h : Told ls y) {e : SessionEvent}
    {text : List UInt8} (hmem : .created e text ∈ ls) : Told (ls ++ [.request e text]) y := by
  have hcreated : ∀ {e' : SessionEvent} {command : List UInt8},
      .created e' command ∈ ls ++ [.request e text] → .created e' command ∈ ls := by
    intro e' command hm
    rcases List.mem_append.mp hm with hm | hm
    · exact hm
    · cases List.mem_singleton.mp hm
  refine ⟨fun e' command hm => h.fresh e' command (hcreated hm),
    fun e' command command' hm hm' => h.once e' _ _ (hcreated hm) (hcreated hm'),
    fun e' he' => ?_, fun w hw => (h.reading w hw).kept fun _ _ => rfl, fun e' text' hm => ?_⟩
  · obtain ⟨command, hkeeps⟩ := h.queued e' he'
    exact ⟨command, hkeeps.kept rfl⟩
  · rcases List.mem_append.mp hm with hm | hm
    · exact List.mem_append_left _ (h.told e' text' hm)
    · cases List.mem_singleton.mp hm
      exact List.mem_append_left _ hmem

/-- A new event for the command in the buffer. -/
theorem Told.append_created {y : Sys} {ls : List Label} (h : Told ls y) {c dataLen : ℕ}
    {buf : ℕ → UInt8} (hbuf : buf = (y.context c).buf)
    (hf : 0 < dataLen ∧ (∀ k < dataLen - 1, buf k ≠ 0) ∧ buf (dataLen - 1) = 0) :
    Told (ls ++ [.created ⟨y.created, c⟩ (contents buf (dataLen - 1))])
      { y with loop := .idle, queue := y.queue ++ [⟨y.created, c⟩], created := y.created + 1 } := by
  subst hbuf
  have hspells : Spells (y.context c).buf (contents (y.context c).buf (dataLen - 1)) := by
    have hlen := contents_length (y.context c).buf (dataLen - 1)
    exact ⟨by rw [hlen], by rw [hlen]; exact hf.2.1, by rw [hlen]; exact hf.2.2⟩
  refine ⟨fun e command hm => ?_, fun e command command' hm hm' => ?_, fun e he => ?_,
    fun w hw => (h.reading w hw).kept fun _ _ => rfl, fun e text hm => ?_⟩
  · rcases List.mem_append.mp hm with hm | hm
    · exact (h.fresh e command hm).trans (Nat.lt_succ_self _)
    · cases List.mem_singleton.mp hm
      exact Nat.lt_succ_self _
  · -- the number of the new event is that of no earlier one
    rcases List.mem_append.mp hm with hm | hm <;> rcases List.mem_append.mp hm' with hm' | hm'
    · exact h.once e _ _ hm hm'
    · cases List.mem_singleton.mp hm'
      exact absurd (h.fresh _ _ hm) (lt_irrefl _)
    · cases List.mem_singleton.mp hm
      exact absurd (h.fresh _ _ hm') (lt_irrefl _)
    · cases List.mem_singleton.mp hm
      cases List.mem_singleton.mp hm'
      rfl
  · rcases List.mem_append.mp he with he | he
    · obtain ⟨command, hkeeps⟩ := h.queued e he
      exact ⟨command, hkeeps.kept rfl⟩
    · obtain rfl := List.mem_singleton.mp he
      exact ⟨_, List.mem_append_right _ (List.mem_singleton_self _), hspells⟩
  · rcases List.mem_append.mp hm with hm | hm
    · exact List.mem_append_left _ (h.told e text hm)
    · cases List.mem_singleton.mp hm

/-- **One step**. -/
theorem told_step {y y' : Sys} {a : Action} {ls ls' : List Label} (h : Told ls y) (hf : Filled y)
    (hcivil : Civil y') (he : Effect y a ls' y') : Told (ls ++ ls') y' := by
  have hbuf := buf_kept hcivil he
  cases he with
  | newWorker =>
      refine h.kept hbuf (fun _ hm => hm) rfl fun w hw => ?_
      rcases List.mem_append.mp hw with hw | hw
      · exact .inl hw
      · obtain rfl := List.mem_singleton.mp hw
        exact .inr trivial
  | @take i e es hw hq =>
      refine h.kept hbuf (fun e he => hq ▸ List.mem_cons_of_mem _ he) rfl (mem_setWorker ?_)
      obtain ⟨command, hkeeps⟩ := h.queued e (by rw [hq]; exact List.mem_cons_self)
      exact ⟨command, hkeeps.kept rfl, Nat.zero_le _, rfl⟩
  -- the byte is the next one of the command, since no other command has come into the buffer
  | readByte hw hx hb =>
      refine h.kept hbuf (fun _ hm => hm) rfl (mem_setWorker ?_)
      have hreads := h.reading _ (List.mem_of_getElem? hw)
      rw [← context_eq hx] at hb ⊢
      exact hreads.next rfl hb
  | @request i e text x hw hx hb =>
      have hreads := h.reading _ (List.mem_of_getElem? hw)
      rw [← context_eq hx] at hb
      have hkept := h.kept hbuf (fun _ hm => hm) rfl
        (mem_setWorker (w := .answering e) (i := i) trivial)
      rw [List.append_nil] at hkept
      exact hkept.append_request (hreads.text hb)
  | respond hw => exact h.kept hbuf (fun _ hm => hm) rfl (mem_setWorker trivial)
  | drop hw => exact h.kept hbuf (fun _ hm => hm) rfl (mem_setWorker trivial)
  | sendNothing hw =>
      exact h.kept hbuf (fun _ hm => hm) rfl (mem_setWorker (goOn_reads ..))
  | sendLock hw hx hf => exact h.kept hbuf (fun _ hm => hm) rfl (mem_setWorker trivial)
  | sendWrite hw hx => exact h.kept hbuf (fun _ hm => hm) rfl (mem_setWorker (goOn_reads ..))
  -- a new event is told with the command in the buffer
  | @create c x dataLen readLen hl hx hlive hc =>
      rw [Filled, hl] at hf
      simp only [Recv.Filled, context_eq hx] at hf
      exact h.append_created (by rw [context_eq hx]) (hf hc)
  | _ => exact h.kept hbuf (fun _ hm => hm) rfl fun _ hm => .inl hm

/-- **Every polite run**, by induction on it. -/
theorem told_of_runs {ls : List Label} {y : Sys} (h : RunWhere machine Polite .new ls y) :
    Civil y ∧ Filled y ∧ Told ls y := by
  refine h.invariant (P := fun ls y => Civil y ∧ Filled y ∧ Told ls y)
    ⟨civil_new, trivial, told_new⟩ ?_
  rintro ls y a y' ⟨hcivil, hf, htold⟩ hp hs
  have he := effect_of_step hs
  have hcivil' := hcivil.step hp he
  exact ⟨hcivil', filled_step hf he, told_step htold hf hcivil' he⟩

/-- **Each request is the command that its event was made for**, where a peer sends one command
and waits for its response. -/
theorem request_own_bytes {ls : List Label} {y : Sys} (h : RunWhere machine Polite .new ls y)
    {e : SessionEvent} {command text : List UInt8} (hc : .created e command ∈ ls)
    (hr : .request e text ∈ ls) : text = command := by
  obtain ⟨-, -, htold⟩ := told_of_runs h
  exact htold.once e _ _ (htold.told e text hr) hc

/-- A peer that sends a second command when the first is answered. -/
def askTwice : List Action :=
  [.accept, .newWorker, .clientSend 0 97, .clientSend 0 0, .dispatch 0, .lock, .read (.bytes 2),
    .conclude, .take 0, .readByte 0, .readByte 0, .respond 0 true, .sendLock 0, .sendWrite 0 15 0,
    .clientSend 0 98, .clientSend 0 0, .dispatch 0, .lock, .read (.bytes 1), .read (.bytes 1),
    .conclude, .take 0, .readByte 0, .readByte 0]

/-- Two clients, of whom the second asks. -/
theorem request_own_bytes_twice : ∃ ls y, exec machine .new askTwice = .ok (ls, y) ∧
    .created ⟨1, 0⟩ [98] ∈ ls ∧ .request ⟨1, 0⟩ [98] ∈ ls ∧ ([98] : List UInt8) = [98] := by
  have hc : Label.created ⟨1, 0⟩ [98] ∈ [.created ⟨0, 0⟩ [97], .request ⟨0, 0⟩ [97],
      .created ⟨1, 0⟩ [98], .request ⟨1, 0⟩ [98]] := by decide
  have hr : Label.request ⟨1, 0⟩ [98] ∈ [.created ⟨0, 0⟩ [97], .request ⟨0, 0⟩ [97],
      .created ⟨1, 0⟩ [98], .request ⟨1, 0⟩ [98]] := by decide
  exact ⟨_, _, rfl, hc, hr,
    request_own_bytes (RunWhere.exec askTwice .start (by decide +kernel) rfl) hc hr⟩

/-- A peer that sends a second command before the first is handled. -/
def askAhead : List Action :=
  [.accept, .newWorker, .clientSend 0 97, .clientSend 0 0, .dispatch 0, .lock, .read (.bytes 2),
    .conclude, .clientSend 0 98, .clientSend 0 0, .dispatch 0, .lock, .read (.bytes 2), .conclude,
    .take 0, .readByte 0, .readByte 0]

/-- The first request reads the second command. -/
theorem request_not_always_own_bytes : ¬ ∀ ls y, Runs ls y → ∀ e command text,
    .created e command ∈ ls → .request e text ∈ ls → text = command := by
  intro h
  have hrun : Runs [.created ⟨0, 0⟩ [97], .created ⟨1, 0⟩ [98], .request ⟨0, 0⟩ [98]] _ :=
    Run.exec askAhead .start rfl
  have heq := h _ _ hrun ⟨0, 0⟩ [97] [98] (by decide) (by decide)
  exact absurd heq (by decide)

end VulcanDB.Server
