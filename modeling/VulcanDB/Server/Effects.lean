import VulcanDB.Server.Connection

/-!
# Server — What a step does

* `effect_of_step`: every step, with what held before it.
* `uses_of_deleted`: a step that fails on a deleted connection is a step of a thread that uses it.
* `Effect.events`: a step leaves the events that are open, opens one or is done with one.
-/

namespace VulcanDB.Server

open Steps

/-! ### The steps -/

/-- What a step of the machine does, and its labels. -/
inductive Effect (y : Sys) : Action → List Label → Sys → Prop
  | clientSend {c b x} (hx : y.clients[c]? = some x) (hu : x.fd.hungUp = false) :
      Effect y (.clientSend c b) [] (y.setClient c { x with fd := x.fd.send b })
  | hangUp {c x} (hx : y.clients[c]? = some x) :
      Effect y (.hangUp c) [] (y.setClient c { x with fd := { x.fd with hungUp := true } })
  | accept (hl : y.loop = .idle) :
      Effect y .accept [] { y with clients := y.clients ++ [.new] }
  | dispatch {c x} (hl : y.loop = .idle) (hx : y.clients[c]? = some x) (hlive : x.live = true)
      (hr : x.fd.incoming ≠ [] ∨ x.fd.hungUp = true) :
      Effect y (.dispatch c) []
        { y.setClient c { x with buf := fun _ => 0 } with loop := .cleared c }
  | lock {c x} (hl : y.loop = .cleared c) (hx : y.clients[c]? = some x) (hlive : x.live = true)
      (hf : x.locked = false) :
      Effect y .lock [] { y.setClient c { x with locked := true } with loop := .reading c 0 }
  | bytes {c x dataLen n} (hl : y.loop = .reading c dataLen) (hx : y.clients[c]? = some x)
      (hlive : x.live = true) (hs : n + dataLen ≤ socketBufferSize)
      (hn : n ≤ x.fd.incoming.length) (hz : 0 ∉ x.fd.incoming.take n) :
      Effect y (.read (.bytes n)) []
        { y.setClient c { x with fd := x.fd.read n,
                                 buf := store x.buf dataLen (x.fd.incoming.take n) } with
          loop := .reading c (dataLen + n) }
  | command {c x dataLen n i} (hl : y.loop = .reading c dataLen) (hx : y.clients[c]? = some x)
      (hlive : x.live = true) (hs : n + dataLen ≤ socketBufferSize)
      (hn : n ≤ x.fd.incoming.length) (hi : (x.fd.incoming.take n).findIdx? (· == 0) = some i) :
      Effect y (.read (.bytes n)) []
        (finish y c { x with fd := x.fd.read n,
                             buf := store x.buf dataLen (x.fd.incoming.take n) }
          (dataLen + i + 1) n)
  | stopped {c x dataLen r} {readLen : Int} (hl : y.loop = .reading c dataLen)
      (hx : y.clients[c]? = some x) (hlive : x.live = true) (hr : readLen ≤ 0) :
      Effect y (.read r) [] (finish y c x dataLen readLen)
  | close {c x dataLen readLen} (hl : y.loop = .finished c dataLen readLen)
      (hx : y.clients[c]? = some x) (hlive : x.live = true) (hc : Closes dataLen readLen) :
      Effect y .conclude [] { closeConnection y c x with loop := .idle }
  | create {c x dataLen readLen} (hl : y.loop = .finished c dataLen readLen)
      (hx : y.clients[c]? = some x) (hlive : x.live = true) (hc : ¬ Closes dataLen readLen) :
      Effect y .conclude [.created ⟨y.created, c⟩ (contents x.buf (dataLen - 1))]
        { y with loop := .idle, queue := y.queue ++ [⟨y.created, c⟩], created := y.created + 1 }
  | newWorker : Effect y .newWorker [] { y with workers := y.workers ++ [.idle] }
  | take {i e es} (hw : y.workers[i]? = some .idle) (hq : y.queue = e :: es) :
      Effect y (.take i) [] { y.setWorker i (.reading e []) with queue := es }
  | readByte {i e text x} (hw : y.workers[i]? = some (.reading e text))
      (hx : y.clients[e.client]? = some x) (hb : x.buf text.length ≠ 0) :
      Effect y (.readByte i) [] (y.setWorker i (.reading e (text ++ [x.buf text.length])))
  | request {i e text x} (hw : y.workers[i]? = some (.reading e text))
      (hx : y.clients[e.client]? = some x) (hb : x.buf text.length = 0) :
      Effect y (.readByte i) [.request e text] (y.setWorker i (.answering e))
  | respond {i e} (hw : y.workers[i]? = some (.answering e)) :
      Effect y (.respond i true) [] (y.setWorker i (.sending e (callbackMessages helloResponse)))
  | drop {i e} (hw : y.workers[i]? = some (.answering e)) :
      Effect y (.respond i false) [] (y.setWorker i .idle)
  | sendNothing {i e ms} (hw : y.workers[i]? = some (.sending e ([] :: ms))) :
      Effect y (.sendLock i) [] (y.setWorker i (.goOn e ms))
  | sendLock {i e m ms x} (hw : y.workers[i]? = some (.sending e (m :: ms)))
      (hx : y.clients[e.client]? = some x) (hf : x.locked = false) :
      Effect y (.sendLock i) []
        ((y.setClient e.client { x with locked := true }).setWorker i (.writing e m ms))
  | sendWrite {i n errno e m ms x} (hw : y.workers[i]? = some (.writing e m ms))
      (hx : y.clients[e.client]? = some x) :
      Effect y (.sendWrite i n errno) []
        ((y.setClient e.client
          { x with fd := x.fd.write (m.take n), locked := false }).setWorker i (.goOn e ms))

theorem record_eq_ok {y : Sys} {c : ℕ} {x : ConnectionContext} :
    y.record c = .ok x ↔ y.clients[c]? = some x := by
  unfold Sys.record
  cases y.clients[c]? <;> simp

theorem client_eq_ok {y : Sys} {c : ℕ} {x : ConnectionContext} :
    y.client c = .ok x ↔ y.clients[c]? = some x ∧ x.live = true := by
  simp only [Sys.client, bind_eq_ok, record_eq_ok, require_eq_ok, pure_eq_ok]
  constructor
  · rintro ⟨x', hx, -, hlive, rfl⟩
    exact ⟨hx, hlive⟩
  · rintro ⟨hx, hlive⟩
    exact ⟨x, hx, (), hlive, rfl⟩

theorem worker_eq_ok {y : Sys} {i : ℕ} {w : Worker} :
    y.worker i = .ok w ↔ y.workers[i]? = some w := by
  unfold Sys.worker
  cases y.workers[i]? <;> simp

theorem loop_idle {l : Recv} (h : (l matches .idle) = true) : l = .idle := by
  cases l with
  | idle => rfl
  | _ => cases h

theorem context_eq {y : Sys} {c : ℕ} {x : ConnectionContext} (h : y.clients[c]? = some x) :
    y.context c = x := by
  rw [Sys.context, h, Option.getD_some]

/-- `writen` never returns a negative number, so `Server::send` closes nothing. -/
theorem writen_nonneg (size n errno : ℕ) : ¬ writen size n errno < 0 := by
  unfold writen
  split <;> omega

theorem read_effect {y y' : Sys} {r : Read} (h : read y r = .ok y') :
    Effect y (.read r) [] y' := by
  unfold read at h
  split at h
  case h_2 => cases h
  rename_i c dataLen hl
  simp only [bind_eq_ok, client_eq_ok, require_eq_ok] at h
  obtain ⟨x, ⟨hx, hlive⟩, -, hcan, h⟩ := h
  cases r with
  | bytes n =>
      obtain ⟨hpos, hs, hn⟩ := hcan
      have hs : n + dataLen ≤ socketBufferSize := by omega
      simp only [gt_iff_lt, Nat.not_lt.mpr hs, if_false] at h
      split at h
      · rename_i i hi
        obtain rfl := pure_eq_ok.mp h
        exact .command hl hx hlive hs hn hi
      · rename_i hi
        obtain rfl := pure_eq_ok.mp h
        refine .bytes hl hx hlive hs hn fun hz => ?_
        have := List.findIdx?_eq_none_iff.mp hi 0 hz
        cases this
  | eof =>
      obtain rfl := pure_eq_ok.mp h
      exact .stopped hl hx hlive le_rfl
  | error =>
      obtain rfl := pure_eq_ok.mp h
      exact .stopped hl hx hlive (by decide)

theorem readByte_effect {y y' : Sys} {i : ℕ} (h : readByte y i = .ok y') :
    Effect y (.readByte i) (requestText y i) y' := by
  unfold readByte at h
  simp only [bind_eq_ok, worker_eq_ok] at h
  obtain ⟨w, hw, h⟩ := h
  cases w with
  | reading e text =>
      simp only [bind_eq_ok, client_eq_ok, require_eq_ok] at h
      obtain ⟨x, ⟨hx, hlive⟩, -, -, h⟩ := h
      have hlabel : requestText y i = if x.buf text.length = 0 then [.request e text] else [] := by
        rw [requestText, hw, ← context_eq hx]
      rw [hlabel]
      split at h
      · rename_i hb
        obtain rfl := pure_eq_ok.mp h
        rw [if_pos hb]
        exact .request hw hx hb
      · rename_i hb
        obtain rfl := pure_eq_ok.mp h
        rw [if_neg hb]
        exact .readByte hw hx hb
  | _ => cases h

theorem conclude_effect {y y' : Sys} (h : conclude y = .ok y') :
    Effect y .conclude (creation y) y' := by
  unfold conclude at h
  split at h
  case h_2 => cases h
  rename_i c dataLen readLen hl
  simp only [bind_eq_ok, client_eq_ok] at h
  obtain ⟨x, ⟨hx, hlive⟩, h⟩ := h
  have hlabel : creation y = if Closes dataLen readLen then []
      else [.created ⟨y.created, c⟩ (contents x.buf (dataLen - 1))] := by
    rw [creation, hl, ← context_eq hx]
  rw [hlabel]
  split at h
  · rename_i hc
    obtain rfl := pure_eq_ok.mp h
    rw [if_pos hc]
    exact .close hl hx hlive hc
  · rename_i hc
    obtain rfl := pure_eq_ok.mp h
    rw [if_neg hc]
    exact .create hl hx hlive hc

theorem sendLock_effect {y y' : Sys} {i : ℕ} (h : sendLock y i = .ok y') :
    Effect y (.sendLock i) [] y' := by
  unfold sendLock at h
  simp only [bind_eq_ok, worker_eq_ok] at h
  obtain ⟨w, hw, h⟩ := h
  split at h
  · rename_i e m ms
    split at h
    · rename_i hm
      obtain rfl := hm
      obtain rfl := pure_eq_ok.mp h
      exact .sendNothing hw
    · simp only [bind_eq_ok, client_eq_ok, require_eq_ok, pure_eq_ok] at h
      obtain ⟨x, ⟨hx, -⟩, -, hf, rfl⟩ := h
      exact .sendLock hw hx hf
  · cases h

theorem sendWrite_effect {y y' : Sys} {i n errno : ℕ} (h : sendWrite y i n errno = .ok y') :
    Effect y (.sendWrite i n errno) [] y' := by
  unfold sendWrite at h
  simp only [bind_eq_ok, worker_eq_ok] at h
  obtain ⟨w, hw, h⟩ := h
  split at h
  · rename_i e m ms
    simp only [bind_eq_ok, client_eq_ok, require_eq_ok, writen_nonneg, if_false, pure_eq_ok] at h
    obtain ⟨x, ⟨hx, -⟩, -, -, rfl⟩ := h
    exact .sendWrite hw hx
  · cases h

/-- **Every step**, with what held before it. -/
theorem effect_of_step {y y' : Sys} {a : Action} (h : step y a = .ok y') :
    Effect y a (label y a) y' := by
  cases a with
  | clientSend c b =>
      simp only [step, clientSend, bind_eq_ok, record_eq_ok, require_eq_ok, pure_eq_ok] at h
      obtain ⟨x, hx, -, hu, rfl⟩ := h
      exact .clientSend hx hu
  | hangUp c =>
      simp only [step, hangUp, bind_eq_ok, record_eq_ok, pure_eq_ok] at h
      obtain ⟨x, hx, rfl⟩ := h
      exact .hangUp hx
  | accept =>
      simp only [step, accept, bind_eq_ok, require_eq_ok, pure_eq_ok] at h
      obtain ⟨-, hl, rfl⟩ := h
      exact .accept (loop_idle hl)
  | dispatch c =>
      simp only [step, dispatch, bind_eq_ok, record_eq_ok, require_eq_ok, pure_eq_ok] at h
      obtain ⟨-, hl, x, hx, -, hlive, -, hr, rfl⟩ := h
      exact .dispatch (loop_idle hl) hx hlive hr
  | lock =>
      simp only [step, lock] at h
      split at h
      · rename_i c hl
        simp only [bind_eq_ok, client_eq_ok, require_eq_ok, pure_eq_ok] at h
        obtain ⟨x, ⟨hx, hlive⟩, -, hf, rfl⟩ := h
        exact .lock hl hx hlive hf
      · cases h
  | read r => exact read_effect h
  | conclude => exact conclude_effect h
  | newWorker =>
      obtain rfl := Except.ok.inj h
      exact .newWorker
  | take i =>
      simp only [step, take, bind_eq_ok, worker_eq_ok] at h
      obtain ⟨w, hw, h⟩ := h
      split at h
      · rename_i e es hq
        obtain rfl := pure_eq_ok.mp h
        exact .take hw hq
      · cases h
  | readByte i => exact readByte_effect h
  | respond i allocated =>
      simp only [step, respond, bind_eq_ok, worker_eq_ok] at h
      obtain ⟨w, hw, h⟩ := h
      split at h
      · split at h
        · rename_i e hallocated
          obtain rfl := hallocated
          obtain rfl := pure_eq_ok.mp h
          exact .respond hw
        · rename_i e hallocated
          obtain rfl := Bool.eq_false_iff.mpr hallocated
          obtain rfl := pure_eq_ok.mp h
          exact .drop hw
      · cases h
  | sendLock i => exact sendLock_effect h
  | sendWrite i n errno => exact sendWrite_effect h

/-! ### Who uses a connection -/

/-- The event a worker has not done with: it may still use its connection. -/
def Worker.event? : Worker → Option SessionEvent
  | .idle => none
  | .reading e _ => some e
  | .answering e => some e
  | .sending e _ => some e
  | .writing e _ _ => some e

/-- The connection that `recv` is called for. -/
def Recv.client? : Recv → Option ℕ
  | .idle => none
  | .cleared c => some c
  | .reading c _ => some c
  | .finished c _ _ => some c

/-- The events that are queued or handled. -/
def Sys.events (y : Sys) : List SessionEvent := y.queue ++ y.workers.filterMap Worker.event?

/-- The thread of the event loop or an event uses the connection. -/
def Sys.Uses (y : Sys) (c : ℕ) : Prop :=
  y.loop.client? = some c ∨ ∃ e ∈ y.events, e.client = c

/-- The connection is there and not deleted. -/
def Sys.Live (y : Sys) (c : ℕ) : Prop := ∃ x, y.clients[c]? = some x ∧ x.live = true

/-- Only a connection that is not alive is found deleted. -/
theorem client_eq_deleted {y : Sys} {c : ℕ} (h : y.client c = .error .deleted) : ¬ y.Live c := by
  rintro ⟨x, hx, hlive⟩
  rw [client_eq_ok.mpr ⟨hx, hlive⟩] at h
  cases h

theorem record_ne_deleted (y : Sys) (c : ℕ) : y.record c ≠ .error .deleted := by
  unfold Sys.record
  cases y.clients[c]? <;> simp

theorem worker_ne_deleted (y : Sys) (i : ℕ) : y.worker i ≠ .error .deleted := by
  unfold Sys.worker
  cases y.workers[i]? <;> simp

/-- The event of a worker is one of the events. -/
theorem mem_events {y : Sys} {i : ℕ} {w : Worker} {e : SessionEvent} (hw : y.workers[i]? = some w)
    (he : w.event? = some e) : e ∈ y.events :=
  List.mem_append_right _ (List.mem_filterMap.mpr ⟨w, List.mem_of_getElem? hw, he⟩)

/-- A worker who finds a deleted connection. -/
theorem deleted_of_worker {α : Type} {y : Sys} {i : ℕ} {f : Worker → Except Stop α}
    (h : y.worker i >>= f = .error .deleted) :
    ∃ w, y.workers[i]? = some w ∧ f w = .error .deleted := by
  simp only [bind_eq_error, worker_ne_deleted, false_or, worker_eq_ok] at h
  exact h

/-- **A step that fails on a deleted connection** is a step of a thread that uses it. -/
theorem uses_of_deleted {y : Sys} {a : Action} (h : step y a = .error .deleted) :
    ∃ c, y.Uses c ∧ ¬ y.Live c := by
  cases a with
  -- these look up no connection that may be deleted
  | clientSend c b => simp [step, clientSend, record_ne_deleted] at h
  | hangUp c => simp [step, hangUp, record_ne_deleted] at h
  | accept => simp [step, accept] at h
  | dispatch c => simp [step, dispatch, record_ne_deleted] at h
  | newWorker => cases h
  | take i =>
      obtain ⟨w, -, h⟩ := deleted_of_worker h
      split at h <;> cases h
  | respond i allocated =>
      obtain ⟨w, -, h⟩ := deleted_of_worker h
      split at h
      · split at h <;> cases h
      · cases h
  -- the loop uses the connection it reads from
  | lock =>
      simp only [step, lock] at h
      split at h
      · rename_i c hl
        refine ⟨c, .inl (by rw [hl]; rfl), ?_⟩
        simp only [bind_eq_error, require_eq_error, pure_ne_error] at h
        rcases h with h | ⟨x, -, h⟩
        · exact client_eq_deleted h
        · simp at h
      · cases h
  | read r =>
      simp only [step, read] at h
      split at h
      · rename_i c dataLen hl
        refine ⟨c, .inl (by rw [hl]; rfl), ?_⟩
        simp only [bind_eq_error, require_eq_error] at h
        rcases h with h | ⟨x, -, ⟨-, h⟩ | ⟨-, -, h⟩⟩
        · exact client_eq_deleted h
        · cases h
        · split at h
          · split at h
            · cases h
            · split at h <;> cases h
          · cases h
          · cases h
      · cases h
  | conclude =>
      simp only [step, conclude] at h
      split at h
      · rename_i c dataLen readLen hl
        refine ⟨c, .inl (by rw [hl]; rfl), ?_⟩
        rw [bind_eq_error] at h
        rcases h with h | ⟨x, -, h⟩
        · exact client_eq_deleted h
        · split at h <;> cases h
      · cases h
  -- a worker uses the connection of its event
  | readByte i =>
      obtain ⟨w, hw, h⟩ := deleted_of_worker h
      split at h
      · rename_i e text
        refine ⟨e.client, .inr ⟨e, mem_events hw rfl, rfl⟩, ?_⟩
        simp only [bind_eq_error, require_eq_error] at h
        rcases h with h | ⟨x, -, ⟨-, h⟩ | ⟨-, -, h⟩⟩
        · exact client_eq_deleted h
        · cases h
        · split at h <;> cases h
      · cases h
  | sendLock i =>
      obtain ⟨w, hw, h⟩ := deleted_of_worker h
      split at h
      · rename_i e m ms
        split at h
        · cases h
        · refine ⟨e.client, .inr ⟨e, mem_events hw rfl, rfl⟩, ?_⟩
          simp only [bind_eq_error, require_eq_error, pure_ne_error] at h
          rcases h with h | ⟨x, -, h⟩
          · exact client_eq_deleted h
          · simp at h
      · cases h
  | sendWrite i n errno =>
      obtain ⟨w, hw, h⟩ := deleted_of_worker h
      split at h
      · rename_i e m ms
        refine ⟨e.client, .inr ⟨e, mem_events hw rfl, rfl⟩, ?_⟩
        simp only [bind_eq_error, require_eq_error] at h
        rcases h with h | ⟨x, -, ⟨-, h⟩ | ⟨-, -, h⟩⟩
        · exact client_eq_deleted h
        · cases h
        · split at h <;> cases h
      · cases h

/-! ### The events that are open -/

theorem filterMap_set {α β : Type} {f : α → Option β} {l : List α} {i : ℕ} {x y : α}
    (h : l[i]? = some x) (hf : f y = f x) : (l.set i y).filterMap f = l.filterMap f := by
  induction l generalizing i with
  | nil => rfl
  | cons z l ih =>
      cases i with
      | zero =>
          obtain rfl : z = x := Option.some.inj h
          rw [List.set_cons_zero, List.filterMap_cons, List.filterMap_cons, hf]
      | succ i => rw [List.set_cons_succ, List.filterMap_cons, List.filterMap_cons, ih h]

/-- One part that had nothing has something now. -/
theorem filterMap_set_perm {α β : Type} {f : α → Option β} {l : List α} {i : ℕ} {x y : α} {b : β}
    (h : l[i]? = some x) (hx : f x = none) (hy : f y = some b) :
    ((l.set i y).filterMap f).Perm (b :: l.filterMap f) := by
  induction l generalizing i with
  | nil => cases h
  | cons z l ih =>
      cases i with
      | zero =>
          obtain rfl : z = x := Option.some.inj h
          rw [List.set_cons_zero, List.filterMap_cons_some hy, List.filterMap_cons_none hx]
      | succ i =>
          rw [List.set_cons_succ, List.filterMap_cons, List.filterMap_cons]
          cases f z with
          | none => exact ih h
          | some c => exact (ih h).cons c |>.trans (.swap b c _)

theorem events_setWorker {y : Sys} {i : ℕ} {w w' : Worker} (hw : y.workers[i]? = some w)
    (he : w'.event? = w.event?) : (y.setWorker i w').events = y.events := by
  rw [Sys.events, Sys.events, Sys.setWorker, filterMap_set hw he]

/-- A worker is done with its event. -/
theorem events_done {y : Sys} {i : ℕ} {w w' : Worker} {e : SessionEvent}
    (hw : y.workers[i]? = some w) (he : w.event? = some e) (he' : w'.event? = none) :
    y.events.Perm (e :: (y.setWorker i w').events) := by
  have hlt := (List.getElem?_eq_some_iff.mp hw).1
  have hw' : (y.workers.set i w')[i]? = some w' := List.getElem?_set_self hlt
  have hset : (y.workers.set i w').set i w = y.workers := by
    obtain ⟨-, rfl⟩ := List.getElem?_eq_some_iff.mp hw
    rw [List.set_set, List.set_getElem_self]
  have hperm := filterMap_set_perm hw' he' he
  rw [hset] at hperm
  exact (hperm.append_left y.queue).trans List.perm_middle

/-- A worker takes the first event of the queue. -/
theorem events_take {y : Sys} {i : ℕ} {e : SessionEvent} {es : List SessionEvent}
    (hw : y.workers[i]? = some .idle) (hq : y.queue = e :: es) :
    ({ y.setWorker i (.reading e []) with queue := es } : Sys).events.Perm y.events := by
  have hperm := filterMap_set_perm (f := Worker.event?) (y := .reading e []) hw rfl rfl
  rw [Sys.events, Sys.events, hq]
  exact (hperm.append_left es).trans List.perm_middle

end VulcanDB.Server
