import VulcanDB.Server.Effects

/-!
# Server — A connection and the events that point to it

Only the end of `recv` deletes a connection: `Server::send` closes nothing, since `writen` never
returns a negative number.  What has to hold there is that no event of the connection is open.

* `uses_live`: where connections are closed only then, whatever uses a connection finds it.
* `connection_outlives`: so no step uses a deleted one.
-/

namespace VulcanDB.Server

open Steps

/-- If the step closes a connection, no event that is queued or handled points to it. -/
def QuietClose (y : Sys) : Action → Prop
  | .conclude => match y.loop with
    | .finished c dataLen readLen =>
      Closes dataLen readLen → ∀ e ∈ y.events, e.client ≠ c
    | _ => True
  | _ => True

instance (y : Sys) (a : Action) : Decidable (QuietClose y a) := by
  unfold QuietClose
  cases a with
  | conclude => cases y.loop <;> infer_instance
  | _ => infer_instance

/-! ### What stays -/

/-- Another write leaves a connection alive. -/
theorem Sys.Live.setClient {y : Sys} {c c' : ℕ} {x x' : ConnectionContext}
    (hx : y.clients[c]? = some x) (hlive : x'.live = x.live) (h : y.Live c') :
    (y.setClient c x').Live c' := by
  obtain ⟨z, hz, hzlive⟩ := h
  have hlt := (List.getElem?_eq_some_iff.mp hx).1
  by_cases hc : c = c'
  · subst hc
    obtain rfl : x = z := Option.some.inj (hx.symm.trans hz)
    exact ⟨x', List.getElem?_set_self hlt, hlive.trans hzlive⟩
  · exact ⟨z, (List.getElem?_set_ne hc).trans hz, hzlive⟩

/-- What a step may not do: let a thread use a connection that is not live. -/
theorem live_of_kept {y y' : Sys} (h : ∀ c, y.Uses c → y.Live c)
    (huses : ∀ c, y'.Uses c → y.Uses c) (hlive : ∀ c, y.Live c → y'.Live c) :
    ∀ c, y'.Uses c → y'.Live c :=
  fun c hc => hlive c (h c (huses c hc))

theorem uses_of_events {y y' : Sys} (hl : y'.loop.client? = y.loop.client?)
    (he : ∀ e ∈ y'.events, e ∈ y.events) (c : ℕ) (hc : y'.Uses c) : y.Uses c := by
  rcases hc with hc | ⟨e, hmem, hclient⟩
  · exact .inl (hl ▸ hc)
  · exact .inr ⟨e, he e hmem, hclient⟩

/-- The event loop is in `recv` for a live connection, or idle. -/
theorem uses_of_loop {y y' : Sys} (hl : y'.loop.client? = none) (he : y'.events = y.events) (c : ℕ)
    (hc : y'.Uses c) : ∃ e ∈ y.events, e.client = c := by
  rcases hc with hc | hc
  · rw [hl] at hc; cases hc
  · rwa [he] at hc

/-- A worker goes on with its event or is done with it. -/
theorem uses_of_worker {y y' : Sys} {i : ℕ} {w w' : Worker} (hw : y.workers[i]? = some w)
    (hws : y'.workers = y.workers.set i w') (he : w'.event? = none ∨ w'.event? = w.event?)
    (hl : y'.loop = y.loop) (hq : y'.queue = y.queue) :
    ∀ c, y'.Uses c → y.Uses c := by
  refine uses_of_events (by rw [hl]) fun e hm => ?_
  rw [Sys.events, hq, hws, List.mem_append, List.mem_filterMap] at hm
  rcases hm with hm | ⟨v, hv, hve⟩
  · exact List.mem_append_left _ hm
  · rcases List.mem_or_eq_of_mem_set hv with hv | rfl
    · exact List.mem_append_right _ (List.mem_filterMap.mpr ⟨v, hv, hve⟩)
    · rcases he with he | he
      · rw [he] at hve; cases hve
      · exact mem_events hw (he ▸ hve)

/-- A worker who goes on keeps his event or is done. -/
theorem goOn_event (e : SessionEvent) (ms : List (List UInt8)) :
    (Worker.goOn e ms).event? = none ∨ (Worker.goOn e ms).event? = some e := by
  cases ms with
  | nil => exact .inl rfl
  | cons m ms => exact .inr rfl

/-- **Whatever uses a connection finds it**, if it did before the step. -/
theorem uses_live_step {y y' : Sys} {a : Action} {ls : List Label}
    (h : ∀ c, y.Uses c → y.Live c) (he : Effect y a ls y') (hq : QuietClose y a) :
    ∀ c, y'.Uses c → y'.Live c := by
  cases he with
  | clientSend hx hu =>
      exact live_of_kept h (fun _ hc => hc) fun _ hc => hc.setClient hx rfl
  | hangUp hx => exact live_of_kept h (fun _ hc => hc) fun _ hc => hc.setClient hx rfl
  | accept hl =>
      refine live_of_kept h (fun _ hc => hc) fun c ⟨x, hx, hlive⟩ => ⟨x, ?_, hlive⟩
      exact (List.getElem?_append_left (List.getElem?_eq_some_iff.mp hx).1).trans hx
  | @dispatch c x hl hx hlive hr =>
      rintro c' (hc | hc)
      · obtain rfl : c = c' := Option.some.inj hc
        exact Sys.Live.setClient hx rfl ⟨x, hx, hlive⟩
      · exact Sys.Live.setClient hx rfl (h c' (.inr hc))
  | lock hl hx hlive hf =>
      exact live_of_kept h (uses_of_events (by rw [hl]; rfl) fun _ hm => hm)
        fun _ hc => hc.setClient hx rfl
  | bytes hl hx hlive hs hn hz =>
      exact live_of_kept h (uses_of_events (by rw [hl]; rfl) fun _ hm => hm)
        fun _ hc => hc.setClient hx rfl
  | command hl hx hlive hs hn hi =>
      exact live_of_kept h (uses_of_events (by rw [hl]; rfl) fun _ hm => hm)
        fun _ hc => hc.setClient hx rfl
  | stopped hl hx hlive hr =>
      exact live_of_kept h (uses_of_events (by rw [hl]; rfl) fun _ hm => hm)
        fun _ hc => hc.setClient hx rfl
  | @close c x dataLen readLen hl hx hlive hc =>
      -- the one step that deletes: the connection is not the one of any event
      have hquiet : ∀ e ∈ y.events, e.client ≠ c := by
        unfold QuietClose at hq
        rw [hl] at hq
        exact hq hc
      intro c' hc'
      obtain ⟨e, hmem, rfl⟩ := uses_of_loop rfl rfl c' hc'
      obtain ⟨z, hz, hzlive⟩ := h e.client (.inr ⟨e, hmem, rfl⟩)
      exact ⟨z, (List.getElem?_set_ne (hquiet e hmem).symm).trans hz, hzlive⟩
  | @create c x dataLen readLen hl hx hlive hc =>
      rintro c' (hc' | ⟨e, hmem, rfl⟩)
      · cases hc'
      · rw [Sys.events, List.mem_append, List.mem_append, List.mem_singleton] at hmem
        rcases hmem with (hmem | rfl) | hmem
        · exact h e.client (.inr ⟨e, List.mem_append_left _ hmem, rfl⟩)
        · exact ⟨x, hx, hlive⟩
        · exact h e.client (.inr ⟨e, List.mem_append_right _ hmem, rfl⟩)
  | newWorker =>
      refine live_of_kept h (uses_of_events rfl fun e hm => ?_) fun _ hc => hc
      simpa [Sys.events, Worker.event?] using hm
  | take hw hempty =>
      exact live_of_kept h (uses_of_events rfl fun e hm => (events_take hw hempty).subset hm)
        fun _ hc => hc
  | readByte hw hx hb =>
      exact live_of_kept h (uses_of_worker hw rfl (.inr rfl) rfl rfl) fun _ hc => hc
  | request hw hx hb =>
      exact live_of_kept h (uses_of_worker hw rfl (.inr rfl) rfl rfl) fun _ hc => hc
  | respond hw => exact live_of_kept h (uses_of_worker hw rfl (.inr rfl) rfl rfl) fun _ hc => hc
  | drop hw => exact live_of_kept h (uses_of_worker hw rfl (.inl rfl) rfl rfl) fun _ hc => hc
  | sendNothing hw =>
      exact live_of_kept h (uses_of_worker hw rfl (goOn_event _ _) rfl rfl) fun _ hc => hc
  | sendLock hw hx hf =>
      exact live_of_kept h (uses_of_worker hw rfl (.inr rfl) rfl rfl)
        fun _ hc => Sys.Live.setClient hx rfl hc
  | sendWrite hw hx =>
      exact live_of_kept h (uses_of_worker hw rfl (goOn_event _ _) rfl rfl)
        fun _ hc => Sys.Live.setClient hx rfl hc

/-! ### Runs -/

/-- Whatever uses a connection finds it, in every run that closes connections only when none of
their events is open. -/
theorem uses_live {ls : List Label} {y : Sys} (h : RunWhere machine QuietClose .new ls y) :
    ∀ c, y.Uses c → y.Live c := by
  refine h.invariant (P := fun _ y => ∀ c, y.Uses c → y.Live c) ?_ ?_
  · rintro c (hc | ⟨e, hmem, -⟩)
    · cases hc
    · cases hmem
  · intro ls y a y' ih hq hs
    exact uses_live_step ih (effect_of_step hs) hq

/-- **No step uses a deleted connection.** -/
theorem connection_outlives {ls : List Label} {y : Sys}
    (h : RunWhere machine QuietClose .new ls y) (a : Action) : step y a ≠ .error .deleted := by
  intro ha
  obtain ⟨c, huses, hlive⟩ := uses_of_deleted ha
  exact hlive (uses_live h c huses)

/-- A client that asks, waits for the response and closes. -/
def askAndClose : List Action :=
  [.accept, .newWorker, .clientSend 0 97, .clientSend 0 0, .dispatch 0, .lock, .read (.bytes 2),
    .conclude, .take 0, .readByte 0, .readByte 0, .respond 0 true, .sendLock 0, .sendWrite 0 15 0,
    .hangUp 0, .dispatch 0, .lock, .read .eof, .conclude]

/-- A client who asks and closes behind the answer. -/
theorem connection_outlives_answered : ∃ ls y, exec machine .new askAndClose = .ok (ls, y) ∧
    ls = [.created ⟨0, 0⟩ [97], .request ⟨0, 0⟩ [97]] ∧ ¬ y.Live 0 ∧
    step y (.readByte 0) ≠ .error .deleted := by
  refine ⟨_, _, rfl, rfl, ?_, ?_⟩
  · rintro ⟨x, hx, hlive⟩
    cases hx
    cases hlive
  · exact connection_outlives (RunWhere.exec askAndClose .start (by decide +kernel) rfl) _

/-- A client that asks and closes. -/
def askAndLeave : List Action :=
  [.accept, .newWorker, .clientSend 0 97, .clientSend 0 0, .dispatch 0, .lock, .read (.bytes 2),
    .conclude, .hangUp 0, .dispatch 0, .lock, .read .eof, .conclude, .take 0]

theorem connection_not_always_outlives :
    ¬ ∀ ls y, Runs ls y → ∀ a, step y a ≠ .error .deleted := by
  intro h
  exact h _ _ (Run.exec askAndLeave .start rfl) (.readByte 0) rfl

end VulcanDB.Server
