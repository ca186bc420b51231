import VulcanDB.Seda.Completion

/-!
# SEDA — Callbacks in every run

The steps of the threads, seen as changes of the objects, and what follows for every run of them.

* `effect_acted`: a step makes one change, or two when a worker looks at an event.
* `callbacks_once`: each callback is invoked once, the latest first, and a run that drains its
  queues has destroyed every event after its last callback.
-/

namespace VulcanDB.Seda.Callbacks

open Steps

variable {σ : Type}

/-- The callback that is deleted when the function returns. -/
def Frame.running : Frame → Option ℕ
  | .callback _ cb _ => some cb
  | _ => none

/-- The objects of a world. -/
def World.core (w : World σ) : Core σ where
  events := w.events
  callbacks := w.callbacks
  queue s := (w.sys.stage s).eventList
  running i := (w.frames i).filterMap Frame.running

@[simp] theorem setFrames_self (w : World σ) (i : ℕ) (fs : List Frame) :
    (w.setFrames i fs).frames i = fs := Function.update_self ..

theorem setFrames_of_ne (w : World σ) {i j : ℕ} (h : j ≠ i) (fs : List Frame) :
    (w.setFrames i fs).frames j = w.frames j := Function.update_of_ne h ..

/-- In the core only what runs differs. -/
theorem core_setFrames (w : World σ) (i : ℕ) (fs : List Frame) : (w.setFrames i fs).core =
    { w.core with running := Function.update w.core.running i (fs.filterMap Frame.running) } := by
  have hrun : (w.setFrames i fs).core.running =
      Function.update w.core.running i (fs.filterMap Frame.running) := by
    funext j
    by_cases hj : j = i
    · subst hj
      simp [World.core, World.setFrames]
    · simp [World.core, World.setFrames, hj]
  rw [← hrun]
  rfl

/-- The same callbacks run. -/
theorem core_setFrames_same {w : World σ} {i : ℕ} {fs : List Frame}
    (h : fs.filterMap Frame.running = w.core.running i) : (w.setFrames i fs).core = w.core := by
  rw [core_setFrames, h, Function.update_eq_self]

/-- A step of the stages changes the system alone. -/
theorem seda_eq_ok {w w' : World σ} {r : Except Seda.Stop (Sys σ ℕ)} :
    w.seda r = .ok w' ↔ ∃ y, r = .ok y ∧ { w with sys := y } = w' := by
  unfold World.seda
  cases r <;> simp

/-- A callback that can be used exists. -/
theorem callback_ok {w : World σ} {cb : ℕ} {c : CompletionCallback σ}
    (h : w.callback cb = .ok c) : w.callbacks[cb]? = some c := by
  unfold World.callback at h
  split at h
  · cases h
  · rename_i c' hc
    split at h
    · cases h
    · rw [hc, Except.ok.inj h]

/-- The thread can hand on the event, `e` in `k`: it has it in hand as `e₁`, since before or since its
look at it. -/
structure Ready (k : Core σ) (w : World σ) (i ev : ℕ) (e e₁ : StageEvent σ) : Prop where
  event : k.events[ev]? = some e
  grip : Grip e i
  held : e₁.place = .held i
  core : w.core = { k with events := k.events.set ev e₁ }

section Ready

variable {k : Core σ} {w : World σ} {i ev : ℕ} {e e₁ : StageEvent σ}

theorem Ready.events (h : Ready k w i ev e e₁) : w.events = k.events.set ev e₁ :=
  congrArg Core.events h.core

/-- The callbacks are those of the core. -/
theorem Ready.callbacks (h : Ready k w i ev e e₁) : w.callbacks = k.callbacks :=
  congrArg Core.callbacks h.core

theorem Ready.queue (h : Ready k w i ev e e₁) (s : σ) : (w.sys.stage s).eventList = k.queue s :=
  congrFun (congrArg Core.queue h.core) s

theorem Ready.running (h : Ready k w i ev e e₁) (j : ℕ) :
    (w.frames j).filterMap Frame.running = k.running j :=
  congrFun (congrArg Core.running h.core) j

/-- A write to the event in hand is a write to the core. -/
theorem Ready.core_setEvent (h : Ready k w i ev e e₁) (e₂ : StageEvent σ) :
    (w.setEvent ev e₂).core = { k with events := k.events.set ev e₂ } := by
  refine Core.ext ?_ h.callbacks (funext h.queue) (funext h.running)
  show w.events.set ev e₂ = k.events.set ev e₂
  rw [h.events, List.set_set]

theorem Ready.setEvent (h : Ready k w i ev e e₁) {e₂ : StageEvent σ} (hp : e₂.place = .held i) :
    Ready k (w.setEvent ev e₂) i ev e e₂ := ⟨h.event, h.grip, hp, h.core_setEvent e₂⟩

end Ready

variable [DecidableEq σ]

/-! ### Handing an event on -/

section Hand

variable {w w' : World σ} {i ev : ℕ} {ls : List Label} {k : Core σ} {e e' : StageEvent σ}

theorem event_ok (h : w.event ev = .ok e) : w.events[ev]? = some e := by
  unfold World.event at h
  split at h
  · cases h
  · rename_i e' he
    split at h
    · cases h
    · rw [he, Except.ok.inj h]

/-- An event in hand exists and is held. -/
theorem inHand_ok (h : w.inHand i ev = .ok e) : w.events[ev]? = some e ∧ e.place = .held i := by
  obtain ⟨_, -, h⟩ := bind_eq_ok.mp h
  split at h
  · cases h
  · rename_i e' he
    obtain ⟨_, hp, h⟩ := bind_eq_ok.mp h
    obtain rfl := Except.ok.inj h
    exact ⟨he, require_eq_ok.mp hp⟩

/-- An event that the thread has in hand. -/
theorem ready_of_inHand (h : w.inHand i ev = .ok e) : Ready w.core w i ev e e := by
  obtain ⟨he, hp⟩ := inHand_ok h
  refine ⟨he, .inl hp, hp, ?_⟩
  have hsame : w.events.set ev e = w.events := by
    obtain ⟨hlt, hget⟩ := List.getElem?_eq_some_iff.mp he
    rw [← hget, List.set_getElem_self]
  exact congrArg (fun l => { w.core with events := l }) hsame.symm

theorem Ready.inHand (h : Ready k w i ev e e₁) (he : w.inHand i ev = .ok e') : e' = e₁ := by
  have hget := (inHand_ok he).1
  rw [h.events, getElem?_set_of_some h.event, if_pos rfl] at hget
  exact (Option.some.inj hget).symm

/-- What a step leaves of the frames of the threads and of the stages. -/
structure Frames (killer : σ → Bool) (w : World σ) (i : ℕ) (w' : World σ) : Prop where
  others : ∀ j, j ≠ i → w'.frames j = w.frames j
  own : ∀ ev, .removed ev ∈ w'.frames i → .removed ev ∈ w.frames i
  sys : w'.sys = w.sys ∨ ∃ a, step killer w.sys a = .ok w'.sys

/-- **An event is added** to a queue, by its holder or by `done`. -/
theorem Ready.addEvent (killer : σ → Bool) (h : Ready k w i ev e e₁) {byDone : Bool} {s : σ}
    {r : Result σ} (hd : byDone = false → e.place = .held i)
    (hflag : e₁.cbFlag = (byDone || e.cbFlag)) (hcb : e₁.compCb = e.compCb)
    (ha : addEvent w i s ev byDone = .ok r) :
    Change i k r.2 r.1.core ∧ Frames killer w i r.1 := by
  obtain ⟨e', he', ha⟩ := bind_eq_ok.mp ha
  obtain rfl := h.inHand he'
  obtain ⟨w₁, hw₁, ha⟩ := bind_eq_ok.mp ha
  obtain ⟨y, hy, rfl⟩ := seda_eq_ok.mp hw₁
  obtain rfl := Except.ok.inj ha
  have hy : step killer w.sys (.addEvent i s ev) = .ok y := hy
  refine ⟨?_, fun _ _ => rfl, fun _ hf => hf, .inr ⟨.addEvent i s ev, hy⟩⟩
  have hcore : ({ w with sys := y }.setEvent ev { e' with place := .queued s }).core =
      { k with events := k.events.set ev { e with cbFlag := byDone || e.cbFlag, place := .queued s }
               queue := Function.update k.queue s (k.queue s ++ [ev]) } := by
    have hevent : ({ e' with place := .queued s } : StageEvent σ) =
        { e with cbFlag := byDone || e.cbFlag, place := .queued s } := by
      rw [← hflag, ← hcb]
    refine Core.ext ?_ h.callbacks (funext fun s' => ?_) (funext h.running)
    · show w.events.set ev _ = k.events.set ev _
      rw [h.events, List.set_set, hevent]
    · show (y.stage s').eventList = Function.update k.queue s (k.queue s ++ [ev]) s'
      have hadd := addEvent_eventList hy s'
      rw [h.queue] at hadd
      by_cases hs : s' = s
      · subst hs
        rw [Function.update_self]
        simpa using hadd
      · rw [Function.update_of_ne hs]
        simpa [Ne.symm hs] using hadd
  rw [hcore]
  exact .add s h.event h.grip hd

/-- The destructor runs where no callback is left. -/
theorem Ready.destroy (h : Ready k w i ev e e₁) (hcb : e₁.compCb = e.compCb)
    (hflag : e₁.cbFlag = e.cbFlag) (hnone : e₁.compCb = none) :
    Change i k [.destroyed ev] (w.setEvent ev { e₁ with place := .destroyed }).core := by
  have hevent : ({ e₁ with place := .destroyed } : StageEvent σ) =
      { e with place := .destroyed } := by rw [hcb, hflag]
  rw [h.core_setEvent, hevent]
  exact .destroy h.event h.grip (hcb.symm.trans hnone)

/-- **`done`** adds the event to the target stage of its top callback, or destroys it. -/
theorem Ready.done (killer : σ → Bool) (h : Ready k w i ev e e₁) (hcb : e₁.compCb = e.compCb)
    (hflag : e₁.cbFlag = e.cbFlag) {r : Result σ} (hd : done w i ev = .ok r) :
    Change i k r.2 r.1.core ∧ Frames killer w i r.1 := by
  obtain ⟨e', he', hd⟩ := bind_eq_ok.mp hd
  obtain rfl := h.inHand he'
  split at hd
  · rename_i hnone
    obtain rfl := Except.ok.inj hd
    exact ⟨h.destroy hcb hflag hnone, fun _ _ => rfl, fun _ hf => hf, .inl rfl⟩
  · obtain ⟨c, -, hd⟩ := bind_eq_ok.mp hd
    have hready : Ready k (w.setEvent ev { e' with cbFlag := true }) i ev e
      { e' with cbFlag := true } := h.setEvent h.held
    obtain ⟨hchange, hframes⟩ := hready.addEvent killer (by simp) rfl hcb hd
    exact ⟨hchange, hframes.others, hframes.own, hframes.sys⟩

/-- **`done_immediate` and `done_timeout`** pop the top callback, or destroy the event. -/
theorem Ready.complete (killer : σ → Bool) (h : Ready k w i ev e e₁) (hcb : e₁.compCb = e.compCb)
    (hflag : e₁.cbFlag = e.cbFlag) {timeout : Bool} {r : Result σ}
    (hd : complete timeout w i ev = .ok r) :
    Change i k r.2 r.1.core ∧ Frames killer w i r.1 := by
  obtain ⟨e', he', hd⟩ := bind_eq_ok.mp hd
  obtain rfl := h.inHand he'
  split at hd
  · -- without a callback the event is destroyed
    rename_i hnone
    obtain rfl := Except.ok.inj hd
    exact ⟨h.destroy hcb hflag hnone, fun _ _ => rfl, fun _ hf => hf, .inl rfl⟩
  · -- the callback on top is taken off and invoked
    rename_i top htop
    obtain ⟨c, hc, hd⟩ := bind_eq_ok.mp hd
    obtain rfl := Except.ok.inj hd
    refine ⟨?_, fun j hj => setFrames_of_ne _ hj _, fun ev' hf => ?_, .inl rfl⟩
    · have hget : k.callbacks[top]? = some c := by
        rw [← h.callbacks]
        exact callback_ok hc
      have hevent : (⟨c.nextCb, false, e'.place⟩ : StageEvent σ) = ⟨c.nextCb, false, .held i⟩ := by
        rw [h.held]
      have hchange := Change.invoke h.event h.grip (hcb.symm.trans htop) hget
      convert hchange using 1
      rw [core_setFrames]
      refine Core.ext ?_ ?_ (funext h.queue) ?_
      · show w.events.set ev _ = k.events.set ev _
        rw [h.events, List.set_set, hevent]
      · show w.callbacks.set top _ = k.callbacks.set top _
        rw [h.callbacks]
      · show Function.update (fun j => (w.frames j).filterMap Frame.running) i
          ((.callback ev top timeout :: w.frames i).filterMap Frame.running) =
            Function.update k.running i (top :: k.running i)
        have hcons : (Frame.callback ev top timeout :: w.frames i).filterMap Frame.running =
            top :: (w.frames i).filterMap Frame.running := List.filterMap_cons_some rfl
        rw [hcons, h.running, funext h.running]
    · simp only [World.setFrames, Function.update_self, List.mem_cons, reduceCtorEq,
        false_or] at hf
      exact hf

end Hand

/-! ### One step -/

/-- What is known of a world after a run with these labels. -/
structure WorldInv (killer : σ → Bool) (ls : List Label) (w : World σ) : Prop where
  inv : Inv ls w.core
  /-- A worker that has not looked at its event is in no other function. -/
  removed : ∀ i ev, .removed ev ∈ w.frames i →
    w.frames i = [.removed ev] ∧ ∃ e, w.events[ev]? = some e ∧ e.place = .removed i
  sys : ∃ ls', Runs killer ls' w.sys

/-- What a step of a thread does. -/
structure Acted (killer : σ → Bool) (w : World σ) (i : ℕ) (ls : List Label) (w' : World σ) :
    Prop where
  inv : ∀ ls₀, Inv ls₀ w.core → Inv (ls₀ ++ ls) w'.core
  others : ∀ j, j ≠ i → w'.frames j = w.frames j ∧
    ∀ (ev : ℕ) (e : StageEvent σ), w.events[ev]? = some e → e.place = .removed j →
      w'.events[ev]? = some e
  own : ∀ ev, .removed ev ∈ w'.frames i →
    w'.frames i = [.removed ev] ∧ ∃ e, w'.events[ev]? = some e ∧ e.place = .removed i
  sys : w'.sys = w.sys ∨ ∃ a, step killer w.sys a = .ok w'.sys

section Step

variable {killer : σ → Bool} {w w' : World σ} {i : ℕ} {ls ls' : List Label}

/-- The stages have made a run, or one step more. -/
theorem runs_step (h : ∃ ls, Runs killer ls w.sys)
    (hs : w'.sys = w.sys ∨ ∃ a, step killer w.sys a = .ok w'.sys) :
    ∃ ls, Runs killer ls w'.sys := by
  obtain ⟨ls, hrun⟩ := h
  rcases hs with hs | ⟨a, ha⟩
  · rw [hs]
    exact ⟨ls, hrun⟩
  · exact ⟨_, hrun.next (m := Seda.machine killer) ha⟩

/-- **What was acted** keeps the invariant. -/
theorem WorldInv.acted (h : WorldInv killer ls w) (ha : Acted killer w i ls' w') :
    WorldInv killer (ls ++ ls') w' := by
  refine ⟨ha.inv ls h.inv, fun j ev hf => ?_, runs_step h.sys ha.sys⟩
  by_cases hj : j = i
  · subst hj
    exact ha.own ev hf
  · obtain ⟨hframes, hkept⟩ := ha.others j hj
    rw [hframes] at hf ⊢
    obtain ⟨hone, e, he, hp⟩ := h.removed j ev hf
    exact ⟨hone, e, hkept ev e he hp, hp⟩

/-- A step that is one change, by a thread that is not about to look at an event. -/
theorem acted_of_change (hc : Change i w.core ls w'.core) (hf : Frames killer w i w')
    (hnone : ∀ ev, .removed ev ∉ w.frames i) : Acted killer w i ls w' :=
  ⟨fun _ h => h.change hc, fun j hj => ⟨hf.others j hj, fun _ _ he hp => hc.others he hp hj⟩,
    fun ev hmem => absurd (hf.own ev hmem) (hnone ev), hf.sys⟩

/-- Where a handler may act, no removal is pending. -/
theorem WorldInv.userTurn (h : WorldInv killer ls w) (hu : w.userTurn i = true) (ev : ℕ) :
    .removed ev ∉ w.frames i := by
  intro hmem
  rw [World.userTurn, (h.removed i ev hmem).1] at hu
  cases hu

theorem create_acted {r : Result σ} (hnone : ∀ ev, .removed ev ∉ w.frames i)
    (hr : create w i = .ok r) : Acted killer w i r.2 r.1 := by
  obtain ⟨_, -, hr⟩ := bind_eq_ok.mp hr
  obtain rfl := Except.ok.inj hr
  exact acted_of_change (.create w.core) ⟨fun _ _ => rfl, fun _ hf => hf, .inl rfl⟩ hnone

theorem pushCallback_acted {r : Result σ} {ev : ℕ} {target : σ}
    (hnone : ∀ ev, .removed ev ∉ w.frames i) (hr : pushCallback w i ev target = .ok r) :
    Acted killer w i r.2 r.1 := by
  obtain ⟨e, he, hr⟩ := bind_eq_ok.mp hr
  obtain ⟨c, hc, hr⟩ := bind_eq_ok.mp hr
  obtain ⟨_, -, hc⟩ := bind_eq_ok.mp hc
  obtain rfl := Except.ok.inj hc
  obtain rfl := Except.ok.inj hr
  obtain ⟨hget, hp⟩ := inHand_ok he
  exact acted_of_change (.push (k := w.core) target hget hp)
    ⟨fun _ _ => rfl, fun _ hf => hf, .inl rfl⟩ hnone

theorem forward_acted {r : Result σ} {ev : ℕ} {s : σ} (hnone : ∀ ev, .removed ev ∉ w.frames i)
    (hr : addEvent w i s ev false = .ok r) : Acted killer w i r.2 r.1 := by
  obtain ⟨e, he, -⟩ := bind_eq_ok.mp hr
  obtain ⟨hc, hf⟩ := (ready_of_inHand he).addEvent killer (fun _ => (inHand_ok he).2) rfl rfl hr
  exact acted_of_change hc hf hnone

theorem done_acted {r : Result σ} {ev : ℕ} (hnone : ∀ ev, .removed ev ∉ w.frames i)
    (hr : done w i ev = .ok r) : Acted killer w i r.2 r.1 := by
  obtain ⟨e, he, -⟩ := bind_eq_ok.mp hr
  obtain ⟨hc, hf⟩ := (ready_of_inHand he).done killer rfl rfl hr
  exact acted_of_change hc hf hnone

theorem complete_acted {r : Result σ} {ev : ℕ} {timeout : Bool}
    (hnone : ∀ ev, .removed ev ∉ w.frames i) (hr : complete timeout w i ev = .ok r) :
    Acted killer w i r.2 r.1 := by
  obtain ⟨e, he, -⟩ := bind_eq_ok.mp hr
  obtain ⟨hc, hf⟩ := (ready_of_inHand he).complete killer rfl rfl hr
  exact acted_of_change hc hf hnone

omit [DecidableEq σ] in
/-- A step of the stages that leaves the queues. -/
theorem core_sys {y : Sys σ ℕ}
    (h : ∀ s, (y.stage s).eventList = (w.sys.stage s).eventList) :
    ({ w with sys := y } : World σ).core = w.core :=
  Core.ext rfl rfl (funext h) rfl

/-- A removal takes the front of a queue. -/
theorem removal_of_removeEvent {y y' : Sys σ ℕ} {callback : Bool}
    (h : step killer y (.removeEvent i callback) = .ok y') :
    ∃ s ev, removal y i = [.removed s ev] := by
  cases moves_of_step h with
  | @removeEvent _ _ s _ _ event _ ht hl => exact ⟨s, event, by simp [removal, ht, hl]⟩

/-- `remove_event` takes the first event of a queue. -/
theorem removeEvent_acted {r : Result σ} (h : WorldInv killer ls w)
    (hr : removeEvent w i = .ok r) : Acted killer w i r.2 r.1 := by
  obtain ⟨_, hframes, hr⟩ := bind_eq_ok.mp hr
  have hframes := require_eq_ok.mp hframes
  split at hr
  · rename_i s ev hremoval
    obtain ⟨e, he, hr⟩ := bind_eq_ok.mp hr
    obtain ⟨w₁, hw₁, hr⟩ := bind_eq_ok.mp hr
    obtain ⟨y, hy, rfl⟩ := seda_eq_ok.mp hw₁
    obtain rfl := Except.ok.inj hr
    have hy : step killer w.sys (.removeEvent i e.cbFlag) = .ok y := hy
    have hget := event_ok he
    -- the front of one queue is gone, the others are as before
    have hlist : ∀ s', (w.sys.stage s').eventList =
        (if s = s' then [ev] else []) ++ (y.stage s').eventList := by
      intro s'
      have := removeEvent_eventList hy s'
      rw [hremoval] at this
      rw [this]
      by_cases hs : s = s' <;> simp [removed, hs]
    have hqueue : w.core.queue s = ev :: (y.stage s).eventList := by
      have := hlist s
      rwa [if_pos rfl] at this
    have hp : e.place = .queued s := by
      obtain ⟨x, hx, hp⟩ := (h.inv.queues.mem s ev).mp (by rw [hqueue]; exact List.mem_cons_self)
      rwa [Option.some.inj (hget.symm.trans hx)]
    -- on the core this is the removal of the event
    have hchange : Change i w.core [] (({ w with sys := y }.setEvent ev
        { e with place := .removed i }).setFrames i [.removed ev]).core := by
      convert Change.remove (k := w.core) hget hqueue hp using 1
      rw [core_setFrames]
      refine Core.ext rfl rfl (funext fun s' => ?_) ?_
      · show (y.stage s').eventList = Function.update w.core.queue s (y.stage s).eventList s'
        by_cases hs : s' = s
        · subst hs
          rw [Function.update_self]
        · rw [Function.update_of_ne hs]
          have := hlist s'
          rw [if_neg (Ne.symm hs)] at this
          exact this.symm
      · show Function.update w.core.running i [] = w.core.running
        have hnil : w.core.running i = [] := by
          show (w.frames i).filterMap Frame.running = []
          rw [hframes]
          rfl
        rw [← hnil, Function.update_eq_self]
    refine ⟨fun _ hinv => hinv.change hchange, fun j hj => ⟨Function.update_of_ne hj _ _,
      fun _ _ he hp => hchange.others he hp hj⟩, fun ev' hmem => ?_,
      .inr ⟨.removeEvent i e.cbFlag, hy⟩⟩
    have hfs : (({ w with sys := y } : World σ).setEvent ev { e with place := .removed i }
        |>.setFrames i [.removed ev]).frames i = [.removed ev] := setFrames_self ..
    rw [hfs] at hmem ⊢
    obtain rfl := Frame.removed.inj (List.mem_singleton.mp hmem)
    exact ⟨rfl, _, List.getElem?_set_self (lt_length hget), rfl⟩
  · -- there is no removal without an event
    rename_i hno
    obtain ⟨w₁, hw₁, -⟩ := bind_eq_ok.mp hr
    obtain ⟨y, hy, -⟩ := seda_eq_ok.mp hw₁
    have hy : step killer w.sys (.removeEvent i false) = .ok y := hy
    obtain ⟨s, ev, hremoval⟩ := removal_of_removeEvent hy
    exact absurd hremoval (hno s ev)

/-- A worker looks at its event, and then makes one change. -/
theorem acted_of_look {w₁ : World σ} {ev : ℕ} {e : StageEvent σ} (hget : w.events[ev]? = some e)
    (hp : e.place = .removed i) (hothers : ∀ j, j ≠ i → w₁.frames j = w.frames j)
    (hnone : ∀ ev, .removed ev ∉ w₁.frames i) (hsys : w₁.sys = w.sys)
    (hc : Change i w.core ls w'.core) (hf : Frames killer w₁ i w') :
    Acted killer w i (.took ev e.cbFlag :: ls) w' := by
  refine ⟨fun ls₀ hinv => ?_, fun j hj => ⟨(hf.others j hj).trans (hothers j hj),
    fun _ _ he hp => hc.others he hp hj⟩, fun ev' hmem => absurd (hf.own ev' hmem) (hnone ev'),
    by rw [← hsys]; exact hf.sys⟩
  have hlook := (hinv.change (.take hget hp)).change hc
  rwa [List.append_assoc] at hlook

/-- **The dispatch**: the event goes to its handler or to its callback. -/
theorem dispatch_acted {r : Result σ} {timedOut : Bool} (h : WorldInv killer ls w)
    (hr : dispatch w i timedOut = .ok r) : Acted killer w i r.2 r.1 := by
  unfold dispatch at hr
  split at hr
  · rename_i ev fs hframes
    obtain ⟨hone, e, hget, hp⟩ := h.removed i ev (by rw [hframes]; exact List.mem_cons_self)
    obtain rfl : fs = [] := (List.cons.inj (hframes.symm.trans hone)).2
    obtain ⟨e', he, hr⟩ := bind_eq_ok.mp hr
    obtain rfl : e' = e := Option.some.inj ((event_ok he).symm.trans hget)
    obtain ⟨r', hr', hr⟩ := bind_eq_ok.mp hr
    obtain rfl := Except.ok.inj hr
    have hrun : w.core.running i = [] := by
      show (w.frames i).filterMap Frame.running = []
      rw [hframes]
      rfl
    have hcore : ((w.setEvent ev { e' with place := .held i }).setFrames i [.dispatched]).core =
        { w.core with events := w.events.set ev { e' with place := .held i } } :=
      core_setFrames_same (w := w.setEvent ev { e' with place := .held i }) hrun.symm
    -- the event is in hand, and nothing else has changed
    have hready : Ready w.core ((w.setEvent ev { e' with place := .held i }).setFrames i
        [.dispatched]) i ev e' { e' with place := .held i } := ⟨hget, .inr hp, rfl, hcore⟩
    have hothers : ∀ j, j ≠ i → ((w.setEvent ev { e' with place := .held i }).setFrames i
        [.dispatched]).frames j = w.frames j := fun j hj => setFrames_of_ne _ hj _
    have hnone : ∀ ev', .removed ev' ∉ ((w.setEvent ev { e' with place := .held i }).setFrames i
        [.dispatched]).frames i := by
      intro ev'
      rw [setFrames_self]
      simp
    -- the four ways that the loop of the pool calls the event
    unfold callFor at hr'
    split at hr'
    · obtain ⟨hc, hf⟩ := hready.complete killer rfl rfl hr'
      exact acted_of_look hget hp hothers hnone rfl hc hf
    · obtain ⟨hc, hf⟩ := hready.complete killer rfl rfl hr'
      exact acted_of_look hget hp hothers hnone rfl hc hf
    · obtain ⟨hc, hf⟩ := hready.done killer rfl rfl hr'
      exact acted_of_look hget hp hothers hnone rfl hc hf
    · rename_i hflag _
      obtain rfl := Except.ok.inj hr'
      have hcore' : ((w.setEvent ev { e' with place := .held i }).setFrames i
          [.handler ev, .dispatched]).core =
          { w.core with events := w.events.set ev { e' with place := .held i } } :=
        core_setFrames_same (w := w.setEvent ev { e' with place := .held i }) hrun.symm
      refine acted_of_look hget hp hothers hnone rfl ?_ ⟨fun j hj => ?_, fun ev' hf => ?_, .inl rfl⟩
      · show Change i w.core [] ((w.setEvent ev _).setFrames i _).core
        rw [hcore']
        exact .handle hget hp hflag
      · exact (setFrames_of_ne _ hj _).trans (setFrames_of_ne _ hj _).symm
      · simp at hf
  · cases hr

/-- A handler returns. -/
theorem handler_returns {ev : ℕ} {fs : List Frame} (h : WorldInv killer ls w)
    (hframes : w.frames i = .handler ev :: fs) : Acted killer w i [] (w.setFrames i fs) := by
  have hcore : (w.setFrames i fs).core = w.core := by
    refine core_setFrames_same ?_
    show _ = (w.frames i).filterMap Frame.running
    rw [hframes]
    rfl
  refine acted_of_change (by rw [hcore]; exact .quiet _)
    ⟨fun j hj => setFrames_of_ne _ hj _, fun ev' hmem => ?_, .inl rfl⟩
    (h.userTurn (by rw [World.userTurn, hframes]))
  rw [setFrames_self] at hmem
  rw [hframes]
  exact List.mem_cons_of_mem _ hmem

/-- A callback returns, and is deleted. -/
theorem callback_returns {ev cb : ℕ} {timeout : Bool} {fs : List Frame}
    {c : CompletionCallback σ} (h : WorldInv killer ls w)
    (hframes : w.frames i = .callback ev cb timeout :: fs) (hc : w.callback cb = .ok c) :
    Acted killer w i []
      ({ w with callbacks := w.callbacks.set cb { c with place := .deleted } }.setFrames i fs) := by
  have hrun : w.core.running i = cb :: fs.filterMap Frame.running := by
    show (w.frames i).filterMap Frame.running = _
    rw [hframes]
    exact List.filterMap_cons_some rfl
  refine acted_of_change ?_ ⟨fun j hj => setFrames_of_ne _ hj _, fun ev' hmem => ?_, .inl rfl⟩
    (h.userTurn (by rw [World.userTurn, hframes]))
  · rw [core_setFrames]
    exact .delete (k := w.core) hrun (callback_ok hc)
  · rw [setFrames_self] at hmem
    rw [hframes]
    exact List.mem_cons_of_mem _ hmem

/-- **A return**, of a handler or of a callback. -/
theorem ret_acted {r : Result σ} (h : WorldInv killer ls w) (hr : ret w i = .ok r) :
    Acted killer w i r.2 r.1 := by
  obtain ⟨_, -, hr⟩ := bind_eq_ok.mp hr
  split at hr
  · rename_i ev fs hframes
    obtain ⟨_, -, hr⟩ := bind_eq_ok.mp hr
    obtain rfl := Except.ok.inj hr
    exact handler_returns h hframes
  · rename_i ev cb _ fs hframes
    obtain ⟨_, -, hr⟩ := bind_eq_ok.mp hr
    obtain ⟨c, hc, hr⟩ := bind_eq_ok.mp hr
    obtain ⟨_, -, hr⟩ := bind_eq_ok.mp hr
    obtain rfl := Except.ok.inj hr
    exact callback_returns h hframes hc
  · cases hr

/-- A worker goes back to its loop, or ends. -/
theorem acted_of_idle {y : Sys σ ℕ} {a : Seda.Action σ ℕ} {fs : List Frame}
    (hframes : w.frames i = fs) (hrun : fs.filterMap Frame.running = [])
    (hnone : ∀ ev, .removed ev ∉ fs) (hy : step killer w.sys a = .ok y)
    (hlist : ∀ s, (y.stage s).eventList = (w.sys.stage s).eventList) :
    Acted killer w i [] ({ w with sys := y }.setFrames i []) := by
  have hcore : ({ w with sys := y }.setFrames i []).core = w.core := by
    have hsame : [].filterMap Frame.running = ({ w with sys := y } : World σ).core.running i := by
      show [] = (w.frames i).filterMap Frame.running
      rw [hframes, hrun]
    exact (core_setFrames_same hsame).trans (core_sys hlist)
  refine acted_of_change (by rw [hcore]; exact .quiet _)
    ⟨fun j hj => setFrames_of_ne _ hj _, fun ev hmem => ?_, .inr ⟨a, hy⟩⟩
    (by rw [hframes]; exact hnone)
  simp at hmem

theorem release_acted {r : Result σ} (hr : release killer w i = .ok r) :
    Acted killer w i r.2 r.1 := by
  obtain ⟨_, hframes, hr⟩ := bind_eq_ok.mp hr
  obtain ⟨w₁, hw₁, hr⟩ := bind_eq_ok.mp hr
  obtain ⟨y, hy, rfl⟩ := seda_eq_ok.mp hw₁
  obtain rfl := Except.ok.inj hr
  have hy : step killer w.sys (.handled i) = .ok y := hy
  exact acted_of_idle (require_eq_ok.mp hframes) rfl (by simp) hy
    (eventList_kept hy (by simp) (by simp))

theorem exitThread_acted {r : Result σ} (hr : exitThread w i = .ok r) :
    Acted killer w i r.2 r.1 := by
  unfold exitThread at hr
  split at hr
  · rename_i ev hframes
    obtain ⟨_, -, hr⟩ := bind_eq_ok.mp hr
    obtain ⟨w₁, hw₁, hr⟩ := bind_eq_ok.mp hr
    obtain ⟨y, hy, rfl⟩ := seda_eq_ok.mp hw₁
    obtain rfl := Except.ok.inj hr
    have hy : step killer w.sys (.exit i) = .ok y := hy
    exact acted_of_idle hframes rfl (by simp) hy (eventList_kept hy (by simp) (by simp))
  · cases hr

/-- A step of the stages and threads that moves no event. -/
theorem WorldInv.seda {y : Sys σ ℕ} {a : Seda.Action σ ℕ} (h : WorldInv killer ls w)
    (hp : w.passes a = true) (hy : step killer w.sys a = .ok y) :
    WorldInv killer ls { w with sys := y } := by
  have hlist : ∀ s, (y.stage s).eventList = (w.sys.stage s).eventList := by
    refine eventList_kept hy ?_ ?_
    · rintro j s ev rfl
      cases hp
    · rintro j callback rfl
      cases hp
  exact ⟨by rw [core_sys hlist]; exact h.inv, h.removed, runs_step h.sys (.inr ⟨a, hy⟩)⟩

/-- **What every step keeps.** -/
theorem WorldInv.effect {a : Action σ} {r : Result σ} (h : WorldInv killer ls w)
    (hr : effect killer w a = .ok r) : WorldInv killer (ls ++ r.2) r.1 := by
  cases a with
  | create i =>
      obtain ⟨_, hu, hr⟩ := bind_eq_ok.mp hr
      exact h.acted (create_acted (h.userTurn (require_eq_ok.mp hu)) hr)
  | pushCallback i ev target =>
      obtain ⟨_, hu, hr⟩ := bind_eq_ok.mp hr
      exact h.acted (pushCallback_acted (h.userTurn (require_eq_ok.mp hu)) hr)
  | forward i s ev =>
      obtain ⟨_, hu, hr⟩ := bind_eq_ok.mp hr
      exact h.acted (forward_acted (h.userTurn (require_eq_ok.mp hu)) hr)
  | done i ev =>
      obtain ⟨_, hu, hr⟩ := bind_eq_ok.mp hr
      exact h.acted (done_acted (h.userTurn (require_eq_ok.mp hu)) hr)
  | doneImmediate i ev =>
      obtain ⟨_, hu, hr⟩ := bind_eq_ok.mp hr
      exact h.acted (complete_acted (h.userTurn (require_eq_ok.mp hu)) hr)
  | doneTimeout i ev =>
      obtain ⟨_, hu, hr⟩ := bind_eq_ok.mp hr
      exact h.acted (complete_acted (h.userTurn (require_eq_ok.mp hu)) hr)
  | removeEvent i => exact h.acted (removeEvent_acted h hr)
  | dispatch i timedOut => exact h.acted (dispatch_acted h hr)
  | ret i => exact h.acted (ret_acted h hr)
  | release i => exact h.acted (release_acted hr)
  | exit i => exact h.acted (exitThread_acted hr)
  | seda a =>
      obtain ⟨_, hp, hr⟩ := bind_eq_ok.mp hr
      obtain ⟨w₁, hw₁, hr⟩ := bind_eq_ok.mp hr
      obtain ⟨y, hy, rfl⟩ := seda_eq_ok.mp hw₁
      obtain rfl := Except.ok.inj hr
      rw [List.append_nil]
      exact h.seda (require_eq_ok.mp hp) hy

end Step

/-! ### Steps that are refused -/

/-- It is not the thread's turn, or a stage is used wrongly; no pointer is bad and no assertion
about an event or a callback fails. -/
def Refused (e : Stop) : Prop := e = .disabled ∨ e = .seda .disabled ∨ e = .seda .misuse

/-- A failure is no use of a deleted object. -/
def Safe {α : Type} (x : Except Stop α) : Prop := ∀ e, x = .error e → Refused e

section Safe

variable {α β : Type} {killer : σ → Bool} {w : World σ} {i ev : ℕ} {ls : List Label}

theorem safe_ok (a : α) : Safe (.ok a : Except Stop α) := by
  intro e h
  cases h

theorem safe_disabled : Safe (.error .disabled : Except Stop α) := by
  intro e h
  exact .inl (Except.error.inj h).symm

theorem Safe.bind {x : Except Stop α} {f : α → Except Stop β} (hx : Safe x)
    (hf : ∀ a, x = .ok a → Safe (f a)) : Safe (x >>= f) := by
  intro e he
  rcases bind_eq_error.mp he with he | ⟨a, ha, he⟩
  · exact hx e he
  · exact hf a ha e he

theorem safe_require (p : Prop) [Decidable p] : Safe (require p Stop.disabled) := by
  intro e he
  exact .inl (require_eq_error.mp he).2.symm

omit [DecidableEq σ] in
theorem safe_ready : Safe (w.ready i) := by
  unfold World.ready
  split
  · exact safe_disabled
  · exact safe_require _

theorem safe_inHand : Safe (w.inHand i ev) := by
  refine safe_ready.bind fun _ _ => ?_
  split
  · exact safe_disabled
  · exact (safe_require _).bind fun _ _ => safe_ok _

/-- The stages make no such use, in any run. -/
theorem safe_seda (h : ∃ ls, Runs killer ls w.sys) (a : Seda.Action σ ℕ) :
    Safe (w.seda (step killer w.sys a)) := by
  intro e he
  unfold World.seda at he
  split at he
  · rename_i e' he'
    obtain rfl := Except.error.inj he
    obtain ⟨ls, hrun⟩ := h
    by_cases hd : e' = .disabled
    · exact .inr (.inl (by rw [hd]))
    · by_cases hm : e' = .misuse
      · exact .inr (.inr (by rw [hm]))
      · exact absurd he' (step_ne_error (sound_of_runs hrun) a hd hm)
  · cases he

omit [DecidableEq σ] in
theorem safe_callback {cb : ℕ} {c : CompletionCallback σ} (hc : w.callbacks[cb]? = some c)
    (hp : c.place ≠ .deleted) : Safe (w.callback cb) := by
  unfold World.callback
  rw [hc]
  simp only [if_neg hp]
  exact safe_ok _

theorem safe_event {e : StageEvent σ} (he : w.events[ev]? = some e) (hp : e.place ≠ .destroyed) :
    Safe (w.event ev) := by
  unfold World.event
  rw [he]
  simp only [if_neg hp]
  exact safe_ok _

/-- The top callback of each event is there. -/
def Tops (w : World σ) : Prop :=
  ∀ (ev : ℕ) (e : StageEvent σ) top, w.events[ev]? = some e → e.compCb = some top →
    ∃ c : CompletionCallback σ, w.callbacks[top]? = some c ∧ c.place ≠ .deleted

theorem WorldInv.tops (h : WorldInv killer ls w) : Tops w := by
  intro ev e top he htop
  obtain ⟨c, -, hc, hp, -⟩ := (h.inv.events ev e he).top htop
  exact ⟨c, hc, by simp [hp]⟩

theorem safe_addEvent (h : ∃ ls, Runs killer ls w.sys) (s : σ) (byDone : Bool) :
    Safe (addEvent w i s ev byDone) :=
  safe_inHand.bind fun _ _ => (safe_seda h (.addEvent i s ev)).bind fun _ _ => safe_ok _

theorem safe_done (h : ∃ ls, Runs killer ls w.sys) (ht : Tops w) : Safe (done w i ev) := by
  refine safe_inHand.bind fun e he => ?_
  split
  · exact safe_ok _
  · rename_i top htop
    obtain ⟨c, hc, hp⟩ := ht ev e top (inHand_ok he).1 htop
    refine (safe_callback hc hp).bind fun c _ => ?_
    exact @safe_addEvent _ _ killer (w.setEvent ev _) i ev h c.targetStage true

theorem safe_complete {timeout : Bool} (ht : Tops w) : Safe (complete timeout w i ev) := by
  refine safe_inHand.bind fun e he => ?_
  split
  · exact safe_ok _
  · rename_i top htop
    obtain ⟨c, hc, hp⟩ := ht ev e top (inHand_ok he).1 htop
    exact (safe_callback hc hp).bind fun _ _ => safe_ok _

omit [DecidableEq σ] in
theorem Tops.setPlace (ht : Tops w) {e : StageEvent σ} (he : w.events[ev]? = some e)
    (place : Place σ) (fs : List Frame) :
    Tops ((w.setEvent ev { e with place := place }).setFrames i fs) := by
  intro ev' e' top hget htop
  have hset : (w.events.set ev { e with place := place })[ev']? = some e' := hget
  rw [getElem?_set_of_some he] at hset
  by_cases hev : ev' = ev
  · rw [if_pos hev] at hset
    obtain rfl := Option.some.inj hset
    exact ht ev e top he htop
  · rw [if_neg hev] at hset
    exact ht ev' e' top hset htop

omit [DecidableEq σ] in
theorem mem_of_removal {y : Sys σ ℕ} {s : σ} (h : removal y i = [.removed s ev]) :
    ev ∈ (y.stage s).eventList := by
  unfold removal at h
  split at h
  · rename_i s' _ _
    cases hl : (y.stage s').eventList with
    | nil =>
        rw [hl] at h
        cases h
    | cons event es =>
        rw [hl] at h
        obtain ⟨rfl, rfl⟩ := Label.removed.inj (List.cons.inj h).1
        rw [hl]
        exact List.mem_cons_self
  · cases h

/-- **The removal** is safe. -/
theorem safe_removeEvent (h : WorldInv killer ls w) : Safe (removeEvent w i) := by
  refine (safe_require _).bind fun _ _ => ?_
  split
  · rename_i s ev hremoval
    obtain ⟨e, hget, hp⟩ := (h.inv.queues.mem s ev).mp (mem_of_removal hremoval)
    refine (safe_event hget (by simp [hp])).bind fun e' _ => ?_
    exact (safe_seda h.sys (.removeEvent i e'.cbFlag)).bind fun _ _ => safe_ok _
  · exact (safe_seda h.sys (.removeEvent i false)).bind fun _ _ => safe_ok _

/-- **The dispatch** is safe. -/
theorem safe_dispatch (h : WorldInv killer ls w) {timedOut : Bool} :
    Safe (dispatch w i timedOut) := by
  unfold dispatch
  split
  · rename_i ev fs hframes
    obtain ⟨-, e, hget, hp⟩ := h.removed i ev (by rw [hframes]; exact List.mem_cons_self)
    refine (safe_event hget (by simp [hp])).bind fun e' he' => ?_
    obtain rfl : e' = e := Option.some.inj ((event_ok he').symm.trans hget)
    refine Safe.bind ?_ fun _ _ => safe_ok _
    have ht := h.tops.setPlace (i := i) hget (.held i) (.dispatched :: fs)
    unfold callFor
    split
    · exact safe_complete ht
    · exact safe_complete ht
    · exact safe_done h.sys ht
    · exact safe_ok _
  · exact safe_disabled

/-- **The return** is safe. -/
theorem safe_ret (h : WorldInv killer ls w) : Safe (ret w i) := by
  refine safe_ready.bind fun _ _ => ?_
  split
  · exact (safe_require _).bind fun _ _ => safe_ok _
  · rename_i ev cb timeout fs hframes
    have hmem : cb ∈ w.core.running i := by
      show cb ∈ (w.frames i).filterMap Frame.running
      rw [hframes]
      exact List.mem_filterMap.mpr ⟨_, List.mem_cons_self, rfl⟩
    obtain ⟨c, hc, hp, hnext⟩ := h.inv.callbacks.called i cb hmem
    refine (safe_require _).bind fun _ _ => (safe_callback hc (by simp [hp])).bind fun c' hc' => ?_
    obtain rfl : c' = c := Option.some.inj ((callback_ok hc').symm.trans hc)
    refine Safe.bind (fun e he => absurd hnext (require_eq_error.mp he).1) fun _ _ => safe_ok _
  · exact safe_disabled

/-- **No step uses a bad pointer or fails an assertion.** -/
theorem safe_effect (h : WorldInv killer ls w) (a : Action σ) : Safe (effect killer w a) := by
  cases a with
  | create i =>
      exact (safe_require _).bind fun _ _ => safe_ready.bind fun _ _ => safe_ok _
  | pushCallback i ev target =>
      refine (safe_require _).bind fun _ _ => safe_inHand.bind fun e _ => ?_
      exact Safe.bind (safe_ok _) fun _ _ => safe_ok _
  | forward i s ev => exact (safe_require _).bind fun _ _ => safe_addEvent h.sys s false
  | done i ev => exact (safe_require _).bind fun _ _ => safe_done h.sys h.tops
  | doneImmediate i ev => exact (safe_require _).bind fun _ _ => safe_complete h.tops
  | doneTimeout i ev => exact (safe_require _).bind fun _ _ => safe_complete h.tops
  | removeEvent i => exact safe_removeEvent h
  | dispatch i timedOut => exact safe_dispatch h
  | ret i => exact safe_ret h
  | release i =>
      exact (safe_require _).bind fun _ _ => (safe_seda h.sys (.handled i)).bind fun _ _ => safe_ok _
  | exit i =>
      show Safe (exitThread w i)
      unfold exitThread
      split
      · exact (safe_require _).bind fun _ _ => (safe_seda h.sys (.exit i)).bind fun _ _ => safe_ok _
      · exact safe_disabled
  | seda a => exact (safe_require _).bind fun _ _ => (safe_seda h.sys a).bind fun _ _ => safe_ok _

end Safe

/-! ### Runs -/

theorem worldInv_new (killer : σ → Bool) : WorldInv killer [] (World.new : World σ) where
  inv :=
    { events := by simp [World.core, World.new]
      queues := ⟨by simp [World.core, World.new, Sys.new, StageState.new],
        by simp [World.core, World.new, Sys.new, StageState.new]⟩
      callbacks := ⟨by simp [World.core, World.new], by simp [World.core, World.new],
        by simp [invocations], by simp [invocations]⟩
      past := ⟨by simp, by simp, by simp⟩ }
  removed := by simp [World.new]
  sys := ⟨[], .start⟩

theorem machine_step {killer : σ → Bool} {w w' : World σ} {a : Action σ}
    (h : (machine killer).step w a = .ok w') :
    ∃ r, effect killer w a = .ok r ∧ r.1 = w' ∧ (machine killer).label w a = r.2 := by
  simp only [machine] at h ⊢
  cases he : effect killer w a with
  | error e =>
      rw [he] at h
      cases h
  | ok r =>
      rw [he] at h
      exact ⟨r, rfl, Except.ok.inj h, rfl⟩

/-- **The invariant** holds in every run. -/
theorem worldInv_of_run {killer : σ → Bool} {ls : List Label} {w : World σ}
    (h : Run (machine killer) .new ls w) : WorldInv killer ls w := by
  refine h.invariant (worldInv_new killer) fun ls w a w' hw hs => ?_
  obtain ⟨r, he, rfl, hlabel⟩ := machine_step hs
  rw [hlabel]
  exact hw.effect he

/-- The queues are empty, and no thread has an event. -/
def Drained (w : World σ) : Prop :=
  (∀ s, (w.sys.stage s).eventList = []) ∧
    ∀ e ∈ w.events, ∀ i, e.place ≠ .held i ∧ e.place ≠ .removed i

/-- An event of a drained world is destroyed, and its stack is empty. -/
theorem WorldInv.drained {killer : σ → Bool} {ls : List Label} {w : World σ}
    (h : WorldInv killer ls w) (hd : Drained w) {ev : ℕ} (hc : .created ev ∈ ls) :
    Ended ev ls ∧ ∀ cb, .pushed ev cb ∈ ls → .invoked ev cb ∈ ls := by
  have hlt : ev < w.events.length := h.inv.past.known _ hc
  have hget : w.events[ev]? = some w.events[ev] := List.getElem?_eq_getElem hlt
  generalize w.events[ev] = e at hget
  have hev := h.inv.events ev e hget
  have hplace : e.place = .destroyed := by
    cases hp : e.place with
    | queued s =>
        have hmem : ev ∈ w.core.queue s := (h.inv.queues.mem s ev).mpr ⟨e, hget, hp⟩
        have hnil : w.core.queue s = [] := hd.1 s
        rw [hnil] at hmem
        cases hmem
    | removed i => exact absurd hp (hd.2 e (List.mem_of_getElem? hget) i).2
    | held i => exact absurd hp (hd.2 e (List.mem_of_getElem? hget) i).1
    | destroyed => rfl
  obtain ⟨l, -, hstack, hnil⟩ := hev.stack
  obtain rfl := hnil hplace
  exact ⟨hev.ended hplace, hstack⟩

/-- **Main result.**  In every run no callback is invoked twice, the one that is invoked is the
latest, and a worker takes the callback path of an event just when `done` has queued it.  Once the
queues are drained every callback was invoked and every event was destroyed, once and after all
else.  No step uses a deleted object or fails an assertion. -/
theorem callbacks_once {killer : σ → Bool} {ls : List Label} {w : World σ}
    (h : Run (machine killer) .new ls w) :
    (invocations ls).Nodup ∧
    (∀ ev cb a b, ls = a ++ .invoked ev cb :: b → Latest ev cb a) ∧
    (∀ ev callback a b, ls = a ++ .took ev callback :: b → QueuedBy ev callback a) ∧
    (Drained w → ∀ ev, .created ev ∈ ls →
      Ended ev ls ∧ ∀ cb, .pushed ev cb ∈ ls → .invoked ev cb ∈ ls) ∧
    ∀ a e, (machine killer).step w a = .error e → Refused e := by
  have hw := worldInv_of_run h
  refine ⟨hw.inv.callbacks.once, hw.inv.past.latest, hw.inv.past.path,
    fun hd ev hc => hw.drained hd hc, fun a e he => safe_effect hw a e (map_eq_error.mp he)⟩

/-- An event with two callbacks: its handler calls `done`, and the first callback
`done_immediate`. -/
def twoCallbacks : List (Action Bool) :=
  [.seda .newPool, .seda (.newThread (some 0)), .seda (.newThread none),
    .seda (.setPool 1 false 0), .seda (.connect 1 false), .seda (.initialized 1 true),
    .seda (.finish 1), .create 1, .pushCallback 1 0 false, .pushCallback 1 0 false,
    .forward 1 false 0, .seda (.schedule 1), .seda (.push 1), .seda (.finish 1), .seda (.pop 0),
    .removeEvent 0, .dispatch 0 false, .done 0 0, .seda (.schedule 0), .seda (.push 0),
    .seda (.finish 0), .ret 0, .release 0, .seda (.pop 0), .removeEvent 0, .dispatch 0 false,
    .doneImmediate 0 0, .done 0 0, .ret 0, .ret 0, .release 0]

theorem callbacks_once_two : ∃ ls w, exec (machine fun _ => false) .new twoCallbacks = .ok (ls, w) ∧
    Drained w ∧ Ended 0 ls ∧ invocations ls = [1, 0] ∧ (invocations ls).Nodup ∧
    (∀ ev cb a b, ls = a ++ .invoked ev cb :: b → Latest ev cb a) ∧
    (∀ ev callback a b, ls = a ++ .took ev callback :: b → QueuedBy ev callback a) ∧
    ∀ a e, (machine fun _ => false).step w a = .error e → Refused e := by
  have hseen : (exec (machine fun _ => false) .new twoCallbacks).map (fun r => (r.1,
      (r.2.sys.stage false).eventList, (r.2.sys.stage true).eventList,
      r.2.events.map StageEvent.place)) =
      .ok ([.created 0, .pushed 0 0, .pushed 0 1, .added 0 false, .took 0 false, .added 0 true,
        .took 0 true, .invoked 0 1, .invoked 0 0, .destroyed 0], [], [], [.destroyed]) := rfl
  cases he : exec (machine fun _ => false) .new twoCallbacks with
  | error e =>
      rw [he] at hseen
      cases hseen
  | ok r =>
      obtain ⟨ls, w⟩ := r
      rw [he] at hseen
      simp only [Except.map, Except.ok.injEq, Prod.mk.injEq] at hseen
      obtain ⟨rfl, hfalse, htrue, hplaces⟩ := hseen
      have hdrained : Drained w := by
        refine ⟨fun s => ?_, fun e hmem i => ?_⟩
        · cases s with
          | false => exact hfalse
          | true => exact htrue
        · have hplace := List.mem_map_of_mem (f := StageEvent.place) hmem
          rw [hplaces, List.mem_singleton] at hplace
          simp [hplace]
      have hrun : Run (machine fun _ => false) .new ([] ++ _) w := Run.exec twoCallbacks .start he
      obtain ⟨honce, hlatest, hpath, hend, hsafe⟩ := callbacks_once hrun
      exact ⟨_, w, rfl, hdrained, (hend hdrained 0 (by simp)).1, rfl, honce, hlatest, hpath, hsafe⟩

end VulcanDB.Seda.Callbacks
