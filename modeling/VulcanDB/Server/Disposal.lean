import VulcanDB.Server.SessionStage

/-!
# Server — What becomes of a session event

How far each event has come, with the thread that has it in hand.  A step lets one event go on, and
no other thread can have a part in that.

* `Follows.move`: one event goes on in its life, in the hands of one thread.
* `effect_known`: what every step keeps of the objects and of the lives of the events.
* `disposed_iff`: the events that are disposed of are those whose callback was not allocated.
-/

namespace VulcanDB.Server.SessionStage

open Steps
open Seda Seda.Callbacks

/-! ### The lives of the events -/

/-- How far an event has come, and the thread that has it in hand. -/
inductive Life where
  | unborn
  /-- Without a callback, before it is queued or in `handle_request`. -/
  | clean (i : ℕ)
  | queued
  | removed (i : ℕ)
  /-- With its callback. -/
  | pushed (i : ℕ)
  | refused (i : ℕ)
  /-- Since `done_immediate` has called the callback. -/
  | called (i : ℕ)
  /-- Since `done_immediate` has destroyed it. -/
  | freed (i : ℕ)
  | lost
  | gone

/-- The thread that the event is with. -/
def Life.owner : Life → Option ℕ
  | .unborn | .queued | .lost | .gone => none
  | .clean i | .removed i | .pushed i | .refused i | .called i | .freed i => some i

/-- Its callback was not allocated. -/
def Life.IsRefused : Life → Prop
  | .refused _ | .freed _ | .gone => True
  | _ => False

/-- The stage has finished with it. -/
def Life.IsFinished : Life → Prop
  | .lost | .gone => True
  | _ => False

section Life

variable {σ : Type}

/-- The object of an event that has come so far. -/
def Life.Shape : Life → StageEvent σ → Prop
  | .unborn, _ => False
  | .clean i, e | .refused i, e => e.place = .held i ∧ e.compCb = none ∧ e.cbFlag = false
  | .queued, e => (∃ s, e.place = .queued s) ∧ e.compCb = none ∧ e.cbFlag = false
  | .removed i, e => e.place = .removed i ∧ e.compCb = none ∧ e.cbFlag = false
  | .pushed i, e => e.place = .held i ∧ ∃ cb, e.compCb = some cb
  | .called i, e => e.place = .held i
  | .lost, e => ∃ i, e.place = .held i
  | .freed _, e | .gone, e => e.place = .destroyed

/-- What a thread is in, by its place in the code. -/
def PhaseOk (life : ℕ → Life) (i : ℕ) : Phase σ → List Frame → Prop
  | .idle, fs => fs = [] ∨ fs = [.dispatched]
  | .received ev, fs => fs = [] ∧ life ev = .clean i
  | .removed _, fs => ∃ ev, fs = [.removed ev] ∧ life ev = .removed i
  | .handling _ ev, fs => fs = [.handler ev, .dispatched] ∧ life ev = .clean i
  | .responded ev, fs =>
    fs = [.handler ev, .dispatched] ∧ (life ev = .pushed i ∨ life ev = .refused i)
  | .sending ev _, fs =>
    ∃ cb timeout, fs = [.callback ev cb timeout, .handler ev, .dispatched] ∧ life ev = .called i
  | .leaving ev, fs =>
    fs = [.handler ev, .dispatched] ∧ (life ev = .called i ∨ life ev = .freed i)

/-- Another event goes on in its life, or one that another thread has in hand. -/
theorem PhaseOk.update {life : ℕ → Life} {i : ℕ} {p : Phase σ} {fs : List Frame}
    (h : PhaseOk life i p fs) {ev : ℕ} (hev : (life ev).owner ≠ some i) (x : Life) :
    PhaseOk (Function.update life ev x) i p fs := by
  -- what this thread has in hand is another event
  have hkept : ∀ ev', (life ev').owner = some i → Function.update life ev x ev' = life ev' := by
    intro ev' ho
    refine Function.update_of_ne ?_ x life
    rintro rfl
    exact hev ho
  cases p with
  | idle => exact h
  | received ev' | handling s ev' => exact ⟨h.1, by rw [hkept ev' (by rw [h.2]; rfl), h.2]⟩
  | removed s =>
      obtain ⟨ev', hfs, hlife⟩ := h
      exact ⟨ev', hfs, by rw [hkept ev' (by rw [hlife]; rfl), hlife]⟩
  | sending ev' ms =>
      obtain ⟨cb, timeout, hfs, hlife⟩ := h
      exact ⟨cb, timeout, hfs, by rw [hkept ev' (by rw [hlife]; rfl), hlife]⟩
  | responded ev' | leaving ev' =>
      obtain ⟨hfs, hlife⟩ := h
      refine ⟨hfs, ?_⟩
      rw [hkept ev' (by rcases hlife with hlife | hlife <;> rw [hlife] <;> rfl)]
      exact hlife

/-- The lives of the events are what the threads, the objects and the past say. -/
structure Follows (life : ℕ → Life) (ls : List Label) (y : Sys σ) : Prop where
  phases : ∀ i, PhaseOk life i (y.phase i) (y.world.frames i)
  shapes : ∀ (ev : ℕ) (e : StageEvent σ), y.world.events[ev]? = some e → (life ev).Shape e
  unborn : ∀ ev, y.world.events[ev]? = none → life ev = .unborn
  refused : ∀ ev, .refused ev ∈ ls ↔ (life ev).IsRefused
  finished : ∀ ev, .finished ev ∈ ls ↔ (life ev).IsFinished

/-- The labels say of no event that it was refused or finished. -/
def Plain (ls : List Label) : Prop := ∀ ev, .refused ev ∉ ls ∧ .finished ev ∉ ls

/-- What is done to events says nothing of their handlers. -/
theorem plain_objects (ls : List Callbacks.Label) : Plain (ls.map .object) := by
  intro ev
  simp

/-- What a step leaves of the other threads. -/
structure Others (y : Sys σ) (i : ℕ) (y' : Sys σ) : Prop where
  phases : ∀ j, j ≠ i → y'.phase j = y.phase j
  frames : ∀ j, j ≠ i → y'.world.frames j = y.world.frames j

section Follows

variable {life : ℕ → Life} {ls ls' : List Label} {y y' : Sys σ} {i ev : ℕ} {x : Life}
  {e : StageEvent σ}

/-- **An event goes on in its life,** in the hands of one thread. -/
theorem Follows.move (h : Follows life ls y) (howner : ∀ j, j ≠ i → (life ev).owner ≠ some j)
    (ho : Others y i y')
    (hphase : PhaseOk (Function.update life ev x) i (y'.phase i) (y'.world.frames i))
    (hevents : ∀ ev' : ℕ, y'.world.events[ev']? = if ev' = ev then some e else y.world.events[ev']?)
    (hshape : x.Shape e)
    (hrefused : ∀ ev', .refused ev' ∈ ls ++ ls' ↔ (Function.update life ev x ev').IsRefused)
    (hfinished : ∀ ev', .finished ev' ∈ ls ++ ls' ↔ (Function.update life ev x ev').IsFinished) :
    Follows (Function.update life ev x) (ls ++ ls') y' := by
  refine ⟨fun j => ?_, fun ev' e' he' => ?_, fun ev' he' => ?_, hrefused, hfinished⟩
  · by_cases hj : j = i
    · rw [hj]
      exact hphase
    · rw [ho.phases j hj, ho.frames j hj]
      exact (h.phases j).update (howner j hj) x
  · rw [hevents] at he'
    by_cases hev : ev' = ev
    · rw [if_pos hev] at he'
      rw [hev, Function.update_self, ← Option.some.inj he']
      exact hshape
    · rw [if_neg hev] at he'
      rw [Function.update_of_ne hev]
      exact h.shapes ev' e' he'
  · rw [hevents] at he'
    by_cases hev : ev' = ev
    · rw [if_pos hev] at he'
      cases he'
    · rw [if_neg hev] at he'
      rw [Function.update_of_ne hev]
      exact h.unborn ev' he'

/-- The same, with labels that say of no event that it was refused or finished. -/
theorem Follows.goOn (h : Follows life ls y) (howner : ∀ j, j ≠ i → (life ev).owner ≠ some j)
    (ho : Others y i y')
    (hphase : PhaseOk (Function.update life ev x) i (y'.phase i) (y'.world.frames i))
    (hevents : ∀ ev' : ℕ, y'.world.events[ev']? = if ev' = ev then some e else y.world.events[ev']?)
    (hshape : x.Shape e) (hplain : Plain ls') (hr : (life ev).IsRefused ↔ x.IsRefused)
    (hf : (life ev).IsFinished ↔ x.IsFinished) :
    Follows (Function.update life ev x) (ls ++ ls') y' := by
  refine h.move howner ho hphase hevents hshape (fun ev' => ?_) fun ev' => ?_
  · rw [List.mem_append, or_iff_left (hplain ev').1, h.refused]
    by_cases hev : ev' = ev
    · rw [hev, Function.update_self, hr]
    · rw [Function.update_of_ne hev]
  · rw [List.mem_append, or_iff_left (hplain ev').2, h.finished]
    by_cases hev : ev' = ev
    · rw [hev, Function.update_self, hf]
    · rw [Function.update_of_ne hev]

/-- No event goes on. -/
theorem Follows.stay (h : Follows life ls y) (ho : Others y i y')
    (hphase : PhaseOk life i (y'.phase i) (y'.world.frames i))
    (hevents : y'.world.events = y.world.events) (hplain : Plain ls') :
    Follows life (ls ++ ls') y' := by
  refine ⟨fun j => ?_, by rw [hevents]; exact h.shapes, by rw [hevents]; exact h.unborn,
    fun ev => ?_, fun ev => ?_⟩
  · by_cases hj : j = i
    · rw [hj]
      exact hphase
    · rw [ho.phases j hj, ho.frames j hj]
      exact h.phases j
  · rw [List.mem_append, or_iff_left (hplain ev).1, h.refused]
  · rw [List.mem_append, or_iff_left (hplain ev).2, h.finished]

end Follows

end Life

/-! ### One step -/

/-- What is done to the events by their own functions. -/
def objects (ls : List Label) : List Callbacks.Label :=
  ls.filterMap fun
    | .object l => some l
    | _ => none

theorem objects_append (ls ls' : List Label) : objects (ls ++ ls') = objects ls ++ objects ls' :=
  List.filterMap_append

@[simp] theorem objects_map (ls : List Callbacks.Label) : objects (ls.map .object) = ls := by
  induction ls with
  | nil => rfl
  | cons l ls ih => exact congrArg (l :: ·) ih

section Step

variable {σ : Type} [DecidableEq σ]

/-- What is known after a run with these labels. -/
structure Known (ls : List Label) (y : Sys σ) : Prop where
  world : WorldInv (fun _ => false) (objects ls) y.world
  life : ∃ life, Follows life ls y

variable {ls : List Label} {y : Sys σ} {i : ℕ}

/-- A call of a function of the objects, and where the event is then. -/
theorem Known.after (h : Known ls y) {r : Callbacks.Result σ} {p : Phase σ}
    (ha : Acted (fun _ => false) y.world i r.2 r.1)
    (hl : Others y i (y.after r i p).1 →
      ∃ life, Follows life (ls ++ (y.after r i p).2) (y.after r i p).1) :
    Known (ls ++ (y.after r i p).2) (y.after r i p).1 := by
  refine ⟨?_, hl ⟨fun j hj => Function.update_of_ne hj _ _, fun j hj => (ha.others j hj).1⟩⟩
  rw [objects_append]
  show WorldInv _ (objects ls ++ objects (r.2.map .object)) r.1
  rw [objects_map]
  exact h.world.acted ha

variable {life : ℕ → Life} {r : Callbacks.Result σ} {p : Phase σ}

/-- The same, when an event goes on in its life. -/
theorem Known.goOn (h : Known ls y) (hl : Follows life ls y) {ev : ℕ} {x : Life} {e : StageEvent σ}
    (ha : Acted (fun _ => false) y.world i r.2 r.1)
    (howner : ∀ j, j ≠ i → (life ev).owner ≠ some j)
    (hphase : PhaseOk (Function.update life ev x) i p (r.1.frames i))
    (hevents : ∀ ev' : ℕ, r.1.events[ev']? = if ev' = ev then some e else y.world.events[ev']?)
    (hshape : x.Shape e) (hr : (life ev).IsRefused ↔ x.IsRefused)
    (hf : (life ev).IsFinished ↔ x.IsFinished) :
    Known (ls ++ (y.after r i p).2) (y.after r i p).1 := by
  refine h.after ha fun ho =>
    ⟨_, hl.goOn howner ho ?_ hevents hshape (plain_objects _) hr hf⟩
  show PhaseOk _ i (Function.update y.phase i p i) (r.1.frames i)
  rw [Function.update_self]
  exact hphase

/-- The same, when no event does. -/
theorem Known.stay (h : Known ls y) (hl : Follows life ls y)
    (ha : Acted (fun _ => false) y.world i r.2 r.1) (hphase : PhaseOk life i p (r.1.frames i))
    (hevents : r.1.events = y.world.events) :
    Known (ls ++ (y.after r i p).2) (y.after r i p).1 := by
  refine h.after ha fun ho => ⟨life, hl.stay ho ?_ hevents (plain_objects _)⟩
  show PhaseOk _ i (Function.update y.phase i p i) (r.1.frames i)
  rw [Function.update_self]
  exact hphase

theorem owner_of {life : ℕ → Life} {ev : ℕ} (h : (life ev).owner = some i) :
    ∀ j, j ≠ i → (life ev).owner ≠ some j := by
  intro j hj heq
  exact hj (Option.some.inj (heq.symm.trans h))

theorem receive_known (h : Known ls y) {r : Result σ} (hr : receive y i = .ok r) :
    Known (ls ++ r.2) r.1 := by
  unfold receive at hr
  split at hr
  · rename_i hphase hframes
    obtain ⟨r', hc, hr⟩ := bind_eq_ok.mp hr
    obtain rfl := Except.ok.inj hr
    obtain ⟨life, hl⟩ := h.life
    have hacted : Acted (fun _ => false) y.world i r'.2 r'.1 :=
      create_acted (by simp [hframes]) hc
    obtain ⟨_, -, hc⟩ := bind_eq_ok.mp hc
    obtain rfl := Except.ok.inj hc
    have hunborn : life y.world.events.length = .unborn :=
      hl.unborn _ (List.getElem?_eq_none le_rfl)
    exact h.goOn hl (x := .clean i) hacted (by simp [hunborn, Life.owner])
      ⟨hframes, Function.update_self ..⟩ (getElem?_concat _ _) ⟨rfl, rfl, rfl⟩
      (by simp [hunborn, Life.IsRefused]) (by simp [hunborn, Life.IsFinished])
  · cases hr

theorem addEvent_known (h : Known ls y) {s : σ} {r : Result σ} (hr : addEvent y i s = .ok r) :
    Known (ls ++ r.2) r.1 := by
  unfold addEvent at hr
  split at hr
  · rename_i ev hphase
    obtain ⟨r', hc, hr⟩ := bind_eq_ok.mp hr
    obtain rfl := Except.ok.inj hr
    obtain ⟨life, hl⟩ := h.life
    have hp := hl.phases i
    rw [hphase] at hp
    obtain ⟨hframes, hlife⟩ := hp
    have hacted : Acted (fun _ => false) y.world i r'.2 r'.1 :=
      forward_acted (by simp [hframes]) hc
    obtain ⟨e, he, hc⟩ := bind_eq_ok.mp hc
    obtain ⟨w, hw, hc⟩ := bind_eq_ok.mp hc
    obtain ⟨sys, -, rfl⟩ := seda_eq_ok.mp hw
    obtain rfl := Except.ok.inj hc
    have hget := (inHand_ok he).1
    have hshape := hl.shapes ev e hget
    rw [hlife] at hshape
    exact h.goOn hl (x := .queued) hacted (owner_of (by rw [hlife]; rfl)) (.inl hframes)
      (getElem?_set_of_some hget _) ⟨⟨s, rfl⟩, hshape.2⟩ (by simp [hlife, Life.IsRefused])
      (by simp [hlife, Life.IsFinished])
  · cases hr

omit [DecidableEq σ] in
theorem Life.Shape.eq_queued {x : Life} {e : StageEvent σ} (h : x.Shape e) {s : σ}
    (hp : e.place = .queued s) : x = .queued := by
  cases x <;> simp_all [Life.Shape]

theorem removeEvent_known (h : Known ls y) {r : Result σ} (hr : removeEvent y i = .ok r) :
    Known (ls ++ r.2) r.1 := by
  unfold removeEvent at hr
  split at hr
  · rename_i s ev hphase hremoval
    obtain ⟨r', hc, hr⟩ := bind_eq_ok.mp hr
    obtain rfl := Except.ok.inj hr
    obtain ⟨life, hl⟩ := h.life
    have hacted := removeEvent_acted h.world hc
    obtain ⟨_, -, hc⟩ := bind_eq_ok.mp hc
    simp only [hremoval] at hc
    obtain ⟨e, he, hc⟩ := bind_eq_ok.mp hc
    obtain ⟨w, hw, hc⟩ := bind_eq_ok.mp hc
    obtain ⟨sys, -, rfl⟩ := seda_eq_ok.mp hw
    obtain rfl := Except.ok.inj hc
    have hget := event_ok he
    have hqueued : e.place = .queued s := by
      obtain ⟨e', he', hp⟩ := (h.world.inv.queues.mem s ev).mp (mem_of_removal hremoval)
      rwa [Option.some.inj (hget.symm.trans he')]
    have hshape := hl.shapes ev e hget
    have hlife : life ev = .queued := hshape.eq_queued hqueued
    rw [hlife] at hshape
    exact h.goOn hl (x := .removed i) hacted (by simp [hlife, Life.owner])
      ⟨ev, Function.update_self .., Function.update_self ..⟩ (getElem?_set_of_some hget _)
      ⟨rfl, hshape.2⟩ (by simp [hlife, Life.IsRefused]) (by simp [hlife, Life.IsFinished])
  · cases hr

theorem dispatch_known (h : Known ls y) {r : Result σ} (hr : dispatch y i = .ok r) :
    Known (ls ++ r.2) r.1 := by
  unfold dispatch at hr
  split at hr
  · rename_i s hphase
    obtain ⟨r', hc, hr⟩ := bind_eq_ok.mp hr
    obtain ⟨life, hl⟩ := h.life
    have hp := hl.phases i
    rw [hphase] at hp
    obtain ⟨ev, hframes, hlife⟩ := hp
    have hacted := dispatch_acted h.world hc
    simp only [Callbacks.dispatch, hframes] at hc
    obtain ⟨e, he, hc⟩ := bind_eq_ok.mp hc
    obtain ⟨r'', hcall, hc⟩ := bind_eq_ok.mp hc
    have hget := event_ok he
    have hshape := hl.shapes ev e hget
    rw [hlife] at hshape
    obtain ⟨-, hcb, hflag⟩ := hshape
    rw [hflag] at hcall
    obtain rfl := Except.ok.inj hcall
    obtain rfl := Except.ok.inj hc
    simp only [setFrames_self] at hr
    obtain rfl := Except.ok.inj hr
    exact h.goOn hl (x := .clean i) hacted (owner_of (by rw [hlife]; rfl))
      ⟨Function.update_self .., Function.update_self ..⟩ (getElem?_set_of_some hget _)
      ⟨rfl, hcb, rfl⟩ (by simp [hlife, Life.IsRefused]) (by simp [hlife, Life.IsFinished])
  · cases hr

omit [DecidableEq σ] in
/-- The event of a life that has begun. -/
theorem Follows.exists_event {life : ℕ → Life} (h : Follows life ls y) (ev : ℕ)
    (hev : life ev ≠ .unborn) : ∃ e, y.world.events[ev]? = some e ∧ (life ev).Shape e := by
  cases he : y.world.events[ev]? with
  | none => exact absurd (h.unborn ev he) hev
  | some e => exact ⟨e, rfl, h.shapes ev e he⟩

omit [DecidableEq σ] in
/-- An event that stays as it is. -/
theorem events_same {ev : ℕ} {e : StageEvent σ} (h : y.world.events[ev]? = some e) :
    ∀ ev' : ℕ, y.world.events[ev']? = if ev' = ev then some e else y.world.events[ev']? := by
  intro ev'
  by_cases hev : ev' = ev
  · rw [if_pos hev, hev, h]
  · rw [if_neg hev]

/-- The handler pushes its callback, where one is allocated. -/
theorem respond_known (h : Known ls y) {response : List UInt8} {allocated : Bool} {r : Result σ}
    (hr : respond y i response allocated = .ok r) : Known (ls ++ r.2) r.1 := by
  unfold respond at hr
  split at hr
  · rename_i s ev hphase
    obtain ⟨life, hl⟩ := h.life
    have hp := hl.phases i
    rw [hphase] at hp
    obtain ⟨hframes, hlife⟩ := hp
    cases allocated with
    -- the callback is pushed, and the event goes on to its call
    | true =>
        obtain ⟨r', hc, hr⟩ := bind_eq_ok.mp hr
        obtain rfl := Except.ok.inj hr
        have hkept : Follows life ls
            { y with response := Function.update y.response ev response } :=
          ⟨hl.phases, hl.shapes, hl.unborn, hl.refused, hl.finished⟩
        have hacted : Acted (fun _ => false) y.world i r'.2 r'.1 :=
          pushCallback_acted (by simp [hframes]) hc
        obtain ⟨e, he, hc⟩ := bind_eq_ok.mp hc
        obtain ⟨c, -, hc⟩ := bind_eq_ok.mp hc
        obtain rfl := Except.ok.inj hc
        have hget := (inHand_ok he).1
        exact Known.goOn ⟨h.world, life, hkept⟩ hkept (x := .pushed i) hacted
          (owner_of (by rw [hlife]; rfl)) ⟨hframes, .inl (Function.update_self ..)⟩
          (getElem?_set_of_some hget _) ⟨(inHand_ok he).2, _, rfl⟩
          (by simp [hlife, Life.IsRefused]) (by simp [hlife, Life.IsFinished])
    -- no callback is allocated: the event stays with the handler
    | false =>
        obtain rfl := Except.ok.inj hr
        obtain ⟨e, hget, hshape⟩ := hl.exists_event ev (by simp [hlife])
        rw [hlife] at hshape
        refine ⟨by rw [objects_append]; exact (List.append_nil (objects ls)).symm ▸ h.world,
          _, hl.move (x := .refused i) (owner_of (by rw [hlife]; rfl))
          ⟨fun j hj => Function.update_of_ne hj _ _, fun _ _ => rfl⟩ ?_ (events_same hget) hshape
          (fun ev' => ?_) fun ev' => ?_⟩
        · show PhaseOk _ i (Function.update y.phase i _ i) (y.world.frames i)
          rw [Function.update_self]
          exact ⟨hframes, .inr (Function.update_self ..)⟩
        · by_cases hev : ev' = ev
          · simp [hev, Life.IsRefused]
          · simp [hev, hl.refused]
        · by_cases hev : ev' = ev
          · simp [hev, hl.finished, hlife, Life.IsFinished]
          · simp [hev, hl.finished]
  · cases hr

theorem doneImmediate_known (h : Known ls y) {r : Result σ} (hr : doneImmediate y i = .ok r) :
    Known (ls ++ r.2) r.1 := by
  unfold doneImmediate at hr
  split at hr
  · rename_i ev hphase
    obtain ⟨r', hc, hr⟩ := bind_eq_ok.mp hr
    obtain ⟨life, hl⟩ := h.life
    have hp := hl.phases i
    rw [hphase] at hp
    obtain ⟨hframes, hlife⟩ := hp
    have hacted : Acted (fun _ => false) y.world i r'.2 r'.1 :=
      complete_acted (by simp [hframes]) hc
    obtain ⟨e, he, hc⟩ := bind_eq_ok.mp hc
    obtain ⟨hget, hheld⟩ := inHand_ok he
    have hshape := hl.shapes ev e hget
    -- with a callback the event goes to it, without one it is destroyed
    rcases hlife with hlife | hlife
    · rw [hlife] at hshape
      obtain ⟨-, top, htop⟩ := hshape
      simp only [htop] at hc
      obtain ⟨c, -, hc⟩ := bind_eq_ok.mp hc
      obtain rfl := Except.ok.inj hc
      simp only [setFrames_self] at hr
      obtain rfl := Except.ok.inj hr
      have hcalled :
          Function.update y.world.frames i (.callback ev top false :: y.world.frames i) i =
            [.callback ev top false, .handler ev, .dispatched] := by
        rw [Function.update_self, hframes]
      exact h.goOn hl (x := .called i) hacted (owner_of (by rw [hlife]; rfl))
        ⟨top, false, hcalled, Function.update_self ..⟩ (getElem?_set_of_some hget _) hheld
        (by simp [hlife, Life.IsRefused]) (by simp [hlife, Life.IsFinished])
    · rw [hlife] at hshape
      simp only [hshape.2.1] at hc
      obtain rfl := Except.ok.inj hc
      have htop : (y.world.setEvent ev { e with place := .destroyed }).frames i =
        [.handler ev, .dispatched] := hframes
      simp only [htop] at hr
      obtain rfl := Except.ok.inj hr
      exact h.goOn hl (x := .freed i) hacted (owner_of (by rw [hlife]; rfl))
        ⟨hframes, .inr (Function.update_self ..)⟩ (getElem?_set_of_some hget _) rfl
        (by simp [hlife, Life.IsRefused]) (by simp [hlife, Life.IsFinished])
  · cases hr

/-- A step in which the objects stay as they are. -/
theorem Known.quiet (h : Known ls y) {p : Phase σ}
    (hphase : ∀ life, PhaseOk life i (y.phase i) (y.world.frames i) →
      PhaseOk life i p (y.world.frames i)) : Known (ls ++ []) (y.setPhase i p) := by
  obtain ⟨life, hl⟩ := h.life
  refine ⟨by rw [List.append_nil]; exact h.world, life,
    hl.stay ⟨fun j hj => Function.update_of_ne hj _ _, fun _ _ => rfl⟩ ?_ rfl (by simp [Plain])⟩
  show PhaseOk life i (Function.update y.phase i p i) (y.world.frames i)
  rw [Function.update_self]
  exact hphase life (hl.phases i)

theorem send_known (h : Known ls y) {r : Result σ} (hr : send y i = .ok r) :
    Known (ls ++ r.2) r.1 := by
  unfold send at hr
  split at hr
  · rename_i ev m ms hphase
    obtain rfl := Except.ok.inj hr
    refine h.quiet fun life hp => ?_
    rw [hphase] at hp
    exact hp
  · cases hr

theorem callbackReturns_known (h : Known ls y) {r : Result σ} (hr : callbackReturns y i = .ok r) :
    Known (ls ++ r.2) r.1 := by
  unfold callbackReturns at hr
  split at hr
  · rename_i ev ev' cb timeout fs hphase hframes
    obtain ⟨c, hc, hr⟩ := bind_eq_ok.mp hr
    obtain ⟨_, -, hr⟩ := bind_eq_ok.mp hr
    obtain ⟨life, hl⟩ := h.life
    have hp := hl.phases i
    rw [hphase] at hp
    obtain ⟨cb', timeout', hone, hlife⟩ := hp
    obtain rfl : fs = [.handler ev, .dispatched] := (List.cons.inj (hframes.symm.trans hone)).2
    obtain rfl := Except.ok.inj hr
    exact h.stay hl (callback_returns h.world hframes hc) ⟨Function.update_self .., .inl hlife⟩ rfl
  · cases hr

theorem handlerReturns_known (h : Known ls y) {r : Result σ} (hr : handlerReturns y i = .ok r) :
    Known (ls ++ r.2) r.1 := by
  unfold handlerReturns at hr
  split at hr
  · rename_i ev ev' fs hphase hframes
    obtain rfl := Except.ok.inj hr
    obtain ⟨life, hl⟩ := h.life
    have hp := hl.phases i
    rw [hphase] at hp
    obtain ⟨hone, hlife⟩ := hp
    obtain rfl : fs = [.dispatched] := (List.cons.inj (hframes.symm.trans hone)).2
    have hacted := handler_returns h.world hframes
    obtain ⟨e, hget, hshape⟩ := hl.exists_event ev (by
      rcases hlife with hlife | hlife <;> simp [hlife])
    -- a pointer that is lost, or an object that is destroyed
    obtain ⟨x, hx, howner, hxshape, hr, hnot⟩ : ∃ x : Life, x.IsFinished ∧
        (life ev).owner = some i ∧ x.Shape e ∧ ((life ev).IsRefused ↔ x.IsRefused) ∧
        ¬ (life ev).IsFinished := by
      rcases hlife with hlife | hlife
      · rw [hlife] at hshape ⊢
        exact ⟨.lost, trivial, rfl, ⟨i, hshape⟩, Iff.rfl, id⟩
      · rw [hlife] at hshape ⊢
        exact ⟨.gone, trivial, rfl, hshape, Iff.rfl, id⟩
    refine ⟨?_, _, hl.move (x := x) (owner_of howner) ⟨fun j hj => Function.update_of_ne hj _ _,
      fun j hj => setFrames_of_ne _ hj _⟩ ?_ (events_same hget) hxshape (fun ev'' => ?_)
      fun ev'' => ?_⟩
    · rw [objects_append]
      exact h.world.acted hacted
    · show PhaseOk _ i (Function.update y.phase i _ i) (Function.update y.world.frames i _ i)
      rw [Function.update_self, Function.update_self]
      exact .inr rfl
    · by_cases hev : ev'' = ev
      · simp [hev, hl.refused, hr]
      · simp [hev, hl.refused]
    · by_cases hev : ev'' = ev
      · simp [hev, hx]
      · simp [hev, hl.finished]
  · cases hr

theorem release_known (h : Known ls y) {r : Result σ} (hr : release y i = .ok r) :
    Known (ls ++ r.2) r.1 := by
  unfold release at hr
  split at hr
  · rename_i hphase
    obtain ⟨r', hc, hr⟩ := bind_eq_ok.mp hr
    obtain rfl := Except.ok.inj hr
    obtain ⟨life, hl⟩ := h.life
    have hacted : Acted (fun _ => false) y.world i r'.2 r'.1 :=
      release_acted hc
    obtain ⟨_, -, hc⟩ := bind_eq_ok.mp hc
    obtain ⟨w, hw, hc⟩ := bind_eq_ok.mp hc
    obtain ⟨sys, -, rfl⟩ := seda_eq_ok.mp hw
    obtain rfl := Except.ok.inj hc
    exact h.stay hl hacted (.inl (Function.update_self ..)) rfl
  · cases hr

omit [DecidableEq σ] in
theorem Sys.passes_world {a : Seda.Action σ ℕ} (h : y.passes a = true) :
    y.world.passes a = true := by
  have hfree : ∀ i, y.free i = true → y.world.userTurn i = true := by
    intro i hi
    unfold Sys.free at hi
    split at hi
    · rename_i hframes
      rw [World.userTurn, hframes]
    · cases hi
  cases a with
  | setPool i | connect i | disconnect i => exact hfree i h
  | addEvent | removeEvent | handled | threadKill | exit => cases h
  | _ => rfl

theorem seda_known (h : Known ls y) {a : Seda.Action σ ℕ} {r : Result σ}
    (hr : effect y (.seda a) = .ok r) : Known (ls ++ r.2) r.1 := by
  obtain ⟨_, hp, hr⟩ := bind_eq_ok.mp hr
  obtain ⟨w, hw, hr⟩ := bind_eq_ok.mp hr
  obtain ⟨sys, hsys, rfl⟩ := seda_eq_ok.mp hw
  obtain rfl := Except.ok.inj hr
  obtain ⟨life, hl⟩ := h.life
  rw [List.append_nil]
  exact ⟨h.world.seda (Sys.passes_world (require_eq_ok.mp hp)) hsys, life, hl.phases, hl.shapes,
    hl.unborn, hl.refused, hl.finished⟩

/-- **What every step keeps.** -/
theorem effect_known (h : Known ls y) {a : Action σ} {r : Result σ} (hr : effect y a = .ok r) :
    Known (ls ++ r.2) r.1 := by
  cases a with
  | receive i => exact receive_known h hr
  | addEvent i s => exact addEvent_known h hr
  | removeEvent i => exact removeEvent_known h hr
  | dispatch i => exact dispatch_known h hr
  | respond i response allocated => exact respond_known h hr
  | doneImmediate i => exact doneImmediate_known h hr
  | send i => exact send_known h hr
  | callbackReturns i => exact callbackReturns_known h hr
  | handlerReturns i => exact handlerReturns_known h hr
  | release i => exact release_known h hr
  | seda a => exact seda_known h hr

end Step

/-! ### Runs -/

section Runs

variable {σ : Type} [DecidableEq σ]

theorem known_new : Known [] (Sys.new : Sys σ) where
  world := worldInv_new _
  life := ⟨fun _ => .unborn, fun _ => .inl rfl, by simp [Sys.new, World.new], fun _ _ => rfl,
    by simp [Life.IsRefused], by simp [Life.IsFinished]⟩

/-- **Every run**, by induction on it. -/
theorem known_of_run {ls : List Label} {y : Sys σ} (h : Run machine .new ls y) : Known ls y := by
  refine h.invariant known_new fun ls y a y' hy hs => ?_
  simp only [machine] at hs ⊢
  cases he : effect y a with
  | error e =>
      rw [he] at hs
      cases hs
  | ok r =>
      rw [he] at hs
      obtain rfl := Except.ok.inj hs
      exact effect_known hy he

/-- What is told of the events, counted. -/
theorem count_objects (ls : List Label) (l : Callbacks.Label) :
    ls.count (.object l) = (objects ls).count l := by
  induction ls with
  | nil => rfl
  | cons x ls ih =>
      cases x with
      | object l' =>
          have hobjects : objects (.object l' :: ls) = l' :: objects ls := rfl
          rw [hobjects, List.count_cons, List.count_cons, ih]
          simp
      | refused ev | finished ev =>
          rw [List.count_cons_of_ne (by simp), ih]
          rfl

omit [DecidableEq σ] in
/-- An event that has ended was destroyed once. -/
theorem count_of_ended {ev : ℕ} {ls : List Callbacks.Label} (h : Ended ev ls) :
    ls.count (.destroyed ev) = 1 := by
  obtain ⟨a, b, rfl, ha, hb⟩ := h
  rw [List.count_append, List.count_cons_self, List.count_eq_zero.mpr ha,
    List.count_eq_zero.mpr fun hmem => hb _ hmem rfl]

/-- The event was destroyed once, and no stage has it in its queue. -/
def Disposed (ls : List Label) (y : Sys σ) (ev : ℕ) : Prop :=
  ls.count (.object (.destroyed ev)) = 1 ∧ ∀ s, ev ∉ (y.world.sys.stage s).eventList

/-- A destroyed event is in no queue. -/
theorem Known.disposed {ls : List Label} {y : Sys σ} (h : Known ls y) {ev : ℕ} {e : StageEvent σ}
    (he : y.world.events[ev]? = some e) (hp : e.place = .destroyed) : Disposed ls y ev := by
  refine ⟨?_, fun s hmem => ?_⟩
  · rw [count_objects]
    exact count_of_ended ((h.world.inv.events ev e he).ended hp)
  · obtain ⟨e', he', hp'⟩ := (h.world.inv.queues.mem s ev).mp hmem
    obtain rfl := Option.some.inj (he.symm.trans he')
    cases hp.symm.trans hp'

/-- **Main result.**  In every run, an event that its stage has finished with is disposed of exactly
when its callback was not allocated. -/
theorem disposed_iff {ls : List Label} {y : Sys σ} (h : Run machine .new ls y) {ev : ℕ}
    (hev : .finished ev ∈ ls) : Disposed ls y ev ↔ .refused ev ∈ ls := by
  have hknown := known_of_run h
  obtain ⟨life, hl⟩ := hknown.life
  have hfinished := (hl.finished ev).mp hev
  rw [hl.refused]
  cases hlife : life ev with
  | lost =>
      obtain ⟨e, he, hshape⟩ := hl.exists_event ev (by simp [hlife])
      rw [hlife] at hshape
      obtain ⟨i, hp⟩ := hshape
      -- its last thread has left it, and it was not destroyed before
      have halive := (hknown.world.inv.events ev e he).alive (by simp [hp])
      refine ⟨fun hd => ?_, False.elim⟩
      have hcount := hd.1
      rw [count_objects, List.count_eq_zero.mpr halive] at hcount
      cases hcount
  | gone =>
      obtain ⟨e, he, hshape⟩ := hl.exists_event ev (by simp [hlife])
      rw [hlife] at hshape
      exact ⟨fun _ => trivial, fun _ => hknown.disposed he hshape⟩
  | _ =>
      -- the stage is not done with it
      rw [hlife] at hfinished
      exact hfinished.elim

/-- One event of stage `false`, up to its end. -/
def oneEvent (allocated : Bool) : List (Action Bool) :=
  [.seda .newPool, .seda (.newThread (some 0)), .seda (.newThread none),
    .seda (.setPool 1 false 0), .seda (.connect 1 false), .seda (.initialized 1 true),
    .seda (.finish 1), .receive 1, .addEvent 1 false, .seda (.schedule 1), .seda (.push 1),
    .seda (.finish 1), .seda (.pop 0), .removeEvent 0, .dispatch 0,
    .respond 0 helloResponse allocated, .doneImmediate 0] ++
  (if allocated then [.send 0, .callbackReturns 0] else []) ++ [.handlerReturns 0, .release 0]

/-- The last state of that run. -/
theorem exec_oneEvent (allocated : Bool) : ∃ (ls : List Label) (y : Sys Bool),
    Run machine .new ls y ∧ .finished 0 ∈ ls ∧ (.refused 0 ∈ ls ↔ allocated = false) ∧
      ls.count (.object (.destroyed 0)) = if allocated then 0 else 1 := by
  have hseen : (exec machine .new (oneEvent allocated)).map (fun r =>
      (decide (.finished 0 ∈ r.1), decide (.refused 0 ∈ r.1),
        r.1.count (.object (.destroyed 0)))) =
      .ok (true, !allocated, if allocated then 0 else 1) := by
    cases allocated <;> rfl
  cases he : exec machine .new (oneEvent allocated) with
  | error e =>
      rw [he] at hseen
      cases hseen
  | ok r =>
      rw [he] at hseen
      simp only [Except.map, Except.ok.injEq, Prod.mk.injEq, decide_eq_true_eq] at hseen
      obtain ⟨hfinished, hrefused, hcount⟩ := hseen
      refine ⟨r.1, r.2, Run.exec (oneEvent allocated) .start he, hfinished, ?_, hcount⟩
      cases allocated with
      | false => simpa using hrefused
      | true => simpa using hrefused

/-- A run in which no callback is allocated. -/
theorem disposed_iff_refused : ∃ (ls : List Label) (y : Sys Bool),
    Run machine .new ls y ∧ .finished 0 ∈ ls ∧ Disposed ls y 0 := by
  obtain ⟨ls, y, hrun, hfinished, hrefused, -⟩ := exec_oneEvent false
  exact ⟨ls, y, hrun, hfinished, (disposed_iff hrun hfinished).mpr (hrefused.mpr rfl)⟩

/-- The response is sent, and the event is left alive. -/
theorem not_disposed : ∃ (ls : List Label) (y : Sys Bool),
    Run machine .new ls y ∧ .finished 0 ∈ ls ∧ ¬ Disposed ls y 0 := by
  obtain ⟨ls, y, hrun, hfinished, -, hcount⟩ := exec_oneEvent true
  refine ⟨ls, y, hrun, hfinished, fun hd => ?_⟩
  rw [hd.1] at hcount
  cases hcount

end Runs

end VulcanDB.Server.SessionStage
