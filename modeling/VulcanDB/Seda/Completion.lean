import VulcanDB.Library.Chain
import VulcanDB.Seda.Callbacks

/-!
# SEDA — What becomes of an event and its callbacks

The objects of `Callbacks` without the threads that act on them: the events, the callbacks, the
queues of the stages, and the callbacks that each thread has called and not deleted yet.  A change
is what one call does to them.

* `Stacked`: a list of callbacks is what the past of an event has left on its stack.
* `EventOk`: what the past says of one event.
* `Inv.change`: what every change keeps.
-/

namespace VulcanDB.Seda.Callbacks

variable {σ : Type}

/-- The events, the callbacks, the queues and what runs. -/
@[ext] structure Core (σ : Type) where
  events : List (StageEvent σ)
  callbacks : List (CompletionCallback σ)
  queue : σ → List ℕ
  running : ℕ → List ℕ

/-- A thread can hand the event on: it holds it, or has removed it from a queue. -/
def Grip (e : StageEvent σ) (i : ℕ) : Prop := e.place = .held i ∨ e.place = .removed i

/-- What one call of a thread does, and its label. -/
inductive Change [DecidableEq σ] (i : ℕ) : Core σ → List Label → Core σ → Prop
  | quiet (k) : Change i k [] k
  | create (k) : Change i k [.created k.events.length]
      { k with events := k.events ++ [⟨none, false, .held i⟩] }
  | push {k ev e} (target : σ) (he : k.events[ev]? = some e) (hp : e.place = .held i) :
      Change i k [.pushed ev k.callbacks.length]
        { k with events := k.events.set ev { e with compCb := some k.callbacks.length }
                 callbacks := k.callbacks ++ [⟨target, e.compCb, .pushed ev⟩] }
  | add {k ev e} (s : σ) {byDone : Bool} (he : k.events[ev]? = some e) (hg : Grip e i)
      (hd : byDone = false → e.place = .held i) :
      Change i k [.added ev byDone]
        { k with events := k.events.set ev
                   { e with cbFlag := byDone || e.cbFlag, place := .queued s }
                 queue := Function.update k.queue s (k.queue s ++ [ev]) }
  | destroy {k ev e} (he : k.events[ev]? = some e) (hg : Grip e i) (hcb : e.compCb = none) :
      Change i k [.destroyed ev] { k with events := k.events.set ev { e with place := .destroyed } }
  | invoke {k ev e top c} (he : k.events[ev]? = some e) (hg : Grip e i)
      (hcb : e.compCb = some top) (hc : k.callbacks[top]? = some c) :
      Change i k [.invoked ev top]
        { k with events := k.events.set ev ⟨c.nextCb, false, .held i⟩
                 callbacks := k.callbacks.set top { c with nextCb := none, place := .running i }
                 running := Function.update k.running i (top :: k.running i) }
  | remove {k ev e s q} (he : k.events[ev]? = some e) (hq : k.queue s = ev :: q)
      (hp : e.place = .queued s) :
      Change i k []
        { k with events := k.events.set ev { e with place := .removed i }
                 queue := Function.update k.queue s q }
  | take {k ev e} (he : k.events[ev]? = some e) (hp : e.place = .removed i) :
      Change i k [.took ev e.cbFlag] k
  | handle {k ev e} (he : k.events[ev]? = some e) (hp : e.place = .removed i)
      (hf : e.cbFlag = false) :
      Change i k [] { k with events := k.events.set ev { e with place := .held i } }
  | delete {k cb c l} (hr : k.running i = cb :: l) (hc : k.callbacks[cb]? = some c) :
      Change i k []
        { k with callbacks := k.callbacks.set cb { c with place := .deleted }
                 running := Function.update k.running i l }

/-! ### The past of an event -/

/-- The list is what pushes have put on the stack of the event and invocations have left there. -/
def Stacked (ev : ℕ) : List Label → List ℕ → Prop
  | ls, [] => ∀ cb, .pushed ev cb ∈ ls → .invoked ev cb ∈ ls
  | ls, cb :: l => ∃ a b, ls = a ++ .pushed ev cb :: b ∧
      (∀ cb', .pushed ev cb' ∈ b → .invoked ev cb' ∈ b) ∧ Stacked ev a l

/-- The event was last added to a stage by `done`, or was not. -/
def QueuedBy (ev : ℕ) (byDone : Bool) (ls : List Label) : Prop :=
  ∃ a b, ls = a ++ .added ev byDone :: b ∧ ∀ d, .added ev d ∉ b

/-- The callback is the one most recently pushed on the event of those that were not invoked. -/
def Latest (ev cb : ℕ) (ls : List Label) : Prop :=
  ∃ a b, ls = a ++ .pushed ev cb :: b ∧ .invoked ev cb ∉ ls ∧
    ∀ cb', .pushed ev cb' ∈ b → .invoked ev cb' ∈ b

/-- The event was destroyed once, and nothing was done to it after that. -/
def Ended (ev : ℕ) (ls : List Label) : Prop :=
  ∃ a b, ls = a ++ .destroyed ev :: b ∧ .destroyed ev ∉ a ∧ ∀ l ∈ b, l.event ≠ ev

/-- The callbacks that were invoked, in order. -/
def invocations (ls : List Label) : List ℕ :=
  ls.filterMap fun
    | .invoked _ cb => some cb
    | _ => none

theorem invocations_append (ls ls' : List Label) :
    invocations (ls ++ ls') = invocations ls ++ invocations ls' := List.filterMap_append

theorem mem_invocations {ls : List Label} {ev cb : ℕ} (h : .invoked ev cb ∈ ls) :
    cb ∈ invocations ls := List.mem_filterMap.mpr ⟨_, h, rfl⟩

/-- More of the past, in which nothing is left on the stack. -/
theorem Stacked.append {ev : ℕ} {ls ls' : List Label} {l : List ℕ} (h : Stacked ev ls l)
    (hb : ∀ cb, .pushed ev cb ∈ ls' → .invoked ev cb ∈ ls') : Stacked ev (ls ++ ls') l := by
  cases l with
  | nil =>
      intro cb hcb
      rcases List.mem_append.mp hcb with hcb | hcb
      · exact List.mem_append_left _ (h cb hcb)
      · exact List.mem_append_right _ (hb cb hcb)
  | cons top l =>
      obtain ⟨a, b, rfl, hbal, hrest⟩ := h
      refine ⟨a, b ++ ls', by simp, fun cb hcb => ?_, hrest⟩
      rcases List.mem_append.mp hcb with hcb | hcb
      · exact List.mem_append_left _ (hbal cb hcb)
      · exact List.mem_append_right _ (hb cb hcb)

theorem Stacked.pushed {ev : ℕ} {ls : List Label} {l : List ℕ} (h : Stacked ev ls l) (cb : ℕ) :
    Stacked ev (ls ++ [.pushed ev cb]) (cb :: l) := ⟨ls, [], rfl, by simp, h⟩

/-- The top of the stack is invoked. -/
theorem Stacked.invoked {ev top : ℕ} {ls : List Label} {l : List ℕ} (h : Stacked ev ls (top :: l)) :
    Stacked ev (ls ++ [.invoked ev top]) l := by
  obtain ⟨a, b, rfl, hbal, hrest⟩ := h
  rw [List.append_assoc]
  refine hrest.append fun cb hcb => ?_
  simp only [List.cons_append, List.mem_cons, List.mem_append,
    Label.pushed.injEq, true_and, reduceCtorEq, List.not_mem_nil, or_false, false_or,
    Label.invoked.injEq] at hcb ⊢
  rcases hcb with rfl | hcb
  · exact .inr rfl
  · exact .inl (hbal cb hcb)

/-- The top is the latest push that was not invoked. -/
theorem Stacked.latest {ev top : ℕ} {ls : List Label} {l : List ℕ} (h : Stacked ev ls (top :: l))
    (hnot : .invoked ev top ∉ ls) : Latest ev top ls := by
  obtain ⟨a, b, heq, hbal, -⟩ := h
  exact ⟨a, b, heq, hnot, hbal⟩

theorem QueuedBy.added (ev : ℕ) (byDone : Bool) (ls : List Label) :
    QueuedBy ev byDone (ls ++ [.added ev byDone]) := ⟨ls, [], rfl, by simp⟩

theorem QueuedBy.append {ev : ℕ} {byDone : Bool} {ls ls' : List Label} (h : QueuedBy ev byDone ls)
    (hn : ∀ d, .added ev d ∉ ls') : QueuedBy ev byDone (ls ++ ls') := by
  obtain ⟨a, b, rfl, hb⟩ := h
  exact ⟨a, b ++ ls', by simp, fun d hd => (List.mem_append.mp hd).elim (hb d) (hn d)⟩

/-- What happens to other events does not matter. -/
theorem Ended.append {ev : ℕ} {ls ls' : List Label} (h : Ended ev ls)
    (hn : ∀ l ∈ ls', l.event ≠ ev) : Ended ev (ls ++ ls') := by
  obtain ⟨a, b, rfl, ha, hb⟩ := h
  exact ⟨a, b ++ ls', by simp, ha, fun l hl => (List.mem_append.mp hl).elim (hb l) (hn l)⟩

/-- A property of the past of each label of a kind, after one more label. -/
theorem forall_split_append {ls : List Label} {x y : Label} {P : List Label → Prop}
    (h : ∀ a b, ls = a ++ x :: b → P a) (hy : y = x → P ls) :
    ∀ a b, ls ++ [y] = a ++ x :: b → P a := by
  intro a b heq
  rcases List.eq_nil_or_concat b with rfl | ⟨b, z, rfl⟩
  · obtain ⟨rfl, hyx⟩ := List.append_inj' heq rfl
    exact hy (List.cons.inj hyx).1
  · rw [List.concat_eq_append, ← List.cons_append, ← List.append_assoc] at heq
    exact h a b (List.append_inj' heq rfl).1

/-! ### What holds of the objects -/

/-- The link of a callback on the stack of the event. -/
def link (callbacks : List (CompletionCallback σ)) (ev cb : ℕ) : Option (Option ℕ) :=
  (callbacks[cb]?).bind fun c => if c.place = .pushed ev then some c.nextCb else none

/-- The next callback of one that is pushed. -/
theorem link_eq_some {callbacks : List (CompletionCallback σ)} {ev cb : ℕ} {q : Option ℕ} :
    link callbacks ev cb = some q ↔
      ∃ c, callbacks[cb]? = some c ∧ c.place = .pushed ev ∧ c.nextCb = q := by
  unfold link
  cases callbacks[cb]? with
  | none => simp
  | some c => by_cases h : c.place = .pushed ev <;> simp [h]

/-- What the past says of one event.  Its stack is linked through the callbacks, its flag says how
it was queued, and nothing is done to it once it is destroyed. -/
structure EventOk (next : ℕ → Option (Option ℕ)) (ls : List Label) (ev : ℕ) (e : StageEvent σ) :
    Prop where
  stack : ∃ l, Chain next e.compCb l ∧ Stacked ev ls l ∧ (e.place = .destroyed → l = [])
  waiting : (∃ s, e.place = .queued s) ∨ (∃ i, e.place = .removed i) → QueuedBy ev e.cbFlag ls
  held : ∀ i, e.place = .held i → e.cbFlag = false
  alive : e.place ≠ .destroyed → .destroyed ev ∉ ls
  ended : e.place = .destroyed → Ended ev ls

/-- An event is in the queue of a stage when its place says so, and once. -/
structure QueueOk (events : List (StageEvent σ)) (queue : σ → List ℕ) : Prop where
  mem : ∀ s ev, ev ∈ queue s ↔ ∃ e, events[ev]? = some e ∧ e.place = .queued s
  nodup : ∀ s, (queue s).Nodup

/-- A callback that runs is off its stack, and each is invoked once. -/
structure CallbackOk (ls : List Label) (callbacks : List (CompletionCallback σ))
    (running : ℕ → List ℕ) : Prop where
  called : ∀ i, ∀ cb ∈ running i,
    ∃ c, callbacks[cb]? = some c ∧ c.place = .running i ∧ c.nextCb = none
  nodup : ∀ i, (running i).Nodup
  invoked : ∀ cb ∈ invocations ls, ∃ c, callbacks[cb]? = some c ∧ ∀ ev, c.place ≠ .pushed ev
  once : (invocations ls).Nodup

/-- A callback was the latest when it was invoked, and a worker took the path by how the event was
queued. -/
structure PastOk (ls : List Label) (n : ℕ) : Prop where
  latest : ∀ ev cb a b, ls = a ++ .invoked ev cb :: b → Latest ev cb a
  path : ∀ ev p a b, ls = a ++ .took ev p :: b → QueuedBy ev p a
  known : ∀ l ∈ ls, l.event < n

/-- **The invariant**: of the events, the queues, the callbacks and what has happened. -/
structure Inv (ls : List Label) (k : Core σ) : Prop where
  events : ∀ ev e, k.events[ev]? = some e → EventOk (link k.callbacks ev) ls ev e
  queues : QueueOk k.events k.queue
  callbacks : CallbackOk ls k.callbacks k.running
  past : PastOk ls k.events.length

theorem getElem?_set_of_some {α : Type} {l : List α} {i : ℕ} {x : α} (h : l[i]? = some x) (y : α)
    (j : ℕ) : (l.set i y)[j]? = if j = i then some y else l[j]? := by
  by_cases hj : j = i
  · rw [hj, if_pos rfl, List.getElem?_set_self (List.getElem?_eq_some_iff.mp h).1]
  · rw [if_neg hj, List.getElem?_set_ne (Ne.symm hj)]

theorem getElem?_concat {α : Type} (l : List α) (y : α) (j : ℕ) :
    (l ++ [y])[j]? = if j = l.length then some y else l[j]? := by
  by_cases hj : j = l.length
  · rw [hj, if_pos rfl, List.getElem?_concat_length]
  · rw [if_neg hj]
    rcases Nat.lt_or_ge j l.length with hlt | hge
    · rw [List.getElem?_append_left hlt]
    · rw [List.getElem?_eq_none hge, List.getElem?_eq_none (by simp; omega)]

/-! ### One event -/

section Event

variable {next next' : ℕ → Option (Option ℕ)} {ls ls' : List Label} {ev : ℕ} {e : StageEvent σ}

/-- What is done to other events changes nothing. -/
theorem EventOk.frame (h : EventOk next ls ev e) (hls : ∀ l ∈ ls', l.event ≠ ev)
    (hn : ∀ c q, next c = some q → next' c = some q) : EventOk next' (ls ++ ls') ev e := by
  obtain ⟨l, hchain, hstack, hnil⟩ := h.stack
  refine ⟨⟨l, hchain.mono hn, hstack.append fun cb hcb => absurd rfl (hls _ hcb), hnil⟩,
    fun hw => (h.waiting hw).append fun d hd => hls _ hd rfl, h.held, fun hp hd => ?_,
    fun hp => (h.ended hp).append hls⟩
  rcases List.mem_append.mp hd with hd | hd
  · exact h.alive hp hd
  · exact hls _ hd rfl

theorem EventOk.mono (h : EventOk next ls ev e) (hn : ∀ c q, next c = some q → next' c = some q) :
    EventOk next' ls ev e := by
  have := h.frame (List.forall_mem_nil fun l : Label => l.event ≠ ev) hn
  rwa [List.append_nil] at this

theorem eventOk_new (i : ℕ) (hls : ∀ l ∈ ls, l.event < ev) :
    EventOk next (ls ++ [.created ev]) ev (⟨none, false, .held i⟩ : StageEvent σ) := by
  have hnot : ∀ l ∈ ls, l.event ≠ ev := fun l hl => (hls l hl).ne
  refine ⟨⟨[], rfl, ?_, fun _ => rfl⟩, by simp, by simp, fun _ hd => ?_, by simp⟩
  · intro cb hcb
    simp only [List.mem_append, List.mem_singleton, reduceCtorEq, or_false] at hcb
    exact absurd rfl (hnot _ hcb)
  · simp only [List.mem_append, List.mem_singleton, reduceCtorEq, or_false] at hd
    exact hnot _ hd rfl

theorem EventOk.push {i : ℕ} (h : EventOk next ls ev e) (hp : e.place = .held i) {cb : ℕ}
    (hn : ∀ c q, next c = some q → next' c = some q) (hcb : next' cb = some e.compCb) :
    EventOk next' (ls ++ [.pushed ev cb]) ev { e with compCb := some cb } := by
  obtain ⟨l, hchain, hstack, -⟩ := h.stack
  refine ⟨⟨cb :: l, Chain.cons hcb (hchain.mono hn), hstack.pushed cb, by simp [hp]⟩, by simp [hp],
    h.held, fun hd hmem => ?_, by simp [hp]⟩
  simp only [List.mem_append, List.mem_singleton, reduceCtorEq, or_false] at hmem
  exact h.alive hd hmem

theorem Grip.alive {i : ℕ} (h : Grip e i) : e.place ≠ .destroyed := by
  rcases h with h | h <;> simp [h]

theorem EventOk.add {i : ℕ} (h : EventOk next ls ev e) (hg : Grip e i) (s : σ) {byDone : Bool}
    (hd : byDone = false → e.place = .held i) :
    EventOk next (ls ++ [.added ev byDone]) ev
      { e with cbFlag := byDone || e.cbFlag, place := .queued s } := by
  obtain ⟨l, hchain, hstack, -⟩ := h.stack
  have hflag : (byDone || e.cbFlag) = byDone := by
    cases byDone with
    | true => rfl
    | false => exact h.held i (hd rfl)
  refine ⟨⟨l, hchain, hstack.append (by simp), by simp⟩, fun _ => ?_, by simp, fun _ hmem => ?_,
    by simp⟩
  · rw [hflag]
    exact QueuedBy.added ev byDone ls
  · simp only [List.mem_append, List.mem_singleton, reduceCtorEq, or_false] at hmem
    exact h.alive hg.alive hmem

theorem EventOk.destroy {i : ℕ} (h : EventOk next ls ev e) (hg : Grip e i) (hcb : e.compCb = none) :
    EventOk next (ls ++ [.destroyed ev]) ev ({ e with place := .destroyed } : StageEvent σ) := by
  obtain ⟨l, hchain, hstack, -⟩ := h.stack
  rw [hcb] at hchain
  obtain rfl := hchain.nil_of_none
  exact ⟨⟨[], hcb, hstack.append (by simp), fun _ => rfl⟩, by simp, by simp, by simp,
    fun _ => ⟨ls, [], rfl, h.alive hg.alive, by simp⟩⟩

/-- The top of the stack is popped. -/
theorem EventOk.invoke {i top : ℕ} {q : Option ℕ} (h : EventOk next ls ev e) (hg : Grip e i)
    (hcb : e.compCb = some top) (hq : next top = some q)
    (hn : ∀ c, c ≠ top → next' c = next c) :
    EventOk next' (ls ++ [.invoked ev top]) ev (⟨q, false, .held i⟩ : StageEvent σ) := by
  obtain ⟨l, hchain, hstack, -⟩ := h.stack
  have hnodup := hchain.nodup
  rw [hcb] at hchain
  obtain ⟨q', l', rfl, hq', hrest⟩ := hchain.of_some
  obtain rfl := Option.some.inj (hq.symm.trans hq')
  have hnot : top ∉ l' := (List.nodup_cons.mp hnodup).1
  refine ⟨⟨l', hrest.congr fun c hc => hn c fun heq => hnot (heq ▸ hc), hstack.invoked, by simp⟩,
    by simp, by simp, fun _ hmem => ?_, by simp⟩
  simp only [List.mem_append, List.mem_singleton, reduceCtorEq, or_false] at hmem
  exact h.alive hg.alive hmem

/-- A thread removes the event, or is called with it. -/
theorem EventOk.move (h : EventOk next ls ev e) (place : Place σ) (hp : e.place ≠ .destroyed)
    (hplace : place ≠ .destroyed)
    (hw : (∃ s, place = .queued s) ∨ (∃ i, place = .removed i) → QueuedBy ev e.cbFlag ls)
    (hheld : ∀ i, place = .held i → e.cbFlag = false) :
    EventOk next ls ev { e with place := place } := by
  obtain ⟨l, hchain, hstack, -⟩ := h.stack
  exact ⟨⟨l, hchain, hstack, fun hd => absurd hd hplace⟩, hw, hheld, fun _ => h.alive hp,
    fun hd => absurd hd hplace⟩

/-- A worker looks at the event. -/
theorem EventOk.took (h : EventOk next ls ev e) (hp : e.place ≠ .destroyed) (p : Bool) :
    EventOk next (ls ++ [.took ev p]) ev e := by
  obtain ⟨l, hchain, hstack, -⟩ := h.stack
  refine ⟨⟨l, hchain, hstack.append (by simp), fun hd => absurd hd hp⟩,
    fun hw => (h.waiting hw).append (by simp), h.held, fun _ hmem => ?_, fun hd => absurd hd hp⟩
  simp only [List.mem_append, List.mem_singleton, reduceCtorEq, or_false] at hmem
  exact h.alive hp hmem

end Event

/-! ### The queues -/

section Queue

variable {events : List (StageEvent σ)} {queue : σ → List ℕ} {ev : ℕ} {e e' : StageEvent σ}

/-- An event that is not queued moves to another place that is no queue. -/
theorem QueueOk.set (h : QueueOk events queue) (he : events[ev]? = some e)
    (hold : ∀ s, e.place ≠ .queued s) (hnew : ∀ s, e'.place ≠ .queued s) :
    QueueOk (events.set ev e') queue := by
  refine ⟨fun s j => ?_, h.nodup⟩
  rw [h.mem, getElem?_set_of_some he]
  by_cases hj : j = ev
  · subst hj
    simp [he, hold, hnew]
  · simp [hj]

theorem QueueOk.create (h : QueueOk events queue) (hnew : ∀ s, e.place ≠ .queued s) :
    QueueOk (events ++ [e]) queue := by
  refine ⟨fun s j => ?_, h.nodup⟩
  rw [h.mem, getElem?_concat]
  by_cases hj : j = events.length
  · subst hj
    simp [hnew]
  · simp [hj]

variable [DecidableEq σ]

theorem QueueOk.add (h : QueueOk events queue) (he : events[ev]? = some e)
    (hold : ∀ s, e.place ≠ .queued s) {s : σ} (hnew : e'.place = .queued s) :
    QueueOk (events.set ev e') (Function.update queue s (queue s ++ [ev])) := by
  have hnot : ∀ s, ev ∉ queue s := by
    intro s hmem
    obtain ⟨x, hx, hp⟩ := (h.mem s ev).mp hmem
    obtain rfl := Option.some.inj (hx.symm.trans he)
    exact hold s hp
  refine ⟨fun s' j => ?_, fun s' => ?_⟩
  · rw [getElem?_set_of_some he]
    by_cases hs : s' = s
    · subst hs
      rw [Function.update_self, List.mem_append, List.mem_singleton]
      by_cases hj : j = ev
      · simp [hj, hnew]
      · simp [hj, h.mem]
    · rw [Function.update_of_ne hs]
      by_cases hj : j = ev
      · subst hj
        simp [hnot, hnew, Ne.symm hs]
      · simp [hj, h.mem]
  · by_cases hs : s' = s
    · subst hs
      rw [Function.update_self]
      exact List.nodup_append.mpr ⟨h.nodup s', by simp, by
        rintro a ha b hb rfl
        obtain rfl := List.mem_singleton.mp hb
        exact hnot s' ha⟩
    · rw [Function.update_of_ne hs]
      exact h.nodup s'

theorem QueueOk.remove (h : QueueOk events queue) (he : events[ev]? = some e) {s : σ} {q : List ℕ}
    (hq : queue s = ev :: q) (hnew : ∀ s, e'.place ≠ .queued s) :
    QueueOk (events.set ev e') (Function.update queue s q) := by
  have hp : e.place = .queued s := by
    obtain ⟨x, hx, hp⟩ := (h.mem s ev).mp (by rw [hq]; exact List.mem_cons_self)
    rwa [Option.some.inj (he.symm.trans hx)]
  have hnodup := h.nodup s
  rw [hq, List.nodup_cons] at hnodup
  refine ⟨fun s' j => ?_, fun s' => ?_⟩
  · rw [getElem?_set_of_some he]
    by_cases hs : s' = s
    · subst hs
      rw [Function.update_self]
      by_cases hj : j = ev
      · subst hj
        simp [hnodup.1, hnew]
      · rw [if_neg hj, ← h.mem, hq, List.mem_cons]
        simp [hj]
    · rw [Function.update_of_ne hs, h.mem]
      by_cases hj : j = ev
      · subst hj
        simp [he, hp, hnew, Ne.symm hs]
      · simp [hj]
  · by_cases hs : s' = s
    · subst hs
      rw [Function.update_self]
      exact hnodup.2
    · rw [Function.update_of_ne hs]
      exact h.nodup s'

end Queue

/-! ### The callbacks -/

section Callback

variable {ls ls' : List Label} {callbacks : List (CompletionCallback σ)} {running : ℕ → List ℕ}
  {cb : ℕ} {c : CompletionCallback σ}

/-- Without an invocation nothing changes. -/
theorem CallbackOk.frame (h : CallbackOk ls callbacks running) (hls : invocations ls' = []) :
    CallbackOk (ls ++ ls') callbacks running := by
  have heq : invocations (ls ++ ls') = invocations ls := by
    rw [invocations_append, hls, List.append_nil]
  exact ⟨h.called, h.nodup, by rw [heq]; exact h.invoked, by rw [heq]; exact h.once⟩

theorem CallbackOk.push (h : CallbackOk ls callbacks running) (c : CompletionCallback σ) :
    CallbackOk ls (callbacks ++ [c]) running := by
  have hkept : ∀ (cb : ℕ) c', callbacks[cb]? = some c' → (callbacks ++ [c])[cb]? = some c' := by
    intro cb c' hc
    rw [List.getElem?_append_left (List.getElem?_eq_some_iff.mp hc).1, hc]
  refine ⟨fun i cb hcb => ?_, h.nodup, fun cb hcb => ?_, h.once⟩
  · obtain ⟨c', hc, hp⟩ := h.called i cb hcb
    exact ⟨c', hkept cb c' hc, hp⟩
  · obtain ⟨c', hc, hp⟩ := h.invoked cb hcb
    exact ⟨c', hkept cb c' hc, hp⟩

/-- A callback on the stack of an event is not called, and was never invoked. -/
theorem CallbackOk.fresh (h : CallbackOk ls callbacks running) {ev : ℕ}
    (hc : callbacks[cb]? = some c) (hp : c.place = .pushed ev) :
    (∀ i, cb ∉ running i) ∧ cb ∉ invocations ls := by
  refine ⟨fun i hcb => ?_, fun hcb => ?_⟩
  · obtain ⟨c', hc', hrun, -⟩ := h.called i cb hcb
    obtain rfl := Option.some.inj (hc.symm.trans hc')
    cases hp.symm.trans hrun
  · obtain ⟨c', hc', hnot⟩ := h.invoked cb hcb
    obtain rfl := Option.some.inj (hc.symm.trans hc')
    exact hnot ev hp

/-- **A callback is invoked**, which it never was. -/
theorem CallbackOk.invoke (h : CallbackOk ls callbacks running) {ev : ℕ}
    (hc : callbacks[cb]? = some c) (hp : c.place = .pushed ev) (i : ℕ) :
    CallbackOk (ls ++ [.invoked ev cb])
      (callbacks.set cb { c with nextCb := none, place := .running i })
      (Function.update running i (cb :: running i)) := by
  obtain ⟨hnot, hnever⟩ := h.fresh hc hp
  have hinv : invocations (ls ++ [.invoked ev cb]) = invocations ls ++ [cb] :=
    invocations_append _ _
  -- what ran before runs on, since this callback did not run
  have hold : ∀ j, ∀ d ∈ running j, ∃ c', (callbacks.set cb
      { c with nextCb := none, place := .running i })[d]? = some c' ∧
      c'.place = .running j ∧ c'.nextCb = none := by
    intro j d hd
    have hne : d ≠ cb := fun heq => hnot j (heq ▸ hd)
    rw [getElem?_set_of_some hc, if_neg hne]
    exact h.called j d hd
  refine ⟨fun j d hd => ?_, fun j => ?_, fun d hd => ?_, ?_⟩
  · by_cases hj : j = i
    · subst hj
      rw [Function.update_self, List.mem_cons] at hd
      rcases hd with rfl | hd
      · rw [getElem?_set_of_some hc, if_pos rfl]
        exact ⟨_, rfl, rfl, rfl⟩
      · exact hold j d hd
    · rw [Function.update_of_ne hj] at hd
      exact hold j d hd
  · by_cases hj : j = i
    · subst hj
      rw [Function.update_self]
      exact List.nodup_cons.mpr ⟨hnot j, h.nodup j⟩
    · rw [Function.update_of_ne hj]
      exact h.nodup j
  · rw [hinv, List.mem_append, List.mem_singleton] at hd
    rw [getElem?_set_of_some hc]
    by_cases hcb : d = cb
    · rw [if_pos hcb]
      exact ⟨_, rfl, by simp⟩
    · rw [if_neg hcb]
      exact h.invoked d (hd.resolve_right hcb)
  · rw [hinv]
    exact List.nodup_append.mpr ⟨h.once, by simp, by
      rintro a ha b hb rfl
      obtain rfl := List.mem_singleton.mp hb
      exact hnever ha⟩

theorem CallbackOk.delete (h : CallbackOk ls callbacks running) {i : ℕ} {l : List ℕ}
    (hr : running i = cb :: l) (hc : callbacks[cb]? = some c) :
    CallbackOk ls (callbacks.set cb { c with place := .deleted }) (Function.update running i l) := by
  have hnodup := h.nodup i
  rw [hr, List.nodup_cons] at hnodup
  have hplace : c.place = .running i := by
    obtain ⟨c', hc', hp, -⟩ := h.called i cb (by rw [hr]; exact List.mem_cons_self)
    rwa [Option.some.inj (hc.symm.trans hc')]
  refine ⟨fun j d hd => ?_, fun j => ?_, fun d hd => ?_, h.once⟩
  · -- the callback ran in this thread only, and only once
    have hne : d ≠ cb ∧ d ∈ running j := by
      by_cases hj : j = i
      · subst hj
        rw [Function.update_self] at hd
        exact ⟨fun heq => hnodup.1 (heq ▸ hd), by rw [hr]; exact List.mem_cons_of_mem _ hd⟩
      · rw [Function.update_of_ne hj] at hd
        refine ⟨?_, hd⟩
        rintro rfl
        obtain ⟨c', hc', hp, -⟩ := h.called j d hd
        obtain rfl := Option.some.inj (hc.symm.trans hc')
        exact hj (CbPlace.running.inj (hp.symm.trans hplace))
    rw [getElem?_set_of_some hc, if_neg hne.1]
    exact h.called j d hne.2
  · by_cases hj : j = i
    · subst hj
      rw [Function.update_self]
      exact hnodup.2
    · rw [Function.update_of_ne hj]
      exact h.nodup j
  · rw [getElem?_set_of_some hc]
    by_cases hcb : d = cb
    · rw [if_pos hcb]
      exact ⟨_, rfl, by simp⟩
    · rw [if_neg hcb]
      exact h.invoked d hd

/-- Another callback in place of one that is not on the stack of the event. -/
theorem link_set {ev : ℕ} {c' : CompletionCallback σ} (hc : callbacks[cb]? = some c)
    (hp : c.place ≠ .pushed ev) {d : ℕ} {q : Option ℕ} (hd : link callbacks ev d = some q) :
    link (callbacks.set cb c') ev d = some q := by
  obtain ⟨c₁, hget, hplace, hq⟩ := link_eq_some.mp hd
  refine link_eq_some.mpr ⟨c₁, ?_, hplace, hq⟩
  rw [getElem?_set_of_some hc, if_neg]
  · exact hget
  · rintro rfl
    obtain rfl := Option.some.inj (hc.symm.trans hget)
    exact hp hplace

theorem link_append {ev : ℕ} {d : ℕ} {q : Option ℕ} (hd : link callbacks ev d = some q) :
    link (callbacks ++ [c]) ev d = some q := by
  obtain ⟨c₁, hget, hplace, hq⟩ := link_eq_some.mp hd
  refine link_eq_some.mpr ⟨c₁, ?_, hplace, hq⟩
  rw [List.getElem?_append_left (List.getElem?_eq_some_iff.mp hget).1, hget]

end Callback

/-! ### A change -/

/-- The top of an event is a pushed callback. -/
theorem EventOk.top {callbacks : List (CompletionCallback σ)} {ls : List Label} {ev top : ℕ}
    {e : StageEvent σ} (h : EventOk (link callbacks ev) ls ev e) (hcb : e.compCb = some top) :
    ∃ c l, callbacks[top]? = some c ∧ c.place = .pushed ev ∧ Stacked ev ls (top :: l) := by
  obtain ⟨l, hchain, hstack, -⟩ := h.stack
  rw [hcb] at hchain
  obtain ⟨q, l', rfl, hq, -⟩ := hchain.of_some
  obtain ⟨c, hc, hp, -⟩ := link_eq_some.mp hq
  exact ⟨c, l', hc, hp, hstack⟩

/-- **One more label**. -/
theorem PastOk.append {ls : List Label} {n n' : ℕ} (h : PastOk ls n) {x : Label}
    (hi : ∀ ev cb, x = .invoked ev cb → Latest ev cb ls)
    (ht : ∀ ev p, x = .took ev p → QueuedBy ev p ls) (hx : x.event < n') (hn : n ≤ n') :
    PastOk (ls ++ [x]) n' := by
  refine ⟨fun ev cb => forall_split_append (h.latest ev cb) (hi ev cb),
    fun ev p => forall_split_append (h.path ev p) (ht ev p), fun l hl => ?_⟩
  rcases List.mem_append.mp hl with hl | hl
  · exact (h.known l hl).trans_le hn
  · rwa [List.mem_singleton.mp hl]

/-- One event has changed, and the labels are about it. -/
theorem events_set {events : List (StageEvent σ)} {callbacks callbacks' : List (CompletionCallback σ)}
    {ls ls' : List Label} {ev : ℕ} {e e' : StageEvent σ}
    (h : ∀ j x, events[j]? = some x → EventOk (link callbacks j) ls j x)
    (he : events[ev]? = some e) (hls : ∀ l ∈ ls', l.event = ev)
    (hlink : ∀ j, j ≠ ev → ∀ c q, link callbacks j c = some q → link callbacks' j c = some q)
    (hev : EventOk (link callbacks' ev) (ls ++ ls') ev e') :
    ∀ j x, (events.set ev e')[j]? = some x → EventOk (link callbacks' j) (ls ++ ls') j x := by
  intro j x hx
  rw [getElem?_set_of_some he] at hx
  by_cases hj : j = ev
  · rw [if_pos hj] at hx
    obtain rfl := Option.some.inj hx
    rwa [hj]
  · rw [if_neg hj] at hx
    exact (h j x hx).frame (fun l hl heq => hj (heq.symm.trans (hls l hl))) (hlink j hj)

/-- One event has moved, and no callback has. -/
theorem events_move {events : List (StageEvent σ)} {callbacks : List (CompletionCallback σ)}
    {ls : List Label} {ev : ℕ} {e e' : StageEvent σ}
    (h : ∀ j x, events[j]? = some x → EventOk (link callbacks j) ls j x)
    (he : events[ev]? = some e) (hev : EventOk (link callbacks ev) ls ev e') :
    ∀ j x, (events.set ev e')[j]? = some x → EventOk (link callbacks j) ls j x := by
  have hset : ∀ j x, (events.set ev e')[j]? = some x →
      EventOk (link callbacks j) (ls ++ []) j x :=
    events_set h he (fun _ hl => absurd hl List.not_mem_nil) (fun _ _ _ _ hq => hq)
      (by rwa [List.append_nil])
  rwa [List.append_nil] at hset

theorem lt_length {events : List (StageEvent σ)} {ev : ℕ} {e : StageEvent σ}
    (he : events[ev]? = some e) : ev < events.length := (List.getElem?_eq_some_iff.mp he).1

theorem Grip.not_queued {e : StageEvent σ} {i : ℕ} (h : Grip e i) (s : σ) :
    e.place ≠ .queued s := by
  rcases h with h | h <;> simp [h]

/-- **What every change keeps.** -/
theorem Inv.change [DecidableEq σ] {ls ls' : List Label} {i : ℕ} {k k' : Core σ}
    (h : Inv ls k) (hc : Change i k ls' k') : Inv (ls ++ ls') k' := by
  cases hc with
  | quiet => rwa [List.append_nil]
  | create =>
      refine ⟨fun j x hx => ?_, h.queues.create (by simp), h.callbacks.frame rfl,
        h.past.append (by simp) (by simp) (by simp [Label.event]) (by simp)⟩
      rw [getElem?_concat] at hx
      by_cases hj : j = k.events.length
      · rw [if_pos hj] at hx
        obtain rfl := Option.some.inj hx
        rw [hj]
        exact eventOk_new i h.past.known
      · rw [if_neg hj] at hx
        exact (h.events j x hx).frame (by simpa [Label.event] using Ne.symm hj) fun _ _ hq => hq
  | @push ev e target he hp =>
      -- the pushed callback is linked to the old top
      have hnew : link (k.callbacks ++ [⟨target, e.compCb, .pushed ev⟩]) ev k.callbacks.length =
          some e.compCb := link_eq_some.mpr ⟨_, List.getElem?_concat_length, rfl, rfl⟩
      exact ⟨events_set h.events he (by simp [Label.event]) (fun _ _ _ _ hq => link_append hq)
          ((h.events ev e he).push hp (fun _ _ hq => link_append hq) hnew),
        h.queues.set he (by simp [hp]) (by simp [hp]), (h.callbacks.frame rfl).push _,
        h.past.append (by simp) (by simp) (by simpa [Label.event] using lt_length he) (by simp)⟩
  | @add ev e s byDone he hg hd =>
      exact ⟨events_set h.events he (by simp [Label.event]) (fun _ _ _ _ hq => hq)
          ((h.events ev e he).add hg s hd),
        h.queues.add he hg.not_queued rfl, h.callbacks.frame rfl,
        h.past.append (by simp) (by simp) (by simpa [Label.event] using lt_length he) (by simp)⟩
  | @destroy ev e he hg hcb =>
      exact ⟨events_set h.events he (by simp [Label.event]) (fun _ _ _ _ hq => hq)
          ((h.events ev e he).destroy hg hcb),
        h.queues.set he hg.not_queued (by simp), h.callbacks.frame rfl,
        h.past.append (by simp) (by simp) (by simpa [Label.event] using lt_length he) (by simp)⟩
  | @invoke ev e top c he hg hcb hc =>
      -- the top was pushed and never invoked, so its invocation is the first
      obtain ⟨c', l, hc', hp, hstack⟩ := (h.events ev e he).top hcb
      obtain rfl := Option.some.inj (hc.symm.trans hc')
      have hnever := (h.callbacks.fresh hc hp).2
      refine ⟨events_set h.events he (by simp [Label.event]) (fun j hj _ _ hq => ?_) ?_,
        h.queues.set he hg.not_queued (by simp), h.callbacks.invoke hc hp i,
        h.past.append ?_ (by simp) (by simpa [Label.event] using lt_length he) (by simp)⟩
      · exact link_set hc (by simpa [hp] using Ne.symm hj) hq
      · refine (h.events ev e he).invoke hg hcb (link_eq_some.mpr ⟨c, hc, hp, rfl⟩) fun d hd => ?_
        rw [link, link, getElem?_set_of_some hc, if_neg hd]
      · rintro ev' cb' heq
        obtain ⟨rfl, rfl⟩ := Label.invoked.inj heq
        exact hstack.latest fun hmem => hnever (mem_invocations hmem)
  | @remove ev e s q he hq hp =>
      have hev := (h.events ev e he).move (.removed i) (by simp [hp]) (by simp)
        (fun _ => (h.events ev e he).waiting (.inl ⟨s, hp⟩)) (by simp)
      rw [List.append_nil]
      exact ⟨events_move h.events he hev, h.queues.remove he hq (by simp), h.callbacks,
        by simpa using h.past⟩
  | @take ev e he hp =>
      refine ⟨fun j x hx => ?_, h.queues, h.callbacks.frame rfl, h.past.append (by simp) ?_ ?_ le_rfl⟩
      · by_cases hj : j = ev
        · subst hj
          obtain rfl := Option.some.inj (he.symm.trans hx)
          exact (h.events j e he).took (by simp [hp]) e.cbFlag
        · exact (h.events j x hx).frame (by simpa [Label.event] using Ne.symm hj) fun _ _ hq => hq
      · rintro ev' p heq
        obtain ⟨rfl, rfl⟩ := Label.took.inj heq
        exact (h.events _ e he).waiting (.inr ⟨i, hp⟩)
      · simpa [Label.event] using lt_length he
  | @handle ev e he hp hf =>
      have hev := (h.events ev e he).move (.held i) (by simp [hp]) (by simp) (by simp) fun _ _ => hf
      rw [List.append_nil]
      exact ⟨events_move h.events he hev, h.queues.set he (by simp [hp]) (by simp), h.callbacks,
        by simpa using h.past⟩
  | @delete cb c l hr hc =>
      obtain ⟨c', hc', hp, -⟩ := h.callbacks.called i cb (by rw [hr]; exact List.mem_cons_self)
      obtain rfl := Option.some.inj (hc.symm.trans hc')
      rw [List.append_nil]
      exact ⟨fun j x hx => (h.events j x hx).mono fun _ _ hq => link_set hc (by simp [hp]) hq,
        h.queues, h.callbacks.delete hr hc, h.past⟩

/-- An event that another thread has removed and not looked at yet is left alone. -/
theorem Change.others [DecidableEq σ] {ls : List Label} {i j ev : ℕ} {k k' : Core σ}
    (hc : Change i k ls k') {e : StageEvent σ} (he : k.events[ev]? = some e)
    (hp : e.place = .removed j) (hj : j ≠ i) : k'.events[ev]? = some e := by
  have hset : ∀ {ev' : ℕ} {e' : StageEvent σ} (y), k.events[ev']? = some e' →
      e'.place ≠ .removed j → (k.events.set ev' y)[ev]? = some e := by
    intro ev' e' y he' hp'
    rw [getElem?_set_of_some he', if_neg, he]
    rintro rfl
    obtain rfl := Option.some.inj (he.symm.trans he')
    exact hp' hp
  have hgrip : ∀ {e' : StageEvent σ}, Grip e' i → e'.place ≠ .removed j := by
    rintro e' (hg | hg) <;> simp [hg, hj.symm]
  cases hc with
  | quiet | take | delete => exact he
  | create => rw [List.getElem?_append_left (lt_length he), he]
  | push target he' hp' => exact hset _ he' (by simp [hp'])
  | add s he' hg => exact hset _ he' (hgrip hg)
  | destroy he' hg => exact hset _ he' (hgrip hg)
  | invoke he' hg => exact hset _ he' (hgrip hg)
  | remove he' hq hp' => exact hset _ he' (by simp [hp'])
  | handle he' hp' => exact hset _ he' (by simp [hp', hj.symm])

end VulcanDB.Seda.Callbacks
