import VulcanDB.Library.Chain
import VulcanDB.Library.Steps

/-!
# SEDA — Chains of callbacks

The callbacks linked through their `next_cb_` from the `comp_cb_` of the events, where a callback
object may be pushed again.  The assertion of `push_callback` looks at the `next_cb_` of the object,
which is null for an object on no stack, and for the one at the bottom of a stack.

The target and the context of a callback, and the history and the timeout of an event, are left out.

* `Sound.pushCallback`, `not_onStack_of_sound`: a push keeps the chains finite and apart where the
  object is on no stack, and only there.
* `destroyAll_eq`: the destructors of events with such chains free the callbacks on them.
* `chains_end_iff`: the runs in which all chains stay so.
-/

namespace VulcanDB.Seda.Chains

open Steps

/-! ### The code -/

/-- Why a call stops. -/
inductive Stop where
  /-- A pointer to a deleted object is used. -/
  | badPointer
  /-- `ASSERT((!next_cb_), "cannot push a callback twice")`. -/
  | pushedTwice
  /-- A loop or a recursion goes on after the steps for which it is followed. -/
  | running
  deriving DecidableEq

/-- The pointers of the events and of the callbacks; `nextCb` is `none` for what is deleted. -/
structure Objects (ε κ : Type) where
  compCb : ε → Option κ
  nextCb : κ → Option (Option κ)

/-- Objects that have just been constructed. -/
def Objects.new (ε κ : Type) : Objects ε κ := ⟨fun _ => none, fun _ => some none⟩

variable {ε κ : Type} [DecidableEq ε] [DecidableEq κ]

/-- `next_cb_` of an object. -/
def Objects.read (o : Objects ε κ) (cb : κ) : Except Stop (Option κ) :=
  match o.nextCb cb with
  | none => .error .badPointer
  | some next => .ok next

/-- `next_cb_` of a callback. -/
def Objects.setNext (o : Objects ε κ) (cb : κ) (next : Option κ) : Objects ε κ :=
  { o with nextCb := Function.update o.nextCb cb (some next) }

/-- `comp_cb_` of an event. -/
def Objects.setTop (o : Objects ε κ) (ev : ε) (top : Option κ) : Objects ε κ :=
  { o with compCb := Function.update o.compCb ev top }

/-- A callback is deleted. -/
def Objects.free (o : Objects ε κ) (cb : κ) : Objects ε κ :=
  { o with nextCb := Function.update o.nextCb cb none }

/-- `CompletionCallback::push_callback`. -/
def CompletionCallback.pushCallback (o : Objects ε κ) (cb : κ) (next : Option κ) :
    Except Stop (Objects ε κ) := do
  require ((← o.read cb) = none) .pushedTwice
  return o.setNext cb next

/-- `StageEvent::push_callback`. -/
def StageEvent.pushCallback (o : Objects ε κ) (ev : ε) (cb : κ) : Except Stop (Objects ε κ) := do
  let o ← CompletionCallback.pushCallback o cb (o.compCb ev)
  return o.setTop ev (some cb)

/-- `CompletionCallback::pop_callback`: what is left of the stack. -/
def CompletionCallback.popCallback (o : Objects ε κ) (cb : κ) :
    Except Stop (Option κ × Objects ε κ) := do
  let retVal ← o.read cb
  return (retVal, o.setNext cb none)

/-- `delete`, with `CompletionCallback::~CompletionCallback`: what is freed, in this order. -/
def CompletionCallback.delete : ℕ → Objects ε κ → κ → Except Stop (Objects ε κ × List κ)
  | 0, _, _ => .error .running
  | fuel + 1, o, cb => do
    match ← o.read cb with
    | none => return (o.free cb, [cb])
    | some next =>
      let (o, freed) ← CompletionCallback.delete fuel o next
      return (o.free cb, freed ++ [cb])

/-- The loop of `StageEvent::~StageEvent`: what is freed, in this order. -/
def StageEvent.destroy : ℕ → Objects ε κ → ε → Except Stop (Objects ε κ × List κ)
  | 0, _, _ => .error .running
  | fuel + 1, o, ev =>
    match o.compCb ev with
    | none => .ok (o, [])
    | some top => do
      let (next, o) ← CompletionCallback.popCallback o top
      let (o, freed) ← CompletionCallback.delete fuel (o.setTop ev next) top
      let (o, rest) ← StageEvent.destroy fuel o ev
      return (o, freed ++ rest)

/-- Callbacks are pushed on events, one after the other. -/
def pushes (o : Objects ε κ) (ops : List (ε × κ)) : Except Stop (Objects ε κ) :=
  ops.foldlM (fun o op => StageEvent.pushCallback o op.1 op.2) o

/-- Events are destroyed, one after the other. -/
def destroyAll (fuel : ℕ) : Objects ε κ → List ε → Except Stop (Objects ε κ × List κ)
  | o, [] => .ok (o, [])
  | o, ev :: evs => do
    let (o, freed) ← StageEvent.destroy fuel o ev
    let (o, rest) ← destroyAll fuel o evs
    return (o, freed ++ rest)

/-! ### Stacks -/

/-- The stack of the event ends, and these are the callbacks on it. -/
def Objects.Stack (o : Objects ε κ) (ev : ε) (l : List κ) : Prop := Chain o.nextCb (o.compCb ev) l

/-- The callback is on the stack of the event. -/
def Objects.OnStack (o : Objects ε κ) (ev : ε) (cb : κ) : Prop := ∃ l, o.Stack ev l ∧ cb ∈ l

/-- Every stack ends, and no callback is on two. -/
structure Sound (o : Objects ε κ) : Prop where
  ends : ∀ ev, ∃ l, o.Stack ev l
  apart : ∀ ev ev' cb, o.OnStack ev cb → o.OnStack ev' cb → ev = ev'

/-- The destructors of any events, in any order, end and free each callback on their stacks once. -/
def FreesOnce (o : Objects ε κ) : Prop := ∀ evs : List ε, evs.Nodup →
  ∃ fuel o' freed, destroyAll fuel o evs = .ok (o', freed) ∧ freed.Nodup ∧
    ∀ cb, cb ∈ freed ↔ ∃ ev ∈ evs, o.OnStack ev cb

section Stacks

omit [DecidableEq ε] [DecidableEq κ]

variable {o : Objects ε κ} {ev : ε} {cb : κ} {l l' : List κ}

/-- An event has one stack. -/
theorem Objects.Stack.unique (h : o.Stack ev l) (h' : o.Stack ev l') : l = l' := Chain.unique h h'

theorem Objects.Stack.onStack (h : o.Stack ev l) : o.OnStack ev cb ↔ cb ∈ l := by
  refine ⟨fun ⟨l', h', hcb⟩ => ?_, fun hcb => ⟨l, h, hcb⟩⟩
  rwa [h.unique h']

/-- Without pushes every stack is empty. -/
theorem sound_new : Sound (Objects.new ε κ) := by
  refine ⟨fun ev => ⟨[], rfl⟩, fun ev ev' cb ⟨l, hl, hcb⟩ _ => ?_⟩
  rw [Chain.nil_of_none hl] at hcb
  cases hcb

end Stacks

/-! ### Pushes -/

section Push

variable {o o' : Objects ε κ} {ev ev' : ε} {cb : κ} {l : List κ}

theorem pushCallback_eq_ok : StageEvent.pushCallback o ev cb = .ok o' ↔
    o.nextCb cb = some none ∧ (o.setNext cb (o.compCb ev)).setTop ev (some cb) = o' := by
  simp only [StageEvent.pushCallback, CompletionCallback.pushCallback, Objects.read, bind_eq_ok,
    require_eq_ok, pure_eq_ok]
  cases o.nextCb cb with
  | none => simp
  | some next => simp

/-- The links of the other callbacks stay. -/
theorem nextCb_pushed (hpush : StageEvent.pushCallback o ev cb = .ok o') :
    o'.nextCb cb = some (o.compCb ev) ∧ ∀ c, c ≠ cb → o'.nextCb c = o.nextCb c := by
  obtain ⟨-, rfl⟩ := pushCallback_eq_ok.mp hpush
  exact ⟨Function.update_self .., fun c hc => Function.update_of_ne hc ..⟩

theorem compCb_pushed (hpush : StageEvent.pushCallback o ev cb = .ok o') :
    o'.compCb ev = some cb ∧ ∀ ev', ev' ≠ ev → o'.compCb ev' = o.compCb ev' := by
  obtain ⟨-, rfl⟩ := pushCallback_eq_ok.mp hpush
  exact ⟨Function.update_self .., fun e he => Function.update_of_ne he ..⟩

/-- What leads through other callbacks leads through them after the push, and did before. -/
theorem chain_pushed (hpush : StageEvent.pushCallback o ev cb = .ok o') {p : Option κ}
    (hcb : cb ∉ l) : Chain o'.nextCb p l ↔ Chain o.nextCb p l := by
  have hsame : ∀ c ∈ l, o'.nextCb c = o.nextCb c := fun c hc =>
    (nextCb_pushed hpush).2 c (ne_of_mem_of_not_mem hc hcb)
  exact ⟨fun h => h.congr fun c hc => (hsame c hc).symm, fun h => h.congr hsame⟩

theorem stack_pushed_of_ne (hpush : StageEvent.pushCallback o ev cb = .ok o') (hne : ev' ≠ ev)
    (hcb : cb ∉ l) : o'.Stack ev' l ↔ o.Stack ev' l := by
  rw [Objects.Stack, Objects.Stack, (compCb_pushed hpush).2 ev' hne]
  exact chain_pushed hpush hcb

/-- The callback is at the top of the stack on which it was pushed. -/
theorem stack_pushed (hpush : StageEvent.pushCallback o ev cb = .ok o') (hcb : cb ∉ l) :
    o'.Stack ev (cb :: l) ↔ o.Stack ev l := by
  rw [Objects.Stack, Objects.Stack, (compCb_pushed hpush).1, ← chain_pushed hpush hcb]
  constructor
  · rintro ⟨-, q, hq, hl⟩
    rw [(nextCb_pushed hpush).1] at hq
    rwa [Option.some.inj hq]
  · exact Chain.cons (nextCb_pushed hpush).1

/-- **A push of a callback on no stack** keeps the stacks finite and apart. -/
theorem Sound.pushCallback (h : Sound o) (hpush : StageEvent.pushCallback o ev cb = .ok o')
    (hfree : ∀ ev', ¬ o.OnStack ev' cb) : Sound o' := by
  have hstack : ∀ ev', ∃ l, o.Stack ev' l ∧ cb ∉ l := fun ev' => by
    obtain ⟨l, hl⟩ := h.ends ev'
    exact ⟨l, hl, mt hl.onStack.mpr (hfree ev')⟩
  obtain ⟨top, htop, hcb⟩ := hstack ev
  -- what is on a stack was on it, but for the callback itself
  have hon : ∀ ev' c, o'.OnStack ev' c → ev' = ev ∧ c = cb ∨ o.OnStack ev' c ∧ c ≠ cb := by
    intro ev' c hc
    by_cases hev : ev' = ev
    · subst hev
      rw [((stack_pushed hpush hcb).mpr htop).onStack, List.mem_cons] at hc
      refine hc.imp (fun hc => ⟨rfl, hc⟩) fun hc => ⟨⟨top, htop, hc⟩, ?_⟩
      exact ne_of_mem_of_not_mem hc hcb
    · obtain ⟨l, hl, hnot⟩ := hstack ev'
      rw [((stack_pushed_of_ne hpush hev hnot).mpr hl).onStack] at hc
      exact .inr ⟨⟨l, hl, hc⟩, ne_of_mem_of_not_mem hc hnot⟩
  refine ⟨fun ev' => ?_, fun ev₁ ev₂ c h₁ h₂ => ?_⟩
  · by_cases hev : ev' = ev
    · subst hev
      exact ⟨_, (stack_pushed hpush hcb).mpr htop⟩
    · obtain ⟨l, hl, hnot⟩ := hstack ev'
      exact ⟨l, (stack_pushed_of_ne hpush hev hnot).mpr hl⟩
  · rcases hon ev₁ c h₁ with ⟨he₁, hc₁⟩ | ⟨hold₁, hne₁⟩
    · rcases hon ev₂ c h₂ with ⟨he₂, -⟩ | ⟨-, hne₂⟩
      · rw [he₁, he₂]
      · exact absurd hc₁ hne₂
    · rcases hon ev₂ c h₂ with ⟨-, hc₂⟩ | ⟨hold₂, -⟩
      · exact absurd hc₂ hne₁
      · exact h.apart ev₁ ev₂ c hold₁ hold₂

/-- **The callback was on no stack** if the stacks are finite and apart after the push. -/
theorem not_onStack_of_sound (h : Sound o') (hpush : StageEvent.pushCallback o ev cb = .ok o')
    (ev' : ε) : ¬ o.OnStack ev' cb := by
  obtain ⟨l, hl⟩ := h.ends ev
  have hchain : Chain o'.nextCb (some cb) l := by
    rw [← (compCb_pushed hpush).1]
    exact hl
  obtain ⟨q, top, rfl, -, -⟩ := hchain.of_some
  have hcb : cb ∉ top := (List.nodup_cons.mp (Chain.nodup hl)).1
  by_cases hev : ev' = ev
  · subst hev
    rwa [((stack_pushed hpush hcb).mp hl).onStack]
  · obtain ⟨l', hl'⟩ := h.ends ev'
    have hnot : cb ∉ l' := fun hin =>
      hev (h.apart ev' ev cb ⟨l', hl', hin⟩ ⟨_, hl, List.mem_cons_self⟩)
    rwa [((stack_pushed_of_ne hpush hev hnot).mp hl').onStack]

end Push

/-! ### Destructors -/

section Destroy

variable {o o' : Objects ε κ} {ev : ε} {l : List κ}

/-- The objects after an event with these callbacks has been destroyed. -/
def Objects.without (o : Objects ε κ) (ev : ε) (l : List κ) : Objects ε κ where
  compCb := Function.update o.compCb ev none
  nextCb c := if c ∈ l then none else o.nextCb c

omit [DecidableEq ε] in
/-- A callback that has been popped is freed alone. -/
theorem delete_popped {cb : κ} (h : o.nextCb cb = some none) (fuel : ℕ) :
    CompletionCallback.delete (fuel + 1) o cb = .ok (o.free cb, [cb]) := by
  rw [CompletionCallback.delete, Objects.read, h]
  rfl

/-- One turn of the loop of the destructor. -/
theorem destroy_cons {cb : κ} {next : Option κ} (htop : o.compCb ev = some cb)
    (hnext : o.nextCb cb = some next) (fuel : ℕ) :
    StageEvent.destroy (fuel + 2) o ev = (do
      let (o, rest) ← StageEvent.destroy (fuel + 1) ((o.setTop ev next).free cb) ev
      return (o, cb :: rest)) := by
  have hpop : CompletionCallback.popCallback o cb = .ok (next, o.setNext cb none) := by
    rw [CompletionCallback.popCallback, Objects.read, hnext]
    rfl
  have hnone : ((o.setNext cb none).setTop ev next).nextCb cb = some none := Function.update_self ..
  have hdelete := delete_popped hnone fuel
  have hfree : ((o.setNext cb none).setTop ev next).free cb = (o.setTop ev next).free cb := by
    simp [Objects.free, Objects.setTop, Objects.setNext]
  rw [StageEvent.destroy, htop]
  simp only [hpop, bind, Except.bind, hdelete, hfree, List.singleton_append]

theorem without_nil (h : o.compCb ev = none) : o.without ev [] = o := by
  have hcomp : Function.update o.compCb ev none = o.compCb := by
    rw [← h, Function.update_eq_self]
  simp [Objects.without, hcomp]

theorem without_cons (o : Objects ε κ) (ev : ε) (cb : κ) (next : Option κ) (l : List κ) :
    ((o.setTop ev next).free cb).without ev l = o.without ev (cb :: l) := by
  have hnext : ∀ c, (if c ∈ l then none else Function.update o.nextCb cb none c) =
      if c ∈ cb :: l then none else o.nextCb c := by
    intro c
    by_cases hc : c = cb
    · simp [hc]
    · simp [hc]
  simp only [Objects.without, Objects.free, Objects.setTop, Function.update_idem]
  congr 1
  funext c
  exact hnext c

/-- **The destructor of an event** frees the callbacks on its stack, from the top. -/
theorem destroy_eq {fuel : ℕ} (h : o.Stack ev l) (hfuel : l.length < fuel) :
    StageEvent.destroy fuel o ev = .ok (o.without ev l, l) := by
  induction l generalizing o fuel with
  | nil =>
      obtain ⟨fuel, rfl⟩ := Nat.exists_eq_add_of_lt hfuel
      have htop : o.compCb ev = none := h
      rw [StageEvent.destroy, htop, without_nil htop]
  | cons cb l ih =>
      have hcb := (List.nodup_cons.mp (Chain.nodup h)).1
      obtain ⟨htop, q, hq, hl⟩ := h
      obtain ⟨fuel, rfl⟩ : ∃ f, fuel = f + 2 := Nat.exists_eq_add_of_le' (by
        rw [List.length_cons] at hfuel
        omega)
      have hstack : ((o.setTop ev q).free cb).Stack ev l := by
        have hnow : ((o.setTop ev q).free cb).compCb ev = q := Function.update_self ..
        rw [Objects.Stack, hnow]
        exact Chain.congr hl fun c hc => Function.update_of_ne (ne_of_mem_of_not_mem hc hcb) ..
      have hlen : l.length < fuel + 1 := by
        rw [List.length_cons] at hfuel
        omega
      have hrest := ih hstack hlen
      rw [destroy_cons htop hq, hrest, without_cons]
      rfl

/-- The stacks of other events stay. -/
theorem stack_without {ev' : ε} {l' : List κ} (hne : ev' ≠ ev) (h : o.Stack ev' l')
    (hapart : ∀ c ∈ l', c ∉ l) : (o.without ev l).Stack ev' l' := by
  have hsame : (o.without ev l).compCb ev' = o.compCb ev' := Function.update_of_ne hne ..
  rw [Objects.Stack, hsame]
  exact Chain.congr h fun c hc => if_neg (hapart c hc)

/-- **The destructors of events** whose stacks are finite and apart free what is on them. -/
theorem destroyAll_eq {stack : ε → List κ} {fuel : ℕ} {evs : List ε} (hevs : evs.Nodup)
    (hstack : ∀ ev ∈ evs, o.Stack ev (stack ev)) (hfuel : ∀ ev ∈ evs, (stack ev).length < fuel)
    (hapart : evs.Pairwise fun ev ev' => (stack ev).Disjoint (stack ev')) :
    ∃ o', destroyAll fuel o evs = .ok (o', evs.flatMap stack) := by
  induction evs generalizing o with
  | nil => exact ⟨o, rfl⟩
  | cons ev evs ih =>
      obtain ⟨hev, hevs⟩ := List.nodup_cons.mp hevs
      obtain ⟨hone, hstack⟩ := List.forall_mem_cons.mp hstack
      obtain ⟨hlen, hfuel⟩ := List.forall_mem_cons.mp hfuel
      obtain ⟨hfirst, hapart⟩ := List.pairwise_cons.mp hapart
      have hothers : ∀ ev' ∈ evs, (o.without ev (stack ev)).Stack ev' (stack ev') := by
        intro ev' hin
        refine stack_without (ne_of_mem_of_not_mem hin hev) (hstack ev' hin) fun c hc hc' => ?_
        exact hfirst ev' hin hc' hc
      obtain ⟨o', ho'⟩ := ih hevs hothers hfuel hapart
      refine ⟨o', ?_⟩
      rw [destroyAll, destroy_eq hone hlen]
      simp only [bind, Except.bind, ho', List.flatMap_cons]
      rfl

/-- **A sound stack** is freed once. -/
theorem Sound.freesOnce (h : Sound o) : FreesOnce o := by
  intro evs hevs
  choose stack hstack using h.ends
  have hapart : ∀ ev ev', ev ≠ ev' → (stack ev).Disjoint (stack ev') :=
    fun ev ev' hne cb hcb hcb' =>
      hne (h.apart ev ev' cb ⟨_, hstack ev, hcb⟩ ⟨_, hstack ev', hcb'⟩)
  have hpairs : evs.Pairwise fun ev ev' => (stack ev).Disjoint (stack ev') :=
    hevs.imp fun hne => hapart _ _ hne
  have hfuel : ∀ ev ∈ evs, (stack ev).length < (evs.map fun ev => (stack ev).length).sum + 1 :=
    fun ev hev => Nat.lt_succ_of_le (List.single_le_sum (by simp) _ (List.mem_map_of_mem hev))
  obtain ⟨o', ho'⟩ := destroyAll_eq hevs (fun ev _ => hstack ev) hfuel hpairs
  refine ⟨_, o', _, ho', List.nodup_flatMap.mpr ⟨fun ev _ => Chain.nodup (hstack ev), hpairs⟩, ?_⟩
  intro cb
  rw [List.mem_flatMap]
  exact exists_congr fun ev => and_congr_right fun _ => (hstack ev).onStack.symm

end Destroy

/-! ### Runs -/

theorem pushes_snoc {o o₁ o₂ : Objects ε κ} {done : List (ε × κ)} {ev : ε} {cb : κ}
    (hdone : pushes o done = .ok o₁) (hpush : StageEvent.pushCallback o₁ ev cb = .ok o₂) :
    pushes o (done ++ [(ev, cb)]) = .ok o₂ := by
  rw [pushes] at hdone ⊢
  rw [List.foldlM_append, hdone]
  simp only [bind, Except.bind, List.foldlM_cons, List.foldlM_nil, hpush]
  rfl

/-- What is on a stack has been pushed. -/
theorem mem_of_onStack {o : Objects ε κ} {ops : List (ε × κ)} (hrun : pushes (.new ε κ) ops = .ok o)
    {ev : ε} {cb : κ} (h : o.OnStack ev cb) : cb ∈ ops.map (·.2) := by
  have hlinks : (∀ ev c, o.compCb ev = some c → c ∈ ops.map (·.2)) ∧
      ∀ c d, o.nextCb c = some (some d) → d ∈ ops.map (·.2) := by
    refine foldlM_invariant (P := fun ops o => (∀ ev c, o.compCb ev = some c → c ∈ ops.map (·.2)) ∧
      ∀ c d, o.nextCb c = some (some d) → d ∈ ops.map (·.2)) hrun
      ⟨fun _ _ h => (nomatch h), fun _ _ h => (nomatch h)⟩ ?_
    rintro done ⟨ev, cb⟩ rest s t - ⟨htop, hnext⟩ hpush
    have hcomp := compCb_pushed hpush
    have hlink := nextCb_pushed hpush
    rw [List.map_append, List.map_singleton]
    refine ⟨fun ev' c hc => ?_, fun c d hd => ?_⟩
    · by_cases hev : ev' = ev
      · rw [hev, hcomp.1] at hc
        rw [← Option.some.inj hc]
        exact List.mem_append_right _ (List.mem_singleton_self _)
      · rw [hcomp.2 ev' hev] at hc
        exact List.mem_append_left _ (htop ev' c hc)
    · by_cases hc : c = cb
      · -- the link of the callback leads to what was the top
        rw [hc, hlink.1] at hd
        exact List.mem_append_left _ (htop ev d (Option.some.inj hd))
      · rw [hlink.2 c hc] at hd
        exact List.mem_append_left _ (hnext c d hd)
  obtain ⟨l, hl, hcb⟩ := h
  exact Chain.forall_mem hl (hlinks.1 ev) hlinks.2 cb hcb

/-- The stacks are finite and apart in every state of the run, and the destructors free each callback
on them once. -/
def AlwaysSound (ops : List (ε × κ)) : Prop := ∀ done rest o, ops = done ++ rest →
  pushes (.new ε κ) done = .ok o → Sound o ∧ FreesOnce o

/-- No callback is pushed while it is on a stack. -/
def NeverOnStack (ops : List (ε × κ)) : Prop := ∀ done ev cb rest o,
  ops = done ++ (ev, cb) :: rest → pushes (.new ε κ) done = .ok o → ∀ ev', ¬ o.OnStack ev' cb

/-- Where every callback is pushed once, none is pushed while it is on a stack. -/
theorem neverOnStack_of_nodup {ops : List (ε × κ)} (h : (ops.map (·.2)).Nodup) :
    NeverOnStack ops := by
  intro done ev cb rest o heq hdone ev' hon
  rw [heq, List.map_append, List.map_cons, List.nodup_middle] at h
  exact (List.nodup_cons.mp h).1 (List.mem_append_left _ (mem_of_onStack hdone hon))

/-- **Main result.**  In a run of pushes that pass the assertion the stacks stay finite and apart if
and only if no callback is pushed while it is on a stack. -/
theorem chains_end_iff {ops : List (ε × κ)} {o : Objects ε κ}
    (hrun : pushes (.new ε κ) ops = .ok o) : AlwaysSound ops ↔ NeverOnStack ops := by
  constructor
  · intro h done ev cb rest o' heq hdone
    -- the state after the push is one that the run reaches
    rw [heq, pushes, List.foldlM_append, bind_eq_ok] at hrun
    obtain ⟨o₁, ho₁, hrest⟩ := hrun
    obtain rfl := Except.ok.inj (hdone.symm.trans ho₁)
    rw [List.foldlM_cons, bind_eq_ok] at hrest
    obtain ⟨o₂, hpush, -⟩ := hrest
    have hafter := pushes_snoc hdone hpush
    have hsound := (h (done ++ [(ev, cb)]) rest o₂ (by rw [heq, List.append_assoc]; rfl) hafter).1
    exact not_onStack_of_sound hsound hpush
  · intro h done rest o' heq hdone
    have hsound : Sound o' := by
      refine (foldlM_invariant (P := fun done o => pushes (.new ε κ) done = .ok o ∧ Sound o) hdone
        ⟨rfl, sound_new⟩ ?_).2
      rintro before ⟨ev, cb⟩ after s t rfl ⟨hs, hsound⟩ hpush
      have hfree := h before ev cb (after ++ rest) s (by rw [heq, List.append_assoc]; rfl) hs
      exact ⟨pushes_snoc hs hpush, hsound.pushCallback hpush hfree⟩
    exact ⟨hsound, hsound.freesOnce⟩

/-- Three callbacks on two events. -/
def threePushes : List (ℕ × ℕ) := [(0, 0), (1, 1), (0, 2)]

/-- The stacks of different callbacks stay finite and apart. -/
theorem chains_end_three : AlwaysSound threePushes := by
  obtain ⟨o, ho⟩ : ∃ o, pushes (.new ℕ ℕ) threePushes = .ok o := ⟨_, rfl⟩
  have hdifferent : (threePushes.map (·.2)).Nodup := by decide
  exact (chains_end_iff ho).mpr (neverOnStack_of_nodup hdifferent)

/-- They do not where a callback is pushed again on the event whose stack it ends, or on another:
the first stack does not end, and its destructor uses a deleted callback. -/
theorem chains_not_always_end :
    (∃ o, pushes (.new ℕ ℕ) [(0, 0), (0, 0)] = .ok o ∧ ¬ Sound o ∧
      StageEvent.destroy 3 o 0 = .error .badPointer) ∧
    ∃ o, pushes (.new ℕ ℕ) [(0, 0), (1, 0)] = .ok o ∧ ¬ Sound o := by
  let once : Objects ℕ ℕ := ((Objects.new ℕ ℕ).setNext 0 none).setTop 0 (some 0)
  have hon : once.OnStack 0 0 := ⟨[0], ⟨rfl, none, rfl, rfl⟩, List.mem_singleton_self 0⟩
  have htwice : ∀ ev o, StageEvent.pushCallback once ev 0 = .ok o → ¬ Sound o :=
    fun ev o hpush h => not_onStack_of_sound h hpush 0 hon
  exact ⟨⟨_, rfl, htwice 0 _ rfl, rfl⟩, ⟨_, rfl, htwice 1 _ rfl⟩⟩

end VulcanDB.Seda.Chains
