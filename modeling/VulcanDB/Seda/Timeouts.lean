import VulcanDB.Library.Numbers
import VulcanDB.Library.Steps

/-!
# SEDA — Timeouts

The `TimeoutInfo`s that `StageEvent`s share by counting references.  `set_timeout_info` detaches
from the old one before it attaches to the new one, so an event that is set to its own timeout info
may delete it in between.

A deleted object stays in the list, so that a use of it can be seen.  A run ends where a deleted
object is used, or where a count of references overflows.

* `detach_exact`, `attach_exact`: what counting does to counts that are exact.
* `timeouts_exact`: the counts in every run, and the calls that use a deleted object.
-/

namespace VulcanDB.Seda.Timeouts

open Steps
open Cxx (INT_MAX)

/-- A deadline that events share. -/
structure TimeoutInfo where
  deadline : Int
  isTimedOut : Bool
  refCnt : Int
  deleted : Bool
  deriving DecidableEq

/-- A new one, which nobody holds. -/
def TimeoutInfo.new (deadline : Int) : TimeoutInfo := ⟨deadline, false, 0, false⟩

/-- An event, live or destroyed, and its `tm_info_`. -/
structure StageEvent where
  live : Bool
  tmInfo : Option ℕ
  deriving DecidableEq

/-- The events and the deadlines. -/
structure Sys where
  events : List StageEvent
  infos : List TimeoutInfo
  deriving DecidableEq

/-- Nothing was made. -/
def Sys.new : Sys := ⟨[], []⟩

/-- Why a step is not made: there is no such event, or it is a fault. -/
inductive Stop where
  | noEvent
  | usedDeleted
  | overflow
  deriving DecidableEq

/-- The calls. -/
inductive Action where
  | newEvent
  | setDeadline (ev : ℕ) (deadline : Int)
  | setShared (ev other : ℕ)
  | destroy (ev : ℕ)
  | hasTimedOut (ev : ℕ) (now : Int)

/-! ### The code -/

/-- The object behind a pointer. -/
def deref (infos : List TimeoutInfo) (i : ℕ) : Except Stop TimeoutInfo :=
  match infos[i]? with
  | none => .error .usedDeleted
  | some info => if info.deleted then .error .usedDeleted else .ok info

/-- `TimeoutInfo::attach`. -/
def attach (infos : List TimeoutInfo) (i : ℕ) : Except Stop (List TimeoutInfo) := do
  let info ← deref infos i
  require (info.refCnt < INT_MAX) .overflow
  return infos.set i { info with refCnt := info.refCnt + 1 }

/-- `TimeoutInfo::detach`. -/
def detach (infos : List TimeoutInfo) (i : ℕ) : Except Stop (List TimeoutInfo) := do
  let info ← deref infos i
  let refCnt := info.refCnt - 1
  return infos.set i { info with refCnt := refCnt, deleted := decide (refCnt = 0) }

/-- `TimeoutInfo::has_timed_out`, at this time of day. -/
def hasTimedOut (infos : List TimeoutInfo) (i : ℕ) (now : Int) :
    Except Stop (List TimeoutInfo) := do
  let info ← deref infos i
  return infos.set i { info with isTimedOut := info.isTimedOut || decide (info.deadline ≤ now) }

/-- What is done to `tm_info_` when there is one. -/
def ifSet (tmInfo : Option ℕ) (f : List TimeoutInfo → ℕ → Except Stop (List TimeoutInfo))
    (infos : List TimeoutInfo) : Except Stop (List TimeoutInfo) :=
  match tmInfo with
  | none => .ok infos
  | some i => f infos i

/-- An event that is alive. -/
def Sys.event (s : Sys) (ev : ℕ) : Except Stop StageEvent :=
  match s.events[ev]? with
  | none => .error .noEvent
  | some e => if e.live then .ok e else .error .noEvent

/-- `StageEvent::set_timeout_info(TimeoutInfo *)`. -/
def setTimeoutInfo (s : Sys) (ev : ℕ) (tmi : Option ℕ) : Except Stop Sys := do
  let e ← s.event ev
  let infos ← ifSet e.tmInfo detach s.infos
  let infos ← ifSet tmi attach infos
  return ⟨s.events.set ev { e with tmInfo := tmi }, infos⟩

/-- A call. -/
def step (s : Sys) : Action → Except Stop Sys
  | .newEvent => .ok { s with events := s.events ++ [⟨true, none⟩] }
  | .setDeadline ev deadline =>
    setTimeoutInfo { s with infos := s.infos ++ [.new deadline] } ev (some s.infos.length)
  | .setShared ev other => do
    let o ← s.event other
    setTimeoutInfo s ev o.tmInfo
  | .destroy ev => do
    let e ← s.event ev
    let infos ← ifSet e.tmInfo detach s.infos
    return ⟨s.events.set ev ⟨false, none⟩, infos⟩
  | .hasTimedOut ev now => do
    let e ← s.event ev
    let infos ← ifSet e.tmInfo (hasTimedOut · · now) s.infos
    return { s with infos := infos }

/-- The machine of these calls. -/
def machine : Machine Sys Action Stop Unit := ⟨step, fun _ _ => []⟩

/-! ### Counting -/

/-- One for the object that a `tm_info_` points to. -/
def one (tmInfo : Option ℕ) (i : ℕ) : ℕ := if tmInfo = some i then 1 else 0

@[simp] theorem one_none (i : ℕ) : one none i = 0 := if_neg (by simp)

@[simp] theorem one_self (i : ℕ) : one (some i) i = 1 := if_pos rfl

theorem one_of_ne {i j : ℕ} (h : j ≠ i) : one (some i) j = 0 := if_neg (by simpa using h.symm)

theorem one_eq_zero {tmInfo : Option ℕ} {i : ℕ} : one tmInfo i = 0 ↔ tmInfo ≠ some i := by
  unfold one
  split <;> simp_all

/-- What an event counts for a deadline. -/
def points (i : ℕ) (e : StageEvent) : ℕ := if e.live then one e.tmInfo i else 0

/-- The number of live events whose `tm_info_` points to `i`. -/
def holders (s : Sys) (i : ℕ) : ℕ := tally (points i) s.events

/-- The counts are these numbers, and an object is deleted when its number is 0. -/
def Exact (infos : List TimeoutInfo) (n : ℕ → ℕ) : Prop :=
  ∀ i, match infos[i]? with
    | none => n i = 0
    | some info => info.refCnt = (n i : Int) ∧ n i ≤ INT_MAX ∧ (info.deleted = true ↔ n i = 0)

/-- The count is the number of holders. -/
theorem Exact.get {infos : List TimeoutInfo} {n : ℕ → ℕ} (h : Exact infos n) {i : ℕ}
    {info : TimeoutInfo} (hi : infos[i]? = some info) :
    info.refCnt = (n i : Int) ∧ n i ≤ INT_MAX ∧ (info.deleted = true ↔ n i = 0) := by
  have := h i
  rwa [hi] at this

/-- An object that is pointed to is there. -/
theorem Exact.deref {infos : List TimeoutInfo} {n : ℕ → ℕ} (h : Exact infos n) {i : ℕ}
    (hn : n i ≠ 0) : ∃ info, infos[i]? = some info ∧ Timeouts.deref infos i = .ok info := by
  have hi := h i
  unfold Timeouts.deref
  cases e : infos[i]? with
  | none =>
      rw [e] at hi
      exact absurd hi hn
  | some info =>
      rw [e] at hi
      have hdel : info.deleted = false := by simpa using mt hi.2.2.mp hn
      exact ⟨info, rfl, by simp [hdel]⟩

/-- A deadline without holders is deleted. -/
theorem Exact.deref_error {infos : List TimeoutInfo} {n : ℕ → ℕ} (h : Exact infos n) {i : ℕ}
    (hn : n i = 0) : Timeouts.deref infos i = .error .usedDeleted := by
  have hi := h i
  unfold Timeouts.deref
  cases e : infos[i]? with
  | none => rfl
  | some info =>
      rw [e] at hi
      simp [hi.2.2.mpr hn]

/-- One object changed, with its number. -/
theorem Exact.set {infos : List TimeoutInfo} {n : ℕ → ℕ} (h : Exact infos n) {i : ℕ}
    {info info' : TimeoutInfo} (hi : infos[i]? = some info) {k : ℕ} (hcnt : info'.refCnt = k)
    (hmax : k ≤ INT_MAX) (hdel : info'.deleted = true ↔ k = 0) :
    Exact (infos.set i info') (Function.update n i k) := by
  intro j
  rcases eq_or_ne j i with rfl | hne
  · rw [List.getElem?_set_self (List.getElem?_eq_some_iff.mp hi).1, Function.update_self]
    exact ⟨hcnt, hmax, hdel⟩
  · rw [List.getElem?_set_ne hne.symm, Function.update_of_ne hne]
    exact h j

/-- **One holder less**, and no deadline behind the last. -/
theorem detach_exact {infos : List TimeoutInfo} {n : ℕ → ℕ} (h : Exact infos n) {i : ℕ}
    (hn : n i ≠ 0) : ∃ infos', detach infos i = .ok infos' ∧
      Exact infos' (Function.update n i (n i - 1)) := by
  obtain ⟨info, hi, hd⟩ := h.deref hn
  obtain ⟨hcnt, hmax, -⟩ := h.get hi
  refine ⟨_, by rw [detach, hd]; rfl, h.set hi ?_ (by omega) ?_⟩
  · simp only
    omega
  · simp only [decide_eq_true_iff]
    omega

/-- **One holder more**, up to `INT_MAX`. -/
theorem attach_exact {infos : List TimeoutInfo} {n : ℕ → ℕ} (h : Exact infos n) {i : ℕ}
    (hn : n i ≠ 0) (hmax : n i < INT_MAX) : ∃ infos', attach infos i = .ok infos' ∧
      Exact infos' (Function.update n i (n i + 1)) := by
  obtain ⟨info, hi, hd⟩ := h.deref hn
  obtain ⟨hcnt, -, hdel⟩ := h.get hi
  have hreq : require (info.refCnt < INT_MAX) Stop.overflow = .ok () :=
    if_pos (by omega)
  refine ⟨_, by rw [attach, hd]; simp only [bind, Except.bind, hreq]; rfl, h.set hi ?_ hmax ?_⟩
  · simp only
    omega
  · exact iff_of_false (by simpa using mt hdel.mp hn) (by omega)

/-- A new object is attached to. -/
theorem attach_new {infos : List TimeoutInfo} {n : ℕ → ℕ} (h : Exact infos n) (deadline : Int) :
    ∃ infos', attach (infos ++ [.new deadline]) infos.length = .ok infos' ∧
      Exact infos' (Function.update n infos.length 1) := by
  have hget : (infos ++ [TimeoutInfo.new deadline])[infos.length]? = some (.new deadline) := by
    simp
  refine ⟨_, by rw [attach, deref, hget]; rfl, fun j => ?_⟩
  rcases eq_or_ne j infos.length with rfl | hne
  · rw [List.getElem?_set_self (by simp), Function.update_self]
    exact ⟨rfl, by decide, by simp [TimeoutInfo.new]⟩
  · rw [List.getElem?_set_ne hne.symm, Function.update_of_ne hne]
    have := h j
    rcases Nat.lt_or_ge j infos.length with hlt | hge
    · rwa [List.getElem?_append_left hlt]
    · rw [List.getElem?_eq_none hge] at this
      rwa [List.getElem?_eq_none (by simp only [List.length_append, List.length_singleton]; omega)]

/-- A look at the time counts nothing. -/
theorem hasTimedOut_exact {infos : List TimeoutInfo} {n : ℕ → ℕ} (h : Exact infos n) {i : ℕ}
    (hn : n i ≠ 0) (now : Int) : ∃ infos', hasTimedOut infos i now = .ok infos' ∧
      Exact infos' n := by
  obtain ⟨info, hi, hd⟩ := h.deref hn
  obtain ⟨hcnt, hmax, hdel⟩ := h.get hi
  refine ⟨_, by rw [hasTimedOut, hd]; rfl, ?_⟩
  rw [← Function.update_eq_self i n]
  exact h.set hi hcnt hmax hdel

/-! ### Setting -/

/-- A count changes by one for one timeout info, and by nothing for the others. -/
theorem count_one (n : ℕ → ℕ) (i : ℕ) (f : ℕ → ℕ → ℕ) (hf : ∀ m, f m 0 = m) :
    (fun j => f (n j) (one (some i) j)) = Function.update n i (f (n i) 1) := by
  funext j
  rcases eq_or_ne j i with rfl | hne
  · rw [one_self, Function.update_self]
  · rw [one_of_ne hne, Function.update_of_ne hne, hf]

theorem ifSet_detach {infos : List TimeoutInfo} {n : ℕ → ℕ} (h : Exact infos n)
    {tmInfo : Option ℕ} (hn : ∀ i, tmInfo = some i → n i ≠ 0) :
    ∃ infos', ifSet tmInfo detach infos = .ok infos' ∧ Exact infos' fun i => n i - one tmInfo i := by
  cases tmInfo with
  | none => exact ⟨infos, rfl, by simpa using h⟩
  | some i =>
      obtain ⟨infos', heq, he⟩ := detach_exact h (hn i rfl)
      refine ⟨infos', heq, ?_⟩
      rwa [count_one n i (· - ·) Nat.sub_zero]

theorem ifSet_attach {infos : List TimeoutInfo} {n : ℕ → ℕ} (h : Exact infos n)
    {tmInfo : Option ℕ} (hn : ∀ i, tmInfo = some i → n i ≠ 0 ∧ n i < INT_MAX) :
    ∃ infos', ifSet tmInfo attach infos = .ok infos' ∧ Exact infos' fun i => n i + one tmInfo i := by
  cases tmInfo with
  | none => exact ⟨infos, rfl, by simpa using h⟩
  | some i =>
      obtain ⟨infos', heq, he⟩ := attach_exact h (hn i rfl).1 (hn i rfl).2
      refine ⟨infos', heq, ?_⟩
      rwa [count_one n i (· + ·) Nat.add_zero]

theorem detach_append {infos : List TimeoutInfo} {i : ℕ} (hi : i < infos.length)
    (new : TimeoutInfo) : detach (infos ++ [new]) i = (detach infos i).map (· ++ [new]) := by
  unfold detach deref
  rw [List.getElem?_append_left hi]
  cases infos[i]? with
  | none => rfl
  | some info =>
      cases hdel : info.deleted with
      | true => simp [bind, Except.bind, Except.map, hdel]
      | false =>
          simp [bind, Except.bind, Except.map, hdel, pure, Except.pure, List.set_append_left _ _ hi]

theorem detach_length {infos infos' : List TimeoutInfo} {i : ℕ} (h : detach infos i = .ok infos') :
    infos'.length = infos.length := by
  rw [detach, bind_eq_ok] at h
  obtain ⟨info, -, h⟩ := h
  obtain rfl := Except.ok.inj h
  exact List.length_set

/-- The release of an old timeout info, with a new object at the end. -/
theorem ifSet_detach_append {infos infos' : List TimeoutInfo} {tmInfo : Option ℕ}
    (h : ifSet tmInfo detach infos = .ok infos') (hi : ∀ i, tmInfo = some i → i < infos.length)
    (new : TimeoutInfo) : infos'.length = infos.length ∧
      ifSet tmInfo detach (infos ++ [new]) = .ok (infos' ++ [new]) := by
  cases tmInfo with
  | none =>
      obtain rfl := Except.ok.inj h
      exact ⟨rfl, rfl⟩
  | some i =>
      rw [ifSet] at h ⊢
      exact ⟨detach_length h, by rw [detach_append (hi i rfl), h]; rfl⟩

@[simp] theorem Sys.event_eq_ok {s : Sys} {ev : ℕ} {e : StageEvent} :
    s.event ev = .ok e ↔ s.events[ev]? = some e ∧ e.live = true := by
  unfold Sys.event
  cases s.events[ev]? with
  | none => simp
  | some e' =>
      by_cases he : e'.live = true
      · simp only [he, if_true, Except.ok.injEq, Option.some.injEq, iff_self_and]
        rintro rfl
        exact he
      · simp only [he, if_false, reduceCtorEq, Option.some.injEq, false_iff]
        rintro ⟨rfl, h⟩
        exact he h

theorem Sys.event_error {s : Sys} {ev : ℕ} {x : Stop} (h : s.event ev = .error x) :
    x = .noEvent := by
  unfold Sys.event at h
  split at h
  · exact (Except.error.inj h).symm
  · split at h
    · cases h
    · exact (Except.error.inj h).symm

theorem Sys.event_cases (s : Sys) (ev : ℕ) :
    s.event ev = .error .noEvent ∨ ∃ e, s.event ev = .ok e := by
  cases h : s.event ev with
  | error x => exact .inl (by rw [Sys.event_error h])
  | ok e => exact .inr ⟨e, rfl⟩

/-- Every count is the number of live events that point to the object. -/
def Counted (s : Sys) : Prop := Exact s.infos (holders s)

theorem Counted.lt_length {s : Sys} (h : Counted s) {i : ℕ} (hn : holders s i ≠ 0) :
    i < s.infos.length := by
  obtain ⟨info, hi, -⟩ := Exact.deref h hn
  exact (List.getElem?_eq_some_iff.mp hi).1

section Set

variable {s : Sys} {ev : ℕ} {e : StageEvent}

theorem one_le_holders (he : s.event ev = .ok e) (i : ℕ) : one e.tmInfo i ≤ holders s i := by
  obtain ⟨hget, hlive⟩ := Sys.event_eq_ok.mp he
  have := le_tally (f := points i) (List.mem_of_getElem? hget)
  rwa [points, if_pos hlive] at this

theorem holders_ne_zero (he : s.event ev = .ok e) {i : ℕ} (hi : e.tmInfo = some i) :
    holders s i ≠ 0 := by
  have := one_le_holders he i
  rw [hi, one_self] at this
  omega

/-- The holders, where one event changes. -/
theorem holders_set (he : s.event ev = .ok e) (e' : StageEvent) (infos : List TimeoutInfo) (i : ℕ) :
    holders ⟨s.events.set ev e', infos⟩ i = holders s i - one e.tmInfo i + points i e' := by
  obtain ⟨hget, hlive⟩ := Sys.event_eq_ok.mp he
  have hset := tally_set (points i) hget e'
  have hle := one_le_holders he i
  rw [points, if_pos hlive] at hset
  simp only [holders] at hle ⊢
  omega

/-- Another event points to `i` too. -/
theorem two_le_holders {ev' : ℕ} {e' : StageEvent} (he : s.event ev = .ok e)
    (he' : s.event ev' = .ok e') (hne : ev' ≠ ev) {i : ℕ} (hi : e.tmInfo = some i)
    (hi' : e'.tmInfo = some i) : 2 ≤ holders s i := by
  have hrest : Sys.event ⟨s.events.set ev ⟨false, none⟩, s.infos⟩ ev' = .ok e' := by
    obtain ⟨hget, hlive⟩ := Sys.event_eq_ok.mp he'
    exact Sys.event_eq_ok.mpr ⟨by rwa [List.getElem?_set_ne hne.symm], hlive⟩
  have hother := holders_ne_zero hrest hi'
  rw [holders_set he, hi, one_self, points, if_neg (by simp)] at hother
  omega

/-- `set_timeout_info` once the old timeout info is released. -/
theorem setTimeoutInfo_eq {infos : List TimeoutInfo} (he : s.event ev = .ok e)
    (hd : ifSet e.tmInfo detach s.infos = .ok infos) (tmi : Option ℕ) :
    setTimeoutInfo s ev tmi = (ifSet tmi attach infos).map
      fun infos => ⟨s.events.set ev { e with tmInfo := tmi }, infos⟩ := by
  rw [setTimeoutInfo, he]
  simp only [bind, Except.bind, hd]
  cases ifSet tmi attach infos <;> rfl

theorem Counted.detach (h : Counted s) (he : s.event ev = .ok e) :
    ∃ infos, ifSet e.tmInfo Timeouts.detach s.infos = .ok infos ∧
      Exact infos fun i => holders s i - one e.tmInfo i :=
  ifSet_detach h fun _ hi => holders_ne_zero he hi

/-- The new timeout info is still there, and can be counted once more. -/
theorem setTimeoutInfo_ok (h : Counted s) (he : s.event ev = .ok e) {tmi : Option ℕ}
    (hn : ∀ i, tmi = some i →
      holders s i - one e.tmInfo i ≠ 0 ∧ holders s i - one e.tmInfo i < INT_MAX) :
    ∃ t, setTimeoutInfo s ev tmi = .ok t ∧ Counted t := by
  obtain ⟨infos, hd, hexact⟩ := h.detach he
  obtain ⟨infos', ha, hexact'⟩ := ifSet_attach hexact hn
  refine ⟨_, by rw [setTimeoutInfo_eq he hd, ha]; rfl, ?_⟩
  have hlive := (Sys.event_eq_ok.mp he).2
  have hsame : holders ⟨s.events.set ev { e with tmInfo := tmi }, infos'⟩ =
      fun i => holders s i - one e.tmInfo i + one tmi i := by
    funext i
    rw [holders_set he, points, if_pos hlive]
  rw [Counted, hsame]
  exact hexact'

/-- The last holder shares its own deadline. -/
theorem setTimeoutInfo_usedDeleted (h : Counted s) (he : s.event ev = .ok e) {i : ℕ}
    (hn : holders s i - one e.tmInfo i = 0) :
    setTimeoutInfo s ev (some i) = .error .usedDeleted := by
  obtain ⟨infos, hd, hexact⟩ := h.detach he
  rw [setTimeoutInfo_eq he hd, ifSet, attach, hexact.deref_error hn]
  rfl

theorem setTimeoutInfo_overflow (h : Counted s) (he : s.event ev = .ok e) {i : ℕ}
    (hn : holders s i - one e.tmInfo i = INT_MAX) :
    setTimeoutInfo s ev (some i) = .error .overflow := by
  obtain ⟨infos, hd, hexact⟩ := h.detach he
  have hpos : holders s i - one e.tmInfo i ≠ 0 := by
    rw [hn]
    decide
  obtain ⟨info, hi, hderef⟩ := hexact.deref hpos
  have hcnt := (hexact.get hi).1
  have hreq : require (info.refCnt < INT_MAX) Stop.overflow = .error .overflow :=
    if_neg (by omega)
  rw [setTimeoutInfo_eq he hd, ifSet, attach, hderef]
  simp only [bind, Except.bind, hreq]
  rfl

end Set

/-! ### Steps -/

/-- An event is set to its own timeout info, which no other event shares. -/
def Loses (s : Sys) (a : Action) : Prop :=
  ∃ ev e i, a = .setShared ev ev ∧ s.event ev = .ok e ∧ e.tmInfo = some i ∧ holders s i = 1

/-- An event joins `INT_MAX` others. -/
def Overflows (s : Sys) (a : Action) : Prop :=
  ∃ ev other e o i, a = .setShared ev other ∧ s.event ev = .ok e ∧ s.event other = .ok o ∧
    o.tmInfo = some i ∧ e.tmInfo ≠ some i ∧ holders s i = INT_MAX

/-- What a step does when the counts are exact. -/
inductive Spec (s : Sys) (a : Action) : Except Stop Sys → Prop
  | noEvent : ¬ Loses s a → ¬ Overflows s a → Spec s a (.error .noEvent)
  | usedDeleted : Loses s a → ¬ Overflows s a → Spec s a (.error .usedDeleted)
  | overflow : ¬ Loses s a → Overflows s a → Spec s a (.error .overflow)
  | ok {t} : ¬ Loses s a → ¬ Overflows s a → Counted t → Spec s a (.ok t)

theorem not_loses {s : Sys} {a : Action} (h : ∀ ev other, a ≠ .setShared ev other) :
    ¬ Loses s a := by
  rintro ⟨ev, -, -, rfl, -⟩
  exact h _ _ rfl

theorem not_overflows {s : Sys} {a : Action} (h : ∀ ev other, a ≠ .setShared ev other) :
    ¬ Overflows s a := by
  rintro ⟨ev, other, -, -, -, rfl, -⟩
  exact h _ _ rfl

theorem newEvent_spec {s : Sys} (h : Counted s) : Spec s .newEvent (step s .newEvent) := by
  refine .ok (not_loses (by simp)) (not_overflows (by simp)) ?_
  have hsame : holders { s with events := s.events ++ [⟨true, none⟩] } = holders s := by
    funext i
    simp [holders, points]
  rw [Counted, hsame]
  exact h

theorem setDeadline_spec {s : Sys} (h : Counted s) (ev : ℕ) (deadline : Int) :
    Spec s (.setDeadline ev deadline) (step s (.setDeadline ev deadline)) := by
  have hl : ¬ Loses s (.setDeadline ev deadline) := not_loses (by simp)
  have ho : ¬ Overflows s (.setDeadline ev deadline) := not_overflows (by simp)
  rcases s.event_cases ev with he | ⟨e, he⟩
  · have hstop : step s (.setDeadline ev deadline) = .error .noEvent := by
      rw [step, setTimeoutInfo]
      exact bind_eq_error.mpr (.inl he)
    rw [hstop]
    exact .noEvent hl ho
  obtain ⟨infos, hd, hexact⟩ := h.detach he
  obtain ⟨hlen, hd'⟩ := ifSet_detach_append hd (fun i hi => h.lt_length (holders_ne_zero he hi))
    (.new deadline)
  obtain ⟨infos', ha, hexact'⟩ := attach_new hexact deadline
  rw [hlen] at ha hexact'
  have heq : step s (.setDeadline ev deadline) =
      .ok ⟨s.events.set ev { e with tmInfo := some s.infos.length }, infos'⟩ := by
    have hset := @setTimeoutInfo_eq { s with infos := s.infos ++ [.new deadline] } ev e _ he hd'
      (some s.infos.length)
    rw [step, hset, ifSet, ha]
    rfl
  rw [heq]
  refine .ok hl ho ?_
  have hnew : holders s s.infos.length = 0 := by
    by_contra hne
    exact lt_irrefl _ (h.lt_length hne)
  have hsame : holders ⟨s.events.set ev { e with tmInfo := some s.infos.length }, infos'⟩ =
      Function.update (fun i => holders s i - one e.tmInfo i) s.infos.length 1 := by
    funext i
    rw [holders_set he, points, if_pos (Sys.event_eq_ok.mp he).2]
    rcases eq_or_ne i s.infos.length with rfl | hne
    · rw [Function.update_self, one_self, hnew, Nat.zero_sub]
    · rw [Function.update_of_ne hne, one_of_ne hne, Nat.add_zero]
  rw [Counted, hsame]
  exact hexact'

theorem not_loses_of_none {s : Sys} {ev other : ℕ} (h : ∀ o i, s.event other = .ok o →
    o.tmInfo ≠ some i) : ¬ Loses s (.setShared ev other) := by
  rintro ⟨ev', e, i, heq, he, hi, -⟩
  obtain ⟨rfl, rfl⟩ := Action.setShared.inj heq
  exact h e i he hi

theorem not_overflows_of_none {s : Sys} {ev other : ℕ} (h : ∀ o i, s.event other = .ok o →
    o.tmInfo ≠ some i) : ¬ Overflows s (.setShared ev other) := by
  rintro ⟨ev', other', e, o, i, heq, -, ho, hi, -⟩
  obtain ⟨rfl, rfl⟩ := Action.setShared.inj heq
  exact h o i ho hi

section Shared

variable {s : Sys} {ev other : ℕ} {e o : StageEvent} {i : ℕ}

/-- What an event shares is lost when no count of it is left after the release. -/
theorem loses_iff (he : s.event ev = .ok e) (ho : s.event other = .ok o) (hi : o.tmInfo = some i) :
    Loses s (.setShared ev other) ↔ holders s i - one e.tmInfo i = 0 := by
  constructor
  · rintro ⟨ev', e', i', heq, he', hi', hone⟩
    obtain ⟨rfl, rfl⟩ := Action.setShared.inj heq
    obtain rfl := Except.ok.inj (he'.symm.trans he)
    obtain rfl := Except.ok.inj (he'.symm.trans ho)
    obtain rfl := Option.some.inj (hi'.symm.trans hi)
    rw [hone, hi', one_self]
  · intro hzero
    have hpos := holders_ne_zero ho hi
    have hei : e.tmInfo = some i := by
      by_contra hne
      rw [one_eq_zero.mpr hne] at hzero
      exact hpos hzero
    rw [hei, one_self] at hzero
    have hself : other = ev := by
      by_contra hne
      have := two_le_holders he ho hne hei hi
      omega
    rw [hself]
    exact ⟨ev, e, i, rfl, he, hei, by omega⟩

theorem overflows_iff (h : Counted s) (he : s.event ev = .ok e) (ho : s.event other = .ok o)
    (hi : o.tmInfo = some i) :
    Overflows s (.setShared ev other) ↔ holders s i - one e.tmInfo i = INT_MAX := by
  constructor
  · rintro ⟨ev', other', e', o', i', heq, he', ho', hi', hne, hmax⟩
    obtain ⟨rfl, rfl⟩ := Action.setShared.inj heq
    obtain rfl := Except.ok.inj (he'.symm.trans he)
    obtain rfl := Except.ok.inj (ho'.symm.trans ho)
    obtain rfl := Option.some.inj (hi'.symm.trans hi)
    rw [one_eq_zero.mpr hne, hmax, Nat.sub_zero]
  · intro hmax
    have hpos := holders_ne_zero ho hi
    obtain ⟨info, hget, -⟩ := Exact.deref h hpos
    have hle := (Exact.get h hget).2.1
    have hne : one e.tmInfo i = 0 := by omega
    exact ⟨ev, other, e, o, i, rfl, he, ho, hi, one_eq_zero.mp hne, by omega⟩

end Shared

/-- **A shared deadline**. -/
theorem setShared_spec {s : Sys} (h : Counted s) (ev other : ℕ) :
    Spec s (.setShared ev other) (step s (.setShared ev other)) := by
  rcases s.event_cases other with ho | ⟨o, ho⟩
  · have hnone : ∀ o i, s.event other = .ok o → o.tmInfo ≠ some i := by simp [ho]
    have hstop : step s (.setShared ev other) = .error .noEvent := bind_eq_error.mpr (.inl ho)
    rw [hstop]
    exact .noEvent (not_loses_of_none hnone) (not_overflows_of_none hnone)
  have hstep : step s (.setShared ev other) = setTimeoutInfo s ev o.tmInfo := by
    rw [step, ho]
    rfl
  rw [hstep]
  rcases s.event_cases ev with he | ⟨e, he⟩
  · have hstop : setTimeoutInfo s ev o.tmInfo = .error .noEvent := bind_eq_error.mpr (.inl he)
    rw [hstop]
    refine .noEvent ?_ ?_
    · rintro ⟨ev', e, i, heq, he', -⟩
      obtain ⟨rfl, rfl⟩ := Action.setShared.inj heq
      cases he.symm.trans he'
    · rintro ⟨ev', other', e, o, i, heq, he', -⟩
      obtain ⟨rfl, rfl⟩ := Action.setShared.inj heq
      cases he.symm.trans he'
  cases hi : o.tmInfo with
  | none =>
      have hnone : ∀ o' i, s.event other = .ok o' → o'.tmInfo ≠ some i := by
        rintro o' i ho'
        obtain rfl := Except.ok.inj (ho.symm.trans ho')
        simp [hi]
      obtain ⟨t, heq, ht⟩ := @setTimeoutInfo_ok s ev e h he none (by simp)
      rw [heq]
      exact .ok (not_loses_of_none hnone) (not_overflows_of_none hnone) ht
  | some i =>
      have hl := loses_iff he ho hi
      have hov := overflows_iff h he ho hi
      -- the event was the only holder, so the deadline is gone when it is attached
      by_cases hzero : holders s i - one e.tmInfo i = 0
      · rw [setTimeoutInfo_usedDeleted h he hzero]
        refine .usedDeleted (hl.mpr hzero) (mt hov.mp ?_)
        rw [hzero]
        decide
      -- one holder more than an `int` counts
      by_cases hmax : holders s i - one e.tmInfo i = INT_MAX
      · rw [setTimeoutInfo_overflow h he hmax]
        exact .overflow (mt hl.mp hzero) (hov.mpr hmax)
      obtain ⟨info, hget, -⟩ := Exact.deref h (holders_ne_zero ho hi)
      have hle := (Exact.get h hget).2.1
      obtain ⟨t, heq, ht⟩ := @setTimeoutInfo_ok s ev e h he (some i) (by
        intro j hj
        obtain rfl := Option.some.inj hj
        omega)
      rw [heq]
      exact .ok (mt hl.mp hzero) (mt hov.mp hmax) ht

theorem destroy_spec {s : Sys} (h : Counted s) (ev : ℕ) :
    Spec s (.destroy ev) (step s (.destroy ev)) := by
  have hl : ¬ Loses s (.destroy ev) := not_loses (by simp)
  have ho : ¬ Overflows s (.destroy ev) := not_overflows (by simp)
  rcases s.event_cases ev with he | ⟨e, he⟩
  · have hstop : step s (.destroy ev) = .error .noEvent := bind_eq_error.mpr (.inl he)
    rw [hstop]
    exact .noEvent hl ho
  obtain ⟨infos, hd, hexact⟩ := h.detach he
  have heq : step s (.destroy ev) = .ok ⟨s.events.set ev ⟨false, none⟩, infos⟩ := by
    rw [step, he]
    simp only [bind, Except.bind, hd]
    rfl
  rw [heq]
  refine .ok hl ho ?_
  have hsame : holders ⟨s.events.set ev ⟨false, none⟩, infos⟩ =
      fun i => holders s i - one e.tmInfo i := by
    funext i
    rw [holders_set he, points, if_neg (by simp), Nat.add_zero]
  rw [Counted, hsame]
  exact hexact

/-- A question, which the deadline remembers. -/
theorem hasTimedOut_spec {s : Sys} (h : Counted s) (ev : ℕ) (now : Int) :
    Spec s (.hasTimedOut ev now) (step s (.hasTimedOut ev now)) := by
  have hl : ¬ Loses s (.hasTimedOut ev now) := not_loses (by simp)
  have ho : ¬ Overflows s (.hasTimedOut ev now) := not_overflows (by simp)
  rcases s.event_cases ev with he | ⟨e, he⟩
  · have hstop : step s (.hasTimedOut ev now) = .error .noEvent := bind_eq_error.mpr (.inl he)
    rw [hstop]
    exact .noEvent hl ho
  have hsame : ∃ infos, ifSet e.tmInfo (hasTimedOut · · now) s.infos = .ok infos ∧
      Exact infos (holders s) := by
    cases hi : e.tmInfo with
    | none => exact ⟨s.infos, rfl, h⟩
    | some i => exact hasTimedOut_exact h (holders_ne_zero he hi) now
  obtain ⟨infos, ht, hexact⟩ := hsame
  have heq : step s (.hasTimedOut ev now) = .ok { s with infos := infos } := by
    rw [step, he]
    simp only [bind, Except.bind, ht]
    rfl
  rw [heq]
  exact .ok hl ho hexact

/-- **One call**. -/
theorem step_spec {s : Sys} (h : Counted s) (a : Action) : Spec s a (step s a) := by
  cases a with
  | newEvent => exact newEvent_spec h
  | setDeadline ev deadline => exact setDeadline_spec h ev deadline
  | setShared ev other => exact setShared_spec h ev other
  | destroy ev => exact destroy_spec h ev
  | hasTimedOut ev now => exact hasTimedOut_spec h ev now

/-! ### Runs -/

/-- **Every run**, by induction on it. -/
theorem run_counted {ls : List Unit} {s : Sys} (h : Run machine .new ls s) : Counted s := by
  refine h.invariant (P := fun _ s => Counted s) (fun i => rfl) fun _ s a t hs hstep => ?_
  have hspec := step_spec hs a
  rw [show step s a = .ok t from hstep] at hspec
  cases hspec with
  | ok _ _ ht => exact ht

/-- **Main result.**  In every run the counts of references are the numbers of the events that
share, and what no event shares any more is deleted.  The next call uses a deleted object exactly
when it sets an event to its own timeout info that no other event shares, and overflows a count
exactly when an event joins `INT_MAX` others. -/
theorem timeouts_exact {ls : List Unit} {s : Sys} (h : Run machine .new ls s) :
    (∀ i info, s.infos[i]? = some info →
      (info.deleted = true ↔ holders s i = 0) ∧
      (info.deleted = false → info.refCnt = (holders s i : Int))) ∧
    ∀ a, (step s a = .error .usedDeleted ↔ Loses s a) ∧
      (step s a = .error .overflow ↔ Overflows s a) := by
  have hc := run_counted h
  refine ⟨fun i info hi => ?_, fun a => ?_⟩
  · obtain ⟨hcnt, -, hdel⟩ := Exact.get hc hi
    exact ⟨hdel, fun _ => hcnt⟩
  · have hspec := step_spec hc a
    revert hspec
    generalize step s a = r
    intro hspec
    cases hspec <;> simp_all

/-- Two events that share, and one of them alone after the other has gone. -/
theorem timeouts_exact_shared :
    ∃ s, Run machine .new [] s ∧ (∀ i info, s.infos[i]? = some info →
      (info.deleted = true ↔ holders s i = 0) ∧
      (info.deleted = false → info.refCnt = (holders s i : Int))) ∧
    ∀ a, (step s a = .error .usedDeleted ↔ Loses s a) ∧
      (step s a = .error .overflow ↔ Overflows s a) := by
  have hrun : Run machine .new ([] ++ [])
      ⟨[⟨true, some 0⟩, ⟨false, none⟩], [⟨5, false, 1, false⟩]⟩ :=
    Run.exec [.newEvent, .newEvent, .setDeadline 0 5, .setShared 1 0, .destroy 1] .start rfl
  exact ⟨_, hrun, timeouts_exact hrun⟩

/-- An event is set to its own timeout info. -/
theorem not_timeouts_exact : ∃ ls s, Run machine .new ls s ∧
    step s (.setShared 0 0) = .error .usedDeleted := by
  have hrun : Run machine .new ([] ++ []) ⟨[⟨true, some 0⟩], [⟨5, false, 1, false⟩]⟩ :=
    Run.exec [.newEvent, .setDeadline 0 5] .start rfl
  exact ⟨_, _, hrun, rfl⟩

end VulcanDB.Seda.Timeouts
