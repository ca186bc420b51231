import Mathlib.Logic.Relation
import Mathlib.Tactic

/-!
# SEDA — The ledger of a stage

A stage seen from the outside: how many events it has queued, how many visits of a service thread
are on their way to it, and what its reference count says.  A visit is due, then scheduled, then
made, and holds an event from there until it is released.

* `Sound.step`: what every step of a ledger keeps.
* `sound_of_path`: it holds of every ledger a new stage can come to.
-/

namespace VulcanDB.Seda

/-- `starting`, `looping` and `waiting` count the calls of `connect` before and after their section,
and those of `disconnect` in their wait. -/
@[ext] structure Ledger where
  queued : ℕ
  connected : Bool
  ref : Int
  pool : Bool
  due : ℕ
  scheduled : ℕ
  popped : ℕ
  held : ℕ
  starting : ℕ
  looping : ℕ
  waiting : ℕ

namespace Ledger

/-- A stage that was just made. -/
def new : Ledger := ⟨0, false, 0, false, 0, 0, 0, 0, 0, 0, 0⟩

/-- The calls that change the connection. -/
def controllers (l : Ledger) : ℕ := l.starting + l.looping + l.waiting

/-- What happens to a stage. -/
inductive Step : Ledger → Ledger → Prop
  | setPool {l} (hc : l.connected = false) : Step l { l with pool := true }
  | connect {l} (h : l.controllers = 0) (hc : l.connected = false) (hp : l.pool = true) :
      Step l { l with starting := l.starting + 1 }
  | refused {l n} (h : l.starting = n + 1) : Step l { l with starting := n }
  | connected {l n} {k : ℕ} (h : l.starting = n + 1) (hk : k ≤ l.queued) :
      Step l { l with starting := n, looping := l.looping + 1, connected := true, ref := (k : Int),
                      due := l.due + k }
  | looped {l n} (h : l.looping = n + 1) : Step l { l with looping := n }
  | add {l} (hc : l.connected = true) :
      Step l { l with queued := l.queued + 1, ref := l.ref + 1, due := l.due + 1 }
  | store {l} (hc : l.connected = false) : Step l { l with queued := l.queued + 1 }
  | schedule {l n} (h : l.due = n + 1) : Step l { l with due := n, scheduled := l.scheduled + 1 }
  | pop {l n} (h : l.scheduled = n + 1) : Step l { l with scheduled := n, popped := l.popped + 1 }
  | remove {l n m} (h : l.popped = n + 1) (hq : l.queued = m + 1) :
      Step l { l with popped := n, queued := m, held := l.held + 1 }
  | release {l n} (h : l.held = n + 1) : Step l { l with held := n, ref := l.ref - 1 }
  | disconnect {l} (h : l.controllers = 0) (hc : l.connected = true) (hr : 0 < l.ref) :
      Step l { l with connected := false, waiting := l.waiting + 1 }
  | disconnected {l} (h : l.controllers = 0) (hc : l.connected = true) (hr : ¬ 0 < l.ref) :
      Step l { l with connected := false, pool := false }
  | quiesced {l n} (h : l.waiting = n + 1) (hr : ¬ 0 < l.ref) :
      Step l { l with waiting := n, pool := false }

/-- Every visit on its way has an event, the count is that of the visits not yet over, and a stage
without a pool has none. -/
structure Sound (l : Ledger) : Prop where
  queued : l.due + l.scheduled + l.popped ≤ l.queued
  ref : l.ref = l.due + l.scheduled + l.popped + l.held
  control : l.controllers ≤ 1
  quiet : l.connected = false → l.waiting = 0 → l.ref = 0
  starting : 0 < l.starting → l.connected = false ∧ l.pool = true
  waiting : 0 < l.waiting → l.connected = false
  pool : l.pool = false → l.connected = false ∧ l.ref = 0

theorem sound_new : Sound new := by constructor <;> simp [new, controllers]

/-- The call of `connect` at its section is the only one, and nothing is on its way. -/
theorem Sound.alone {l : Ledger} {n : ℕ} (h : Sound l) (hs : l.starting = n + 1) :
    n = 0 ∧ l.looping = 0 ∧ l.waiting = 0 ∧ l.due + l.scheduled + l.popped + l.held = 0 := by
  have hone := h.control
  unfold controllers at hone
  have hzero := h.quiet (h.starting (by omega)).1 (by omega)
  have hsum := h.ref
  omega

theorem Sound.ref_nonneg {l : Ledger} (h : Sound l) : 0 ≤ l.ref := by
  rw [h.ref]
  omega

/-- **What every step of a ledger keeps.** -/
theorem Sound.step {l l' : Ledger} (h : Sound l) (hs : Step l l') : Sound l' := by
  have hcontrol := h.control
  have href := h.ref
  have hqueued := h.queued
  unfold controllers at hcontrol
  cases hs with
  | setPool hc =>
      exact ⟨h.queued, h.ref, h.control, h.quiet, fun _ => ⟨hc, rfl⟩, h.waiting, by simp⟩
  | connect hfree hc hp =>
      refine ⟨h.queued, h.ref, ?_, h.quiet, fun _ => ⟨hc, hp⟩, h.waiting, h.pool⟩
      unfold controllers at hfree ⊢
      dsimp only
      omega
  | refused hs =>
      refine ⟨h.queued, h.ref, ?_, h.quiet, fun _ => h.starting (by omega), h.waiting, h.pool⟩
      unfold controllers
      dsimp only
      omega
  | connected hs hk =>
      obtain ⟨rfl, hl, hw, hnone⟩ := h.alone hs
      have hp := (h.starting (by omega)).2
      refine ⟨?_, ?_, ?_, by simp, by simp, fun hpos => ?_, fun hpool => ?_⟩
      · dsimp only; omega
      · dsimp only; omega
      · unfold controllers; dsimp only; omega
      · dsimp only at hpos; omega
      · dsimp only at hpool; rw [hp] at hpool; cases hpool
  | looped hl =>
      refine ⟨h.queued, h.ref, ?_, h.quiet, h.starting, h.waiting, h.pool⟩
      unfold controllers
      dsimp only
      omega
  | add hc =>
      refine ⟨?_, ?_, h.control, fun hc' => ?_, h.starting, h.waiting, fun hp => ?_⟩
      · dsimp only; omega
      · dsimp only; omega
      · rw [hc] at hc'; cases hc'
      · have := (h.pool hp).1; rw [hc] at this; cases this
  | store hc => exact ⟨by dsimp only; omega, h.ref, h.control, h.quiet, h.starting, h.waiting, h.pool⟩
  | schedule hd =>
      exact ⟨by dsimp only; omega, by dsimp only; omega, h.control, h.quiet, h.starting, h.waiting,
        h.pool⟩
  | pop hd =>
      exact ⟨by dsimp only; omega, by dsimp only; omega, h.control, h.quiet, h.starting, h.waiting,
        h.pool⟩
  | remove hd hq =>
      exact ⟨by dsimp only; omega, by dsimp only; omega, h.control, h.quiet, h.starting, h.waiting,
        h.pool⟩
  | release hd =>
      -- a held event is counted, so the count was not zero
      refine ⟨h.queued, by dsimp only; omega, h.control, fun hc hw => ?_, h.starting, h.waiting,
        fun hp => ?_⟩
      · have := h.quiet hc hw; omega
      · have := (h.pool hp).2; omega
  | disconnect hfree hc hr =>
      unfold controllers at hfree
      refine ⟨h.queued, h.ref, ?_, fun _ hw => ?_, fun hs => ?_, fun _ => rfl, fun hp => ?_⟩
      · unfold controllers; dsimp only; omega
      · dsimp only at hw; omega
      · dsimp only at hs; omega
      · exact ⟨rfl, (h.pool hp).2⟩
  | disconnected hfree hc hr =>
      have hzero : l.ref = 0 := by have := h.ref_nonneg; omega
      unfold controllers at hfree
      refine ⟨h.queued, h.ref, h.control, fun _ _ => hzero, fun hs => ?_, fun _ => rfl,
        fun _ => ⟨rfl, hzero⟩⟩
      dsimp only at hs
      omega
  | quiesced hw hr =>
      have hzero : l.ref = 0 := by have := h.ref_nonneg; omega
      have hc := h.waiting (by omega)
      refine ⟨h.queued, h.ref, ?_, fun _ _ => hzero, fun hs => ?_, fun _ => hc, fun _ => ⟨hc, hzero⟩⟩
      · unfold controllers; dsimp only; omega
      · dsimp only at hs; omega

/-- Every ledger a new stage comes to. -/
theorem sound_of_path {l : Ledger} (h : Relation.ReflTransGen Step new l) : Sound l := by
  induction h with
  | refl => exact sound_new
  | tail _ hs ih => exact ih.step hs

/-! ### What a stage that is quiet has left -/

/-- A count of zero leaves nothing on its way and nothing held. -/
theorem Sound.quiesced {l : Ledger} (h : Sound l) (hz : l.ref = 0) :
    l.due = 0 ∧ l.scheduled = 0 ∧ l.popped = 0 ∧ l.held = 0 := by
  have := h.ref
  omega

end Ledger

end VulcanDB.Seda
