import VulcanDB.Threadpool.Pool

/-!
# Thread pool — The kill transaction

The calls of `kill_threads` and the kill events, counted.  A kill event is pending, then in the run
queue, then with the thread that took it, before and after `thread_kill`.

* `Sound.step`: one call at a time has passed its test, and what it is owed adds up.
* `Waits.step`: a call that has something to kill waits only while there is something left to kill.
* `Quits.step`: a call that no early end of its wait lets go on has nothing left to kill.
-/

namespace VulcanDB.Threadpool

/-- The threads of the pool by what they do with kill events, and those that `nthreads_` counts. -/
structure Crew where
  visiting : ℕ
  killing : ℕ
  killed : ℕ
  workers : ℕ

/-- The calls of `kill_threads` that have passed their test.  `pending` counts the events of the
killer without a place in the run queue, `left` those still to be made, and `wanted` and `claimed`
sum what the calls want before and after they have set `threads_to_kill_`. -/
structure Calls where
  generating : ℕ
  asleep : ℕ
  awake : ℕ
  quiescing : ℕ
  pending : ℕ
  left : ℕ
  wanted : ℕ
  claimed : ℕ

/-- The threads counted, the queue and the fields of the pool. -/
structure Transaction extends Crew, Calls where
  visits : ℕ
  queued : ℕ
  nthreads : ℕ
  threadsToKill : ℕ
  connected : Bool
  locked : Bool
  ref : Int
  started : ℕ
  returned : ℕ

namespace Transaction

/-- No thread. -/
def new : Transaction := ⟨⟨0, 0, 0, 0⟩, ⟨0, 0, 0, 0, 0, 0, 0, 0⟩, 0, 0, 0, 0, false, false, 0, 0, 0⟩

/-- The calls that are under way. -/
def inProgress (x : Transaction) : ℕ := x.generating + x.asleep + x.awake + x.quiescing

/-- No call kills less than `least` threads, and only if `early` a wait ends with threads left to
kill. -/
inductive Step (least : ℕ) (early : Prop) : Transaction → Transaction → Prop
  | start {x} (n : ℕ) (hl : x.locked = false) :
      Step least early x
        { x with workers := x.workers + n, nthreads := x.nthreads + n, started := x.started + n }
  | take {x n} (h : x.visits = n + 1) :
      Step least early x { x with visits := n, visiting := x.visiting + 1 }
  | remove {x n m} (h : x.visiting = n + 1) (hq : x.queued = m + 1) :
      Step least early x { x with visiting := n, queued := m, killing := x.killing + 1 }
  | kill {x n m} (h : x.killing = n + 1) (hw : x.workers = m + 1) (hl : x.locked = false)
      (hk : pred32 x.threadsToKill ≠ 0) :
      Step least early x
        { x with killing := n, killed := x.killed + 1, workers := m,
                 nthreads := pred32 x.nthreads, threadsToKill := pred32 x.threadsToKill }
  | killLast {x n m a b} (h : x.killing = n + 1) (hw : x.workers = m + 1) (hl : x.locked = false)
      (hk : pred32 x.threadsToKill = 0)
      (ha : x.asleep = a + 1 ∧ b = x.awake + 1 ∨ x.asleep = 0 ∧ a = 0 ∧ b = x.awake) :
      Step least early x
        { x with killing := n, killed := x.killed + 1, workers := m, asleep := a, awake := b,
                 nthreads := pred32 x.nthreads, threadsToKill := 0 }
  | exit {x n} (h : x.killed = n + 1) :
      Step least early x { x with killed := n, ref := x.ref - 1 }
  | enter {x} (total : ℕ) (hl : x.locked = false) (hk : x.threadsToKill = 0)
      (hc : x.connected = false) (ht : least ≤ total) (hn : total ≤ x.nthreads) :
      Step least early x
        { x with generating := x.generating + 1, pending := x.pending + x.queued,
                 left := x.left + total, wanted := x.wanted + total, locked := true,
                 connected := true, ref := x.queued }
  | schedule {x n} (h : x.pending = n + 1) (hg : 0 < x.generating) :
      Step least early x { x with pending := n, visits := x.visits + 1 }
  | add {x n} (h : x.left = n + 1) (hg : 0 < x.generating) (hc : x.connected = true) :
      Step least early x
        { x with left := n, pending := x.pending + 1, queued := x.queued + 1, ref := x.ref + 1 }
  | store {x n} (h : x.left = n + 1) (hg : 0 < x.generating) (hc : x.connected = false) :
      Step least early x { x with left := n, queued := x.queued + 1 }
  | await {x n w} (total : ℕ) (h : x.generating = n + 1) (hw : x.wanted = w + total)
      (halone : n = 0 → x.left = 0 ∧ x.pending = 0 ∧ w = 0) :
      Step least early x
        { x with generating := n, asleep := x.asleep + 1, wanted := w,
                 claimed := x.claimed + total, threadsToKill := total, locked := false }
  | wake {x n} (h : x.asleep = n + 1) (he : early ∨ x.threadsToKill = 0) :
      Step least early x { x with asleep := n, awake := x.awake + 1 }
  | resume {x n} (h : x.awake = n + 1) (hl : x.locked = false) (hc : x.connected = true) :
      Step least early x
        { x with awake := n, quiescing := x.quiescing + 1, locked := true, connected := false }
  | leave {x n c} (total : ℕ) (h : x.quiescing = n + 1) (hr : x.ref ≤ 0)
      (hc : x.claimed = c + total) (halone : n + x.asleep + x.awake = 0 → c = 0) :
      Step least early x
        { x with quiescing := n, claimed := c, locked := false, returned := x.returned + total }

/-- One call at a time is past its test, the locks and the counters say where it is, and a kill
event is where its call or `threads_to_kill_` says. -/
structure Sound (x : Transaction) : Prop where
  one : x.inProgress ≤ 1
  connected : x.connected = true ↔ 0 < x.generating + x.asleep + x.awake
  locked : x.locked = true ↔ 0 < x.generating + x.quiescing
  ref : x.ref = x.visits + x.visiting + x.killing + x.killed + x.pending
  queued : x.queued = x.visits + x.visiting + x.pending
  generating : 0 < x.generating →
    x.visits + x.visiting + x.killing + x.pending + x.left = x.wanted ∧ x.wanted ≤ x.nthreads ∧
      x.threadsToKill = 0
  counted : x.generating = 0 →
    x.visits + x.visiting + x.killing = x.threadsToKill ∧ x.pending = 0 ∧ x.left = 0 ∧ x.wanted = 0
  quiet : x.inProgress = 0 → x.ref = 0 ∧ x.claimed = 0
  workers : x.nthreads = x.workers
  fits : x.threadsToKill ≤ x.nthreads
  sum : x.nthreads + x.returned + x.claimed = x.started + x.threadsToKill

theorem sound_new : Sound new := by
  constructor <;> simp [new, inProgress]

variable {least : ℕ} {early : Prop} {x x' : Transaction}

/-- A thread that runs `thread_kill` is one that `threads_to_kill_` counts. -/
theorem Sound.killing {n : ℕ} (h : Sound x) (hk : x.killing = n + 1) (hl : x.locked = false) :
    ∃ k m, x.threadsToKill = k + 1 ∧ x.nthreads = m + 1 ∧ x.generating = 0 ∧ x.quiescing = 0 := by
  have hlocked := h.locked
  rw [hl] at hlocked
  have hnone : x.generating = 0 ∧ x.quiescing = 0 := by simpa using hlocked
  have hcount := (h.counted hnone.1).1
  have hfits := h.fits
  exact ⟨x.threadsToKill - 1, x.nthreads - 1, by omega, by omega, hnone⟩

/-- Where the locks are free and the killer is disconnected, no call is past its test. -/
theorem Sound.free (h : Sound x) (hl : x.locked = false) (hc : x.connected = false) :
    x.inProgress = 0 := by
  have hlocked := h.locked
  have hconnected := h.connected
  rw [hl] at hlocked
  rw [hc] at hconnected
  have hgen : x.generating + x.quiescing = 0 := by simpa using hlocked
  have hcall : x.generating + x.asleep + x.awake = 0 := by simpa using hconnected
  unfold inProgress
  omega

/-- A call that makes its events is the only call. -/
theorem Sound.alone {n : ℕ} (h : Sound x) (hg : x.generating = n + 1) :
    n = 0 ∧ x.asleep = 0 ∧ x.awake = 0 ∧ x.quiescing = 0 := by
  have hone := h.one
  unfold inProgress at hone
  omega

/-- **What every step of the transaction keeps.** -/
theorem Sound.step (h : Sound x) (hs : Step least early x x') : Sound x' := by
  have hsound := h
  obtain ⟨hone, hconnected, hlocked, href, hqueued, hgen, hcounted, hquiet, hworkers, hfits,
    hsum⟩ := hsound
  unfold inProgress at hone hquiet
  cases hs with
  | start n hl => constructor <;> grind [inProgress]
  | take hv => constructor <;> grind [inProgress]
  | remove hv hq => constructor <;> grind [inProgress]
  | kill hk hw hl hne =>
      obtain ⟨k, m, htk, hnt, hg, hq⟩ := h.killing hk hl
      rw [htk, hnt]
      constructor <;> grind [inProgress, pred32]
  | killLast hk hw hl hz ha =>
      obtain ⟨k, m, htk, hnt, hg, hq⟩ := h.killing hk hl
      rw [htk] at hz
      rw [hnt]
      constructor <;> grind [inProgress, pred32]
  | exit hk => constructor <;> grind [inProgress]
  | enter total hl hk hc ht hn =>
      -- nothing is left of the calls before
      have hfree := h.free hl hc
      have hzero := (h.quiet hfree).1
      unfold inProgress at hfree
      constructor <;> grind [inProgress]
  | schedule hp hg => constructor <;> grind [inProgress]
  | add hl hg hc => constructor <;> grind [inProgress]
  | store hl hg hc => constructor <;> grind [inProgress]
  | await total hg hw halone =>
      obtain ⟨rfl, ha, hk, hq⟩ := h.alone hg
      obtain ⟨hleft, hpending, rfl⟩ := halone rfl
      constructor <;> grind [inProgress]
  | wake ha he => constructor <;> grind [inProgress]
  | resume hk hl hc => constructor <;> grind [inProgress]
  | leave total hq hr hc halone =>
      -- the count of the killer is not negative, so no event is left
      have hnone : x.visits + x.visiting + x.killing + x.killed + x.pending = 0 := by omega
      constructor <;> grind [inProgress]

/-! ### Calls that wait for something -/

/-- A call waits only with threads left to kill. -/
structure Waits (x : Transaction) : Prop where
  generating : 0 < x.generating → 0 < x.wanted
  asleep : 0 < x.asleep → 0 < x.threadsToKill

/-- **One step**: a call still waits only with threads left to kill. -/
theorem Waits.step (hw : Waits x) (h : Sound x) (hpos : 0 < least) (hs : Step least early x x') :
    Waits x' := by
  obtain ⟨hgen, hasleep⟩ := hw
  cases hs with
  | start n hl => exact ⟨hgen, hasleep⟩
  | take hv => exact ⟨hgen, hasleep⟩
  | remove hv hq => exact ⟨hgen, hasleep⟩
  | kill hk hw hl hne => exact ⟨hgen, fun _ => Nat.pos_of_ne_zero hne⟩
  | killLast hk hw hl hz ha =>
      -- the signal goes to the only call there is
      have hone := h.one
      unfold inProgress at hone
      exact ⟨hgen, fun hpos => by dsimp only at hpos; omega⟩
  | exit hk => exact ⟨hgen, hasleep⟩
  | enter total hl hk hc ht hn => exact ⟨fun _ => by dsimp only; omega, hasleep⟩
  | schedule hp hg => exact ⟨hgen, hasleep⟩
  | add hl hg hc => exact ⟨hgen, hasleep⟩
  | store hl hg hc => exact ⟨hgen, hasleep⟩
  | await total hg hw halone =>
      obtain ⟨rfl, -, -, -⟩ := h.alone hg
      obtain ⟨-, -, rfl⟩ := halone rfl
      have hwanted := hgen (by omega)
      exact ⟨fun hpos => absurd hpos (lt_irrefl 0), fun _ => by dsimp only; omega⟩
  | wake ha he => exact ⟨hgen, fun hpos => hasleep (by omega)⟩
  | resume hk hl hc => exact ⟨hgen, hasleep⟩
  | leave total hq hr hc halone => exact ⟨hgen, hasleep⟩

/-! ### Calls that go on -/

/-- A call that has left its wait has nothing left to kill. -/
def Quits (x : Transaction) : Prop := 0 < x.awake + x.quiescing → x.threadsToKill = 0

/-- **One step**, without wake-ups by chance. -/
theorem Quits.step (hq : Quits x) (h : Sound x) (hs : Step least False x x') : Quits x' := by
  cases hs with
  | start n hl => exact hq
  | take hv => exact hq
  | remove hv hq' => exact hq
  | kill hk hw hl hne =>
      -- a call that is past its wait would have stopped this step
      obtain ⟨k, m, htk, -, -, hz⟩ := h.killing hk hl
      intro hpos
      have := hq hpos
      omega
  | killLast hk hw hl hz ha => exact fun _ => rfl
  | exit hk => exact hq
  | enter total hl hk hc ht hn => exact hq
  | schedule hp hg => exact hq
  | add hl hg hc => exact hq
  | store hl hg hc => exact hq
  | await total hg hw halone =>
      obtain ⟨-, -, ha, hk⟩ := h.alone hg
      exact fun hpos => by dsimp only at hpos; omega
  | wake ha he => exact fun _ => he.resolve_left id
  | resume hk hl hc => exact fun _ => hq (by omega)
  | leave total hq' hr hc halone => exact fun hpos => hq (by dsimp only at hpos; omega)

/-- Nothing left to kill: no kill event is on its way, and the killer counts threads that have
run `thread_kill`. -/
theorem Sound.settled (h : Sound x) (hg : x.generating = 0) (hk : x.threadsToKill = 0) :
    x.visits = 0 ∧ x.visiting = 0 ∧ x.killing = 0 ∧ x.ref = x.killed := by
  have hcount := h.counted hg
  have href := h.ref
  omega

end Transaction

end VulcanDB.Threadpool
