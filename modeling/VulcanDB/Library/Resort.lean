import VulcanDB.Library.Kahn

/-!
# Library — Sorting with any counters

The queue of a topological sort, started with counters that need not be the numbers of the
predecessors, and what it leaves of them.

* `sortRun_spec`: the sort ends, and visits once each the nodes whose counter gets to 0.
* `sort_shift`: counters that are too low do not matter at nodes that stay behind in any case.
-/

namespace Kahn

/-! ### The counters that are left -/

section Algorithm

variable {α : Type*} [DecidableEq α]

/-- `loop`, with the counters that it leaves. -/
def run (succ : α → List α) : ℕ → (α → ℤ) → List α → List α → Option (List α × (α → ℤ))
  | _, d, [], res => some (res, d)
  | 0, _, _ :: _, _ => none
  | n + 1, d, u :: q, res =>
    let r := relax (succ u) d q
    run succ n r.1 r.2 (res ++ [u])

/-- The sort, with the counters that it leaves. -/
def sortRun (nodes : List α) (succ : α → List α) (d : α → ℤ) : Option (List α × (α → ℤ)) :=
  run succ nodes.length d (nodes.filter fun v => d v = 0) []

theorem loop_eq_run (succ : α → List α) (n : ℕ) (d : α → ℤ) (q res : List α) :
    loop succ n d q res = (run succ n d q res).map (·.1) := by
  induction n generalizing d q res with
  | zero => cases q <;> rfl
  | succ n ih =>
      cases q with
      | nil => rfl
      | cons u q => exact ih _ _ _

theorem sort_eq_sortRun (nodes : List α) (succ : α → List α) (d : α → ℤ) :
    sort nodes succ d = (sortRun nodes succ d).map (·.1) := loop_eq_run ..

end Algorithm

/-! ### Any counters -/

section Sorting

variable {α : Type*} [LinearOrder α] {nodes : List α} {succ : α → List α} {d₀ d : α → ℤ}
  {q res : List α}

/-- The predecessors of `v` in `s`. -/
def predsIn (nodes : List α) (succ : α → List α) (s : List α) (v : α) : ℕ :=
  nodes.countP fun u => (succ u).contains v && s.contains u

/-- The predecessors among the sorted, counted. -/
theorem predsIn_eq (s : List α) (v : α) :
    predsIn nodes succ s v = nodes.countP fun u => v ∈ succ u ∧ u ∈ s := by
  simp [predsIn]

/-- After the nodes in `res`, with those in `q` in the queue, from the counters `d₀`. -/
structure Visits (nodes : List α) (succ : α → List α) (d₀ d : α → ℤ) (q res : List α) : Prop where
  degree : ∀ v, d v = d₀ v - predsIn nodes succ res v
  mem : ∀ v, v ∈ res ++ q ↔
    v ∈ nodes ∧ (d₀ v = 0 ∨ 0 < d₀ v ∧ d₀ v ≤ predsIn nodes succ res v)
  nodup : (res ++ q).Nodup

theorem predsIn_nil (v : α) : predsIn nodes succ [] v = 0 := by
  simp [predsIn]

/-- A node that is visited counts for its successors. -/
theorem predsIn_visit (hg : Ordered nodes succ) {u : α} (hu : u ∈ nodes) (hres : u ∉ res) (v : α) :
    predsIn nodes succ (res ++ [u]) v =
      predsIn nodes succ res v + if v ∈ succ u then 1 else 0 := by
  have hnodup : nodes.Nodup := hg.nodes_lt.imp fun h => h.ne
  have hperm := List.perm_cons_erase hu
  have hsame : (nodes.erase u).countP (fun x => v ∈ succ x ∧ x ∈ res ++ [u]) =
      (nodes.erase u).countP fun x => v ∈ succ x ∧ x ∈ res := by
    refine List.countP_congr fun x hx => ?_
    have hne : x ≠ u := fun h => hnodup.not_mem_erase (h ▸ hx)
    simp [hne]
  rw [predsIn_eq, predsIn_eq, hperm.countP_eq, hperm.countP_eq, List.countP_cons, List.countP_cons, hsame]
  by_cases hv : v ∈ succ u <;> simp [hv, hres]

/-- The predecessors are those that have been visited and those that are waited for. -/
theorem predsIn_add_waiting (res : List α) (v : α) :
    predsIn nodes succ res v + waiting nodes succ res v = nodes.countP fun u => v ∈ succ u := by
  unfold waiting
  rw [predsIn_eq]
  induction nodes with
  | nil => rfl
  | cons u nodes ih =>
      simp only [List.countP_cons, ← ih]
      by_cases hu : u ∈ res <;> by_cases hv : v ∈ succ u <;> simp [hu, hv] <;> omega

/-- **One visit.** -/
theorem Visits.visit (hg : Ordered nodes succ) {u : α} (h : Visits nodes succ d₀ d (u :: q) res) :
    Visits nodes succ d₀ (relax (succ u) d q).1 (relax (succ u) d q).2 (res ++ [u]) := by
  obtain ⟨hd, hq⟩ := relax_spec (hg.succ_lt u) d q
  have hu : u ∈ nodes := ((h.mem u).mp (by simp)).1
  have hures : u ∉ res := fun hm =>
    (List.nodup_append.mp h.nodup).2.2 u hm u List.mem_cons_self rfl
  have hvis := predsIn_visit hg hu hures
  have hsplit : res ++ [u] ++ (q ++ (succ u).filter fun v => d v = 1) =
      res ++ u :: q ++ (succ u).filter fun v => d v = 1 := by simp
  rw [hq]
  refine ⟨fun v => ?_, fun v => ?_, ?_⟩
  · rw [hd, h.degree, hvis]
    split <;> push_cast <;> ring
  · rw [hsplit, List.mem_append, h.mem, List.mem_filter, decide_eq_true_eq, h.degree, hvis]
    by_cases huv : v ∈ succ u
    · have hv := hg.target u v huv
      simp only [hv, huv, if_true, true_and]
      push_cast
      omega
    · simp [huv]
  · rw [hsplit, List.nodup_append]
    refine ⟨h.nodup, ((hg.succ_lt u).imp fun hlt => hlt.ne).filter _, ?_⟩
    rintro v hv w hw rfl
    have hmem := ((h.mem v).mp hv).2
    rw [List.mem_filter, decide_eq_true_eq, h.degree] at hw
    omega

theorem Visits.start (hg : Ordered nodes succ) (d : α → ℤ) :
    Visits nodes succ d d (nodes.filter fun v => d v = 0) [] := by
  refine ⟨fun v => by simp [predsIn_nil], fun v => ?_, ?_⟩
  · rw [List.nil_append, List.mem_filter, decide_eq_true_eq, predsIn_nil]
    refine and_congr_right fun _ => ⟨.inl, fun h => h.elim id fun h => ?_⟩
    omega
  · exact (hg.nodes_lt.imp fun hlt => hlt.ne).filter _

/-- The loop ends, and begins with what is in the queue. -/
theorem run_spec (hg : Ordered nodes succ) {n : ℕ} (h : Visits nodes succ d₀ d q res)
    (hn : nodes.length ≤ n + res.length) : ∃ order d', run succ n d q res = some (order, d') ∧
      Visits nodes succ d₀ d' [] order ∧ res ++ q <+: order := by
  induction n generalizing d q res with
  | zero =>
      cases q with
      | nil => exact ⟨res, d, rfl, h, by simp⟩
      | cons u q =>
          -- all nodes have been visited
          exfalso
          have hlen := (h.nodup.subperm fun v hv => ((h.mem v).mp hv).1).length_le
          simp only [List.length_append, List.length_cons] at hlen
          omega
  | succ n ih =>
      cases q with
      | nil => exact ⟨res, d, rfl, h, by simp⟩
      | cons u q =>
          obtain ⟨order, d', hrun, hvisits, hpre⟩ := ih (h.visit hg) (by
            simp only [List.length_append, List.length_singleton]
            omega)
          refine ⟨order, d', hrun, hvisits, List.IsPrefix.trans ?_ hpre⟩
          rw [(relax_spec (hg.succ_lt u) d q).2, ← List.append_assoc, List.append_assoc res]
          exact List.prefix_append _ _

/-- **What a sort with any counters visits**, and what it leaves of them. -/
theorem sortRun_spec (hg : Ordered nodes succ) (d : α → ℤ) :
    ∃ order d', sortRun nodes succ d = some (order, d') ∧ order.Nodup ∧
      (∀ v, v ∈ order ↔
        v ∈ nodes ∧ (d v = 0 ∨ 0 < d v ∧ d v ≤ predsIn nodes succ order v)) ∧
      (∀ v, d' v = d v - predsIn nodes succ order v) ∧
      (nodes.filter fun v => d v = 0) <+: order := by
  obtain ⟨order, d', hrun, h, hpre⟩ := run_spec (n := nodes.length) hg (Visits.start hg d) (by simp)
  exact ⟨order, d', hrun, by simpa using h.nodup, by simpa using h.mem, h.degree, hpre⟩

/-! ### Counters that are too low -/

/-- The counters `d'` are `d`, but at the nodes of `dead` less, by less than the number of the
predecessors in `dead`. -/
structure Shifted (nodes : List α) (succ : α → List α) (dead : List α) (d d' : α → ℤ) : Prop where
  same : ∀ v ∈ nodes, v ∉ dead → d' v = d v
  less : ∀ v ∈ nodes, v ∈ dead → d' v ≤ d v ∧ d v - d' v < predsIn nodes succ dead v

/-- While no node of `dead` is visited, those before a node are waited for. -/
theorem predsIn_le_waiting {dead : List α} (h : ∀ v ∈ dead, v ∉ res) (v : α) :
    predsIn nodes succ dead v ≤ waiting nodes succ res v := by
  rw [predsIn_eq]
  refine List.countP_mono_left fun u _ hu => ?_
  rw [decide_eq_true_eq] at hu ⊢
  exact ⟨hu.1, h u hu.2⟩

/-- A counter at a node of `dead` is not the last. -/
theorem Shifted.one_iff (hg : Ordered nodes succ) {dead : List α} {d' : α → ℤ} {u : α}
    (hs : Shifted nodes succ dead d d') (h : Invariant nodes succ d (u :: q) res)
    (hdead : ∀ v ∈ dead, v ∉ res ++ u :: q) {v : α} (hv : v ∈ succ u) :
    (d' v = 1 ↔ d v = 1) ∧ (d v = 1 → v ∉ dead) := by
  have hvn := hg.target u v hv
  by_cases hvd : v ∈ dead
  · obtain ⟨hle, hlt⟩ := hs.less v hvn hvd
    have hu : u ∈ nodes := hg.source u v hv
    have hures : u ∉ res := fun hm => (List.nodup_append.mp h.nodup).2.2 u hm u List.mem_cons_self rfl
    have hwait : predsIn nodes succ dead v ≤ waiting nodes succ (res ++ [u]) v := by
      refine predsIn_le_waiting (fun w hw hm => hdead w hw ?_) v
      rcases List.mem_append.mp hm with hm | hm
      · exact List.mem_append_left _ hm
      · exact List.mem_append_right _ (List.mem_singleton.mp hm ▸ List.mem_cons_self)
    have hvisit := waiting_visit hg hu hures v
    rw [if_pos hv] at hvisit
    have hdeg := h.degree v hvn
    constructor
    · constructor <;> intro <;> omega
    · intro
      omega
  · exact ⟨by rw [hs.same v hvn hvd], fun _ => hvd⟩

/-- The two loops go together. -/
theorem loop_shift (hg : Ordered nodes succ) {dead : List α} {n : ℕ} {d d' : α → ℤ}
    (h : Invariant nodes succ d q res) (hs : Shifted nodes succ dead d d')
    (hdead : ∀ v ∈ dead, v ∉ res ++ q) : loop succ n d' q res = loop succ n d q res := by
  induction n generalizing d d' q res with
  | zero => cases q <;> rfl
  | succ n ih =>
      cases q with
      | nil => rfl
      | cons u q =>
          obtain ⟨hd, hq⟩ := relax_spec (hg.succ_lt u) d q
          obtain ⟨hd', hq'⟩ := relax_spec (hg.succ_lt u) d' q
          have hone := fun v (hv : v ∈ succ u) => hs.one_iff hg h hdead hv
          have hsame : (succ u).filter (fun v => d' v = 1) = (succ u).filter fun v => d v = 1 :=
            List.filter_congr fun v hv => by rw [decide_eq_decide, (hone v hv).1]
          have hqueue : (relax (succ u) d' q).2 = (relax (succ u) d q).2 := by rw [hq, hq', hsame]
          rw [loop, loop, hqueue]
          refine ih (h.visit hg) ⟨fun v hv hvd => ?_, fun v hv hvd => ?_⟩ fun v hvd hm => ?_
          · rw [hd, hd', hs.same v hv hvd]
          · obtain ⟨hle, hlt⟩ := hs.less v hv hvd
            rw [hd, hd']
            omega
          · rw [hq, ← List.append_assoc, List.append_assoc res, List.mem_append] at hm
            rcases hm with hm | hm
            · exact hdead v hvd (by simpa using hm)
            · rw [List.mem_filter, decide_eq_true_eq] at hm
              exact (hone v hm.1).2 hm.2 hvd

/-- **Counters that are too low** at nodes that stay behind do not matter. -/
theorem sort_shift (hg : Ordered nodes succ) {dead : List α} {d d' : α → ℤ}
    (hd : ∀ v ∈ nodes, d v = nodes.countP fun u => v ∈ succ u)
    (hs : Shifted nodes succ dead d d') : sort nodes succ d' = sort nodes succ d := by
  have hstart := start_invariant hg hd
  have hpos : ∀ v ∈ nodes, v ∈ dead → 0 < d' v ∧ 0 < d v := by
    intro v hv hvd
    obtain ⟨hle, hlt⟩ := hs.less v hv hvd
    have hwait : predsIn nodes succ dead v ≤ waiting nodes succ [] v :=
      predsIn_le_waiting (fun _ _ => List.not_mem_nil) v
    have hdeg := hstart.degree v hv
    omega
  have hsame : nodes.filter (fun v => d' v = 0) = nodes.filter fun v => d v = 0 := by
    refine List.filter_congr fun v hv => ?_
    by_cases hvd : v ∈ dead
    · obtain ⟨h', h⟩ := hpos v hv hvd
      simp [h'.ne', h.ne']
    · rw [hs.same v hv hvd]
  rw [sort, sort, hsame]
  refine loop_shift hg hstart hs fun v hvd hm => ?_
  rw [List.nil_append, List.mem_filter, decide_eq_true_eq] at hm
  exact (hpos v hm.1 hvd).2.ne' hm.2

end Sorting

end Kahn
