import VulcanDB.Express.Graph
import VulcanDB.Library.Resort

/-!
# EXPRESS — Sorting a graph again

`topo_sort` counts `in_degree_` down and leaves `graph_` as it is.

* `topoSortRun_spec`: what the first sort leaves.
* `kept_iff`: when a sort changes no sort after it.
-/

namespace VulcanDB.Express

open Cxx Steps Relation

namespace TopoGraph

/-- `topo_sort`, with the graph that it leaves. -/
def topoSortRun (g : TopoGraph ℤ) : Option (List ℤ × TopoGraph ℤ) :=
  (Kahn.sortRun g.nodes g.graph g.inDegree).map fun r => (r.1, { g with inDegree := r.2 })

/-- `topoSort` is the run without the state that it leaves. -/
theorem topoSort_eq (g : TopoGraph ℤ) : g.topoSort = g.topoSortRun.map (·.1) := by
  rw [topoSort, Kahn.sort_eq_sortRun, topoSortRun, Option.map_map]
  rfl

end TopoGraph

open TopoGraph

/-- The first sort changes no sort after it: without changes the next gives the same, and with more
calls it gives what it gives without the first. -/
structure Kept (cs : List GraphCall) : Prop where
  again : ∀ order g, (calls cs).topoSortRun = some (order, g) → g.topoSort = some order
  later : ∀ order g, (calls cs).topoSortRun = some (order, g) →
    ∀ cs', (cs'.foldl call g).topoSort = (calls (cs ++ cs')).topoSort

/-- Edges lead to nodes that are not sorted only, and each of these has less predecessors that are
sorted than such that are not. -/
structure Unsorted (g : TopoGraph ℤ) : Prop where
  edge : ∀ u v, g.Edge u v → g.FromCycle v
  behind : ∀ v, g.FromCycle v →
    {u | g.Edge u v ∧ ¬ g.FromCycle u}.ncard < {u | g.Edge u v ∧ g.FromCycle u}.ncard

/-! ### The first sort -/

section Graphs

variable {N : ℤ → Prop} {es : List (ℤ × ℤ)} {g : TopoGraph ℤ}

/-- A node has finitely many predecessors. -/
theorem Graphs.finite (h : Graphs N es g) (v : ℤ) : {u | g.Edge u v}.Finite :=
  (List.finite_toSet g.nodes).subset fun u hu => h.ordered.source u v hu

/-- The predecessors with a property, counted. -/
theorem Graphs.countP_ncard (h : Graphs N es g) (v : ℤ) (p : ℤ → Prop) [DecidablePred p] :
    (g.nodes.countP fun u => v ∈ g.graph u ∧ p u) = {u | g.Edge u v ∧ p u}.ncard := by
  have hset : {u | g.Edge u v ∧ p u} =
      ((g.nodes.filter fun u => v ∈ g.graph u ∧ p u).toFinset : Set ℤ) := by
    ext u
    simp only [Set.mem_ofPred_eq, List.coe_toFinset, List.mem_filter, decide_eq_true_eq]
    exact ⟨fun hu => ⟨h.ordered.source u v hu.1, hu⟩, fun hu => hu.2⟩
  have hnodup : (g.nodes.filter fun u => v ∈ g.graph u ∧ p u).Nodup :=
    (h.nodes_lt.imp fun hlt => hlt.ne).filter _
  rw [hset, Set.ncard_coe_finset, List.toFinset_card_of_nodup hnodup, List.countP_eq_length_filter]

/-- The nodes that Kahn's order reaches are those that no cycle leads to. -/
theorem Graphs.acc_iff (h : Graphs N es g) (v : ℤ) : Acc g.Edge v ↔ ¬ g.FromCycle v :=
  Kahn.acc_iff_no_cycle h.ordered v

/-- A node behind a cycle is a node of the graph. -/
theorem Graphs.mem_of_fromCycle (h : Graphs N es g) {v : ℤ} (hv : g.FromCycle v) :
    v ∈ g.nodes := by
  obtain ⟨c, hcycle, hpath⟩ := hv
  have hlast := hcycle.trans_left hpath
  obtain ⟨u, -, huv⟩ := (TransGen.tail'_iff).mp hlast
  exact h.ordered.target u v huv

end Graphs

/-- What the first sort leaves: each counter is less by the predecessors that are sorted. -/
structure Sorted (g : TopoGraph ℤ) (order : List ℤ) (g' : TopoGraph ℤ) : Prop where
  nodes : g'.nodes = g.nodes
  graph : g'.graph = g.graph
  inDegree : ∀ v, g'.inDegree v = g.inDegree v - Kahn.predsIn g.nodes g.graph order v
  mem : ∀ v, v ∈ order ↔ v ∈ g.nodes ∧ ¬ g.FromCycle v
  before : ∀ u v, g.Edge u v → v ∈ order → u ∈ order ∧ order.idxOf u < order.idxOf v

/-- **The first sort** ends, in a state as `Sorted` has it. -/
theorem topoSortRun_spec (cs : List GraphCall) : ∃ order g',
    (calls cs).topoSortRun = some (order, g') ∧ (calls cs).topoSort = some order ∧
      Sorted (calls cs) order g' := by
  have hg := calls_graphs cs
  obtain ⟨order, d', hrun, -, -, hd', -⟩ := Kahn.sortRun_spec hg.ordered (calls cs).inDegree
  obtain ⟨order', hsort, hcorrect⟩ := topoSort_correct cs
  have hrun' : (calls cs).topoSortRun = some (order, { calls cs with inDegree := d' }) := by
    rw [topoSortRun, hrun]
    rfl
  rw [topoSort_eq, hrun', Option.map_some] at hsort
  obtain rfl := Option.some.inj hsort
  exact ⟨order, _, hrun', by rw [topoSort_eq, hrun']; rfl, rfl, rfl, hd', hcorrect.mem,
    hcorrect.before⟩

section Sorted

variable {cs : List GraphCall} {order : List ℤ} {g' : TopoGraph ℤ}

/-- The predecessors that are not sorted are left in the counter. -/
theorem Sorted.inDegree_ncard (h : Sorted (calls cs) order g') (v : ℤ) :
    g'.inDegree v = {u | (calls cs).Edge u v ∧ (calls cs).FromCycle u}.ncard := by
  have hg := calls_graphs cs
  have hsplit : Kahn.predsIn (calls cs).nodes (calls cs).graph order v +
      Kahn.waiting (calls cs).nodes (calls cs).graph order v =
        (calls cs).nodes.countP fun u => v ∈ (calls cs).graph u :=
    Kahn.predsIn_add_waiting order v
  have hwait : Kahn.waiting (calls cs).nodes (calls cs).graph order v =
      {u | (calls cs).Edge u v ∧ (calls cs).FromCycle u}.ncard := by
    rw [Kahn.waiting, hg.countP_ncard v fun u => u ∉ order]
    congr 1
    ext u
    refine and_congr_right fun hu => ?_
    rw [h.mem, not_and, not_not]
    exact ⟨fun hf => hf (hg.ordered.source u v hu), fun hf _ => hf⟩
  rw [h.inDegree, hg.degree, ← hwait]
  omega

/-- What the sorted nodes took from a counter. -/
theorem Sorted.predsIn_ncard (h : Sorted (calls cs) order g') (v : ℤ) :
    Kahn.predsIn (calls cs).nodes (calls cs).graph order v =
      {u | (calls cs).Edge u v ∧ ¬ (calls cs).FromCycle u}.ncard := by
  have hg := calls_graphs cs
  rw [Kahn.predsIn_eq, hg.countP_ncard v fun u => u ∈ order]
  congr 1
  ext u
  refine and_congr_right fun hu => ?_
  rw [h.mem]
  exact and_iff_right (hg.ordered.source u v hu)

end Sorted

/-! ### More calls -/

/-- The same graphs, but for counters that are too low by `low`. -/
structure LowBy (low : ℤ → ℤ) (g g' : TopoGraph ℤ) : Prop where
  nodes : g'.nodes = g.nodes
  graph : g'.graph = g.graph
  inDegree : ∀ v, g'.inDegree v = g.inDegree v - low v
  other : ∀ v, v ∉ g.nodes → low v = 0

/-- A new node has its counter at 0 in both graphs. -/
theorem LowBy.addNode {low : ℤ → ℤ} {g g' : TopoGraph ℤ} (h : LowBy low g g') (v : ℤ) :
    LowBy low (g.addNode v) (g'.addNode v) := by
  unfold TopoGraph.addNode
  rw [h.nodes]
  split
  · exact h
  · rename_i hv
    refine ⟨rfl, by rw [h.graph], fun w => ?_, fun w hw => ?_⟩
    · by_cases hwv : w = v
      · subst hwv
        simp [h.other w hv]
      · simpa [hwv] using h.inDegree w
    · refine h.other w fun hm => hw ?_
      exact (List.mem_orderedInsert _).mpr (.inr hm)

theorem LowBy.addEdge {low : ℤ → ℤ} {g g' : TopoGraph ℤ} (h : LowBy low g g') (u v : ℤ) :
    LowBy low (g.addEdge u v) (g'.addEdge u v) := by
  have h' := (h.addNode u).addNode v
  unfold TopoGraph.addEdge
  generalize (g.addNode u).addNode v = k at h'
  generalize (g'.addNode u).addNode v = k' at h'
  simp only [h'.graph]
  split
  · exact h'
  · refine ⟨h'.nodes, rfl, fun w => ?_, h'.other⟩
    by_cases hwv : w = v
    · subst hwv
      simp only [Function.update_self, h'.inDegree]
      ring
    · simpa [hwv] using h'.inDegree w

theorem LowBy.calls {low : ℤ → ℤ} {g g' : TopoGraph ℤ} (h : LowBy low g g') (cs : List GraphCall) :
    LowBy low (cs.foldl call g) (cs.foldl call g') := by
  induction cs generalizing g g' with
  | nil => exact h
  | cons c cs ih =>
      cases c with
      | addNode v => exact ih (h.addNode v)
      | addEdge u v => exact ih (h.addEdge u v)

/-- The calls are made one after another. -/
theorem calls_append (cs cs' : List GraphCall) :
    calls (cs ++ cs') = cs'.foldl call (calls cs) := List.foldl_append ..

/-- What the first sort takes from the counters stays taken. -/
theorem Sorted.lowBy {cs : List GraphCall} {order : List ℤ} {g' : TopoGraph ℤ}
    (h : Sorted (calls cs) order g') (cs' : List GraphCall) :
    LowBy (fun v => Kahn.predsIn (calls cs).nodes (calls cs).graph order v)
      (calls (cs ++ cs')) (cs'.foldl call g') := by
  have hg := calls_graphs cs
  rw [calls_append]
  refine LowBy.calls ⟨h.nodes, h.graph, h.inDegree, fun v hv => ?_⟩ cs'
  rw [Nat.cast_eq_zero, Kahn.predsIn_eq, List.countP_eq_zero]
  intro u _ hu
  exact hv (hg.ordered.target u v (of_decide_eq_true hu).1)

theorem edge_append {cs : List GraphCall} {u v : ℤ} (h : (calls cs).Edge u v)
    (cs' : List GraphCall) : (calls (cs ++ cs')).Edge u v := by
  rw [TopoGraph.Edge, (calls_graphs _).mem_graph, mem_edgesOf] at h ⊢
  exact List.mem_append_left _ h

/-! ### When the counters do not matter -/

/-- Where only unsorted nodes have predecessors, and each few that are sorted, the counters that
are too low change nothing. -/
theorem Unsorted.later {cs : List GraphCall} {order : List ℤ} {g' : TopoGraph ℤ}
    (h : Unsorted (calls cs)) (hs : Sorted (calls cs) order g') (cs' : List GraphCall) :
    (cs'.foldl call g').topoSort = (calls (cs ++ cs')).topoSort := by
  have hg := calls_graphs cs
  have hG := calls_graphs (cs ++ cs')
  have hlow := hs.lowBy cs'
  let dead := (calls cs).nodes.filter fun v => v ∉ order
  have hdead : ∀ v, v ∈ dead ↔ (calls cs).FromCycle v := by
    intro v
    rw [List.mem_filter, decide_eq_true_eq, hs.mem, not_and, not_not]
    exact ⟨fun hv => hv.2 hv.1, fun hv => ⟨hg.mem_of_fromCycle hv, fun _ => hv⟩⟩
  have hshift : Kahn.Shifted (calls (cs ++ cs')).nodes (calls (cs ++ cs')).graph dead
      (calls (cs ++ cs')).inDegree (cs'.foldl call g').inDegree := by
    refine ⟨fun v _ hv => ?_, fun v _ hv => ?_⟩
    · have hnone : Kahn.predsIn (calls cs).nodes (calls cs).graph order v = 0 := by
        rw [Kahn.predsIn_eq, List.countP_eq_zero]
        intro u _ hu
        exact hv ((hdead v).mpr (h.edge u v (of_decide_eq_true hu).1))
      rw [hlow.inDegree, hnone, Nat.cast_zero, Int.sub_zero]
    · have hbehind := h.behind v ((hdead v).mp hv)
      rw [← hs.predsIn_ncard] at hbehind
      have hmono : {u | (calls cs).Edge u v ∧ (calls cs).FromCycle u}.ncard ≤
          Kahn.predsIn (calls (cs ++ cs')).nodes (calls (cs ++ cs')).graph dead v := by
        rw [Kahn.predsIn_eq, hG.countP_ncard v fun u => u ∈ dead]
        refine Set.ncard_le_ncard (fun u hu => ?_) ((hG.finite v).subset fun u hu => hu.1)
        exact ⟨edge_append hu.1 cs', (hdead u).mpr hu.2⟩
      rw [hlow.inDegree]
      omega
  have hsort := Kahn.sort_shift hG.ordered (fun v _ => hG.degree v) hshift
  rw [topoSort, topoSort, hlow.nodes, hlow.graph]
  exact hsort

/-- The last call adds its edge and no other. -/
theorem edge_addEdge {cs : List GraphCall} {x u a b : ℤ} :
    (calls (cs ++ [.addEdge x u])).Edge a b ↔ (calls cs).Edge a b ∨ a = x ∧ b = u := by
  rw [TopoGraph.Edge, TopoGraph.Edge, (calls_graphs _).mem_graph, (calls_graphs _).mem_graph,
    mem_edgesOf, mem_edgesOf, List.mem_append, List.mem_singleton, GraphCall.addEdge.injEq]

/-- A new node before `u` counts for `u`. -/
theorem inDegree_addEdge {cs : List GraphCall} {x : ℤ} (hx : x ∉ (calls cs).nodes) (u v : ℤ) :
    (calls (cs ++ [.addEdge x u])).inDegree v =
      (calls cs).inDegree v + if v = u then 1 else 0 := by
  have hg := calls_graphs cs
  have hnew : x ∉ {a | (calls cs).Edge a v} := fun hax => hx (hg.ordered.source x v hax)
  rw [(calls_graphs _).degree_ncard, hg.degree_ncard]
  simp only [edge_addEdge]
  by_cases hv : v = u
  · have hset : {a | (calls cs).Edge a v ∨ a = x ∧ v = u} =
        insert x {a | (calls cs).Edge a v} := by
      ext a
      simp [hv, or_comm]
    rw [hset, Set.ncard_insert_of_notMem hnew (hg.finite v), if_pos hv, Nat.cast_succ]
  · simp [hv]

/-- A node that no cycle leads to stays one if a new node is put before another. -/
theorem not_fromCycle_addEdge {cs : List GraphCall} {x u v : ℤ} (hx : x ∉ (calls cs).nodes)
    (hu : u ∈ (calls cs).nodes) (hv : ¬ (calls cs).FromCycle v) :
    ¬ (calls (cs ++ [.addEdge x u])).FromCycle v := by
  have hg := calls_graphs cs
  have hG := calls_graphs (cs ++ [.addEdge x u])
  -- nothing leads to the new node
  have hroot : Acc (calls (cs ++ [.addEdge x u])).Edge x := by
    refine .intro x fun a hax => ?_
    rcases edge_addEdge.mp hax with hax | ⟨-, rfl⟩
    · exact absurd (hg.ordered.target a x hax) hx
    · exact absurd hu hx
  rw [← hG.acc_iff]
  induction (hg.acc_iff v).mpr hv with
  | intro v hacc ih =>
      refine .intro v fun a hav => ?_
      rcases edge_addEdge.mp hav with hav | ⟨rfl, -⟩
      · exact ih a hav ((hg.acc_iff a).mp (hacc a hav))
      · exact hroot

theorem named_append {cs : List GraphCall} {v : ℤ} (h : Named cs v) (cs' : List GraphCall) :
    Named (cs ++ cs') v := by
  rcases h with h | ⟨u, h | h⟩
  · exact .inl (List.mem_append_left _ h)
  · exact .inr ⟨u, .inl (List.mem_append_left _ h)⟩
  · exact .inr ⟨u, .inr (List.mem_append_left _ h)⟩

/-- A node that is in the queue at the start comes before one that is not. -/
theorem idxOf_lt_of_prefix {l order : List ℤ} (h : l <+: order) {u v : ℤ} (hv : v ∈ l)
    (hu : u ∉ l) : order.idxOf v < order.idxOf u := by
  obtain ⟨rest, rfl⟩ := h
  rw [List.idxOf_append_of_mem hv, List.idxOf_append_of_notMem hu]
  exact Nat.lt_add_right _ (List.idxOf_lt_length_iff.mpr hv)

/-- The counter of a node that is sorted is 0 afterwards. -/
theorem Sorted.inDegree_eq_zero {cs : List GraphCall} {order : List ℤ} {g' : TopoGraph ℤ}
    (h : Sorted (calls cs) order g') {v : ℤ} (hv : ¬ (calls cs).FromCycle v) :
    g'.inDegree v = 0 := by
  have hnone : {u | (calls cs).Edge u v ∧ (calls cs).FromCycle u} = ∅ := by
    refine Set.eq_empty_iff_forall_notMem.mpr fun u hu => hv ?_
    obtain ⟨huv, c, hcycle, hpath⟩ := hu
    exact ⟨c, hcycle, hpath.tail huv⟩
  rw [h.inDegree_ncard, hnone, Set.ncard_empty, Nat.cast_zero]

/-- An edge to a node that is sorted is lost in the counters: with a new node before its source, the
next sort takes its target first. -/
theorem Kept.edge {cs : List GraphCall} (h : Kept cs) (u v : ℤ) (huv : (calls cs).Edge u v) :
    (calls cs).FromCycle v := by
  by_contra hv
  obtain ⟨order, g', hrun, -, hs⟩ := topoSortRun_spec cs
  have hg := calls_graphs cs
  obtain ⟨x, hx⟩ := Infinite.exists_notMem_finset (calls cs).nodes.toFinset
  rw [List.mem_toFinset] at hx
  have hun := hg.ordered.source u v huv
  have hvn := hg.ordered.target u v huv
  have hne : v ≠ u := by
    rintro rfl
    exact hv ⟨v, .single huv, .refl⟩
  -- the graph with the edge, sorted without the first sort
  obtain ⟨order₂, _, -, hsort, hs₂⟩ := topoSortRun_spec (cs ++ [.addEdge x u])
  have hvn₂ : v ∈ (calls (cs ++ [.addEdge x u])).nodes :=
    ((calls_graphs _).mem_nodes v).mpr (named_append ((hg.mem_nodes v).mp hvn) _)
  have hforth : order₂.idxOf u < order₂.idxOf v := (hs₂.before u v (edge_append huv _)
    ((hs₂.mem v).mpr ⟨hvn₂, not_fromCycle_addEdge hx hun hv⟩)).2
  -- and after it
  have hlow := hs.lowBy [.addEdge x u]
  have hlater := h.later order g' hrun [.addEdge x u]
  generalize [GraphCall.addEdge x u].foldl call g' = G at hlow hlater
  have hdegree : ∀ w, G.inDegree w = g'.inDegree w + if w = u then 1 else 0 := by
    intro w
    rw [hlow.inDegree, inDegree_addEdge hx, hs.inDegree]
    ring
  have hGo : Kahn.Ordered G.nodes G.graph := by
    rw [hlow.nodes, hlow.graph]
    exact (calls_graphs _).ordered
  obtain ⟨order₃, d', hrun₃, -, -, -, hpre⟩ := Kahn.sortRun_spec hGo G.inDegree
  rw [topoSort, Kahn.sort_eq_sortRun, hrun₃, hsort, Option.map_some] at hlater
  obtain rfl : order₃ = order₂ := Option.some.inj hlater
  have hback : order₃.idxOf v < order₃.idxOf u := by
    refine idxOf_lt_of_prefix hpre ?_ ?_
    · rw [List.mem_filter, decide_eq_true_eq, hdegree, if_neg hne, hs.inDegree_eq_zero hv]
      exact ⟨hlow.nodes ▸ hvn₂, rfl⟩
    · rw [List.mem_filter, decide_eq_true_eq, hdegree, if_pos rfl, hs.inDegree_ncard]
      rintro ⟨-, hzero⟩
      omega
  exact lt_asymm hforth hback

/-- Where the order is kept, a node behind a cycle has more predecessors behind one than others. -/
theorem Kept.behind {cs : List GraphCall} (h : Kept cs) (v : ℤ) (hv : (calls cs).FromCycle v) :
    {u | (calls cs).Edge u v ∧ ¬ (calls cs).FromCycle u}.ncard <
      {u | (calls cs).Edge u v ∧ (calls cs).FromCycle u}.ncard := by
  by_contra hle
  obtain ⟨order, g', hrun, -, hs⟩ := topoSortRun_spec cs
  have hg := calls_graphs cs
  have hg' : Kahn.Ordered g'.nodes g'.graph := by
    rw [hs.nodes, hs.graph]
    exact hg.ordered
  obtain ⟨order₂, d', hrun₂, -, hmem, -, -⟩ := Kahn.sortRun_spec hg' g'.inDegree
  have hagain := h.again order g' hrun
  rw [topoSort, Kahn.sort_eq_sortRun, hrun₂, Option.map_some] at hagain
  obtain rfl : order₂ = order := Option.some.inj hagain
  have hnot : v ∉ order₂ := fun hm => ((hs.mem v).mp hm).2 hv
  refine hnot ((hmem v).mpr ⟨hs.nodes ▸ hg.mem_of_fromCycle hv, ?_⟩)
  rw [hs.inDegree_ncard, hs.nodes, hs.graph, hs.predsIn_ncard]
  omega

/-- **Main result.**  A sort changes no sort after it if and only if no edge leads to a node that is
sorted, and of the predecessors of every other node less are sorted than are not. -/
theorem kept_iff (cs : List GraphCall) : Kept cs ↔ Unsorted (calls cs) := by
  constructor
  · exact fun h => ⟨h.edge, h.behind⟩
  · intro h
    have hlater : ∀ order g, (calls cs).topoSortRun = some (order, g) →
        ∀ cs', (cs'.foldl call g).topoSort = (calls (cs ++ cs')).topoSort := by
      intro order g hrun cs'
      obtain ⟨order', g', hrun', -, hs⟩ := topoSortRun_spec cs
      obtain ⟨rfl, rfl⟩ := Prod.mk.inj (Option.some.inj (hrun.symm.trans hrun'))
      exact h.later hs cs'
    refine ⟨fun order g hrun => ?_, hlater⟩
    have hsame := hlater order g hrun []
    rw [List.append_nil, topoSort_eq (calls cs), hrun] at hsame
    exact hsame

/-- One edge: the second sort takes its ends in the order of the nodes. -/
theorem not_kept_edge : ¬ Kept [.addEdge 2 1] := by
  intro h
  have hfirst : (calls [.addEdge 2 1]).topoSortRun.map (·.1) = some [2, 1] := by decide
  have hsecond : ((calls [.addEdge 2 1]).topoSortRun.bind fun r => r.2.topoSort) =
      some [1, 2] := by decide
  obtain ⟨⟨order, g⟩, hrun, rfl⟩ := Option.map_eq_some_iff.mp hfirst
  rw [hrun, Option.bind_some, h.again _ g hrun] at hsecond
  revert hsecond
  decide

end VulcanDB.Express
