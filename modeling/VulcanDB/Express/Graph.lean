import Mathlib.Data.BitVec
import Mathlib.Data.Set.Card
import VulcanDB.Express.Sql
import VulcanDB.Library.Numbers

/-!
# EXPRESS — The graph

`TopoGraph` after any sequence of calls of `add_node` and `add_edge`, and its first `topo_sort`.
The counters are exact integers first, and then the `int`s of `in_degree_`, which wrap.

* `calls_graphs`, `topoGraph_graphs`: the graph has the nodes and the edges that were added.
* `topoSort_correct`: what is sorted, and in which order, with exact counters.
* `calls_map`: with other counters the graph is the same.
* `topoSort_correct_iff`: the calls after which the `int`s do as well.
-/

namespace VulcanDB.Express

open Cxx Steps Relation

/-! ### The graph -/

/-- A graph of the nodes of `N`, with the edges in `es`. -/
structure Graphs (N : ℤ → Prop) (es : List (ℤ × ℤ)) (g : TopoGraph ℤ) : Prop where
  nodes_lt : g.nodes.Pairwise (· < ·)
  mem_nodes : ∀ v, v ∈ g.nodes ↔ N v
  graph_lt : ∀ u, (g.graph u).Pairwise (· < ·)
  mem_graph : ∀ u v, v ∈ g.graph u ↔ (u, v) ∈ es
  ends : ∀ e ∈ es, N e.1 ∧ N e.2
  degree : ∀ v, g.inDegree v = g.nodes.countP fun u => v ∈ g.graph u

section Graph

variable {N : ℤ → Prop} {es : List (ℤ × ℤ)} {g : TopoGraph ℤ}

theorem orderedInsert_lt {l : List ℤ} (h : l.Pairwise (· < ·)) {v : ℤ} (hv : v ∉ l) :
    (l.orderedInsert (· ≤ ·) v).Pairwise (· < ·) := by
  have hle : (l.orderedInsert (· ≤ ·) v).Pairwise (· ≤ ·) :=
    (h.imp fun hlt => hlt.le).orderedInsert v l
  have hnodup : (l.orderedInsert (· ≤ ·) v).Nodup :=
    (List.perm_orderedInsert _ v l).nodup_iff.mpr (List.nodup_cons.mpr ⟨hv, h.imp fun hlt => hlt.ne⟩)
  exact (hle.and hnodup).imp fun h => lt_of_le_of_ne h.1 h.2

/-- `add_node` keeps the graph one of these nodes and edges. -/
theorem Graphs.addNode (h : Graphs N es g) (v : ℤ) :
    Graphs (fun u => N u ∨ u = v) es (g.addNode v) := by
  unfold TopoGraph.addNode
  split
  · rename_i hv
    refine ⟨h.nodes_lt, fun u => ?_, h.graph_lt, h.mem_graph, fun e he => ?_, h.degree⟩
    · rw [h.mem_nodes]
      exact ⟨.inl, fun hu => hu.elim id fun heq => heq ▸ (h.mem_nodes v).mp hv⟩
    · exact ⟨.inl (h.ends e he).1, .inl (h.ends e he).2⟩
  · rename_i hv
    have hnew : ¬ N v := fun hn => hv ((h.mem_nodes v).mpr hn)
    have hgraph : Function.update g.graph v [] = g.graph := by
      have hnil : g.graph v = [] := List.eq_nil_iff_forall_not_mem.mpr fun w hw =>
        hnew (h.ends _ ((h.mem_graph v w).mp hw)).1
      rw [← hnil, Function.update_eq_self]
    have hdegree : Function.update g.inDegree v 0 = g.inDegree := by
      have hzero : g.inDegree v = 0 := by
        rw [h.degree, Nat.cast_eq_zero, List.countP_eq_zero]
        exact fun u _ hu => hnew (h.ends _ ((h.mem_graph u v).mp (of_decide_eq_true hu))).2
      rw [← hzero, Function.update_eq_self]
    rw [hgraph, hdegree]
    refine ⟨orderedInsert_lt h.nodes_lt hv, fun u => ?_, h.graph_lt, h.mem_graph, fun e he => ?_,
      fun w => ?_⟩
    · rw [List.mem_orderedInsert, h.mem_nodes, or_comm]
    · exact ⟨.inl (h.ends e he).1, .inl (h.ends e he).2⟩
    · have hfrom : w ∉ g.graph v := fun hw => hnew (h.ends _ ((h.mem_graph v w).mp hw)).1
      rw [h.degree, (List.perm_orderedInsert _ v g.nodes).countP_eq, List.countP_cons_of_neg]
      simpa using hfrom

/-- One more edge into `v`. -/
theorem countP_edge {nodes : List ℤ} {graph graph' : ℤ → List ℤ} {u v : ℤ} (hnodup : nodes.Nodup)
    (hu : u ∈ nodes) (hother : ∀ x, x ≠ u → graph' x = graph x) (hold : v ∉ graph u)
    (hnew : v ∈ graph' u) : nodes.countP (fun x => v ∈ graph' x) =
      nodes.countP (fun x => v ∈ graph x) + 1 := by
  have hperm := List.perm_cons_erase hu
  have hsame : (nodes.erase u).countP (fun x => v ∈ graph' x) =
      (nodes.erase u).countP fun x => v ∈ graph x := by
    refine List.countP_congr fun x hx => ?_
    rw [hother x fun heq => hnodup.not_mem_erase (heq ▸ hx)]
  rw [hperm.countP_eq, hperm.countP_eq, List.countP_cons, List.countP_cons, hsame]
  simp [hold, hnew]

theorem Graphs.addEdge (h : Graphs N es g) (u v : ℤ) :
    Graphs (fun w => N w ∨ w = u ∨ w = v) (es ++ [(u, v)]) (g.addEdge u v) := by
  -- both ends are nodes from here on
  have h' := (h.addNode u).addNode v
  unfold TopoGraph.addEdge
  generalize (g.addNode u).addNode v = g' at h' ⊢
  have hends : ∀ e ∈ es ++ [(u, v)], (N e.1 ∨ e.1 = u ∨ e.1 = v) ∧ (N e.2 ∨ e.2 = u ∨ e.2 = v) := by
    intro e he
    rcases List.mem_append.mp he with he | he
    · exact ⟨.inl (h.ends e he).1, .inl (h.ends e he).2⟩
    · rw [List.mem_singleton.mp he]
      exact ⟨.inr (.inl rfl), .inr (.inr rfl)⟩
  have hnodes : ∀ w, w ∈ g'.nodes ↔ N w ∨ w = u ∨ w = v := fun w =>
    (h'.mem_nodes w).trans or_assoc
  dsimp only
  split
  · -- the edge is there already
    rename_i hv
    refine ⟨h'.nodes_lt, hnodes, h'.graph_lt, fun x y => ?_, hends, h'.degree⟩
    rw [h'.mem_graph, List.mem_append, List.mem_singleton]
    exact ⟨.inl, fun hxy => hxy.elim id fun heq => heq ▸ (h'.mem_graph u v).mp hv⟩
  · rename_i hv
    -- a new edge, which counts at its end
    have hu : u ∈ g'.nodes := (hnodes u).mpr (.inr (.inl rfl))
    have hself : Function.update g'.graph u ((g'.graph u).orderedInsert (· ≤ ·) v) u =
        (g'.graph u).orderedInsert (· ≤ ·) v := Function.update_self ..
    have hother : ∀ x, x ≠ u →
        Function.update g'.graph u ((g'.graph u).orderedInsert (· ≤ ·) v) x = g'.graph x :=
      fun x hx => Function.update_of_ne hx ..
    generalize Function.update g'.graph u ((g'.graph u).orderedInsert (· ≤ ·) v) = graph at *
    refine ⟨h'.nodes_lt, hnodes, fun x => ?_, fun x y => ?_, hends, fun w => ?_⟩
    · show (graph x).Pairwise (· < ·)
      by_cases hxu : x = u
      · subst hxu
        rw [hself]
        exact orderedInsert_lt (h'.graph_lt x) hv
      · rw [hother x hxu]
        exact h'.graph_lt x
    · rw [List.mem_append, List.mem_singleton, Prod.mk.injEq, ← h'.mem_graph]
      by_cases hxu : x = u
      · subst hxu
        show y ∈ graph x ↔ _
        rw [hself, List.mem_orderedInsert]
        simp [or_comm]
      · show y ∈ graph x ↔ _
        rw [hother x hxu]
        simp [hxu]
    · show Function.update g'.inDegree v (g'.inDegree v + 1) w =
        g'.nodes.countP fun x => w ∈ graph x
      by_cases hwv : w = v
      · subst hwv
        rw [Function.update_self, h'.degree, countP_edge (h'.nodes_lt.imp fun hlt => hlt.ne) hu hother hv
          (by rw [hself, List.mem_orderedInsert]; exact .inl rfl), Nat.cast_succ]
      · rw [Function.update_of_ne hwv, h'.degree, Nat.cast_inj]
        refine List.countP_congr fun x _ => ?_
        by_cases hxu : x = u
        · subst hxu
          simp [hself, hwv]
        · rw [hother x hxu]

end Graph

/-! ### Calls -/

/-- A call on the graph. -/
inductive GraphCall
  | addNode (v : ℤ)
  | addEdge (u v : ℤ)
  deriving DecidableEq

namespace TopoGraph

section Counters

variable {C : Type} [DecidableEq C] [Zero C] [One C] [Add C] [Sub C]

/-- One call. -/
def call (g : TopoGraph C) : GraphCall → TopoGraph C
  | .addNode v => g.addNode v
  | .addEdge u v => g.addEdge u v

/-- There is an edge from `u` to `v`. -/
def Edge (g : TopoGraph C) (u v : ℤ) : Prop := v ∈ g.graph u

/-- The node is on a cycle, or one leads to it. -/
def FromCycle (g : TopoGraph C) (v : ℤ) : Prop :=
  ∃ c, TransGen g.Edge c c ∧ ReflTransGen g.Edge c v

end Counters

/-- The graph after the calls. -/
def calls (cs : List GraphCall) : TopoGraph ℤ := cs.foldl call .empty

/-- A counter of `in_degree_`, an `int`. -/
abbrev Counter := BitVec 32

/-- The graph after the calls, with the counters that the code has. -/
def callsInt (cs : List GraphCall) : TopoGraph Counter := cs.foldl call .empty

/-- What the counters, as the numbers that they stand for, and the first sort of a graph are to
be. -/
structure Correct {C : Type} (value : C → ℤ) (g : TopoGraph C) (order : List ℤ) : Prop where
  degree : ∀ v, value (g.inDegree v) = {u | g.Edge u v}.ncard
  once : order.Nodup
  mem : ∀ v, v ∈ order ↔ v ∈ g.nodes ∧ ¬ g.FromCycle v
  before : ∀ u v, g.Edge u v → v ∈ order → u ∈ order ∧ order.idxOf u < order.idxOf v
  acyclic : (∀ v, ¬ TransGen g.Edge v v) → order.Perm g.nodes

end TopoGraph

/-- The calls name the node. -/
def Named (cs : List GraphCall) (v : ℤ) : Prop :=
  .addNode v ∈ cs ∨ ∃ u, .addEdge u v ∈ cs ∨ .addEdge v u ∈ cs

/-- The edges of the calls, each as often as it was added. -/
def edgesOf (cs : List GraphCall) : List (ℤ × ℤ) :=
  cs.filterMap fun
    | .addNode _ => none
    | .addEdge u v => some (u, v)

theorem mem_edgesOf {cs : List GraphCall} {u v : ℤ} :
    (u, v) ∈ edgesOf cs ↔ .addEdge u v ∈ cs := by
  simp only [edgesOf, List.mem_filterMap]
  constructor
  · rintro ⟨c, hc, he⟩
    cases c with
    | addNode w => cases he
    | addEdge a b =>
        obtain ⟨rfl, rfl⟩ := Prod.mk.inj (Option.some.inj he)
        exact hc
  · exact fun h => ⟨_, h, rfl⟩

open TopoGraph

/-- **The graph of the calls.** -/
theorem calls_graphs (cs : List GraphCall) : Graphs (Named cs) (edgesOf cs) (calls cs) := by
  -- from the first call to the last
  induction cs using List.reverseRecOn with
  | nil =>
      refine ⟨.nil, ?_, fun _ => .nil, ?_, ?_, ?_⟩ <;>
        simp [calls, TopoGraph.empty, Named, edgesOf]
  | append_singleton cs c ih =>
      have hstep : calls (cs ++ [c]) = (calls cs).call c := by
        rw [calls, List.foldl_append]
        rfl
      rw [hstep]
      cases c with
      | addNode v =>
          have hnodes : Named (cs ++ [.addNode v]) = fun u => Named cs u ∨ u = v := by
            funext u
            simp [Named, or_right_comm]
          have hedges : edgesOf (cs ++ [.addNode v]) = edgesOf cs := by simp [edgesOf]
          rw [hnodes, hedges]
          exact ih.addNode v
      | addEdge u v =>
          have hnodes : Named (cs ++ [.addEdge u v]) = fun w => Named cs w ∨ w = u ∨ w = v := by
            funext w
            simp only [Named, List.mem_append, List.mem_singleton, GraphCall.addEdge.injEq,
              reduceCtorEq, or_false, eq_iff_iff]
            constructor
            · rintro (h | ⟨x, (h | ⟨rfl, rfl⟩) | h | ⟨rfl, rfl⟩⟩)
              · exact .inl (.inl h)
              · exact .inl (.inr ⟨x, .inl h⟩)
              · exact .inr (.inr rfl)
              · exact .inl (.inr ⟨x, .inr h⟩)
              · exact .inr (.inl rfl)
            · rintro ((h | ⟨x, h | h⟩) | rfl | rfl)
              · exact .inl h
              · exact .inr ⟨x, .inl (.inl h)⟩
              · exact .inr ⟨x, .inr (.inl h)⟩
              · exact .inr ⟨v, .inr (.inr ⟨rfl, rfl⟩)⟩
              · exact .inr ⟨u, .inl (.inr ⟨rfl, rfl⟩)⟩
          have hedges : edgesOf (cs ++ [.addEdge u v]) = edgesOf cs ++ [(u, v)] := by
            simp [edgesOf]
          rw [hnodes, hedges]
          exact ih.addEdge u v

/-- The graph of a schema is made by calls. -/
theorem topoGraph_eq_calls (es : List (ℤ × ℤ)) :
    topoGraph es = calls (es.map fun e => .addEdge e.1 e.2) := by
  rw [calls, List.foldl_map]
  rfl

/-- Its nodes are the ends of its edges. -/
theorem topoGraph_graphs (es : List (ℤ × ℤ)) :
    Graphs (fun v => ∃ e ∈ es, v = e.1 ∨ v = e.2) es (topoGraph es) := by
  have h := calls_graphs (es.map fun e => .addEdge e.1 e.2)
  have hedges : edgesOf (es.map fun e => .addEdge e.1 e.2) = es := by
    rw [edgesOf, List.filterMap_map]
    exact List.filterMap_some
  have hnodes : Named (es.map fun e => .addEdge e.1 e.2) =
      fun v => ∃ e ∈ es, v = e.1 ∨ v = e.2 := by
    funext v
    simp only [Named, List.mem_map, reduceCtorEq, and_false, exists_false, false_or,
      GraphCall.addEdge.injEq, eq_iff_iff]
    constructor
    · rintro ⟨u, ⟨e, he, -, rfl⟩ | ⟨e, he, rfl, -⟩⟩
      · exact ⟨e, he, .inr rfl⟩
      · exact ⟨e, he, .inl rfl⟩
    · rintro ⟨e, he, rfl | rfl⟩
      · exact ⟨e.2, .inr ⟨e, he, rfl, rfl⟩⟩
      · exact ⟨e.1, .inl ⟨e, he, rfl, rfl⟩⟩
  rwa [← topoGraph_eq_calls, hedges, hnodes] at h

/-! ### Sorting -/

theorem Graphs.ordered {N : ℤ → Prop} {es : List (ℤ × ℤ)} {g : TopoGraph ℤ} (h : Graphs N es g) :
    Kahn.Ordered g.nodes g.graph := by
  refine ⟨h.nodes_lt, h.graph_lt, fun u v hv => ?_, fun u v hv => ?_⟩
  · exact (h.mem_nodes u).mpr (h.ends _ ((h.mem_graph u v).mp hv)).1
  · exact (h.mem_nodes v).mpr (h.ends _ ((h.mem_graph u v).mp hv)).2

theorem topoGraph_ordered (es : List (ℤ × ℤ)) :
    Kahn.Ordered (topoGraph es).nodes (topoGraph es).graph := (topoGraph_graphs es).ordered

/-- A counter is the number of the distinct predecessors. -/
theorem Graphs.degree_ncard {N : ℤ → Prop} {es : List (ℤ × ℤ)} {g : TopoGraph ℤ}
    (h : Graphs N es g) (v : ℤ) : g.inDegree v = {u | g.Edge u v}.ncard := by
  have hset : {u | g.Edge u v} = ((g.nodes.filter fun u => v ∈ g.graph u).toFinset : Set ℤ) := by
    ext u
    simp only [Set.mem_ofPred_eq, List.coe_toFinset, List.mem_filter, decide_eq_true_eq]
    exact ⟨fun hu => ⟨h.ordered.source u v hu, hu⟩, fun hu => hu.2⟩
  have hnodup : (g.nodes.filter fun u => v ∈ g.graph u).Nodup :=
    (h.nodes_lt.imp fun hlt => hlt.ne).filter _
  rw [h.degree, hset, Set.ncard_coe_finset, List.toFinset_card_of_nodup hnodup,
    List.countP_eq_length_filter]

/-- After any calls exact counters are right, and the first sort gives the nodes that no cycle leads
to, once each and every edge forwards; without cycles it gives all nodes. -/
theorem topoSort_correct (cs : List GraphCall) :
    ∃ order, (calls cs).topoSort = some order ∧ Correct id (calls cs) order := by
  have hg := calls_graphs cs
  obtain ⟨order, hsort, hnodup, hmem, hpairs⟩ :=
    Kahn.sort_spec hg.ordered fun v _ => hg.degree v
  have hmem' : ∀ v, v ∈ order ↔ v ∈ (calls cs).nodes ∧ ¬ (calls cs).FromCycle v := fun v => by
    rw [hmem, Kahn.acc_iff_no_cycle hg.ordered]
    rfl
  refine ⟨order, hsort, hg.degree_ncard, hnodup, hmem', fun u v huv hv => ?_, fun hacyclic => ?_⟩
  · have hu : u ∈ order :=
      (hmem u).mpr ⟨hg.ordered.source u v huv, ((hmem v).mp hv).2.inv huv⟩
    have hne : u ≠ v := by
      rintro rfl
      exact Kahn.not_acc_of_loop huv ((hmem u).mp hu).2
    exact ⟨hu, Kahn.idxOf_lt_of_edge hpairs hu hv huv hne⟩
  · refine (List.perm_ext_iff_of_nodup hnodup (hg.nodes_lt.imp fun hlt => hlt.ne)).mpr fun v => ?_
    rw [hmem']
    exact and_iff_left fun ⟨c, hc, _⟩ => hacyclic c hc

/-! ### The counters of the code -/

/-- The graph with other counters. -/
def TopoGraph.map {C : Type} (f : ℤ → C) (g : TopoGraph ℤ) : TopoGraph C :=
  ⟨g.nodes, g.graph, fun v => f (g.inDegree v)⟩

/-- A counter that is set, seen through another representation. -/
theorem update_map {C : Type} (f : ℤ → C) (d : ℤ → ℤ) (v x : ℤ) :
    Function.update (fun w => f (d w)) v (f x) = fun w => f (Function.update d v x w) := by
  funext w
  rcases eq_or_ne w v with rfl | hw
  · rw [Function.update_self, Function.update_self]
  · rw [Function.update_of_ne hw, Function.update_of_ne hw]

/-- An integer as the `int` that it wraps to. -/
def toCounter (n : ℤ) : Counter := BitVec.ofInt 32 n

theorem toCounter_succ (n : ℤ) : toCounter (n + 1) = toCounter n + 1 := BitVec.ofInt_add n 1

/-- A counter that wraps is the `int` of the number. -/
theorem toInt_toCounter (n : ℤ) : (toCounter n).toInt = asInt n := BitVec.toInt_ofInt n

theorem addNode_map (g : TopoGraph ℤ) (v : ℤ) :
    (g.map toCounter).addNode v = (g.addNode v).map toCounter := by
  by_cases hv : v ∈ g.nodes
  · have hmap : v ∈ (g.map toCounter).nodes := hv
    rw [TopoGraph.addNode, TopoGraph.addNode, if_pos hv, if_pos hmap]
  · have hmap : v ∉ (g.map toCounter).nodes := hv
    rw [TopoGraph.addNode, TopoGraph.addNode, if_neg hv, if_neg hmap]
    exact congrArg (TopoGraph.mk _ _) (update_map toCounter g.inDegree v 0)

theorem addEdge_map (g : TopoGraph ℤ) (u v : ℤ) :
    (g.map toCounter).addEdge u v = (g.addEdge u v).map toCounter := by
  rw [TopoGraph.addEdge, TopoGraph.addEdge, addNode_map, addNode_map]
  generalize (g.addNode u).addNode v = g'
  by_cases hv : v ∈ g'.graph u
  · have hmap : v ∈ (g'.map toCounter).graph u := hv
    simp only [if_pos hv, if_pos hmap]
  · have hmap : v ∉ (g'.map toCounter).graph u := hv
    simp only [if_neg hv, if_neg hmap]
    have hcounter := update_map toCounter g'.inDegree v (g'.inDegree v + 1)
    rw [toCounter_succ] at hcounter
    exact congrArg (TopoGraph.mk _ _) hcounter

/-- **The graph is the same**, and its counters are the exact ones as `int`s. -/
theorem calls_map (cs : List GraphCall) : callsInt cs = (calls cs).map toCounter := by
  induction cs using List.reverseRecOn with
  | nil => rfl
  | append_singleton cs c ih =>
      rw [callsInt, calls, List.foldl_append, List.foldl_append, ← callsInt, ← calls, ih]
      cases c with
      | addNode v => exact addNode_map _ v
      | addEdge u v => exact addEdge_map _ u v

/-- The counters stand for the numbers below `2 ^ 31`. -/
theorem toCounter_represents : Kahn.Represents toCounter (2 ^ 31 - 1) := by
  refine ⟨fun x => ?_, fun x hx hlt => ?_⟩
  · have hsucc := toCounter_succ (x - 1)
    rw [sub_add_cancel] at hsucc
    rw [hsucc]
    exact (add_sub_cancel_right _ _).symm
  · constructor
    · intro hzero
      have hint := toInt_toCounter x
      rw [hzero, asInt_short (by omega) (by omega)] at hint
      exact hint.symm
    · rintro rfl
      rfl

/-- The number of the calls' edges into a node. -/
theorem edge_ncard (cs : List GraphCall) (v : ℤ) :
    {u | (calls cs).Edge u v} = {u | GraphCall.addEdge u v ∈ cs} := by
  ext u
  exact ((calls_graphs cs).mem_graph u v).trans mem_edgesOf

/-- The graph has the nodes and the edges of the calls, its counters are right, and the first sort
is. -/
structure SortsCorrectly (cs : List GraphCall) : Prop where
  nodes : ∀ v, v ∈ (callsInt cs).nodes ↔ Named cs v
  edges : ∀ u v, (callsInt cs).Edge u v ↔ .addEdge u v ∈ cs
  sort : ∃ order, (callsInt cs).topoSort = some order ∧
    Correct BitVec.toInt (callsInt cs) order

/-- A counter that is right counts less than `2 ^ 31` predecessors. -/
theorem SortsCorrectly.few {cs : List GraphCall} (h : SortsCorrectly cs) (v : ℤ) :
    {u | GraphCall.addEdge u v ∈ cs}.ncard < 2 ^ 31 := by
  obtain ⟨order, -, hcorrect⟩ := h.sort
  have hdegree := hcorrect.degree v
  have hset : {u | (callsInt cs).Edge u v} = {u | GraphCall.addEdge u v ∈ cs} :=
    Set.ext fun u => h.edges u v
  rw [hset] at hdegree
  have hlt := BitVec.toInt_lt (x := (callsInt cs).inDegree v)
  omega

/-- **Main result.**  The counters and the first sort are right if and only if no node has `2 ^ 31`
predecessors, which an `int` cannot count. -/
theorem topoSort_correct_iff (cs : List GraphCall) :
    SortsCorrectly cs ↔ ∀ v, {u | GraphCall.addEdge u v ∈ cs}.ncard < 2 ^ 31 := by
  refine ⟨fun h => h.few, fun hfew => ?_⟩
  have hg := calls_graphs cs
  obtain ⟨order, hsort, hcorrect⟩ := topoSort_correct cs
  have hmap := calls_map cs
  -- below the limit an `int` holds each counter
  have hcount : ∀ v, (calls cs).inDegree v < 2 ^ 31 := by
    intro v
    have := hfew v
    rw [hg.degree_ncard, edge_ncard]
    omega
  have hvalue : ∀ v, ((callsInt cs).inDegree v).toInt = (calls cs).inDegree v := by
    intro v
    have hnonneg : 0 ≤ (calls cs).inDegree v := by
      rw [hg.degree_ncard]
      exact Int.natCast_nonneg _
    rw [hmap]
    exact (toInt_toCounter _).trans (asInt_short (by omega) (hcount v))
  -- so the sort is that of exact counters
  have hsame : (callsInt cs).topoSort = (calls cs).topoSort := by
    rw [hmap]
    refine Kahn.sort_map toCounter_represents hg.ordered (fun v _ => hg.degree v) fun v _ => ?_
    have := hcount v
    rw [hg.degree] at this
    omega
  have hgraph : (callsInt cs).graph = (calls cs).graph := by rw [hmap]; rfl
  have hnodes : (callsInt cs).nodes = (calls cs).nodes := by rw [hmap]; rfl
  have hedge : (callsInt cs).Edge = (calls cs).Edge := by
    funext u v
    rw [TopoGraph.Edge, TopoGraph.Edge, hgraph]
  have hcycle : ∀ v, (callsInt cs).FromCycle v ↔ (calls cs).FromCycle v := by
    intro v
    rw [FromCycle, FromCycle, hedge]
  refine ⟨fun v => ?_, fun u v => ?_, order, hsame.trans hsort, ?_⟩
  · rw [hnodes]
    exact hg.mem_nodes v
  · rw [hedge]
    exact (hg.mem_graph u v).trans mem_edgesOf
  · refine ⟨fun v => ?_, hcorrect.once, fun v => ?_, ?_, ?_⟩
    · rw [hvalue, hedge]
      exact hcorrect.degree v
    · rw [hnodes, hcycle]
      exact hcorrect.mem v
    · rw [hedge]
      exact hcorrect.before
    · rw [hedge, hnodes]
      exact hcorrect.acyclic

/-- The edges from `2 ^ 31` nodes to one. -/
def crowded : List GraphCall := (List.range (2 ^ 31)).map fun i : ℕ => .addEdge (i : ℤ) (-1)

/-- The counter of the last node becomes negative. -/
theorem not_always_topoSort_correct : ¬ SortsCorrectly crowded := by
  intro h
  have hset : {u | GraphCall.addEdge u (-1) ∈ crowded} =
      ((Finset.range (2 ^ 31)).map Nat.castEmbedding : Finset ℤ) := by
    ext u
    simp only [crowded, Set.mem_ofPred_eq, List.mem_map, List.mem_range, GraphCall.addEdge.injEq,
      and_true, Finset.coe_map, Set.mem_image, Finset.mem_coe, Finset.mem_range,
      Nat.castEmbedding_apply]
  have hfew := h.few (-1)
  rw [hset, Set.ncard_coe_finset, Finset.card_map, Finset.card_range] at hfew
  exact lt_irrefl _ hfew

end VulcanDB.Express
