import Mathlib.Data.List.Shortlex
import Mathlib.Logic.Relation
import Mathlib.Order.WellFounded
import Mathlib.Tactic

/-!
# Library — Topological sorting with a queue

Nodes without unvisited predecessors wait in a queue, first in first out, and enter it in the order
of the nodes.  A chain to a node starts at a node without predecessors.

* `sort_spec`: the sort visits, once each, the nodes that no cycle leads to, in the order of their
  greatest chains: the longest, and among those the last in the lexicographic order.
* `sort_map`: counters of another type, as far as they stand for the numbers of the predecessors.
* `acc_of_finite`, `acc_iff_no_cycle`: the nodes that no cycle leads to.
-/

namespace Kahn

open Relation

/-! ### The algorithm -/

section Algorithm

variable {α C : Type*} [DecidableEq α] [DecidableEq C] [Zero C] [One C] [Sub C]

/-- The edges of a node are removed, and the nodes with no edge left to them join the queue. -/
def relax : List α → (α → C) → List α → (α → C) × List α
  | [], d, q => (d, q)
  | v :: vs, d, q =>
    let d := Function.update d v (d v - 1)
    relax vs d (if d v = 0 then q ++ [v] else q)

/-- The queue is served; a successor whose counter falls to 0 joins it. -/
def loop (succ : α → List α) : ℕ → (α → C) → List α → List α → Option (List α)
  | _, _, [], res => some res
  | 0, _, _ :: _, _ => none
  | n + 1, d, u :: q, res =>
    let r := relax (succ u) d q
    loop succ n r.1 r.2 (res ++ [u])

/-- **Kahn's algorithm** on the counters. -/
def sort (nodes : List α) (succ : α → List α) (d : α → C) : Option (List α) :=
  loop succ nodes.length d (nodes.filter fun v => d v = 0) []

end Algorithm

/-! ### Chains -/

section Chains

variable {α : Type*} [LinearOrder α]

/-- A path to a node from a node without predecessors. -/
inductive Chain (E : α → α → Prop) : α → List α → Prop
  | root {v} (h : ∀ u, ¬ E u v) : Chain E v [v]
  | step {u v l} (hl : Chain E u l) (h : E u v) : Chain E v (l ++ [v])

/-- The greatest chain that leads to a node, longer ones first. -/
structure Greatest (E : α → α → Prop) (v : α) (l : List α) : Prop where
  chain : Chain E v l
  le : ∀ l', Chain E v l' → l' = l ∨ List.Shortlex (· < ·) l' l

/-- The greatest chain to `u` is less than the greatest chain to `v`. -/
def Before (E : α → α → Prop) (u v : α) : Prop :=
  ∃ l l', Greatest E u l ∧ Greatest E v l' ∧ List.Shortlex (· < ·) l l'

variable {E : α → α → Prop} {u v : α} {l l' : List α}

omit [LinearOrder α] in
theorem Chain.ne_nil (h : Chain E v l) : l ≠ [] := by
  cases h <;> simp

theorem Greatest.unique (h : Greatest E v l) (h' : Greatest E v l') : l = l' := by
  rcases h'.le l h.chain with heq | hlt
  · exact heq
  · rcases h.le l' h'.chain with heq | hlt'
    · exact heq.symm
    · exact absurd hlt' (Std.Asymm.asymm _ _ hlt)

theorem shortlex_trans {a b c : List α} (h : List.Shortlex (· < ·) a b)
    (h' : List.Shortlex (· < ·) b c) : List.Shortlex (· < ·) a c := by
  rw [List.shortlex_def] at h h' ⊢
  rcases h with h | ⟨h, hl⟩ <;> rcases h' with h' | ⟨h', hl'⟩
  · exact .inl (by omega)
  · exact .inl (by omega)
  · exact .inl (by omega)
  · refine .inr ⟨by omega, (List.lt_iff_lex_lt _ _).mp ?_⟩
    have hab : a < b := (List.lt_iff_lex_lt a b).mpr hl
    have hbc : b < c := (List.lt_iff_lex_lt b c).mpr hl'
    exact hab.trans hbc

theorem Before.asymm (h : Before E u v) : ¬ Before E v u := by
  rintro ⟨l, l', hl, hl', hlt⟩
  obtain ⟨k, k', hk, hk', hlt'⟩ := h
  rw [hk.unique hl', hk'.unique hl] at hlt'
  exact Std.Asymm.asymm _ _ hlt hlt'

/-- A difference stays one in front of more elements. -/
theorem lex_append {a b : List α} (hlen : a.length = b.length) (h : List.Lex (· < ·) a b)
    (x y : List α) : List.Lex (· < ·) (a ++ x) (b ++ y) := by
  induction h with
  | nil => cases hlen
  | cons _ ih => exact .cons (ih (Nat.succ.inj hlen))
  | rel h => exact .rel h

/-- A chain that is less stays less with one more node. -/
theorem shortlex_snoc (h : List.Shortlex (· < ·) l l') (u v : α) :
    List.Shortlex (· < ·) (l ++ [u]) (l' ++ [v]) := by
  rw [List.shortlex_def] at h ⊢
  simp only [List.length_append, List.length_singleton]
  rcases h with h | ⟨h, hl⟩
  · exact .inl (by omega)
  · exact .inr ⟨by omega, lex_append h hl _ _⟩

theorem shortlex_snoc_right (l : List α) (h : u < v) :
    List.Shortlex (· < ·) (l ++ [u]) (l ++ [v]) :=
  List.Shortlex.append_left ((List.shortlex_singleton_iff u v).mpr h) l

end Chains

/-! ### What the loop keeps -/

section Sorting

variable {α : Type*} [LinearOrder α] {nodes : List α} {succ : α → List α}

/-- A graph of nodes in order, each with its successors in order. -/
structure Ordered (nodes : List α) (succ : α → List α) : Prop where
  nodes_lt : nodes.Pairwise (· < ·)
  succ_lt : ∀ u, (succ u).Pairwise (· < ·)
  source : ∀ u v, v ∈ succ u → u ∈ nodes
  target : ∀ u v, v ∈ succ u → v ∈ nodes

/-- The predecessors of `v` that have not been visited. -/
def waiting (nodes : List α) (succ : α → List α) (res : List α) (v : α) : ℕ :=
  nodes.countP fun u => v ∈ succ u ∧ u ∉ res

/-- After the nodes in `res`, with those in `q` in the queue. -/
structure Invariant (nodes : List α) (succ : α → List α) (d : α → ℤ) (q res : List α) : Prop where
  degree : ∀ v ∈ nodes, d v = waiting nodes succ res v
  mem : ∀ v, v ∈ res ++ q ↔ v ∈ nodes ∧ ∀ u, v ∈ succ u → u ∈ res
  greatest : ∀ v ∈ res ++ q, ∃ l, Greatest (fun u v => v ∈ succ u) v l
  sorted : (res ++ q).Pairwise (Before fun u v => v ∈ succ u)

theorem Before.irrefl {E : α → α → Prop} {v : α} : ¬ Before E v v := fun h => h.asymm h

theorem Invariant.nodup {d : α → ℤ} {q res : List α} (h : Invariant nodes succ d q res) :
    (res ++ q).Nodup :=
  h.sorted.imp fun hb => by
    rintro rfl
    exact hb.irrefl

theorem waiting_eq_zero (hg : Ordered nodes succ) {res : List α} {v : α} :
    waiting nodes succ res v = 0 ↔ ∀ u, v ∈ succ u → u ∈ res := by
  simp only [waiting, List.countP_eq_zero, decide_eq_true_eq, not_and, not_not]
  exact ⟨fun h u hu => h u (hg.source u v hu) hu, fun h u _ hu => h u hu⟩

/-- A visited node is waited for no longer. -/
theorem waiting_visit (hg : Ordered nodes succ) {res : List α} {u : α} (hu : u ∈ nodes)
    (hres : u ∉ res) (v : α) :
    waiting nodes succ res v = waiting nodes succ (res ++ [u]) v + if v ∈ succ u then 1 else 0 := by
  have hnodup : nodes.Nodup := hg.nodes_lt.imp fun h => h.ne
  have hperm := List.perm_cons_erase hu
  have hsame : (nodes.erase u).countP (fun x => v ∈ succ x ∧ x ∉ res) =
      (nodes.erase u).countP fun x => v ∈ succ x ∧ x ∉ res ++ [u] := by
    refine List.countP_congr fun x hx => ?_
    have hne : x ≠ u := fun h => hnodup.not_mem_erase (h ▸ hx)
    simp [hne]
  rw [waiting, waiting, hperm.countP_eq, hperm.countP_eq, List.countP_cons, List.countP_cons, hsame]
  by_cases hv : v ∈ succ u <;> simp [hv, hres]

/-- The successors of a node that has been visited, one by one. -/
theorem relax_spec {vs : List α} (hvs : vs.Pairwise (· < ·)) (d : α → ℤ) (q : List α) :
    (∀ v, (relax vs d q).1 v = d v - if v ∈ vs then 1 else 0) ∧
      (relax vs d q).2 = q ++ vs.filter fun v => d v = 1 := by
  induction vs generalizing d q with
  | nil => simp [relax]
  | cons v vs ih =>
      obtain ⟨hlt, hvs⟩ := List.pairwise_cons.mp hvs
      have hv : v ∉ vs := fun hm => lt_irrefl v (hlt v hm)
      obtain ⟨hd, hq⟩ := ih hvs (Function.update d v (d v - 1))
        (if Function.update d v (d v - 1) v = 0 then q ++ [v] else q)
      refine ⟨fun w => ?_, ?_⟩
      · rw [relax, hd]
        by_cases hw : w = v
        · subst hw
          simp [hv]
        · simp [hw]
      · rw [relax, hq]
        have hsame : vs.filter (fun w => Function.update d v (d v - 1) w = 1) =
            vs.filter fun w => d w = 1 := by
          refine List.filter_congr fun w hw => ?_
          rw [Function.update_of_ne (ne_of_mem_of_not_mem hw hv)]
        rw [hsame, Function.update_self, List.filter_cons]
        by_cases h1 : d v = 1
        · simp [h1]
        · have h0 : ¬ d v - 1 = 0 := by omega
          simp [h1, h0]

/-- A node that joins the queue has its greatest chain through the node just visited. -/
theorem Greatest.visit {d : α → ℤ} {u v : α} {q res l : List α}
    (h : Invariant nodes succ d (u :: q) res) (hl : Greatest (fun u v => v ∈ succ u) u l)
    (huv : v ∈ succ u) (hv : ∀ x, v ∈ succ x → x ∈ res ++ [u]) :
    Greatest (fun u v => v ∈ succ u) v (l ++ [v]) := by
  refine ⟨.step hl.chain huv, fun l' hl' => ?_⟩
  cases hl' with
  | root hroot => exact absurd huv (hroot u)
  | step hx hxv =>
      rename_i x k
      rcases List.mem_append.mp (hv x hxv) with hres | hu
      · -- a predecessor visited before has a lesser chain
        right
        have hbefore := (List.pairwise_append.mp h.sorted).2.2 x hres u List.mem_cons_self
        obtain ⟨a, b, ha, hb, hlt⟩ := hbefore
        obtain rfl := hb.unique hl
        refine shortlex_snoc ?_ v v
        rcases ha.le k hx with rfl | hk
        · exact hlt
        · exact shortlex_trans hk hlt
      · obtain rfl := List.mem_singleton.mp hu
        rcases hl.le k hx with rfl | hk
        · exact .inl rfl
        · exact .inr (shortlex_snoc hk v v)

/-- A node that waits in the queue comes before the nodes that join it. -/
theorem Greatest.before_visit {d : α → ℤ} {u v w : α} {q res l : List α}
    (h : Invariant nodes succ d (u :: q) res) (hl : Greatest (fun u v => v ∈ succ u) u l)
    (hv : Greatest (fun u v => v ∈ succ u) v (l ++ [v])) (hw : w ∈ res ++ u :: q) :
    Before (fun u v => v ∈ succ u) w v := by
  obtain ⟨k, hk⟩ := h.greatest w hw
  refine ⟨k, l ++ [v], hk, hv, ?_⟩
  have hpos : 0 < l.length := List.length_pos_iff.mpr hl.chain.ne_nil
  cases hk.chain with
  | root hroot => exact List.Shortlex.of_length_lt (by simp; omega)
  | step hx hxw =>
      rename_i x k
      -- the predecessors of a node in the queue have been visited
      have hres := ((h.mem w).mp hw).2 x hxw
      have hbefore := (List.pairwise_append.mp h.sorted).2.2 x hres u List.mem_cons_self
      obtain ⟨a, b, ha, hb, hlt⟩ := hbefore
      obtain rfl := hb.unique hl
      refine shortlex_snoc ?_ w v
      rcases ha.le k hx with rfl | hk'
      · exact hlt
      · exact shortlex_trans hk' hlt

/-- **One visit.** -/
theorem Invariant.visit (hg : Ordered nodes succ) {d : α → ℤ} {u : α} {q res : List α}
    (h : Invariant nodes succ d (u :: q) res) :
    Invariant nodes succ (relax (succ u) d q).1 (relax (succ u) d q).2 (res ++ [u]) := by
  obtain ⟨hd, hq⟩ := relax_spec (hg.succ_lt u) d q
  have hnodup := h.nodup
  have hu : u ∈ nodes := ((h.mem u).mp (by simp)).1
  have hures : u ∉ res := by
    intro hm
    exact (List.nodup_append.mp hnodup).2.2 u hm u List.mem_cons_self rfl
  obtain ⟨l, hl⟩ := h.greatest u (by simp)
  -- the counters still count the predecessors that are left
  have hdeg (v : α) (hv : v ∈ nodes) :
      (relax (succ u) d q).1 v = waiting nodes succ (res ++ [u]) v := by
    have hw := waiting_visit hg hu hures v
    have hdv := h.degree v hv
    rw [hd, hdv, hw]
    split <;> simp
  -- what joins the queue waited for the node alone
  have hjoin (v : α) : v ∈ (succ u).filter (fun v => d v = 1) ↔
      v ∈ succ u ∧ ∀ x, v ∈ succ x → x ∈ res ++ [u] := by
    rw [List.mem_filter, decide_eq_true_eq]
    refine and_congr_right fun hv => ?_
    have hvn := hg.target u v hv
    rw [← waiting_eq_zero hg, h.degree v hvn, waiting_visit hg hu hures v, if_pos hv]
    omega
  have hnew (v : α) (hv : v ∈ (succ u).filter fun v => d v = 1) :
      Greatest (fun u v => v ∈ succ u) v (l ++ [v]) :=
    hl.visit h ((hjoin v).mp hv).1 ((hjoin v).mp hv).2
  rw [hq]
  have hsplit : res ++ [u] ++ (q ++ (succ u).filter fun v => d v = 1) =
      res ++ u :: q ++ (succ u).filter fun v => d v = 1 := by simp
  refine ⟨hdeg, fun v => ?_, ?_, ?_⟩
  · rw [hsplit, List.mem_append, hjoin, h.mem]
    constructor
    · rintro (⟨hv, hall⟩ | ⟨hv, hall⟩)
      · exact ⟨hv, fun x hx => List.mem_append_left _ (hall x hx)⟩
      · exact ⟨hg.target u v hv, hall⟩
    · rintro ⟨hv, hall⟩
      by_cases huv : v ∈ succ u
      · exact .inr ⟨huv, hall⟩
      · refine .inl ⟨hv, fun x hx => ?_⟩
        rcases List.mem_append.mp (hall x hx) with hres | hxu
        · exact hres
        · exact absurd (List.mem_singleton.mp hxu ▸ hx) huv
  · rw [hsplit]
    intro v hv
    rcases List.mem_append.mp hv with hv | hv
    · exact h.greatest v hv
    · exact ⟨_, hnew v hv⟩
  · -- those who join come behind the queue, and among each other in order
    rw [hsplit, List.pairwise_append]
    refine ⟨h.sorted, ?_, fun w hw v hv => hl.before_visit h (hnew v hv) hw⟩
    refine ((hg.succ_lt u).filter _).imp_of_mem fun {v w} hv hw hlt => ?_
    exact ⟨_, _, hnew v hv, hnew w hw, shortlex_snoc_right l hlt⟩

/-- The loop ends, with a node for each visit. -/
theorem loop_spec (hg : Ordered nodes succ) : ∀ {n : ℕ} {d : α → ℤ} {q res : List α},
    Invariant nodes succ d q res → nodes.length ≤ n + res.length →
    ∃ d' order, loop succ n d q res = some order ∧ Invariant nodes succ d' [] order := by
  intro n
  induction n with
  | zero =>
      intro d q res h hn
      cases q with
      | nil => exact ⟨d, res, rfl, h⟩
      | cons u q =>
          -- all nodes have been visited
          exfalso
          have hsub : (res ++ u :: q).Subperm nodes :=
            h.nodup.subperm fun v hv => ((h.mem v).mp hv).1
          have hlen := hsub.length_le
          simp only [List.length_append, List.length_cons] at hlen
          omega
  | succ n ih =>
      intro d q res h hn
      cases q with
      | nil => exact ⟨d, res, rfl, h⟩
      | cons u q =>
          refine ih (h.visit hg) ?_
          simp only [List.length_append, List.length_singleton]
          omega

/-- The nodes that no cycle leads to. -/
theorem mem_iff_acc (hg : Ordered nodes succ) {d : α → ℤ} {order : List α}
    (h : Invariant nodes succ d [] order) (v : α) :
    v ∈ order ↔ v ∈ nodes ∧ Acc (fun u v => v ∈ succ u) v := by
  have hmem (v : α) : v ∈ order ↔ v ∈ nodes ∧ ∀ u, v ∈ succ u → u ∈ order := by
    simpa using h.mem v
  constructor
  · intro hv
    refine ⟨((hmem v).mp hv).1, ?_⟩
    -- by the length of the greatest chain, which is less for a predecessor
    obtain ⟨l, hl⟩ := h.greatest v (by simpa using hv)
    induction hn : l.length using Nat.strong_induction_on generalizing v l with
    | _ n ih =>
        refine .intro v fun u hu => ?_
        have huo := ((hmem v).mp hv).2 u hu
        obtain ⟨k, hk⟩ := h.greatest u (by simpa using huo)
        have hle : k.length + 1 ≤ l.length := by
          rcases hl.le _ (.step hk.chain hu) with rfl | hlt
          · simp
          · rw [List.shortlex_def] at hlt
            simp only [List.length_append, List.length_singleton] at hlt
            omega
        exact ih k.length (by omega) u huo k hk rfl
  · rintro ⟨hv, hacc⟩
    induction hacc with
    | intro v _ ih => exact (hmem v).mpr ⟨hv, fun u hu => ih u hu (hg.source u v hu)⟩

/-- At the start of a sort with the numbers of the predecessors. -/
theorem start_invariant (hg : Ordered nodes succ) {d : α → ℤ}
    (hd : ∀ v ∈ nodes, d v = nodes.countP fun u => v ∈ succ u) :
    Invariant nodes succ d (nodes.filter fun v => d v = 0) [] := by
  have hroot (v : α) (hv : v ∈ nodes) : d v = 0 ↔ ∀ u, v ∉ succ u := by
    rw [hd v hv, Nat.cast_eq_zero, List.countP_eq_zero]
    simp only [decide_eq_true_eq]
    exact ⟨fun h u hu => h u (hg.source u v hu) hu, fun h u _ => h u⟩
  have hsingle (v : α) (hv : ∀ u, v ∉ succ u) : Greatest (fun u v => v ∈ succ u) v [v] := by
    refine ⟨.root hv, fun l hl => ?_⟩
    cases hl with
    | root => exact .inl rfl
    | step _ hu => exact absurd hu (hv _)
  have hmem (v : α) : v ∈ nodes.filter (fun v => d v = 0) ↔ v ∈ nodes ∧ ∀ u, v ∉ succ u := by
    rw [List.mem_filter, decide_eq_true_eq]
    exact and_congr_right fun hv => hroot v hv
  refine ⟨fun v hv => ?_, fun v => ?_, fun v hv => ?_, ?_⟩
  · simp [waiting, hd v hv]
  · rw [List.nil_append, hmem]
    simp
  · exact ⟨_, hsingle v ((hmem v).mp hv).2⟩
  · refine (hg.nodes_lt.filter _).imp_of_mem fun {v w} hv hw hlt => ?_
    exact ⟨_, _, hsingle v ((hmem v).mp hv).2, hsingle w ((hmem w).mp hw).2,
      (List.shortlex_singleton_iff v w).mpr hlt⟩

/-- **What the sort visits, and in which order.** -/
theorem sort_spec (hg : Ordered nodes succ) {d : α → ℤ}
    (hd : ∀ v ∈ nodes, d v = nodes.countP fun u => v ∈ succ u) :
    ∃ order, sort nodes succ d = some order ∧ order.Nodup ∧
      (∀ v, v ∈ order ↔ v ∈ nodes ∧ Acc (fun u v => v ∈ succ u) v) ∧
      order.Pairwise (Before fun u v => v ∈ succ u) := by
  obtain ⟨d', order, hloop, hinv⟩ :=
    loop_spec (n := nodes.length) hg (start_invariant hg hd) (by simp)
  refine ⟨order, hloop, ?_, mem_iff_acc hg hinv, ?_⟩
  · simpa using hinv.nodup
  · simpa using hinv.sorted

/-! ### Counters of another type -/

/-- The numbers up to `n` are told from 0 by the counters that stand for them. -/
structure Represents {C : Type*} [Zero C] [One C] [Sub C] (f : ℤ → C) (n : ℕ) : Prop where
  pred : ∀ x : ℤ, f (x - 1) = f x - 1
  zero : ∀ x : ℤ, 0 ≤ x → x ≤ n → (f x = 0 ↔ x = 0)

section Counters

variable {C : Type*} [DecidableEq C] [Zero C] [One C] [Sub C] {f : ℤ → C} {n : ℕ}

omit [LinearOrder α] in
/-- **The counters may be stored otherwise**, as long as they are told apart. -/
theorem relax_map [DecidableEq α] (hf : Represents f n) {vs : List α} (hvs : vs.Nodup) {d : α → ℤ}
    (hd : ∀ v ∈ vs, 0 < d v ∧ d v ≤ n) (q : List α) :
    relax vs (fun v => f (d v)) q =
      (fun v => f ((relax vs d q).1 v), (relax vs d q).2) := by
  induction vs generalizing d q with
  | nil => rfl
  | cons v vs ih =>
      obtain ⟨hv, hvs⟩ := List.nodup_cons.mp hvs
      obtain ⟨hpos, hle⟩ := hd v List.mem_cons_self
      have hupdate : Function.update (fun w => f (d w)) v (f (d v) - 1) =
          fun w => f (Function.update d v (d v - 1) w) := by
        funext w
        rcases eq_or_ne w v with rfl | hw
        · rw [Function.update_self, Function.update_self, hf.pred]
        · rw [Function.update_of_ne hw, Function.update_of_ne hw]
      have hzero : f (d v) - 1 = 0 ↔ d v - 1 = 0 := by
        rw [← hf.pred]
        exact hf.zero (d v - 1) (by omega) (by omega)
      rw [relax, relax]
      simp only [hupdate, Function.update_self, hzero]
      refine ih hvs (fun w hw => ?_) _
      rw [Function.update_of_ne (ne_of_mem_of_not_mem hw hv)]
      exact hd w (List.mem_cons_of_mem v hw)

/-- The counters of the nodes that a visit relaxes are positive, and no greater than at first. -/
theorem Invariant.degree_bounds (hg : Ordered nodes succ) {d : α → ℤ} {u : α} {q res : List α}
    (h : Invariant nodes succ d (u :: q) res)
    (hn : ∀ v ∈ nodes, (nodes.countP fun u => v ∈ succ u) ≤ n) :
    ∀ v ∈ succ u, 0 < d v ∧ d v ≤ n := by
  intro v hv
  have hu : u ∈ nodes := hg.source u v hv
  have hures : u ∉ res := fun hm =>
    (List.nodup_append.mp h.nodup).2.2 u hm u List.mem_cons_self rfl
  have hvisit := waiting_visit hg hu hures v
  rw [if_pos hv] at hvisit
  have hle : waiting nodes succ res v ≤ nodes.countP fun u => v ∈ succ u := by
    refine List.countP_mono_left fun x _ hx => ?_
    exact decide_eq_true (of_decide_eq_true hx).1
  have hfirst := hn v (hg.target u v hv)
  rw [h.degree v (hg.target u v hv)]
  omega

theorem loop_map (hf : Represents f n) (hg : Ordered nodes succ)
    (hn : ∀ v ∈ nodes, (nodes.countP fun u => v ∈ succ u) ≤ n) : ∀ {k : ℕ} {d : α → ℤ}
    {q res : List α}, Invariant nodes succ d q res →
      loop succ k (fun v => f (d v)) q res = loop succ k d q res := by
  intro k
  induction k with
  | zero =>
      intro d q res _
      cases q <;> rfl
  | succ k ih =>
      intro d q res h
      cases q with
      | nil => rfl
      | cons u q =>
          have hnodup : (succ u).Nodup := (hg.succ_lt u).imp fun hlt => hlt.ne
          rw [loop, loop]
          simp only [relax_map hf hnodup (h.degree_bounds hg hn)]
          exact ih (h.visit hg)

/-- **The sort is the same** with counters that stand for the numbers of the predecessors. -/
theorem sort_map (hf : Represents f n) (hg : Ordered nodes succ) {d : α → ℤ}
    (hd : ∀ v ∈ nodes, d v = nodes.countP fun u => v ∈ succ u)
    (hn : ∀ v ∈ nodes, (nodes.countP fun u => v ∈ succ u) ≤ n) :
    sort nodes succ (fun v => f (d v)) = sort nodes succ d := by
  have hstart : (nodes.filter fun v => f (d v) = 0) = nodes.filter fun v => d v = 0 := by
    refine List.filter_congr fun v hv => decide_eq_decide.mpr (hf.zero (d v) ?_ ?_)
    · rw [hd v hv]
      exact Int.natCast_nonneg _
    · rw [hd v hv]
      exact_mod_cast hn v hv
  rw [sort, sort, hstart]
  exact loop_map hf hg hn (start_invariant hg hd)

end Counters

theorem Greatest.before_of_edge {E : α → α → Prop} {u v : α} {l l' : List α} (hu : Greatest E u l)
    (hv : Greatest E v l') (h : E u v) : Before E u v := by
  have hlt : List.Shortlex (· < ·) l (l ++ [v]) := .of_length_lt (by simp)
  rcases hv.le _ (.step hu.chain h) with rfl | hle
  · exact ⟨l, _, hu, hv, hlt⟩
  · exact ⟨l, l', hu, hv, shortlex_trans hlt hle⟩

theorem Greatest.eq_of_root {E : α → α → Prop} {v : α} {l : List α} (h : Greatest E v l)
    (hroot : ∀ u, ¬ E u v) : l = [v] := by
  cases h.chain with
  | root => rfl
  | step _ hu => exact absurd hu (hroot _)

/-- The first in the order has no predecessor in it, and is the least of those that have none. -/
theorem head_spec {E : α → α → Prop} {v : α} {l : List α} (h : (v :: l).Pairwise (Before E))
    (hE : ¬ E v v) (hmem : ∀ u, E u v → u ∈ v :: l) :
    (∀ u, ¬ E u v) ∧ ∀ w ∈ l, (∀ u, ¬ E u w) → v < w := by
  have hfirst := (List.pairwise_cons.mp h).1
  have hroot : ∀ u, ¬ E u v := by
    intro u hu
    rcases List.mem_cons.mp (hmem u hu) with rfl | hul
    · exact hE hu
    · obtain ⟨k, k', hv, hu', hlt⟩ := hfirst u hul
      exact (hu'.before_of_edge hv hu).asymm ⟨k, k', hv, hu', hlt⟩
  refine ⟨hroot, fun w hw hwroot => ?_⟩
  obtain ⟨k, k', hv, hw', hlt⟩ := hfirst w hw
  rw [hv.eq_of_root hroot, hw'.eq_of_root hwroot] at hlt
  exact (List.shortlex_singleton_iff v w).mp hlt

/-- A list in an order is one by the places of its elements. -/
theorem idxOf_lt_idxOf_iff {R : α → α → Prop} (hasymm : ∀ a b, R a b → ¬ R b a) {l : List α}
    (h : l.Pairwise R) {a b : α} (ha : a ∈ l) (hb : b ∈ l) : l.idxOf a < l.idxOf b ↔ R a b := by
  have hbefore {x y : α} (hx : x ∈ l) (hy : y ∈ l) (hlt : l.idxOf x < l.idxOf y) : R x y := by
    have hget := List.pairwise_iff_getElem.mp h (l.idxOf x) (l.idxOf y)
      (List.idxOf_lt_length_iff.mpr hx) (List.idxOf_lt_length_iff.mpr hy) hlt
    simpa using hget
  refine ⟨hbefore ha hb, fun hab => ?_⟩
  rcases lt_trichotomy (l.idxOf a) (l.idxOf b) with hlt | heq | hlt
  · exact hlt
  · obtain rfl := (List.idxOf_inj ha).mp heq
    exact absurd hab (hasymm a a hab)
  · exact absurd (hbefore hb ha hlt) (hasymm a b hab)

/-- An edge goes forwards in an order. -/
theorem idxOf_lt_of_edge {E : α → α → Prop} {l : List α} (h : l.Pairwise (Before E)) {u v : α}
    (hu : u ∈ l) (hv : v ∈ l) (huv : E u v) (hne : u ≠ v) : l.idxOf u < l.idxOf v := by
  rcases lt_trichotomy (l.idxOf u) (l.idxOf v) with hlt | heq | hlt
  · exact hlt
  · exact absurd ((List.idxOf_inj hu).mp heq) hne
  · have hback : Before E v u := (idxOf_lt_idxOf_iff (fun _ _ hab => hab.asymm) h hv hu).mp hlt
    have ⟨k, k', hk, hk', _⟩ := hback
    exact absurd hback (hk'.before_of_edge hk huv).asymm

omit [LinearOrder α] in
theorem not_acc_of_loop {r : α → α → Prop} {c : α} (h : r c c) : ¬ Acc r c := by
  intro hacc
  induction hacc with
  | intro c _ ih => exact ih c h h

omit [LinearOrder α] in
/-- Where each step is to a greater rank there is no cycle. -/
theorem acyclic_of_rank {r : α → α → Prop} (rank : α → ℕ) (h : ∀ u v, r u v → rank u < rank v)
    (v : α) : ¬ TransGen r v v := by
  have hlt : ∀ {u w}, TransGen r u w → rank u < rank w := by
    intro u w huw
    induction huw with
    | single huv => exact h _ _ huv
    | tail _ hvw ih => exact ih.trans (h _ _ hvw)
  exact fun hv => (hlt hv).false

omit [LinearOrder α] in
/-- Among finitely many nodes without a cycle every node is accessible. -/
theorem acc_of_finite {r : α → α → Prop} {P : α → Prop} (hfinite : Finite { u // P u })
    (hback : ∀ u v, r u v → P v → P u) (hcycle : ∀ u, P u → ¬ TransGen r u u) {v : α} (hv : P v) :
    Acc r v := by
  -- the paths are a finite order
  let path : { u // P u } → { u // P u } → Prop := fun u w => TransGen r u.1 w.1
  have htrans : IsTrans _ path := ⟨fun _ _ _ huv hvw => huv.trans hvw⟩
  have hirrefl : Std.Irrefl path := ⟨fun u => hcycle u.1 u.2⟩
  have hwf : WellFounded path := Finite.wellFounded_of_trans_of_irrefl path
  have hnode (w : { u // P u }) : Acc r w.1 := by
    induction hwf.apply w with
    | intro w _ ih => exact .intro w.1 fun u hu => ih ⟨u, hback u w.1 hu w.2⟩ (.single hu)
  exact hnode ⟨v, hv⟩

/-- The accessible nodes are those that are on no cycle and that none leads to. -/
theorem acc_iff_no_cycle (hg : Ordered nodes succ) (v : α) :
    Acc (fun u v => v ∈ succ u) v ↔ ¬ ∃ c, TransGen (fun u v => v ∈ succ u) c c ∧
      ReflTransGen (fun u v => v ∈ succ u) c v := by
  constructor
  · rintro hacc ⟨c, hcycle, hpath⟩
    have hc : Acc (fun u v => v ∈ succ u) c := by
      induction hpath with
      | refl => exact hacc
      | tail _ hstep ih => exact ih (hacc.inv hstep)
    exact not_acc_of_loop hcycle hc.transGen
  · intro hnone
    have hfinite : Finite { u // u ∈ nodes } := List.finite_toSet nodes
    -- only the nodes that lead to `v` are without cycles
    have hsub : Finite { u // u ∈ nodes ∧ ReflTransGen (fun u v => v ∈ succ u) u v } :=
      Finite.of_injective (β := { u // u ∈ nodes }) (fun u => ⟨u.1, u.2.1⟩)
        fun a b hab => Subtype.ext (congrArg (fun x : { u // u ∈ nodes } => x.1) hab)
    by_cases hv : v ∈ nodes
    · exact acc_of_finite hsub (fun u w hu hw => ⟨hg.source u w hu, .head hu hw.2⟩)
        (fun u hu hcycle => hnone ⟨u, hcycle, hu.2⟩) ⟨hv, .refl⟩
    · exact .intro v fun u hu => absurd (hg.target u v hu) hv

/-- Without cycles every node is accessible. -/
theorem acc_of_acyclic (hg : Ordered nodes succ)
    (h : ∀ v, ¬ TransGen (fun u v => v ∈ succ u) v v) (v : α) :
    Acc (fun u v => v ∈ succ u) v :=
  (acc_iff_no_cycle hg v).mpr fun hcycle => hcycle.elim fun c hc => h c hc.1

end Sorting

end Kahn
