import VulcanDB.Library.HashCons.Table

/-!
# Library — Hash-consing — Sharing

When the passes end, how many they are, and what two nodes with one number have in common.

* `ends_iff`: the passes end exactly when every argument is *grounded* — defined by a node whose
  arguments are grounded — so an undefined argument, or a cycle, keeps them going for ever.
* `chain_of_waiting`: a node still waiting after `k` passes starts a chain of `k` references.
* `rel_eq_iff_unfold`: once no node waits, two ids have one number if and only if they unfold
  to one tree.
-/

namespace HashCons

variable {L ι : Type*}

/-- An id that a node defines, all of whose arguments are grounded. -/
inductive Grounded (ns : List (Node L ι)) : ι → Prop where
  | mk {n : Node L ι} (h : n ∈ ns) (ha : ∀ a ∈ n.args, Grounded ns a) : Grounded ns n.id

/-- Every argument of every node is grounded. -/
def AllGrounded (ns : List (Node L ι)) : Prop := ∀ n ∈ ns, ∀ a ∈ n.args, Grounded ns a

/-- `n` cites `m`. -/
def Cites (n m : Node L ι) : Prop := m.id ∈ n.args

/-- Labels do not matter. -/
theorem Grounded.relabel {L' : Type*} {ns : List (Node L ι)} {ms : List (Node L' ι)}
    (h : ∀ n ∈ ns, ∃ m ∈ ms, m.id = n.id ∧ m.args = n.args) {i : ι} (hg : Grounded ns i) :
    Grounded ms i := by
  induction hg with
  | mk hn _ ih =>
      obtain ⟨m, hm, hid, hargs⟩ := h _ hn
      rw [← hid]
      exact .mk hm fun a ha => ih a (hargs ▸ ha)

/-- The nodes of a chain of references, each citing the next; the last one cites one more id. -/
def IsRefChain (ns : List (Node L ι)) (c : List (Node L ι)) : Prop :=
  (∀ n ∈ c, n ∈ ns) ∧ c.IsChain Cites ∧ ∀ n, c.getLast? = some n → n.args ≠ []

/-- An id that is cited by every node it names is not grounded. -/
theorem not_grounded_of_self {ns : List (Node L ι)} {i : ι}
    (h : ∀ n ∈ ns, n.id = i → i ∈ n.args) : ¬ Grounded ns i := by
  intro hg
  induction hg with
  | mk hn _ ih => exact ih _ (h _ hn rfl) h

/-- `i` is the id of a node that cites `j`. -/
def IdCites (ns : List (Node L ι)) (i j : ι) : Prop := ∃ n ∈ ns, n.id = i ∧ j ∈ n.args

/-- No node cites itself through others. -/
def Acyclic (ns : List (Node L ι)) : Prop := ∀ i, ¬ Relation.TransGen (IdCites ns) i i

/-- References that go down in an order are acyclic. -/
theorem acyclic_of_lt [Preorder ι] {ns : List (Node L ι)} (h : ∀ n ∈ ns, ∀ a ∈ n.args, a < n.id) :
    Acyclic ns := by
  have down : ∀ i j, Relation.TransGen (IdCites ns) i j → j < i := by
    intro i j hij
    induction hij with
    | single hc =>
        obtain ⟨n, hn, rfl, ha⟩ := hc
        exact h n hn _ ha
    | tail _ hc ih =>
        obtain ⟨n, hn, rfl, ha⟩ := hc
        exact (h n hn _ ha).trans ih
  exact fun i hi => lt_irrefl i (down i i hi)

/-- The ids of the nodes and those that they cite. -/
def named (ns : List (Node L ι)) : Set ι := {i | ∃ n ∈ ns, i = n.id ∨ i ∈ n.args}

/-- Renaming the ids apart keeps references acyclic. -/
theorem acyclic_of_rename {L' ι' : Type*} {ns : List (Node L ι)} {ns' : List (Node L' ι')}
    {c : ι → ι'} (hc : Set.InjOn c (named ns))
    (h : ∀ n' ∈ ns', ∃ n ∈ ns, n'.id = c n.id ∧ n'.args = n.args.map c) (hac : Acyclic ns) :
    Acyclic ns' := by
  have citing {i j : ι} (h : IdCites ns i j) : i ∈ named ns ∧ j ∈ named ns := by
    obtain ⟨n, hn, rfl, hj⟩ := h
    exact ⟨⟨n, hn, .inl rfl⟩, n, hn, .inr hj⟩
  have both {i j : ι} (h : Relation.TransGen (IdCites ns) i j) : i ∈ named ns ∧ j ∈ named ns := by
    induction h with
    | single h => exact citing h
    | tail _ h ih => exact ⟨ih.1, (citing h).2⟩
  have one : ∀ i' j', IdCites ns' i' j' → ∃ i j, c i = i' ∧ c j = j' ∧ IdCites ns i j := by
    rintro i' j' ⟨n', hn', rfl, hj⟩
    obtain ⟨n, hn, hid, hargs⟩ := h n' hn'
    rw [hargs] at hj
    obtain ⟨j, hmem, rfl⟩ := List.mem_map.mp hj
    exact ⟨n.id, j, hid.symm, rfl, n, hn, rfl, hmem⟩
  have lift : ∀ i' j', Relation.TransGen (IdCites ns') i' j' →
      ∃ i j, c i = i' ∧ c j = j' ∧ Relation.TransGen (IdCites ns) i j := by
    intro i' j' hij
    induction hij with
    | single hcite =>
        obtain ⟨i, j, hi, hj, hr⟩ := one _ _ hcite
        exact ⟨i, j, hi, hj, .single hr⟩
    | tail _ hcite ih =>
        obtain ⟨i, j, hi, hj, hr⟩ := ih
        obtain ⟨j₂, k, hj₂, hk, hr₂⟩ := one _ _ hcite
        obtain rfl := hc (both hr).2 (citing hr₂).1 (hj.trans hj₂.symm)
        exact ⟨i, k, hi, hk, hr.tail hr₂⟩
  intro i' hi'
  obtain ⟨i, j, hi, hj, hr⟩ := lift i' i' hi'
  obtain rfl := hc (both hr).1 (both hr).2 (hi.trans hj.symm)
  exact hac i hr

/-- Where every argument is defined and none leads back to itself, all are grounded. -/
theorem allGrounded_of_acyclic {ns : List (Node L ι)}
    (hdef : ∀ n ∈ ns, ∀ a ∈ n.args, ∃ m ∈ ns, m.id = a) (hac : Acyclic ns) : AllGrounded ns := by
  let ids := {i : ι // i ∈ ns.map Node.id}
  let r : ids → ids → Prop := fun i j => Relation.TransGen (IdCites ns) j.1 i.1
  have : Finite ids := List.finite_toSet (ns.map Node.id)
  have : IsTrans ids r := ⟨fun _ _ _ h₁ h₂ => h₂.trans h₁⟩
  have : Std.Irrefl r := ⟨fun i => hac i.1⟩
  have hwf : WellFounded r := Finite.wellFounded_of_trans_of_irrefl r
  have grounded : ∀ i : ids, Grounded ns i.1 := by
    intro i
    induction i using hwf.induction with
    | _ i ih =>
        obtain ⟨i, hi⟩ := i
        obtain ⟨n, hn, rfl⟩ := List.mem_map.mp hi
        refine .mk hn fun a ha => ?_
        obtain ⟨m, hm, rfl⟩ := hdef n hn a ha
        exact ih ⟨m.id, List.mem_map_of_mem hm⟩ (.single ⟨n, hn, rfl, ha⟩)
  intro n hn a ha
  obtain ⟨m, hm, rfl⟩ := hdef n hn a ha
  exact grounded ⟨m.id, List.mem_map_of_mem hm⟩

/-! ### Unfolding -/

/-- A node with its arguments unfolded. -/
inductive Tree (L : Type*) where
  | node (label : L) (args : List (Tree L))

section Unfold
variable [DecidableEq ι]

/-- The node of an id. -/
def find (ns : List (Node L ι)) (i : ι) : Option (Node L ι) := ns.find? (·.id = i)

/-- The tree an id stands for, at most `k` levels deep. -/
def unfold (ns : List (Node L ι)) : ℕ → ι → Option (Tree L)
  | 0, _ => none
  | k + 1, i => (find ns i).bind fun n => (n.args.mapM (unfold ns k)).map (.node n.label)

/-- The id stands for the tree. -/
def Unfolds (ns : List (Node L ι)) (i : ι) (t : Tree L) : Prop := ∃ k, unfold ns k i = some t

theorem mapM_eq_some {α β : Type*} {f : α → Option β} {as : List α} {bs : List β} :
    as.mapM f = some bs ↔ as.map f = bs.map some := by
  induction as generalizing bs with
  | nil => cases bs <;> simp
  | cons a as ih =>
      cases bs with
      | nil => cases h : f a <;> cases h' : as.mapM f <;> simp [h, h']
      | cons b bs =>
          simp only [List.mapM_cons, Option.bind_eq_bind, Option.bind_eq_some_iff, ih,
            Option.pure_def, Option.some.injEq, List.cons.injEq, List.map_cons]
          constructor
          · rintro ⟨b', hb, bs', hbs, rfl, rfl⟩; exact ⟨hb, hbs⟩
          · rintro ⟨hb, hbs⟩; exact ⟨b, hb, bs, hbs, rfl, rfl⟩

/-- With distinct ids a node is found by its own. -/
theorem find_of_mem {ns : List (Node L ι)} (hid : (ns.map Node.id).Nodup) {n : Node L ι}
    (hn : n ∈ ns) : find ns n.id = some n := by
  obtain ⟨n', hn'⟩ : ∃ n', find ns n.id = some n' := by
    rw [← Option.isSome_iff_exists, find, List.find?_isSome]
    exact ⟨n, hn, by simp⟩
  obtain rfl := List.inj_on_of_nodup_map hid (List.mem_of_find?_eq_some hn') hn
    (by simpa using List.find?_some hn')
  exact hn'

/-- An unfolding of a node is its label with the unfoldings of its arguments. -/
theorem unfold_succ_eq_some {ns : List (Node L ι)} {k : ℕ} {i : ι} {t : Tree L}
    (h : unfold ns (k + 1) i = some t) : ∃ n ∈ ns, n.id = i ∧
      ∃ ts, t = .node n.label ts ∧ n.args.map (unfold ns k) = ts.map some := by
  simp only [unfold, Option.bind_eq_some_iff, Option.map_eq_some_iff, mapM_eq_some] at h
  obtain ⟨n, hn, ts, hts, rfl⟩ := h
  exact ⟨n, List.mem_of_find?_eq_some hn, by simpa using List.find?_some hn, ts, rfl, hts⟩

/-- More fuel unfolds to the same tree. -/
theorem unfold_mono {ns : List (Node L ι)} {k : ℕ} : ∀ {i : ι} {t : Tree L} {k' : ℕ}, k ≤ k' →
    unfold ns k i = some t → unfold ns k' i = some t := by
  induction k with
  | zero => intro i t k' _ h; cases h
  | succ k ih =>
      intro i t k' hk h
      obtain ⟨k', rfl⟩ : ∃ l, k' = l + 1 := ⟨k' - 1, by omega⟩
      simp only [unfold, Option.bind_eq_some_iff, Option.map_eq_some_iff, mapM_eq_some] at h ⊢
      obtain ⟨n, hn, ts, hts, rfl⟩ := h
      refine ⟨n, hn, ts, hts ▸ List.map_congr_left fun a ha => ?_, rfl⟩
      have : unfold ns k a ∈ ts.map some := hts ▸ List.mem_map_of_mem ha
      obtain ⟨u, -, hu⟩ := List.mem_map.mp this
      rw [← hu]
      exact ih (by omega) hu.symm

/-- A grounded id stands for a tree. -/
theorem Grounded.unfolds {ns : List (Node L ι)} (hid : (ns.map Node.id).Nodup) {i : ι}
    (h : Grounded ns i) : ∃ t, Unfolds ns i t := by
  induction h with
  | @mk n hn _ ih =>
      have all : ∀ as : List ι, (∀ a ∈ as, ∃ t, Unfolds ns a t) →
          ∃ (k : ℕ) (ts : List (Tree L)), as.map (unfold ns k) = ts.map some := by
        intro as
        induction as with
        | nil => exact fun _ => ⟨0, [], rfl⟩
        | cons a as iha =>
            intro has
            obtain ⟨t, k, hk⟩ := has a (by simp)
            obtain ⟨k', ts, hts⟩ := iha fun b hb => has b (by simp [hb])
            refine ⟨max k k', t :: ts, ?_⟩
            rw [List.map_cons, List.map_cons, unfold_mono (le_max_left ..) hk, ← hts]
            refine congrArg _ (List.map_congr_left fun b hb => ?_)
            have : unfold ns k' b ∈ ts.map some := hts ▸ List.mem_map_of_mem hb
            obtain ⟨u, -, hu⟩ := List.mem_map.mp this
            rw [← hu, unfold_mono (le_max_right ..) hu.symm]
      obtain ⟨k, ts, hts⟩ := all n.args ih
      refine ⟨.node n.label ts, k + 1, ?_⟩
      simp [unfold, find_of_mem hid hn, mapM_eq_some.mpr hts]

end Unfold

/-- Equal lists of numbers, for lists of arguments that agree pairwise, are equal lists of
trees. -/
theorem map_rel_eq_iff {rel : ι → Option ℕ} {f g : ι → Option (Tree L)}
    (h : ∀ a b t u, f a = some t → g b = some u → (rel a = rel b ↔ t = u)) :
    ∀ {as bs : List ι} {ts us : List (Tree L)}, as.map f = ts.map some → bs.map g = us.map some →
      (as.map rel = bs.map rel ↔ ts = us) := by
  intro as
  induction as with
  | nil =>
      intro bs ts us hts hus
      obtain rfl : ts = [] := by simpa using hts.symm
      cases bs with
      | nil => simpa using hus.symm
      | cons b bs => cases us <;> simp at hus ⊢
  | cons a as ih =>
      intro bs ts us hts hus
      obtain ⟨t, ts, rfl⟩ := List.exists_cons_of_ne_nil (l := ts) (by rintro rfl; simp at hts)
      simp only [List.map_cons, List.cons.injEq] at hts
      cases bs with
      | nil =>
          obtain rfl : us = [] := by simpa using hus.symm
          simp
      | cons b bs =>
          obtain ⟨u, us, rfl⟩ := List.exists_cons_of_ne_nil (l := us) (by rintro rfl; simp at hus)
          simp only [List.map_cons, List.cons.injEq] at hus
          rw [List.map_cons, List.map_cons, List.cons.injEq, List.cons.injEq,
            h a b t u hts.1 hus.1, ih hts.2 hus.2]

variable [DecidableEq L] [DecidableEq ι]

/-! ### When the passes end -/

theorem grounded_of_rel {ns : List (Node L ι)} {k : ℕ} {i : ι}
    (h : (after ns k).1.rel i ≠ none) : Grounded ns i := by
  induction k generalizing i with
  | zero => exact absurd rfl h
  | succ k ih =>
      obtain ⟨m, hm⟩ := Option.ne_none_iff_exists'.mp h
      rw [after_succ] at hm
      rcases rel_internAll hm with hm | ⟨key, hk, -⟩
      · exact ih (by simp [hm])
      · obtain ⟨n, hn, rfl, hk⟩ := mem_ready.mp hk
        refine .mk ((traces_after ns k).sub n hn) fun a ha => ih ?_
        obtain ⟨m', -, hm'⟩ := mem_key_of_rel hk ha
        simp [hm']

/-- All of finitely many ids are resolved together as soon as each is at some time. -/
theorem exists_resolved {ns : List (Node L ι)} {as : List ι}
    (h : ∀ a ∈ as, ∃ k, (after ns k).1.rel a ≠ none) :
    ∃ k, ∀ a ∈ as, (after ns k).1.rel a ≠ none := by
  induction as with
  | nil => exact ⟨0, by simp⟩
  | cons a as ih =>
      obtain ⟨k, hk⟩ := h a (by simp)
      obtain ⟨k', hk'⟩ := ih fun b hb => h b (by simp [hb])
      have up : ∀ {j b}, j ≤ max k k' → (after ns j).1.rel b ≠ none →
          (after ns (max k k')).1.rel b ≠ none := fun hj hb => by
        obtain ⟨m, hm⟩ := Option.ne_none_iff_exists'.mp hb
        rw [(grows_after ns hj).rel _ m hm]; simp
      refine ⟨max k k', fun b hb => ?_⟩
      rcases List.mem_cons.mp hb with rfl | hb
      · exact up (le_max_left ..) hk
      · exact up (le_max_right ..) (hk' b hb)

/-- A node whose arguments are all resolved leaves the queue at the next pass, with a number. -/
theorem resolved_of_args {ns : List (Node L ι)} {n : Node L ι} (hn : n ∈ ns) {k : ℕ}
    (h : ∀ a ∈ n.args, (after ns k).1.rel a ≠ none) :
    n ∉ (after ns (k + 1)).2 ∧ (after ns (k + 1)).1.rel n.id ≠ none := by
  have hw : n ∉ (after ns (k + 1)).2 := by
    rw [after_succ]
    intro hw
    obtain ⟨a, ha, hr⟩ := key_eq_none.mp (mem_waiting.mp hw).2
    exact h a ha hr
  exact ⟨hw, (((traces_after ns (k + 1)).complete n hn).resolve_left hw).1⟩

/-- **A grounded id gets a base** in some pass. -/
theorem Grounded.resolved {ns : List (Node L ι)} {i : ι} (h : Grounded ns i) :
    ∃ k, (after ns k).1.rel i ≠ none := by
  induction h with
  | mk hn _ ih =>
      obtain ⟨k, hk⟩ := exists_resolved ih
      exact ⟨k + 1, (resolved_of_args hn hk).2⟩

/-- **When the passes end.** -/
theorem ends_iff (ns : List (Node L ι)) : (∃ k, (after ns k).2 = []) ↔ AllGrounded ns := by
  constructor
  · rintro ⟨k, hk⟩ n hn a ha
    have hkey := (((traces_after ns k).complete n hn).resolve_left (by simp [hk])).2
    obtain ⟨key, hkey⟩ := Option.ne_none_iff_exists'.mp hkey
    obtain ⟨m, -, hm⟩ := mem_key_of_rel hkey ha
    exact grounded_of_rel (k := k) (by simp [hm])
  · intro h
    have h' : ∀ a ∈ ns.flatMap Node.args, ∃ k, (after ns k).1.rel a ≠ none := fun a ha => by
      obtain ⟨n, hn, ha⟩ := List.mem_flatMap.mp ha
      exact (h n hn a ha).resolved
    obtain ⟨k, hk⟩ := exists_resolved h'
    refine ⟨k + 1, List.eq_nil_iff_forall_not_mem.mpr fun n hn => ?_⟩
    have hns := (traces_after ns (k + 1)).sub n hn
    exact (resolved_of_args hns fun a ha => hk a (List.mem_flatMap.mpr ⟨n, hns, ha⟩)).1 hn

/-- **How many passes.**  When every argument is defined, a node still waiting after `k` passes
starts a chain of `k` references. -/
theorem chain_of_waiting {ns : List (Node L ι)}
    (hdef : ∀ n ∈ ns, ∀ a ∈ n.args, ∃ m ∈ ns, m.id = a) {k : ℕ} (hk : 1 ≤ k) :
    ∀ n ∈ (after ns k).2, ∃ c, c.head? = some n ∧ c.length = k ∧ IsRefChain ns c := by
  induction k, hk using Nat.le_induction with
  | base =>
      intro n hn
      rw [after_succ] at hn
      obtain ⟨a, ha, -⟩ := key_eq_none.mp (mem_waiting.mp hn).2
      refine ⟨[n], rfl, rfl, ?_, by simp, ?_⟩
      · simpa using (traces_after ns 0).sub n (mem_waiting.mp hn).1
      · intro m hm
        obtain rfl : n = m := by simpa using hm
        exact List.ne_nil_of_mem ha
  | succ k hk ih =>
      intro n hn
      have hns := (traces_after ns (k + 1)).sub n hn
      rw [after_succ] at hn
      obtain ⟨a, ha, hr⟩ := key_eq_none.mp (mem_waiting.mp hn).2
      obtain ⟨m, hm, rfl⟩ := hdef n hns a ha
      have hw : m ∈ (after ns k).2 :=
        ((traces_after ns k).complete m hm).resolve_right fun h => h.1 hr
      obtain ⟨c, hc, hlen, hin, hchain, hlast⟩ := ih m hw
      obtain ⟨c, rfl⟩ : ∃ c', c = m :: c' := by
        cases c with
        | nil => cases hc
        | cons x c => simp only [List.head?_cons, Option.some.injEq] at hc; exact ⟨c, by rw [hc]⟩
      refine ⟨n :: m :: c, rfl, by simpa using hlen, ?_, .cons_cons ha hchain, ?_⟩
      · intro x hx
        rcases List.mem_cons.mp hx with rfl | hx
        · exact hns
        · exact hin x hx
      · intro x hx
        exact hlast x (by simpa using hx)

/-! ### Sharing -/

/-- Once no node waits, every node has the number of a base, which is its key. -/
theorem base_of_node {ns : List (Node L ι)} (hid : (ns.map Node.id).Nodup) {k : ℕ}
    (hend : (after ns k).2 = []) {n : Node L ι} (hn : n ∈ ns) :
    ∃ m key, (after ns k).1.rel n.id = some (m + 1) ∧ n.key (after ns k).1.rel = some key ∧
      (after ns k).1.bases[m]? = some key := by
  have htr := traces_after ns k
  have hrel := ((htr.complete n hn).resolve_left (by simp [hend])).1
  obtain ⟨m, hm⟩ := Option.ne_none_iff_exists'.mp hrel
  obtain ⟨key, hkey, hbase⟩ := htr.base_of_rel hid hn hm
  obtain ⟨m, rfl⟩ : ∃ m', m = m' + 1 := ⟨m - 1, by have := ((after_wf ns k).rel _ m hm).1; omega⟩
  exact ⟨m, key, hm, hkey, hbase⟩

/-- Once no node waits, every base is the key of a node with its number. -/
theorem node_of_base {ns : List (Node L ι)} (hid : (ns.map Node.id).Nodup) {k : ℕ}
    (hend : (after ns k).2 = []) {m : ℕ} {key : Key L}
    (hkey : (after ns k).1.bases[m]? = some key) :
    ∃ n ∈ ns, (after ns k).1.rel n.id = some (m + 1) ∧ n.key (after ns k).1.rel = some key := by
  obtain ⟨n, hn, hk⟩ := (traces_after ns k).bases key (List.mem_of_getElem? hkey)
  obtain ⟨m', key', hm', hk', hbase'⟩ := base_of_node hid hend hn
  obtain rfl : key' = key := Option.some.inj (hk'.symm.trans hk)
  obtain ⟨h₁, -⟩ := List.getElem?_eq_some_iff.mp hkey
  obtain rfl : m = m' := (List.getElem?_inj h₁ (after_wf ns k).nodup).mp (hkey.trans hbase'.symm)
  exact ⟨n, hn, hm', hk⟩

/-- **Sharing is equality of unfoldings.** -/
theorem rel_eq_iff_unfold {ns : List (Node L ι)} (hid : (ns.map Node.id).Nodup) {K : ℕ}
    (hend : (after ns K).2 = []) {i j : ι} {t u : Tree L} (hi : Unfolds ns i t)
    (hj : Unfolds ns j u) : (after ns K).1.rel i = (after ns K).1.rel j ↔ t = u := by
  obtain ⟨k, hk⟩ := hi
  obtain ⟨l, hl⟩ := hj
  induction k generalizing i j t u l with
  | zero => cases hk
  | succ k ih =>
      obtain ⟨l, rfl⟩ : ∃ l', l = l' + 1 := by cases l with
        | zero => cases hl
        | succ l => exact ⟨l, rfl⟩
      have tr := traces_after ns K
      have wf := after_wf ns K
      obtain ⟨n, hn, rfl, ts, rfl, hts⟩ := unfold_succ_eq_some hk
      obtain ⟨n', hn', rfl, us, rfl, hus⟩ := unfold_succ_eq_some hl
      have num : ∀ n ∈ ns, ∃ m key, (after ns K).1.rel n.id = some m ∧ 1 ≤ m ∧
          n.key (after ns K).1.rel = some key ∧ (after ns K).1.bases[m - 1]? = some key := by
        intro n hn
        obtain ⟨m, hm⟩ := Option.ne_none_iff_exists'.mp
          ((tr.complete n hn).resolve_left (by simp [hend])).1
        obtain ⟨key, hkey, hb⟩ := tr.base_of_rel hid hn hm
        exact ⟨m, key, hm, (wf.rel _ m hm).1, hkey, hb⟩
      obtain ⟨m, key, hm, h1, hkey, hb⟩ := num n hn
      obtain ⟨m', key', hm', h1', hkey', hb'⟩ := num n' hn'
      -- one number is one key, since the bases are distinct
      have hmk : m = m' ↔ key = key' := by
        constructor
        · rintro rfl; rw [hb] at hb'; exact Option.some.inj hb'
        · rintro rfl
          have hindex :=
            (List.getElem?_inj (List.getElem?_eq_some_iff.mp hb).1 wf.nodup).mp (hb.trans hb'.symm)
          omega
      have hargs := map_rel_eq_iff (fun a b t u ha hb => ih ha l hb) hts hus
      rw [hm, hm', Option.some.injEq, hmk, Tree.node.injEq, ← hargs, Prod.ext_iff,
        (key_eq_some.mp hkey).1, (key_eq_some.mp hkey').1, (key_eq_some.mp hkey).2,
        (key_eq_some.mp hkey').2, (List.map_injective_iff.mpr (Option.some_injective ℕ)).eq_iff]

end HashCons
