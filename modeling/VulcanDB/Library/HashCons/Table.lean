import Mathlib.Data.List.Infix
import Mathlib.Data.List.Nodup
import Mathlib.Tactic

/-!
# Library — Hash-consing — Table

Numbering the nodes of a term graph so that equal subterms share a number.  A *node* has an id,
a label and the ids of its arguments; its *key* is its label with the numbers of its arguments.
A *table* holds the distinct keys met so far, in order — the base numbered `k` is the one at
index `k - 1` — and the number of every id resolved so far.

A `step` interns every waiting node whose arguments were all resolved before the step, in order,
and keeps the others waiting.  `after ns k` is the state `k` steps from the empty table.

* `after_wf`: the bases are distinct, and a base cites only bases before it.
* `Traces`: what the table knows about the nodes it was built from, kept by every step.
-/

namespace HashCons

variable {L ι : Type*}

/-- A node with its id, its label and the ids of its arguments. -/
structure Node (L ι : Type*) where
  id : ι
  label : L
  args : List ι

/-- A label and the numbers of the arguments. -/
abbrev Key (L : Type*) := L × List ℕ

/-- The keys that have a base, in the order of their numbers, and the base of each id. -/
structure Table (L ι : Type*) where
  bases : List (Key L)
  rel : ι → Option ℕ

/-- Before the first node. -/
def Table.empty : Table L ι := ⟨[], fun _ => none⟩

/-- The numbers of a list of arguments, once all have one. -/
def resolve (rel : ι → Option ℕ) : List ι → Option (List ℕ)
  | [] => some []
  | a :: as => (rel a).bind fun m => (resolve rel as).map (m :: ·)

/-- The key of a node, when the bases of all its arguments are known. -/
def Node.key (rel : ι → Option ℕ) (n : Node L ι) : Option (Key L) :=
  (resolve rel n.args).map (n.label, ·)

/-- The ids and keys of the nodes whose arguments are all resolved. -/
def ready (rel : ι → Option ℕ) (ns : List (Node L ι)) : List (ι × Key L) :=
  ns.filterMap fun n => (n.key rel).map (n.id, ·)

/-- The nodes with an argument not resolved. -/
def waiting (rel : ι → Option ℕ) (ns : List (Node L ι)) : List (Node L ι) :=
  ns.filter fun n => (n.key rel).isNone

/-- Resolving succeeds when every id has a number. -/
theorem resolve_eq_some {rel : ι → Option ℕ} {as : List ι} {ms : List ℕ} :
    resolve rel as = some ms ↔ as.map rel = ms.map some := by
  induction as generalizing ms with
  | nil => cases ms <;> simp [resolve]
  | cons a as ih =>
      simp only [resolve, Option.bind_eq_some_iff, Option.map_eq_some_iff, ih, List.map_cons]
      rcases ms with _ | ⟨m, ms⟩ <;> simp

theorem exists_resolve_iff {rel : ι → Option ℕ} {as : List ι} :
    (∃ ms, resolve rel as = some ms) ↔ ∀ a ∈ as, rel a ≠ none := by
  constructor
  · rintro ⟨ms, h⟩ a ha hn
    have : rel a ∈ ms.map some := resolve_eq_some.mp h ▸ List.mem_map_of_mem ha
    rw [hn] at this
    simp at this
  · intro h
    induction as with
    | nil => exact ⟨[], rfl⟩
    | cons a as ih =>
        obtain ⟨m, hm⟩ := Option.ne_none_iff_exists'.mp (h a (by simp))
        obtain ⟨ms, hms⟩ := ih fun b hb => h b (by simp [hb])
        exact ⟨m :: ms, resolve_eq_some.mpr (by simp [hm, resolve_eq_some.mp hms])⟩

/-- A key is the label with the numbers of the arguments. -/
theorem key_eq_some {rel : ι → Option ℕ} {n : Node L ι} {key : Key L} :
    n.key rel = some key ↔ key.1 = n.label ∧ n.args.map rel = key.2.map some := by
  obtain ⟨l, ms⟩ := key
  simp only [Node.key, Option.map_eq_some_iff, resolve_eq_some, Prod.mk.injEq]
  constructor
  · rintro ⟨ms', h, rfl, rfl⟩; exact ⟨rfl, h⟩
  · rintro ⟨rfl, h⟩; exact ⟨ms, h, rfl, rfl⟩

/-- A key is missing when an argument has no base. -/
theorem key_eq_none {rel : ι → Option ℕ} {n : Node L ι} :
    n.key rel = none ↔ ∃ a ∈ n.args, rel a = none := by
  rw [Node.key, Option.map_eq_none_iff, ← not_iff_not]
  push Not
  rw [Option.ne_none_iff_exists', exists_resolve_iff]

/-- The number of an argument is in the key. -/
theorem rel_of_mem_key {rel : ι → Option ℕ} {n : Node L ι} {key : Key L}
    (h : n.key rel = some key) {m : ℕ} (hm : m ∈ key.2) : ∃ a ∈ n.args, rel a = some m := by
  have : some m ∈ n.args.map rel := (key_eq_some.mp h).2 ▸ List.mem_map_of_mem hm
  simpa using this

/-- Every argument has its number in the key. -/
theorem mem_key_of_rel {rel : ι → Option ℕ} {n : Node L ι} {key : Key L}
    (h : n.key rel = some key) {a : ι} (ha : a ∈ n.args) : ∃ m ∈ key.2, rel a = some m := by
  have : rel a ∈ key.2.map some := (key_eq_some.mp h).2 ▸ List.mem_map_of_mem ha
  obtain ⟨m, hm, e⟩ := List.mem_map.mp this
  exact ⟨m, hm, e.symm⟩

/-- What is ready are the nodes whose keys are known. -/
theorem mem_ready {rel : ι → Option ℕ} {ns : List (Node L ι)} {p : ι × Key L} :
    p ∈ ready rel ns ↔ ∃ n ∈ ns, n.id = p.1 ∧ n.key rel = some p.2 := by
  obtain ⟨i, key⟩ := p
  simp only [ready, List.mem_filterMap, Option.map_eq_some_iff, Prod.mk.injEq]
  constructor
  · rintro ⟨n, hn, key', hk, rfl, rfl⟩; exact ⟨n, hn, rfl, hk⟩
  · rintro ⟨n, hn, rfl, hk⟩; exact ⟨n, hn, key, hk, rfl, rfl⟩

theorem mem_waiting {rel : ι → Option ℕ} {ns : List (Node L ι)} {n : Node L ι} :
    n ∈ waiting rel ns ↔ n ∈ ns ∧ n.key rel = none := by simp [waiting]

/-! ### Growth -/

/-- `T'` extends `T`: more bases at the end, more ids resolved. -/
structure Grows (T T' : Table L ι) : Prop where
  bases : T.bases <+: T'.bases
  rel : ∀ i m, T.rel i = some m → T'.rel i = some m

namespace Grows

theorem refl (T : Table L ι) : Grows T T := ⟨List.prefix_refl _, fun _ _ h => h⟩

theorem trans {T₁ T₂ T₃ : Table L ι} (h : Grows T₁ T₂) (h' : Grows T₂ T₃) : Grows T₁ T₃ :=
  ⟨h.bases.trans h'.bases, fun i m hi => h'.rel i m (h.rel i m hi)⟩

theorem length_le {T T' : Table L ι} (h : Grows T T') : T.bases.length ≤ T'.bases.length :=
  h.bases.length_le

theorem base {T T' : Table L ι} (h : Grows T T') {k : ℕ} {key : Key L}
    (hk : T.bases[k]? = some key) : T'.bases[k]? = some key := by
  obtain ⟨r, hr⟩ := h.bases
  have hlt : k < T.bases.length := (List.getElem?_eq_some_iff.mp hk).1
  rw [← hr, List.getElem?_append_left hlt, hk]

theorem key {T T' : Table L ι} (h : Grows T T') {n : Node L ι} {key : Key L}
    (hk : n.key T.rel = some key) : n.key T'.rel = some key := by
  rw [key_eq_some] at hk ⊢
  refine ⟨hk.1, hk.2 ▸ List.map_congr_left fun a ha => ?_⟩
  have : T.rel a ∈ key.2.map some := hk.2 ▸ List.mem_map_of_mem ha
  obtain ⟨m, -, hm⟩ := List.mem_map.mp this
  rw [← hm, h.rel a m hm.symm]

end Grows

/-! ### Well-formed tables -/

/-- The bases are distinct, a base cites only bases before it, and the numbers given out are
numbers of bases. -/
structure Table.WF (T : Table L ι) : Prop where
  nodup : T.bases.Nodup
  cites : ∀ k key, T.bases[k]? = some key → ∀ a ∈ key.2, 1 ≤ a ∧ a ≤ k
  rel : ∀ i m, T.rel i = some m → 1 ≤ m ∧ m ≤ T.bases.length

theorem wf_empty : (Table.empty : Table L ι).WF :=
  ⟨by simp [Table.empty], by simp [Table.empty], by simp [Table.empty]⟩

/-- The keys that are ready cite bases of the table. -/
theorem Table.WF.ready_cites {T : Table L ι} (h : T.WF) {ns : List (Node L ι)} {p : ι × Key L}
    (hp : p ∈ ready T.rel ns) {a : ℕ} (ha : a ∈ p.2.2) : 1 ≤ a ∧ a ≤ T.bases.length := by
  obtain ⟨n, -, -, hk⟩ := mem_ready.mp hp
  obtain ⟨i, -, hi⟩ := rel_of_mem_key hk ha
  exact h.rel i a hi

/-! ### What the table knows about the nodes -/

/-- The table and the nodes that wait. -/
abbrev State (L ι : Type*) := Table L ι × List (Node L ι)

/-- Every number given out is that of the key of a node with that id; every base is the key of a
node; every node waits or has a number. -/
structure Traces (ns : List (Node L ι)) (s : State L ι) : Prop where
  sound : ∀ i m, s.1.rel i = some m →
    ∃ n ∈ ns, n.id = i ∧ ∃ key, n.key s.1.rel = some key ∧ s.1.bases[m - 1]? = some key
  bases : ∀ key ∈ s.1.bases, ∃ n ∈ ns, n.key s.1.rel = some key
  sub : ∀ n ∈ s.2, n ∈ ns
  complete : ∀ n ∈ ns, n ∈ s.2 ∨ (s.1.rel n.id ≠ none ∧ n.key s.1.rel ≠ none)

/-- With distinct ids, a resolved id has the number of its own node's key. -/
theorem Traces.base_of_rel {ns : List (Node L ι)} {s : State L ι} (h : Traces ns s)
    (hid : (ns.map Node.id).Nodup) {n : Node L ι} (hn : n ∈ ns) {m : ℕ}
    (hm : s.1.rel n.id = some m) :
    ∃ key, n.key s.1.rel = some key ∧ s.1.bases[m - 1]? = some key := by
  obtain ⟨n', hn', hid', hk⟩ := h.sound n.id m hm
  obtain rfl := List.inj_on_of_nodup_map hid hn' hn hid'
  exact hk

/-! ### Interning -/

variable [DecidableEq L] [DecidableEq ι]

/-- Insertion that keeps an entry already there. -/
def insertNew (rel : ι → Option ℕ) (i : ι) (k : ℕ) : ι → Option ℕ :=
  fun j => if j = i then some ((rel i).getD k) else rel j

/-- The number of a key: its base's, or the next one. -/
def Table.number (T : Table L ι) (key : Key L) : ℕ := T.bases.idxOf key + 1

/-- An id with its key: a base of its own, or the one of that key. -/
def Table.intern (T : Table L ι) (i : ι) (key : Key L) : Table L ι where
  bases := if key ∈ T.bases then T.bases else T.bases ++ [key]
  rel := insertNew T.rel i (T.number key)

/-- Several, in their order. -/
def Table.internAll (T : Table L ι) (ps : List (ι × Key L)) : Table L ι :=
  ps.foldl (fun T p => T.intern p.1 p.2) T

/-- One pass: the nodes that are ready are interned, the others wait. -/
def step (s : State L ι) : State L ι :=
  (s.1.internAll (ready s.1.rel s.2), waiting s.1.rel s.2)

/-- The state `k` steps from the empty table. -/
def after (ns : List (Node L ι)) (k : ℕ) : State L ι := step^[k] (Table.empty, ns)

theorem after_succ (ns : List (Node L ι)) (k : ℕ) : after ns (k + 1) = step (after ns k) :=
  Function.iterate_succ_apply' ..

@[simp] theorem insertNew_self (rel : ι → Option ℕ) (i : ι) (k : ℕ) :
    insertNew rel i k i = some ((rel i).getD k) := by simp [insertNew]

theorem insertNew_of_ne {rel : ι → Option ℕ} {i j : ι} (h : j ≠ i) (k : ℕ) :
    insertNew rel i k j = rel j := by simp [insertNew, h]

/-- An entry of `insertNew` was there, or is the new one. -/
theorem insertNew_eq_some {rel : ι → Option ℕ} {i j : ι} {k m : ℕ}
    (h : insertNew rel i k j = some m) : rel j = some m ∨ (j = i ∧ rel i = none ∧ m = k) := by
  by_cases e : j = i
  · subst e
    rw [insertNew_self] at h
    cases hr : rel j with
    | none => simp [hr] at h; exact .inr ⟨rfl, rfl, h.symm⟩
    | some m' => simp [hr] at h; exact .inl (by rw [h])
  · rw [insertNew_of_ne e] at h; exact .inl h

theorem grows_intern (T : Table L ι) (i : ι) (key : Key L) : Grows T (T.intern i key) := by
  constructor
  · simp only [Table.intern]
    split
    · exact List.prefix_refl _
    · exact List.prefix_append _ _
  · intro j m h
    simp only [Table.intern]
    by_cases e : j = i
    · subst e; simp [h]
    · rw [insertNew_of_ne e, h]

theorem grows_internAll (T : Table L ι) (ps : List (ι × Key L)) : Grows T (T.internAll ps) := by
  induction ps generalizing T with
  | nil => exact .refl T
  | cons p ps ih => exact (grows_intern T p.1 p.2).trans (ih _)

theorem grows_step (s : State L ι) : Grows s.1 (step s).1 := grows_internAll _ _

theorem grows_after (ns : List (Node L ι)) {j k : ℕ} (h : j ≤ k) :
    Grows (after ns j).1 (after ns k).1 := by
  induction h with
  | refl => exact .refl _
  | step _ ih => rw [after_succ]; exact ih.trans (grows_step _)

/-- The base of an interned key, at its number. -/
theorem base_intern (T : Table L ι) (i : ι) (key : Key L) :
    (T.intern i key).bases[T.number key - 1]? = some key := by
  simp only [Table.intern, Table.number, Nat.add_sub_cancel]
  split
  · rename_i h
    rw [List.getElem?_eq_some_iff]
    exact ⟨List.idxOf_lt_length_of_mem h, List.getElem_idxOf _⟩
  · rename_i h
    rw [List.idxOf_eq_length h]
    simp

/-! ### What every step keeps -/

theorem number_le (T : Table L ι) (i : ι) (key : Key L) :
    T.number key ≤ (T.intern i key).bases.length := by
  have := (List.getElem?_eq_some_iff.mp (base_intern T i key)).1
  unfold Table.number at this ⊢
  omega

/-- Interning keeps a table well-formed, when the key's numbers are there. -/
theorem Table.WF.intern {T : Table L ι} (h : T.WF) (i : ι) {key : Key L}
    (hkey : ∀ a ∈ key.2, 1 ≤ a ∧ a ≤ T.bases.length) : (T.intern i key).WF where
  nodup := by
    simp only [Table.intern]
    split
    · exact h.nodup
    · rename_i hk
      exact List.nodup_append.mpr ⟨h.nodup, by simp, by
        intro a ha b hb
        obtain rfl := List.mem_singleton.mp hb
        rintro rfl; exact hk ha⟩
  cites := by
    intro k key' hk
    simp only [Table.intern] at hk
    split at hk
    · exact h.cites k key' hk
    · rcases lt_or_ge k T.bases.length with hlt | hge
      · rw [List.getElem?_append_left hlt] at hk
        exact h.cites k key' hk
      · rw [List.getElem?_append_right hge, List.getElem?_singleton] at hk
        split at hk
        · cases hk
          intro a ha
          exact ⟨(hkey a ha).1, (hkey a ha).2.trans hge⟩
        · cases hk
  rel := by
    intro j m hj
    rcases insertNew_eq_some hj with hj | ⟨-, -, rfl⟩
    · exact ⟨(h.rel j m hj).1, (h.rel j m hj).2.trans (grows_intern T i key).length_le⟩
    · exact ⟨by unfold Table.number; omega, number_le T i key⟩

theorem Table.WF.internAll {T : Table L ι} (h : T.WF) {ps : List (ι × Key L)} {N : ℕ}
    (hN : N ≤ T.bases.length) (hps : ∀ p ∈ ps, ∀ a ∈ p.2.2, 1 ≤ a ∧ a ≤ N) :
    (T.internAll ps).WF := by
  induction ps generalizing T with
  | nil => exact h
  | cons p ps ih =>
      refine ih (h.intern p.1 fun a ha => ?_) ?_ fun q hq => hps q (by simp [hq])
      · exact ⟨(hps p (by simp) a ha).1, (hps p (by simp) a ha).2.trans hN⟩
      · exact hN.trans (grows_intern T p.1 p.2).length_le

theorem wf_step {s : State L ι} (h : s.1.WF) : (step s).1.WF :=
  h.internAll le_rfl fun _ hp _ ha => h.ready_cites hp ha

/-- **Every pass leaves a well-formed table.** -/
theorem after_wf (ns : List (Node L ι)) (k : ℕ) : (after ns k).1.WF := by
  induction k with
  | zero => exact wf_empty
  | succ k ih => rw [after_succ]; exact wf_step ih

/-- An id with a base had it, or was interned with the key of that base. -/
theorem rel_internAll {T : Table L ι} {ps : List (ι × Key L)} {i : ι} {m : ℕ}
    (h : (T.internAll ps).rel i = some m) : T.rel i = some m ∨
      ∃ key, (i, key) ∈ ps ∧ T.rel i = none ∧ (T.internAll ps).bases[m - 1]? = some key := by
  induction ps generalizing T with
  | nil => exact .inl h
  | cons p ps ih =>
      rcases ih h with h' | ⟨key, hk, hn, hb⟩
      · rcases insertNew_eq_some h' with h' | ⟨rfl, hn, rfl⟩
        · exact .inl h'
        · exact .inr ⟨p.2, by simp, hn, (grows_internAll _ ps).base (base_intern T p.1 p.2)⟩
      · refine .inr ⟨key, by simp [hk], ?_, hb⟩
        by_contra hne
        obtain ⟨m', hm'⟩ := Option.ne_none_iff_exists'.mp hne
        rw [(grows_intern T p.1 p.2).rel i m' hm'] at hn
        cases hn

/-- The keys of the table are those it had and those interned. -/
theorem mem_bases_internAll {T : Table L ι} {ps : List (ι × Key L)} {key : Key L} :
    key ∈ (T.internAll ps).bases ↔ key ∈ T.bases ∨ ∃ i, (i, key) ∈ ps := by
  induction ps generalizing T with
  | nil => simp [Table.internAll]
  | cons p ps ih =>
      have hp : key ∈ (T.intern p.1 p.2).bases ↔ key ∈ T.bases ∨ key = p.2 := by
        simp only [Table.intern]
        split
        · exact ⟨.inl, fun h => h.elim id fun e => e ▸ ‹_›⟩
        · simp
      rw [show T.internAll (p :: ps) = (T.intern p.1 p.2).internAll ps from rfl, ih, hp, or_assoc]
      refine or_congr_right ⟨?_, ?_⟩
      · rintro (rfl | ⟨i, hi⟩)
        · exact ⟨p.1, by simp⟩
        · exact ⟨i, by simp [hi]⟩
      · rintro ⟨i, hi⟩
        rcases List.mem_cons.mp hi with rfl | hi
        · exact .inl rfl
        · exact .inr ⟨i, hi⟩

theorem rel_internAll_of_mem {T : Table L ι} {ps : List (ι × Key L)} {p : ι × Key L}
    (h : p ∈ ps) : (T.internAll ps).rel p.1 ≠ none := by
  induction ps generalizing T with
  | nil => cases h
  | cons q ps ih =>
      rcases List.mem_cons.mp h with rfl | h
      · intro hn
        have := (grows_internAll (T.intern p.1 p.2) ps).rel p.1 _ (insertNew_self _ _ _)
        rw [show (T.intern p.1 p.2).internAll ps = T.internAll (p :: ps) from rfl, hn] at this
        cases this
      · exact ih h

theorem rel_internAll_of_ne {T : Table L ι} {ps : List (ι × Key L)} {i : ι}
    (h : ∀ p ∈ ps, p.1 ≠ i) : (T.internAll ps).rel i = T.rel i := by
  induction ps generalizing T with
  | nil => rfl
  | cons p ps ih =>
      rw [show T.internAll (p :: ps) = (T.intern p.1 p.2).internAll ps from rfl,
        ih fun q hq => h q (List.mem_cons_of_mem _ hq)]
      exact insertNew_of_ne (h p List.mem_cons_self).symm _

/-- An id gets the number of the first key that comes with it. -/
theorem rel_internAll_first {T : Table L ι} {front rest : List (ι × Key L)} {i : ι} {key : Key L}
    (hT : T.rel i = none) (hfront : ∀ p ∈ front, p.1 ≠ i) :
    ∃ m, 1 ≤ m ∧ (T.internAll (front ++ (i, key) :: rest)).rel i = some m ∧
      (T.internAll (front ++ (i, key) :: rest)).bases[m - 1]? = some key := by
  have hsplit : T.internAll (front ++ (i, key) :: rest) =
      ((T.internAll front).intern i key).internAll rest := by
    simp [Table.internAll]
  have hnone : (T.internAll front).rel i = none := by rw [rel_internAll_of_ne hfront, hT]
  have hgrows := grows_internAll ((T.internAll front).intern i key) rest
  rw [hsplit]
  refine ⟨(T.internAll front).number key, Nat.le_add_left _ _, hgrows.rel _ _ ?_,
    hgrows.base (base_intern _ i key)⟩
  show insertNew _ i _ i = _
  rw [insertNew_self, hnone, Option.getD_none]

omit [DecidableEq ι] in
/-- The number of a base is its place. -/
theorem Table.WF.number_eq {T : Table L ι} (h : T.WF) {key : Key L} {m : ℕ} (hm : 1 ≤ m)
    (hkey : T.bases[m - 1]? = some key) : T.number key = m := by
  obtain ⟨hlt, hget⟩ := List.getElem?_eq_some_iff.mp hkey
  rw [Table.number, ← hget, h.nodup.idxOf_getElem]
  omega

/-- **What one pass preserves**: every base is the key of a node. -/
theorem Traces.step {ns : List (Node L ι)} {s : State L ι} (h : Traces ns s) :
    Traces ns (step s) where
  sound := by
    intro i m hi
    rcases rel_internAll hi with hi | ⟨key, hk, -, hb⟩
    · obtain ⟨n, hn, hid, key, hk, hb⟩ := h.sound i m hi
      exact ⟨n, hn, hid, key, (grows_step s).key hk, (grows_step s).base hb⟩
    · obtain ⟨n, hn, hid, hk⟩ := mem_ready.mp hk
      exact ⟨n, h.sub n hn, hid, key, (grows_step s).key hk, hb⟩
  bases := by
    intro key hk
    rcases mem_bases_internAll.mp hk with hk | ⟨i, hi⟩
    · obtain ⟨n, hn, hk⟩ := h.bases key hk
      exact ⟨n, hn, (grows_step s).key hk⟩
    · obtain ⟨n, hn, -, hk⟩ := mem_ready.mp hi
      exact ⟨n, h.sub n hn, (grows_step s).key hk⟩
  sub := fun n hn => h.sub n (mem_waiting.mp hn).1
  complete := by
    intro n hn
    rcases h.complete n hn with hw | ⟨hr, hk⟩
    · cases hk : n.key s.1.rel with
      | none => exact .inl (mem_waiting.mpr ⟨hw, hk⟩)
      | some key =>
          refine .inr ⟨rel_internAll_of_mem (p := (n.id, key)) (mem_ready.mpr ⟨n, hw, rfl, hk⟩), ?_⟩
          rw [(grows_step s).key hk]; simp
    · obtain ⟨m, hm⟩ := Option.ne_none_iff_exists'.mp hr
      obtain ⟨key, hk⟩ := Option.ne_none_iff_exists'.mp hk
      exact .inr ⟨by rw [(grows_step s).rel _ m hm]; simp, by rw [(grows_step s).key hk]; simp⟩

theorem traces_after (ns : List (Node L ι)) (k : ℕ) : Traces ns (after ns k) := by
  induction k with
  | zero => exact ⟨by simp [after, Table.empty], by simp [after, Table.empty], fun _ h => h,
      fun _ h => .inl h⟩
  | succ k ih => rw [after_succ]; exact ih.step

/-- A node that waits no more has its key among the bases. -/
theorem after_key (ns : List (Node L ι)) (k : ℕ) : ∀ n ∈ ns, n ∈ (after ns k).2 ∨
    ∃ key ∈ (after ns k).1.bases, n.key (after ns k).1.rel = some key := by
  induction k with
  | zero => exact fun n hn => .inl hn
  | succ k ih =>
      intro n hn
      rw [after_succ]
      rcases ih n hn with hw | ⟨key, hmem, hkey⟩
      · cases hkey : n.key (after ns k).1.rel with
        | none => exact .inl (mem_waiting.mpr ⟨hw, hkey⟩)
        | some key =>
            have hready : (n.id, key) ∈ ready (after ns k).1.rel (after ns k).2 :=
              mem_ready.mpr ⟨n, hw, rfl, hkey⟩
            exact .inr ⟨key, mem_bases_internAll.mpr (.inr ⟨n.id, hready⟩),
              (grows_step (after ns k)).key hkey⟩
      · exact .inr ⟨key, (grows_step (after ns k)).bases.subset hmem,
          (grows_step (after ns k)).key hkey⟩

end HashCons
