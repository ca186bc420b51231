import VulcanDB.Library.HashCons.Table

/-!
# Library — Hash-consing — Idempotence

The bases of a table, read as nodes again — the base numbered `k` has the id `c k` and cites the
ids of its numbers — are numbered a second time exactly as they were the first.

The passes number the bases in layers: the bases a pass adds cite some base that the pass before
added, and none later (`Fresh`).  So the second run has the same nodes ready at every pass, in
the same order (`after_toNodes`).
-/

namespace HashCons

variable {L ι : Type*}

/-- The bases of `B` as nodes, the first of them numbered `n + 1`. -/
def toNodesFrom (c : ℕ → ι) : ℕ → List (Key L) → List (Node L ι)
  | _, [] => []
  | n, key :: B => ⟨c (n + 1), key.1, key.2.map c⟩ :: toNodesFrom c (n + 1) B

/-- The bases as nodes, numbered from one, with `c` for the ids. -/
def toNodes (c : ℕ → ι) (B : List (Key L)) : List (Node L ι) := toNodesFrom c 0 B

/-- The pairs of id and key that they are interned with. -/
def pairsFrom (c : ℕ → ι) : ℕ → List (Key L) → List (ι × Key L)
  | _, [] => []
  | n, key :: B => (c (n + 1), key) :: pairsFrom c (n + 1) B

theorem toNodesFrom_append (c : ℕ → ι) (n : ℕ) (A B : List (Key L)) :
    toNodesFrom c n (A ++ B) = toNodesFrom c n A ++ toNodesFrom c (n + A.length) B := by
  induction A generalizing n with
  | nil => rfl
  | cons key A ih =>
      simp only [List.cons_append, toNodesFrom, ih, List.length_cons]
      rw [Nat.add_right_comm, Nat.add_assoc]

/-- Exactly the ids of the bases up to `N` are resolved, each to its own number. -/
def IdRel (c : ℕ → ι) (N : ℕ) (rel : ι → Option ℕ) : Prop :=
  ∀ i m, rel i = some m ↔ i = c m ∧ 1 ≤ m ∧ m ≤ N

/-- A key whose numbers are known is the node's own. -/
theorem IdRel.key {c : ℕ → ι} {N : ℕ} {rel : ι → Option ℕ} (h : IdRel c N rel) {i : ι}
    {key : Key L} (hk : ∀ a ∈ key.2, 1 ≤ a ∧ a ≤ N) :
    Node.key rel ⟨i, key.1, key.2.map c⟩ = some key := by
  refine key_eq_some.mpr ⟨rfl, ?_⟩
  simp only [List.map_map]
  exact List.map_congr_left fun a ha => (h (c a) a).mpr ⟨rfl, hk a ha⟩

/-- A key with a number beyond is not known. -/
theorem IdRel.key_none {c : ℕ → ι} (hc : Function.Injective c) {N : ℕ} {rel : ι → Option ℕ}
    (h : IdRel c N rel) {i : ι} {key : Key L} {a : ℕ} (ha : a ∈ key.2) (hN : N < a) :
    Node.key rel ⟨i, key.1, key.2.map c⟩ = none := by
  refine key_eq_none.mpr ⟨c a, List.mem_map_of_mem ha, ?_⟩
  by_contra hne
  obtain ⟨m, hm⟩ := Option.ne_none_iff_exists'.mp hne
  obtain ⟨e, -, hle⟩ := (h _ m).mp hm
  have := hc e
  omega

/-- Bases that cite known numbers are all ready. -/
theorem IdRel.ready {c : ℕ → ι} {N : ℕ} {rel : ι → Option ℕ} (h : IdRel c N rel) (n : ℕ)
    {B : List (Key L)} (hB : ∀ key ∈ B, ∀ a ∈ key.2, 1 ≤ a ∧ a ≤ N) :
    ready rel (toNodesFrom c n B) = pairsFrom c n B ∧ waiting rel (toNodesFrom c n B) = [] := by
  induction B generalizing n with
  | nil => exact ⟨rfl, rfl⟩
  | cons key B ih =>
      obtain ⟨h₁, h₂⟩ := ih (n + 1) fun k hk => hB k (by simp [hk])
      have hk := h.key (i := c (n + 1)) (hB key (by simp))
      constructor
      · simp only [HashCons.ready] at h₁
        simp [HashCons.ready, toNodesFrom, pairsFrom, hk, h₁]
      · simp only [waiting] at h₂
        simp [waiting, toNodesFrom, hk, h₂]

/-- Bases that each cite a number beyond all wait. -/
theorem IdRel.waiting {c : ℕ → ι} (hc : Function.Injective c) {N : ℕ} {rel : ι → Option ℕ}
    (h : IdRel c N rel) (n : ℕ) {B : List (Key L)} (hB : ∀ key ∈ B, ∃ a ∈ key.2, N < a) :
    HashCons.ready rel (toNodesFrom c n B) = [] ∧
      HashCons.waiting rel (toNodesFrom c n B) = toNodesFrom c n B := by
  induction B generalizing n with
  | nil => exact ⟨rfl, rfl⟩
  | cons key B ih =>
      obtain ⟨h₁, h₂⟩ := ih (n + 1) fun k hk => hB k (by simp [hk])
      obtain ⟨a, ha, hN⟩ := hB key (by simp)
      have hk := h.key_none hc (i := c (n + 1)) ha hN
      constructor
      · simp only [HashCons.ready] at h₁
        simp [HashCons.ready, toNodesFrom, hk, h₁]
      · simp only [HashCons.waiting] at h₂
        simp [HashCons.waiting, toNodesFrom, hk, h₂]

variable [DecidableEq L] [DecidableEq ι]

/-! ### The layers of the first run -/

/-- The bases cite only up to `N`, and a waiting node that is ready cites beyond. -/
structure Fresh (N : ℕ) (s : State L ι) : Prop where
  bases : ∀ key ∈ s.1.bases, ∀ a ∈ key.2, a ≤ N
  waiting : ∀ n ∈ s.2, ∀ key, n.key s.1.rel = some key → ∃ a ∈ key.2, N < a

omit [DecidableEq L] [DecidableEq ι] in
theorem cites_le_length {T : Table L ι} (h : T.WF) {key : Key L} (hk : key ∈ T.bases) {a : ℕ}
    (ha : a ∈ key.2) : 1 ≤ a ∧ a ≤ T.bases.length := by
  obtain ⟨k, hk⟩ := List.mem_iff_getElem?.mp hk
  have := h.cites k key hk a ha
  have := (List.getElem?_eq_some_iff.mp hk).1
  omega

/-- **What one pass preserves.** -/
theorem Fresh.step {N : ℕ} {s : State L ι} (hw : s.1.WF) (h : Fresh N s) :
    Fresh s.1.bases.length (step s) where
  bases := by
    intro key hk a ha
    rcases mem_bases_internAll.mp hk with hk | ⟨i, hi⟩
    · exact (cites_le_length hw hk ha).2
    · exact (hw.ready_cites hi ha).2
  waiting := by
    intro n hn key hkey
    obtain ⟨a, ha, hr⟩ := key_eq_none.mp (mem_waiting.mp hn).2
    obtain ⟨m, hm, hrel⟩ := mem_key_of_rel hkey ha
    refine ⟨m, hm, ?_⟩
    by_contra hle
    rcases rel_internAll hrel with h' | ⟨key', hk', -, hb⟩
    · rw [hr] at h'; cases h'
    · -- the number would be that of an old base, which cites too little to be ready now
      have h1 := ((wf_step hw).rel a m hrel).1
      obtain ⟨n', hn', -, hkey'⟩ := mem_ready.mp hk'
      obtain ⟨b, hb', hN⟩ := h.waiting n' hn' key' hkey'
      have hlt : m - 1 < s.1.bases.length := by omega
      obtain ⟨r, hr'⟩ := (grows_step s).bases
      have hb₀ : (HashCons.step s).1.bases[m - 1]? = some key' := hb
      rw [← hr', List.getElem?_append_left hlt] at hb₀
      have := h.bases key' (List.mem_of_getElem? hb₀) b hb'
      omega

/-- The bases of a pass each cite one of the pass before. -/
theorem fresh_after (ns : List (Node L ι)) (k : ℕ) :
    Fresh (after ns k).1.bases.length (after ns (k + 1)) := by
  induction k with
  | zero =>
      constructor
      · intro key hk a ha
        rcases mem_bases_internAll.mp hk with hk | ⟨i, hi⟩
        · cases hk
        · obtain ⟨n, -, -, hkey⟩ := mem_ready.mp hi
          obtain ⟨b, -, hb⟩ := rel_of_mem_key hkey ha
          cases hb
      · intro n hn key hkey
        rw [after_succ] at hn
        obtain ⟨a, ha, -⟩ := key_eq_none.mp (mem_waiting.mp hn).2
        obtain ⟨m, hm, hrel⟩ := mem_key_of_rel hkey ha
        exact ⟨m, hm, ((after_wf ns 1).rel a m hrel).1⟩
  | succ k ih => rw [after_succ ns (k + 1)]; exact ih.step (after_wf ns (k + 1))

/-- A base that no pass up to `k` added cites beyond the bases of the pass before. -/
theorem cites_beyond {ns : List (Node L ι)} {k K : ℕ} (hK : k + 1 ≤ K) {j : ℕ}
    (hj : (after ns (k + 1)).1.bases.length ≤ j) {key : Key L}
    (hkey : (after ns K).1.bases[j]? = some key) :
    ∃ a ∈ key.2, (after ns k).1.bases.length < a := by
  induction K, hK using Nat.le_induction with
  | base =>
      have := (List.getElem?_eq_some_iff.mp hkey).1
      omega
  | succ K hK ih =>
      have g := grows_step (after ns K)
      rw [after_succ] at hkey
      rcases lt_or_ge j (after ns K).1.bases.length with hlt | hge
      · refine ih ?_
        obtain ⟨r, hr⟩ := g.bases
        rwa [← hr, List.getElem?_append_left hlt] at hkey
      · rcases mem_bases_internAll.mp (List.mem_of_getElem? hkey) with hold | ⟨i, hi⟩
        · obtain ⟨j', hj'⟩ := List.mem_iff_getElem?.mp hold
          have hlt := (List.getElem?_eq_some_iff.mp hj').1
          have := (List.getElem?_inj (List.getElem?_eq_some_iff.mp hkey).1
            (wf_step (after_wf ns K)).nodup).mp (hkey.trans (g.base hj').symm)
          omega
        · obtain ⟨n, hn, -, hk⟩ := mem_ready.mp hi
          obtain ⟨K, rfl⟩ : ∃ K', K = K' + 1 := ⟨K - 1, by omega⟩
          obtain ⟨a, ha, hlt⟩ := (fresh_after ns K).waiting n hn key hk
          exact ⟨a, ha, ((grows_after ns (by omega)).length_le).trans_lt hlt⟩

/-! ### The second run -/

/-- Interning the bases in their order gives each its own number. -/
theorem internAll_pairsFrom {c : ℕ → ι} (hc : Function.Injective c) {T : Table L ι}
    {B : List (Key L)} (hnd : (T.bases ++ B).Nodup) (hrel : IdRel c T.bases.length T.rel) :
    (T.internAll (pairsFrom c T.bases.length B)).bases = T.bases ++ B ∧
      IdRel c (T.bases ++ B).length (T.internAll (pairsFrom c T.bases.length B)).rel := by
  induction B generalizing T with
  | nil => simpa [pairsFrom, Table.internAll] using hrel
  | cons key B ih =>
      have hnew : key ∉ T.bases := fun h =>
        (List.nodup_append.mp hnd).2.2 key h key (by simp) rfl
      have hnum : T.number key = T.bases.length + 1 := by
        rw [Table.number, List.idxOf_eq_length hnew]
      have hb : (T.intern (c (T.bases.length + 1)) key).bases = T.bases ++ [key] := if_neg hnew
      have hlen : (T.intern (c (T.bases.length + 1)) key).bases.length = T.bases.length + 1 := by
        rw [hb]; simp
      -- the next id names the new base, as no id does yet
      have hrel' : IdRel c (T.bases.length + 1) (T.intern (c (T.bases.length + 1)) key).rel := by
        intro i m
        have hfree : T.rel (c (T.bases.length + 1)) = none := by
          by_contra hne
          obtain ⟨m', hm'⟩ := Option.ne_none_iff_exists'.mp hne
          obtain ⟨e, -, hle⟩ := (hrel _ m').mp hm'
          have := hc e
          omega
        simp only [Table.intern, hnum]
        by_cases e : i = c (T.bases.length + 1)
        · subst e
          rw [insertNew_self, hfree, Option.getD_none, Option.some.injEq]
          constructor
          · rintro rfl; exact ⟨rfl, by omega, le_rfl⟩
          · rintro ⟨e, -, -⟩; exact hc e
        · rw [insertNew_of_ne e, hrel]
          constructor
          · rintro ⟨rfl, h₁, h₂⟩; exact ⟨rfl, h₁, by omega⟩
          · rintro ⟨rfl, h₁, h₂⟩
            refine ⟨rfl, h₁, ?_⟩
            rcases Nat.lt_or_ge T.bases.length m with h | h
            · exact absurd (by rw [show m = T.bases.length + 1 by omega]) e
            · exact h
      have := ih (T := T.intern (c (T.bases.length + 1)) key) (by rw [hb]; simpa using hnd)
        (by rw [hlen]; exact hrel')
      rw [hlen, hb, List.append_assoc, List.singleton_append] at this
      exact this

/-- **The second run follows the first**, pass by pass. -/
theorem after_toNodes {c : ℕ → ι} (hc : Function.Injective c) (ns : List (Node L ι)) (K : ℕ) :
    ∀ k ≤ K, ∃ rest, (after ns K).1.bases = (after ns k).1.bases ++ rest ∧
      (after (toNodes c (after ns K).1.bases) k).1.bases = (after ns k).1.bases ∧
      IdRel c (after ns k).1.bases.length (after (toNodes c (after ns K).1.bases) k).1.rel ∧
      (after (toNodes c (after ns K).1.bases) k).2 =
        toNodesFrom c (after ns k).1.bases.length rest := by
  intro k
  induction k with
  | zero =>
      intro _
      refine ⟨(after ns K).1.bases, rfl, rfl, fun i m => ⟨fun h => (by cases h), ?_⟩, rfl⟩
      rintro ⟨-, h₁, h₂⟩
      have : (after ns 0).1.bases.length = 0 := rfl
      omega
  | succ k ih =>
      intro hk
      obtain ⟨rest, hrest, hbases, hrel, hwait⟩ := ih (by omega)
      -- the bases of the next pass are those of this one and the new ones
      obtain ⟨new, hnew⟩ : (after ns k).1.bases <+: (after ns (k + 1)).1.bases :=
        (grows_after ns (by omega)).bases
      obtain ⟨rest', hrest'⟩ : (after ns (k + 1)).1.bases <+: (after ns K).1.bases :=
        (grows_after ns hk).bases
      obtain rfl : rest = new ++ rest' := by
        rw [← hrest', ← hnew, List.append_assoc] at hrest
        exact (List.append_cancel_left hrest).symm
      -- the new ones refer to bases of this pass, the later ones also to others
      have hcites : ∀ key ∈ new, ∀ a ∈ key.2, 1 ≤ a ∧ a ≤ (after ns k).1.bases.length := by
        intro key hkey a ha
        have hmem : key ∈ (after ns (k + 1)).1.bases := hnew ▸ List.mem_append_right _ hkey
        exact ⟨(cites_le_length (after_wf ns (k + 1)) hmem ha).1,
          (fresh_after ns k).bases key hmem a ha⟩
      have hbeyond : ∀ key ∈ rest', ∃ a ∈ key.2, (after ns k).1.bases.length < a := by
        intro key hkey
        obtain ⟨j, hj⟩ := List.mem_iff_getElem?.mp hkey
        refine cites_beyond hk (j := (after ns (k + 1)).1.bases.length + j) (by omega) ?_
        rw [← hrest', List.getElem?_append_right (by omega)]
        simpa using hj
      obtain ⟨hready₁, hwait₁⟩ := hrel.ready (after ns k).1.bases.length hcites
      obtain ⟨hready₂, hwait₂⟩ := hrel.waiting hc
        ((after ns k).1.bases.length + new.length) hbeyond
      refine ⟨rest', hrest'.symm, ?_⟩
      set s := after (toNodes c (after ns K).1.bases) k
      have hr : ready s.1.rel s.2 = pairsFrom c s.1.bases.length new := by
        rw [hwait, toNodesFrom_append, ready, List.filterMap_append, ← ready, ← ready, hready₁,
          hready₂, List.append_nil, hbases]
      have hw : waiting s.1.rel s.2 = toNodesFrom c (after ns (k + 1)).1.bases.length rest' := by
        rw [hwait, toNodesFrom_append, waiting, List.filter_append, ← waiting, ← waiting, hwait₁,
          hwait₂, List.nil_append, ← hnew, List.length_append]
      have hnd : (s.1.bases ++ new).Nodup := by
        rw [hbases, hnew]; exact (after_wf ns (k + 1)).nodup
      obtain ⟨hb, hid⟩ := internAll_pairsFrom hc hnd (by rw [hbases]; exact hrel)
      rw [after_succ, step, hr, hw]
      rw [hbases, hnew] at hb hid
      rw [hbases]
      exact ⟨hb, hid, rfl⟩

/-- **Idempotence.**  The bases of any number of passes, read as nodes, are numbered `1, 2, …`
in order by as many passes, none merged and none left waiting. -/
theorem toNodes_idempotent {c : ℕ → ι} (hc : Function.Injective c) (ns : List (Node L ι))
    (K : ℕ) : (after (toNodes c (after ns K).1.bases) K).1.bases = (after ns K).1.bases ∧
      IdRel c (after ns K).1.bases.length (after (toNodes c (after ns K).1.bases) K).1.rel ∧
      (after (toNodes c (after ns K).1.bases) K).2 = [] := by
  obtain ⟨rest, hrest, hb, hrel, hw⟩ := after_toNodes hc ns K K le_rfl
  obtain rfl : rest = [] := by simpa using hrest
  exact ⟨hb, hrel, hw⟩

end HashCons
