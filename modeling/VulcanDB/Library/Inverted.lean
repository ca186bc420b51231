import VulcanDB.Library.StdMap

/-!
# Library — Inverted indices

Each source has keys, as often as it likes; the index gives for a key the sources that have it.
A source is entered under a key by a `push_back` on the key's vector, and taken out by an `erase`
of the first place where `find` finds it.

`Inverts` says that the index holds each source under a key exactly as often as the source has it,
which every operation keeps for the keys that it is meant for.  While keys are on their way out of
the index it may hold too much under them (`Covers`).
-/

namespace Cxx.Inverted

variable {K I : Type*} [DecidableEq K] [DecidableEq I]

/-- `m[k]`, of a key that may be missing. -/
def get (m : StdMap K (List I)) (k : K) : List I := (m.find k).getD []

/-- `x` is filed under the key, behind the others. -/
def push (x : I) (m : StdMap K (List I)) (k : K) : StdMap K (List I) :=
  m.assign k (get m k ++ [x])

/-- What is not there is not erased, but the key is entered. -/
def erase (x : I) (m : StdMap K (List I)) (k : K) : StdMap K (List I) :=
  m.assign k ((get m k).erase x)

/-- It is filed under each of the keys. -/
def pushAll (x : I) (ks : List K) (m : StdMap K (List I)) : StdMap K (List I) :=
  ks.foldl (push x) m

/-- It is taken out under each of the keys. -/
def eraseAll (x : I) (ks : List K) (m : StdMap K (List I)) : StdMap K (List I) :=
  ks.foldl (erase x) m

/-- Without the keys in `p`. -/
def eraseKeys (p : K → Bool) (m : StdMap K (List I)) : StdMap K (List I) :=
  m.filterMap fun k ids => if p k then none else some ids

/-- `std::remove(x)` under the keys in `p`. -/
def removeAt (p : K → Bool) (x : I) (m : StdMap K (List I)) : StdMap K (List I) :=
  m.filterMap fun k ids => some (if p k then ids.filter (· ≠ x) else ids)

/-- Without the keys in `p`, the sources in `q`, and the keys that are left without a source. -/
def prune (p : K → Bool) (q : I → Bool) (m : StdMap K (List I)) : StdMap K (List I) :=
  m.filterMap fun k ids =>
    let ids := ids.filter fun x => !q x
    if p k || ids.isEmpty then none else some ids

/-! ### Vectors -/

variable {m : StdMap K (List I)}

omit [DecidableEq I] in
theorem get_assign (k j : K) (ids : List I) :
    get (m.assign k ids) j = if j = k then ids else get m j := by
  rw [get, StdMap.find_assign]
  split <;> rfl

theorem count_push (x y : I) (k j : K) :
    (get (push x m k) j).count y =
      (get m j).count y + if j = k ∧ x = y then 1 else 0 := by
  rw [push, get_assign]
  by_cases hj : j = k
  · subst hj
    by_cases hx : x = y <;> simp [hx]
  · simp [hj]

theorem count_erase (x y : I) (k j : K) :
    (get (erase x m k) j).count y =
      (get m j).count y - if j = k ∧ x = y then 1 else 0 := by
  rw [erase, get_assign]
  by_cases hj : j = k
  · subst hj
    by_cases hx : x = y
    · subst hx
      simp
    · simp [hx, List.count_erase_of_ne (Ne.symm hx)]
  · simp [hj]

theorem count_pushAll (x y : I) (ks : List K) (j : K) :
    (get (pushAll x ks m) j).count y =
      (get m j).count y + if x = y then ks.count j else 0 := by
  induction ks generalizing m with
  | nil => simp [pushAll]
  | cons k ks ih =>
    rw [pushAll, List.foldl_cons]
    refine (ih (m := push x m k)).trans ?_
    rw [count_push, List.count_cons]
    simp only [beq_iff_eq, eq_comm (a := j)]
    by_cases hx : x = y <;> by_cases hj : k = j <;> simp [hx, hj]
    omega

theorem count_eraseAll (x y : I) (ks : List K) (j : K) :
    (get (eraseAll x ks m) j).count y =
      (get m j).count y - if x = y then ks.count j else 0 := by
  induction ks generalizing m with
  | nil => simp [eraseAll]
  | cons k ks ih =>
    rw [eraseAll, List.foldl_cons]
    refine (ih (m := erase x m k)).trans ?_
    rw [count_erase, List.count_cons]
    simp only [beq_iff_eq, eq_comm (a := j)]
    by_cases hx : x = y <;> by_cases hj : k = j <;> simp [hx, hj]
    omega

/-- What is filed was there before, or is `x`. -/
theorem mem_pushAll {x y : I} {ks : List K} {j : K} (h : y ∈ get (pushAll x ks m) j) :
    y ∈ get m j ∨ y = x := by
  rw [← List.count_pos_iff, count_pushAll] at h
  by_cases hy : x = y
  · exact Or.inr hy.symm
  · rw [if_neg hy, Nat.add_zero, List.count_pos_iff] at h
    exact Or.inl h

theorem mem_eraseAll {x y : I} {ks : List K} {j : K} (h : y ∈ get (eraseAll x ks m) j) :
    y ∈ get m j := by
  rw [← List.count_pos_iff, count_eraseAll] at h
  exact List.count_pos_iff.1 (h.trans_le (Nat.sub_le ..))

omit [DecidableEq I] in
/-- The lists are kept, changed or dropped. -/
theorem get_filterMap (f : K → List I → Option (List I)) (k : K) :
    get (m.filterMap f) k = ((m.find k).bind (f k)).getD [] := by
  rw [get, StdMap.find_filterMap]

omit [DecidableEq I] in
theorem get_eraseKeys (p : K → Bool) (k : K) :
    get (eraseKeys p m) k = if p k then [] else get m k := by
  rw [eraseKeys, get_filterMap, get]
  cases m.find k <;> cases p k <;> rfl

theorem get_removeAt (p : K → Bool) (x : I) (k : K) :
    get (removeAt p x m) k = if p k then (get m k).filter (· ≠ x) else get m k := by
  rw [removeAt, get_filterMap, get]
  cases m.find k <;> cases p k <;> rfl

omit [DecidableEq I] in
/-- Some keys and some elements are dropped. -/
theorem get_prune (p : K → Bool) (q : I → Bool) (k : K) :
    get (prune p q m) k = if p k then [] else (get m k).filter fun x => !q x := by
  rw [prune, get_filterMap, get]
  cases m.find k with
  | none => cases p k <;> rfl
  | some ids =>
    cases p k with
    | true => rfl
    | false =>
      simp only [Option.bind_some, Option.getD_some, Bool.false_or, Bool.false_eq_true, if_false]
      cases (ids.filter fun x => !q x) <;> rfl

/-! ### The index of the keys of all sources -/

/-- The index holds a source under a key at least as often as the source has the key, and where
`off` is false not more often. -/
structure Covers (off : K → I → Prop) (m : StdMap K (List I)) (keys : I → List K) : Prop where
  le : ∀ k x, (keys x).count k ≤ (get m k).count x
  eq : ∀ k x, ¬ off k x → (get m k).count x = (keys x).count k

/-- The index holds a source under a key as often as the source has the key. -/
def Inverts (m : StdMap K (List I)) (keys : I → List K) : Prop :=
  ∀ k x, (get m k).count x = (keys x).count k

variable {off : K → I → Prop} {keys keys' : I → List K}

theorem Inverts.covers (h : Inverts m keys) : Covers off m keys :=
  ⟨fun k x => (h k x).ge, fun k x _ => h k x⟩

theorem inverts_empty : Inverts (∅ : StdMap K (List I)) fun _ => [] := by
  intro k x
  simp [get]

theorem Inverts.congr (h : Inverts m keys) (hk : ∀ x, keys' x = keys x) : Inverts m keys' :=
  fun k x => (h k x).trans (by rw [hk])

/-- What is filed under a key has that key. -/
theorem Inverts.mem (h : Inverts m keys) {k : K} {x : I} : x ∈ get m k ↔ k ∈ keys x := by
  rw [← List.count_pos_iff, h, List.count_pos_iff]

theorem Covers.mem (h : Covers off m keys) {k : K} {x : I} (hk : k ∈ keys x) : x ∈ get m k :=
  List.count_pos_iff.1 ((List.count_pos_iff.2 hk).trans_le (h.le k x))

/-- A source has lost keys where `off` is true. -/
theorem Covers.lose (h : Covers off m keys) (hle : ∀ k x, (keys' x).count k ≤ (keys x).count k)
    (heq : ∀ k x, ¬ off k x → (keys' x).count k = (keys x).count k) : Covers off m keys' :=
  ⟨fun k x => (hle k x).trans (h.le k x), fun k x hoff => (h.eq k x hoff).trans (heq k x hoff).symm⟩

/-- A source gets keys in the place of others. -/
theorem Covers.replace (h : Covers off m keys) {x : I} {old new : List K}
    (hold : ∀ k, old.count k ≤ (keys x).count k)
    (hx : ∀ k, (keys' x).count k + old.count k = (keys x).count k + new.count k)
    (hne : ∀ y, y ≠ x → keys' y = keys y) :
    Covers off (pushAll x new (eraseAll x old m)) keys' := by
  constructor
  · intro k y
    rw [count_pushAll, count_eraseAll]
    by_cases hy : x = y
    · subst hy
      have hle := h.le k x
      have hkeys := hx k
      simp only [if_true]
      omega
    · rw [if_neg hy, if_neg hy, hne y (Ne.symm hy)]
      exact h.le k y
  · intro k y hoff
    rw [count_pushAll, count_eraseAll, h.eq k y hoff]
    by_cases hy : x = y
    · subst hy
      have hle := hold k
      have hkeys := hx k
      simp only [if_true]
      omega
    · rw [if_neg hy, if_neg hy, hne y (Ne.symm hy)]
      rfl

theorem Inverts.of_covers (h : Covers (fun _ _ => False) m keys) : Inverts m keys :=
  fun k x => h.eq k x not_false

/-- **One element has other keys**. -/
theorem Inverts.replace (h : Inverts m keys) {x : I} {old new : List K}
    (hold : ∀ k, old.count k ≤ (keys x).count k)
    (hx : ∀ k, (keys' x).count k + old.count k = (keys x).count k + new.count k)
    (hne : ∀ y, y ≠ x → keys' y = keys y) : Inverts (pushAll x new (eraseAll x old m)) keys' :=
  .of_covers (h.covers.replace hold hx hne)

/-- A source gets its keys. -/
theorem Inverts.pushAll (h : Inverts m keys) {x : I} {ks : List K} (hnone : keys x = [])
    (hx : keys' x = ks) (hne : ∀ y, y ≠ x → keys' y = keys y) : Inverts (pushAll x ks m) keys' := by
  have hold : ∀ k, ([] : List K).count k ≤ (keys x).count k := fun _ => Nat.zero_le _
  exact h.replace hold (fun k => by simp [hnone, hx]) hne

/-- Without the keys where `off` may be true, the index is exact. -/
theorem Covers.eraseKeys (h : Covers off m keys) {p : K → Bool} (hp : ∀ k x, off k x → p k = true) :
    Inverts (eraseKeys p m) fun x => (keys x).filter fun k => !p k := by
  intro k x
  rw [get_eraseKeys]
  by_cases hk : p k = true
  · rw [if_pos hk, List.count_nil, eq_comm]
    exact List.count_eq_zero.2 (by simp [hk])
  · rw [if_neg hk, h.eq k x (mt (hp k x) hk), List.count_filter (by simpa using hk)]

/-- A source that has no key outside `p` is gone. -/
theorem Inverts.removeAt (h : Inverts m keys) {p : K → Bool} {x : I}
    (hne : ∀ y, y ≠ x → keys' y = keys y)
    (hx : keys' x = (keys x).filter fun k => !p k) : Inverts (removeAt p x m) keys' := by
  intro k y
  rw [get_removeAt]
  by_cases hy : y = x
  · subst hy
    rw [hx]
    by_cases hk : p k = true
    · rw [if_pos hk, List.count_eq_zero.2 (by simp), eq_comm]
      exact List.count_eq_zero.2 (by simp [hk])
    · rw [if_neg hk, h, List.count_filter (by simpa using hk)]
  · rw [hne y hy, ← h]
    split
    · exact List.count_filter (by simpa using hy)
    · rfl

/-- A source without any key outside the sets is gone. -/
theorem Inverts.removeAll {N : Type*} [DecidableEq N] (h : Inverts m keys) (ref : K → N)
    (ns : List N) (x : I) (hne : ∀ y, y ≠ x → keys' y = keys y)
    (hx : keys' x = (keys x).filter fun k => ref k ∉ ns) :
    Inverts (ns.foldl (fun m n => Inverted.removeAt (fun k => ref k = n) x m) m) keys' := by
  induction ns generalizing m keys with
  | nil =>
    refine h.congr fun y => ?_
    by_cases hy : y = x
    · rw [hy, hx]
      simp
    · exact hne y hy
  | cons n ns ih =>
    have hone : Inverts (Inverted.removeAt (fun k => ref k = n) x m)
        (Function.update keys x ((keys x).filter fun k => !decide (ref k = n))) :=
      h.removeAt (fun y hy => Function.update_of_ne hy ..) (Function.update_self ..)
    refine ih hone (fun y hy => ?_) ?_
    · rw [Function.update_of_ne hy, hne y hy]
    · rw [Function.update_self, hx, List.filter_filter]
      refine List.filter_congr fun k _ => ?_
      simp [not_or, Bool.and_comm]

/-- **Where all that is off is dropped** the map is exact. -/
theorem Covers.prune (h : Covers off m keys) {p : K → Bool} (hp : ∀ k x, off k x → p k = true)
    (q : I → Bool) :
    Inverts (prune p q m) fun x => if q x then [] else (keys x).filter fun k => !p k := by
  intro k x
  rw [get_prune]
  by_cases hq : q x = true
  · simp only [if_pos hq, List.count_nil]
    split
    · exact List.count_nil ..
    · exact List.count_eq_zero.2 (by simp [hq])
  · simp only [if_neg hq]
    by_cases hk : p k = true
    · rw [if_pos hk, List.count_nil, eq_comm]
      exact List.count_eq_zero.2 (by simp [hk])
    · rw [if_neg hk, List.count_filter (by simpa using hq), List.count_filter (by simpa using hk),
        h.eq k x (mt (hp k x) hk)]

end Cxx.Inverted
