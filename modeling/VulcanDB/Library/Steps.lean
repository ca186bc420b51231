import Mathlib.Logic.Relation
import Mathlib.Data.List.Basic
import Mathlib.Tactic

/-!
# Library — Machines and their steps

A machine takes one action at a time, and refuses it or fails.  Its runs collect the labels of
their steps.  A tally is a sum over the parts of a state, of which a step changes one.

* `foldlM_eq_error`, `foldlM_invariant`: where a list of steps fails, and what it keeps.
* `mapM_eq_ok`, `exists_mapM_ok`: what comes of each element of a list, where none fails.
* `Run.invariant`: what every step keeps holds at the end of every run.
* `Run.simulates`: a run, seen through a function, is a path of a relation.
* `RunWhere.invariant`: the same for the runs whose steps all meet a condition.
* `tally_set`, `tally_eraseIdx`, `tally_modify`: a tally after one part has changed.
-/

namespace Steps

/-! ### Steps that can be refused -/

section Except

variable {E α β : Type}

/-- Go on only if `p`. -/
def require (p : Prop) [Decidable p] (e : E) : Except E Unit := if p then .ok () else .error e

@[simp] theorem require_eq_ok {p : Prop} [Decidable p] {e : E} {u : Unit} :
    require p e = .ok u ↔ p := by
  unfold require
  split <;> simp_all

@[simp] theorem require_eq_error {p : Prop} [Decidable p] {e e' : E} :
    require p e = .error e' ↔ ¬ p ∧ e = e' := by
  unfold require
  split <;> simp_all

@[simp] theorem bind_eq_ok {x : Except E α} {f : α → Except E β} {b : β} :
    x >>= f = .ok b ↔ ∃ a, x = .ok a ∧ f a = .ok b := by
  cases x <;> simp [bind, Except.bind]

@[simp] theorem bind_eq_error {x : Except E α} {f : α → Except E β} {e : E} :
    x >>= f = .error e ↔ x = .error e ∨ ∃ a, x = .ok a ∧ f a = .error e := by
  cases x <;> simp [bind, Except.bind]

@[simp] theorem map_eq_error {x : Except E α} {f : α → β} {e : E} :
    f <$> x = .error e ↔ x = .error e := by
  cases x <;> simp [Functor.map, Except.map]

@[simp] theorem pure_eq_ok {a b : α} : (pure a : Except E α) = .ok b ↔ a = b := by
  simp [pure, Except.pure]

@[simp] theorem pure_ne_error {a : α} {e : E} : (pure a : Except E α) ≠ .error e := nofun

theorem ok_of_toOption {x : Except E α} {a : α} (h : x.toOption = some a) : x = .ok a := by
  cases x with
  | error e => cases h
  | ok b => rw [Option.some.inj h]

theorem exists_ok {x : Except E α} (h : x.toOption.isSome = true) : ∃ a, x = .ok a :=
  (Option.isSome_iff_exists.mp h).imp fun _ => ok_of_toOption

end Except

/-! ### A list of steps -/

section Fold

variable {E S A : Type} {f : S → A → Except E S} {as : List A} {s t : S}

/-- Where a list of steps fails. -/
theorem foldlM_eq_error {e : E} : as.foldlM f s = .error e ↔
    ∃ done a rest t, as = done ++ a :: rest ∧ done.foldlM f s = .ok t ∧ f t a = .error e := by
  induction as generalizing s with
  | nil => simp [pure, Except.pure]
  | cons b as ih =>
      rw [List.foldlM_cons]
      constructor
      · intro h
        cases hb : f s b with
        | error e' =>
            rw [hb] at h
            obtain rfl := Except.error.inj h
            exact ⟨[], b, as, s, rfl, rfl, hb⟩
        | ok u =>
            rw [hb] at h
            obtain ⟨done, a, rest, t, rfl, ht, ha⟩ := ih.mp h
            refine ⟨b :: done, a, rest, t, rfl, ?_, ha⟩
            rw [List.foldlM_cons, hb]
            exact ht
      · rintro ⟨done, a, rest, t, heq, ht, ha⟩
        cases done with
        | nil =>
            obtain ⟨rfl, rfl⟩ := List.cons.inj heq
            obtain rfl := Except.ok.inj ht
            rw [ha]
            rfl
        | cons c done =>
            obtain ⟨rfl, rfl⟩ := List.cons.inj heq
            rw [List.foldlM_cons, bind_eq_ok] at ht
            obtain ⟨u, hu, ht⟩ := ht
            rw [hu]
            exact ih.mpr ⟨done, a, rest, t, rfl, ht, ha⟩

/-- What every step keeps holds after all of them. -/
theorem foldlM_invariant {P : List A → S → Prop} (h : as.foldlM f s = .ok t) (h₀ : P [] s)
    (hstep : ∀ done a rest s t, as = done ++ a :: rest → P done s → f s a = .ok t →
      P (done ++ [a]) t) : P as t := by
  induction as using List.reverseRecOn generalizing t with
  | nil =>
      obtain rfl := Except.ok.inj h
      exact h₀
  | append_singleton as a ih =>
      rw [List.foldlM_append, bind_eq_ok] at h
      obtain ⟨u, hu, h⟩ := h
      have ha : f u a = .ok t := by
        rw [List.foldlM_cons, bind_eq_ok] at h
        obtain ⟨t', ht, h⟩ := h
        rwa [← Except.ok.inj h]
      refine hstep as a [] u t rfl (ih hu fun done b rest s t heq => ?_) ha
      exact hstep done b (rest ++ [a]) s t (by rw [heq, List.append_assoc]; rfl)

theorem mapM_eq_ok {B : Type} {g : A → Except E B} {bs : List B} :
    as.mapM g = .ok bs ↔ List.Forall₂ (fun a b => g a = .ok b) as bs := by
  induction as generalizing bs with
  | nil => simp [pure, Except.pure, eq_comm]
  | cons a as ih =>
      simp only [List.mapM_cons, bind_eq_ok, pure_eq_ok, List.forall₂_cons_left_iff, ih]
      constructor
      · rintro ⟨b, hb, bs, hbs, rfl⟩
        exact ⟨b, bs, hb, hbs, rfl⟩
      · rintro ⟨b, bs, hb, hbs, rfl⟩
        exact ⟨b, hb, bs, hbs, rfl⟩

/-- The results are those of the elements. -/
theorem mem_mapM_ok {B : Type} {g : A → Except E B} {bs : List B} (h : as.mapM g = .ok bs) (b : B) :
    b ∈ bs ↔ ∃ a ∈ as, g a = .ok b := by
  induction mapM_eq_ok.mp h with
  | nil => simp
  | cons hab hrest ih =>
      rw [List.mem_cons, ih (mapM_eq_ok.mpr hrest), List.exists_mem_cons_iff, hab, Except.ok.injEq,
        eq_comm]

theorem exists_mapM_ok {B : Type} {g : A → Except E B} :
    (∃ bs, as.mapM g = .ok bs) ↔ ∀ a ∈ as, ∃ b, g a = .ok b := by
  induction as with
  | nil => simp
  | cons a as ih =>
      simp only [List.mapM_cons, bind_eq_ok, pure_eq_ok, List.forall_mem_cons, ← ih]
      constructor
      · rintro ⟨bs, b, hb, bs', hbs, rfl⟩
        exact ⟨⟨b, hb⟩, bs', hbs⟩
      · rintro ⟨⟨b, hb⟩, bs, hbs⟩
        exact ⟨b :: bs, b, hb, bs, hbs, rfl⟩

end Fold

/-! ### Runs -/

/-- A step from a state, and the labels of the step. -/
structure Machine (S A E L : Type*) where
  step : S → A → Except E S
  label : S → A → List L

section Run

variable {S A E L T : Type*} {m : Machine S A E L} {s₀ s : S} {ls : List L}

/-- The labels and the last state of the runs from `s₀`. -/
inductive Run (m : Machine S A E L) (s₀ : S) : List L → S → Prop
  | start : Run m s₀ [] s₀
  | next {ls s a t} : Run m s₀ ls s → m.step s a = .ok t → Run m s₀ (ls ++ m.label s a) t

/-- The run of a list of actions. -/
def exec (m : Machine S A E L) (s : S) : List A → Except E (List L × S)
  | [] => .ok ([], s)
  | a :: as =>
    match m.step s a with
    | .error e => .error e
    | .ok t => (exec m t as).map fun r => (m.label s a ++ r.1, r.2)

/-- An executed list of actions is a run. -/
theorem Run.exec (as : List A) : ∀ {ls : List L} {s t : S} {ls' : List L}, Run m s₀ ls s →
    exec m s as = .ok (ls', t) → Run m s₀ (ls ++ ls') t := by
  induction as with
  | nil =>
      intro ls s t ls' h he
      cases he
      rwa [List.append_nil]
  | cons a as ih =>
      intro ls s t ls' h he
      rw [Steps.exec] at he
      cases hs : m.step s a with
      | error e => rw [hs] at he; cases he
      | ok u =>
          rw [hs] at he
          cases hr : Steps.exec m u as with
          | error e => simp only [hr] at he; cases he
          | ok r =>
              simp only [hr] at he
              cases he
              rw [← List.append_assoc]
              exact ih (h.next hs) hr

/-- What every step keeps. -/
theorem Run.invariant {P : List L → S → Prop} (h : Run m s₀ ls s) (h₀ : P [] s₀)
    (hstep : ∀ ls s a t, P ls s → m.step s a = .ok t → P (ls ++ m.label s a) t) : P ls s := by
  induction h with
  | start => exact h₀
  | next _ hs ih => exact hstep _ _ _ _ ih hs

/-- A run seen through `f`, where every step is a step of `R` or none. -/
theorem Run.simulates {f : S → T} {R : T → T → Prop} (h : Run m s₀ ls s)
    (hstep : ∀ s a t, m.step s a = .ok t → Relation.ReflGen R (f s) (f t)) :
    Relation.ReflTransGen R (f s₀) (f s) := by
  refine h.invariant (P := fun _ s => Relation.ReflTransGen R (f s₀) (f s)) .refl ?_
  intro ls s a t ih hs
  have hone := hstep s a t hs
  generalize f t = v at hone ⊢
  cases hone with
  | refl => exact ih
  | single hr => exact ih.tail hr

/-- The labels and the last state of the runs from `s₀` whose steps all satisfy `C`. -/
inductive RunWhere (m : Machine S A E L) (C : S → A → Prop) (s₀ : S) : List L → S → Prop
  | start : RunWhere m C s₀ [] s₀
  | next {ls s a t} : RunWhere m C s₀ ls s → C s a → m.step s a = .ok t →
      RunWhere m C s₀ (ls ++ m.label s a) t

variable {C : S → A → Prop}

/-- A run whose steps meet a condition is a run. -/
theorem RunWhere.run (h : RunWhere m C s₀ ls s) : Run m s₀ ls s := by
  induction h with
  | start => exact .start
  | next _ _ hs ih => exact ih.next hs

/-- What every step that satisfies `C` keeps. -/
theorem RunWhere.invariant {P : List L → S → Prop} (h : RunWhere m C s₀ ls s) (h₀ : P [] s₀)
    (hstep : ∀ ls s a t, P ls s → C s a → m.step s a = .ok t → P (ls ++ m.label s a) t) :
    P ls s := by
  induction h with
  | start => exact h₀
  | next _ hc hs ih => exact hstep _ _ _ _ ih hc hs

/-- Whether the steps of a list of actions satisfy `C`, up to the first that fails. -/
def obeys (m : Machine S A E L) (C : S → A → Prop) [∀ s a, Decidable (C s a)] (s : S) :
    List A → Bool
  | [] => true
  | a :: as =>
    decide (C s a) && match m.step s a with
      | .error _ => true
      | .ok t => obeys m C t as

theorem RunWhere.exec [∀ s a, Decidable (C s a)] (as : List A) : ∀ {ls : List L} {s t : S}
    {ls' : List L}, RunWhere m C s₀ ls s → obeys m C s as = true → exec m s as = .ok (ls', t) →
    RunWhere m C s₀ (ls ++ ls') t := by
  induction as with
  | nil =>
      intro ls s t ls' h _ he
      cases he
      rwa [List.append_nil]
  | cons a as ih =>
      intro ls s t ls' h ho he
      rw [obeys, Bool.and_eq_true, decide_eq_true_iff] at ho
      rw [Steps.exec] at he
      cases hs : m.step s a with
      | error e => rw [hs] at he; cases he
      | ok u =>
          rw [hs] at ho he
          cases hr : Steps.exec m u as with
          | error e => simp only [hr] at he; cases he
          | ok r =>
              simp only [hr] at he
              cases he
              rw [← List.append_assoc]
              exact ih (h.next ho.1 hs) ho.2 hr

end Run

/-! ### Tallies -/

section Tally

variable {α : Type*} (f : α → ℕ)

/-- The sum over the list. -/
def tally (l : List α) : ℕ := (l.map f).sum

@[simp] theorem tally_nil : tally f [] = 0 := rfl

@[simp] theorem tally_cons (x : α) (l : List α) : tally f (x :: l) = f x + tally f l := by
  simp [tally]

@[simp] theorem tally_append (l l' : List α) : tally f (l ++ l') = tally f l + tally f l' := by
  simp [tally]

/-- One part changed. -/
theorem tally_set {l : List α} {i : ℕ} {x : α} (h : l[i]? = some x) (y : α) :
    tally f (l.set i y) + f x = tally f l + f y := by
  induction l generalizing i with
  | nil => cases h
  | cons z l ih =>
      cases i with
      | zero =>
          obtain rfl : z = x := Option.some.inj h
          simp only [List.set_cons_zero, tally_cons]
          omega
      | succ i =>
          have := ih (i := i) h
          simp only [List.set_cons_succ, tally_cons]
          omega

/-- A tally with one part apart. -/
theorem tally_eraseIdx {l : List α} {i : ℕ} {x : α} (h : l[i]? = some x) :
    tally f l = tally f (l.eraseIdx i) + f x := by
  induction l generalizing i with
  | nil => cases h
  | cons z l ih =>
      cases i with
      | zero =>
          obtain rfl : z = x := Option.some.inj h
          rw [List.eraseIdx_cons_zero, tally_cons, add_comm]
      | succ i =>
          rw [List.eraseIdx_cons_succ, tally_cons, tally_cons, ih h, add_assoc]

/-- The same after that part has changed. -/
theorem tally_modify {l : List α} {i : ℕ} {x : α} (h : l[i]? = some x) (g : α → α) :
    tally f (l.modify i g) = tally f (l.eraseIdx i) + f (g x) := by
  induction l generalizing i with
  | nil => cases h
  | cons z l ih =>
      cases i with
      | zero =>
          obtain rfl : z = x := Option.some.inj h
          rw [List.modify_zero_cons, List.eraseIdx_cons_zero, tally_cons, add_comm]
      | succ i =>
          rw [List.modify_succ_cons, List.eraseIdx_cons_succ, tally_cons, tally_cons, ih h, add_assoc]

variable {f}

/-- An element is no more than the sum. -/
theorem le_tally {l : List α} {x : α} (h : x ∈ l) : f x ≤ tally f l :=
  List.single_le_sum (by simp) _ (List.mem_map_of_mem h)

/-- A positive sum has a positive element. -/
theorem exists_of_tally_pos {l : List α} (h : 0 < tally f l) :
    ∃ (i : ℕ) (x : α), l[i]? = some x ∧ 0 < f x := by
  induction l with
  | nil => cases h
  | cons z l ih =>
      by_cases hz : 0 < f z
      · exact ⟨0, z, rfl, hz⟩
      · rw [tally_cons] at h
        obtain ⟨i, x, hi, hx⟩ := ih (by omega)
        exact ⟨i + 1, x, hi, hx⟩

theorem tally_eq_zero {l : List α} : tally f l = 0 ↔ ∀ x ∈ l, f x = 0 := by
  rw [tally, List.sum_eq_zero_iff]
  simp

end Tally

end Steps
