import Mathlib.Data.List.Lex
import VulcanDB.Library.Occurrence

/-!
# Library — Rewriting the first occurrence of a word

`Ends u v k s r`: to replace the first occurrence of `u` by `v`, as long as there is one, takes
`k` steps from `s` and ends with `r`.  The gaps of a text with `u` between them are rewritten to
the gaps with `v` between them if each step gives what a scan from left to right gives
(`Steady`).

* `First.overlap`: the first occurrence against one that is known.
* `Ends.split`: a beginning of the text is rewritten first.
* `Steady.ends`: steady rewriting ends with what the scan gives.
* `Ends.steady`: it is steady if it ends so, for words of one length, for a word that does not end
  with its replacement, and where earlier occurrences all change the text in one direction.
-/

namespace Occurrence

variable {α : Type} {u v s t r a b a' b' x z : List α} {k : ℕ}

/-! ### First occurrences -/

theorem First.unique (h : First u a b) (h' : First u a' b')
    (heq : a ++ u ++ b = a' ++ u ++ b') : a = a' ∧ b = b' := by
  have hlen : a.length = a'.length := le_antisymm (h _ _ heq) (h' _ _ heq.symm)
  obtain ⟨ha, hb⟩ := List.append_inj (by simpa only [List.append_assoc] using heq) hlen
  exact ⟨ha, List.append_cancel_left hb⟩

/-- A beginning of a text without an occurrence. -/
theorem not_infix_left {c d e w : List α} (h : ¬ w <:+: c ++ d ++ e) : ¬ w <:+: c := fun hin => by
  rw [List.append_assoc] at h
  exact h (hin.trans (List.prefix_append _ _).isInfix)

/-- The first occurrence of a text is the first of what begins with that text. -/
theorem First.append (h : First u a b) (t : List α) : First u a (b ++ t) := by
  intro a' b' heq
  by_contra hlt
  -- an occurrence before it ends before it
  have hpre : a' ++ u <+: a ++ u := by
    refine List.prefix_of_prefix_length_le ⟨b', heq.symm⟩ (List.prefix_append _ _) ?_
    rw [List.length_append, List.length_append]
    omega
  obtain ⟨y, hy⟩ := hpre
  exact hlt (h a' (y ++ b) (by rw [← hy, List.append_assoc (a' ++ u)]))

/-- Two occurrences of `u` overlap in `s`, with `x` before it and `z` behind it; where `x` is
empty they are the same. -/
structure Overlap (u x s z : List α) : Prop where
  part : s ≠ []
  left : u = x ++ s
  right : u = s ++ z

theorem Overlap.length_eq (h : Overlap u x s z) : x.length = z.length := by
  have hlen := congrArg List.length (h.left.symm.trans h.right)
  rw [List.length_append, List.length_append] at hlen
  omega

theorem Overlap.same (h : Overlap u x s z) : x = [] ↔ z = [] := by
  rw [← List.length_eq_zero_iff, ← List.length_eq_zero_iff, h.length_eq]

theorem Overlap.swap (h : Overlap u x s z) : x ++ u = u ++ z := by
  rw [h.left, List.append_assoc, ← h.left, ← h.right]

/-- The text with both occurrences. -/
theorem Overlap.append (h : Overlap u x s z) (a t : List α) :
    a ++ x ++ u ++ t = a ++ u ++ (z ++ t) := by
  rw [List.append_assoc a, h.swap]
  simp only [List.append_assoc]

/-- The first occurrence overlaps one that has none before it, or is that. -/
theorem First.overlap {c t : List α} (h : First u a b) (heq : a ++ u ++ b = c ++ u ++ t)
    (hc : ¬ u <:+: c) : ∃ x s z, Overlap u x s z ∧ c = a ++ x ∧ b = z ++ t := by
  have hle := h c t heq
  rw [List.append_assoc, List.append_assoc] at heq
  obtain ⟨x, rfl⟩ : a <+: c :=
    List.prefix_of_prefix_length_le ⟨u ++ b, heq⟩ (List.prefix_append c (u ++ t)) hle
  rw [List.append_assoc] at heq
  have hword := List.append_cancel_left heq
  rcases List.append_eq_append_iff.mp hword with ⟨y, rfl, -⟩ | ⟨s, hs, hrest⟩
  · exact absurd ⟨a, y, List.append_assoc a u y⟩ hc
  have hpart : s ≠ [] := by
    rintro rfl
    rw [List.append_nil] at hs
    exact hc ⟨a, [], by rw [hs, List.append_nil]⟩
  have hlen := congrArg List.length hs
  rw [List.length_append] at hlen
  obtain ⟨z, hz⟩ : s <+: u :=
    List.prefix_of_prefix_length_le ⟨b, hrest.symm⟩ (List.prefix_append u t) (by omega)
  refine ⟨x, s, z, ⟨hpart, hs, hz.symm⟩, rfl, ?_⟩
  rw [← hz, List.append_assoc] at hrest
  exact (List.append_cancel_left hrest).symm

/-! ### Rewriting -/

/-- To replace the first occurrence of `u` by `v`, as long as there is one, takes `k` steps from
`s` and ends with `r`. -/
inductive Ends (u v : List α) : ℕ → List α → List α → Prop
  | absent {s : List α} : ¬ u <:+: s → Ends u v 0 s s
  | first {k : ℕ} {a b r : List α} :
      First u a b → Ends u v k (a ++ v ++ b) r → Ends u v (k + 1) (a ++ u ++ b) r

/-- At the end nothing is left to replace. -/
theorem Ends.not_infix (h : Ends u v k s r) : ¬ u <:+: r := by
  induction h with
  | absent h => exact h
  | first _ _ ih => exact ih

theorem Ends.eq_of_zero (h : Ends u v 0 s r) : r = s := by
  cases h
  rfl

/-- The next step, at the first occurrence. -/
theorem Ends.step (h : Ends u v k s r) (hfirst : First u a b) (heq : s = a ++ u ++ b) :
    ∃ j, k = j + 1 ∧ Ends u v j (a ++ v ++ b) r := by
  cases h with
  | absent h => exact absurd ⟨a, b, heq.symm⟩ h
  | @first j a' b' _ h' hrest =>
      obtain ⟨rfl, rfl⟩ := h'.unique hfirst heq
      exact ⟨j, rfl, hrest⟩

/-- Where something is left, a replacement was made. -/
theorem Ends.step_of_infix (h : Ends u v k s r) (hin : u <:+: s) :
    ∃ j a b, k = j + 1 ∧ s = a ++ u ++ b ∧ First u a b ∧ Ends u v j (a ++ v ++ b) r := by
  obtain ⟨a, b, heq, hfirst⟩ := exists_first hin
  obtain ⟨j, hk, hrest⟩ := h.step hfirst heq
  exact ⟨j, a, b, hk, heq, hfirst, hrest⟩

/-- The lengths count the replacements. -/
theorem Ends.length_eq (h : Ends u v k s r) :
    r.length + k * u.length = s.length + k * v.length := by
  induction h with
  | absent _ => simp only [Nat.zero_mul]
  | first _ _ ih =>
      simp only [List.length_append, Nat.succ_mul] at ih ⊢
      omega

/-- A beginning of the text is rewritten first. -/
theorem Ends.split (h : Ends u v k (s ++ t) r) :
    ∃ i j s', Ends u v i s s' ∧ Ends u v j (s' ++ t) r ∧ k = i + j := by
  induction k generalizing s with
  | zero =>
      by_cases hin : u <:+: s
      · obtain ⟨j, -, -, hj, -⟩ := h.step_of_infix (hin.trans (List.prefix_append s t).isInfix)
        cases hj
      · exact ⟨0, 0, s, .absent hin, h, rfl⟩
  | succ k ih =>
      by_cases hin : u <:+: s
      · obtain ⟨a, b, rfl, hfirst⟩ := exists_first hin
        obtain ⟨j, hj, hrest⟩ := h.step (hfirst.append t) (List.append_assoc _ _ _)
        obtain rfl := Nat.succ_injective hj
        rw [← List.append_assoc] at hrest
        obtain ⟨i, j, s', hs, ht, hsum⟩ := ih hrest
        exact ⟨i + 1, j, s', .first hfirst hs, ht, by omega⟩
      · exact ⟨0, k + 1, s, .absent hin, h, (Nat.zero_add _).symm⟩

/-! ### The gaps of a text -/

theorem intercalate_step (done w g g' : List α) (gs : List (List α)) :
    done ++ w.intercalate (g :: g' :: gs) = done ++ g ++ w ++ w.intercalate (g' :: gs) := by
  rw [List.intercalate_cons_cons]
  simp only [List.append_assoc]

theorem intercalate_snoc (w g : List α) {gs : List (List α)} (h : gs ≠ []) :
    w.intercalate (gs ++ [g]) = w.intercalate gs ++ w ++ g := by
  induction gs with
  | nil => exact absurd rfl h
  | cons g' gs ih =>
      cases gs with
      | nil => rw [List.singleton_append, List.intercalate_cons_cons, List.intercalate_singleton,
          List.intercalate_singleton]
      | cons g'' gs =>
          rw [List.cons_append, List.cons_append, List.intercalate_cons_cons,
            List.intercalate_cons_cons, ← List.cons_append, ih (List.cons_ne_nil _ _)]
          simp only [List.append_assoc]

theorem length_intercalate (w w' : List α) (gs : List (List α)) :
    (w.intercalate gs).length + (gs.length - 1) * w'.length =
      (w'.intercalate gs).length + (gs.length - 1) * w.length := by
  induction gs with
  | nil => simp
  | cons g gs ih =>
      cases gs with
      | nil => simp
      | cons g' gs =>
          simp only [List.intercalate_cons_cons, List.length_append, List.length_cons,
            Nat.add_sub_cancel, Nat.succ_mul] at ih ⊢
          omega

/-- There is a step for each occurrence that is known. -/
theorem Ends.length_le {gs : List (List α)} (h : Ends u v k (u.intercalate gs) r) :
    gs.length ≤ k + 1 := by
  induction gs using List.reverseRecOn generalizing k r with
  | nil => exact Nat.zero_le _
  | append_singleton gs g ih =>
      rcases eq_or_ne gs [] with rfl | hgs
      · simp
      rw [intercalate_snoc u g hgs, List.append_assoc] at h
      obtain ⟨i, j, s', hs, ht, rfl⟩ := h.split
      obtain ⟨j, -, -, rfl, -⟩ := ht.step_of_infix ⟨s', g, List.append_assoc _ _ _⟩
      have hle := ih hs
      rw [List.length_append, List.length_singleton]
      omega

/-- With `done` before the gaps: to replace the first occurrence in the text gives what the scan
gives, for each occurrence of the scan, and in the end there is none. -/
def Steady (u v : List α) : List α → List (List α) → Prop
  | _, [] => True
  | done, [g] => ¬ u <:+: done ++ g
  | done, g :: g' :: gs =>
    (∀ a b, First u a b → done ++ g ++ u ++ u.intercalate (g' :: gs) = a ++ u ++ b →
        a ++ v ++ b = done ++ g ++ v ++ u.intercalate (g' :: gs)) ∧
      Steady u v (done ++ g ++ v) (g' :: gs)

/-- **Steady** rewriting ends with what the scan gives. -/
theorem Steady.ends {gs : List (List α)} (hgs : gs ≠ []) : ∀ {done : List α},
    Steady u v done gs →
      Ends u v (gs.length - 1) (done ++ u.intercalate gs) (done ++ v.intercalate gs) := by
  induction gs with
  | nil => exact absurd rfl hgs
  | cons g gs ih =>
      intro done h
      cases gs with
      | nil =>
          rw [List.intercalate_singleton, List.intercalate_singleton]
          exact .absent h
      | cons g' gs =>
          obtain ⟨hstep, hsteady⟩ := h
          obtain ⟨a, b, heq, hfirst⟩ :=
            exists_first ⟨done ++ g, u.intercalate (g' :: gs), rfl⟩
          have hrest := ih (List.cons_ne_nil _ _) hsteady
          rw [← hstep a b hfirst heq] at hrest
          rw [intercalate_step, intercalate_step, heq]
          exact .first hfirst hrest

/-- It does not matter which of two overlapping occurrences is replaced. -/
def Indifferent (u v : List α) : Prop := ∀ x s z, Overlap u x s z → v ++ z = x ++ v

/-- Then only the end matters. -/
theorem Indifferent.steady (h : Indifferent u v) {gs : List (List α)} : ∀ {done : List α},
    ¬ u <:+: done ++ v.intercalate gs → Steady u v done gs := by
  induction gs with
  | nil => exact fun _ => trivial
  | cons g gs ih =>
      intro done hnot
      cases gs with
      | nil => rwa [List.intercalate_singleton] at hnot
      | cons g' gs =>
          rw [intercalate_step] at hnot
          refine ⟨fun a b hfirst heq => ?_, ih hnot⟩
          have hclean := not_infix_left hnot
          obtain ⟨x, s, z, hover, hat, rfl⟩ := hfirst.overlap heq.symm hclean
          rw [hat, List.append_assoc a, ← List.append_assoc v, h x s z hover]
          simp only [List.append_assoc]

/-- One gap more: the step for it comes after the others. -/
theorem Steady.snoc {gs : List (List α)} {g : List α} (hgs : gs ≠ []) : ∀ {done : List α},
    Steady u v done gs →
    (∀ a b, First u a b → done ++ v.intercalate gs ++ u ++ g = a ++ u ++ b →
      a ++ v ++ b = done ++ v.intercalate gs ++ v ++ g) →
    ¬ u <:+: done ++ v.intercalate gs ++ v ++ g → Steady u v done (gs ++ [g]) := by
  induction gs with
  | nil => exact absurd rfl hgs
  | cons h gs ih =>
      intro done hsteady hlast hnot
      cases gs with
      | nil =>
          simp only [List.intercalate_singleton] at hlast hnot
          refine ⟨?_, hnot⟩
          rwa [List.intercalate_singleton]
      | cons h' gs =>
          obtain ⟨hstep, hrest⟩ := hsteady
          rw [intercalate_step] at hlast hnot
          refine ⟨fun a b hfirst heq => ?_, ih (List.cons_ne_nil _ _) hrest hlast hnot⟩
          -- the text of the gaps before the new one has the occurrence already
          have hin : u <:+: done ++ h ++ u ++ u.intercalate (h' :: gs) := ⟨_, _, rfl⟩
          obtain ⟨a', b', heq', hfirst'⟩ := exists_first hin
          change done ++ h ++ u ++ u.intercalate (h' :: gs ++ [g]) = _ at heq
          change _ = done ++ h ++ v ++ u.intercalate (h' :: gs ++ [g])
          rw [intercalate_snoc u g (List.cons_ne_nil _ _)] at heq ⊢
          have hlong : done ++ h ++ u ++ (u.intercalate (h' :: gs) ++ u ++ g) =
              a' ++ u ++ (b' ++ (u ++ g)) := by
            rw [← List.append_assoc (a' ++ u), ← heq']
            simp only [List.append_assoc]
          obtain ⟨rfl, rfl⟩ := hfirst.unique (hfirst'.append (u ++ g)) (heq.symm.trans hlong)
          have hshort := hstep a b' hfirst' heq'
          rw [← List.append_assoc (a ++ v), hshort]
          simp only [List.append_assoc]

/-- The step for the last gap, at an occurrence that overlaps the one of the scan. -/
theorem Steady.last {gs : List (List α)} {g : List α} (hgs : gs ≠ []) (h : Steady u v [] gs)
    (hover : Overlap u x s z) (hat : v.intercalate gs = a ++ x) (hfirst : First u a (z ++ g))
    (hsame : v ++ z = x ++ v) (hnot : ¬ u <:+: v.intercalate (gs ++ [g])) :
    Steady u v [] (gs ++ [g]) := by
  rw [intercalate_snoc v g hgs, ← List.nil_append (v.intercalate gs)] at hnot
  refine h.snoc hgs (fun a' b' hfirst' heq => ?_) hnot
  rw [List.nil_append, hat] at heq ⊢
  rw [hover.append] at heq
  obtain ⟨rfl, rfl⟩ := hfirst.unique hfirst' heq
  rw [← List.append_assoc, List.append_assoc a, hsame]
  simp only [List.append_assoc]

/-! ### The way back -/

/-- The number of steps is known from the lengths. -/
theorem Ends.length_of_ne {gs : List (List α)} (hlen : u.length ≠ v.length)
    (h : Ends u v k (u.intercalate gs) (v.intercalate gs)) : k = gs.length - 1 := by
  have hsteps := h.length_eq
  have hgaps := length_intercalate u v gs
  generalize gs.length - 1 = n at hgaps ⊢
  zify at hsteps hgaps hlen ⊢
  have hprod : ((k : ℤ) - n) * (u.length - v.length) = 0 := by
    linear_combination hsteps + hgaps
  exact sub_eq_zero.mp ((mul_eq_zero.mp hprod).resolve_right (sub_ne_zero.mpr hlen))

/-- The step for the last gap, where there is one step for each occurrence. -/
theorem Ends.last {gs : List (List α)} {g : List α} (hgs : gs ≠ [])
    (h : Ends u v k (u.intercalate (gs ++ [g])) r) (hk : k = gs.length) :
    ∃ a x s z, Overlap u x s z ∧ Ends u v (gs.length - 1) (u.intercalate gs) (a ++ x) ∧
      First u a (z ++ g) ∧ r = a ++ v ++ (z ++ g) := by
  rw [intercalate_snoc u g hgs, List.append_assoc] at h
  obtain ⟨i, j, s', hs, ht, hsum⟩ := h.split
  obtain ⟨j, a, b, rfl, heq, hfirst, hrest⟩ :=
    ht.step_of_infix ⟨s', g, List.append_assoc _ _ _⟩
  have hle := hs.length_le
  obtain rfl : j = 0 := by omega
  obtain rfl : i = gs.length - 1 := by omega
  rw [← List.append_assoc] at heq
  obtain ⟨x, s, z, hover, rfl, rfl⟩ := hfirst.overlap heq.symm hs.not_infix
  exact ⟨a, x, s, z, hover, hs, hfirst, hrest.eq_of_zero⟩

/-- A word that `z` can be put behind is an end of `z` many times. -/
theorem suffix_repeated (h : u <:+ u ++ z) (hz : z ≠ []) {n : ℕ} (hn : u.length ≤ n) :
    u <:+ (List.replicate n z).flatten := by
  have hall : ∀ n, u <:+ u ++ (List.replicate n z).flatten := by
    intro n
    induction n with
    | zero => simp
    | succ n ih =>
        obtain ⟨y, hy⟩ := ih
        refine h.trans ⟨y, ?_⟩
        rw [← List.append_assoc, hy, List.replicate_succ', List.flatten_append,
          List.flatten_singleton, List.append_assoc]
  refine List.suffix_of_suffix_length_le (hall n) (List.suffix_append _ _) (hn.trans ?_)
  rw [List.length_flatten, List.map_replicate, List.sum_replicate, smul_eq_mul]
  exact Nat.le_mul_of_pos_right n (List.length_pos_iff.mpr hz)

/-- Of two such words one ends with the other. -/
theorem suffix_or_suffix (hu : u <:+ u ++ z) (hv : v <:+ v ++ z) (hz : z ≠ []) :
    u <:+ v ∨ v <:+ u :=
  List.suffix_or_suffix_of_suffix (suffix_repeated hu hz (Nat.le_add_right _ v.length))
    (suffix_repeated hv hz (Nat.le_add_left _ u.length))

/-- If a text ends with the replacement, and with that and `z` behind it, the word or the
replacement ends with the other. -/
theorem Overlap.suffix {w : List α} (h : Overlap u x s z) (hz : z ≠ [])
    (heq : w ++ v = a ++ v ++ z) : u <:+ v ∨ v <:+ u := by
  refine suffix_or_suffix ⟨x, h.swap⟩ ?_ hz
  rw [List.append_assoc] at heq
  refine List.suffix_of_suffix_length_le (List.suffix_append w v) ⟨a, heq.symm⟩ ?_
  rw [List.length_append]
  exact Nat.le_add_right _ _

/-- A word that does not end with its replacement, and is of another length: no occurrence before
that of the scan can lead to its result. -/
theorem Ends.steady_of_not_suffix {gs : List (List α)} (hlen : u.length ≠ v.length)
    (hsuf : ¬ v <:+ u) (h : Ends u v k (u.intercalate gs) (v.intercalate gs)) :
    Steady u v [] gs := by
  induction gs using List.reverseRecOn generalizing k with
  | nil => trivial
  | append_singleton gs g ih =>
      have hnot := h.not_infix
      rcases eq_or_ne gs [] with rfl | hgs
      · rwa [List.nil_append, List.intercalate_singleton] at hnot
      have hk := h.length_of_ne hlen
      rw [List.length_append, List.length_singleton, Nat.add_sub_cancel] at hk
      obtain ⟨a, x, s, z, hover, hs, hfirst, hend⟩ := h.last hgs hk
      have hends : v.intercalate gs ++ v = a ++ v ++ z := by
        rw [intercalate_snoc v g hgs, ← List.append_assoc] at hend
        exact List.append_cancel_right hend
      have hz : z = [] := by
        by_contra hz
        rcases hover.suffix hz hends with huv | hvu
        · -- the replacement has an occurrence
          have hin : v <:+: v.intercalate (gs ++ [g]) := by
            rw [intercalate_snoc v g hgs]
            exact ⟨_, _, rfl⟩
          exact hnot (huv.isInfix.trans hin)
        · exact hsuf hvu
      have hx := hover.same.mpr hz
      rw [hz, List.append_nil] at hends
      have hat : v.intercalate gs = a ++ x := by
        rw [hx, List.append_nil]
        exact List.append_cancel_right hends
      rw [← hat] at hs
      exact (ih hs).last hgs hover hat hfirst (by rw [hx, hz, List.append_nil]; rfl) hnot

/-! ### Texts of one length, compared from the left -/

section
variable {r : α → α → Prop}

/-- A difference stays one inside of a longer text. -/
theorem lex_extend (h : List.Lex r s t) (hlen : s.length = t.length) (p q : List α) :
    List.Lex r (s ++ p) (t ++ q) := by
  induction h with
  | nil => simp at hlen
  | rel h => exact .rel h
  | cons _ ih => exact .cons (ih (Nat.succ_injective hlen))

/-- The text after the replacement of the earlier of two overlapping occurrences, and of the
later. -/
theorem Overlap.lex_append (h : Overlap u x s z) (hlt : List.Lex r (v ++ z) (x ++ v))
    (a p q : List α) : List.Lex r (a ++ v ++ (z ++ p)) (a ++ x ++ v ++ q) := by
  have hsize : (v ++ z).length = (x ++ v).length := by
    rw [List.length_append, List.length_append, h.length_eq, Nat.add_comm]
  rw [List.append_assoc, ← List.append_assoc v, List.append_assoc a, List.append_assoc a]
  exact (lex_extend hlt hsize p q).append_left r a

/-- For the order `r` no earlier occurrence makes the text greater. -/
def Descends (r : α → α → Prop) (u v : List α) : Prop :=
  ∀ x s z, Overlap u x s z → v ++ z = x ++ v ∨ List.Lex r (v ++ z) (x ++ v)

/-- For some order of the letters, no earlier occurrence makes the text greater. -/
def OneWay (u v : List α) : Prop :=
  ∃ r : α → α → Prop, (∀ c, ¬ r c c) ∧ (∀ c d e, r c d → r d e → r c e) ∧ Descends r u v

/-- With a step for each occurrence, the end is what the scan gives or before that. -/
theorem Ends.descends (htrans : ∀ c d e, r c d → r d e → r c e) (hdesc : Descends r u v)
    {gs : List (List α)} (h : Ends u v k (u.intercalate gs) t) (hk : k = gs.length - 1) :
    t.length = (v.intercalate gs).length ∧
      (t = v.intercalate gs ∧ Steady u v [] gs ∨ List.Lex r t (v.intercalate gs)) := by
  induction gs using List.reverseRecOn generalizing k t with
  | nil =>
      obtain rfl := hk
      rw [h.eq_of_zero]
      exact ⟨rfl, .inl ⟨rfl, trivial⟩⟩
  | append_singleton gs g ih =>
      have hlen : t.length = (v.intercalate (gs ++ [g])).length := by
        have hsteps := h.length_eq
        have hgaps := length_intercalate u v (gs ++ [g])
        rw [← hk] at hgaps
        omega
      refine ⟨hlen, ?_⟩
      rcases eq_or_ne gs [] with rfl | hgs
      · obtain rfl := hk
        have hnot := h.not_infix
        rw [h.eq_of_zero] at hnot ⊢
        rw [List.nil_append, List.intercalate_singleton] at hnot ⊢
        exact .inl ⟨List.intercalate_singleton.symm, hnot⟩
      rw [List.length_append, List.length_singleton, Nat.add_sub_cancel] at hk
      have hnot := h.not_infix
      obtain ⟨a, x, s, z, hover, hs, hfirst, rfl⟩ := h.last hgs hk
      obtain ⟨hlast, hprev⟩ := ih hs rfl
      rw [intercalate_snoc v g hgs]
      -- what the scan gives for the last gap, after the text that is there
      have hbehind : a ++ x = v.intercalate gs ∧ Steady u v [] gs ∨
          List.Lex r (a ++ x ++ v ++ g) (v.intercalate gs ++ v ++ g) := by
        refine hprev.imp_right fun hlt => ?_
        rw [List.append_assoc, List.append_assoc (v.intercalate gs)]
        exact lex_extend hlt hlast _ _
      rcases hdesc x s z hover with hsame | hlt
      · have heq : a ++ v ++ (z ++ g) = a ++ x ++ v ++ g := by
          rw [List.append_assoc, ← List.append_assoc v, hsame]
          simp only [List.append_assoc]
        rw [heq] at hnot ⊢
        rcases hbehind with ⟨hat, hsteady⟩ | hlt
        · refine .inl ⟨by rw [hat], hsteady.last hgs hover hat.symm hfirst hsame ?_⟩
          rwa [intercalate_snoc v g hgs, ← hat]
        · exact .inr hlt
      · have hstep := hover.lex_append hlt a g g
        rcases hbehind with ⟨hat, -⟩ | hlt'
        · exact .inr (hat ▸ hstep)
        · exact .inr (List.lex_trans (htrans _ _ _) hstep hlt')

/-- **If the replacements end as the joined gaps**, and pull one way, every step kept to the
gaps. -/
theorem Ends.steady_of_oneWay {gs : List (List α)} (hlen : u.length ≠ v.length)
    (hone : OneWay u v) (h : Ends u v k (u.intercalate gs) (v.intercalate gs)) :
    Steady u v [] gs := by
  obtain ⟨r, hirrefl, htrans, hdesc⟩ := hone
  rcases (h.descends htrans hdesc (h.length_of_ne hlen)).2 with ⟨-, hsteady⟩ | hlt
  · exact hsteady
  · exact absurd hlt (List.lex_irrefl hirrefl _)

/-! ### Words of one length -/

/-- Each step goes down where the replacement does. -/
theorem Ends.lex (htrans : ∀ c d e, r c d → r d e → r c e) (hlen : v.length = u.length)
    (hlt : List.Lex r v u) (h : Ends u v k s t) : t = s ∨ List.Lex r t s := by
  induction h with
  | absent _ => exact .inl rfl
  | @first k a b t _ _ ih =>
      have hstep : List.Lex r (a ++ v ++ b) (a ++ u ++ b) := by
        rw [List.append_assoc, List.append_assoc]
        exact (lex_extend hlt hlen b b).append_left r a
      rcases ih with rfl | ih
      · exact .inr hstep
      · exact .inr (List.lex_trans (htrans _ _ _) ih hstep)

/-- Where two words of one length differ first. -/
theorem exists_difference (hlen : u.length = v.length) (hne : u ≠ v) :
    ∃ w c d p q, u = w ++ c :: p ∧ v = w ++ d :: q ∧ c ≠ d := by
  induction u generalizing v with
  | nil => exact absurd (List.length_eq_zero_iff.mp hlen.symm).symm hne
  | cons c p ih =>
      cases v with
      | nil => cases hlen
      | cons d q =>
          by_cases hcd : c = d
          · subst hcd
            obtain ⟨w, c', d', p', q', rfl, rfl, hdiff⟩ :=
              ih (Nat.succ_injective hlen) fun heq => hne (by rw [heq])
            exact ⟨c :: w, c', d', p', q', rfl, rfl, hdiff⟩
          · exact ⟨[], c, d, p, q, rfl, rfl, hcd⟩

/-- An earlier occurrence changes the text where the words differ, and that cannot be undone. -/
theorem Overlap.lex {w p q : List α} {c d : α} (h : Overlap u x s z) (hx : x ≠ [])
    (hu : u = w ++ c :: p) (hv : v = w ++ d :: q) (hdc : r d c) :
    List.Lex r (v ++ z) (x ++ v) := by
  have hpos := List.length_pos_iff.mpr hx
  -- the word behind `x` begins like the word
  have hword : x ++ w ++ c :: p = w ++ [c] ++ (p ++ z) := by
    rw [List.append_assoc, ← hu, h.swap, hu]
    simp only [List.append_assoc, List.cons_append, List.nil_append]
  obtain ⟨y, hy⟩ : w ++ [c] <+: x ++ w := by
    refine List.prefix_of_prefix_length_le ⟨p ++ z, rfl⟩ ⟨c :: p, hword⟩ ?_
    rw [List.length_append, List.length_append, List.length_singleton]
    omega
  have hleft : v ++ z = w ++ (d :: (q ++ z)) := by
    rw [hv, List.append_assoc, List.cons_append]
  have hright : x ++ v = w ++ (c :: (y ++ d :: q)) := by
    rw [hv, ← List.append_assoc, ← hy]
    simp only [List.append_assoc, List.cons_append, List.nil_append]
  rw [hleft, hright]
  exact (List.Lex.rel hdc).append_left r w

/-- What an earlier occurrence leaves does not come back to what the scan gives. -/
theorem Ends.apart {t' : List α} (hlen : u.length = v.length) (hne : u ≠ v)
    (hover : Overlap u x s z) (h : Ends u v k (a ++ v ++ (z ++ t)) (a ++ x ++ v ++ t')) :
    x = [] := by
  by_contra hx
  obtain ⟨w, c, d, p, q, hu, hv, hdiff⟩ := exists_difference hlen hne
  -- the order in which the replacement's letter is before the word's
  let r : α → α → Prop := fun e f => e = d ∧ f = c
  have hirrefl : ∀ e, ¬ r e e := fun e he => hdiff (he.2.symm.trans he.1)
  have htrans : ∀ e f g, r e f → r f g → r e g := fun e f g h h' => ⟨h.1, h'.2⟩
  have hdown : List.Lex r v u := by
    rw [hu, hv]
    exact (List.Lex.rel ⟨rfl, rfl⟩).append_left r w
  have hstep : List.Lex r (a ++ v ++ (z ++ t)) (a ++ x ++ v ++ t') :=
    hover.lex_append (hover.lex hx hu hv ⟨rfl, rfl⟩) a t t'
  rcases h.lex htrans hlen.symm hdown with heq | hlt
  · rw [heq] at hstep
    exact List.lex_irrefl hirrefl _ hstep
  · exact List.lex_irrefl hirrefl _ (List.lex_trans (htrans _ _ _) hlt hstep)

/-- **With equal lengths** likewise, by induction on the gaps. -/
theorem Ends.steady_of_length_eq (hlen : u.length = v.length) {gs : List (List α)}
    (hgs : gs ≠ []) : ∀ {done : List α} {k : ℕ},
      Ends u v k (done ++ u.intercalate gs) (done ++ v.intercalate gs) → Steady u v done gs := by
  induction gs with
  | nil => exact absurd rfl hgs
  | cons g gs ih =>
      intro done k h
      have hnot := h.not_infix
      cases gs with
      | nil => rwa [List.intercalate_singleton] at hnot
      | cons g' gs =>
          rw [intercalate_step] at hnot
          rw [intercalate_step, intercalate_step] at h
          have hclean := not_infix_left hnot
          have hne : u ≠ v := fun heq => hnot ⟨done ++ g, v.intercalate (g' :: gs), by rw [heq]⟩
          have hstep : ∀ a b, First u a b →
              done ++ g ++ u ++ u.intercalate (g' :: gs) = a ++ u ++ b →
              a ++ v ++ b = done ++ g ++ v ++ u.intercalate (g' :: gs) := by
            intro a b hfirst heq
            obtain ⟨x, s, z, hover, hat, rfl⟩ := hfirst.overlap heq.symm hclean
            obtain ⟨j, -, hrest⟩ := h.step hfirst heq
            rw [hat] at hrest
            have hx := hrest.apart hlen hne hover
            have hz := hover.same.mp hx
            rw [hat, hx, hz, List.append_nil, List.nil_append]
          obtain ⟨j, a, b, -, heq, hfirst, hrest⟩ := h.step_of_infix ⟨_, _, rfl⟩
          rw [hstep a b hfirst heq] at hrest
          exact ⟨hstep, ih (List.cons_ne_nil _ _) hrest⟩

/-! ### All of them -/

/-- **Main result.**  The rewriting ends with what the scan gives only if it is steady: for words
of one length, for a word that does not end with its replacement, and where some order of the
letters says that earlier occurrences do not make the text greater. -/
theorem Ends.steady {gs : List (List α)} (hgs : gs ≠ [])
    (hcase : u.length = v.length ∨ ¬ v <:+ u ∨ OneWay u v)
    (h : Ends u v k (u.intercalate gs) (v.intercalate gs)) : Steady u v [] gs := by
  by_cases hlen : u.length = v.length
  · refine Ends.steady_of_length_eq hlen hgs (k := k) ?_
    rwa [List.nil_append, List.nil_append]
  · rcases hcase.resolve_left hlen with hsuf | hone
    · exact h.steady_of_not_suffix hlen hsuf
    · exact h.steady_of_oneWay hlen hone

end

end Occurrence
