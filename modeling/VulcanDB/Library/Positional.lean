import Mathlib.Data.Nat.Digits.Lemmas
import Mathlib.Tactic

/-!
# Library — Numbers in a fixed number of digits

The digits of a number in a base, the most significant first and filled up with zeros to a width,
and the number read from digits by the usual loop.

* `value_written`, `written_value`: reading and writing are inverse on the numbers that fit.
-/

namespace Positional

variable {b width n : ℕ} {ds es : List ℕ}

/-- The `width` digits of `n`. -/
def written (b width n : ℕ) : List ℕ := (Nat.digitsAppend b width n).reverse

/-- Digits read behind `n`. -/
def valueFrom (b n : ℕ) (ds : List ℕ) : ℕ := ds.foldl (fun n d => n * b + d) n

/-- The number with these digits. -/
def value (b : ℕ) (ds : List ℕ) : ℕ := valueFrom b 0 ds

@[simp] theorem valueFrom_nil (b n : ℕ) : valueFrom b n [] = n := rfl

@[simp] theorem valueFrom_cons (b n d : ℕ) (ds : List ℕ) :
    valueFrom b n (d :: ds) = valueFrom b (n * b + d) ds := rfl

theorem valueFrom_concat (b n d : ℕ) (ds : List ℕ) :
    valueFrom b n (ds ++ [d]) = valueFrom b n ds * b + d := by
  simp [valueFrom]

theorem le_valueFrom (hb : 0 < b) (n : ℕ) (ds : List ℕ) : n ≤ valueFrom b n ds := by
  induction ds generalizing n with
  | nil => exact le_rfl
  | cons d ds ih =>
    calc n ≤ n * b := Nat.le_mul_of_pos_right n hb
      _ ≤ n * b + d := Nat.le_add_right _ d
      _ ≤ valueFrom b n (d :: ds) := ih (n * b + d)

/-- The same as Mathlib's, with the digits the other way. -/
theorem value_eq_ofDigits (b : ℕ) (ds : List ℕ) : value b ds = Nat.ofDigits b ds.reverse := by
  induction ds using List.reverseRecOn with
  | nil => rfl
  | append_singleton ds d ih =>
    rw [value, valueFrom_concat, ← value, ih, List.reverse_append, List.reverse_singleton,
      List.singleton_append, Nat.ofDigits_cons]
    ring

theorem written_eq (b width n : ℕ) : written b width n =
    List.replicate (width - (Nat.digits b n).length) 0 ++ (Nat.digits b n).reverse := by
  simp [written, Nat.digitsAppend]

theorem written_lt (hb : 1 < b) {d : ℕ} (h : d ∈ written b width n) : d < b :=
  Nat.lt_of_mem_digitsAppend hb width d (List.mem_reverse.mp h)

/-- As many as asked for, where the number has room. -/
theorem length_written (hb : 1 < b) (h : n < b ^ width) : (written b width n).length = width := by
  rw [written, List.length_reverse, Nat.length_digitsAppend hb width h]

/-- **What is written is read back**. -/
theorem value_written (b width n : ℕ) : value b (written b width n) = n := by
  rw [value_eq_ofDigits, written, List.reverse_reverse, Nat.digitsAppend,
    Nat.ofDigits_append_replicate_zero, Nat.ofDigits_digits]

theorem value_lt (hb : 1 < b) (h : ∀ d ∈ ds, d < b) : value b ds < b ^ ds.length := by
  rw [value_eq_ofDigits, ← List.length_reverse]
  exact Nat.ofDigits_lt_base_pow_length hb fun d hd => h d (List.mem_reverse.mp hd)

/-- **What is read is written back**. -/
theorem written_value (hb : 1 < b) (h : ∀ d ∈ ds, d < b) :
    written b ds.length (value b ds) = ds := by
  have hinv := (Nat.setInvOn_digitsAppend_ofDigits hb ds.length).1
    (show ds.reverse ∈ {L : List ℕ | L.length = ds.length ∧ ∀ x ∈ L, x < b} from
      ⟨List.length_reverse, fun d hd => h d (List.mem_reverse.mp hd)⟩)
  rw [written, value_eq_ofDigits, hinv, List.reverse_reverse]

end Positional
