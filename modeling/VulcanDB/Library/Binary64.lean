import Mathlib.Data.Int.Log
import VulcanDB.Library.Numbers

/-!
# Library — The 64-bit floating-point format

A `double` keeps 53 bits of a number, of which the last stands for no less than `2 ^ -1074`; what
would be `2 ^ 1024` or more is infinite.  An exact magnitude is rounded to the nearest value, and to
the one with an even last bit when two are as near.

* `binary64_eq`: the values of the format are kept.
* `isBinary64_of_binary64`: what is rounded is a value of the format.
* `binary64_settled`: so is a value rounded to a whole number.
* `length_putFixed_strtod`: how long a number is that is read and written.
-/

namespace Cxx

/-- The exponent of the last bit that the format has for `q`. -/
def lastBit (q : ℚ) : ℤ := max (Int.log 2 q - 52) (-1074)

/-- The rounding of a `double`. -/
def binary64 : Rounding := fun q =>
  let x : ℚ := roundEven (q / 2 ^ lastBit q) * 2 ^ lastBit q
  if x < 2 ^ 1024 then some x else none

/-- The magnitude of a value of the format. -/
def IsBinary64 (q : ℚ) : Prop :=
  ∃ (m : ℕ) (k : ℤ), m < 2 ^ 53 ∧ -1074 ≤ k ∧ q = m * 2 ^ k ∧ q < 2 ^ 1024

/-! ### Values of the format -/

/-- The last bit is 53 places below the number. -/
theorem lt_zpow_lastBit (q : ℚ) : q < 2 ^ (lastBit q + 53) := by
  have hlog := Int.lt_zpow_succ_log_self (b := 2) (by decide) q
  have hle : Int.log 2 q + 1 ≤ lastBit q + 53 := by
    have := le_max_left (Int.log 2 q - 52) (-1074)
    rw [lastBit]
    omega
  exact hlog.trans_le (by exact_mod_cast zpow_le_zpow_right₀ (by norm_num : (1 : ℚ) ≤ 2) hle)

/-- The last bit of a value is no further than the one it is written with. -/
theorem lastBit_le {m : ℕ} {k : ℤ} (hm : m < 2 ^ 53) (hk : -1074 ≤ k) (hpos : 0 < m) :
    lastBit (m * 2 ^ k) ≤ k := by
  have hq : (0 : ℚ) < m * 2 ^ k := by positivity
  have hlt : (m * 2 ^ k : ℚ) < 2 ^ (53 + k) := by
    rw [zpow_add₀ two_ne_zero]
    have : (m : ℚ) < 2 ^ (53 : ℤ) := by exact_mod_cast hm
    gcongr
  have hlog := (Int.lt_zpow_iff_log_lt (b := 2) (by decide) hq).mp (by exact_mod_cast hlt)
  rw [lastBit]
  omega

theorem roundEven_natCast (n : ℕ) : roundEven (n : ℚ) = n := roundEven_intCast n

/-- **A value of the format is kept.** -/
theorem binary64_eq {q : ℚ} (h : IsBinary64 q) : binary64 q = some q := by
  obtain ⟨m, k, hm, hk, hq, hlt⟩ := h
  have hround : (roundEven (q / 2 ^ lastBit q) : ℚ) * 2 ^ lastBit q = q := by
    have hpow : (2 : ℚ) ^ lastBit q ≠ 0 := by positivity
    rcases Nat.eq_zero_or_pos m with rfl | hpos
    · have hzero : q = 0 := by rw [hq, Nat.cast_zero, zero_mul]
      have hnone := roundEven_natCast 0
      rw [Nat.cast_zero] at hnone
      rw [hzero, zero_div, hnone]
      simp
    · have hle : lastBit q ≤ k := hq ▸ lastBit_le hm hk hpos
      obtain ⟨n, hn⟩ := Int.eq_ofNat_of_zero_le (Int.sub_nonneg.mpr hle)
      have hexp : k = n + lastBit q := by omega
      have hsplit : q = ((m * 2 ^ n : ℕ) : ℚ) * 2 ^ lastBit q := by
        conv_lhs => rw [hq, hexp, zpow_add₀ two_ne_zero, zpow_natCast]
        push_cast
        ring
      have hwhole : q / 2 ^ lastBit q = ((m * 2 ^ n : ℕ) : ℚ) := (div_eq_iff hpow).mpr hsplit
      rw [hwhole, roundEven_natCast, Int.cast_natCast, ← hwhole, div_mul_cancel₀ q hpow]
  simp only [binary64, hround]
  exact if_pos hlt

/-! ### Rounding -/

/-- Rounding does not go past a whole number. -/
theorem roundEven_le {q : ℚ} {n : ℤ} (h : q ≤ n) : roundEven q ≤ n := by
  have hfloor : ⌊q⌋ ≤ n := by exact_mod_cast (Int.floor_le q).trans h
  rcases hfloor.lt_or_eq with hlt | heq
  · simp only [roundEven]
    split_ifs <;> omega
  · have hnear : q - ⌊q⌋ < 1 / 2 := by
      rw [heq]
      linarith
    rw [roundEven, if_pos hnear]
    exact hfloor

/-- **What is rounded is a value of the format.** -/
theorem isBinary64_of_binary64 {q x : ℚ} (hq : 0 ≤ q) (h : binary64 q = some x) :
    IsBinary64 x := by
  simp only [binary64] at h
  split at h
  · rename_i hlt
    obtain rfl := Option.some.inj h
    have hpow : (0 : ℚ) < 2 ^ lastBit q := by positivity
    have hbit : -1074 ≤ lastBit q := le_max_right _ _
    obtain ⟨m, hm⟩ := Int.eq_ofNat_of_zero_le (roundEven_nonneg (div_nonneg hq hpow.le))
    have hle : m ≤ 2 ^ 53 := by
      have hscaled : q / 2 ^ lastBit q ≤ ((2 ^ 53 : ℤ) : ℚ) := by
        rw [div_le_iff₀ hpow]
        have hbound := (lt_zpow_lastBit q).le
        rw [zpow_add₀ two_ne_zero, mul_comm] at hbound
        exact_mod_cast hbound
      have := roundEven_le hscaled
      omega
    rw [hm] at hlt ⊢
    rcases hle.lt_or_eq with hsmall | rfl
    · exact ⟨m, lastBit q, hsmall, hbit, rfl, hlt⟩
    · -- the carry into the next exponent
      refine ⟨2 ^ 52, lastBit q + 1, by decide, by omega, ?_, hlt⟩
      rw [zpow_add₀ two_ne_zero]
      push_cast
      ring
  · cases h

/-- A value of the format that is rounded to a whole number is one. -/
theorem IsBinary64.roundEven {x : ℚ} (h : IsBinary64 x) :
    IsBinary64 (((Cxx.roundEven x).toNat : ℕ) : ℚ) := by
  obtain ⟨m, k, hm, hk, rfl, hlt⟩ := h
  rcases le_or_gt 0 k with hnonneg | hneg
  · -- it is whole
    obtain ⟨n, rfl⟩ := Int.eq_ofNat_of_zero_le hnonneg
    have hwhole : (m * 2 ^ (n : ℤ) : ℚ) = ((m * 2 ^ n : ℕ) : ℚ) := by
      rw [zpow_natCast]
      push_cast
      ring
    rw [hwhole, roundEven_natCast, Int.toNat_natCast, ← hwhole]
    exact ⟨m, n, hm, hk, rfl, hlt⟩
  · -- it has no more than 53 bits before the point
    have hsmall : (m * 2 ^ k : ℚ) ≤ ((m : ℤ) : ℚ) := by
      have hone : (2 : ℚ) ^ k ≤ 1 := zpow_le_one_of_nonpos₀ (by norm_num) hneg.le
      rw [Int.cast_natCast]
      exact mul_le_of_le_one_right (Nat.cast_nonneg m) hone
    have hle := roundEven_le hsmall
    have hbits : (Cxx.roundEven (m * 2 ^ k : ℚ)).toNat < 2 ^ 53 := by omega
    refine ⟨_, 0, hbits, by omega, by rw [zpow_zero, mul_one], ?_⟩
    have hcast : (((Cxx.roundEven (m * 2 ^ k : ℚ)).toNat : ℕ) : ℚ) < 2 ^ 53 := by
      exact_mod_cast hbits
    exact hcast.trans (pow_lt_pow_right₀ (by norm_num) (by decide))

/-- A rounded number is not rounded further. -/
theorem binary64_settled : binary64.Settled := by
  refine ⟨binary64_eq ⟨0, 0, by decide, by decide, by norm_num, by norm_num⟩, ?_⟩
  intro q x hq h
  exact binary64_eq (isBinary64_of_binary64 hq h).roundEven

/-! ### Writing -/

theorem length_dec {n k : ℕ} (hk : 0 < k) (h : n < 10 ^ k) : (dec n).length ≤ k :=
  (Nat.length_toDigits_le_iff (by decide) hk).mpr h

theorem length_fraction {k n : ℕ} (h : n < 10 ^ k) : (fraction k n).length ≤ k + 1 := by
  unfold fraction
  split
  · exact Nat.zero_le _
  · rename_i hk
    have := length_dec (Nat.pos_of_ne_zero hk) h
    simp only [List.length_cons, List.length_append, List.length_replicate]
    omega

/-- A finite value has no more than 309 digits before the point. -/
theorem length_putFixed (p : Int) (neg : Bool) {x : ℚ} (hx : x < 2 ^ 1024) :
    (putFixed p (.finite neg x)).length ≤ places p + 311 := by
  obtain ⟨bound, hbound⟩ : ∃ b : ℕ, b = 2 ^ 1024 := ⟨_, rfl⟩
  have hpow : 0 < 10 ^ places p := by positivity
  have hcast : (bound : ℚ) = 2 ^ 1024 := by rw [hbound, Nat.cast_pow, Nat.cast_two]
  have hle : roundEven (x * 10 ^ places p) ≤ ((bound * 10 ^ places p : ℕ) : ℤ) := by
    refine roundEven_le ?_
    rw [← hcast] at hx
    push_cast
    gcongr
  have hwhole : (roundEven (x * 10 ^ places p)).toNat / 10 ^ places p < 10 ^ 309 := by
    have hdiv : (roundEven (x * 10 ^ places p)).toNat / 10 ^ places p ≤ bound :=
      Nat.div_le_of_le_mul (mul_comm bound _ ▸ Int.toNat_le.mpr hle)
    have hlarge : 2 ^ 1024 < 10 ^ 309 := by decide +kernel
    rw [← hbound] at hlarge
    exact hdiv.trans_lt hlarge
  have hsign : (sign neg).length ≤ 1 := by cases neg <;> decide
  have hdigits := length_dec (by decide) hwhole
  have hfraction := length_fraction (Nat.mod_lt (roundEven (x * 10 ^ places p)).toNat hpow)
  simp only [putFixed, List.length_append]
  omega

/-- **A number that was read is printed** in a bounded length. -/
theorem length_putFixed_strtod (p : Int) (s : Str) :
    (putFixed p (strtod binary64 s).1).length ≤ places p + 311 := by
  cases hd : (strtod binary64 s).1 with
  | finite neg x =>
      refine length_putFixed p neg ?_
      rcases strtod_finite hd with rfl | ⟨q, hq, hround⟩
      · positivity
      · obtain ⟨-, -, -, -, -, hlt⟩ := isBinary64_of_binary64 hq hround
        exact hlt
  | inf neg =>
      rw [putFixed]
      cases neg <;> simp [sign]
  | nan neg =>
      rw [putFixed]
      cases neg <;> simp [sign]

/-- The nearest value to one tenth, and a number without one. -/
example : binary64 (1 / 10) = some (3602879701896397 / 2 ^ 55) ∧
    binary64 (2 ^ 53 + 1) = some (2 ^ 53) ∧ binary64 (2 ^ 1024) = none := by decide +kernel

end Cxx
