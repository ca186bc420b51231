import VulcanDB.Library.Numbers

/-!
# Library — Decimal numerals

The texts `[sign]digits[.digits][e[sign]digits]`, the value that each stands for, what `strtod`
reads of one and what `putFixed` writes of that.

* `strtod_text`: a numeral is read to its end, after blanks and before what cannot continue it.
* `putFixed_eq_iff`: of two numerals with one rounded value, only a zero can be written twice.
-/

namespace Cxx

/-- An optional sign. -/
inductive Sign
  | none
  | plus
  | minus
  deriving DecidableEq, Repr

/-- Its text. -/
def Sign.text : Sign → Str
  | .none => []
  | .plus => ['+']
  | .minus => ['-']

/-- `e` or `E` and a whole number. -/
structure Exponent where
  marker : Char
  sign : Sign
  digits : Str
  isMarker : marker = 'e' ∨ marker = 'E'
  isDigit : ∀ c ∈ digits, c.isDigit = true
  ne_nil : digits ≠ []

/-- The marker, the sign and the digits. -/
def Exponent.text (e : Exponent) : Str := e.marker :: (e.sign.text ++ e.digits)

/-- The number that the exponent stands for. -/
def Exponent.value (e : Exponent) : Int :=
  if e.sign = .minus then -(digitsValue e.digits : Int) else digitsValue e.digits

/-- A decimal number as it is written; `point` are the digits behind the point, if there is one. -/
structure Decimal where
  sign : Sign
  whole : Str
  point : Option Str
  exponent : Option Exponent
  isDigit : ∀ c ∈ whole ++ point.getD [], c.isDigit = true
  ne_nil : whole ++ point.getD [] ≠ []

namespace Decimal

/-- The digits after the point. -/
def places (d : Decimal) : Str := d.point.getD []

/-- The point and the digits behind it. -/
def pointText (d : Decimal) : Str := d.point.elim [] ('.' :: ·)

/-- The exponent, if there is one. -/
def exponentText (d : Decimal) : Str := d.exponent.elim [] Exponent.text

/-- The numeral without its sign. -/
def unsigned (d : Decimal) : Str := d.whole ++ (d.pointText ++ d.exponentText)

/-- The whole text. -/
def text (d : Decimal) : Str := d.sign.text ++ d.unsigned

/-- Whether there is a minus. -/
def neg (d : Decimal) : Bool := d.sign = .minus

/-- The value without its sign. -/
def mag (d : Decimal) : ℚ :=
  (digitsValue (d.whole ++ d.places) : ℚ) / 10 ^ d.places.length *
    10 ^ (d.exponent.elim 0 Exponent.value)

/-- The number. -/
def value (d : Decimal) : ℚ := if d.neg then -d.mag else d.mag

/-- Without its sign it is not negative. -/
theorem mag_nonneg (d : Decimal) : 0 ≤ d.mag := by
  unfold mag
  positivity

end Decimal

/-- The value `q` rounded to `p` places. -/
def roundTo (p : Int) (q : ℚ) : ℚ := roundEven (q * 10 ^ places p) / 10 ^ places p

/-! ### Reading -/

/-- The longest start, up to what stops it. -/
theorem takeWhile_stops {p : Char → Bool} {s t : Str} (hs : ∀ c ∈ s, p c = true)
    (ht : ∀ c, t.head? = some c → p c = false) :
    (s ++ t).takeWhile p = s ∧ (s ++ t).dropWhile p = t := by
  cases t with
  | nil =>
      rw [List.append_nil]
      exact ⟨List.takeWhile_eq_self_iff.mpr hs, List.dropWhile_eq_nil_iff.mpr hs⟩
  | cons c t => exact ⟨takeWhile_append_stop hs (ht c rfl), dropWhile_append_stop hs (ht c rfl)⟩

/-- What cannot continue a numeral. -/
structure Stops (r : Str) : Prop where
  zero : '\x00' ∉ r
  head : ∀ c, r.head? = some c → c.isAlphanum = false ∧ c ≠ '.'

theorem toLower_of_not_upper {c : Char} (h : c.isUpper = false) : c.toLower = c := by
  have hout : ¬ (c.val ≥ 'A'.val ∧ c.val ≤ 'Z'.val) := of_decide_eq_false h
  exact dif_neg hout

theorem toLower_of_isDigit {c : Char} (h : c.isDigit = true) : c.toLower = c := by
  refine toLower_of_not_upper ?_
  have := isDigit_toNat h
  show decide (c.val ≥ 'A'.val ∧ c.val ≤ 'Z'.val) = false
  refine decide_eq_false ?_
  rintro ⟨hA, -⟩
  have : 65 ≤ c.toNat := UInt32.le_iff_toNat_le.mp hA
  omega

/-- A character that is no letter and no digit is in lower case. -/
theorem toLower_of_not_alphanum {c : Char} (h : c.isAlphanum = false) : c.toLower = c := by
  refine toLower_of_not_upper ?_
  have hnone : (c.isUpper || c.isLower || c.isDigit) = false := h
  simp only [Bool.or_eq_false_iff] at hnone
  exact hnone.1.1

theorem stripWord_cons_ne {w s : Str} {x c : Char} (h : c.toLower ≠ x) :
    stripWord (x :: w) (c :: s) = none := by
  rw [stripWord, if_neg]
  intro he
  exact h (List.cons.inj he).1

namespace Decimal

variable (d : Decimal)

theorem isDigit_whole : ∀ c ∈ d.whole, c.isDigit = true :=
  fun c hc => d.isDigit c (List.mem_append_left _ hc)

theorem isDigit_places : ∀ c ∈ d.places, c.isDigit = true :=
  fun c hc => d.isDigit c (List.mem_append_right _ hc)

/-- The characters of a numeral. -/
theorem mem_unsigned {c : Char} (h : c ∈ d.unsigned) :
    c.isDigit = true ∨ c ∈ ['.', 'e', 'E', '+', '-'] := by
  rcases List.mem_append.mp h with h | h
  · exact .inl (d.isDigit_whole c h)
  rcases List.mem_append.mp h with h | h
  · unfold pointText at h
    cases hp : d.point with
    | none =>
        rw [hp] at h
        cases h
    | some ds =>
        rw [hp] at h
        rcases List.mem_cons.mp h with rfl | h
        · exact .inr (by decide)
        · exact .inl (d.isDigit_places c (by rw [places, hp]; exact h))
  · unfold exponentText at h
    cases he : d.exponent with
    | none =>
        rw [he] at h
        cases h
    | some e =>
        rw [he] at h
        rcases List.mem_cons.mp h with rfl | h
        · rcases e.isMarker with hm | hm <;> rw [hm] <;> exact .inr (by decide)
        · rcases List.mem_append.mp h with h | h
          · right
            cases hs : e.sign <;> rw [hs] at h <;> simp only [Sign.text] at h
            · cases h
            · obtain rfl := List.mem_singleton.mp h
              decide
            · obtain rfl := List.mem_singleton.mp h
              decide
          · exact .inl (e.isDigit c h)

/-- A numeral without its sign begins with a digit or the point. -/
theorem exists_head : ∃ c s, d.unsigned = c :: s ∧ (c.isDigit = true ∨ c = '.') := by
  cases hw : d.whole with
  | cons c s => exact ⟨c, _, by rw [unsigned, hw, List.cons_append],
      .inl (d.isDigit_whole c (by rw [hw]; exact List.mem_cons_self))⟩
  | nil =>
      cases hp : d.point with
      | none => exact absurd (by rw [hw, hp]; rfl) d.ne_nil
      | some ds => exact ⟨'.', _, by rw [unsigned, hw, pointText, hp]; rfl, .inr rfl⟩

/-- A digit or a point is no letter, no blank and no sign. -/
theorem head_facts {c : Char} (h : c.isDigit = true ∨ c = '.') :
    c.toLower = c ∧ c.isAlpha = false ∧ isSpace c = false ∧ c ≠ '-' ∧ c ≠ '+' := by
  rcases h with h | rfl
  · have hval := isDigit_toNat h
    refine ⟨toLower_of_isDigit h, ?_, isSpace_eq_false_of_isDigit h, ?_, ?_⟩
    · rw [Bool.eq_false_iff]
      intro ha
      have hletter : (decide (c.val ≥ 'A'.val ∧ c.val ≤ 'Z'.val) ||
          (decide (c.val ≥ 'a'.val) && decide (c.val ≤ 'z'.val))) = true := ha
      simp only [Bool.or_eq_true, Bool.and_eq_true, decide_eq_true_eq] at hletter
      rcases hletter with ⟨ha, -⟩ | ⟨ha, -⟩
      · have : 65 ≤ c.toNat := UInt32.le_iff_toNat_le.mp ha
        omega
      · have : 97 ≤ c.toNat := UInt32.le_iff_toNat_le.mp ha
        omega
    · rintro rfl
      cases h
    · rintro rfl
      cases h
  · decide

/-- The second character of a numeral is no letter but the marker of an exponent. -/
theorem second_ne {r : Str} (hr : Stops r) {c x : Char} {t : Str}
    (h : d.unsigned ++ r = c :: x :: t) : x.toLower ≠ 'x' := by
  have hmem : x ∈ d.unsigned ∨ r.head? = some x := by
    obtain ⟨c', s, hs, -⟩ := d.exists_head
    rw [hs, List.cons_append] at h
    cases s with
    | nil =>
        have hr' : r = x :: t := (List.cons.inj h).2
        exact .inr (by rw [hr']; rfl)
    | cons y s =>
        obtain rfl := (List.cons.inj (List.cons.inj h).2).1
        exact .inl (by rw [hs]; simp)
  rcases hmem with hx | hx
  · rcases d.mem_unsigned hx with hd | hm
    · rw [toLower_of_isDigit hd]
      rintro rfl
      cases hd
    · have hall : ∀ z ∈ ['.', 'e', 'E', '+', '-'], z.toLower ≠ 'x' := by decide
      exact hall x hm
  · have hx := (hr.head x hx).1
    rw [toLower_of_not_alphanum hx]
    rintro rfl
    cases hx

/-- No numeral begins as a number in hexadecimal does. -/
theorem stripWord_hex {r : Str} (hr : Stops r) : stripWord ['0', 'x'] (d.unsigned ++ r) = none := by
  rw [stripWord, if_neg]
  intro he
  obtain ⟨c, s, hs, -⟩ := d.exists_head
  cases hrest : s ++ r with
  | nil =>
      rw [hs, List.cons_append, hrest] at he
      cases (List.cons.inj he).2
  | cons x t =>
      have heq : d.unsigned ++ r = c :: x :: t := by rw [hs, List.cons_append, hrest]
      rw [heq] at he
      exact d.second_ne hr heq (List.cons.inj (List.cons.inj he).2).1

/-- Neither is it one of the words that `strtod` knows. -/
theorem stripWord_word {r w : Str} {x : Char} (hx : x.isAlpha = true) :
    stripWord (x :: w) (d.unsigned ++ r) = none := by
  obtain ⟨c, s, hs, hc⟩ := d.exists_head
  obtain ⟨hlower, halpha, -⟩ := head_facts hc
  rw [hs, List.cons_append]
  refine stripWord_cons_ne ?_
  rw [hlower]
  rintro rfl
  rw [hx] at halpha
  cases halpha

/-! ### The parts that are read -/

/-- An exponent begins with its marker. -/
theorem head_exponentText {r : Str} (hr : Stops r) {c : Char}
    (h : (d.exponentText ++ r).head? = some c) : c.isDigit = false ∧ c ≠ '.' := by
  unfold exponentText at h
  cases he : d.exponent with
  | none =>
      rw [he] at h
      obtain ⟨halnum, hne⟩ := hr.head c h
      exact ⟨(Bool.or_eq_false_iff.mp halnum).2, hne⟩
  | some e =>
      rw [he] at h
      obtain rfl : e.marker = c := Option.some.inj h
      rcases e.isMarker with hm | hm <;> rw [hm] <;> decide

/-- **The digits** are read up to the exponent. -/
theorem mantissa_unsigned {r : Str} (hr : Stops r) :
    mantissa 10 Char.isDigit (fun c => c.toNat - 48) (d.unsigned ++ r) =
      some ((digitsValue (d.whole ++ d.places) : ℚ) / 10 ^ d.places.length, d.exponentText ++ r) := by
  have hvalue : (d.whole ++ d.places).foldl (fun n c => 10 * n + (c.toNat - 48)) 0 =
      digitsValue (d.whole ++ d.places) := by
    rw [digitsValue, places, List.takeWhile_eq_self_iff.mpr d.isDigit]
    rfl
  have hrest := fun c h => (d.head_exponentText hr (c := c) h)
  -- the digits in front end at the point, or at what follows the number
  have hcut : (d.unsigned ++ r).takeWhile Char.isDigit = d.whole ∧
      (d.unsigned ++ r).dropWhile Char.isDigit = d.pointText ++ (d.exponentText ++ r) := by
    rw [unsigned, List.append_assoc, List.append_assoc]
    refine takeWhile_stops d.isDigit_whole fun c hc => ?_
    unfold pointText at hc
    cases hp : d.point with
    | none =>
        rw [hp] at hc
        exact (hrest c hc).1
    | some ds =>
        rw [hp] at hc
        obtain rfl : '.' = c := Option.some.inj hc
        rfl
  have hne : ¬ (d.whole = [] ∧ d.places = []) := by
    rintro ⟨hw, hp⟩
    refine d.ne_nil ?_
    rw [hw]
    exact hp
  rw [mantissa, hcut.1, hcut.2]
  cases hp : d.point with
  | none =>
      have hplaces : d.places = [] := by rw [places, hp]; rfl
      rw [hplaces] at hne hvalue ⊢
      rw [pointText, hp, Option.elim_none, List.nil_append]
      cases hx : d.exponentText ++ r with
      | nil => simp_all
      | cons c t =>
          have hc : c ≠ '.' := (hrest c (by rw [hx]; rfl)).2
          simp_all
  | some ds =>
      have hplaces : d.places = ds := by rw [places, hp]; rfl
      obtain ⟨htake, hdrop⟩ := takeWhile_stops d.isDigit_places fun c h => (hrest c h).1
      rw [hplaces] at hne hvalue htake hdrop ⊢
      rw [pointText, hp, Option.elim_some, List.cons_append]
      simp only [htake, hdrop, hne, if_false, hvalue]
      norm_num

/-- **The exponent** is read. -/
theorem exponent_text {r : Str} (hr : Stops r) :
    Cxx.exponent 'e' (d.exponentText ++ r) = (d.exponent.elim 0 Exponent.value, r) := by
  cases he : d.exponent with
  | none =>
      rw [exponentText, he]
      simp only [Option.elim_none, List.nil_append]
      cases hr' : r with
      | nil => rfl
      | cons c t =>
          have hc := (hr.head c (by rw [hr']; rfl)).1
          have hne : c.toLower ≠ 'e' := by
            rw [toLower_of_not_alphanum hc]
            rintro rfl
            cases hc
          simp [Cxx.exponent, hne]
  | some e =>
      rw [exponentText, he]
      have hmark : e.marker.toLower = 'e' := by
        rcases e.isMarker with hm | hm <;> rw [hm] <;> decide
      have hstop : ∀ c, r.head? = some c → c.isDigit = false := fun c hc =>
        (Bool.or_eq_false_iff.mp (hr.head c hc).1).2
      obtain ⟨htake, hdrop⟩ := takeWhile_stops e.isDigit hstop
      have hval : digitsValue (e.digits ++ r) = digitsValue e.digits := digitsValue_append _ hstop
      simp only [Option.elim_some, Exponent.text, List.cons_append, List.append_assoc, Cxx.exponent,
        hmark]
      -- without a sign the first digit is no sign either
      cases hs : e.sign with
      | none =>
          obtain ⟨c, s, hc⟩ := List.exists_cons_of_ne_nil e.ne_nil
          have hdigit := e.isDigit c (by rw [hc]; exact List.mem_cons_self)
          have hm : c ≠ '-' := by
            rintro rfl
            cases hdigit
          have hp : c ≠ '+' := by
            rintro rfl
            cases hdigit
          rw [hc, List.cons_append] at htake hdrop hval
          simp [Sign.text, Exponent.value, hs, hc, htake, hdrop, hval, hm, hp]
      | plus => simp [Sign.text, Exponent.value, hs, htake, hdrop, hval, e.ne_nil]
      | minus => simp [Sign.text, Exponent.value, hs, htake, hdrop, hval, e.ne_nil]

/-- **A numeral is read to its end.** -/
theorem strtod_text (round : Rounding) {b r : Str} (hb : ∀ c ∈ b, isSpace c = true) (hr : Stops r) :
    strtod round (b ++ (d.text ++ r)) = (.ofMag round d.neg d.mag, r) := by
  obtain ⟨c, s, hs, hc⟩ := d.exists_head
  obtain ⟨-, -, hspace, hminus, hplus⟩ := head_facts hc
  have hzero : cStr (b ++ (d.text ++ r)) = b ++ (d.text ++ r) := by
    refine before_of_notMem fun h => ?_
    rcases List.mem_append.mp h with h | h
    · cases hb _ h
    rcases List.mem_append.mp h with h | h
    · rcases List.mem_append.mp h with h | h
      · revert h
        cases d.sign <;> decide
      · rcases d.mem_unsigned h with h | h
        · cases h
        · revert h
          decide
    · exact hr.zero h
  have hdrop : (b ++ (d.text ++ r)).dropWhile isSpace = d.sign.text ++ (d.unsigned ++ r) := by
    rw [text, List.append_assoc]
    refine (takeWhile_stops hb fun x hx => ?_).2
    cases hsign : d.sign <;> rw [hsign] at hx
    · rw [hs] at hx
      obtain rfl : c = x := Option.some.inj hx
      exact hspace
    · obtain rfl : '+' = x := Option.some.inj hx
      rfl
    · obtain rfl : '-' = x := Option.some.inj hx
      rfl
  -- the text is none of the words that `strtod` reads, and not hexadecimal
  have hinf := d.stripWord_word (r := r) (x := 'i') (w := ['n', 'f', 'i', 'n', 'i', 't', 'y'])
    (by decide)
  have hinf' := d.stripWord_word (r := r) (x := 'i') (w := ['n', 'f']) (by decide)
  have hnan := d.stripWord_word (r := r) (x := 'n') (w := ['a', 'n']) (by decide)
  have hhex := d.stripWord_hex hr
  have hmant := d.mantissa_unsigned hr
  have hexp := d.exponent_text hr
  rw [strtod, hzero, hdrop]
  cases hsign : d.sign
  · rw [hs, List.cons_append] at hinf hinf' hnan hhex hmant
    simp [hs, Sign.text, neg, mag, hsign, hminus, hplus, hinf, hinf', hnan, hhex, hmant, hexp]
  · simp [Sign.text, neg, mag, hsign, hinf, hinf', hnan, hhex, hmant, hexp]
  · simp [Sign.text, neg, mag, hsign, hinf, hinf', hnan, hhex, hmant, hexp]

end Decimal

/-! ### Writing -/

theorem roundEven_neg (q : ℚ) : roundEven (-q) = -roundEven q := by
  have hfract : Int.fract q = q - ⌊q⌋ := rfl
  have hlt := Int.fract_lt_one q
  have hnonneg := Int.fract_nonneg q
  by_cases hz : Int.fract q = 0
  · have hq : q = (⌊q⌋ : ℚ) := by linarith
    have hneg : -q = ((-⌊q⌋ : ℤ) : ℚ) := by
      push_cast
      linarith
    rw [roundEven, roundEven, hneg, Int.floor_intCast]
    simp only [sub_self]
    rw [← hfract, hz]
    norm_num
  · have hfloor : ⌊-q⌋ = -⌊q⌋ - 1 := by
      rw [Int.floor_eq_iff]
      have hpos : 0 < Int.fract q := lt_of_le_of_ne hnonneg (Ne.symm hz)
      push_cast
      constructor <;> linarith
    have hdiff : -q - (⌊-q⌋ : ℚ) = 1 - (q - ⌊q⌋) := by
      rw [hfloor]
      push_cast
      ring
    simp only [roundEven, hdiff]
    rw [hfloor]
    split_ifs <;> first | omega | linarith

theorem roundEven_value (d : Decimal) (k : ℕ) : roundEven (d.value * 10 ^ k) =
    if d.neg then -roundEven (d.mag * 10 ^ k) else roundEven (d.mag * 10 ^ k) := by
  unfold Decimal.value
  split
  · rw [neg_mul, roundEven_neg]
  · rfl

/-- Two numbers are rounded to one where their scaled values are. -/
theorem roundTo_eq_iff {p : Int} {q r : ℚ} : roundTo p q = roundTo p r ↔
    roundEven (q * 10 ^ places p) = roundEven (r * 10 ^ places p) := by
  have hpow : (10 : ℚ) ^ places p ≠ 0 := by positivity
  rw [roundTo, roundTo, div_left_inj' hpow, Int.cast_inj]

theorem roundTo_eq_zero {p : Int} {q : ℚ} :
    roundTo p q = 0 ↔ roundEven (q * 10 ^ places p) = 0 := by
  have hpow : (10 : ℚ) ^ places p ≠ 0 := by positivity
  rw [roundTo, div_eq_zero_iff, Int.cast_eq_zero, or_iff_left hpow]

theorem putFixed_neg {p : Int} {a b : Bool} {q r : ℚ}
    (h : putFixed p (.finite a q) = putFixed p (.finite b r)) : a = b := by
  have hdigit : ∀ (n : ℕ) (s t : Str), dec n ++ s ≠ '-' :: t := by
    intro n s t he
    obtain ⟨c, u, hc⟩ := List.exists_cons_of_ne_nil (dec_ne_nil n)
    rw [hc] at he
    obtain rfl := (List.cons.inj he).1
    cases isDigit_of_mem_dec (n := n) (c := '-') (by rw [hc]; exact List.mem_cons_self)
  cases a <;> cases b
  · rfl
  · simp only [putFixed, sign, List.append_assoc] at h
    exact absurd h (hdigit _ _ _)
  · simp only [putFixed, sign, List.append_assoc] at h
    exact absurd h.symm (hdigit _ _ _)
  · rfl

/-- The sign of a written number shows, also that of a zero. -/
theorem putFixed_eq_iff (p : Int) {d e : Decimal} (h : roundTo p d.value = roundTo p e.value) :
    putFixed p (.finite d.neg d.mag) = putFixed p (.finite e.neg e.mag) ↔
      d.neg = e.neg ∨ roundTo p d.value ≠ 0 := by
  have hround := roundTo_eq_iff.mp h
  have hd : 0 ≤ roundEven (d.mag * 10 ^ places p) :=
    roundEven_nonneg (mul_nonneg d.mag_nonneg (by positivity))
  have he : 0 ≤ roundEven (e.mag * 10 ^ places p) :=
    roundEven_nonneg (mul_nonneg e.mag_nonneg (by positivity))
  rw [roundEven_value, roundEven_value] at hround
  constructor
  · exact fun heq => .inl (putFixed_neg heq)
  · intro hcond
    have hneg : d.neg = e.neg := by
      rcases hcond with hneg | hne
      · exact hneg
      · rw [ne_eq, roundTo_eq_zero, roundEven_value] at hne
        cases hdn : d.neg <;> cases hen : e.neg <;> simp only [hdn, hen, if_true, if_false,
          Bool.false_eq_true] at hround hne ⊢ <;> omega
    have hmag : roundEven (d.mag * 10 ^ places p) = roundEven (e.mag * 10 ^ places p) := by
      rw [hneg] at hround
      split at hround
      · omega
      · exact hround
    simp only [putFixed, hneg, hmag]

end Cxx
