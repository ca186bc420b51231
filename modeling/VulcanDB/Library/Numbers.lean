import Mathlib.Data.Rat.Floor
import VulcanDB.Library.CxxString

/-!
# Library — Numbers read from and written to text

`atoi` is the C library's: the value of `strtol`, which saturates at the ends of `long`, cut to
the 32 bits of an `int`.  `strtod` reads a number, rounds its exact value to one that a `double`
has (`Rounding`), and gives the text it stopped at; `putFixed` is a stream's `fixed` output of it.

* `atoi_dec`: a written number up to `INT_MAX` is read back, whatever follows it.
* `putFixed_plain`: a written number is not empty and has no blank, comma, parenthesis, `#` or `=`.
* `putFixed_strtod_zero`: a number written without a fraction is read and written again, if the
  rounding keeps it.
-/

namespace Cxx

/-- `INT_MAX`. -/
def INT_MAX : Nat := 2 ^ 31 - 1

/-- `isspace`. -/
def isSpace (c : Char) : Bool := c == ' ' || (9 ≤ c.toNat && c.toNat ≤ 13)

/-- The conversion to `int`. -/
def asInt (n : ℤ) : ℤ := n.bmod (2 ^ 32)

/-- A short length is the same as an `int`. -/
theorem asInt_short {n : ℤ} (h₀ : -1 ≤ n) (h : n < 2 ^ 31) : asInt n = n := by
  rw [asInt, Int.bmod_eq_of_le] <;> omega

/-- What is lost is a multiple of `2 ^ 32`. -/
theorem asInt_wraps (n : ℕ) : ∃ k : ℤ, (n : ℤ) = asInt n + k * 2 ^ 32 ∧ asInt n < 2 ^ 31 := by
  rw [asInt, Int.bmod_def]
  refine ⟨if (n : ℤ) % (2 ^ 32 : ℕ) < ((2 ^ 32 : ℕ) + 1) / 2 then n / 2 ^ 32
    else n / 2 ^ 32 + 1, ?_⟩
  split <;> omega

/-- The sum `n + 1` of an `int`, which wraps at the largest one only. -/
theorem asInt_succ (n : ℤ) :
    asInt (asInt n + 1) = if asInt n + 1 = 2 ^ 31 then -2 ^ 31 else asInt n + 1 := by
  have hlow : -2 ^ 31 ≤ asInt n := by
    rw [asInt, Int.bmod_def]
    split <;> omega
  have hhigh : asInt n < 2 ^ 31 := by
    rw [asInt, Int.bmod_def]
    split <;> omega
  split
  · rename_i hmax
    rw [hmax]
    rfl
  · rw [asInt, Int.bmod_eq_of_le] <;> omega

/-- The text a `const char *` ends at its first zero byte. -/
def cStr (s : Str) : Str := before '\x00' s

/-! ### Integers -/

/-- The number that the leading digits stand for. -/
def digitsValue (s : Str) : Nat := Nat.ofDigitChars 10 (s.takeWhile Char.isDigit) 0

/-- `strtol(s, nullptr, 10)`, with a 64-bit `long`. -/
def strtol (s : Str) : Int :=
  match s.dropWhile isSpace with
  | '-' :: t => max (-2 ^ 63) (-(digitsValue t : Int))
  | '+' :: t => min (2 ^ 63 - 1) (digitsValue t : Int)
  | t => min (2 ^ 63 - 1) (digitsValue t : Int)

/-- `atoi(s)`. -/
def atoi (s : Str) : Int := (strtol s).bmod (2 ^ 32)

/-- `str_to_val(s, val)` for an `int`: 0 where the stream fails, also for a number out of range. -/
def strToVal (s : Str) : Int :=
  if -2 ^ 31 ≤ strtol s ∧ strtol s ≤ INT_MAX then strtol s else 0

/-- The decimal digits of a number. -/
def dec (n : Nat) : Str := Nat.toDigits 10 n

/-- A number as `<<` writes an `int`. -/
def decInt : Int → Str
  | .ofNat n => dec n
  | .negSucc n => '-' :: dec (n + 1)

@[simp] theorem decInt_natCast (n : Nat) : decInt (n : Int) = dec n := rfl

theorem isDigit_of_mem_dec {n : Nat} {c : Char} (h : c ∈ dec n) : c.isDigit = true :=
  Nat.isDigit_of_mem_toDigits (by decide) (by decide) h

theorem dec_ne_nil (n : Nat) : dec n ≠ [] := Nat.toDigits_ne_nil

/-- Different numbers have different digits. -/
theorem dec_injective {m n : Nat} (h : dec m = dec n) : m = n := by
  have := congrArg (Nat.ofDigitChars 10 · 0) h
  simpa [dec] using this

theorem isDigit_toNat {c : Char} (h : c.isDigit = true) : 48 ≤ c.toNat ∧ c.toNat ≤ 57 := by
  simp only [Char.isDigit, Bool.and_eq_true, decide_eq_true_eq] at h
  exact ⟨UInt32.le_iff_toNat_le.mp h.1, UInt32.le_iff_toNat_le.mp h.2⟩

theorem isSpace_eq_false_of_isDigit {c : Char} (h : c.isDigit = true) : isSpace c = false := by
  have := isDigit_toNat h
  have h₁ : c ≠ ' ' := by rintro rfl; simp at this
  simp [isSpace, h₁]
  omega

/-- Only the digits a text begins with count. -/
theorem digitsValue_append (s : Str) {t : Str} (ht : ∀ c, t.head? = some c → c.isDigit = false) :
    digitsValue (s ++ t) = digitsValue s := by
  have hp : (s ++ t).takeWhile Char.isDigit = s.takeWhile Char.isDigit := by
    induction s with
    | nil =>
        cases t with
        | nil => rfl
        | cons c t => simp [ht c rfl]
    | cons c s ih =>
        rw [List.cons_append, List.takeWhile_cons, List.takeWhile_cons, ih]
  rw [digitsValue, digitsValue, hp]

theorem digitsValue_dec (n : Nat) : digitsValue (dec n) = n := by
  rw [digitsValue, List.takeWhile_eq_self_iff.mpr fun c => isDigit_of_mem_dec, dec,
    Nat.ofDigitChars_ten_toDigits]

/-- Digits are read up to the first character that is not one. -/
theorem strtol_digits {ds t : Str} (hne : ds ≠ []) (hd : ∀ c ∈ ds, c.isDigit = true)
    (ht : ∀ c, t.head? = some c → c.isDigit = false) :
    strtol (ds ++ t) = min (2 ^ 63 - 1) (digitsValue ds : Int) := by
  obtain ⟨c, s, rfl⟩ := List.exists_cons_of_ne_nil hne
  have hc : c.isDigit = true := hd c (by simp)
  have hne : c ≠ '-' ∧ c ≠ '+' := by
    constructor <;> rintro rfl <;> simp at hc
  rw [strtol, List.cons_append,
    List.dropWhile_cons_of_neg (by simp [isSpace_eq_false_of_isDigit hc])]
  split
  · simp_all
  · simp_all
  · rw [← List.cons_append, digitsValue_append _ ht]

/-- Blanks in front of a number are skipped. -/
theorem strtol_spaces {b : Str} (hb : ∀ c ∈ b, isSpace c = true) (s : Str) :
    strtol (b ++ s) = strtol s := by
  rw [strtol, strtol, List.dropWhile_append_of_pos hb]

/-- **`atoi`** on digits that an `int` holds. -/
theorem atoi_digits {ds t : Str} (hne : ds ≠ []) (hd : ∀ c ∈ ds, c.isDigit = true)
    (hv : digitsValue ds ≤ INT_MAX) (ht : ∀ c, t.head? = some c → c.isDigit = false) :
    atoi (ds ++ t) = digitsValue ds := by
  have hv' : digitsValue ds ≤ 2147483647 := hv
  rw [atoi, strtol_digits hne hd ht, Int.bmod_eq_of_le] <;> omega

/-- A written number is read back, up to the first character that is not a digit. -/
theorem atoi_dec {n : Nat} (hn : n ≤ INT_MAX) {t : Str}
    (ht : ∀ c, t.head? = some c → c.isDigit = false) : atoi (dec n ++ t) = n := by
  have h := digitsValue_dec n
  rw [atoi_digits (dec_ne_nil n) (fun c => isDigit_of_mem_dec) (by omega) ht, h]

/-! ### Reals -/

/-- A value of type `double`. -/
inductive Double where
  | finite (neg : Bool) (mag : ℚ)
  | inf (neg : Bool)
  | nan (neg : Bool)

/-- How the exact magnitude of a number is rounded to one of a type; `none` is out of its range. -/
abbrev Rounding := ℚ → Option ℚ

/-- Every value is kept. -/
def unrounded : Rounding := some

/-- A number of this sign and exact magnitude, as a value of the type. -/
def Double.ofMag (round : Rounding) (neg : Bool) (q : ℚ) : Double :=
  match round q with
  | some x => .finite neg x
  | none => .inf neg

/-- The rest of `s` after `w`, read without regard to case (`w` is in lower case). -/
def stripWord (w s : Str) : Option Str :=
  if (s.take w.length).map Char.toLower = w then some (s.drop w.length) else none

/-- `isxdigit`. -/
def isHexDigit (c : Char) : Bool := c.isDigit || (c.toLower.toNat - 'a'.toNat < 6 && c.isAlpha)

/-- The value of such a digit. -/
def hexValue (c : Char) : Nat :=
  if c.isDigit then c.toNat - '0'.toNat else c.toLower.toNat - 'a'.toNat + 10

/-- The mantissa `digits[.digits]` of a number in base `b`: its value and the rest, if there is
a digit at all. -/
def mantissa (b : Nat) (isD : Char → Bool) (val : Char → Nat) (s : Str) : Option (ℚ × Str) :=
  let ip := s.takeWhile isD
  let (fp, t) := match s.dropWhile isD with
    | '.' :: r => (r.takeWhile isD, r.dropWhile isD)
    | r => ([], r)
  if ip = [] ∧ fp = [] then none
  else some ((((ip ++ fp).foldl (fun n c => b * n + val c) 0 : Nat) : ℚ) / (b : ℚ) ^ fp.length, t)

/-- The optional exponent after a mantissa: its value and the rest. -/
def exponent (marker : Char) (s : Str) : Int × Str :=
  match s with
  | e :: r =>
    if e.toLower ≠ marker then (0, s)
    else
      let (neg, r') := match r with
        | '-' :: r' => (true, r')
        | '+' :: r' => (false, r')
        | _ => (false, r)
      if (r'.takeWhile Char.isDigit) = [] then (0, s)
      else (if neg then -(digitsValue r' : Int) else digitsValue r', r'.dropWhile Char.isDigit)
  | [] => (0, s)

/-- `strtod(s, &ptr)`: the value, and the text `ptr` is left at. -/
def strtod (round : Rounding) (s : Str) : Double × Str :=
  let s := cStr s
  let (neg, t) := match s.dropWhile isSpace with
    | '-' :: t => (true, t)
    | '+' :: t => (false, t)
    | t => (false, t)
  match stripWord "infinity".toList t, stripWord "inf".toList t, stripWord "nan".toList t with
  | some r, _, _ => (.inf neg, r)
  | none, some r, _ => (.inf neg, r)
  | none, none, some r =>
    match r with
    | '(' :: r' =>
      match r'.dropWhile (fun c => c.isAlphanum || c == '_') with
      | ')' :: r'' => (.nan neg, r'')
      | _ => (.nan neg, r)
    | _ => (.nan neg, r)
  | none, none, none =>
    match (stripWord "0x".toList t).bind (mantissa 16 isHexDigit hexValue) with
    | some (m, r) =>
      let (e, r') := exponent 'p' r
      (.ofMag round neg (m * 2 ^ e), r')
    | none =>
      match mantissa 10 Char.isDigit (fun c => c.toNat - '0'.toNat) t with
      | some (m, r) =>
        let (e, r') := exponent 'e' r
        (.ofMag round neg (m * 10 ^ e), r')
      | none => (.finite false 0, s)

/-- The integer next to `q`, the even one when two are as near. -/
def roundEven (q : ℚ) : Int :=
  let f := ⌊q⌋
  if q - f < 1 / 2 then f
  else if 1 / 2 < q - f then f + 1
  else if f % 2 = 0 then f else f + 1

/-- The places after the point that `os.precision(p)` asks for.  A negative precision is 6. -/
def places (p : Int) : Nat := if p < 0 then 6 else p.toNat

/-- The point and `k` digits of the fraction `n / 10^k`. -/
def fraction (k n : Nat) : Str :=
  if k = 0 then [] else '.' :: (List.replicate (k - (dec n).length) '0' ++ dec n)

/-- A minus, or nothing. -/
def sign (neg : Bool) : Str := if neg then ['-'] else []

/-- `os << d` after `os.setf(ios::fixed); os.precision(p)`. -/
def putFixed (p : Int) : Double → Str
  | .finite neg mag =>
    let n := (roundEven (mag * 10 ^ places p)).toNat
    sign neg ++ dec (n / 10 ^ places p) ++ fraction (places p) (n % 10 ^ places p)
  | .inf neg => sign neg ++ ['i', 'n', 'f']
  | .nan neg => sign neg ++ ['n', 'a', 'n']

/-- The characters that a text format built on lines, lists and references gives a meaning. -/
def isMark (c : Char) : Bool := c ∈ [' ', '\n', ',', '(', ')', '#', '=']

/-- A character that is no mark of the format. -/
def PlainChar (c : Char) : Prop := isMark c = false

instance (c : Char) : Decidable (PlainChar c) := by unfold PlainChar; infer_instance

/-- A token without marks. -/
def Plain (s : Str) : Prop := s ≠ [] ∧ ∀ c ∈ s, PlainChar c

theorem PlainChar.ne {c d : Char} (h : PlainChar c) (hd : isMark d = true) : c ≠ d := by
  rintro rfl
  rw [PlainChar, hd] at h
  cases h

theorem plainChar_of_isDigit {c : Char} (h : c.isDigit = true) : PlainChar c := by
  rw [PlainChar, Bool.eq_false_iff]
  intro hm
  simp only [isMark, List.mem_cons, List.not_mem_nil, or_false, decide_eq_true_eq] at hm
  rcases hm with rfl | rfl | rfl | rfl | rfl | rfl | rfl <;> cases h

theorem dec_plain (n : Nat) : Plain (dec n) :=
  ⟨dec_ne_nil n, fun _ hc => plainChar_of_isDigit (isDigit_of_mem_dec hc)⟩

theorem plain_append {s t : Str} (hs : ∀ c ∈ s, PlainChar c) (ht : Plain t) : Plain (s ++ t) :=
  ⟨by simp [ht.1], fun c hc => (List.mem_append.mp hc).elim (hs c) (ht.2 c)⟩

theorem sign_plain (neg : Bool) : ∀ c ∈ sign neg, PlainChar c := by
  cases neg <;> decide

theorem fraction_plain (k n : Nat) : ∀ c ∈ fraction k n, PlainChar c := by
  intro c hc
  unfold fraction at hc
  split at hc
  · cases hc
  · rcases List.mem_cons.mp hc with rfl | hc
    · decide
    · rcases List.mem_append.mp hc with hc | hc
      · obtain rfl := List.eq_of_mem_replicate hc
        decide
      · exact (dec_plain n).2 c hc

/-- **A printed number is plain**. -/
theorem putFixed_plain (p : Int) (d : Double) : Plain (putFixed p d) := by
  cases d with
  | finite neg mag =>
      rw [putFixed]
      have h := plain_append (sign_plain neg) (dec_plain
        ((roundEven (mag * 10 ^ places p)).toNat / 10 ^ places p))
      refine ⟨by simp [dec_ne_nil], fun c hc => ?_⟩
      exact (List.mem_append.mp hc).elim (h.2 c) (fraction_plain _ _ c)
  | inf neg => exact plain_append (sign_plain neg) ⟨by decide, by decide⟩
  | nan neg => exact plain_append (sign_plain neg) ⟨by decide, by decide⟩

/-! ### A number written without a fraction is read back -/

theorem stripWord_of_digits {w s : Str} (hs : ∀ c ∈ s, c.isDigit = true)
    (hw : ∃ c ∈ w, c.isDigit = false) : stripWord w s = none := by
  rw [stripWord, if_neg]
  intro he
  obtain ⟨c, hc, hdigit⟩ := hw
  rw [← he] at hc
  obtain ⟨d, hd, rfl⟩ := List.mem_map.mp hc
  have hdd := hs d (List.mem_of_mem_take hd)
  have hlower : d.toLower = d := dif_neg fun hA => by
    have := (isDigit_toNat hdd).2
    have : 65 ≤ d.toNat := UInt32.le_iff_toNat_le.mp hA.1
    omega
  rw [hlower, hdd] at hdigit
  cases hdigit

theorem mantissa_dec (n : Nat) :
    mantissa 10 Char.isDigit (fun c => c.toNat - 48) (dec n) = some ((n : ℚ), []) := by
  have htake : (dec n).takeWhile Char.isDigit = dec n :=
    List.takeWhile_eq_self_iff.mpr fun c => isDigit_of_mem_dec
  have hdrop : (dec n).dropWhile Char.isDigit = [] :=
    List.dropWhile_eq_nil_iff.mpr fun c => isDigit_of_mem_dec
  have hvalue : (dec n).foldl (fun k c => 10 * k + (c.toNat - 48)) 0 = n := by
    have := digitsValue_dec n
    rw [digitsValue, htake] at this
    exact this
  simp only [mantissa, htake, hdrop, List.append_nil, hvalue, dec_ne_nil]
  simp

/-- **`strtod`** on a whole number with its sign. -/
theorem strtod_signed (round : Rounding) (neg : Bool) (n : Nat) :
    strtod round (sign neg ++ dec n) = (.ofMag round neg n, []) := by
  have hd : ∀ c ∈ dec n, c.isDigit = true := fun c => isDigit_of_mem_dec
  have hstr : cStr (sign neg ++ dec n) = sign neg ++ dec n := by
    refine before_of_notMem fun h => ?_
    rcases List.mem_append.mp h with h | h
    · revert h
      cases neg <;> decide
    · cases hd _ h
  obtain ⟨c, s, hc⟩ := List.exists_cons_of_ne_nil (dec_ne_nil n)
  have hcd : c.isDigit = true := hd c (by simp [hc])
  have hinf := stripWord_of_digits (w := ['i', 'n', 'f', 'i', 'n', 'i', 't', 'y']) hd
    ⟨'i', by decide, rfl⟩
  have hinf' := stripWord_of_digits (w := ['i', 'n', 'f']) hd ⟨'i', by decide, rfl⟩
  have hnan := stripWord_of_digits (w := ['n', 'a', 'n']) hd ⟨'n', by decide, rfl⟩
  have hhex := stripWord_of_digits (w := ['0', 'x']) hd ⟨'x', by decide, rfl⟩
  have hexp : exponent 'e' [] = (0, []) := rfl
  cases neg with
  | true =>
      have hdrop : (sign true ++ dec n).dropWhile isSpace = '-' :: dec n := rfl
      simp only [strtod, hstr, hdrop]
      simp [hinf, hinf', hnan, hhex, mantissa_dec, hexp]
  | false =>
      have hdrop : (sign false ++ dec n).dropWhile isSpace = dec n := by
        rw [sign, if_neg (by simp), List.nil_append, hc,
          List.dropWhile_cons_of_neg (by simp [isSpace_eq_false_of_isDigit hcd])]
      have hminus : c ≠ '-' := by rintro rfl; cases hcd
      have hplus : c ≠ '+' := by rintro rfl; cases hcd
      have hm := mantissa_dec n
      rw [hc] at hdrop hinf hinf' hnan hhex hm hstr
      rw [hc]
      simp only [strtod, hstr, hdrop]
      simp [hminus, hplus, hinf, hinf', hnan, hhex, hm, hexp]

theorem roundEven_intCast (n : Int) : roundEven (n : ℚ) = n := by
  simp [roundEven]

theorem roundEven_nonneg {q : ℚ} (h : 0 ≤ q) : 0 ≤ roundEven q := by
  have := Int.floor_nonneg.mpr h
  simp only [roundEven]
  split_ifs <;> omega

/-- What is rounded to a whole number is a value of the type again. -/
def Rounding.Settled (round : Rounding) : Prop :=
  round 0 = some 0 ∧ ∀ q x, 0 ≤ q → round q = some x →
    round (roundEven x).toNat = some ((roundEven x).toNat : ℚ)

theorem mantissa_nonneg {b : Nat} {isD : Char → Bool} {val : Char → Nat} {s r : Str} {m : ℚ}
    (h : mantissa b isD val s = some (m, r)) : 0 ≤ m := by
  have hpart : ∀ {fp : Str} {n : Nat} {t : Str} {c : Prop} [Decidable c],
      (if c then none else some ((n : ℚ) / (b : ℚ) ^ fp.length, t)) = some (m, r) → 0 ≤ m := by
    intro fp n t c _ hpair
    split at hpair
    · cases hpair
    · rw [← (Prod.mk.inj (Option.some.inj hpair)).1]
      positivity
  exact hpart h

/-- A finite value is 0 or a rounded one. -/
theorem strtod_finite {round : Rounding} {s : Str} {neg : Bool} {x : ℚ}
    (h : (strtod round s).1 = .finite neg x) : x = 0 ∨ ∃ q, 0 ≤ q ∧ round q = some x := by
  have hof : ∀ {neg' : Bool} {q : ℚ}, 0 ≤ q → Double.ofMag round neg' q = .finite neg x →
      ∃ q, 0 ≤ q ∧ round q = some x := by
    intro neg' q hq hfinite
    rw [Double.ofMag] at hfinite
    split at hfinite
    · rename_i y hy
      obtain ⟨-, rfl⟩ := Double.finite.inj hfinite
      exact ⟨q, hq, hy⟩
    · cases hfinite
  unfold strtod at h
  simp only at h
  split at h
  · cases h
  · cases h
  · split at h
    · split at h <;> cases h
    · cases h
  · split at h
    · rename_i m r hm
      obtain ⟨t, -, ht⟩ := Option.bind_eq_some_iff.mp hm
      exact .inr (hof (mul_nonneg (mantissa_nonneg ht) (by positivity)) h)
    · split at h
      · rename_i m r hm
        exact .inr (hof (mul_nonneg (mantissa_nonneg hm) (by positivity)) h)
      · exact .inl (Double.finite.inj h).2.symm

/-- What is written without a fraction is read as a value that is written the same. -/
theorem putFixed_strtod_zero {round : Rounding} (hround : round.Settled) (s : Str) :
    let d := (strtod round s).1
    (strtod round (putFixed 0 d)).2 = [] ∧
      putFixed 0 (strtod round (putFixed 0 d)).1 = putFixed 0 d := by
  intro d
  cases hd : d with
  | finite neg mag =>
      have hput : ∀ q : ℚ, putFixed 0 (.finite neg q) = sign neg ++ dec (roundEven q).toNat := by
        intro q
        simp [putFixed, places, fraction]
      have hkept : round (roundEven mag).toNat = some ((roundEven mag).toNat : ℚ) := by
        rcases strtod_finite hd with rfl | ⟨q, hq, hmag⟩
        · exact (roundEven_intCast 0).symm ▸ hround.1
        · exact hround.2 q mag hq hmag
      have hagain : roundEven ((roundEven mag).toNat : ℚ) = (roundEven mag).toNat :=
        roundEven_intCast (roundEven mag).toNat
      rw [hput, strtod_signed, Double.ofMag, hkept]
      exact ⟨rfl, by rw [hput, hagain]; rfl⟩
  | inf neg => cases neg <;> exact ⟨rfl, rfl⟩
  | nan neg => cases neg <;> exact ⟨rfl, rfl⟩

example : putFixed 2 (strtod unrounded "-0.125e1".toList).1 = "-1.25".toList := by decide +kernel

end Cxx
