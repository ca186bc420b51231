import VulcanDB.Ifcparse.CharacterDecoder
import VulcanDB.Library.Positional

/-!
# Ifcparse — Strings written and read

`IfcCharacterEncoder` writes a text between quotes: a quote and a reverse solidus twice, and each
run of other characters outside `0x20..0x7e` in hexadecimal between `\X2\` or `\X4\` and `\X0\`.

* `decode_loop`: the decoder on what the loop of the encoder writes, by induction on the text.
* `get_encode`: the text comes back, byte for byte, wherever the file breaks its lines.
-/

namespace VulcanDB.Ifcparse

open Cxx Positional

/-! ### The encoder -/

/-- `WITHIN_SPF`. -/
def withinSpfRange (ch : Char) : Bool := 0x20 ≤ ch.toNat && ch.toNat ≤ 0x7e

/-- `num_bytes`: whether the greatest character of the text needs more than two. -/
def numBytes (str : Str) : ℕ :=
  if str = [] ∨ str.any fun ch => 0xffff < ch.toNat then 4 else 2

/-- A number after `std::setw` and `std::setfill('0')`. -/
def setw (width : ℕ) (digits : Str) : Str :=
  List.replicate (width - digits.length) '0' ++ digits

/-- The loop of `IfcCharacterEncoder::operator std::string`, and what it closes. -/
def encodeLoop (numBytes : ℕ) : Bool → Str → Str
  | inExtended, [] => if inExtended then "\\X0\\".toList else []
  | inExtended, ch :: str =>
    (if inExtended && withinSpfRange ch then "\\X0\\".toList
      else if !inExtended && !withinSpfRange ch then
        "\\X".toList ++ [Char.ofNat (numBytes + 0x30)] ++ "\\".toList
      else []) ++
    (if withinSpfRange ch then ch :: if ch = '\\' ∨ ch = '\'' then [ch] else []
      else setw (numBytes * 2) (hexText upperDigit ch.toNat)) ++
    encodeLoop numBytes (!withinSpfRange ch) str

/-- `IfcCharacterEncoder` of a text. -/
def encode (str : Str) : Str := '\'' :: encodeLoop (numBytes str) false str ++ ['\'']

/-! ### Digits -/

/-- With its width a number has as many digits as `written` gives. -/
theorem setw_hexText {width : ℕ} (hw : 0 < width) (n : ℕ) :
    setw width (hexText upperDigit n) = (written 16 width n).map upperDigit := by
  rw [written_eq]
  by_cases hn : n = 0
  · subst hn
    obtain ⟨w, rfl⟩ := Nat.exists_eq_succ_of_ne_zero hw.ne'
    simp [setw, hexText, List.replicate_succ', show upperDigit 0 = '0' from rfl]
  · simp [setw, hexText, hn, show upperDigit 0 = '0' from rfl]

/-- An upper-case digit is read back and is no sign of the decoder. -/
theorem upperDigit_facts : ∀ d < 16, isHexadecimal (upperDigit d) = true ∧
    hexToInt (upperDigit d) = d ∧
    upperDigit d ∉ ['\x00', '\'', '\\', 'X', 'P', 'S', 'N'] := by
  decide

theorem shift_add (n d : ℕ) :
    (BitVec.ofNat 32 n <<< 4) + BitVec.ofNat 32 d = BitVec.ofNat 32 (n * 16 + d) := by
  apply BitVec.eq_of_toNat_eq
  simp [Nat.shiftLeft_eq]

/-- Below 2^31 the `int` is the number. -/
theorem toInt_ofNat_of_lt {n : ℕ} (h : n < 2 ^ 31) : (BitVec.ofNat 32 n).toInt = (n : ℤ) := by
  rw [BitVec.toInt_eq_toNat_of_lt] <;> rw [BitVec.toNat_ofNat, Nat.mod_eq_of_lt] <;> omega

/-! ### The decoder on digits -/

/-- A state in which a digit is a digit. -/
def takesHex (s : Flags) : Bool :=
  !expectsCharacter s && !expectsEndextended0 s && !expectsArbitrary2 s && !expectsNOrF s &&
    !expectsAlphabetDefinition s && expectsHex s

/-- **One digit** inside of a run. -/
theorem step_digit {s : Flags} (hs : takesHex s = true) {d : ℕ} (hd : d < 16) (k : ℕ)
    (n : ℕ) (p : ℤ) (b : List ℤ) :
    Get.step ⟨s, k, BitVec.ofNat 32 n, p, b⟩ (upperDigit d) =
      if isComplete (k + 1) (s + hexN (k + 1)) then
        if k + 1 = 2 then .next ⟨0, 0, 0, p, b ++ [(BitVec.ofNat 32 (n * 16 + d)).toInt]⟩
        else .next ⟨clearHex (s + hexN (k + 1)) ||| encounteredHex, 0, 0, p,
          b ++ [(BitVec.ofNat 32 (n * 16 + d)).toInt]⟩
      else .next ⟨s + hexN (k + 1), k + 1, BitVec.ofNat 32 (n * 16 + d), p, b⟩ := by
  obtain ⟨hx, hv, hc⟩ := upperDigit_facts d hd
  simp only [takesHex, Bool.and_eq_true, Bool.not_eq_true'] at hs
  obtain ⟨⟨⟨⟨⟨h₁, h₂⟩, h₃⟩, h₄⟩, h₅⟩, h₆⟩ := hs
  simp only [List.mem_cons, List.not_mem_nil, or_false, not_or] at hc
  simp only [Get.step, h₁, h₂, h₃, h₄, h₅, h₆, hc, hx, hv, shift_add, and_true, and_false,
    false_and, if_true, if_false, Bool.false_eq_true]

/-- The flags after `k` digits of a character. -/
def afterDigits (s : Flags) : ℕ → Flags
  | 0 => s
  | k + 1 => afterDigits s k + hexN (k + 1)

/-- The flags before each of the `width` digits of a character, and after the last. -/
structure ReadsDigits (s s' : Flags) (width : ℕ) : Prop where
  takes : ∀ k < width, takesHex (afterDigits s k) = true
  incomplete : ∀ k < width - 1, isComplete (k + 1) (afterDigits s (k + 1)) = false
  complete : isComplete width (afterDigits s width) = true
  long : 2 < width
  next : clearHex (afterDigits s width) ||| encounteredHex = s'

section
variable {s s' : Flags} {width : ℕ} {p : ℤ} {b : List ℤ}

/-- `scanText` at a character that `step` goes on from. -/
theorem scanText_next {σ : Type} {step : σ → Char → Scan σ} {st st' : σ} {c : Char}
    (hc : c ≠ '\x00') (h : step st c = .next st') (v : Str) :
    scanText step st (c :: v) = scanText step st' v := by
  rw [scanText, if_neg hc, h]

theorem upperDigit_ne_zero {d : ℕ} (hd : d < 16) : upperDigit d ≠ '\x00' := by
  have h := (upperDigit_facts d hd).2.2
  simp only [List.mem_cons, not_or] at h
  exact h.1

/-- The digits but the last. -/
theorem scan_digits (h : ReadsDigits s s' width) (v : Str) :
    ∀ (ds : List ℕ) (k n : ℕ), (∀ d ∈ ds, d < 16) → k + ds.length < width →
      scanText Get.step ⟨afterDigits s k, k, BitVec.ofNat 32 n, p, b⟩ (ds.map upperDigit ++ v) =
        scanText Get.step ⟨afterDigits s (k + ds.length), k + ds.length,
          BitVec.ofNat 32 (valueFrom 16 n ds), p, b⟩ v
  | [], _, _, _, _ => rfl
  | d :: ds, k, n, hd, hk => by
    have hd₀ : d < 16 := hd d List.mem_cons_self
    rw [List.length_cons] at hk
    have hs := step_digit (h.takes k (by omega)) hd₀ k n p b
    rw [show afterDigits s k + hexN (k + 1) = afterDigits s (k + 1) from rfl,
      h.incomplete k (by omega), if_neg Bool.false_ne_true] at hs
    have ih := scan_digits h v ds (k + 1) (n * 16 + d) (fun x hx => hd x (List.mem_cons_of_mem _ hx))
      (by omega)
    rw [List.map_cons, List.cons_append, scanText_next (upperDigit_ne_zero hd₀) hs, ih,
      List.length_cons, show k + 1 + ds.length = k + (ds.length + 1) by omega]
    rfl

/-- All digits of a character: it is appended to what is built. -/
theorem scan_character (h : ReadsDigits s s' width) {n : ℕ} (hn : n < 16 ^ width)
    (hi : n < 2 ^ 31) (v : Str) :
    scanText Get.step ⟨s, 0, 0, p, b⟩ (setw width (hexText upperDigit n) ++ v) =
      scanText Get.step ⟨s', 0, 0, p, b ++ [(n : ℤ)]⟩ v := by
  have hw := h.long
  have hlen := length_written (by norm_num) hn
  rcases List.eq_nil_or_concat' (written 16 width n) with h₀ | ⟨ds, d, hds⟩
  · rw [h₀, List.length_nil] at hlen
    omega
  have hlt : ∀ x ∈ ds ++ [d], x < 16 := fun x hx => written_lt (by norm_num) (hds ▸ hx)
  have hd : d < 16 := hlt d (by simp)
  have hk : ds.length + 1 = width := by rw [← hlen, hds, List.length_append, List.length_singleton]
  have hv : value 16 ds * 16 + d = n := by
    rw [value, ← valueFrom_concat, ← hds]
    exact value_written 16 width n
  have hs := step_digit (h.takes ds.length (by omega)) hd ds.length (value 16 ds) p b
  rw [show afterDigits s ds.length + hexN (ds.length + 1) = afterDigits s (ds.length + 1) from rfl,
    hk, h.complete, if_pos rfl, if_neg (by omega), h.next, hv,
    show (BitVec.ofNat 32 n).toInt = (n : ℤ) from toInt_ofNat_of_lt hi] at hs
  have hdigits := scan_digits (p := p) (b := b) h (upperDigit d :: v) ds 0 0
    (fun x hx => hlt x (List.mem_append_left _ hx)) (by omega)
  rw [setw_hexText (by omega), hds, List.map_append, List.append_assoc]
  rw [Nat.zero_add] at hdigits
  exact hdigits.trans (scanText_next (upperDigit_ne_zero hd) hs v)

end

/-! ### The decoder on a text -/

/-- The flags behind `\X2\` or `\X4\`. -/
def extended (numBytes : ℕ) : Flags :=
  firstSolidus + arbitrary + (if numBytes = 4 then extended2 + extended4 else extended2) +
    secondSolidus

/-- The flags behind the characters of a run, of which there is at least one. -/
def inRun (numBytes : ℕ) : Flags := extended numBytes ||| encounteredHex

/-- The digits of a character, the first of a run and the later ones. -/
theorem readsDigits (nb : ℕ) (h : nb = 2 ∨ nb = 4) :
    ReadsDigits (extended nb) (inRun nb) (nb * 2) ∧ ReadsDigits (inRun nb) (inRun nb) (nb * 2) := by
  rcases h with rfl | rfl <;>
    exact ⟨⟨by decide, by decide, by decide, by decide, by decide⟩,
      ⟨by decide, by decide, by decide, by decide, by decide⟩⟩

section
variable {p : ℤ} {b : List ℤ}

theorem scan_opening (nb : ℕ) (h : nb = 2 ∨ nb = 4) (v : Str) :
    scanText Get.step ⟨0, 0, 0, p, b⟩
        ("\\X".toList ++ [Char.ofNat (nb + 0x30)] ++ "\\".toList ++ v) =
      scanText Get.step ⟨extended nb, 0, 0, p, b⟩ v := by
  have h₁ : Get.step ⟨0, 0, 0, p, b⟩ '\\' = .next ⟨firstSolidus, 0, 0, p, b⟩ := by
    simp only [Get.step]; rfl
  have h₂ : Get.step ⟨firstSolidus, 0, 0, p, b⟩ 'X' =
      .next ⟨firstSolidus + arbitrary, 0, 0, p, b⟩ := by
    simp only [Get.step]; rfl
  have h₃ : Get.step ⟨firstSolidus + arbitrary, 0, 0, p, b⟩ (Char.ofNat (nb + 0x30)) =
      .next ⟨extended nb - secondSolidus, 0, 0, p, b⟩ := by
    rcases h with rfl | rfl <;> (simp only [Get.step]; rfl)
  have h₄ : Get.step ⟨extended nb - secondSolidus, 0, 0, p, b⟩ '\\' =
      .next ⟨extended nb, 0, 0, p, b⟩ := by
    rcases h with rfl | rfl <;> (simp only [Get.step]; rfl)
  calc scanText Get.step ⟨0, 0, 0, p, b⟩
        ('\\' :: 'X' :: Char.ofNat (nb + 0x30) :: '\\' :: v)
      = scanText Get.step ⟨firstSolidus + arbitrary, 0, 0, p, b⟩
          (Char.ofNat (nb + 0x30) :: '\\' :: v) := by
        rw [scanText_next (by decide) h₁, scanText_next (by decide) h₂]
    _ = scanText Get.step ⟨extended nb - secondSolidus, 0, 0, p, b⟩ ('\\' :: v) :=
        scanText_next (by rcases h with rfl | rfl <;> decide) h₃ _
    _ = scanText Get.step ⟨extended nb, 0, 0, p, b⟩ v := scanText_next (by decide) h₄ v

theorem scan_closing (nb : ℕ) (h : nb = 2 ∨ nb = 4) (v : Str) :
    scanText Get.step ⟨inRun nb, 0, 0, p, b⟩ ("\\X0\\".toList ++ v) =
      scanText Get.step ⟨0, 0, 0, p, b⟩ v := by
  have h₁ : Get.step ⟨inRun nb, 0, 0, p, b⟩ '\\' =
      .next ⟨extended nb + thirdSolidus, 0, 0, p, b⟩ := by
    rcases h with rfl | rfl <;> (simp only [Get.step]; rfl)
  have h₂ : Get.step ⟨extended nb + thirdSolidus, 0, 0, p, b⟩ 'X' =
      .next ⟨extended nb + thirdSolidus + endextendedX, 0, 0, p, b⟩ := by
    rcases h with rfl | rfl <;> (simp only [Get.step]; rfl)
  have h₃ : Get.step ⟨extended nb + thirdSolidus + endextendedX, 0, 0, p, b⟩ '0' =
      .next ⟨extended nb + thirdSolidus + endextendedX + endextended0, 0, 0, p, b⟩ := by
    rcases h with rfl | rfl <;> (simp only [Get.step]; rfl)
  have h₄ : Get.step ⟨extended nb + thirdSolidus + endextendedX + endextended0, 0, 0, p, b⟩ '\\' =
      .next ⟨0, 0, 0, p, b⟩ := by
    rcases h with rfl | rfl <;> (simp only [Get.step]; rfl)
  show scanText Get.step _ ('\\' :: 'X' :: '0' :: '\\' :: v) = _
  rw [scanText_next (by decide) h₁, scanText_next (by decide) h₂, scanText_next (by decide) h₃,
    scanText_next (by decide) h₄]

/-- A state outside every directive. -/
def expectsNothing (s : Flags) : Bool :=
  !expectsCharacter s && !expectsSolidus s && !expectsEndextendedX s && !expectsEndextended0 s &&
    !expectsArbitrary s && !expectsArbitrary2 s && !expectsAlphabet s && !expectsNOrF s &&
    !expectsAlphabetDefinition s && !expectsPage s && !expectsHex s

/-- Outside of a run a character stands for itself. -/
theorem step_outside {s : Flags} (hs : expectsNothing s = true) (p : ℤ) (b : List ℤ) (c : Char) :
    Get.step ⟨s, 0, 0, p, b⟩ c =
      if c = '\'' ∧ s = 0 then .next ⟨apostrophe, 0, 0, p, b⟩
      else if c = '\\' ∧ s = 0 then .next ⟨firstSolidus, 0, 0, p, b⟩
      else if s ≠ 0 ∧ ¬ ((c = '\\' ∧ s = firstSolidus) ∨ (c = '\'' ∧ s = apostrophe)) then
        if s = apostrophe ∧ c ≠ '\'' then .stop else .invalidToken
      else .next ⟨0, 0, 0, p, b ++ [signed c]⟩ := by
  simp only [expectsNothing, Bool.and_eq_true, Bool.not_eq_true'] at hs
  obtain ⟨⟨⟨⟨⟨⟨⟨⟨⟨⟨h₁, h₂⟩, h₃⟩, h₄⟩, h₅⟩, h₆⟩, h₇⟩, h₈⟩, h₉⟩, h₁₀⟩, h₁₁⟩ := hs
  simp only [Get.step, h₁, h₂, h₃, h₄, h₅, h₆, h₇, h₈, h₉, h₁₀, h₁₁, and_false, if_false,
    Bool.false_eq_true]

theorem bmod_of_lt {n : ℕ} (h : n < 128) : (n : ℤ).bmod 256 = n :=
  Int.bmod_eq_of_le (by omega) (by omega)

theorem signed_of_lt {c : Char} (h : c.toNat < 128) : signed c = c.toNat := bmod_of_lt h

/-- A character written as it is, twice when it is a quote or a reverse solidus. -/
theorem scan_plain {ch : Char} (h : withinSpfRange ch = true) (v : Str) :
    scanText Get.step ⟨0, 0, 0, p, b⟩
        ((ch :: if ch = '\\' ∨ ch = '\'' then [ch] else []) ++ v) =
      scanText Get.step ⟨0, 0, 0, p, b ++ [(ch.toNat : ℤ)]⟩ v := by
  simp only [withinSpfRange, Bool.and_eq_true, decide_eq_true_eq] at h
  by_cases hs : ch = '\\'
  · subst hs
    have h₁ : Get.step ⟨0, 0, 0, p, b⟩ '\\' = .next ⟨firstSolidus, 0, 0, p, b⟩ := by
      simp only [Get.step]; rfl
    have h₂ : Get.step ⟨firstSolidus, 0, 0, p, b⟩ '\\' =
        .next ⟨0, 0, 0, p, b ++ [signed '\\']⟩ := by
      simp only [Get.step]; rfl
    rw [signed_of_lt (by decide)] at h₂
    exact (scanText_next (by decide) h₁ _).trans (scanText_next (by decide) h₂ _)
  by_cases hq : ch = '\''
  · subst hq
    have h₁ : Get.step ⟨0, 0, 0, p, b⟩ '\'' = .next ⟨apostrophe, 0, 0, p, b⟩ := by
      simp only [Get.step]; rfl
    have h₂ : Get.step ⟨apostrophe, 0, 0, p, b⟩ '\'' =
        .next ⟨0, 0, 0, p, b ++ [signed '\'']⟩ := by
      simp only [Get.step]; rfl
    rw [signed_of_lt (by decide)] at h₂
    exact (scanText_next (by decide) h₁ _).trans (scanText_next (by decide) h₂ _)
  · have h₀ : ch ≠ '\x00' := by
      rintro rfl
      exact absurd h.1 (by decide)
    have h₁ : Get.step ⟨0, 0, 0, p, b⟩ ch = .next ⟨0, 0, 0, p, b ++ [(ch.toNat : ℤ)]⟩ := by
      rw [← signed_of_lt (by omega : ch.toNat < 128)]
      rw [step_outside (by decide), if_neg (by simp [hq]), if_neg (by simp [hs]),
        if_neg (by simp)]
    rw [if_neg (by simp [hs, hq])]
    exact scanText_next h₀ h₁ v

end

theorem numBytes_or (str : Str) : numBytes str = 2 ∨ numBytes str = 4 := by
  rw [numBytes]
  split
  · exact .inr rfl
  · exact .inl rfl

/-- A character is below the end of Unicode. -/
theorem toNat_lt (ch : Char) : ch.toNat < 0x110000 := by
  rcases ch.valid with h | h
  · exact lt_trans h (by norm_num)
  · exact h.2

theorem toNat_lt_of_mem {str : Str} {ch : Char} (h : ch ∈ str) :
    ch.toNat < 16 ^ (numBytes str * 2) := by
  by_cases hc : str = [] ∨ str.any fun ch => 0xffff < ch.toNat
  · rw [numBytes, if_pos hc]
    exact lt_trans (toNat_lt ch) (by norm_num)
  · have hle : ¬ 0xffff < ch.toNat := fun hlt =>
      hc (.inr (List.any_eq_true.2 ⟨ch, h, decide_eq_true hlt⟩))
    rw [numBytes, if_neg hc]
    norm_num
    omega

/-- The loop of the decoder on what the loop of the encoder writes, in a run or between runs. -/
theorem decode_loop {nb : ℕ} (hnb : nb = 2 ∨ nb = 4) (p : ℤ) (v : Str) :
    ∀ (str : Str) (inExtended : Bool) (b : List ℤ), (∀ ch ∈ str, ch.toNat < 16 ^ (nb * 2)) →
      scanText Get.step ⟨if inExtended then inRun nb else 0, 0, 0, p, b⟩
          (encodeLoop nb inExtended str ++ v) =
        scanText Get.step ⟨0, 0, 0, p, b ++ str.map fun ch => (ch.toNat : ℤ)⟩ v
  | [], true, b, _ => by
    rw [List.map_nil, List.append_nil]
    exact scan_closing nb hnb v
  | [], false, b, _ => by
    rw [List.map_nil, List.append_nil]
    rfl
  | ch :: str, inExtended, b, h => by
    have hch : ch.toNat < 16 ^ (nb * 2) := h ch List.mem_cons_self
    have hi : ch.toNat < 2 ^ 31 := lt_trans (toNat_lt ch) (by norm_num)
    have ih := decode_loop hnb p v str (!withinSpfRange ch) (b ++ [(ch.toNat : ℤ)])
      fun c hc => h c (List.mem_cons_of_mem _ hc)
    obtain ⟨hfirst, hrun⟩ := readsDigits nb hnb
    rw [List.map_cons, List.append_cons, ← ih]
    simp only [encodeLoop, List.append_assoc]
    cases hw : withinSpfRange ch with
    | true =>
      -- printable: a run before it is closed
      have hplain := scan_plain (p := p) (b := b) hw (encodeLoop nb false str ++ v)
      cases inExtended with
      | true => exact (scan_closing nb hnb _).trans hplain
      | false => exact hplain
    | false =>
      -- a run goes on, or is opened
      cases inExtended with
      | true => exact scan_character hrun hch hi _
      | false => exact (scan_opening nb hnb _).trans (scan_character hfirst hch hi _)

/-- The decoder at the closing quote. -/
theorem scan_quote (p : ℤ) (b : List ℤ) {c : Char} (hc : c ≠ '\'') (v : Str) :
    scanText Get.step ⟨0, 0, 0, p, b⟩ ('\'' :: c :: v) =
      .done ⟨apostrophe, 0, 0, p, b⟩ (c :: v) := by
  have h₁ : Get.step ⟨0, 0, 0, p, b⟩ '\'' = .next ⟨apostrophe, 0, 0, p, b⟩ := by
    simp only [Get.step]; rfl
  have h₂ : Get.step ⟨apostrophe, 0, 0, p, b⟩ c = .stop := by
    have ha : apostrophe ≠ 0 := by decide
    have hf : apostrophe ≠ firstSolidus := by decide
    have hn : ¬ ((c = '\\' ∧ apostrophe = firstSolidus) ∨ (c = '\'' ∧ apostrophe = apostrophe)) := by
      rintro (h | h)
      · exact hf h.2
      · exact hc h.1
    rw [step_outside (by decide), if_neg (fun h => ha h.2), if_neg (fun h => ha h.2),
      if_pos ⟨ha, hn⟩, if_pos ⟨rfl, hc⟩]
  rw [scanText_next (by decide) h₁, scanText]
  split
  · rfl
  · rw [h₂]

/-! ### A text in a file -/

/-- The bytes of a text. -/
def utf8 (str : Str) : List UInt8 := str.flatMap String.utf8EncodeChar

/-- Of a character the bytes are those of its UTF-8 encoding. -/
theorem writeUtf8_toNat (ch : Char) : writeUtf8 ch.toNat = String.utf8EncodeChar ch := by
  have hlt : ch.val.toNat < 0x110000 := toNat_lt ch
  simp only [writeUtf8, String.utf8EncodeChar, show ch.toNat = ch.val.toNat from rfl]
  split
  · rfl
  · split
    · rw [Nat.mod_eq_of_lt (by omega : ch.val.toNat / 64 < 0x20)]
    · split
      · rw [Nat.mod_eq_of_lt (by omega : ch.val.toNat / 4096 < 0x10)]
      · rw [Nat.mod_eq_of_lt (by omega : ch.val.toNat / 262144 < 0x08)]

theorem encodable_toNat (ch : Char) : Encodable (ch.toNat : ℤ) := by
  have hlt := toNat_lt ch
  constructor <;> omega

theorem convertUtf8_map (str : Str) : convertUtf8 (str.map fun ch => (ch.toNat : ℤ)) =
    .ok (utf8 str) := by
  induction str with
  | nil => rfl
  | cons ch str ih =>
    rw [List.map_cons, convertUtf8, ih, if_pos (encodable_toNat ch), Int.toNat_natCast,
      writeUtf8_toNat]
    rfl

theorem utf8EncodeChar_of_le {ch : Char} (h : ch.toNat ≤ 0x7e) :
    String.utf8EncodeChar ch = [UInt8.ofInt ch.toNat] := by
  have hv : ch.val.toNat ≤ 0x7f := le_trans h (by norm_num)
  have hb : UInt8.ofNat ch.toNat = UInt8.ofInt ch.toNat := by
    apply UInt8.toNat.inj
    rw [UInt8.ofInt]
    simp
    omega
  simp only [String.utf8EncodeChar, hv, if_true]
  rw [← hb]
  rfl

/-- A printable text is its own bytes. -/
theorem map_ofInt (str : Str) (h : ∀ ch ∈ str, ch.toNat ≤ 0x7e) :
    (str.map fun ch => (ch.toNat : ℤ)).map (fun w => UInt8.ofInt w) = utf8 str := by
  induction str with
  | nil => rfl
  | cons ch str ih =>
    have hch := h ch List.mem_cons_self
    rw [utf8, List.flatMap_cons, utf8EncodeChar_of_le hch, ← utf8,
      ← ih fun c hc => h c (List.mem_cons_of_mem _ hc)]
    rfl

/-- With the flag `.utf8` the text is its UTF-8. -/
theorem convert_utf8 (str : Str) :
    convert .utf8 (str.map fun ch => (ch.toNat : ℤ)) = .ok (utf8 str) := by
  by_cases h : ∀ w ∈ str.map fun ch => (ch.toNat : ℤ), w ≤ 0x7e
  · rw [convert, if_pos h]
    refine congrArg Except.ok (map_ofInt str fun ch hch => ?_)
    have hle : (ch.toNat : ℤ) ≤ 0x7e := h _ (List.mem_map.mpr ⟨ch, hch, rfl⟩)
    omega
  · rw [convert, if_neg h]
    exact convertUtf8_map str

/-- The text of what `encode` writes behind the opening quote, before what follows. -/
theorem scan_encode (str : Str) {c : Char} (hc : c ≠ '\'') (v : Str) :
    scanText Get.step ⟨0, 0, 0, 1, []⟩ ((encode str).tail ++ c :: v) =
      .done ⟨apostrophe, 0, 0, 1, str.map fun ch => (ch.toNat : ℤ)⟩ (c :: v) := by
  have h := decode_loop (numBytes_or str) 1 ('\'' :: c :: v) str false []
    fun ch => toNat_lt_of_mem
  rw [List.nil_append] at h
  rw [encode, List.tail_append_of_ne_nil (by simp), List.tail_cons, List.append_assoc]
  exact h.trans (scan_quote 1 _ hc v)

/-- A text is read back as it was written: for every text, wherever the file breaks its lines and
whatever follows but a quote, `get` returns its bytes between quotes, and the cursor is on what
follows. -/
theorem get_encode (str left tail : Str) (c : Char) (ha : Aligned left)
    (h : text left = (encode str).tail ++ c :: tail) (hc : c ≠ '\'') :
    ∃ left', get .utf8 left = .string (utf8 ('\'' :: str ++ ['\''])) left' ∧
      text left' = c :: tail := by
  have hs := scan_text Get.step left.length ⟨0, 0, 0, 1, []⟩ left ha le_rfl
  rw [h, scan_encode str hc tail] at hs
  simp only [get, getLoop]
  generalize scan Get.step left.length ⟨0, 0, 0, 1, []⟩ left = r at hs
  cases r with
  | done d left' =>
    simp only [Scanned.text, Scanned.done.injEq] at hs
    obtain ⟨rfl, ht⟩ := hs
    have hb : (0x27 :: str.map fun ch => (ch.toNat : ℤ)) ++ [0x27] =
        ('\'' :: str ++ ['\'']).map fun ch => (ch.toNat : ℤ) := by
      simp
    simp only [hb, convert_utf8]
    exact ⟨left', rfl, ht⟩
  | invalidToken left' => cases hs
  | exception e left' => cases hs
  | outside => cases hs

/-- `a`, `'`, `é` and a smile, broken over two lines. -/
theorem get_encode_smile :
    ∃ left', get .utf8 "a''\\X4\\0000\n00E90001F600\\X0\\');".toList =
      .string (utf8 "'a'é😀'".toList) left' ∧ text left' = ");".toList :=
  get_encode "a'é😀".toList _ ";".toList ')' (by decide) (by decide) (by decide)

end VulcanDB.Ifcparse
