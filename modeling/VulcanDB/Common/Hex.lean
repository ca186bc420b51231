import VulcanDB.Library.Numbers

/-!
# Common — Hex strings

`bin_to_hex` writes two digits for each byte, and `hex_to_bin` reads them back with `strtol`.  Both
count in `int`.

* `binToHexLoop_eq`, `hexToBinLoop_digits`: the loops.
* `hex_round_trips_iff`: when both give back what they were given.
-/

namespace VulcanDB.Common

open Cxx

/-! ### Digits -/

/-- The digits that are written. -/
def hexAlphabet : Str := "0123456789abcdef".toList

/-- The digit of a number below sixteen. -/
def hexDigit (n : ℕ) : Char := hexAlphabet.getD n '0'

/-- What `sprintf` writes for `"%02x"` and an `unsigned char`. -/
def sprintf02x (b : UInt8) : Str := [hexDigit (b.toNat / 16), hexDigit (b.toNat % 16)]

/-- The digits that `strtol` reads, capital letters among them. -/
def isXDigit (c : Char) : Bool :=
  c.isDigit || ('a' ≤ c && c ≤ 'f') || ('A' ≤ c && c ≤ 'F')

/-- The value of such a digit. -/
def xDigitValue (c : Char) : ℕ :=
  if c.isDigit then c.toNat - '0'.toNat
  else if 'a' ≤ c then c.toNat - 'a'.toNat + 10
  else c.toNat - 'A'.toNat + 10

/-- What is behind the prefix, which a digit has to follow. -/
def skip0x : Str → Str
  | '0' :: x :: c :: s => if (x == 'x' || x == 'X') && isXDigit c then c :: s else '0' :: x :: c :: s
  | s => s

/-- The value of the digits that a text begins with, behind `0x`. -/
def xDigitsValue (s : Str) : ℕ :=
  ((skip0x s).takeWhile isXDigit).foldl (fun n c => n * 16 + xDigitValue c) 0

/-- `strtol(s, NULL, 16)`, with a 64-bit `long`. -/
def strtol16 (s : Str) : ℤ :=
  match s.dropWhile isSpace with
  | '-' :: t => max (-2 ^ 63) (-(xDigitsValue t : ℤ))
  | '+' :: t => min (2 ^ 63 - 1) (xDigitsValue t : ℤ)
  | t => min (2 ^ 63 - 1) (xDigitsValue t : ℤ)

/-- A conversion to `char`. -/
def asByte (n : ℤ) : UInt8 := UInt8.ofNat (n % 256).toNat

/-! ### The code -/

/-- The loop of `bin_to_hex`. -/
def binToHexLoop : List UInt8 → ℕ → Except Fault Str
  | [], _ => .ok []
  | b :: bs, newLen =>
    if newLen + 2 < 2 ^ 31 then (binToHexLoop bs (newLen + 2)).map (sprintf02x b ++ ·)
    else .error .overflow

/-- `bin_to_hex` of the bytes at `s`. -/
def binToHex (s : List UInt8) (len : ℤ) : Except Fault Str := binToHexLoop (s.take len.toNat) 0

/-- The loop of `hex_to_bin` from `src` on, for `n` bytes. -/
def hexToBinLoop : ℕ → Str → Except Fault (List UInt8)
  | 0, _ => .ok []
  | n + 1, c :: d :: src => (hexToBinLoop n src).map (asByte (strtol16 [c, d]) :: ·)
  | _ + 1, _ => .error .badIndex

/-- `hex_to_bin`: the bytes at `bin_buff`, without the terminator, and `dest_len`. -/
def hexToBin (s : Str) : Except Fault (List UInt8 × ℤ) :=
  let srcLen := asInt s.length
  if srcLen = 0 then .ok ([], 0)
  else (hexToBinLoop (srcLen.tdiv 2).toNat s).map fun bytes => (bytes, srcLen.tdiv 2)

/-! ### The loops -/

/-- Two digits are read as the byte they were written for. -/
theorem strtol16_digits : ∀ a < 16, ∀ b < 16,
    strtol16 [hexDigit a, hexDigit b] = 16 * a + b := by
  decide

theorem asByte_digits (b : UInt8) : asByte (strtol16 (sprintf02x b)) = b := by
  have hlt : b.toNat < 256 := b.toNat_lt
  have hvalue : strtol16 (sprintf02x b) = b.toNat := by
    rw [sprintf02x, strtol16_digits _ (by omega) _ (by omega)]
    omega
  have hmod : ((b.toNat : ℤ) % 256).toNat = b.toNat := by omega
  rw [hvalue, asByte, hmod, UInt8.ofNat_toNat]

/-- Bytes as digits. -/
def digits (bs : List UInt8) : Str := bs.flatMap sprintf02x

@[simp] theorem length_digits (bs : List UInt8) : (digits bs).length = 2 * bs.length := by
  induction bs with
  | nil => rfl
  | cons b bs ih =>
      rw [digits, List.flatMap_cons, List.length_append, ← digits, ih, List.length_cons]
      rw [show (sprintf02x b).length = 2 from rfl]
      omega

/-- **The first loop** writes the digits, up to the end of `int`. -/
theorem binToHexLoop_eq (bs : List UInt8) (newLen : ℕ) : binToHexLoop bs newLen =
    if bs = [] ∨ newLen + 2 * bs.length < 2 ^ 31 then .ok (digits bs) else .error .overflow := by
  induction bs generalizing newLen with
  | nil => rfl
  | cons b bs ih =>
      rw [binToHexLoop, ih]
      simp only [reduceCtorEq, false_or, List.length_cons]
      by_cases hroom : newLen + 2 * (bs.length + 1) < 2 ^ 31
      · rw [if_pos hroom, if_pos (by omega), if_pos (.inr (by omega))]
        rfl
      · rw [if_neg hroom]
        by_cases hfirst : newLen + 2 < 2 ^ 31
        · have hne : ¬ (bs = [] ∨ newLen + 2 + 2 * bs.length < 2 ^ 31) := by
            rintro (rfl | h)
            · rw [List.length_nil] at hroom
              omega
            · omega
          rw [if_pos hfirst, if_neg hne]
          rfl
        · rw [if_neg hfirst]

/-- **The second loop** reads them back. -/
theorem hexToBinLoop_digits (bs : List UInt8) :
    hexToBinLoop bs.length (digits bs) = .ok bs := by
  induction bs with
  | nil => rfl
  | cons b bs ih =>
      show (hexToBinLoop bs.length (digits bs)).map (asByte (strtol16 (sprintf02x b)) :: ·) = _
      rw [ih, asByte_digits]
      rfl

/-- The loop gives the bytes it was asked for. -/
theorem length_hexToBinLoop {n : ℕ} {src : Str} {bytes : List UInt8}
    (h : hexToBinLoop n src = .ok bytes) : bytes.length = n := by
  induction n generalizing src bytes with
  | zero => rw [← Except.ok.inj h]; rfl
  | succ n ih =>
      match src with
      | [] | [_] => cases h
      | c :: d :: src =>
          rw [hexToBinLoop] at h
          cases hrest : hexToBinLoop n src with
          | error e =>
              rw [hrest] at h
              cases h
          | ok rest =>
              rw [hrest] at h
              rw [← Except.ok.inj h, List.length_cons, ih hrest]

/-! ### The functions -/

/-- When `binary_to_hex` returns, and what. -/
theorem binToHex_ok_iff {s : List UInt8} {len : ℤ} {h : Str} : binToHex s len = .ok h ↔
    (s.take len.toNat = [] ∨ 2 * (s.take len.toNat).length < 2 ^ 31) ∧
      h = digits (s.take len.toNat) := by
  rw [binToHex, binToHexLoop_eq, Nat.zero_add]
  split
  · rename_i hroom
    rw [Except.ok.injEq, eq_comm]
    exact ⟨fun heq => ⟨hroom, heq⟩, fun heq => heq.2⟩
  · rename_i hroom
    exact ⟨nofun, fun heq => absurd heq.1 hroom⟩

/-- As many bytes are read as `int` has of the length. -/
theorem length_hexToBin {h : Str} {bytes : List UInt8} {n : ℤ}
    (hrun : hexToBin h = .ok (bytes, n)) :
    n = (asInt h.length).tdiv 2 ∧ bytes.length = n.toNat := by
  rw [hexToBin] at hrun
  split at hrun
  · rename_i hzero
    obtain ⟨rfl, rfl⟩ := Prod.mk.inj (Except.ok.inj hrun)
    rw [hzero]
    exact ⟨rfl, rfl⟩
  · cases hloop : hexToBinLoop ((asInt h.length).tdiv 2).toNat h with
    | error e =>
        rw [hloop] at hrun
        cases hrun
    | ok bytes' =>
        rw [hloop] at hrun
        obtain ⟨rfl, rfl⟩ := Prod.mk.inj (Except.ok.inj hrun)
        exact ⟨rfl, length_hexToBinLoop hloop⟩

theorem tdiv_double (n : ℕ) : ((2 * n : ℕ) : ℤ).tdiv 2 = n := by
  rw [Nat.cast_mul]
  exact Int.mul_tdiv_cancel_left _ (by decide)

theorem tdiv_two_le (n : ℤ) : 2 * n.tdiv 2 ≤ max n 0 := by
  rcases le_or_gt 0 n with hn | hn
  · rw [Int.tdiv_eq_ediv_of_nonneg hn]
    omega
  · have hneg : (-n).tdiv 2 = -n.tdiv 2 := Int.neg_tdiv ..
    have hpos : 0 ≤ (-n).tdiv 2 := Int.tdiv_nonneg (by omega) (by decide)
    omega

theorem hexToBin_digits {bs : List UInt8} (h : bs.length < 2 ^ 30) :
    hexToBin (digits bs) = .ok (bs, bs.length) := by
  have hlen : asInt (digits bs).length = (2 * bs.length : ℕ) := by
    rw [asInt_short (by omega) (by rw [length_digits]; omega), length_digits]
  rw [hexToBin]
  simp only [hlen, tdiv_double, Int.toNat_natCast, hexToBinLoop_digits]
  split
  · rename_i hzero
    have hnil : bs = [] := List.length_eq_zero_iff.mp (by omega)
    rw [hnil]
    rfl
  · rfl

/-! ### Round trips -/

/-- The digits are read back as the bytes, with their number. -/
def BytesReturn (s : List UInt8) : Prop :=
  ∃ h, binToHex s (asInt s.length) = .ok h ∧ hexToBin h = .ok (s, s.length)

/-- The bytes are written as the digits again. -/
def DigitsReturn (h : Str) : Prop :=
  ∃ bytes n, hexToBin h = .ok (bytes, n) ∧ binToHex bytes n = .ok h

/-- **Bytes come back** exactly when twice their number is an `int`. -/
theorem bytesReturn_iff (s : List UInt8) : BytesReturn s ↔ s.length < 2 ^ 30 := by
  constructor
  · rintro ⟨h, hwrite, hread⟩
    obtain ⟨hroom, hdigits⟩ := binToHex_ok_iff.mp hwrite
    obtain ⟨hlen, -⟩ := length_hexToBin hread
    rw [hdigits] at hlen
    have htaken := List.length_take (i := (asInt s.length).toNat) (l := s)
    have hsmall : 2 * (s.take (asInt s.length).toNat).length < 2 ^ 31 := by
      rcases hroom with hnil | hroom
      · rw [hnil]
        decide
      · exact hroom
    rw [asInt_short (by omega) (by rw [length_digits]; omega), length_digits, tdiv_double] at hlen
    omega
  · intro h
    have hlen : asInt s.length = s.length := asInt_short (by omega) (by omega)
    refine ⟨digits s, binToHex_ok_iff.mpr ?_, hexToBin_digits h⟩
    rw [hlen, Int.toNat_natCast, List.take_length]
    exact ⟨.inr (by omega), rfl⟩

theorem exists_hexDigit {c : Char} (h : c ∈ hexAlphabet) : ∃ n < 16, c = hexDigit n := by
  revert c
  decide

/-- A byte for each two digits. -/
theorem exists_bytes : ∀ {h : Str}, h.length % 2 = 0 → (∀ c ∈ h, c ∈ hexAlphabet) →
    ∃ bs, h = digits bs
  | [], _, _ => ⟨[], rfl⟩
  | [_], heven, _ => nomatch heven
  | c :: d :: h, heven, hdigits => by
      rw [List.forall_mem_cons, List.forall_mem_cons] at hdigits
      obtain ⟨hc, hd, hrest⟩ := hdigits
      obtain ⟨a, ha, rfl⟩ := exists_hexDigit hc
      obtain ⟨b, hb, rfl⟩ := exists_hexDigit hd
      rw [List.length_cons, List.length_cons] at heven
      obtain ⟨bs, rfl⟩ := exists_bytes (by omega : h.length % 2 = 0) hrest
      have hbyte : (UInt8.ofNat (16 * a + b)).toNat = 16 * a + b := by
        rw [UInt8.toNat_ofNat']
        omega
      have hpair : sprintf02x (UInt8.ofNat (16 * a + b)) = [hexDigit a, hexDigit b] := by
        have hhigh : (16 * a + b) / 16 = a := by omega
        have hlow : (16 * a + b) % 16 = b := by omega
        rw [sprintf02x, hbyte, hhigh, hlow]
      refine ⟨UInt8.ofNat (16 * a + b) :: bs, ?_⟩
      show _ = sprintf02x (UInt8.ofNat (16 * a + b)) ++ digits bs
      rw [hpair]
      rfl

/-- **Digits come back** exactly when their number is an `int`. -/
theorem digitsReturn_iff {h : Str} (heven : h.length % 2 = 0)
    (hdigits : ∀ c ∈ h, c ∈ hexAlphabet) : DigitsReturn h ↔ h.length < 2 ^ 31 := by
  constructor
  · rintro ⟨bytes, n, hread, hwrite⟩
    obtain ⟨hn, -⟩ := length_hexToBin hread
    obtain ⟨-, heq⟩ := binToHex_ok_iff.mp hwrite
    obtain ⟨k, -, hlt⟩ := asInt_wraps h.length
    have hlen := congrArg List.length heq
    rw [length_digits, List.length_take, hn] at hlen
    have hhalf := tdiv_two_le (asInt h.length)
    omega
  · intro hshort
    obtain ⟨bs, rfl⟩ := exists_bytes heven hdigits
    rw [length_digits] at hshort
    refine ⟨bs, bs.length, hexToBin_digits (by omega), binToHex_ok_iff.mpr ?_⟩
    rw [Int.toNat_natCast, List.take_length]
    exact ⟨.inr hshort, rfl⟩

/-- **Main result.**  Bytes are given back if and only if there are less than `2 ^ 30`, and digits
if and only if there are less than `2 ^ 31`. -/
theorem hex_round_trips_iff (s : List UInt8) {h : Str} (heven : h.length % 2 = 0)
    (hdigits : ∀ c ∈ h, c ∈ hexAlphabet) :
    (BytesReturn s ↔ s.length < 2 ^ 30) ∧ (DigitsReturn h ↔ h.length < 2 ^ 31) :=
  ⟨bytesReturn_iff s, digitsReturn_iff heven hdigits⟩

/-- Bytes of 0 and of more than 127. -/
theorem hex_round_trips_three : BytesReturn [0, 200, 10] ∧ DigitsReturn "00c80a".toList := by
  obtain ⟨hbytes, hdigits⟩ :=
    hex_round_trips_iff [0, 200, 10] (h := "00c80a".toList) (by decide) (by decide)
  exact ⟨hbytes.mpr (by decide), hdigits.mpr (by decide)⟩

/-- As many digits as `int` cannot count. -/
theorem hex_not_always_round_trips : ¬ BytesReturn (List.replicate (2 ^ 30) 0) := by
  rw [bytesReturn_iff, List.length_replicate]
  exact lt_irrefl _

end VulcanDB.Common
