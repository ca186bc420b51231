import VulcanDB.Library.CxxString
import VulcanDB.Library.Positional

/-!
# Ifcparse — Global ids

An `IfcGlobalId` is a UUID of sixteen bytes, written in twenty-two characters: two for the first
byte and four for each three bytes after it.  A debug build checks at each construction that the
one comes back from the other.

* `expand_compress`: every UUID comes back.
* `compress_expand_iff`: the texts that come back.
-/

namespace VulcanDB.Ifcparse

open Cxx Positional

/-- The sixteen bytes. -/
abbrev Uuid := Vector UInt8 16

/-- The alphabet, in the order of its digits. -/
def chars : Str := "0123456789ABCDEFGHIJKLMNOPQRSTUVWXYZabcdefghijklmnopqrstuvwxyz_$".toList

/-- `base64`: for a number of more than `l` digits the second loop does not end. -/
def base64 (v l : ℕ) : Option Str :=
  let r := (Nat.digits 64 v).map (chars.getD · '\x00')
  if r.length ≤ l then some (r ++ List.replicate (l - r.length) '0').reverse else none

/-- What the constructor throws. -/
inductive GlobalIdError where
  /-- `std::out_of_range`, of `substr`. -/
  | outOfRange
  /-- `IfcException("Failed to decode GlobalId")`. -/
  | failedToDecode
  deriving DecidableEq, Repr

/-- `strchr(chars, c)`, as an offset.  The terminator is found as well. -/
def strchr (c : Char) : Option ℕ :=
  if c = '\x00' then some chars.length else chars.findIdx? (· == c)

/-- The loop of `from_base64`, with an `unsigned`. -/
def fromBase64Loop : ℕ → Str → Except GlobalIdError ℕ
  | r, [] => .ok r
  | r, c :: s =>
    match strchr c with
    | none => .error .failedToDecode
    | some k => fromBase64Loop ((r * 64 + k) % 2 ^ 32) s

/-- `from_base64`, which passes over leading zeros. -/
def fromBase64 (s : Str) : Except GlobalIdError ℕ := fromBase64Loop 0 (s.dropWhile (· == '0'))

/-- The three bytes from `v[i]` on, as a number. -/
def threeBytes (v : Uuid) (i : Fin 5) : ℕ :=
  (v[3 * i.val + 1].toNat <<< 16) + (v[3 * i.val + 2].toNat <<< 8) + v[3 * i.val + 3].toNat

/-- **The compression**: one byte in two digits, then five groups of three bytes in four. -/
def compress (v : Uuid) : Option Str := do
  let r ← base64 v[0].toNat 2
  let rs ← (List.finRange 5).mapM fun i => base64 (threeBytes v i) 4
  pure (r ++ rs.flatten)

/-- `s.substr(pos, n)`. -/
def substrAt (s : Str) (pos n : ℕ) : Except GlobalIdError Str :=
  if s.length < pos then .error .outOfRange else .ok ((s.drop pos).take n)

/-- The three bytes that are pushed for `d`. -/
def splitBytes (d : ℕ) : List UInt8 :=
  [UInt8.ofNat ((d >>> 16) % 256), UInt8.ofNat ((d >>> 8) % 256), UInt8.ofNat (d % 256)]

/-- `expand`: the bytes pushed on an empty vector. -/
def expand (s : Str) : Except GlobalIdError (List UInt8) := do
  let first ← fromBase64 (← substrAt s 0 2)
  let rest ← (List.finRange 5).mapM fun i => do
    let d ← fromBase64 (← substrAt s (2 + 4 * i.val) 4)
    pure (splitBytes d)
  pure (UInt8.ofNat first :: rest.flatten)

/-- What `std::copy` puts into `uuid_data`. -/
def uuidOf (bytes : List UInt8) : Uuid := Vector.ofFn fun i => bytes.getD i 0

/-- The text and the bytes. -/
structure IfcGlobalId where
  stringData : Str
  uuidData : Uuid
  deriving DecidableEq, Repr

/-- What a constructor comes to; `logged` when the check of a debug build has failed. -/
inductive Constructed where
  | done (id : IfcGlobalId) (logged : Bool)
  | exception (e : GlobalIdError)
  | endless
  deriving DecidableEq, Repr

/-- `IfcGlobalId()`, for the UUID that `gen` gives. -/
def IfcGlobalId.generate (uuidData : Uuid) : Constructed :=
  match compress uuidData with
  | none => .endless
  | some stringData =>
    match expand stringData with
    | .error e => .exception e
    | .ok testVector => .done ⟨stringData, uuidData⟩ (uuidData != uuidOf testVector)

/-- `IfcGlobalId(s)`. -/
def IfcGlobalId.ofString (s : Str) : Constructed :=
  match expand s with
  | .error e => .exception e
  | .ok v =>
    match compress (uuidOf v) with
    | none => .endless
    | some testString => .done ⟨s, uuidOf v⟩ (s != testString)

/-! ### Digits -/

/-- The digit of a number below 64. -/
def digit64 (d : ℕ) : Char := chars.getD d '\x00'

theorem digit64_facts : ∀ d < 64, digit64 d ∈ chars ∧ strchr (digit64 d) = some d := by
  decide

/-- Every character of the alphabet is a digit. -/
theorem exists_digit64 {c : Char} (h : c ∈ chars) : ∃ d < 64, digit64 d = c := by
  obtain ⟨d, hd, rfl⟩ := List.mem_iff_getElem.mp h
  exact ⟨d, hd, by simp [digit64, hd]⟩

/-- A text of characters of the alphabet, as its digits. -/
theorem exists_digits {s : Str} (h : ∀ c ∈ s, c ∈ chars) :
    ∃ ds : List ℕ, (∀ d ∈ ds, d < 64) ∧ s = ds.map digit64 := by
  induction s with
  | nil => exact ⟨[], by simp, rfl⟩
  | cons c s ih =>
    obtain ⟨d, hd, rfl⟩ := exists_digit64 (h c List.mem_cons_self)
    obtain ⟨ds, hds, rfl⟩ := ih fun x hx => h x (List.mem_cons_of_mem _ hx)
    exact ⟨d :: ds, List.forall_mem_cons.mpr ⟨hd, hds⟩, rfl⟩

/-- `base64` writes the digits to the base 64. -/
theorem base64_eq {v l : ℕ} (h : v < 64 ^ l) :
    base64 v l = some ((written 64 l v).map digit64) := by
  have hl : (Nat.digits 64 v).length ≤ l := (Nat.digits_length_le_iff (by norm_num) v).mpr h
  rw [written_eq, base64, if_pos (by rwa [List.length_map])]
  simp [digit64, show chars[0]?.getD '\x00' = '0' from rfl]

/-- The loop reads them back, while the word has room. -/
theorem fromBase64Loop_digits {ds : List ℕ} (h : ∀ d ∈ ds, d < 64) (r : ℕ)
    (hr : valueFrom 64 r ds < 2 ^ 32) :
    fromBase64Loop r (ds.map digit64) = .ok (valueFrom 64 r ds) := by
  induction ds generalizing r with
  | nil => rfl
  | cons d ds ih =>
    have hd := (digit64_facts d (h d List.mem_cons_self)).2
    have hle := le_valueFrom (by norm_num : 0 < 64) (r * 64 + d) ds
    rw [valueFrom_cons] at hr
    rw [List.map_cons, fromBase64Loop, hd, valueFrom_cons]
    simp only
    rw [Nat.mod_eq_of_lt (by omega), ih (fun x hx => h x (List.mem_cons_of_mem _ hx)) _ hr]

/-- The zeros that are passed over count for nothing. -/
theorem fromBase64_eq (s : Str) : fromBase64 s = fromBase64Loop 0 s := by
  induction s with
  | nil => rfl
  | cons c s ih =>
    by_cases hc : c = '0'
    · subst hc
      exact ih
    · rw [fromBase64, List.dropWhile_cons_of_neg (by simp [hc])]

theorem fromBase64_digits {ds : List ℕ} (h : ∀ d ∈ ds, d < 64) (hl : ds.length ≤ 4) :
    fromBase64 (ds.map digit64) = .ok (value 64 ds) := by
  have hv := value_lt (by norm_num : 1 < 64) h
  have hp : 64 ^ ds.length ≤ 64 ^ 4 := Nat.pow_le_pow_right (by norm_num) hl
  rw [fromBase64_eq, fromBase64Loop_digits h 0 (lt_of_lt_of_le hv (hp.trans (by norm_num)))]
  rfl

theorem fromBase64_written {n l : ℕ} (hl : l ≤ 4) (h : n < 64 ^ l) :
    fromBase64 ((written 64 l n).map digit64) = .ok n := by
  rw [fromBase64_digits (fun d hd => written_lt (by norm_num) hd)
    (by rwa [length_written (by norm_num) h]), value_written]

/-! ### Bytes -/

theorem threeBytes_lt (v : Uuid) (i : Fin 5) : threeBytes v i < 2 ^ 24 := by
  have h₁ := v[3 * i.val + 1].toNat_lt
  have h₂ := v[3 * i.val + 2].toNat_lt
  have h₃ := v[3 * i.val + 3].toNat_lt
  simp only [threeBytes, Nat.shiftLeft_eq]
  omega

theorem splitBytes_threeBytes (v : Uuid) (i : Fin 5) :
    splitBytes (threeBytes v i) =
      [v[3 * i.val + 1], v[3 * i.val + 2], v[3 * i.val + 3]] := by
  have h₁ := v[3 * i.val + 1].toNat_lt
  have h₂ := v[3 * i.val + 2].toNat_lt
  have h₃ := v[3 * i.val + 3].toNat_lt
  have e₁ : (threeBytes v i >>> 16) % 256 = v[3 * i.val + 1].toNat := by
    simp only [threeBytes, Nat.shiftLeft_eq, Nat.shiftRight_eq_div_pow]
    omega
  have e₂ : (threeBytes v i >>> 8) % 256 = v[3 * i.val + 2].toNat := by
    simp only [threeBytes, Nat.shiftLeft_eq, Nat.shiftRight_eq_div_pow]
    omega
  have e₃ : threeBytes v i % 256 = v[3 * i.val + 3].toNat := by
    simp only [threeBytes, Nat.shiftLeft_eq]
    omega
  simp only [splitBytes, e₁, e₂, e₃, UInt8.ofNat_toNat]

/-! ### UUIDs -/

/-- The characters of the groups of `v`. -/
def firstGroup (v : Uuid) : Str := (written 64 2 v[0].toNat).map digit64

/-- The four digits of three bytes. -/
def group (v : Uuid) (i : Fin 5) : Str := (written 64 4 (threeBytes v i)).map digit64

theorem compress_eq (v : Uuid) :
    compress v = some (firstGroup v ++ ((List.finRange 5).map (group v)).flatten) := by
  have h₀ := v[0].toNat_lt
  have hg : (fun i => base64 (threeBytes v i) 4) = fun i => some (group v i) :=
    funext fun i => base64_eq (lt_of_lt_of_le (threeBytes_lt v i) (by norm_num))
  rw [compress, base64_eq (by omega : v[0].toNat < 64 ^ 2), hg]
  rfl

theorem length_firstGroup (v : Uuid) : (firstGroup v).length = 2 := by
  have h₀ := v[0].toNat_lt
  rw [firstGroup, List.length_map, length_written (by norm_num) (by omega)]

theorem length_group (v : Uuid) (i : Fin 5) : (group v i).length = 4 := by
  rw [group, List.length_map, length_written (by norm_num)
    (lt_of_lt_of_le (threeBytes_lt v i) (by norm_num))]

/-- A piece of pieces of one length. -/
theorem take_drop_flatten {α : Type} {g : α → Str} {k : ℕ} (hg : ∀ a, (g a).length = k) :
    ∀ (l : List α) (i : ℕ) (hi : i < l.length),
      ((l.map g).flatten.drop (k * i)).take k = g (l.get ⟨i, hi⟩)
  | a :: l, 0, _ => by
    rw [Nat.mul_zero, List.drop_zero, List.map_cons, List.flatten_cons,
      List.take_append_of_le_length (hg a).ge, List.take_of_length_le (hg a).le]
    rfl
  | a :: l, i + 1, hi => by
    have ih := take_drop_flatten hg l i (by simpa using hi)
    rw [List.map_cons, List.flatten_cons, Nat.mul_succ, Nat.add_comm, ← List.drop_drop,
      List.drop_append_of_le_length (hg a).ge, List.drop_of_length_le (hg a).le, List.nil_append, ih]
    rfl

theorem length_groups {g : Fin 5 → Str} (hg : ∀ i, (g i).length = 4) :
    ((List.finRange 5).map g).flatten.length = 20 := by
  simp [List.length_flatten, Function.comp_def, hg]

/-- The groups of a text. -/
theorem substrAt_groups {first : Str} {g : Fin 5 → Str} (h₀ : first.length = 2)
    (hg : ∀ i, (g i).length = 4) :
    substrAt (first ++ ((List.finRange 5).map g).flatten) 0 2 = .ok first ∧
    ∀ i : Fin 5, substrAt (first ++ ((List.finRange 5).map g).flatten) (2 + 4 * i.val) 4 =
      .ok (g i) := by
  have hl := length_groups hg
  constructor
  · rw [substrAt, if_neg (by omega), List.drop_zero, List.take_append_of_le_length h₀.ge,
      List.take_of_length_le h₀.le]
  · intro i
    have hp := take_drop_flatten hg (List.finRange 5) i.val (by simp)
    rw [substrAt, if_neg (by rw [List.length_append, hl, h₀]; omega), ← List.drop_drop,
      List.drop_append_of_le_length h₀.ge, List.drop_of_length_le h₀.le, List.nil_append, hp]
    simp

/-- What `expand` gives for groups that are read. -/
theorem expand_groups {first : Str} {g : Fin 5 → Str} (h₀ : first.length = 2)
    (hg : ∀ i, (g i).length = 4) {n : ℕ} {m : Fin 5 → ℕ} (hn : fromBase64 first = .ok n)
    (hm : ∀ i, fromBase64 (g i) = .ok (m i)) :
    expand (first ++ ((List.finRange 5).map g).flatten) =
      .ok (UInt8.ofNat n :: ((List.finRange 5).map fun i => splitBytes (m i)).flatten) := by
  obtain ⟨hs₀, hs⟩ := substrAt_groups h₀ hg
  have hf : (fun i : Fin 5 => (do
      let d ← fromBase64 (← substrAt (first ++ ((List.finRange 5).map g).flatten) (2 + 4 * i.val) 4)
      pure (splitBytes d) : Except GlobalIdError (List UInt8))) =
      fun i => .ok (splitBytes (m i)) := by
    funext i
    rw [hs i]
    show (fromBase64 (g i) >>= fun d => pure (splitBytes d)) = _
    rw [hm i]
    rfl
  rw [expand, hs₀, hf]
  show (fromBase64 first >>= _) = _
  rw [hn]
  rfl

/-- The bytes of a UUID, first one and three by three. -/
theorem uuidOf_bytes (v : Uuid) : uuidOf (v[0] ::
    ((List.finRange 5).map fun i =>
      [v[3 * i.val + 1], v[3 * i.val + 2], v[3 * i.val + 3]]).flatten) = v := by
  apply Vector.ext
  intro i hi
  simp only [uuidOf, Vector.getElem_ofFn]
  interval_cases i <;> rfl

/-- A UUID written and read is the same, in twenty-two characters of the alphabet. -/
theorem expand_compress (v : Uuid) :
    ∃ s bytes, compress v = some s ∧ s.length = 22 ∧ (∀ c ∈ s, c ∈ chars) ∧
      expand s = .ok bytes ∧ uuidOf bytes = v := by
  have h₀ := v[0].toNat_lt
  refine ⟨_, _, compress_eq v, ?_, ?_,
    expand_groups (length_firstGroup v) (length_group v)
      (fromBase64_written (by norm_num) (by omega : v[0].toNat < 64 ^ 2))
      fun i => fromBase64_written le_rfl (lt_of_lt_of_le (threeBytes_lt v i) (by norm_num)), ?_⟩
  · rw [List.length_append, length_firstGroup, length_groups (length_group v)]
  · have hmem : ∀ l n, ∀ c ∈ (written 64 l n).map digit64, c ∈ chars := by
      intro l n c hc
      obtain ⟨d, hd, rfl⟩ := List.mem_map.mp hc
      exact (digit64_facts d (written_lt (by norm_num) hd)).1
    intro c hc
    rcases List.mem_append.mp hc with hc | hc
    · exact hmem _ _ c hc
    · obtain ⟨t, ht, hct⟩ := List.mem_flatten.mp hc
      obtain ⟨i, -, rfl⟩ := List.mem_map.mp ht
      exact hmem _ _ c hct
  · simp only [splitBytes_threeBytes, UInt8.ofNat_toNat]
    exact uuidOf_bytes v

/-! ### Texts -/

/-- Split bytes are joined to the same number. -/
theorem threeBytes_split {v : Uuid} {i : Fin 5} {m : ℕ}
    (h : [v[3 * i.val + 1], v[3 * i.val + 2], v[3 * i.val + 3]] = splitBytes m)
    (hm : m < 2 ^ 24) : threeBytes v i = m := by
  have hb (k : ℕ) : (UInt8.ofNat (k % 256)).toNat = k % 256 := by simp
  simp only [splitBytes, List.cons.injEq, and_true] at h
  rw [threeBytes, h.1, h.2.1, h.2.2, hb, hb, hb]
  simp only [Nat.shiftLeft_eq, Nat.shiftRight_eq_div_pow]
  omega

@[simp] theorem uuidOf_getElem (bytes : List UInt8) (i : ℕ) (hi : i < 16) :
    (uuidOf bytes)[i] = bytes.getD i 0 := by
  simp [uuidOf]

/-- The bytes that are pushed, three by three. -/
theorem getD_pushed (b : UInt8) (f : Fin 5 → UInt8 × UInt8 × UInt8) (i : Fin 5) :
    let bytes := b :: ((List.finRange 5).map fun i => [(f i).1, (f i).2.1, (f i).2.2]).flatten
    bytes.getD (3 * i.val + 1) 0 = (f i).1 ∧ bytes.getD (3 * i.val + 2) 0 = (f i).2.1 ∧
      bytes.getD (3 * i.val + 3) 0 = (f i).2.2 := by
  fin_cases i <;> exact ⟨rfl, rfl, rfl⟩

theorem threeBytes_uuidOf {m : Fin 5 → ℕ} (hm : ∀ i, m i < 2 ^ 24) (b : UInt8) (i : Fin 5) :
    threeBytes (uuidOf (b :: ((List.finRange 5).map fun i => splitBytes (m i)).flatten)) i =
      m i := by
  obtain ⟨h₁, h₂, h₃⟩ := getD_pushed b (fun i =>
    (UInt8.ofNat ((m i >>> 16) % 256), UInt8.ofNat ((m i >>> 8) % 256), UInt8.ofNat (m i % 256))) i
  refine threeBytes_split ?_ (hm i)
  simp only [uuidOf_getElem]
  exact congrArg₂ List.cons h₁ (congrArg₂ List.cons h₂ (congrArg (List.cons · []) h₃))

/-- A text cut into its groups. -/
theorem eq_groups {α : Type} {s : List α} (h : s.length = 22) :
    s = s.take 2 ++ ((List.finRange 5).map fun i => (s.drop (2 + 4 * i.val)).take 4).flatten := by
  have hr : s.drop 22 = [] := List.drop_of_length_le h.le
  have e (k : ℕ) : (s.drop k).take 4 ++ s.drop (k + 4) = s.drop k := by
    rw [← List.drop_drop]
    exact List.take_append_drop 4 (s.drop k)
  calc s = s.take 2 ++ ((s.drop 2).take 4 ++ ((s.drop 6).take 4 ++ ((s.drop 10).take 4 ++
        ((s.drop 14).take 4 ++ ((s.drop 18).take 4 ++ s.drop 22))))) := by
        rw [e 18, e 14, e 10, e 6, e 2, List.take_append_drop]
    _ = _ := by rw [hr]; rfl

/-- The texts that are some UUID's: of the first character, which stands for two bits, only four
can be. -/
def Canonical (s : Str) : Prop :=
  s.length = 22 ∧ (∀ c ∈ s, c ∈ chars) ∧ ∃ c ∈ "0123".toList, s.head? = some c

/-- The first digits are those below four. -/
theorem digit64_first : ∀ d < 64, digit64 d ∈ "0123".toList ↔ d < 4 := by
  decide +kernel

/-- The first group of a byte, by its two digits. -/
theorem written_two {n : ℕ} (h : n < 4096) : written 64 2 n = [n / 64, n % 64] := by
  have hlt : ∀ d ∈ [n / 64, n % 64], d < 64 := by
    simp only [List.mem_cons, List.not_mem_nil, or_false, forall_eq_or_imp, forall_eq]
    omega
  have hv : value 64 [n / 64, n % 64] = n := by
    simp only [value, valueFrom_cons, valueFrom_nil]
    omega
  have hw := written_value (by norm_num : 1 < 64) hlt
  rwa [hv] at hw

/-- **The compressed texts are canonical**. -/
theorem canonical_compress {v : Uuid} {s : Str} (h : compress v = some s) : Canonical s := by
  obtain ⟨t, bytes, ht, hl, hc, -⟩ := expand_compress v
  obtain rfl : t = s := Option.some.inj (ht.symm.trans h)
  have h₀ := v[0].toNat_lt
  refine ⟨hl, hc, digit64 (v[0].toNat / 64), (digit64_first _ (by omega)).mpr (by omega), ?_⟩
  rw [compress_eq] at h
  rw [← Option.some.inj h, firstGroup, written_two (by omega)]
  rfl

/-- The first byte, of two digits of which the first one is small. -/
theorem value_first {ds : List ℕ} (h : ∀ d ∈ ds, d < 64) (hl : ds.length = 22)
    (h₀ : ∃ c ∈ "0123".toList, (ds.map digit64).head? = some c) :
    value 64 (ds.take 2) < 256 := by
  obtain ⟨c, hc, hhead⟩ := h₀
  rcases ds with _ | ⟨d, _ | ⟨e, ds⟩⟩
  · cases hl
  · cases hl
  obtain rfl : digit64 d = c := Option.some.inj hhead
  have hd := (digit64_first d (h d (by simp))).mp hc
  have he := h e (by simp)
  simp only [List.take_succ_cons, List.take_zero, value, valueFrom_cons, valueFrom_nil]
  omega

/-- Every canonical text comes back from its UUID. -/
theorem compress_canonical {s : Str} (h : Canonical s) :
    ∃ bytes, expand s = .ok bytes ∧ compress (uuidOf bytes) = some s := by
  obtain ⟨hl, hc, h₀⟩ := h
  obtain ⟨ds, hds, rfl⟩ := exists_digits hc
  rw [List.length_map] at hl
  have hfirst : ∀ d ∈ ds.take 2, d < 64 := fun d hd => hds d (List.mem_of_mem_take hd)
  have hgroup : ∀ i : Fin 5, ∀ d ∈ (ds.drop (2 + 4 * i.val)).take 4, d < 64 := fun i d hd =>
    hds d (List.mem_of_mem_drop (List.mem_of_mem_take hd))
  have hl₀ : (ds.take 2).length = 2 := by rw [List.length_take, hl]; rfl
  have hlg : ∀ i : Fin 5, ((ds.drop (2 + 4 * i.val)).take 4).length = 4 := by
    intro i
    rw [List.length_take, List.length_drop, hl]
    omega
  have hn := value_first hds hl h₀
  have hm : ∀ i : Fin 5, value 64 ((ds.drop (2 + 4 * i.val)).take 4) < 2 ^ 24 := by
    intro i
    have hlt := value_lt (by norm_num : 1 < 64) (hgroup i)
    rwa [hlg i] at hlt
  have heq : ds.map digit64 = (ds.take 2).map digit64 ++
      ((List.finRange 5).map fun i =>
        ((ds.drop (2 + 4 * i.val)).take 4).map digit64).flatten := by
    have h := congrArg (List.map digit64) (eq_groups hl)
    rwa [List.map_append, List.map_flatten, List.map_map] at h
  have hexpand := @expand_groups ((ds.take 2).map digit64)
    (fun i => ((ds.drop (2 + 4 * i.val)).take 4).map digit64)
    (by rw [List.length_map, hl₀]) (fun i => by rw [List.length_map, hlg i]) _ _
    (fromBase64_digits hfirst (by omega)) fun i => fromBase64_digits (hgroup i) (hlg i).le
  rw [← heq] at hexpand
  refine ⟨_, hexpand, ?_⟩
  -- each group is written again from the number it was read as
  have hv₀ : firstGroup (uuidOf (UInt8.ofNat (value 64 (ds.take 2)) :: ((List.finRange 5).map
      fun i => splitBytes (value 64 ((ds.drop (2 + 4 * i.val)).take 4))).flatten)) =
      (ds.take 2).map digit64 := by
    rw [firstGroup, uuidOf_getElem, List.getD_cons_zero, UInt8.toNat_ofNat_of_lt' hn]
    have hw := written_value (by norm_num) hfirst
    rw [hl₀] at hw
    rw [hw]
  have hv : group (uuidOf (UInt8.ofNat (value 64 (ds.take 2)) :: ((List.finRange 5).map
      fun i => splitBytes (value 64 ((ds.drop (2 + 4 * i.val)).take 4))).flatten)) =
      fun i => ((ds.drop (2 + 4 * i.val)).take 4).map digit64 := by
    funext i
    have hw := written_value (by norm_num) (hgroup i)
    rw [hlg i] at hw
    rw [group, threeBytes_uuidOf hm, hw]
  rw [compress_eq, hv₀, hv, ← heq]

/-! ### The constructors -/

/-- A generated id passes its check, and is the id its text gives. -/
theorem generate_ofString (v : Uuid) :
    ∃ s, Canonical s ∧ IfcGlobalId.generate v = .done ⟨s, v⟩ false ∧
      IfcGlobalId.ofString s = .done ⟨s, v⟩ false := by
  obtain ⟨s, bytes, hc, -, -, he, hu⟩ := expand_compress v
  refine ⟨s, canonical_compress hc, ?_, ?_⟩
  · simp [IfcGlobalId.generate, hc, he, hu]
  · simp [IfcGlobalId.ofString, hc, he, hu]

/-- A UUID is written in a bounded number of steps: the constructor of a text ends. -/
theorem ofString_ne_endless (s : Str) : IfcGlobalId.ofString s ≠ .endless := by
  unfold IfcGlobalId.ofString
  split
  · nofun
  · rw [compress_eq]
    nofun

/-- The check of an id built from a text passes for the canonical texts, which are distinct ids,
and for no other: there the constructor throws or logs, and it always ends. -/
theorem ofString_passes_iff (s : Str) :
    ((∃ id, IfcGlobalId.ofString s = .done id false) ↔ Canonical s) ∧
      (¬ Canonical s → (∃ e, IfcGlobalId.ofString s = .exception e) ∨
        ∃ id, IfcGlobalId.ofString s = .done id true) := by
  have hiff : (∃ id, IfcGlobalId.ofString s = .done id false) ↔ Canonical s := by
    constructor
    · rintro ⟨id, h⟩
      simp only [IfcGlobalId.ofString] at h
      split at h
      · cases h
      · split at h
        · cases h
        · rename_i t ht
          have hst : (s != t) = false := (Constructed.done.inj h).2
          obtain rfl : s = t := by simpa using hst
          exact canonical_compress ht
    · intro h
      obtain ⟨bytes, he, hc⟩ := compress_canonical h
      exact ⟨⟨s, uuidOf bytes⟩, by simp [IfcGlobalId.ofString, he, hc]⟩
  refine ⟨hiff, fun hnot => ?_⟩
  cases h : IfcGlobalId.ofString s with
  | endless => exact absurd h (ofString_ne_endless s)
  | exception e => exact .inl ⟨e, rfl⟩
  | done id logged =>
    cases logged with
    | true => exact .inr ⟨id, rfl⟩
    | false => exact absurd (hiff.1 ⟨id, h⟩) hnot

end VulcanDB.Ifcparse
