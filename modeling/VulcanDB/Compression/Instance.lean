import VulcanDB.Compression.Labels
import VulcanDB.Library.Binary64

/-!
# Compression — Instances

One instance of the DATA section, `#id=TYPE(content);` on a line of its own, as `IfcInstanceAna`
reads it and as the compressor writes it.  The reader takes whatever lies between `#` and the
first `=`, before the first `(` and before the last `)`, and never checks that they are there.
Positions are exact integers here and in the modules of the two programs; with positions in an `int`
the programs are the same on every text whose lines an `int` can count (`Narrow.ifcCompressor_eq`).

* `ifcInstanceAna_eq`, `ifcInstanceAna_error`: the reader, as the parts of the line it cuts out.
* `node_written`: a written instance is read back as the node of its key.
-/

namespace VulcanDB.Compression

open Cxx HashCons

/-- `IfcInstance` of the source. -/
structure IfcInstance where
  id : Int
  type : Str
  content : Str
  flag : Bool
  deriving DecidableEq, Repr

/-- What the overloads take from their arguments or keep in the object, `FPR` and `MAX_PRECISION`,
and how `strtod` rounds: `binary64` where it gives a `double`. -/
structure Mode where
  fpr : Bool
  precision : Int
  round : Rounding

/-- `IfcInstanceAna(instance, type, content, cite)`: the id, the type, the content and the cited
ids. -/
def ifcInstanceAna (mode : Mode) (line : Str) : Except Fault (Int × Str × Str × List Int) := do
  let line ← trim line
  let s := findFirstOf line '='
  let index ← substr line 1 (s - 1)
  let id := atoi index
  let content ← substr line (s + 1) (line.length - s - 1)
  let s := findFirstOf content '('
  let type ← substr content 0 s
  let type ← trim type
  let subContent ← substr content (s + 1) (findLastOf content ')' - s - 1)
  let (content, cite) ← standardContent mode.round type subContent mode.fpr mode.precision
  return (id, type, content, cite)

/-- An instance as it is written, without the end of the line. -/
def IfcInstance.text (ist : IfcInstance) : Str :=
  '#' :: decInt ist.id ++ '=' :: ist.type ++ '(' :: ist.content ++ [')', ';']

/-! ### The parts of a line -/

/-- The text `index` is cut from: a line that starts with `=` wraps the count around. -/
def indexText (line : Str) : Str :=
  if line.head? = some '=' then line.tail else (before '=' line).tail

/-- The id that is read from a line. -/
def idOf (line : Str) : Int := atoi (indexText line)

/-- The text between `=` and the first `(` behind it. -/
def typeText (line : Str) : Str := before '(' (Cxx.after '=' line)

/-- The type that is read from a line. -/
def typeOf (line : Str) : Str := strip ' ' (typeText line)

/-- The text between that `(` and the last `)`. -/
def argsText (line : Str) : Str := beforeLast ')' (Cxx.after '(' (Cxx.after '=' line))

/-- Nothing in the line stops the reader. -/
def Parses (line : Str) : Prop := ¬ WideBlank (typeText line) ∧ NoBlankToken (argsText line)

instance (line : Str) : Decidable (Parses line) := by unfold Parses; infer_instance

/-- The normalised tokens of the content. -/
def tokensOf (mode : Mode) (line : Str) : List Str :=
  (tokens (argsText line)).map fun t =>
    standardToken mode.round (typeOf line) mode.fpr mode.precision (cutOf t)

/-- The instance as a node. -/
def node (mode : Mode) (line : Str) : Node Label Int :=
  nodeOf (idOf line) (typeOf line) (tokensOf mode line)

theorem mem_of_mem_after {c d : Char} {s : Str} (h : d ∈ Cxx.after c s) : d ∈ s := by
  unfold Cxx.after at h
  split at h
  · exact (List.dropWhile_sublist _).mem (List.mem_of_mem_tail h)
  · exact h

/-- The parts of a line have its characters. -/
theorem mem_of_mem_argsText {line : Str} {c : Char} (h : c ∈ argsText line) : c ∈ line := by
  refine mem_of_mem_after (c := '=') (mem_of_mem_after (c := '(') ?_)
  unfold argsText beforeLast at h
  split at h
  · rw [List.mem_reverse] at h
    exact List.mem_reverse.mp ((List.dropWhile_sublist _).mem (List.mem_of_mem_tail h))
  · exact h

theorem mem_of_mem_typeOf {line : Str} {c : Char} (h : c ∈ typeOf line) : c ∈ line :=
  mem_of_mem_after ((List.takeWhile_sublist _).mem (mem_of_mem_strip h))

/-- A type ends before the first parenthesis. -/
theorem notMem_typeOf (line : Str) : '(' ∉ typeOf line :=
  fun h => notMem_before _ _ (mem_of_mem_strip h)

/-- The tokens of an instance that parses are normalised, also the rounded ones. -/
theorem tokensOf_norm (mode : Mode) {line : Str} (h : Parses line) (hl : '\n' ∉ line) :
    ∀ t ∈ tokensOf mode line, NormToken t := by
  intro t ht
  obtain ⟨s, hs, rfl⟩ := List.mem_map.mp ht
  exact (standardToken_norm _ _ _
    (tokens_norm h.2 (fun hc => hl (mem_of_mem_argsText hc)) s hs)).1

/-- The ids the instance cites are those of its tokens, whatever the mode. -/
theorem cites_tokensOf (mode : Mode) {line : Str} (h : Parses line) (hl : '\n' ∉ line) :
    (tokens (argsText line)).filterMap citeOf = (tokensOf mode line).filterMap citeOf := by
  rw [tokensOf, List.filterMap_map]
  refine List.filterMap_congr fun t ht => ?_
  exact ((standardToken_norm _ _ _
    (tokens_norm h.2 (fun hc => hl (mem_of_mem_argsText hc)) t ht)).2).symm

/-! ### Reading -/

theorem substr_index {line : Str} (h : line ≠ []) :
    substr line 1 (findFirstOf line '=' - 1) = .ok (indexText line) := by
  obtain ⟨c, r, rfl⟩ := List.exists_cons_of_ne_nil h
  rw [substr_ok _ (by omega) (by simp)]
  simp only [Int.toNat_one, List.drop_one, List.tail_cons, indexText, List.head?_cons,
    Option.some.injEq]
  by_cases hc : c = '='
  · subst hc
    simp [findFirstOf]
  · rw [if_neg hc, before, List.takeWhile_cons_of_pos (by simpa using hc), List.tail_cons]
    by_cases hr : '=' ∈ r
    · have hf : findFirstOf (c :: r) '=' - 1 = (r.takeWhile (· != '=')).length := by
        rw [findFirstOf, if_pos (by simp [hr]), List.takeWhile_cons_of_pos (by simpa using hc)]
        simp
      rw [hf, if_neg (by simp), Int.toNat_natCast]
      exact congrArg _ (List.prefix_iff_eq_take.mp (List.takeWhile_prefix _)).symm
    · rw [findFirstOf_of_notMem (by simp [hr, Ne.symm hc]), if_pos (by decide)]
      exact congrArg _ (before_of_notMem hr).symm

/-- The reader on a line that nothing stops, up to the call of `standardContent`. -/
theorem ifcInstanceAna_cut (mode : Mode) {line : Str} (hne : line ≠ []) (ht : Trimmed ' ' line) :
    ifcInstanceAna mode line = (do
      let type ← trim (typeText line)
      let (content, cite) ← standardContent mode.round type (argsText line) mode.fpr mode.precision
      return (idOf line, type, content, cite)) := by
  rw [ifcInstanceAna, trim_of_trimmed ht]
  simp only [bind, Except.bind, substr_index hne, substr_after_findFirstOf, substr_findFirstOf,
    substr_to_findLastOf _ (show ')' ≠ '(' by decide)]
  rfl

/-- **The reader** on a line that nothing stops. -/
theorem ifcInstanceAna_eq (mode : Mode) {line : Str} (hne : line ≠ []) (ht : Trimmed ' ' line)
    (hl : '\n' ∉ line) (h : Parses line) : ifcInstanceAna mode line =
      .ok (idOf line, typeOf line, joinWith ',' (tokensOf mode line), (node mode line).args) := by
  rw [ifcInstanceAna_cut mode hne ht, trim_of_not_wideBlank h.1]
  simp only [bind, Except.bind, standardContent_eq _ h.2]
  rw [cites_tokensOf mode h hl]
  rfl

/-- What stops the reader is a blank type or a blank token. -/
theorem ifcInstanceAna_error (mode : Mode) {line : Str} (hne : line ≠ []) (ht : Trimmed ' ' line)
    (h : ¬ Parses line) : ∃ e, ifcInstanceAna mode line = .error e := by
  rw [ifcInstanceAna_cut mode hne ht]
  by_cases hw : WideBlank (typeText line)
  · exact ⟨.outOfRange, by rw [trim_of_wideBlank hw]; rfl⟩
  · obtain ⟨e, he⟩ := standardContent_blank (typeOf line) (fun hb => h ⟨hw, hb⟩) mode.fpr
      mode.precision
    exact ⟨e, by rw [trim_of_not_wideBlank hw]; simp only [bind, Except.bind]; rw [← typeOf, he]⟩

/-! ### Reading a written instance back -/

section Written

variable {k : ℕ} {type content : Str} {flag : Bool}

theorem text_eq : (IfcInstance.mk k type content flag).text =
    ('#' :: dec k) ++ '=' :: (type ++ '(' :: (content ++ ')' :: [';'])) := by
  simp [IfcInstance.text]

theorem notMem_ref (k : ℕ) : '=' ∉ '#' :: dec k := by
  intro h
  rcases List.mem_cons.mp h with h | h
  · cases h
  · exact ((dec_plain k).2 _ h).ne rfl rfl

/-- The type of a written instance is read back. -/
theorem typeOf_written (ht : '(' ∉ type) (htr : Trimmed ' ' type) :
    typeText (IfcInstance.mk k type content flag).text = type ∧
      typeOf (IfcInstance.mk k type content flag).text = type := by
  have h : typeText (IfcInstance.mk k type content flag).text = type := by
    rw [typeText, text_eq, after_append (notMem_ref k), before_append ht]
  exact ⟨h, by rw [typeOf, h, strip_of_trimmed htr]⟩

theorem argsText_written (ht : '(' ∉ type) :
    argsText (IfcInstance.mk k type content flag).text = content := by
  rw [argsText, text_eq, after_append (notMem_ref k), after_append ht,
    beforeLast_append (by decide)]

theorem idOf_written (hk : k ≤ INT_MAX) :
    idOf (IfcInstance.mk k type content flag).text = k := by
  have hi : indexText (IfcInstance.mk k type content flag).text = dec k := by
    rw [text_eq, indexText, if_neg (by simp), before_append (notMem_ref k), List.tail_cons]
  have := atoi_dec hk (t := []) (by simp)
  rwa [List.append_nil, ← hi] at this

/-- Normalised tokens have no blank one among them. -/
theorem noBlankToken_norm {ts : List Str} (h : ∀ t ∈ ts, NormToken t) :
    NoBlankToken (joinWith ',' ts) := by
  intro t ht hb
  rw [getlines_norm h] at ht
  have := strip_of_trimmed (h t ht).trimmed
  rw [strip_of_blank hb] at this
  exact (h t ht).ne_nil this.symm

theorem not_wideBlank_of_trimmed {s : Str} (h : Trimmed ' ' s) : ¬ WideBlank s := by
  rintro ⟨hb, hl⟩
  rw [← strip_of_trimmed h, strip_of_blank hb] at hl
  cases hl

theorem tokens_norm_eq {ts : List Str} (h : ∀ t ∈ ts, NormToken t) :
    tokens (joinWith ',' ts) = ts := by
  rw [tokens, getlines_norm h]
  conv_rhs => rw [← List.map_id ts]
  exact List.map_congr_left fun t ht => strip_of_trimmed (h t ht).trimmed

/-- A written instance parses, and without rounding has the tokens it was written with. -/
theorem tokensOf_written (k : ℕ) (flag : Bool) (ht : '(' ∉ type) (htr : Trimmed ' ' type)
    {ts : List Str} (hts : ∀ t ∈ ts, NormToken t) :
    Parses (IfcInstance.mk k type (joinWith ',' ts) flag).text ∧ ∀ precision,
      tokensOf ⟨false, precision, binary64⟩ (IfcInstance.mk k type (joinWith ',' ts) flag).text =
        ts := by
  constructor
  · rw [Parses, (typeOf_written ht htr).1, argsText_written ht]
    exact ⟨not_wideBlank_of_trimmed htr, noBlankToken_norm hts⟩
  · intro precision
    rw [tokensOf, argsText_written ht, tokens_norm_eq hts]
    conv_rhs => rw [← List.map_id ts]
    exact List.map_congr_left fun t _ => standardToken_lossless _ precision t

end Written

/-- **A written instance is read back** as a node with the key's label, citing its numbers. -/
theorem node_written {key : Key Label} (hk : IsKey key) (hmax : ∀ m ∈ key.2, m ≤ INT_MAX)
    (ht : '(' ∉ key.1.type) (htr : Trimmed ' ' key.1.type) {k : ℕ} (hkm : k ≤ INT_MAX)
    (flag : Bool) (precision : Int) :
    node ⟨false, precision, binary64⟩ (IfcInstance.mk k key.1.type (contentOf key) flag).text =
      ⟨k, key.1, key.2.map Nat.cast⟩ := by
  have hts := (tokensOf_written k flag ht htr (render_norm hk)).2 precision
  rw [node, idOf_written hkm, (typeOf_written ht htr).2, ← nodeOf_contentOf hk hmax k]
  rw [contentOf, hts, getlines_norm (render_norm hk)]

end VulcanDB.Compression
