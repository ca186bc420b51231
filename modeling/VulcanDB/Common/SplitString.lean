import VulcanDB.Library.Block
import VulcanDB.Library.Numbers
import VulcanDB.Library.Stream

/-!
# Common — Splitting strings

The overloads of `split_string`.  One cuts the cells of a string in place; the others search and
copy, and keep the place that is found in an `int`, which also counts the place behind it.

* `splitString_eq`: the pieces of the first.
* `splitLoop_short`, `splitLoop_long`: the pieces of the others, and what a long one leads to.
* `splits_agree_iff`: when all overloads give the same pieces.
-/

namespace VulcanDB.Common

open Cxx

/-! ### The strings -/

/-- `str.find_first_of(delim)`, as an `int` -1 if there is none. -/
def findFirstOfAny (s delim : Str) : ℤ :=
  if s.any delim.contains then (s.takeWhile fun c => !delim.contains c).length else -1

/-- The first delimiter is behind the text before it. -/
theorem findFirstOfAny_append {a b : Str} {c : Char} (h : c ∉ a) :
    findFirstOfAny (a ++ c :: b) [c] = a.length := by
  have hany : (a ++ c :: b).any [c].contains = true := by simp
  have hstop : (a ++ c :: b).takeWhile (fun x => !([c].contains x)) = a :=
    takeWhile_append_stop (fun x hx => by
      have hne : x ≠ c := fun heq => h (heq ▸ hx)
      simpa using hne) (by simp)
  rw [findFirstOfAny, if_pos hany, hstop]

theorem findFirstOfAny_of_notMem {s : Str} {c : Char} (h : c ∉ s) :
    findFirstOfAny s [c] = -1 := by
  refine if_neg ?_
  rw [List.any_eq_true]
  rintro ⟨x, hx, hc⟩
  exact h ((by simpa using hc : x = c) ▸ hx)

theorem next_lt {tmpStr delim next : Str} (hcut : asInt (findFirstOfAny tmpStr delim) ≠ -1)
    (h : substr tmpStr (asInt (asInt (findFirstOfAny tmpStr delim) + 1)) (-1) = .ok next) :
    next.length < tmpStr.length := by
  have hsucc := asInt_succ (findFirstOfAny tmpStr delim)
  have hne : tmpStr ≠ [] := by
    rintro rfl
    exact hcut (asInt_short (n := -1) le_rfl (by decide))
  have hpos := List.length_pos_iff.mpr hne
  rw [substr] at h
  split at h
  · cases h
  · rw [← Except.ok.inj h, if_pos (by decide), List.length_drop]
    split at hsucc <;> omega

/-- The loop of the overloads for strings, where `insert` enters a piece into the results. -/
def splitLoop {R : Type} (insert : R → Str → R) (delim tmpStr : Str) (results : R) :
    Except Fault R :=
  if _hcut : asInt (findFirstOfAny tmpStr delim) = -1 then
    .ok (if tmpStr.length > 0 then insert results tmpStr else results)
  else
    let cutAt := asInt (findFirstOfAny tmpStr delim)
    -- `substr(0, cut_at)`, which does not throw
    let results := if cutAt > 0 then insert results (tmpStr.take cutAt.toNat) else results
    match _h : substr tmpStr (asInt (asInt (findFirstOfAny tmpStr delim) + 1)) (-1) with
    | .error e => .error e
    | .ok next => splitLoop insert delim next results
termination_by tmpStr.length
decreasing_by exact next_lt ‹_› ‹_›

/-- The overload for a vector. -/
def splitVector (str delim : Str) (results : List Str) : Except Fault (List Str) :=
  splitLoop (fun results piece => results ++ [piece]) delim str results

/-- The overload for a set. -/
def splitSet (str delim : Str) (results : Finset Str) : Except Fault (Finset Str) :=
  splitLoop (fun results piece => insert piece results) delim str results

section Loop

variable {R : Type} {insert : R → Str → R} {c : Char}

/-- The last piece, behind which there is no delimiter. -/
theorem splitLoop_last {s : Str} (h : c ∉ s) (results : R) :
    splitLoop insert [c] s results =
      .ok (if s.length > 0 then insert results s else results) := by
  rw [splitLoop, dif_pos (by rw [findFirstOfAny_of_notMem h]; rfl)]

/-- One turn of the loop, where the search has found something. -/
theorem splitLoop_next {tmpStr next : Str} {cutAt : ℤ}
    (hcut : asInt (findFirstOfAny tmpStr [c]) = cutAt) (hne : cutAt ≠ -1)
    (hnext : substr tmpStr (asInt (cutAt + 1)) (-1) = .ok next) (results : R) :
    splitLoop insert [c] tmpStr results = splitLoop insert [c] next
      (if cutAt > 0 then insert results (tmpStr.take cutAt.toNat) else results) := by
  subst hcut
  rw [splitLoop, dif_neg hne]
  simp only
  split
  · rename_i e herror
    cases herror.symm.trans hnext
  · rename_i next' hok
    rw [Except.ok.inj (hok.symm.trans hnext)]

/-- A place before the string throws: the cut is negative, or the largest `int`. -/
theorem splitLoop_throws {tmpStr : Str} {cutAt : ℤ}
    (hcut : asInt (findFirstOfAny tmpStr [c]) = cutAt) (hneg : cutAt < -1 ∨ cutAt + 1 = 2 ^ 31)
    (results : R) : splitLoop insert [c] tmpStr results = .error .outOfRange := by
  subst hcut
  have hthrow : substr tmpStr (asInt (asInt (findFirstOfAny tmpStr [c]) + 1)) (-1) =
      .error .outOfRange := by
    rw [substr, asInt_succ, if_pos (.inl (by split <;> omega))]
  rw [splitLoop, dif_neg (by omega)]
  simp only
  split
  · rename_i e herror
    rw [Except.error.inj (herror.symm.trans hthrow)]
  · rename_i next hok
    cases hok.symm.trans hthrow

/-- The rest of the text behind a cut, as far as an `int` goes. -/
theorem substr_next (tmpStr : Str) (n : ℕ) (h : n < tmpStr.length) (hint : n + 1 < 2 ^ 31) :
    substr tmpStr (asInt ((n : ℤ) + 1)) (-1) = .ok (tmpStr.drop (n + 1)) := by
  have hnat : ((n : ℤ) + 1).toNat = n + 1 := by omega
  rw [asInt_short (by omega) (by omega), substr_ok _ (by omega) (by omega),
    if_pos (by decide), hnat]

/-- A piece that is short is entered, unless it is empty. -/
theorem splitLoop_piece {l s : Str} (hl : c ∉ l) (hshort : l.length + 1 < 2 ^ 31) (results : R) :
    splitLoop insert [c] (l ++ c :: s) results =
      splitLoop insert [c] s (if l.length > 0 then insert results l else results) := by
  have hcut : asInt (findFirstOfAny (l ++ c :: s) [c]) = l.length := by
    rw [findFirstOfAny_append hl, asInt_short (by omega) (by omega)]
  have hnext := substr_next (l ++ c :: s) l.length (by simp) hshort
  rw [← List.drop_drop, List.drop_left, List.drop_one, List.tail_cons] at hnext
  rw [splitLoop_next hcut (by omega) hnext, Int.toNat_natCast, List.take_left]
  simp only [gt_iff_lt, Int.natCast_pos]

/-- All pieces that are not empty are entered, if those before a delimiter are short. -/
theorem splitLoop_short {s : Str} (h : ∀ l ∈ (s.splitOn c).dropLast, l.length + 1 < 2 ^ 31)
    (results : R) : splitLoop insert [c] s results =
      .ok (((s.splitOn c).filter (!·.isEmpty)).foldl insert results) := by
  induction s using text_induction (d := c) generalizing results with
  | hlast s hs =>
      rw [splitLoop_last hs, List.splitOn_eq_singleton hs]
      cases s with
      | nil => rfl
      | cons x s => rfl
  | hpiece l s hl ih =>
      rw [List.splitOn_append_cons_self_of_not_mem hl,
        List.dropLast_cons_of_ne_nil (List.splitOn_ne_nil _ _), List.forall_mem_cons] at h
      rw [splitLoop_piece hl h.1, ih h.2, List.splitOn_append_cons_self_of_not_mem hl]
      cases l with
      | nil => rfl
      | cons x l => rfl

end Loop

/-- A search that finds a place of which `int` makes -1. -/
theorem splitVector_minus_one {l s : Str} {c : Char} (hl : c ∉ l) (h : asInt l.length = -1)
    (results : List Str) : splitVector (l ++ c :: s) [c] results =
      .ok (results ++ [l ++ c :: s]) := by
  rw [splitVector, splitLoop, dif_pos (by rw [findFirstOfAny_append hl, h]), if_pos (by simp)]

/-- **Behind a long piece** the cut is off, and the rest is entered with the delimiter. -/
theorem splitVector_long {l s : Str} {c : Char} (hl : c ∉ l) (hlong : 2 ^ 31 ≤ l.length + 1)
    {results r : List Str} (h : splitVector (l ++ c :: s) [c] results = .ok r) :
    ∃ piece ∈ r, c ∈ piece := by
  have hmem : ∀ l', c ∈ l' ++ c :: s := fun l' => by simp
  obtain ⟨k, hk, hlt⟩ := asInt_wraps l.length
  have hcut := congrArg asInt (findFirstOfAny_append (b := s) hl)
  rcases lt_trichotomy (asInt l.length) (-1) with hneg | hone | hpos
  · rw [splitVector, splitLoop_throws hcut (.inl hneg)] at h
    cases h
  · rw [splitVector_minus_one hl hone] at h
    rw [← Except.ok.inj h]
    exact ⟨_, List.mem_append_right _ (List.mem_singleton_self _), hmem l⟩
  · rcases eq_or_ne (asInt l.length + 1) (2 ^ 31) with hmax | hmax
    · rw [splitVector, splitLoop_throws hcut (.inr hmax)] at h
      cases h
    -- the rest of the piece has a length of which `int` makes -1
    obtain ⟨n, hn⟩ := Int.eq_ofNat_of_zero_le (by omega : 0 ≤ asInt l.length)
    rw [hn] at hcut hk hlt hmax
    have hle : n + 1 ≤ l.length := by omega
    have hnext := substr_next (l ++ c :: s) n (by rw [List.length_append]; omega) (by omega)
    rw [List.drop_append_of_le_length hle] at hnext
    have hrest : asInt (l.drop (n + 1)).length = -1 := by
      rw [List.length_drop, asInt, Int.bmod_def]
      split <;> omega
    have hdrop : c ∉ l.drop (n + 1) := fun hc => hl (List.mem_of_mem_drop hc)
    rw [splitVector, splitLoop_next hcut (by omega) hnext, ← splitVector,
      splitVector_minus_one hdrop hrest] at h
    rw [← Except.ok.inj h]
    exact ⟨_, List.mem_append_right _ (List.mem_singleton_self _), hmem _⟩

/-- If a piece before a delimiter is long, the delimiter is entered with what is behind it. -/
theorem splitLoop_long {s : Str} {c : Char} (h : ¬ ∀ l ∈ (s.splitOn c).dropLast, l.length + 1 < 2 ^ 31)
    {results r : List Str} (hr : splitVector s [c] results = .ok r) : ∃ piece ∈ r, c ∈ piece := by
  induction s using text_induction (d := c) generalizing results with
  | hlast s hs =>
      rw [List.splitOn_eq_singleton hs] at h
      exact absurd (by simp) h
  | hpiece l s hl ih =>
      by_cases hlong : 2 ^ 31 ≤ l.length + 1
      · exact splitVector_long hl hlong hr
      rw [List.splitOn_append_cons_self_of_not_mem hl,
        List.dropLast_cons_of_ne_nil (List.splitOn_ne_nil _ _), List.forall_mem_cons] at h
      rw [splitVector, splitLoop_piece hl (by omega)] at hr
      exact ih (fun hs => h ⟨by omega, hs⟩) hr

/-! ### The cells -/

/-- The loop of the overload for a pointer, with the cells from `p` on: the cells with the cuts,
`p` and `l` behind the loop, and where the pieces begin. -/
def cutLoop (dim : Char) (keepNull : Bool) :
    List (Option Char) → ℕ → ℕ → List ℕ → Option (List (Option Char) × ℕ × ℕ × List ℕ)
  | some c :: cells, p, l, results =>
    if c = terminator then some (some c :: cells, p, l, results)
    else if c = dim then
      let results := if p + 1 - l > 1 || keepNull then results ++ [l] else results
      (cutLoop dim keepNull cells (p + 1) (p + 1) results).map fun r =>
        (some terminator :: r.1, r.2)
    else (cutLoop dim keepNull cells (p + 1) l results).map fun r => (some c :: r.1, r.2)
  | _, _, _, _ => none

/-- The overload for a pointer: the strings that the results point to. -/
def splitString (str : Block Char) (dim : Char) (keepNull : Bool) : Option (List Str) := do
  let (cells, p, l, results) ← cutLoop dim keepNull str.cells 0 0 []
  let results := if p - l > 0 || keepNull then results ++ [l] else results
  results.mapM fun l => cString (cells.drop l)

section Cells

variable {dim : Char} {keepNull : Bool}

/-- The loop of the overload for a pointer goes over the cells of a piece. -/
theorem cutLoop_append {a : Str} (ha : terminator ∉ a) (hdim : dim ∉ a)
    (cells : List (Option Char)) (p l : ℕ) (results : List ℕ) :
    cutLoop dim keepNull (a.map some ++ cells) p l results =
      (cutLoop dim keepNull cells (p + a.length) l results).map fun r =>
        (a.map some ++ r.1, r.2) := by
  induction a generalizing p with
  | nil =>
      show cutLoop dim keepNull cells p l results = Option.map id _
      rw [Option.map_id]
      rfl
  | cons c a ih =>
      obtain ⟨hc, ha⟩ := List.ne_and_not_mem_of_not_mem_cons ha
      obtain ⟨hcd, hdim⟩ := List.ne_and_not_mem_of_not_mem_cons hdim
      have hlen : p + (c :: a).length = p + 1 + a.length := by
        rw [List.length_cons]
        omega
      rw [List.map_cons, List.cons_append, cutLoop, if_neg hc.symm, if_neg hcd.symm, ih ha hdim,
        Option.map_map, hlen]
      rfl

/-- The last piece. -/
theorem cutLoop_last {s : Str} (hs : terminator ∉ s) (hdim : dim ∉ s) (p l : ℕ)
    (results : List ℕ) : cutLoop dim keepNull (store s) p l results =
      some (store s, p + s.length, l, results) := by
  rw [store, cutLoop_append hs hdim]
  rfl

/-- A piece and the cut behind it. -/
theorem cutLoop_piece {a b : Str} (ha : terminator ∉ a) (hdim : dim ∉ a)
    (hterminator : dim ≠ terminator) (p : ℕ) (results : List ℕ) :
    cutLoop dim keepNull (store (a ++ dim :: b)) p p results =
      (cutLoop dim keepNull (store b) (p + (a.length + 1)) (p + (a.length + 1))
        (results ++ if !a.isEmpty || keepNull then [p] else [])).map fun r =>
          (store a ++ r.1, r.2) := by
  have hcells : store (a ++ dim :: b) = a.map some ++ some dim :: store b := by simp [store]
  have hlong : decide (p + a.length + 1 - p > 1) = !a.isEmpty := by
    cases a with
    | nil => simp
    | cons c a =>
        simp only [List.length_cons, List.isEmpty_cons, Bool.not_false, decide_eq_true_eq]
        omega
  have hresults : (if !a.isEmpty || keepNull then results ++ [p] else results) =
      results ++ if !a.isEmpty || keepNull then [p] else [] := by
    split
    · rfl
    · exact (List.append_nil _).symm
  rw [hcells, cutLoop_append ha hdim, cutLoop, if_neg hterminator, if_pos rfl]
  simp only [hlong, hresults, Option.map_map]
  rw [← Nat.add_assoc]
  refine congrArg (Option.map · _) (funext fun r => ?_)
  simp [store]

/-- The pieces of a string, without those that are empty or with them. -/
def pieces (s : Str) (dim : Char) (keepNull : Bool) : List Str :=
  (s.splitOn dim).filter fun piece => !piece.isEmpty || keepNull

/-- A text without a delimiter is one piece. -/
theorem pieces_last {s : Str} (hdim : dim ∉ s) :
    pieces s dim keepNull = if !s.isEmpty || keepNull then [s] else [] := by
  rw [pieces, List.splitOn_eq_singleton hdim, List.filter_cons, List.filter_nil]

/-- The first piece, and those of the rest. -/
theorem pieces_append {a : Str} (hdim : dim ∉ a) (b : Str) :
    pieces (a ++ dim :: b) dim keepNull =
      (if !a.isEmpty || keepNull then [a] else []) ++ pieces b dim keepNull := by
  rw [pieces, List.splitOn_append_cons_self_of_not_mem hdim, List.filter_cons]
  split
  · rfl
  · rfl

/-- **The loop**, behind the cells that it has gone over. -/
theorem cutLoop_pieces {s : Str} (hs : terminator ∉ s) (pre : List (Option Char))
    (results : List ℕ) : ∃ cells p l starts,
      cutLoop dim keepNull (store s) pre.length pre.length results =
        some (cells, p, l, results ++ starts) ∧
      (starts ++ if p - l > 0 || keepNull then [l] else []).mapM
        (fun l => cString ((pre ++ cells).drop l)) = some (pieces s dim keepNull) := by
  induction s using text_induction (d := dim) generalizing pre results with
  -- no delimiter is left: the last piece ends at the NUL
  | hlast s hdim =>
      refine ⟨store s, pre.length + s.length, pre.length, [], ?_, ?_⟩
      · rw [List.append_nil]
        exact cutLoop_last hs hdim _ _ results
      · have hread : cString (store s) = some s := by
          have hcells := cString_store hs []
          rwa [List.append_nil] at hcells
        have hlong : decide (pre.length + s.length - pre.length > 0) = !s.isEmpty := by
          cases s <;> simp
        rw [pieces_last hdim, List.nil_append, hlong]
        split
        · simp [hread]
        · rfl
  -- the first delimiter becomes the NUL of its piece
  | hpiece a b hdim ih =>
      rw [List.mem_append, List.mem_cons, not_or, not_or] at hs
      obtain ⟨ha, hterminator, hb⟩ := hs
      obtain ⟨cells, p, l, starts, hloop, hpieces⟩ := ih hb (pre ++ store a)
        (results ++ if !a.isEmpty || keepNull then [pre.length] else [])
      rw [List.length_append, length_store] at hloop
      refine ⟨store a ++ cells, p, l,
        (if !a.isEmpty || keepNull then [pre.length] else []) ++ starts, ?_, ?_⟩
      · rw [cutLoop_piece ha hdim (Ne.symm hterminator), hloop, Option.map_some,
          List.append_assoc]
      · have hread := cString_store ha cells
        rw [List.append_assoc] at hpieces
        rw [pieces_append hdim, List.append_assoc, List.mapM_append, hpieces]
        split
        · simp [hread]
        · rfl

/-- **The overload for a pointer.** -/
theorem splitString_eq {s : Str} (hs : terminator ∉ s) (dim : Char) (keepNull : Bool) :
    splitString (strdup s) dim keepNull = some (pieces s dim keepNull) := by
  obtain ⟨cells, p, l, starts, hloop, hpieces⟩ := @cutLoop_pieces dim keepNull s hs [] []
  have hresults : (if p - l > 0 || keepNull then starts ++ [l] else starts) =
      starts ++ if p - l > 0 || keepNull then [l] else [] := by
    split
    · rfl
    · exact (List.append_nil _).symm
  rw [splitString, strdup, show ([] : List (Option Char)).length = 0 from rfl] at *
  rw [hloop]
  simp only [Option.bind_eq_bind, Option.bind_some, List.nil_append, hresults] at hpieces ⊢
  exact hpieces

end Cells

/-! ### All overloads -/

theorem notMem_of_mem_splitOn {s l : Str} {dim : Char} (h : l ∈ s.splitOn dim) : dim ∉ l := by
  induction s using text_induction (d := dim) with
  | hlast s hdim =>
      rw [List.splitOn_eq_singleton hdim, List.mem_singleton] at h
      exact h ▸ hdim
  | hpiece a b hdim ih =>
      rw [List.splitOn_append_cons_self_of_not_mem hdim, List.mem_cons] at h
      rcases h with rfl | h
      · exact hdim
      · exact ih h

theorem foldl_push (ps results : List Str) :
    ps.foldl (fun results piece => results ++ [piece]) results = results ++ ps := by
  induction ps generalizing results with
  | nil => exact (List.append_nil _).symm
  | cons p ps ih => rw [List.foldl_cons, ih, List.append_assoc, List.singleton_append]

theorem foldl_insert (ps : List Str) :
    ps.foldl (fun results piece => insert piece results) ∅ = ps.toFinset := by
  induction ps using List.reverseRecOn with
  | nil => rfl
  | append_singleton ps p ih =>
      rw [List.foldl_concat, ih, List.toFinset_append, Finset.union_comm]
      rfl

/-- The overload for a vector, on short pieces. -/
theorem splitVector_short {s : Str} {dim : Char}
    (h : ∀ l ∈ (s.splitOn dim).dropLast, l.length + 1 < 2 ^ 31) :
    splitVector s [dim] [] = .ok (pieces s dim false) := by
  rw [splitVector, splitLoop_short h, foldl_push, List.nil_append]
  simp only [pieces, Bool.or_false]

theorem splitSet_short {s : Str} {dim : Char}
    (h : ∀ l ∈ (s.splitOn dim).dropLast, l.length + 1 < 2 ^ 31) :
    splitSet s [dim] ∅ = .ok (pieces s dim false).toFinset := by
  rw [splitSet, splitLoop_short h, foldl_insert]
  simp only [pieces, Bool.or_false]

/-- The pieces that the overload for a vector gives are those of the string only if all before a
delimiter are short. -/
theorem short_of_splitVector {s : Str} {dim : Char} {ps : List Str}
    (h : splitVector s [dim] [] = .ok ps) (hps : ∀ l ∈ ps, dim ∉ l) :
    ∀ l ∈ (s.splitOn dim).dropLast, l.length + 1 < 2 ^ 31 := by
  by_contra hlong
  obtain ⟨piece, hmem, hdim⟩ := splitLoop_long hlong h
  exact hps piece hmem hdim

/-- The overloads give the same pieces. -/
def SplitsAgree (s : Str) (dim : Char) : Prop :=
  ∃ ps, splitString (strdup s) dim false = some ps ∧ splitVector s [dim] [] = .ok ps ∧
    splitSet s [dim] ∅ = .ok ps.toFinset

/-- **The condition is necessary**: a longer piece throws. -/
theorem short_of_agree {s : Str} (hs : terminator ∉ s) {dim : Char} (h : SplitsAgree s dim) :
    ∀ l ∈ (s.splitOn dim).dropLast, l.length + 1 < 2 ^ 31 := by
  obtain ⟨ps, hstring, hvector, -⟩ := h
  rw [splitString_eq hs] at hstring
  refine short_of_splitVector hvector fun l hl => ?_
  rw [← Option.some.inj hstring] at hl
  exact notMem_of_mem_splitOn (List.mem_of_mem_filter hl)

/-- **Main result.**  The overloads agree if and only if all pieces before a delimiter are shorter
than `2 ^ 31 - 1`: of a place `2 ^ 31 - 1` the `int` has no next one. -/
theorem splits_agree_iff {s : Str} (hs : terminator ∉ s) (dim : Char) :
    SplitsAgree s dim ↔ ∀ l ∈ (s.splitOn dim).dropLast, l.length + 1 < 2 ^ 31 :=
  ⟨short_of_agree hs, fun h =>
    ⟨pieces s dim false, splitString_eq hs dim false, splitVector_short h, splitSet_short h⟩⟩

/-- Delimiters at both ends, and one behind another. -/
theorem splits_agree_repeated : SplitsAgree ",a,,b,".toList ',' :=
  (splits_agree_iff (by decide) ',').mpr (by decide)

/-- A piece of `2 ^ 31 - 1` characters. -/
theorem splits_not_always_agree :
    ¬ SplitsAgree (List.replicate (2 ^ 31 - 1) 'a' ++ ",".toList) ',' := by
  have hpiece : ',' ∉ List.replicate (2 ^ 31 - 1) 'a' := fun h =>
    absurd (List.eq_of_mem_replicate h) (by decide)
  have hs : terminator ∉ List.replicate (2 ^ 31 - 1) 'a' ++ ",".toList := by
    rw [List.mem_append, not_or]
    exact ⟨fun h => absurd (List.eq_of_mem_replicate h) (by decide), by decide⟩
  intro h
  have hshort := short_of_agree hs h
  have hsplit := List.splitOn_append_cons_self_of_not_mem hpiece []
  replace hshort := hshort (List.replicate (2 ^ 31 - 1) 'a') (by
    show _ ∈ ((List.replicate (2 ^ 31 - 1) 'a' ++ [',']).splitOn ',').dropLast
    rw [hsplit, List.splitOn_nil, List.dropLast_cons_of_ne_nil (List.cons_ne_nil _ _)]
    exact List.mem_cons_self)
  rw [List.length_replicate] at hshort
  omega

end VulcanDB.Common
