import VulcanDB.Compression.Idempotence

/-!
# Compression — Default

`compress` without an argument.  It calls `IfcCompressor(input, output, 0, fpr, true)`, and the
overload that these arguments fit best takes them as `flag`, `precision` and `fpr`: coordinates are
rounded, to as many places as the `fpr` of the caller says, none by default.

* `standardToken_whole`: the tokens that rounding leaves alone.
* `default_lossless_iff`: the inputs on which the default is the lossless mode.
-/

namespace VulcanDB.Compression

open Cxx HashCons

/-- `IfcCompressorArg`. -/
structure IfcCompressorArg where
  fpr : Double

/-- `bool fpr = d`. -/
def toBool : Double → Bool
  | .finite _ mag => mag ≠ 0
  | .inf _ => true
  | .nan _ => true

/-- `compress(input_filename, output_filename, comp_arg)`, with the overload of `IfcCompressor`
that its call stands for. -/
def compress (compArg : Option IfcCompressorArg) (fuel : ℕ) (text : Str) :
    Option (Except Fault Output) :=
  let fpr := match compArg with
    | none => false
    | some arg => toBool arg.fpr
  ifcCompressor ⟨true, if fpr then 1 else 0, binary64⟩ .whileGetline fuel text

/-- A run ends and writes this file, with these base ids. -/
def Writes (run : ℕ → Option (Except Fault Output)) (file : Str) (rel : Int → Option ℕ) : Prop :=
  ∃ fuel out, run fuel = some (.ok out) ∧ out.text = file ∧ out.work.mSet.idBaseID.find = rel

/-- `compress` without an argument writes the file of the lossless mode, and merges the instances
that it merges. -/
def DefaultLossless (precision : Int) (text : Str) : Prop :=
  ∀ file rel, Writes (fun fuel => compress none fuel text) file rel ↔
    Writes (fun fuel => ifcCompressor ⟨false, precision, binary64⟩ .whileGetline fuel text) file rel

/-! ### What rounding leaves alone -/

/-- A token that is read as a number is written as the number rounded to no place. -/
def IsWhole (c : Cut) : Prop :=
  (strtod binary64 c.pp).2 = [] ∨ (c.opened ∧ (strtod binary64 c.pp).2 = [')']) →
    putFixed 0 (strtod binary64 c.pp).1 = c.pp

instance (c : Cut) : Decidable (IsWhole c) := by unfold IsWhole; infer_instance

/-- The last whole number before the first that a `double` does not have. -/
example : IsWhole (cutOf "(9007199254740992".toList) ∧
    ¬ IsWhole (cutOf "(9007199254740993".toList) := by decide +kernel

/-- The coordinates of the cartesian points are whole numbers, written as such. -/
def WholePoints (a : List Str) : Prop :=
  ∀ l ∈ instances a, typeOf l = "IFCCARTESIANPOINT".toList →
    ∀ t ∈ tokens (argsText l), citeOf t = none → IsWhole (cutOf t)

/-- What stands between the parentheses is seen in the token. -/
theorem around_injective (c : Cut) {s s' : Str} (h : c.around s = c.around s') : s = s' := by
  rw [Cut.around, Cut.around, List.append_assoc, List.append_assoc] at h
  exact List.append_cancel_right (List.append_cancel_left h)

/-- A token keeps its text in the lossy mode only if it is no coordinate, or a whole number as it is
written. -/
theorem standardToken_whole (type t : Str) : standardToken binary64 type true 0 (cutOf t) = t ↔
    (citeOf t = none → type = "IFCCARTESIANPOINT".toList → IsWhole (cutOf t)) := by
  unfold standardToken
  cases hc : citeOf t with
  | some i =>
      rw [citeOf] at hc
      simp only [hc]
      exact iff_of_true (cutOf_around t) (by simp)
  | none =>
      rw [citeOf] at hc
      simp only [hc, true_imp_iff]
      have hpp : (cutOf t).around (coordinate binary64 type true 0 (cutOf t)) = t ↔
          coordinate binary64 type true 0 (cutOf t) = (cutOf t).pp := by
        conv_lhs => rhs; rw [← cutOf_around t]
        exact ⟨around_injective _, congrArg _⟩
      rw [hpp, coordinate, IsWhole]
      by_cases htype : type = "IFCCARTESIANPOINT".toList
      · by_cases hstops : (strtod binary64 (cutOf t).pp).2 = [] ∨
            ((cutOf t).opened = true ∧ (strtod binary64 (cutOf t).pp).2 = [')'])
        · simp [htype, hstops]
        · simp [htype, hstops]
      · exact iff_of_true (if_pos (.inr (.inl htype))) fun e => absurd e htype

/-- A token that was rounded is rounded. -/
theorem standardToken_rounded (type t : Str) :
    standardToken binary64 type true 0 (cutOf (standardToken binary64 type true 0 (cutOf t))) =
      standardToken binary64 type true 0 (cutOf t) := by
  by_cases hself : standardToken binary64 type true 0 (cutOf t) = t
  · rw [hself, hself]
  · obtain ⟨hcite, -, -⟩ : citeOf t = none ∧ type = "IFCCARTESIANPOINT".toList ∧
        ¬ IsWhole (cutOf t) := by
      rw [standardToken_whole] at hself
      push Not at hself
      exact hself
    have hform : standardToken binary64 type true 0 (cutOf t) =
        (cutOf t).around (coordinate binary64 type true 0 (cutOf t)) := by
      rw [citeOf] at hcite
      rw [standardToken]
      simp only [hcite]
    rw [hform, coordinate] at hself ⊢
    simp only at hself ⊢
    split at hself
    · exact absurd (cutOf_around t) hself
    · rename_i hround
      rw [if_neg hround, standardToken_whole]
      obtain ⟨hne, hp⟩ := putFixed_plain 0 (strtod binary64 (cutOf t).pp).1
      rw [cutOf_around_of_plain _ hne fun x hx => ⟨(hp x hx).ne rfl, (hp x hx).ne rfl⟩]
      exact fun _ _ _ => (putFixed_strtod_zero binary64_settled _).2

/-- On whole coordinates the two modes read the same. -/
theorem nodes_whole {a : List Str} (h : WholePoints a) (precision : Int) :
    nodes ⟨true, 0, binary64⟩ a = nodes ⟨false, precision, binary64⟩ a := by
  refine List.map_congr_left fun l hl => ?_
  have htokens : tokensOf ⟨true, 0, binary64⟩ l = tokensOf ⟨false, precision, binary64⟩ l := by
    refine List.map_congr_left fun t ht => ?_
    rw [standardToken_lossless]
    exact (standardToken_whole _ t).mpr fun hc htype => h l hl htype t ht hc
  rw [node, node, htokens]

/-- Whether a reference is grounded does not depend on the mode. -/
theorem allGrounded_mode {a : List Str} (hwhole : ∀ l ∈ instances a, Whole l) (hread : Readable a)
    {mode mode' : Mode} (h : AllGrounded (nodes mode a)) : AllGrounded (nodes mode' a) := by
  have hargs : ∀ m m' : Mode, ∀ n ∈ nodes m a,
      ∃ n' ∈ nodes m' a, n'.id = n.id ∧ n'.args = n.args := by
    intro m m' n hn
    obtain ⟨l, hl, rfl⟩ := List.mem_map.mp hn
    refine ⟨node m' l, List.mem_map_of_mem hl, rfl, ?_⟩
    have hp := hread.2 l hl
    have hnl := (hwhole l hl).newline
    exact (cites_tokensOf m' hp hnl).symm.trans (cites_tokensOf m hp hnl)
  intro n hn i hi
  obtain ⟨n', hn', -, he⟩ := hargs mode' mode n hn
  exact (h n' hn' i (he ▸ hi)).relabel (hargs mode mode')

/-! ### Equal files -/

/-- Bases that are written as the same lines are the same. -/
theorem bases_of_lines {B B' : List (Key Label)} (hB : ∀ key ∈ B, Writable key)
    (hB' : ∀ key ∈ B', Writable key)
    (h : (basesFrom 0 B).map (·.text) = (basesFrom 0 B').map (·.text)) : B = B' := by
  refine List.ext_getElem? fun k => ?_
  have hk := congrArg (·[k]?) h
  simp only [List.getElem?_map, basesFrom_getElem?, Option.map_map] at hk
  rcases e : B[k]? with _ | key <;> rcases e' : B'[k]? with _ | key' <;>
    simp only [e, e', Option.map_none, Option.map_some, reduceCtorEq, Option.some.injEq] at hk
  · rfl
  · have hw := hB key (List.mem_of_getElem? e)
    have hw' := hB' key' (List.mem_of_getElem? e')
    simp only [Function.comp_apply] at hk
    have htype := congrArg typeOf hk
    rw [(typeOf_written hw.paren hw.trimmed).2, (typeOf_written hw'.paren hw'.trimmed).2] at htype
    have hargs := congrArg argsText hk
    rw [argsText_written hw.paren, argsText_written hw'.paren] at hargs
    rw [contentOf_injective hw.isKey hw'.isKey htype hargs]

/-- A base of the rounding mode that is one of the lossless mode is whole. -/
theorem wholePoints_of_bases {a : List Str} {precision : Int} {k k' : ℕ}
    (hend : (after (nodes ⟨false, precision, binary64⟩ a) k).2 = [])
    (h : (after (nodes ⟨false, precision, binary64⟩ a) k).1.bases =
      (after (nodes ⟨true, 0, binary64⟩ a) k').1.bases) : WholePoints a := by
  intro l hl htype t ht hcite
  -- the key of the instance is one of an instance read with rounding
  obtain ⟨key, hkey, hk⟩ := (after_key (nodes ⟨false, precision, binary64⟩ a) k _
    (List.mem_map_of_mem hl)).resolve_left (by simp [hend])
  rw [h] at hkey
  obtain ⟨n, hn, hk'⟩ := (traces_after (nodes ⟨true, 0, binary64⟩ a) k').bases key hkey
  obtain ⟨l', hl', rfl⟩ := List.mem_map.mp hn
  have hlabel : (node ⟨false, precision, binary64⟩ l).label = (node ⟨true, 0, binary64⟩ l').label :=
    (key_eq_some.mp hk).1.symm.trans (key_eq_some.mp hk').1
  obtain ⟨htypes, hpieces⟩ := Label.mk.inj hlabel
  have hmem : t ∈ tokensOf ⟨false, precision, binary64⟩ l :=
    List.mem_map.mpr ⟨t, ht, standardToken_lossless _ _ t⟩
  have hpiece : Piece.text t ∈ (tokensOf ⟨true, 0, binary64⟩ l').map pieceOf := by
    rw [← hpieces, ← pieceOf_text hcite]
    exact List.mem_map_of_mem hmem
  obtain ⟨t', ht', he⟩ := List.mem_map.mp hpiece
  have htt : t' = t := by
    unfold pieceOf at he
    split at he
    · exact Piece.text.inj he
    · cases he
  obtain ⟨s, -, rfl⟩ := List.mem_map.mp ht'
  rw [← htypes] at htt
  have hfixed := standardToken_rounded (typeOf l) s
  rw [htt] at hfixed
  exact (standardToken_whole _ t).mp hfixed hcite htype

/-! ### The default -/

/-- Two runs in modes that read the same instances write the same, when one ends. -/
theorem writes_of_nodes {mode mode' : Mode} {head : HeadLoop} {text : Str}
    (hnodes : ∀ a more, HasRead head text a more → Readable a →
      (∃ k, (after (nodes mode a) k).2 = []) → (instances a).length ≤ INT_MAX →
      nodes mode' a = nodes mode a)
    {file : Str} {rel : Int → Option ℕ}
    (h : Writes (fun fuel => ifcCompressor mode head fuel text) file rel) :
    Writes (fun fuel => ifcCompressor mode' head fuel text) file rel := by
  obtain ⟨fuel, out, hrun, rfl, rfl⟩ := h
  obtain ⟨a, k, more, ists, hhas, hread, hwhole, hsim, hend, hmax, -, hists, -, htext⟩ :=
    ifcCompressor_ok hrun
  have hlen : (instances a).length ≤ INT_MAX := by
    have := hsim.total
    rw [nodes, List.length_map] at this
    omega
  have heq := hnodes a more hhas hread ⟨k, hend⟩ hlen
  obtain ⟨fuel', out', k', hrun', hsim', hend', htext'⟩ :=
    hhas.compressed (k := k) hread (by rw [heq]; exact hend) hlen
  have hafter : after (nodes mode' a) k' = after (nodes mode a) k := by
    rw [heq] at hend' ⊢
    rcases le_total k k' with hk | hk
    · exact after_stable hend hk
    · exact (after_stable hend' hk).symm
  refine ⟨fuel', out', hrun', ?_, ?_⟩
  · rw [htext', htext, hafter, texts_of_flags hists]
  · rw [hsim'.tracks.rel, hsim.tracks.rel, hafter]

/-- **Main result.**  The default is the lossless mode on exactly the inputs that the compressor
comes to the end of with whole coordinates only: the section ends, nothing stops the reader, every
reference is grounded and the counters hold. -/
theorem default_lossless_iff (precision : Int) (text : Str) : DefaultLossless precision text ↔
    ∀ a more, HasRead .whileGetline text a more → Readable a →
      AllGrounded (nodes ⟨false, precision, binary64⟩ a) → (instances a).length ≤ INT_MAX →
      WholePoints a := by
  constructor
  · intro h a more hhas hread hground hlen
    obtain ⟨k, hk⟩ := (ends_iff _).mpr hground
    obtain ⟨fuel, out, k₁, hrun, hsim, hend, htext⟩ := hhas.compressed hread hk hlen
    obtain ⟨fuel', out', hrun', htext', -⟩ := (h out.text _).mpr ⟨fuel, out, hrun, rfl, rfl⟩
    obtain ⟨a', k', more', ists, hhas', hread', hwhole', hsim', hend', -, -, hists, -, he⟩ :=
      ifcCompressor_ok hrun'
    obtain ⟨rfl, rfl⟩ := hhas.unique hhas'
    have hwritable := writable_bases hwhole' hsim
    have hwritable' := writable_bases hwhole' hsim'
    -- the two files have the same lines, so the same bases
    rw [htext, he, texts_of_flags hists] at htext'
    have hlines := congrArg (getlines '\n') htext'
    rw [getlines_written (basesFrom_whole hwritable') hhas.newline_more,
      getlines_written (basesFrom_whole hwritable) hhas.newline_more] at hlines
    have hsection := (List.cons.inj (List.append_cancel_left hlines)).2
    have hbases := (append_cons_inj endsec_notMem endsec_notMem hsection).1
    exact wholePoints_of_bases hend (bases_of_lines hwritable hwritable' hbases.symm)
  · intro h file rel
    constructor
    · refine writes_of_nodes fun a more hhas hread hk hlen => ?_
      have hground : AllGrounded (nodes ⟨false, precision, binary64⟩ a) :=
        allGrounded_mode (instances_whole hhas.newline) hread ((ends_iff _).mp hk)
      exact (nodes_whole (h a more hhas hread hground hlen) precision).symm
    · refine writes_of_nodes fun a more hhas hread hk hlen => ?_
      exact nodes_whole (h a more hhas hread ((ends_iff _).mp hk) hlen) precision

/-- The run ends with an output of this kind. -/
def outputHas (p : Output → Bool) : Option (Except Fault Output) → Bool
  | some (.ok out) => p out
  | _ => false

/-- A run whose output passes a test has an output that does. -/
theorem exists_outputHas {p : Output → Bool} {r : Option (Except Fault Output)}
    (h : outputHas p r = true) : ∃ out, r = some (.ok out) ∧ p out = true := by
  rcases r with _ | _ | out
  · cases h
  · cases h
  · exact ⟨out, rfl, h⟩

/-- Two cartesian points. -/
def pointsText : Str :=
  "DATA;\n#1=IFCCARTESIANPOINT((1.2,0));\n#2=IFCCARTESIANPOINT((0.9,0));\nENDSEC;\n".toList

/-- By default they are merged, in the lossless mode they are not. -/
theorem default_not_always_lossless : ∃ out out',
    compress none 9 pointsText = some (.ok out) ∧
      ifcCompressor ⟨false, 2, binary64⟩ .whileGetline 9 pointsText = some (.ok out') ∧
      out.work.deleteCount = 1 ∧ out'.work.deleteCount = 0 ∧ ¬ DefaultLossless 2 pointsText := by
  obtain ⟨out, h, hp⟩ := exists_outputHas (r := compress none 9 pointsText)
    (p := fun out => out.work.deleteCount = 1 ∧ out.work.mSet.idBaseID.find 2 = some 1)
    (by decide +kernel)
  obtain ⟨out', h', hp'⟩ := exists_outputHas
    (r := ifcCompressor ⟨false, 2, binary64⟩ .whileGetline 9 pointsText)
    (p := fun out => out.work.deleteCount = 0 ∧ out.work.mSet.idBaseID.find 2 = some 2)
    (by decide +kernel)
  obtain ⟨hdel, hfind⟩ := of_decide_eq_true hp
  obtain ⟨hdel', hfind'⟩ := of_decide_eq_true hp'
  refine ⟨out, out', h, h', hdel, hdel', fun hdef => ?_⟩
  obtain ⟨fuel, out'', hrun, -, hrel⟩ := (hdef out.text _).mp ⟨9, out, h, rfl, rfl⟩
  have hsame : out'' = out' := by
    have h₁ := ifcCompressor_mono hrun 9
    rw [Nat.add_comm, ifcCompressor_mono h' fuel] at h₁
    cases h₁
    rfl
  rw [hsame] at hrel
  have h₂ := congrFun hrel 2
  rw [hfind, hfind'] at h₂
  cases h₂

end VulcanDB.Compression
