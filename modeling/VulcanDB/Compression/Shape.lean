import VulcanDB.Compression.Runs

/-!
# Compression — Shape

What a run leaves behind and writes: the counters fit together at every pass, and the file has the
bases under the numbers `1, 2, …`, no two alike, each citing only bases before it.

* `Output.text_eq`: the written file, as the header, the bases and the end of the input.
* `ifcCompressor_shape`: the counters and the written instances.
-/

namespace VulcanDB.Compression

open Cxx HashCons

/-! ### The bases of a run -/

/-- A base as it can be written: on one line, with a type that ends before its `(`. -/
structure Writable (key : Key Label) : Prop where
  isKey : IsKey key
  paren : '(' ∉ key.1.type
  trimmed : Trimmed ' ' key.1.type
  newline : '\n' ∉ key.1.type

/-- The bases of a run can be written on one line each. -/
theorem writable_bases {prog : Program} {mode : Mode} {a : List Str} {k : ℕ} {w : Work}
    (hwhole : ∀ l ∈ instances a, Whole l) (h : Sim prog (nodes mode a) k w) :
    ∀ key ∈ (after (nodes mode a) k).1.bases, Writable key := by
  intro key hkey
  obtain ⟨n, hn, hk⟩ := (traces_after (nodes mode a) k).bases key hkey
  obtain ⟨l, hl, rfl⟩ := List.mem_map.mp hn
  have htype : key.1.type = typeOf l := by rw [(key_eq_some.mp hk).1]; rfl
  exact ⟨h.tracks.keys key hkey, htype ▸ notMem_typeOf l, htype ▸ strip_trimmed ' ' _,
    htype ▸ fun hc => (hwhole l hl).newline (mem_of_mem_typeOf hc)⟩

theorem newline_joinWith {ts : List Str} (h : ∀ t ∈ ts, NormToken t) :
    '\n' ∉ joinWith ',' ts := by
  induction ts with
  | nil => simp [joinWith]
  | cons t ts ih =>
      have ht := (h t (by simp)).newline
      rcases eq_or_ne ts [] with rfl | hne
      · exact ht
      · rw [joinWith_cons t hne, List.mem_append, List.mem_cons]
        rintro (hc | hc | hc)
        · exact ht hc
        · cases hc
        · exact ih (fun s hs => h s (by simp [hs])) hc

/-- A base written as an instance is a whole line. -/
theorem Writable.whole {key : Key Label} (h : Writable key) (k : ℕ) (flag : Bool) :
    Whole (IfcInstance.mk k key.1.type (contentOf key) flag).text := by
  have hsemi : (IfcInstance.mk k key.1.type (contentOf key) flag).text.getLast? = some ';' := by
    rw [IfcInstance.text, List.getLast?_append]
    rfl
  refine ⟨by simp [IfcInstance.text], ⟨by simp [IfcInstance.text], by rw [hsemi]; simp⟩, ?_⟩
  rw [text_eq]
  simp only [List.cons_append, List.mem_cons, List.mem_append, List.not_mem_nil, or_false]
  rintro (hc | hc | hc | hc | hc | hc | hc | hc)
  · cases hc
  · exact ((dec_plain k).2 _ hc).ne rfl rfl
  · cases hc
  · exact h.newline hc
  · cases hc
  · exact newline_joinWith (render_norm h.isKey) hc
  · cases hc
  · cases hc

/-- A reference in the tokens of a base is to one of its numbers. -/
theorem citation_of_render {ts : List Str} {ms : List ℕ}
    (hm : ms.length = (ts.filterMap citeOf).length) {t : Str}
    (ht : t ∈ render (ts.map pieceOf) ms) (hc : citeOf t ≠ none) :
    ∃ m ∈ ms, (cutOf t).pp = '#' :: dec m := by
  induction ts generalizing ms with
  | nil => cases ht
  | cons s ts ih =>
      cases hs : citeOf s with
      | none =>
          rw [List.filterMap_cons_none hs] at hm
          simp only [List.map_cons, pieceOf_text hs, render, List.mem_cons] at ht
          rcases ht with rfl | ht
          · exact absurd hs hc
          · exact ih hm ht
      | some i =>
          rw [List.filterMap_cons_some hs, List.length_cons] at hm
          obtain ⟨m, ms, rfl⟩ := List.exists_cons_of_length_eq_add_one hm
          simp only [List.map_cons, pieceOf_hole hs, render, List.mem_cons] at ht
          rcases ht with rfl | ht
          · exact ⟨m, by simp, by rw [cutOf_citation]⟩
          · obtain ⟨m', hm', he⟩ := ih (by simpa using hm) ht
            exact ⟨m', by simp [hm'], he⟩

/-! ### The written file -/

/-- What follows the section is copied line by line. -/
theorem ifcEnd_eq {is : IStream} (h : is.eof = true → is.rest = []) :
    ifcEnd is = terminated '\n' (ENDSEC :: getlines '\n' is.rest) := by
  rw [ifcEnd, terminated_cons]
  split
  · rename_i he
    rw [h he]
    rfl
  · simp

/-- When nothing waits, nothing is flagged. -/
theorem flagged_of_end {prog : Program} {ns : List (Node Label Int)} {k : ℕ} {w : Work}
    (h : Sim prog ns k w) (hend : (after ns k).2 = []) : flagged w.umSet.slots = [] := by
  have hlen := h.held.length_eq
  rw [hend] at hlen
  exact List.length_eq_zero_iff.mp hlen

/-- What a run that ends has written. -/
theorem ifcCompressor_ok {mode : Mode} {head : HeadLoop} {fuel : ℕ} {text : Str} {out : Output}
    (h : ifcCompressor mode head fuel text = some (.ok out)) :
    ∃ a k tail ists, HasRead head text a tail ∧ Readable a ∧ (∀ l ∈ instances a, Whole l) ∧
      Sim .compressor (nodes mode a) k out.work ∧ (after (nodes mode a) k).2 = [] ∧
      out.work.totalCount ≤ INT_MAX ∧
      reserved out.work.umSet.slots out.work.mSet.index = .ok ists ∧
      ists.map (fun i => { i with flag := true }) =
        basesFrom 0 (after (nodes mode a) k).1.bases ∧
      (∀ l ∈ tail, '\n' ∉ l) ∧
      out.text = headText text ++ terminated '\n' (ists.map (·.text)) ++
        terminated '\n' (ENDSEC :: tail) := by
  unfold ifcCompressor at h
  split at h
  · cases h
  · cases h
  · rename_i ifcHead is w hs
    obtain ⟨a, more, k, hhas, hread, hwhole, hsim, hend, hhead, rfl, heof⟩ := steps_ok hs
    split at h
    · cases h
    · rename_i hmax
      obtain ⟨ists, hres, hists⟩ := (hsim.reserved rfl).reserved
      rw [Option.some.injEq, write, hres] at h
      simp only [bind, Except.bind, pure, Except.pure, Except.ok.injEq] at h
      cases h
      refine ⟨a, k, getlines '\n' is.rest, ists, hhas, hread, hwhole, hsim, hend,
        Nat.not_lt.mp hmax, hres, hists, fun l hl => notMem_of_mem_getlines hl, ?_⟩
      have hflag : (w.umSet.slots.filter (·.2)).map (·.1) = [] := flagged_of_end hsim hend
      simp only [hflag, List.append_nil, ifcEnd_eq heof, hhead]

/-- The text of an instance does not depend on its flag. -/
theorem texts_of_flags {ists bases : List IfcInstance}
    (h : ists.map (fun i => { i with flag := true }) = bases) :
    ists.map (·.text) = bases.map (·.text) := by
  rw [← h, List.map_map]
  rfl

/-- **A section that ends, and whose passes end**, is compressed to its bases. -/
theorem HasRead.compressed {mode : Mode} {head : HeadLoop} {text : Str} {a more : List Str}
    (h : HasRead head text a more) (hread : Readable a) {k : ℕ}
    (hk : (after (nodes mode a) k).2 = []) (hlen : (instances a).length ≤ INT_MAX) :
    ∃ fuel out k', ifcCompressor mode head fuel text = some (.ok out) ∧
      Sim .compressor (nodes mode a) k' out.work ∧ (after (nodes mode a) k').2 = [] ∧
      out.text = headText text ++
        terminated '\n' ((basesFrom 0 (after (nodes mode a) k').1.bases).map (·.text)) ++
        terminated '\n' (ENDSEC :: more) := by
  obtain ⟨fuel, is, w, k', hs, hsim, hend', hrest, heof⟩ := h.steps hread hk
  obtain ⟨ists, hres, hists⟩ := (hsim.reserved rfl).reserved
  have hflag : (w.umSet.slots.filter (·.2)).map (·.1) = [] := flagged_of_end hsim hend'
  have htotal : ¬ INT_MAX < w.totalCount := by
    rw [hsim.total, nodes, List.length_map]
    exact Nat.not_lt.mpr hlen
  refine ⟨fuel, ⟨headText text ++ terminated '\n' (ists.map (·.text)) ++ ifcEnd is, w⟩, k', ?_,
    hsim, hend', ?_⟩
  · rw [ifcCompressor, hs]
    simp only [htotal, if_false, write, hres, bind, Except.bind, pure, Except.pure, hflag,
      List.append_nil]
  · show headText text ++ terminated '\n' (ists.map (·.text)) ++ ifcEnd is = _
    rw [texts_of_flags hists, ifcEnd_eq heof, hrest]

/-- At every pass of Step 2 the counter of the loop is the number of flags that are set. -/
def PassesCounted (mode : Mode) (head : HeadLoop) (text : Str) : Prop :=
  ∀ fuel ifcHead is w₀ w₁ m w,
    reading (addInstance .compressor mode) head fuel text Work.start =
      some (.ok (ifcHead, is, w₀)) →
    endStep1 w₀ = .ok w₁ → rounds .compressor m w₁ = .ok w →
    w.umSet.totalCount = ((w.umSet.slots.map (·.2)).count true : ℕ)

theorem flagged_length (slots : List Slot) :
    (flagged slots).length = (slots.map (·.2)).count true := by
  induction slots with
  | nil => rfl
  | cons s slots ih =>
      obtain ⟨ist, flag⟩ := s
      cases flag with
      | false => rw [flagged_cons_false, ih]; simp
      | true => rw [flagged_cons_true, List.length_cons, ih]; simp

/-- **The counts at every pass**, from the end of Step 1 on. -/
theorem passesCounted (mode : Mode) (head : HeadLoop) (text : Str) :
    PassesCounted mode head text := by
  intro fuel ifcHead is w₀ w₁ m w hr he hm
  obtain ⟨a, -, -, -, -, hreads, -⟩ := reading_ok hr
  rw [(hreads.sim_of_rounds he hm).slotCount, flagged_length]

/-- The file is numbered `1, 2, …`, has no instance twice, and cites only backwards. -/
structure Written (newInc : ℕ) (ists : List IfcInstance) : Prop where
  numbered : ists.map (·.id) = (List.range newInc).map fun (k : ℕ) => (k : Int) + 1
  distinct : (ists.map fun ist => (ist.type, ist.content)).Nodup
  backwards : ∀ (k : ℕ) (ist : IfcInstance), ists[k]? = some ist →
    ∀ t ∈ tokens (argsText ist.text), (cutOf t).pp.head? = some '#' →
      ∃ m, 1 ≤ m ∧ m < k + 1 ∧ (cutOf t).pp = '#' :: dec m

/-- The bases of a table, as they are written. -/
theorem written_bases {T : Table Label Int} (hw : T.WF) (hb : ∀ key ∈ T.bases, Writable key) :
    Written T.bases.length (basesFrom 0 T.bases) where
  numbered := by
    refine List.ext_getElem? fun k => ?_
    rw [List.getElem?_map, basesFrom_getElem?, List.getElem?_map, Option.map_map]
    rcases lt_or_ge k T.bases.length with h | h
    · rw [List.getElem?_eq_getElem h, List.getElem?_range h]
      simp
    · rw [List.getElem?_eq_none h, List.getElem?_eq_none (by simpa using h)]
      rfl
  distinct := by
    have hmap : ∀ (B : List (Key Label)) (n : ℕ), (basesFrom n B).map (fun i => (i.type, i.content)) =
        B.map fun key => (key.1.type, contentOf key) := by
      intro B
      induction B with
      | nil => intro n; rfl
      | cons key B ih => intro n; rw [basesFrom, List.map_cons, List.map_cons, ih]
    rw [hmap]
    refine hw.nodup.map_on fun key hk key' hk' e => ?_
    exact contentOf_injective (hb key hk).isKey (hb key' hk').isKey (Prod.mk.inj e).1
      (Prod.mk.inj e).2
  backwards := by
    intro k ist hk t ht hc
    rw [basesFrom_getElem?, Option.map_eq_some_iff] at hk
    obtain ⟨key, hkey, rfl⟩ := hk
    have hkw := hb key (List.mem_of_getElem? hkey)
    rw [argsText_written hkw.paren, contentOf, tokens_norm_eq (render_norm hkw.isKey)] at ht
    obtain ⟨ts, hts, hp, hm⟩ := hkw.isKey
    rw [hp] at ht
    obtain ⟨m, hmem, he⟩ := citation_of_render hm ht fun h => citeOf_eq_none.mp h hc
    obtain ⟨h₁, h₂⟩ := hw.cites k key hkey m hmem
    exact ⟨m, h₁, Nat.lt_succ_of_le h₂, he⟩

/-- What is written does not depend on the flag that is left in an instance. -/
theorem Written.of_flags {newInc : ℕ} {ists ists' : List IfcInstance} (h : Written newInc ists')
    (e : ists.map (fun i => { i with flag := true }) = ists') : Written newInc ists := by
  subst e
  refine ⟨?_, ?_, fun k ist hk t ht hc => ?_⟩
  · have := h.numbered
    rwa [List.map_map] at this
  · have := h.distinct
    rwa [List.map_map] at this
  · exact h.backwards k { ist with flag := true } (by rw [List.getElem?_map, hk]; rfl) t ht hc

/-- **The shape of the compressed file**, for every run that ends. -/
theorem ifcCompressor_shape {precision : Int} {head : HeadLoop} {fuel : ℕ} {text : Str}
    {out : Output} (h : ifcCompressor ⟨false, precision, binary64⟩ head fuel text = some (.ok out)) :
    PassesCounted ⟨false, precision, binary64⟩ head text ∧
      out.work.newInc + out.work.deleteCount = out.work.totalCount ∧
      out.work.newInc = out.work.mSet.index.length ∧
      ∃ ists tail, reserved out.work.umSet.slots out.work.mSet.index = .ok ists ∧
        out.text = headText text ++ terminated '\n' (ists.map (·.text)) ++
          terminated '\n' (ENDSEC :: tail) ∧
        Written out.work.newInc ists := by
  obtain ⟨a, k, tail, ists, -, -, hwhole, hsim, hend, -, hres, hists, -, htext⟩ :=
    ifcCompressor_ok h
  have hcounts := hsim.counts
  rw [flagged_of_end hsim hend, List.length_nil, Nat.add_zero] at hcounts
  have hwritten := written_bases (after_wf (nodes ⟨false, precision, binary64⟩ a) k)
    (writable_bases hwhole hsim)
  refine ⟨passesCounted _ head text, hcounts, ?_, ists, tail, hres, htext, ?_⟩
  · rw [hsim.tracks.newInc, (hsim.reserved rfl).length]
  · rw [hsim.tracks.newInc]
    exact hwritten.of_flags hists

/-- The run ends without an exception. -/
def completes (r : Option (Except Fault Output)) : Bool :=
  match r with
  | some (.ok _) => true
  | _ => false

/-- A run that completes has an output. -/
theorem exists_output {r : Option (Except Fault Output)} (h : completes r = true) :
    ∃ out, r = some (.ok out) := by
  rcases r with _ | _ | out
  · cases h
  · cases h
  · exact ⟨out, rfl⟩

/-- Two references to be resolved, over two instances that are one. -/
def mergedText : Str := "DATA;\n#7=C(#5);\n#5=B(#1);\n#1=A(3);\n#2=A( 3 );\nENDSEC;\n".toList

/-- Two instances that are merged, and one that cites them. -/
theorem ifcCompressor_shape_merged : ∃ out,
    ifcCompressor ⟨false, 2, binary64⟩ .whileGetline 9 mergedText = some (.ok out) ∧
      out.work.newInc + out.work.deleteCount = out.work.totalCount ∧
      out.work.newInc = out.work.mSet.index.length := by
  obtain ⟨out, h⟩ := exists_output
    (r := ifcCompressor ⟨false, 2, binary64⟩ .whileGetline 9 mergedText) (by decide +kernel)
  exact ⟨out, h, (ifcCompressor_shape h).2.1, (ifcCompressor_shape h).2.2.1⟩

end VulcanDB.Compression
