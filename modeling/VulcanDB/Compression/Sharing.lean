import VulcanDB.Compression.Runs

/-!
# Compression — Sharing

Two instances get one base id exactly when they are the same type and content once their
references are unfolded.  The only thing that can go wrong is `trim`: a line, or the text before
the `(` of an instance, that is two blanks or more throws an exception.

* `sharing_iff`: sharing is structural equality, for the sections without such a text.
-/

namespace VulcanDB.Compression

open Cxx HashCons

/-- Distinct ids, no blank token, references that are `#` and digits, to defined ids, without a
cycle. -/
structure WellFormed (precision : Int) (ls : List Str) : Prop where
  distinct : ((instances ls).map idOf).Nodup
  noBlank : ∀ l ∈ instances ls, NoBlankToken (argsText l)
  refs : ∀ l ∈ instances ls, ∀ t ∈ tokens (argsText l), (cutOf t).pp.head? = some '#' →
    (cutOf t).pp.tail ≠ [] ∧ ∀ c ∈ (cutOf t).pp.tail, c.isDigit = true
  defined : ∀ n ∈ nodes ⟨false, precision, binary64⟩ ls, ∀ a ∈ n.args, ∃ l ∈ instances ls, idOf l = a
  acyclic : Acyclic (nodes ⟨false, precision, binary64⟩ ls)

/-- Both loops end, Step 2 after as many rounds as some chain of references is long at most, with
an id for every instance, and one id for two instances exactly when they unfold to one tree. -/
def SharingExact (head : HeadLoop) (precision : Int) (text : Str) (ls : List Str) : Prop :=
  ∃ fuel ifcHead is w₀ w₁ m w,
    reading (addInstance .compressor ⟨false, precision, binary64⟩) head fuel text Work.start =
      some (.ok (ifcHead, is, w₀)) ∧
    endStep1 w₀ = .ok w₁ ∧ rounds .compressor m w₁ = .ok w ∧ w.umSet.totalCount = 0 ∧
    (∃ fuel, resolveLoop .compressor fuel w₁ = some (.ok w)) ∧
    (m = 0 ∨ ∃ c, IsRefChain (nodes ⟨false, precision, binary64⟩ ls) c ∧ c.length = m) ∧
    (∀ l ∈ instances ls, w.mSet.idBaseID.find (idOf l) ≠ none) ∧
    ∀ l ∈ instances ls, ∀ l' ∈ instances ls,
      (w.mSet.idBaseID.find (idOf l) = w.mSet.idBaseID.find (idOf l') ↔
        ∃ t, Unfolds (nodes ⟨false, precision, binary64⟩ ls) (idOf l) t ∧
          Unfolds (nodes ⟨false, precision, binary64⟩ ls) (idOf l') t)

/-- The ids of a section's nodes are those of its lines. -/
theorem nodes_id (mode : Mode) (ls : List Str) :
    (nodes mode ls).map Node.id = (instances ls).map idOf := by
  rw [nodes, List.map_map]
  rfl

/-- In a well-formed section each cited id has a node. -/
theorem WellFormed.defined_node {precision : Int} {ls : List Str} (h : WellFormed precision ls) :
    ∀ n ∈ nodes ⟨false, precision, binary64⟩ ls, ∀ a ∈ n.args,
      ∃ m ∈ nodes ⟨false, precision, binary64⟩ ls, m.id = a := by
  intro n hn a ha
  obtain ⟨l, hl, rfl⟩ := h.defined n hn a ha
  exact ⟨node ⟨false, precision, binary64⟩ l, List.mem_map_of_mem hl, rfl⟩

/-- The run on a well-formed section that is readable. -/
theorem WellFormed.sharing {head : HeadLoop} {precision : Int} {text : Str} {ls : List Str}
    (h : WellFormed precision ls) (hsec : DataSection text ls) (hread : Readable ls) :
    SharingExact head precision text ls := by
  set ns := nodes ⟨false, precision, binary64⟩ ls with hns
  have hid : (ns.map Node.id).Nodup := by rw [hns, nodes_id]; exact h.distinct
  have hground : AllGrounded ns := allGrounded_of_acyclic h.defined_node h.acyclic
  obtain ⟨more, hd⟩ := dataLines_of_section head hsec
  obtain ⟨-, -, -, -, hend⟩ := hsec
  -- the section is read to its end, and each pass is one of the abstract run
  obtain ⟨fuel, is, w₀, hr, hreads, -⟩ :=
    reading_closed .compressor ⟨false, precision, binary64⟩ hd hend hread
  obtain ⟨w₁, he, hsim⟩ := hreads.endStep1
  obtain ⟨k, hk⟩ := (ends_iff ns).mpr hground
  obtain ⟨m, hm, hfirst⟩ := exists_first hk
  obtain ⟨w, hrounds, hsim', hloop⟩ := hsim.resolveLoop_ends hm hfirst
  have hrel : ∀ i, w.mSet.idBaseID.find i = (after ns (1 + m)).1.rel i := fun i => by
    rw [hsim'.tracks.rel]
  have hmem : ∀ l ∈ instances ls, ∃ n ∈ ns, n.id = idOf l := fun l hl =>
    ⟨node ⟨false, precision, binary64⟩ l, List.mem_map_of_mem hl, rfl⟩
  refine ⟨fuel, _, is, w₀, w₁, m, w, hr, he, hrounds, hsim'.totalCount_eq_zero.mpr hm,
    ⟨m + 1 + 0, hloop 0⟩, ?_, ?_, ?_⟩
  · -- a node still waiting before the last round starts a chain as long as the rounds made
    rcases Nat.eq_zero_or_pos m with hz | hpos
    · exact .inl hz
    · obtain ⟨n, hn⟩ := List.exists_mem_of_ne_nil _ (hfirst (m - 1) (by omega))
      rw [show 1 + (m - 1) = m by omega] at hn
      obtain ⟨c, -, hlen, hc⟩ := chain_of_waiting h.defined_node hpos n hn
      exact .inr ⟨c, hc, hlen⟩
  · intro l hl
    obtain ⟨n, hn, hni⟩ := hmem l hl
    rw [hrel, ← hni]
    exact (((traces_after ns (1 + m)).complete n hn).resolve_left (by simp [hm])).1
  · intro l hl l' hl'
    have hunf : ∀ l ∈ instances ls, ∃ t, Unfolds ns (idOf l) t := by
      intro l hl
      obtain ⟨n, hn, hni⟩ := hmem l hl
      rw [← hni]
      exact (Grounded.mk hn (hground n hn)).unfolds hid
    obtain ⟨t, ht⟩ := hunf l hl
    obtain ⟨u, hu⟩ := hunf l' hl'
    rw [hrel, hrel, rel_eq_iff_unfold hid hm ht hu]
    constructor
    · rintro rfl; exact ⟨t, ht, hu⟩
    · rintro ⟨v, hv, hv'⟩
      have e₁ := (rel_eq_iff_unfold hid hm ht hv).mp rfl
      have e₂ := (rel_eq_iff_unfold hid hm hu hv').mp rfl
      rw [e₁, e₂]

/-- **Sharing is structural equality** on a well-formed section, exactly when no line and no type
of it is two blanks or more. -/
theorem sharing_iff (head : HeadLoop) (precision : Int) {text : Str} {ls : List Str}
    (hsec : DataSection text ls) (h : WellFormed precision ls) :
    SharingExact head precision text ls ↔
      (∀ l ∈ ls, ¬ WideBlank l) ∧ ∀ l ∈ instances ls, ¬ WideBlank (typeText l) := by
  have hiff : Readable ls ↔
      (∀ l ∈ ls, ¬ WideBlank l) ∧ ∀ l ∈ instances ls, ¬ WideBlank (typeText l) :=
    and_congr_right fun _ => forall₂_congr fun l hl => and_iff_left (h.noBlank l hl)
  rw [← hiff]
  constructor
  · rintro ⟨fuel, ifcHead, is, w₀, -, -, -, hr, -⟩
    by_contra hread
    obtain ⟨more, hd⟩ := dataLines_of_section head hsec
    obtain ⟨-, -, -, -, hend⟩ := hsec
    exact reading_stopped .compressor ⟨false, precision, binary64⟩ hd hend hread fuel _ hr
  · exact h.sharing hsec

/-- Two instances that unfold to one tree, and a third that does not. -/
def sharedLines : List Str :=
  ["#1=A(3);".toList, "#2=A(3);".toList, "#5=B(#1,(#2));".toList, "#9=B(#2,(#1));".toList,
    "#7=B((#1),#2);".toList]

theorem wellFormed_sharedLines : WellFormed 2 sharedLines where
  distinct := by decide +kernel
  noBlank := by decide +kernel
  refs := by decide +kernel
  defined := by decide +kernel
  acyclic := acyclic_of_lt (by decide +kernel)

theorem sharing_sharedLines : SharingExact .whileGetline 2
    (terminated '\n' (DATA :: sharedLines ++ [ENDSEC])) sharedLines :=
  (sharing_iff .whileGetline 2 ⟨[], [], by decide +kernel, by decide, by decide⟩
    wellFormed_sharedLines).mpr (by decide +kernel)

/-- A type of two blanks. -/
theorem sharing_not_always : ¬ ∀ head precision text ls, DataSection text ls →
    WellFormed precision ls → SharingExact head precision text ls := by
  intro h
  have hsec : DataSection "DATA;\n#1=  (A);\nENDSEC;\n".toList ["#1=  (A);".toList] :=
    ⟨[], [], by decide, by decide, by decide⟩
  have hwf : WellFormed 2 ["#1=  (A);".toList] :=
    ⟨by decide +kernel, by decide +kernel, by decide +kernel, by decide +kernel,
      acyclic_of_lt (by decide +kernel)⟩
  obtain ⟨fuel, ifcHead, is, w₀, -, -, -, hr, -⟩ := h .whileGetline 2 _ _ hsec hwf
  obtain ⟨more, hd⟩ := dataLines_of_section .whileGetline hsec
  exact reading_stopped .compressor ⟨false, 2, binary64⟩ hd (by decide) (by decide +kernel) fuel _ hr

end VulcanDB.Compression
