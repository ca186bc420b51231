import VulcanDB.Compression.Runs

/-!
# Compression — Termination

When the loops end, for every input.  The reading loops never look at the stream, so they end
only on an input that closes its DATA section, or that stops the program with an exception.  The
loop of Step 2 has no measure of its own: it ends exactly when every reference is grounded in
instances without references, so an undefined id or a cycle keeps it going.

* `reading_stops_iff`: the header and DATA loops of every overload.
* `resolveLoop_ends_iff`: the loop of Step 2, after a closed DATA section.
-/

namespace VulcanDB.Compression

open Cxx HashCons

/-! ### Reading -/

/-- The header and DATA loops stop. -/
def ReadingStops (prog : Program) (mode : Mode) (head : HeadLoop) (text : Str) : Prop :=
  ∃ fuel, reading (addInstance prog mode) head fuel text Work.start ≠ none

/-- The header loop stops on the input, and the lines it leaves end the DATA loop. -/
def Closes (head : HeadLoop) (text : Str) : Prop :=
  ∃ ls, dataLines head text = some ls ∧
    Ends Parses (decide (Unterminated '\n' text)) ls .start

/-- **When reading stops.** -/
theorem reading_stops_iff (prog : Program) (mode : Mode) (head : HeadLoop) (text : Str) :
    ReadingStops prog mode head text ↔ Closes head text := by
  have hout := reading_outcome (stable_addInstance prog mode) head text Work.start
  cases hd : dataLines head text with
  | none =>
      rw [hd] at hout
      constructor
      · rintro ⟨fuel, h⟩
        exact absurd (hout fuel) h
      · rintro ⟨ls, hls, -⟩
        rw [hd] at hls
        cases hls
  | some ls =>
      rw [hd, Option.bind_some] at hout
      -- the loop stops on the lines that the text ends on
      have hsome := outcome_isSome (accepts_addInstance prog mode)
        (u := decide (Unterminated '\n' text)) (newline_of_dataLines hd) Pending.start_ok Work.start
      have hcl : Closes head text ↔ Ends Parses (decide (Unterminated '\n' text)) ls .start := by
        simp [Closes, hd]
      rw [hcl, ← hsome]
      cases ho : outcome (addInstance prog mode) (decide (Unterminated '\n' text)) ls .start
          Work.start with
      | none =>
          rw [ho] at hout
          refine iff_of_false ?_ (by simp)
          rintro ⟨fuel, h⟩
          exact h (hout fuel)
      | some r =>
          rw [ho] at hout
          refine iff_of_true ?_ (by simp)
          cases r with
          | error e =>
              obtain ⟨fuel, h⟩ := hout
              exact ⟨fuel, by rw [h]; simp⟩
          | ok r =>
              obtain ⟨fuel, is, -, -, h⟩ := hout
              exact ⟨fuel, by rw [h]; simp⟩

/-- A section that is never closed: `#1=A(1);` and the end of the input. -/
theorem reading_not_always_stops :
    ¬ ∀ prog mode head text, ReadingStops prog mode head text := by
  intro h
  obtain ⟨fuel, hne⟩ := h .compressor ⟨false, 2, binary64⟩ .whileGetline "DATA;\n#1=A(1);\n".toList
  have hout := reading_outcome (stable_addInstance .compressor ⟨false, 2, binary64⟩) .whileGetline
    "DATA;\n#1=A(1);\n".toList Work.start
  have hnone : ((dataLines .whileGetline "DATA;\n#1=A(1);\n".toList).bind fun ls =>
      outcome (addInstance .compressor ⟨false, 2, binary64⟩)
        (decide (Unterminated '\n' "DATA;\n#1=A(1);\n".toList)) ls .start Work.start) = none :=
    Option.isNone_iff_eq_none.mp (by decide +kernel)
  rw [hnone] at hout
  exact hne (hout fuel)

/-! ### Step 2 -/

/-- Whenever the input is read to the end of its section, the loop of Step 2 terminates. -/
def ResolveLoopEnds (prog : Program) (mode : Mode) (head : HeadLoop) (text : Str) : Prop :=
  ∀ fuel ifcHead is w w₁,
    reading (addInstance prog mode) head fuel text Work.start = some (.ok (ifcHead, is, w)) →
    endStep1 w = .ok w₁ → ∃ fuel, resolveLoop prog fuel w₁ ≠ none

/-- The loop of Step 2 on a section that has been read. -/
theorem Reads.loop_iff {prog : Program} {ns : List (Node Label Int)} {w w₁ : Work}
    (h : Reads prog ns w) (he : Compression.endStep1 w = .ok w₁) :
    (∃ fuel, resolveLoop prog fuel w₁ ≠ none) ↔ AllGrounded ns := by
  obtain ⟨w', he', hsim⟩ := h.endStep1
  rw [he] at he'
  cases he'
  rw [← ends_iff]
  constructor
  · rintro ⟨fuel, hne⟩
    by_contra hend
    push Not at hend
    exact hne (hsim.resolveLoop_never hend fuel)
  · rintro ⟨k, hk⟩
    obtain ⟨m, hm, hfirst⟩ := exists_first hk
    obtain ⟨w₂, -, -, hloop⟩ := hsim.resolveLoop_ends hm hfirst
    exact ⟨m + 1 + 0, by rw [hloop 0]; simp⟩

/-- **When the loop of Step 2 ends**, for a closed section: an exception stops the reading, or
every reference is grounded. -/
theorem resolveLoop_ends_iff (prog : Program) (mode : Mode) (head : HeadLoop) {text : Str}
    {ls : List Str} (h : DataSection text ls) :
    ResolveLoopEnds prog mode head text ↔ (Readable ls → AllGrounded (nodes mode ls)) := by
  obtain ⟨more, hd⟩ := dataLines_of_section head h
  have hend : ENDSEC ∉ ls := by
    obtain ⟨_, _, _, _, hend⟩ := h
    exact hend
  by_cases hread : Readable ls
  · obtain ⟨fuel, is, w, hr, hreads, -⟩ := reading_closed prog mode hd hend hread
    obtain ⟨w₁, he, -⟩ := hreads.endStep1
    simp only [hread, forall_const]
    rw [← hreads.loop_iff he]
    constructor
    · exact fun hl => hl fuel _ is w w₁ hr he
    · intro hl fuel' ifcHead' is' w' w₁' hr' he'
      have h₁ := reading_mono hr' fuel
      rw [Nat.add_comm, reading_mono hr fuel'] at h₁
      cases h₁
      rw [he] at he'
      cases he'
      exact hl
  · refine iff_of_true ?_ fun h => absurd h hread
    intro fuel ifcHead is w w₁ hr _
    exact absurd hr (reading_stopped prog mode hd hend hread fuel _)

/-- A reference to an instance that follows. -/
def forwardText : Str := "DATA;\n#2=B(#1);\n#1=A(3);\nENDSEC;\n".toList

theorem forwardText_section :
    DataSection forwardText ["#2=B(#1);".toList, "#1=A(3);".toList] :=
  ⟨[], [], by decide, by decide, by decide⟩

theorem resolveLoop_ends_forward :
    ResolveLoopEnds .ana ⟨false, 2, binary64⟩ .forGetline forwardText :=
  (resolveLoop_ends_iff .ana ⟨false, 2, binary64⟩ .forGetline forwardText_section).mpr fun _ => by
      rw [← ends_iff]
      exact ⟨2, List.isEmpty_iff.mp (by decide +kernel)⟩

/-- An instance that cites itself. -/
theorem resolveLoop_not_always_ends : ¬ ∀ prog mode head text ls, DataSection text ls →
    ResolveLoopEnds prog mode head text := by
  intro h
  have hsec : DataSection "DATA;\n#6=B(#6);\nENDSEC;\n".toList ["#6=B(#6);".toList] :=
    ⟨[], [], by decide, by decide, by decide⟩
  have hloop := h .compressor ⟨false, 2, binary64⟩ .whileGetline _ _ hsec
  obtain ⟨more, hd⟩ := dataLines_of_section .whileGetline hsec
  obtain ⟨fuel, is, w, hr, hreads, -⟩ :=
    reading_closed .compressor ⟨false, 2, binary64⟩ hd (by decide) (by decide +kernel)
  obtain ⟨w₁, he, -⟩ := hreads.endStep1
  have hg := (hreads.loop_iff he).mp (hloop fuel _ is w w₁ hr he)
  have hself : ∀ n ∈ nodes ⟨false, 2, binary64⟩ ["#6=B(#6);".toList], n.id = 6 ∧ 6 ∈ n.args := by
    decide +kernel
  obtain ⟨n, hn⟩ : ∃ n, n ∈ nodes ⟨false, 2, binary64⟩ ["#6=B(#6);".toList] :=
    ⟨_, by exact List.mem_cons_self⟩
  exact not_grounded_of_self (fun m hm _ => (hself m hm).2) (hg n hn 6 (hself n hn).2)

end VulcanDB.Compression
