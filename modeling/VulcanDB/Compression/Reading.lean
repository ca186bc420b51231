import VulcanDB.Compression.Instance

/-!
# Compression — Reading

The loop that reads the DATA section.  It compares the line it read last with `ENDSEC;` and never
looks at the stream, so at the end of the input it goes round with whatever `getline` left in the
line: the empty text, or the last line as the body changed it.

`outcome` is what the loop comes to, read off the list of lines; `none` is a loop that never ends.

* `dataLoop_stuck`: the loop at the end of the input.
* `dataLoop_outcome`: the loop comes to its outcome, with enough fuel, or never ends.
-/

namespace VulcanDB.Compression

open Cxx

/-- The line that ends the section. -/
def ENDSEC : Str := ['E', 'N', 'D', 'S', 'E', 'C', ';']

/-- The lines of an instance read so far, `isPart` and `tmp_partial`. -/
structure Pending where
  isPart : Bool
  tmpPartial : Str

/-- Before the first line. -/
def Pending.start : Pending := ⟨false, []⟩

/-- The loop body up to `++totalCount`: the line without its blanks, joined to the lines before
it when it ends an instance; the last component says whether it does. -/
def body (line : Str) (p : Pending) : Except Fault (Str × Pending × Bool) := do
  let line ← trim line
  if line = [] then return (line, p, false)
  else if (← charAt line (line.length - 1)) ≠ ';' then
    if ¬ p.isPart then return (line, ⟨true, line⟩, false)
    else return (line, ⟨true, p.tmpPartial ++ line⟩, false)
  else if p.isPart then return (p.tmpPartial ++ line, ⟨false, []⟩, true)
  else return (line, p, true)

section Loop

variable {σ : Type} (add : Str → σ → Except Fault σ)

/-- One round of the loop; `add` is what is done with an instance that is complete. -/
def readLine (line : Str) (p : Pending) (s : σ) : Except Fault (Str × Pending × σ) := do
  let (line, p, complete) ← body line p
  let s ← if complete then add line s else pure s
  return (line, p, s)

/-- `for (getline(ifile, ifcInstance); ifcInstance != "ENDSEC;"; getline(ifile, ifcInstance))`,
after the first `getline`. -/
def dataLoop : ℕ → IStream → Str → Pending → σ → Option (Except Fault (IStream × σ))
  | 0, _, _, _, _ => none
  | fuel + 1, is, line, p, s =>
    if line = ENDSEC then some (.ok (is, s))
    else match readLine add line p s with
      | .error e => some (.error e)
      | .ok (line, p, s) =>
        dataLoop fuel (getline '\n' is line).1 (getline '\n' is line).2.1 p s

end Loop

/-! ### One line -/

/-- A text that waits for more lines is trimmed and not empty. -/
def Pending.OK (p : Pending) : Prop :=
  p.isPart = true → p.tmpPartial ≠ [] ∧ Trimmed ' ' p.tmpPartial ∧ '\n' ∉ p.tmpPartial

theorem Pending.start_ok : Pending.start.OK := nofun

/-- `body` on a line that `trim` takes. -/
def scan (line : Str) (p : Pending) : Str × Pending × Bool :=
  let l := strip ' ' line
  if l = [] then (l, p, false)
  else if l.getLast? ≠ some ';' then
    (l, ⟨true, if p.isPart then p.tmpPartial ++ l else l⟩, false)
  else if p.isPart then (p.tmpPartial ++ l, ⟨false, []⟩, true)
  else (l, p, true)

/-- A line of two blanks or more stops the loop. -/
theorem body_of_wideBlank {line : Str} (h : WideBlank line) (p : Pending) :
    body line p = .error .outOfRange := by rw [body, trim_of_wideBlank h]; rfl

/-- On any other line the body is `scan`. -/
theorem body_eq {line : Str} (h : ¬ WideBlank line) (p : Pending) :
    body line p = .ok (scan line p) := by
  rw [body, trim_of_not_wideBlank h, scan]
  simp only [bind, Except.bind, pure, Except.pure]
  by_cases hl : strip ' ' line = []
  · rw [if_pos hl, if_pos hl]
  · rw [if_neg hl, if_neg hl, charAt_getLast hl, List.getLast?_eq_some_getLast hl]
    by_cases hs : (strip ' ' line).getLast hl = ';'
    · simp only [hs, ne_eq, not_true_eq_false, if_false]
      split <;> rfl
    · simp only [hs, ne_eq, not_false_eq_true, if_true, Option.some.injEq]
      cases p.isPart <;> rfl

/-- A complete instance as it is handed on: trimmed and not empty, on one line. -/
structure Whole (line : Str) : Prop where
  ne_nil : line ≠ []
  trimmed : Trimmed ' ' line
  newline : '\n' ∉ line

/-- **What one line preserves**: the text that waits is trimmed, and an instance that is complete is
whole. -/
theorem scan_ok {line : Str} {p : Pending} (hl : '\n' ∉ line) (hp : p.OK) :
    (scan line p).2.1.OK ∧ ((scan line p).2.2 = true → Whole (scan line p).1) := by
  have ht := strip_trimmed ' ' line
  have hn : '\n' ∉ strip ' ' line := fun h => hl (mem_of_mem_strip h)
  have join : p.isPart = true → strip ' ' line ≠ [] → Whole (p.tmpPartial ++ strip ' ' line) := by
    intro h hne
    obtain ⟨h₁, h₂, h₃⟩ := hp h
    exact ⟨by simp [h₁], trimmed_append h₂ ht h₁ hne, by simp [h₃, hn]⟩
  unfold scan
  simp only
  split
  · exact ⟨hp, nofun⟩
  · rename_i hne
    split
    · refine ⟨fun _ => ?_, nofun⟩
      cases hpart : p.isPart with
      | false => exact ⟨hne, ht, hn⟩
      | true => exact ⟨(join hpart hne).ne_nil, (join hpart hne).trimmed, (join hpart hne).newline⟩
    · split
      · rename_i hpart
        exact ⟨nofun, fun _ => join hpart hne⟩
      · exact ⟨hp, fun _ => ⟨hne, ht, hn⟩⟩

/-! ### The stream has run out -/

/-- The line the body leaves, read again, is left again. -/
structure Stuck (line : Str) (p : Pending) (complete : Bool) : Prop where
  trimmed : Trimmed ' ' line
  waits : line ≠ [] → complete = false → line.getLast? ≠ some ';' ∧ p.isPart = true
  ends : complete = true → line ≠ [] ∧ line.getLast? = some ';' ∧ p.isPart = false

/-- A line that is read again is left as it was. -/
theorem Stuck.scan {line : Str} {p : Pending} {complete : Bool} (h : Stuck line p complete) :
    ∃ p', body line p = .ok (line, p', complete) ∧ Stuck line p' complete := by
  rw [body_eq (not_wideBlank_of_trimmed h.trimmed), VulcanDB.Compression.scan]
  simp only [strip_of_trimmed h.trimmed]
  by_cases hl : line = []
  · cases complete with
    | false =>
        exact ⟨p, by rw [if_pos hl], h⟩
    | true => exact absurd hl (h.ends rfl).1
  · rw [if_neg hl]
    cases complete with
    | false =>
        obtain ⟨h₁, h₂⟩ := h.waits hl rfl
        exact ⟨_, by rw [if_pos h₁], h.trimmed, fun _ _ => ⟨h₁, rfl⟩, nofun⟩
    | true =>
        obtain ⟨h₁, h₂, h₃⟩ := h.ends rfl
        exact ⟨p, by rw [if_neg (not_not.mpr h₂), if_neg (by simp [h₃])], h⟩

/-- What the body leaves in the line is such a line. -/
theorem scan_stuck {line : Str} {p : Pending} (hp : p.OK) (hl : '\n' ∉ line) :
    Stuck (scan line p).1 (scan line p).2.1 (scan line p).2.2 := by
  have ht := strip_trimmed ' ' line
  have hw := (scan_ok hl hp).2
  unfold scan at hw ⊢
  simp only at hw ⊢
  split
  · rename_i h
    exact ⟨ht, fun hne => absurd h hne, nofun⟩
  · rename_i hne
    rw [if_neg hne] at hw
    split
    · rename_i hs
      exact ⟨ht, fun _ _ => ⟨hs, rfl⟩, nofun⟩
    · rename_i hs
      rw [if_neg hs] at hw
      have hs' : (strip ' ' line).getLast? = some ';' := not_not.mp hs
      split
      · rename_i hpart
        rw [if_pos hpart] at hw
        refine ⟨(hw rfl).trimmed, nofun, fun _ => ⟨(hw rfl).ne_nil, ?_, rfl⟩⟩
        rw [List.getLast?_append_of_ne_nil _ hne, hs']
      · rename_i hpart
        exact ⟨ht, nofun, fun _ => ⟨hne, hs', by simpa using hpart⟩⟩

section Loop

variable {σ : Type} {add : Str → σ → Except Fault σ}

/-- One round, on a line that `trim` takes. -/
theorem readLine_eq (add : Str → σ → Except Fault σ) {l : Str} (h : ¬ WideBlank l) (p : Pending)
    (s : σ) : readLine add l p s =
      ((if (scan l p).2.2 then add (scan l p).1 s else .ok s).map
        fun s' => ((scan l p).1, (scan l p).2.1, s')) := by
  rw [readLine, body_eq h]
  rcases scan l p with ⟨line, p', c⟩
  cases c with
  | false => rfl
  | true =>
      simp only [bind, Except.bind, if_true]
      cases add line s <;> rfl

/-- What a round without an exception has done. -/
theorem readLine_ok {l : Str} {p : Pending} {s : σ} {line : Str} {p' : Pending} {s' : σ}
    (h : readLine add l p s = .ok (line, p', s')) : ¬ WideBlank l ∧
      ∃ c, scan l p = (line, p', c) ∧ (if c then add line s else .ok s) = .ok s' := by
  have hw : ¬ WideBlank l := by
    intro hw
    rw [readLine, body_of_wideBlank hw] at h
    cases h
  rw [readLine_eq add hw] at h
  refine ⟨hw, ?_⟩
  generalize scan l p = r at h
  obtain ⟨line₀, p₀, c⟩ := r
  simp only at h
  cases hs : (if c then add line₀ s else .ok s) with
  | error e => rw [hs] at h; cases h
  | ok s₁ => rw [hs] at h; cases h; exact ⟨c, rfl, hs⟩

/-- Whether an instance is refused does not depend on what was read before it. -/
def Stable (add : Str → σ → Except Fault σ) : Prop :=
  ∀ line s s', add line s = .ok s' → ∀ s₂, ∃ s₂', add line s₂ = .ok s₂'

/-- The line of a stream that ran out on a newline. -/
theorem stuck_nil (p : Pending) : Stuck [] p false :=
  ⟨by simp [Trimmed], fun h => absurd rfl h, nofun⟩

/-- **The loop never ends** once the stream has run out on a line that is not `ENDSEC;`. -/
theorem dataLoop_stuck (hadd : Stable add) {line : Str} {p : Pending} {complete : Bool} {s : σ}
    (h : Stuck line p complete) (hok : complete = true → ∃ s₀ s₁, add line s₀ = .ok s₁)
    (hne : line ≠ ENDSEC) (fuel : ℕ) : dataLoop add fuel ⟨[], true⟩ line p s = none := by
  induction fuel generalizing p s with
  | zero => rfl
  | succ fuel ih =>
      obtain ⟨p', hb, h'⟩ := h.scan
      obtain ⟨s', hs'⟩ : ∃ s', readLine add line p s = .ok (line, p', s') := by
        rw [readLine, hb]
        cases complete with
        | false => exact ⟨s, rfl⟩
        | true =>
            obtain ⟨s₀, s₁, h₁⟩ := hok rfl
            obtain ⟨s', hs'⟩ := hadd line s₀ s₁ h₁ s
            exact ⟨s', by simp only [bind, Except.bind, if_true, hs']; rfl⟩
      rw [dataLoop, if_neg hne, hs']
      exact ih h'

/-! ### The outcome of the loop -/

variable (add)

/-- What the loop comes to on these lines, the last of which is `unterminated` or not: the lines
it leaves and the state, or `none` when it never ends. -/
def outcome (unterminated : Bool) : List Str → Pending → σ →
    Option (Except Fault (List Str × σ))
  | [], _, _ => none
  | l :: ls, p, s =>
    if l = ENDSEC then some (.ok (ls, s))
    else match readLine add l p s with
      | .error e => some (.error e)
      | .ok (line, p, s) =>
        -- a last line without its newline stays in the string as the body left it
        if ls = [] ∧ unterminated ∧ line = ENDSEC then some (.ok ([], s))
        else outcome unterminated ls p s

variable {add}

/-- The stream after a line of the input: what is left of it, and whether the line was the last
one, without a newline. -/
structure At (is : IStream) (ls : List Str) (unterminated : Bool) : Prop where
  rest : getlines '\n' is.rest = ls
  eof : is.eof = true ↔ (ls = [] ∧ unterminated = true)
  open_ : ls ≠ [] → (unterminated = true ↔ Unterminated '\n' is.rest)

/-- A stream with lines left is not at its end. -/
theorem At.good {is : IStream} {ls : List Str} {u : Bool} (h : At is ls u) (hl : ls ≠ []) :
    is = .ofText is.rest := by
  obtain ⟨rest, eof⟩ := is
  cases eof with
  | false => rfl
  | true => exact absurd (h.eof.mp rfl).1 hl

/-- Reading the next line of a text. -/
theorem At.next {t : Str} {l : Str} {ls : List Str} (h : getlines '\n' t = l :: ls) (old : Str) :
    (getline '\n' (.ofText t) old).2 = (l, true) ∧
      At (getline '\n' (.ofText t) old).1 ls (decide (Unterminated '\n' t)) := by
  rcases text_cases '\n' t with rfl | ⟨hs, hd⟩ | ⟨p, r, rfl, hp⟩
  · cases h
  · rw [getlines_of_notMem hd hs, List.cons.injEq] at h
    obtain ⟨rfl, rfl⟩ := h
    have hu : Unterminated '\n' t := by
      refine ⟨t.getLast hs, List.getLast?_eq_some_getLast hs, ?_⟩
      exact fun e => hd (e ▸ List.getLast_mem hs)
    have hg : getline '\n' (.ofText t) old = (⟨[], true⟩, t, true) := by
      simp [getline, IStream.ofText, hs, hd]
    rw [hg]
    exact ⟨rfl, rfl, by simp [hu], fun h => absurd rfl h⟩
  · rw [getlines_append hp, List.cons.injEq] at h
    obtain ⟨rfl, rfl⟩ := h
    have hg : getline '\n' (.ofText (p ++ '\n' :: r)) old = (⟨r, false⟩, p, true) := by
      simp [getline, IStream.ofText, before_append hp, after_append hp]
    rw [hg]
    have hlast : r ≠ [] → (Unterminated '\n' (p ++ '\n' :: r) ↔ Unterminated '\n' r) := by
      intro hr
      rw [Unterminated, Unterminated, List.getLast?_append_of_ne_nil _ (by simp),
        List.getLast?_cons_of_ne_nil hr]
    refine ⟨rfl, rfl, ?_, fun h => ?_⟩
    · simp only [Bool.false_eq_true, getlines_eq_nil, decide_eq_true_eq, false_iff, not_and]
      rintro rfl ⟨c, hc, hne⟩
      simp at hc
      exact hne hc.symm
    · rw [decide_eq_true_eq]
      exact hlast (fun e => h (by rw [e]; rfl))

/-- The loop comes to a result: it never ends, or it ends within a number of rounds. -/
def Comes (add : Str → σ → Except Fault σ) (is : IStream) (l : Str) (p : Pending) (s : σ) (n : ℕ) :
    Option (Except Fault (List Str × σ)) → Prop
  | none => ∀ fuel, dataLoop add fuel is l p s = none
  | some (.error e) => ∀ fuel, dataLoop add (n + 1 + fuel) is l p s = some (.error e)
  | some (.ok (more, s')) => ∃ is', getlines '\n' is'.rest = more ∧
      (is'.eof = true → is'.rest = []) ∧
      ∀ fuel, dataLoop add (n + 2 + fuel) is l p s = some (.ok (is', s'))

section Rounds

variable {is : IStream} {l : Str} {p : Pending} {s : σ} {n : ℕ}

theorem dataLoop_endsec (hend : l = ENDSEC) (fuel : ℕ) :
    dataLoop add (fuel + 1) is l p s = some (.ok (is, s)) := by
  rw [dataLoop, if_pos hend]

theorem dataLoop_error (hend : l ≠ ENDSEC) {e : Fault} (hr : readLine add l p s = .error e)
    (fuel : ℕ) : dataLoop add (fuel + 1) is l p s = some (.error e) := by
  rw [dataLoop, if_neg hend, hr]

theorem dataLoop_next (is : IStream) (hend : l ≠ ENDSEC) {line : Str} {p' : Pending} {s' : σ}
    (hr : readLine add l p s = .ok (line, p', s')) (fuel : ℕ) :
    dataLoop add (fuel + 1) is l p s =
      dataLoop add fuel (getline '\n' is line).1 (getline '\n' is line).2.1 p' s' := by
  rw [dataLoop, if_neg hend, hr]

theorem Comes.endsec (hend : l = ENDSEC) (hrest : is.eof = true → is.rest = []) :
    Comes add is l p s n (some (.ok (getlines '\n' is.rest, s))) := by
  refine ⟨is, rfl, hrest, fun fuel => ?_⟩
  rw [show n + 2 + fuel = (n + 1 + fuel) + 1 by omega]
  exact dataLoop_endsec hend _

theorem Comes.error (hend : l ≠ ENDSEC) {e : Fault} (hr : readLine add l p s = .error e) :
    Comes add is l p s n (some (.error e)) := by
  intro fuel
  rw [show n + 1 + fuel = (n + fuel) + 1 by omega]
  exact dataLoop_error hend hr _

/-- **One round more.** -/
theorem Comes.next (hend : l ≠ ENDSEC) {line : Str} {p' : Pending} {s' : σ}
    (hr : readLine add l p s = .ok (line, p', s')) {r : Option (Except Fault (List Str × σ))}
    (h : Comes add (getline '\n' is line).1 (getline '\n' is line).2.1 p' s' n r) :
    Comes add is l p s (n + 1) r := by
  have hstep := dataLoop_next is hend hr
  cases r with
  | none =>
      intro fuel
      cases fuel with
      | zero => rfl
      | succ fuel => rw [hstep, h fuel]
  | some r =>
      cases r with
      | error e =>
          intro fuel
          rw [show n + 1 + 1 + fuel = (n + 1 + fuel) + 1 by omega, hstep]
          exact h fuel
      | ok r =>
          obtain ⟨is', hmore, heof, hends⟩ := h
          refine ⟨is', hmore, heof, fun fuel => ?_⟩
          rw [show n + 1 + 2 + fuel = (n + 2 + fuel) + 1 by omega, hstep]
          exact hends fuel

end Rounds

/-- The last line, which stays in the string when no newline ends it. -/
theorem dataLoop_last (hadd : Stable add) {u : Bool} {is : IStream} {l line : Str} {p p' : Pending}
    {s s' : σ} (hat : At is [] u) (hl : '\n' ∉ l) (hp : p.OK) (hend : l ≠ ENDSEC)
    (hr : readLine add l p s = .ok (line, p', s')) :
    Comes add is l p s 0 (if u = true ∧ line = ENDSEC then some (.ok ([], s')) else none) := by
  have hrest : is.rest = [] := getlines_eq_nil.mp hat.rest
  have hstep := dataLoop_next is hend hr
  -- what the body did, so that its second round is known
  obtain ⟨-, c, hsc, hok⟩ := readLine_ok hr
  have hscan := scan_stuck hp hl
  rw [hsc] at hscan
  cases hu : u with
  | false =>
      have hopen : is.eof = false := by
        rw [Bool.eq_false_iff]
        intro heof
        have hu' := (hat.eof.mp heof).2
        rw [hu] at hu'
        cases hu'
      have hg : getline '\n' is line = (⟨[], true⟩, [], false) := by
        simp [getline, hopen, hrest]
      rw [if_neg (by simp)]
      intro fuel
      cases fuel with
      | zero => rfl
      | succ fuel =>
          rw [hstep, hg]
          exact dataLoop_stuck hadd (stuck_nil p') (fun h => absurd h Bool.false_ne_true)
            (by decide) fuel
  | true =>
      have heof : is.eof = true := hat.eof.mpr ⟨rfl, hu⟩
      have hg : getline '\n' is line = (is, line, false) := by simp [getline, heof]
      by_cases hline : line = ENDSEC
      · rw [if_pos ⟨rfl, hline⟩]
        refine ⟨is, hat.rest, fun _ => hrest, fun fuel => ?_⟩
        rw [show 0 + 2 + fuel = (fuel + 1) + 1 by omega, hstep, hg]
        exact dataLoop_endsec hline fuel
      · -- the stream is at its end, and every round finds the same line
        rw [if_neg fun h => hline h.2]
        have his : is = ⟨[], true⟩ := by
          obtain ⟨rest, eof⟩ := is
          cases hrest
          cases heof
          rfl
        intro fuel
        cases fuel with
        | zero => rfl
        | succ fuel =>
            rw [hstep, hg, his]
            exact dataLoop_stuck hadd hscan (fun hc => ⟨s, s', by rwa [if_pos hc] at hok⟩) hline fuel

/-- **The loop comes to its outcome.** -/
theorem dataLoop_outcome (hadd : Stable add) {u : Bool} (ls : List Str) :
    ∀ {is : IStream} {l : Str} {p : Pending} {s : σ}, At is ls u → (∀ m ∈ l :: ls, '\n' ∉ m) →
      p.OK → Comes add is l p s ls.length (outcome add u (l :: ls) p s) := by
  induction ls with
  | nil =>
      intro is l p s hat hnl hp
      rw [outcome]
      by_cases hend : l = ENDSEC
      · rw [if_pos hend, ← hat.rest]
        exact .endsec hend fun _ => getlines_eq_nil.mp hat.rest
      · rw [if_neg hend]
        cases hr : readLine add l p s with
        | error e => exact .error hend hr
        | ok r =>
            obtain ⟨line, p', s'⟩ := r
            simp only [outcome, true_and]
            -- behind the last line the stream has failed, and the line is read again and again
            exact dataLoop_last hadd hat (hnl l (by simp)) hp hend hr
  | cons m ls ih =>
      intro is l p s hat hnl hp
      rw [outcome]
      by_cases hend : l = ENDSEC
      · rw [if_pos hend, ← hat.rest]
        exact .endsec hend fun heof => absurd (hat.eof.mp heof).1 (by simp)
      · rw [if_neg hend]
        cases hr : readLine add l p s with
        | error e => exact .error hend hr
        | ok r =>
            obtain ⟨line, p', s'⟩ := r
            have hp' : p'.OK := by
              obtain ⟨-, c, hsc, -⟩ := readLine_ok hr
              have hscan := (scan_ok (p := p) (hnl l (by simp)) hp).1
              rwa [hsc] at hscan
            obtain ⟨hg, hat'⟩ := At.next hat.rest line
            -- the rest ends without a newline where the text does
            have hu : decide (Unterminated '\n' is.rest) = u := by
              have hopen := hat.open_ (by simp)
              cases u <;> simpa using hopen
            rw [← hat.good (by simp)] at hg hat'
            rw [hu] at hat'
            have hg' : (getline '\n' is line).2.1 = m := by rw [hg]
            simp only [reduceCtorEq, false_and, if_false]
            refine Comes.next hend hr ?_
            rw [hg']
            exact ih hat' (fun k hk => hnl k (by simp [hk])) hp'

end Loop

end VulcanDB.Compression
