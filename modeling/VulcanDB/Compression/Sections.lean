import VulcanDB.Compression.Reading

/-!
# Compression — Sections

The header loop before the DATA loop, and which texts end the two.

* `outcome_lines`, `outcome_open`: the outcome of the DATA loop, as the instances the lines join to.
* `headLoop_found`, `headLoop_missing`: the two forms of the header loop.
* `reading_outcome`: both loops on a text.
-/

namespace VulcanDB.Compression

open Cxx

/-- The line that begins the section. -/
def DATA : Str := ['D', 'A', 'T', 'A', ';']

/-- Which of the two loops reads the header: the overload with the CSV file tests the stream, the
others and `IfcCompressorAna` do not. -/
inductive HeadLoop where
  | whileGetline
  | forGetline
  deriving DecidableEq

/-- `while (getline(ifile, ifcInstance)) { if (ifcInstance == "DATA;") break; … }`. -/
def headWhile : ℕ → IStream → Str → Str → Option (Str × IStream × Str)
  | 0, _, _, _ => none
  | fuel + 1, is, line, ifcHead =>
    match getline '\n' is line with
    | (is, line, false) => some (ifcHead, is, line)
    | (is, line, true) =>
      if line = DATA then some (ifcHead, is, line)
      else headWhile fuel is line (ifcHead ++ line ++ ['\n'])

/-- `for (getline(ifile, ifcInstance); ifcInstance != "DATA;"; …)`, after the first `getline`. -/
def headFor : ℕ → IStream → Str → Str → Option (Str × IStream × Str)
  | 0, _, _, _ => none
  | fuel + 1, is, line, ifcHead =>
    if line = DATA then some (ifcHead, is, line)
    else headFor fuel (getline '\n' is line).1 (getline '\n' is line).2.1
      (ifcHead ++ line ++ ['\n'])

/-- The header loop from the start of the input: `ifcHead`, the stream and the line it left. -/
def headLoop (head : HeadLoop) (fuel : ℕ) (is : IStream) : Option (Str × IStream × Str) :=
  match head with
  | .whileGetline => headWhile fuel is [] []
  | .forGetline => headFor fuel (getline '\n' is []).1 (getline '\n' is []).2.1 []

/-- Both loops, from the start of the input: `ifcHead`, the stream after `ENDSEC;` and what the
instances were added to. -/
def reading {σ : Type} (add : Str → σ → Except Fault σ) (head : HeadLoop) (fuel : ℕ) (text : Str)
    (s : σ) : Option (Except Fault (Str × IStream × σ)) :=
  match headLoop head fuel (.ofText text) with
  | none => none
  | some (ifcHead, is, line) =>
    (dataLoop add fuel (getline '\n' is line).1 (getline '\n' is line).2.1 .start s).map
      (·.map fun r => (ifcHead ++ DATA ++ ['\n'], r.1, r.2))

/-! ### The instances of the section -/

/-- The instances the lines join to. -/
def joined : List Str → Pending → List Str
  | [], _ => []
  | l :: ls, p =>
    if (scan l p).2.2 then (scan l p).1 :: joined ls (scan l p).2.1
    else joined ls (scan l p).2.1

/-- The lines still waiting after these. -/
def pendingAfter : List Str → Pending → Pending
  | [], p => p
  | l :: ls, p => pendingAfter ls (scan l p).2.1

/-- What the string holds after the last of the lines. -/
def lastLine : List Str → Pending → Str
  | [], _ => []
  | [l], p => (scan l p).1
  | l :: ls, p => lastLine ls (scan l p).2.1

/-- The instances of lines without a newline are whole. -/
theorem joined_whole {ls : List Str} {p : Pending} (hl : ∀ l ∈ ls, '\n' ∉ l) (hp : p.OK) :
    ∀ l ∈ joined ls p, Whole l := by
  induction ls generalizing p with
  | nil => simp [joined]
  | cons l ls ih =>
      obtain ⟨h₁, h₂⟩ := scan_ok (hl l (by simp)) hp
      have ih := ih (fun m hm => hl m (by simp [hm])) h₁
      rw [joined]
      split
      · rename_i hc
        exact List.forall_mem_cons.mpr ⟨h₂ hc, ih⟩
      · exact ih

section Outcome

variable {σ : Type} (add : Str → σ → Except Fault σ)

/-- The instances added in turn. -/
def addAll : List Str → σ → Except Fault σ
  | [], s => .ok s
  | l :: ls, s =>
    match add l s with
    | .error e => .error e
    | .ok s => addAll ls s

variable {add}

variable (add) in
/-- A line of two blanks or more ends the loop in a fault. -/
theorem outcome_wideBlank (u : Bool) {ls : List Str} (hend : ENDSEC ∉ ls)
    (h : ∃ l ∈ ls, WideBlank l) (more : List Str) (p : Pending) (s : σ) :
    ∃ e, outcome add u (ls ++ more) p s = some (.error e) := by
  induction ls generalizing p s with
  | nil => simp at h
  | cons l ls ih =>
      simp only [List.mem_cons, not_or] at hend
      rw [List.cons_append, outcome, if_neg (Ne.symm hend.1)]
      cases hr : readLine add l p s with
      | error e => exact ⟨e, rfl⟩
      | ok r =>
          obtain ⟨line, p', s'⟩ := r
          have hls : ∃ l ∈ ls, WideBlank l := by
            obtain ⟨m, hm, hw⟩ := h
            rcases List.mem_cons.mp hm with rfl | hm
            · exact absurd hw (readLine_ok hr).1
            · exact ⟨m, hm, hw⟩
          have hne : ls ++ more ≠ [] := by
            obtain ⟨m, hm, -⟩ := hls
            exact fun e => by simp [(List.append_eq_nil_iff.mp e).1] at hm
          simp only [hne, false_and, if_false]
          exact ih hend.2 hls p' s'

/-- **The loop over lines that `trim` takes** adds the instances they join to. -/
theorem outcome_lines {u : Bool} {ls : List Str} (hend : ENDSEC ∉ ls)
    (h : ∀ l ∈ ls, ¬ WideBlank l) {more : List Str} (hm : more ≠ []) (p : Pending) (s : σ) :
    outcome add u (ls ++ more) p s =
      match addAll add (joined ls p) s with
      | .error e => some (.error e)
      | .ok s' => outcome add u more (pendingAfter ls p) s' := by
  induction ls generalizing p s with
  | nil => rfl
  | cons l ls ih =>
      simp only [List.mem_cons, not_or] at hend
      have ih := ih hend.2 fun m hm => h m (by simp [hm])
      rw [List.cons_append, outcome, if_neg (Ne.symm hend.1), readLine_eq add (h l (by simp)),
        joined, pendingAfter]
      generalize scan l p = r at *
      obtain ⟨line, p', c⟩ := r
      cases c with
      | false => simp [Except.map, hm, ih]
      | true =>
          simp only [if_true, addAll]
          cases add line s with
          | error e => rfl
          | ok s' => simp [Except.map, hm, ih]

/-- The loop on a section that is closed. -/
theorem outcome_closed {u : Bool} {ls : List Str} (hend : ENDSEC ∉ ls)
    (h : ∀ l ∈ ls, ¬ WideBlank l) (more : List Str) (p : Pending) (s : σ) :
    outcome add u (ls ++ ENDSEC :: more) p s =
      some ((addAll add (joined ls p) s).map fun s' => (more, s')) := by
  rw [outcome_lines hend h (by simp)]
  cases addAll add (joined ls p) s with
  | error e => rfl
  | ok s' => simp [outcome, Except.map]

/-- The loop on a section that is not closed: it ends only on a last line that the body turns
into `ENDSEC;`. -/
theorem outcome_open {u : Bool} {ls : List Str} (hend : ENDSEC ∉ ls)
    (h : ∀ l ∈ ls, ¬ WideBlank l) (p : Pending) (s : σ) :
    outcome add u ls p s =
      match addAll add (joined ls p) s with
      | .error e => some (.error e)
      | .ok s' => if u ∧ lastLine ls p = ENDSEC then some (.ok ([], s')) else none := by
  rcases List.eq_nil_or_concat ls with rfl | ⟨ls, l, rfl⟩
  · simp [outcome, joined, addAll, lastLine, ENDSEC]
  · rw [List.concat_eq_append] at *
    have hl : ENDSEC ≠ l := by rintro rfl; simp at hend
    -- the last line is scanned with what the others left pending
    have hlast : lastLine (ls ++ [l]) p = (scan l (pendingAfter ls p)).1 := by
      clear hend h
      induction ls generalizing p with
      | nil => rfl
      | cons m ls ih => rw [pendingAfter, ← ih]; cases ls <;> rfl
    have hjoin : joined (ls ++ [l]) p =
        joined ls p ++ joined [l] (pendingAfter ls p) := by
      clear hend h hlast
      induction ls generalizing p with
      | nil => rfl
      | cons m ls ih =>
          rw [List.cons_append, joined, joined, pendingAfter, ih]
          split <;> rfl
    have hall : ∀ (is js : List Str) (s : σ), addAll add (is ++ js) s =
        match addAll add is s with
        | .error e => .error e
        | .ok s' => addAll add js s' := by
      intro is js
      induction is with
      | nil => intro s; rfl
      | cons i is ih =>
          intro s
          rw [List.cons_append, addAll, addAll]
          cases add i s with
          | error e => rfl
          | ok s' => exact ih s'
    rw [outcome_lines (fun h => hend (by simp [h])) (fun m hm => h m (by simp [hm])) (by simp),
      hjoin, hall, hlast]
    cases addAll add (joined ls p) s with
    | error e => rfl
    | ok s' =>
        simp only [outcome, if_neg (Ne.symm hl), readLine_eq add (h l (by simp)), joined]
        generalize scan l (pendingAfter ls p) = r
        obtain ⟨line, p', c⟩ := r
        -- the last line completes an instance, or leaves it pending
        cases c with
        | false => simp [Except.map, addAll]
        | true =>
            simp only [if_true, addAll]
            cases add line s' with
            | error e => rfl
            | ok s'' => simp [Except.map]

/-- Whether an instance is accepted, as a condition on its text. -/
def Accepts (add : Str → σ → Except Fault σ) (Ok : Str → Prop) : Prop :=
  ∀ l s, Whole l → (Ok l ↔ ∃ s', add l s = .ok s')

/-- All instances are added when each is accepted. -/
theorem addAll_ok {Ok : Str → Prop} (hadd : Accepts add Ok) {ls : List Str}
    (h : ∀ l ∈ ls, Whole l) (s : σ) :
    (∃ s', addAll add ls s = .ok s') ↔ ∀ l ∈ ls, Ok l := by
  induction ls generalizing s with
  | nil => simp [addAll]
  | cons l ls ih =>
      have hl := hadd l s (h l (by simp))
      rw [addAll, List.forall_mem_cons, hl]
      cases add l s with
      | error e => simp
      | ok s' => simpa using ih (fun m hm => h m (by simp [hm])) s'

/-- The lines end the loop: the section is closed, a line or an instance of it stops the
program, or the unfinished last line becomes `ENDSEC;`. -/
def Ends (Ok : Str → Prop) (u : Bool) (ls : List Str) (p : Pending) : Prop :=
  ENDSEC ∈ ls ∨ (∃ l ∈ ls, WideBlank l) ∨ (∃ l ∈ joined ls p, ¬ Ok l) ∨
    (u = true ∧ lastLine ls p = ENDSEC)

/-- The loop ends exactly when the lines end it. -/
theorem outcome_isSome {Ok : Str → Prop} (hadd : Accepts add Ok) {u : Bool} {ls : List Str}
    {p : Pending} (hl : ∀ l ∈ ls, '\n' ∉ l) (hp : p.OK) (s : σ) :
    outcome add u ls p s ≠ none ↔ Ends Ok u ls p := by
  by_cases hend : ENDSEC ∈ ls
  · refine ⟨fun _ => .inl hend, fun _ => ?_⟩
    obtain ⟨a, more, rfl, ha⟩ := List.eq_append_cons_of_mem hend
    by_cases hw : ∃ l ∈ a, WideBlank l
    · obtain ⟨e, he⟩ := outcome_wideBlank add u ha hw (ENDSEC :: more) p s
      rw [he]; simp
    · rw [outcome_closed ha (by simpa using hw)]; simp
  · by_cases hw : ∃ l ∈ ls, WideBlank l
    · refine ⟨fun _ => .inr (.inl hw), fun _ => ?_⟩
      obtain ⟨e, he⟩ := outcome_wideBlank add u hend hw [] p s
      rw [List.append_nil] at he
      rw [he]; simp
    · have hok := addAll_ok hadd (joined_whole hl hp) s
      rw [outcome_open hend (by simpa using hw), Ends]
      simp only [hend, hw, false_or]
      cases ha : addAll add (joined ls p) s with
      | error e =>
          have : ¬ ∀ l ∈ joined ls p, Ok l := by rw [← hok, ha]; simp
          simp only [ne_eq, reduceCtorEq, not_false_eq_true, true_iff]
          push Not at this
          exact .inl this
      | ok s' =>
          have : ∀ l ∈ joined ls p, Ok l := hok.mp ⟨s', ha⟩
          have hn : ¬ ∃ l ∈ joined ls p, ¬ Ok l := by push Not; exact this
          simp [hn]

/-- A loop that ends without an exception has added the instances of the lines before `ENDSEC;`. -/
theorem outcome_ok {u : Bool} {ls : List Str} {p : Pending} {s : σ} {more : List Str} {s' : σ}
    (h : outcome add u ls p s = some (.ok (more, s'))) :
    ∃ a, ENDSEC ∉ a ∧ (∀ l ∈ a, ¬ WideBlank l) ∧ addAll add (joined a p) s = .ok s' ∧
      (ls = a ++ ENDSEC :: more ∨ (ls = a ∧ more = [] ∧ u = true ∧ lastLine a p = ENDSEC)) := by
  -- the lines in front of the first `ENDSEC;`, or all of them
  have split : ∃ a, ENDSEC ∉ a ∧ ((∃ rest, ls = a ++ ENDSEC :: rest) ∨ ls = a) := by
    by_cases hend : ENDSEC ∈ ls
    · obtain ⟨a, rest, rfl, ha⟩ := List.eq_append_cons_of_mem hend
      exact ⟨a, ha, .inl ⟨rest, rfl⟩⟩
    · exact ⟨ls, hend, .inr rfl⟩
  obtain ⟨a, ha, hls⟩ := split
  have hw : ∀ l ∈ a, ¬ WideBlank l := by
    by_contra hw
    push Not at hw
    rcases hls with ⟨rest, rfl⟩ | rfl
    · obtain ⟨e, he⟩ := outcome_wideBlank add u ha hw (ENDSEC :: rest) p s
      rw [he] at h; cases h
    · obtain ⟨e, he⟩ := outcome_wideBlank add u ha hw [] p s
      rw [List.append_nil] at he
      rw [he] at h; cases h
  refine ⟨a, ha, hw, ?_⟩
  rcases hls with ⟨rest, rfl⟩ | rfl
  · rw [outcome_closed ha hw] at h
    cases hadd : addAll add (joined a p) s with
    | error e => rw [hadd] at h; cases h
    | ok s₁ => rw [hadd] at h; cases h; exact ⟨rfl, .inl rfl⟩
  · rw [outcome_open ha hw] at h
    cases hadd : addAll add (joined ls p) s with
    | error e => rw [hadd] at h; cases h
    | ok s₁ =>
        rw [hadd] at h
        simp only at h
        split at h
        · rename_i hlast
          cases h
          exact ⟨rfl, .inr ⟨rfl, rfl, hlast⟩⟩
        · cases h

end Outcome

/-! ### The header -/

/-- The stream has run out, on a line that `getline` leaves as it is. -/
theorem getline_eof {is : IStream} (h : is.eof = true) (line : Str) :
    getline '\n' is line = (is, line, false) := by simp [getline, h]

/-- The next line, once the line before was the last one. -/
theorem getline_last {is : IStream} {u : Bool} (h : At is [] u) (line : Str) :
    getline '\n' is line = (⟨[], true⟩, if u then line else [], false) := by
  have hrest : is.rest = [] := getlines_eq_nil.mp h.rest
  obtain ⟨rest, eof⟩ := is
  obtain rfl : rest = [] := hrest
  have heof : eof = u := by
    have := h.eof
    cases u <;> simpa using this
  subst heof
  cases eof <;> rfl

/-- The stream at the end of the input. -/
theorem at_eof : At ⟨[], true⟩ [] true := ⟨rfl, by simp, fun h => absurd rfl h⟩

/-- The next line, when there is one. -/
theorem At.getline {is : IStream} {l : Str} {ls : List Str} {u : Bool} (h : At is (l :: ls) u)
    (old : Str) : (Cxx.getline '\n' is old).2 = (l, true) ∧
      At (Cxx.getline '\n' is old).1 ls u := by
  have hg := h.good (by simp)
  obtain ⟨h₁, h₂⟩ := At.next h.rest old
  rw [← hg] at h₁ h₂
  have hu : decide (Unterminated '\n' is.rest) = u := by
    have := h.open_ (by simp)
    cases u <;> simpa using this
  rw [hu] at h₂
  exact ⟨h₁, h₂⟩

/-- The loop that does not test the stream takes the lines before the first `DATA;`. -/
theorem headFor_found {u : Bool} {hs rest : List Str} (hh : DATA ∉ hs) :
    ∀ (ifcHead : Str) {is : IStream} {l : Str} {ls : List Str}, At is ls u →
      l :: ls = hs ++ DATA :: rest → ∃ is', At is' rest u ∧ ∀ fuel,
        headFor (hs.length + 1 + fuel) is l ifcHead =
          some (ifcHead ++ terminated '\n' hs, is', DATA) := by
  induction hs with
  | nil =>
      intro ifcHead is l ls hat e
      cases e
      refine ⟨is, hat, fun fuel => ?_⟩
      rw [show ([] : List Str).length + 1 + fuel = fuel + 1 by simp; omega, headFor, if_pos rfl]
      simp
  | cons h hs ih =>
      intro ifcHead is l ls hat e
      simp only [List.mem_cons, not_or] at hh
      obtain ⟨rfl, rfl⟩ : l = h ∧ ls = hs ++ DATA :: rest := by simpa using e
      obtain ⟨m, ms, hm⟩ := List.exists_cons_of_ne_nil (l := hs ++ DATA :: rest) (by simp)
      rw [hm] at hat
      obtain ⟨h₁, h₂⟩ := hat.getline l
      obtain ⟨is', hat', hrun⟩ := ih hh.2 (ifcHead ++ l ++ ['\n']) h₂ hm.symm
      refine ⟨is', hat', fun fuel => ?_⟩
      rw [show (l :: hs).length + 1 + fuel = (hs.length + 1 + fuel) + 1 by simp; omega, headFor,
        if_neg (Ne.symm hh.1), h₁, hrun fuel]
      simp

/-- The loop that does not test the stream never ends on an input without `DATA;`. -/
theorem headFor_missing (fuel : ℕ) : ∀ {is : IStream} {l : Str} {ls : List Str} {u : Bool}
    {ifcHead : Str}, At is ls u → DATA ∉ l :: ls → headFor fuel is l ifcHead = none := by
  induction fuel with
  | zero => intros; rfl
  | succ fuel ih =>
      intro is l ls u ifcHead hat hd
      simp only [List.mem_cons, not_or] at hd
      rw [headFor, if_neg (Ne.symm hd.1)]
      cases ls with
      | nil =>
          rw [getline_last hat]
          refine ih at_eof ?_
          simp only [List.mem_singleton]
          split
          · exact hd.1
          · decide
      | cons m ls =>
          obtain ⟨h₁, h₂⟩ := hat.getline l
          rw [h₁]
          exact ih h₂ (by simpa using hd.2)

theorem headWhile_found {u : Bool} {hs rest : List Str} (hh : DATA ∉ hs) :
    ∀ (old ifcHead : Str) {is : IStream}, At is (hs ++ DATA :: rest) u →
      ∃ is', At is' rest u ∧ ∀ fuel, headWhile (hs.length + 1 + fuel) is old ifcHead =
        some (ifcHead ++ terminated '\n' hs, is', DATA) := by
  induction hs with
  | nil =>
      intro old ifcHead is hat
      obtain ⟨h₁, h₂⟩ := hat.getline old
      refine ⟨(getline '\n' is old).1, h₂, fun fuel => ?_⟩
      rw [show ([] : List Str).length + 1 + fuel = fuel + 1 by simp; omega, headWhile]
      rcases hg : getline '\n' is old with ⟨is', l, b⟩
      rw [hg] at h₁
      cases h₁
      simp
  | cons h hs ih =>
      intro old ifcHead is hat
      simp only [List.mem_cons, not_or] at hh
      obtain ⟨h₁, h₂⟩ := hat.getline old
      obtain ⟨is', hat', hrun⟩ := ih hh.2 h (ifcHead ++ h ++ ['\n']) h₂
      refine ⟨is', hat', fun fuel => ?_⟩
      rw [show (h :: hs).length + 1 + fuel = (hs.length + 1 + fuel) + 1 by simp; omega, headWhile]
      rcases hg : getline '\n' is old with ⟨is₁, l, b⟩
      rw [hg] at h₁ hrun
      cases h₁
      simp only [if_neg (Ne.symm hh.1), hrun fuel]
      simp

/-- The loop that tests the stream ends there, with the last line if that had no newline. -/
theorem headWhile_missing {u : Bool} {hs : List Str} (hh : DATA ∉ hs) :
    ∀ (old ifcHead : Str) {is : IStream}, At is hs u → ∀ fuel,
      headWhile (hs.length + 1 + fuel) is old ifcHead = some (ifcHead ++ terminated '\n' hs,
        ⟨[], true⟩, if u then (hs.getLast?).getD old else []) := by
  induction hs with
  | nil =>
      intro old ifcHead is hat fuel
      rw [show ([] : List Str).length + 1 + fuel = fuel + 1 by simp; omega, headWhile,
        getline_last hat]
      simp
  | cons h hs ih =>
      intro old ifcHead is hat fuel
      simp only [List.mem_cons, not_or] at hh
      obtain ⟨h₁, h₂⟩ := hat.getline old
      have hrun := ih hh.2 h (ifcHead ++ h ++ ['\n']) h₂ fuel
      rw [show (h :: hs).length + 1 + fuel = (hs.length + 1 + fuel) + 1 by simp; omega, headWhile]
      rcases hg : getline '\n' is old with ⟨is₁, l, b⟩
      rw [hg] at h₁ hrun
      cases h₁
      simp only [if_neg (Ne.symm hh.1), hrun]
      simp [List.getLast?_cons]

/-! ### Both loops -/

/-- What the header is written as. -/
def headText (text : Str) : Str :=
  terminated '\n' ((getlines '\n' text).takeWhile (· ≠ DATA)) ++ DATA ++ ['\n']

/-- The lines the DATA loop sees, the last of them in the string for good when the input does not
end with a newline; `none` when the header loop never ends. -/
def dataLines (head : HeadLoop) (text : Str) : Option (List Str) :=
  let ls := getlines '\n' text
  if DATA ∈ ls then
    let rest := (ls.dropWhile (· ≠ DATA)).tail
    some (if rest = [] ∧ Unterminated '\n' text then [DATA] else rest)
  else match head with
    | .forGetline => none
    | .whileGetline => some (if Unterminated '\n' text then ls.getLast?.toList else [])

/-- The DATA loop starts on the first of its lines, or on the empty line of a stream that has run
out. -/
def Starts (ls : List Str) (u : Bool) (is : IStream) (line : Str) : Prop :=
  match ls with
  | [] => is = ⟨[], true⟩ ∧ line = []
  | l :: ls => At is ls u ∧ line = l

theorem at_ofText (text : Str) :
    At (.ofText text) (getlines '\n' text) (decide (Unterminated '\n' text)) := by
  refine ⟨rfl, ?_, fun _ => by simp [IStream.ofText]⟩
  simp only [IStream.ofText, Bool.false_eq_true, false_iff, decide_eq_true_eq, not_and]
  rintro h ⟨c, hc, -⟩
  rw [getlines_eq_nil.mp h] at hc
  cases hc

/-- The first `getline` of the DATA loop. -/
theorem starts_of_at {is : IStream} {rest : List Str} {u : Bool} (h : At is rest u) (line : Str) :
    Starts (if rest = [] ∧ u = true then [line] else rest) u (getline '\n' is line).1
      (getline '\n' is line).2.1 := by
  cases rest with
  | nil =>
      rw [getline_last h]
      cases u with
      | false => exact ⟨rfl, rfl⟩
      | true => exact ⟨at_eof, rfl⟩
  | cons l ls =>
      obtain ⟨h₁, h₂⟩ := h.getline line
      rw [h₁]
      exact ⟨h₂, rfl⟩

/-- A list up to the first of its members that is `x`, and what follows. -/
theorem split_at {ls : List Str} {x : Str} (h : x ∈ ls) : ∃ hs rest, ls = hs ++ x :: rest ∧
    x ∉ hs ∧ ls.takeWhile (· ≠ x) = hs ∧ (ls.dropWhile (· ≠ x)).tail = rest := by
  obtain ⟨hs, rest, rfl, hh⟩ := List.eq_append_cons_of_mem h
  have hpos : ∀ y ∈ hs, decide (y ≠ x) = true := fun y hy => by
    simp only [ne_eq, decide_not, Bool.not_eq_true', decide_eq_false_iff_not]
    rintro rfl
    exact hh hy
  refine ⟨hs, rest, rfl, hh, ?_, ?_⟩
  · rw [List.takeWhile_append_of_pos hpos, List.takeWhile_cons_of_neg (by simp), List.append_nil]
  · rw [List.dropWhile_append_of_pos hpos, List.dropWhile_cons_of_neg (by simp), List.tail_cons]

/-- Both loops take the lines before the first DATA. -/
theorem headLoop_found (head : HeadLoop) {is : IStream} {hs rest : List Str} {u : Bool}
    (hat : At is (hs ++ DATA :: rest) u) (hh : DATA ∉ hs) : ∃ is', At is' rest u ∧ ∀ fuel,
      headLoop head (hs.length + 1 + fuel) is = some (terminated '\n' hs, is', DATA) := by
  cases head with
  | whileGetline => simpa [headLoop] using headWhile_found hh [] [] hat
  | forGetline =>
      have hne : hs ++ DATA :: rest ≠ [] := by simp
      obtain ⟨l, ls, hl⟩ := List.exists_cons_of_ne_nil hne
      rw [hl] at hat
      obtain ⟨h₁, h₂⟩ := hat.getline []
      have hfound := headFor_found hh [] h₂ hl.symm
      simpa [headLoop, h₁] using hfound

/-- The loop that does not test the stream never ends without a DATA. -/
theorem headLoop_endless {is : IStream} {ls : List Str} {u : Bool} (hat : At is ls u)
    (hd : DATA ∉ ls) (fuel : ℕ) : headLoop .forGetline fuel is = none := by
  cases ls with
  | nil =>
      rw [headLoop, getline_last hat]
      exact headFor_missing fuel at_eof (by split <;> decide)
  | cons l ls =>
      obtain ⟨h₁, h₂⟩ := hat.getline []
      rw [headLoop, h₁]
      exact headFor_missing fuel h₂ hd

/-- The first `getline` of the DATA loop after the stream has run out. -/
theorem starts_of_eof {ls : List Str} {u : Bool} (hne : u = true → ls ≠ []) :
    Starts (if u = true then ls.getLast?.toList else []) u
      (getline '\n' ⟨[], true⟩ (if u then ls.getLast?.getD [] else [])).1
      (getline '\n' ⟨[], true⟩ (if u then ls.getLast?.getD [] else [])).2.1 := by
  rw [getline_eof rfl]
  cases u with
  | false => exact ⟨rfl, rfl⟩
  | true =>
      rw [if_pos rfl, List.getLast?_eq_some_getLast (hne rfl)]
      exact ⟨at_eof, rfl⟩

/-- **The header loop** leaves the lines that `dataLines` says, or never ends. -/
theorem headLoop_spec (head : HeadLoop) (text : Str) :
    match dataLines head text with
    | none => ∀ fuel, headLoop head fuel (.ofText text) = none
    | some ls => ∃ is line, Starts ls (decide (Unterminated '\n' text)) (getline '\n' is line).1
        (getline '\n' is line).2.1 ∧ ∀ fuel,
          (headLoop head ((getlines '\n' text).length + 1 + fuel) (.ofText text)).map
            (fun r => (r.1 ++ DATA ++ ['\n'], r.2)) = some (headText text, is, line) := by
  have hat := at_ofText text
  set u := decide (Unterminated '\n' text) with hu
  have hu' : (Unterminated '\n' text) ↔ u = true := by simp [hu]
  simp only [dataLines, hu']
  by_cases hd : DATA ∈ getlines '\n' text
  · obtain ⟨hs, rest, hls, hh, htake, hdrop⟩ := split_at hd
    rw [if_pos hd, hdrop]
    have hhead : headText text = terminated '\n' hs ++ DATA ++ ['\n'] := by rw [headText, htake]
    obtain ⟨is, hat', hrun⟩ := headLoop_found head (hls ▸ hat) hh
    refine ⟨is, DATA, starts_of_at hat' DATA, fun fuel => ?_⟩
    -- the fuel covers the header and leaves as much as is asked for
    have hfuel : (getlines '\n' text).length + 1 + fuel =
        hs.length + 1 + (rest.length + 1 + fuel) := by
      rw [hls, List.length_append, List.length_cons]
      omega
    rw [hfuel, hrun, hhead]
    rfl
  · rw [if_neg hd]
    cases head with
    | forGetline => exact headLoop_endless hat hd
    -- without the line this loop reads the whole text, and ends where the text does
    | whileGetline =>
        have htake : (getlines '\n' text).takeWhile (· ≠ DATA) = getlines '\n' text := by
          refine List.takeWhile_eq_self_iff.mpr fun l hl => ?_
          simpa using ne_of_mem_of_not_mem hl hd
        have hne : u = true → getlines '\n' text ≠ [] := by
          intro hu₁ hnil
          obtain ⟨c, hc, -⟩ := hu'.mpr hu₁
          rw [getlines_eq_nil.mp hnil] at hc
          cases hc
        have hrun := headWhile_missing hd [] [] hat
        refine ⟨_, _, starts_of_eof hne, fun fuel => ?_⟩
        rw [headLoop, hrun, headText, htake]
        rfl

/-- The lines of a section have no newline. -/
theorem newline_of_dataLines {head : HeadLoop} {text : Str} {ls : List Str}
    (h : dataLines head text = some ls) : ∀ l ∈ ls, '\n' ∉ l := by
  have hall : ∀ l ∈ getlines '\n' text, '\n' ∉ l := fun l hl => notMem_of_mem_getlines hl
  unfold dataLines at h
  simp only at h
  split at h
  · cases h
    intro l hl
    split at hl
    · obtain rfl := List.mem_singleton.mp hl
      decide
    · exact hall l ((List.dropWhile_sublist _).mem (List.mem_of_mem_tail hl))
  · cases head with
    | forGetline => cases h
    | whileGetline =>
        cases h
        intro l hl
        split at hl
        · exact hall l (List.mem_of_getLast? (by simpa using hl))
        · cases hl

/-! More fuel changes nothing. -/

theorem headWhile_mono {fuel : ℕ} : ∀ {is : IStream} {line ifcHead : Str} {r},
    headWhile fuel is line ifcHead = some r → ∀ k, headWhile (fuel + k) is line ifcHead = some r := by
  induction fuel with
  | zero => intro is line ifcHead r h; cases h
  | succ fuel ih =>
      intro is line ifcHead r h k
      rw [Nat.add_right_comm]
      rw [headWhile] at h ⊢
      rcases hg : getline '\n' is line with ⟨is', l, b⟩
      rw [hg] at h
      cases b with
      | false => exact h
      | true =>
          simp only at h ⊢
          split at h
          · rename_i hl; rw [if_pos hl]; exact h
          · rename_i hl; rw [if_neg hl]; exact ih h k

theorem headFor_mono {fuel : ℕ} : ∀ {is : IStream} {line ifcHead : Str} {r},
    headFor fuel is line ifcHead = some r → ∀ k, headFor (fuel + k) is line ifcHead = some r := by
  induction fuel with
  | zero => intro is line ifcHead r h; cases h
  | succ fuel ih =>
      intro is line ifcHead r h k
      rw [Nat.add_right_comm]
      rw [headFor] at h ⊢
      split at h
      · rename_i hl; rw [if_pos hl]; exact h
      · rename_i hl; rw [if_neg hl]; exact ih h k

theorem headLoop_mono {head : HeadLoop} {fuel : ℕ} {is : IStream} {r}
    (h : headLoop head fuel is = some r) (k : ℕ) : headLoop head (fuel + k) is = some r := by
  cases head with
  | whileGetline => exact headWhile_mono h k
  | forGetline => exact headFor_mono h k

section Both

variable {σ : Type} {add : Str → σ → Except Fault σ}

theorem dataLoop_mono {fuel : ℕ} : ∀ {is : IStream} {line : Str} {p : Pending} {s : σ} {r},
    dataLoop add fuel is line p s = some r → ∀ k, dataLoop add (fuel + k) is line p s = some r := by
  induction fuel with
  | zero => intro is line p s r h; cases h
  | succ fuel ih =>
      intro is line p s r h k
      rw [Nat.add_right_comm]
      rw [dataLoop] at h ⊢
      split at h
      · rename_i hl; rw [if_pos hl]; exact h
      · rename_i hl
        rw [if_neg hl]
        cases hr : readLine add line p s with
        | error e => rw [hr] at h; exact h
        | ok r => rw [hr] at h; exact ih h k

theorem reading_mono {head : HeadLoop} {fuel : ℕ} {text : Str} {s : σ} {r}
    (h : reading add head fuel text s = some r) (k : ℕ) :
    reading add head (fuel + k) text s = some r := by
  unfold reading at h ⊢
  cases hh : headLoop head fuel (.ofText text) with
  | none => rw [hh] at h; cases h
  | some r₀ =>
      rw [hh] at h
      rw [headLoop_mono hh k]
      simp only at h ⊢
      cases hd : dataLoop add fuel (getline '\n' r₀.2.1 r₀.2.2).1 (getline '\n' r₀.2.1 r₀.2.2).2.1
          .start s with
      | none => rw [hd] at h; cases h
      | some r₁ => rw [hd] at h; rw [dataLoop_mono hd k]; exact h

section AfterHead

variable {head : HeadLoop} {text line : Str} {is : IStream} {n : ℕ}

/-- With the header read, the two loops are the DATA loop. -/
theorem reading_of_head (hhead : ∀ fuel, (headLoop head (n + fuel) (.ofText text)).map
      (fun r => (r.1 ++ DATA ++ ['\n'], r.2)) = some (headText text, is, line)) (s : σ) (fuel : ℕ) :
    reading add head (n + fuel) text s =
      (dataLoop add (n + fuel) (getline '\n' is line).1 (getline '\n' is line).2.1 .start s).map
        (·.map fun r => (headText text, r.1, r.2)) := by
  obtain ⟨⟨ifcHead, is', line'⟩, hr, he⟩ := Option.map_eq_some_iff.mp (hhead fuel)
  simp only [Prod.mk.injEq] at he
  obtain ⟨h₁, rfl, rfl⟩ := he
  rw [reading, hr, ← h₁]

/-- A loop that ends never does so for want of fuel. -/
theorem reading_endless (hhead : ∀ fuel, (headLoop head (n + fuel) (.ofText text)).map
      (fun r => (r.1 ++ DATA ++ ['\n'], r.2)) = some (headText text, is, line)) {s : σ}
    (h : ∀ fuel, dataLoop add fuel (getline '\n' is line).1 (getline '\n' is line).2.1 .start s =
      none) (fuel : ℕ) : reading add head fuel text s = none := by
  by_contra hne
  obtain ⟨r, hr⟩ := Option.ne_none_iff_exists'.mp hne
  have hmore := reading_mono hr n
  rw [Nat.add_comm, reading_of_head hhead, h] at hmore
  cases hmore

end AfterHead

/-- **Both loops on a text**: what they come to, or that they never end. -/
theorem reading_outcome (hadd : Stable add) (head : HeadLoop) (text : Str) (s : σ) :
    match (dataLines head text).bind
      fun ls => outcome add (decide (Unterminated '\n' text)) ls .start s with
    | none => ∀ fuel, reading add head fuel text s = none
    | some (.error e) => ∃ fuel, reading add head fuel text s = some (.error e)
    | some (.ok (more, s')) => ∃ fuel is, getlines '\n' is.rest = more ∧
        (is.eof = true → is.rest = []) ∧
        reading add head fuel text s = some (.ok (headText text, is, s')) := by
  have hspec := headLoop_spec head text
  set u := decide (Unterminated '\n' text)
  cases hd : dataLines head text with
  | none =>
      rw [hd] at hspec
      intro fuel
      rw [reading, hspec fuel]
  | some ls =>
      rw [hd] at hspec
      obtain ⟨is, line, hstart, hhead⟩ := hspec
      rw [Option.bind_some]
      cases ls with
      -- without a line behind the header the loop never ends
      | nil =>
          obtain ⟨h₁, h₂⟩ := hstart
          refine reading_endless hhead fun fuel => ?_
          rw [h₁, h₂]
          exact dataLoop_stuck hadd (stuck_nil .start) (fun h => absurd h Bool.false_ne_true)
            (by decide) fuel
      | cons l ls =>
          -- the fuel is what the header takes, and one turn for each line
          obtain ⟨hat, hl⟩ := hstart
          have hout := dataLoop_outcome hadd ls hat (newline_of_dataLines hd) Pending.start_ok
            (l := l) (p := .start) (s := s)
          rw [← hl] at hout ⊢
          cases ho : outcome add u ((getline '\n' is line).2.1 :: ls) .start s with
          | none =>
              rw [ho] at hout
              exact reading_endless hhead hout
          | some r =>
              rw [ho] at hout
              cases r with
              | error e =>
                  refine ⟨(getlines '\n' text).length + 1 + (ls.length + 1), ?_⟩
                  rw [reading_of_head hhead, Nat.add_comm]
                  exact congrArg _ (hout _)
              | ok r =>
                  obtain ⟨is', h₁, h₂, h₃⟩ := hout
                  refine ⟨(getlines '\n' text).length + 1 + (ls.length + 2), is', h₁, h₂, ?_⟩
                  rw [reading_of_head hhead, Nat.add_comm, h₃]
                  rfl

end Both

end VulcanDB.Compression
