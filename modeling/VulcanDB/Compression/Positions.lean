import VulcanDB.Compression.Safety
import VulcanDB.Compression.Runs

/-!
# Compression — Positions

The programs that keep every position in an `int`, as the code does, are those of the other
modules wherever an `int` counts the characters of the lines and of the instances they join to.

The contents that Step 2 rewrites are those that were read: a content is replaced once only, when
all its references are known, and its slot is then taken in the next pass.  So the tokens that are
cut again are never longer than those of the input (`Waits`).

* `Narrow.short_of_length`: a text that is short itself has only such lines.
* `Narrow.reading_eq`: the loops over the header and the section, closed or not.
* `Narrow.resolveLoop_eq`: Step 2.
* `Narrow.ifcCompressor_eq`, `Narrow.ifcCompressorAna_eq`: the two programs.
-/

namespace VulcanDB.Compression

open Cxx

namespace Narrow

/-! ### The programs -/

section Loop

variable {σ : Type} (add : Str → σ → Except Fault σ)

/-- `Compression.readLine` over the `trim` that keeps its positions in an `int`; so the
functions below, each over the one before. -/
def readLine (line : Str) (p : Pending) (s : σ) : Except Fault (Str × Pending × σ) := do
  let (line, p, complete) ← body line p
  let s ← if complete then add line s else pure s
  return (line, p, s)

/-- The loop over the DATA section. -/
def dataLoop : ℕ → IStream → Str → Pending → σ → Option (Except Fault (IStream × σ))
  | 0, _, _, _, _ => none
  | fuel + 1, is, line, p, s =>
    if line = ENDSEC then some (.ok (is, s))
    else match readLine add line p s with
      | .error e => some (.error e)
      | .ok (line, p, s) =>
        dataLoop fuel (getline '\n' is line).1 (getline '\n' is line).2.1 p s

/-- Both loops, from the start of the input. -/
def reading (head : HeadLoop) (fuel : ℕ) (text : Str) (s : σ) :
    Option (Except Fault (Str × IStream × σ)) :=
  match headLoop head fuel (.ofText text) with
  | none => none
  | some (ifcHead, is, line) =>
    (dataLoop add fuel (getline '\n' is line).1 (getline '\n' is line).2.1 .start s).map
      (·.map fun r => (ifcHead ++ DATA ++ ['\n'], r.1, r.2))

end Loop

/-- The loop body of Step 1 from `++totalCount` on. -/
def addInstance (prog : Program) (mode : Mode) (line : Str) (w : Work) : Except Fault Work := do
  let w := { w with totalCount := w.totalCount + 1 }
  let (id, type, content, cite) ← ifcInstanceAna mode line
  let ist : IfcInstance := ⟨id, type, content, cite.isEmpty⟩
  if ist.flag then
    let (w, isNew) := matchInstance ist w
    return if isNew then addBase prog ist w else w
  else
    return { w with umSet := { w.umSet with slots := w.umSet.slots ++ [(ist, true)] } }

/-- The content of one slot, rewritten. -/
def rewriteSlot (rel : StdMap Int ℕ) (s : Slot) : Except Fault Slot := do
  let (allFind, content) ← standardContentRel s.1.content rel
  return ({ s.1 with content := content, flag := allFind }, s.2)

/-- The loop that rewrites the contents of the slots that `which` picks. -/
def rewriteSlots (rel : StdMap Int ℕ) (which : Slot → Bool) :
    List Slot → Except Fault (List Slot)
  | [] => .ok []
  | s :: slots => do
    let s ← if which s then rewriteSlot rel s else pure s
    let slots ← rewriteSlots rel which slots
    return s :: slots

/-- The end of Step 1. -/
def endStep1 (w : Work) : Except Fault Work := do
  let slots ← rewriteSlots w.mSet.idBaseID (fun _ => true) w.umSet.slots
  return { w with umSet := ⟨slots, w.umSet.totalCount + w.umSet.slots.length⟩ }

/-- One pass of Step 2. -/
def pass (prog : Program) (w : Work) : Except Fault Work := do
  let (w, slots) := matchSlots prog 0 w.umSet.slots w
  let slots ← rewriteSlots w.mSet.idBaseID (fun s => s.2) slots
  return { w with umSet := { w.umSet with slots := slots } }

/-- `while (umSet.totalCount != 0)`. -/
def resolveLoop (prog : Program) : ℕ → Work → Option (Except Fault Work)
  | 0, _ => none
  | fuel + 1, w =>
    if w.umSet.totalCount = 0 then some (.ok w)
    else match pass prog w with
      | .error e => some (.error e)
      | .ok w => resolveLoop prog fuel w

/-- Both steps on an input. -/
def steps (prog : Program) (mode : Mode) (head : HeadLoop) (fuel : ℕ) (text : Str) :
    Option (Except Fault (Str × IStream × Work)) :=
  match reading (addInstance prog mode) head fuel text Work.start with
  | none => none
  | some (.error e) => some (.error e)
  | some (.ok (ifcHead, is, w)) =>
    match endStep1 w with
    | .error e => some (.error e)
    | .ok w => (resolveLoop prog fuel w).map (·.map fun w => (ifcHead, is, w))

/-- `IfcCompressor`. -/
def ifcCompressor (mode : Mode) (head : HeadLoop) (fuel : ℕ) (text : Str) :
    Option (Except Fault Output) :=
  match steps .compressor mode head fuel text with
  | none => none
  | some (.error e) => some (.error e)
  | some (.ok (ifcHead, is, w)) =>
    if INT_MAX < w.totalCount then some (.error .overflow) else some (write ifcHead is w)

/-- `IfcCompressorAna`. -/
def ifcCompressorAna (mode : Mode) (fuel : ℕ) (text : Str) : Option (Except Fault Work) :=
  (steps .ana mode .forGetline fuel text).map (·.map fun r => r.2.2)

/-! ### The loops -/

/-- An `int` counts the characters of the lines, up to the blanks at their ends, and those of the
instances that they join to. -/
structure Short (ls : List Str) (p : Pending) : Prop where
  lines : ∀ l ∈ ls, Counted l
  instances : ∀ l ∈ joined ls p, l.length < 2 ^ 31

/-- What is left of the lines after the first. -/
theorem Short.tail {l : Str} {ls : List Str} {p : Pending} (h : Short (l :: ls) p) :
    Short ls (scan l p).2.1 := by
  refine ⟨fun m hm => h.lines m (List.mem_cons_of_mem _ hm), fun i hi => h.instances i ?_⟩
  rw [joined]
  split
  · exact List.mem_cons_of_mem _ hi
  · exact hi

/-- Such a line is short without its blanks. -/
theorem length_strip_of_counted {l : Str} (h : Counted l) : (strip ' ' l).length < 2 ^ 31 := by
  by_cases hb : Blank ' ' l
  · rw [strip_of_blank hb]
    decide
  · obtain ⟨p, x, m, y, q, rfl, hp, hq, hx, hl, hy⟩ := exists_core hb
    rw [Counted, findLastNotOf_core hq hx hl hy, findFirstNotOf_core hp hx] at h
    rw [strip_core hp hq hx hl hy, List.length_cons]
    omega

/-- What the body leaves in the line. -/
theorem Short.length_scan {l : Str} {ls : List Str} {p : Pending} (h : Short (l :: ls) p) :
    (scan l p).1.length < 2 ^ 31 := by
  cases hc : (scan l p).2.2 with
  | true =>
      refine h.instances _ ?_
      rw [joined, if_pos hc]
      exact List.mem_cons_self
  | false =>
      have hline : (scan l p).1 = strip ' ' l := by
        unfold scan at hc ⊢
        simp only at hc ⊢
        split_ifs at hc ⊢ <;> rfl
      rw [hline]
      exact length_strip_of_counted (h.lines l List.mem_cons_self)

/-! A text that is itself shorter has only such lines. -/

/-- The lines of a text have its characters. -/
theorem sum_length_getlines {d : Char} {s : Str} :
    ((getlines d s).map List.length).sum ≤ s.length := by
  induction s with
  | nil => exact le_rfl
  | cons c s ih =>
      rw [getlines]
      split
      · rw [List.map_cons, List.sum_cons, List.length_nil, List.length_cons]
        omega
      · split
        · simp
        · rename_i m ms he
          rw [he, List.map_cons, List.sum_cons] at ih
          rw [List.map_cons, List.sum_cons, List.length_cons, List.length_cons]
          omega

/-- An instance has the characters of its lines. -/
theorem length_joined {ls : List Str} : ∀ {p : Pending}, ∀ i ∈ joined ls p,
    i.length ≤ p.tmpPartial.length + (ls.map List.length).sum := by
  induction ls with
  | nil => intro p i hi; cases hi
  | cons l ls ih =>
      intro p i hi
      have hstrip := length_strip ' ' l
      have hscan : (scan l p).1.length ≤ p.tmpPartial.length + l.length ∧
          (scan l p).2.1.tmpPartial.length ≤ p.tmpPartial.length + l.length := by
        unfold scan
        simp only
        split_ifs <;> simp only [List.length_append, List.length_nil] <;> omega
      rw [List.map_cons, List.sum_cons]
      rw [joined] at hi
      have hrest : i ∈ joined ls (scan l p).2.1 →
          i.length ≤ p.tmpPartial.length + (l.length + (ls.map List.length).sum) := by
        intro hi
        have := ih i hi
        omega
      split at hi
      · rcases List.mem_cons.mp hi with rfl | hi
        · omega
        · exact hrest hi
      · exact hrest hi

/-- The lines of the section are lines of the text. -/
theorem dataLines_sublist {head : HeadLoop} {text : Str} {ls : List Str}
    (h : dataLines head text = some ls) : ls.Sublist (getlines '\n' text) := by
  unfold dataLines at h
  simp only at h
  split at h
  · rename_i hd
    cases h
    split
    · exact List.singleton_sublist.mpr hd
    · exact (List.tail_sublist _).trans (List.dropWhile_sublist _)
  · cases head with
    | forGetline => cases h
    | whileGetline =>
        cases h
        split
        · cases hlast : (getlines '\n' text).getLast? with
          | none => exact List.nil_sublist _
          | some l => exact List.singleton_sublist.mpr (List.mem_of_getLast? hlast)
        · exact List.nil_sublist _

theorem short_of_length {head : HeadLoop} {text : Str} (h : text.length < 2 ^ 31) :
    ∀ ls, dataLines head text = some ls → Short (ls.takeWhile (· ≠ ENDSEC)) .start := by
  intro ls hls
  have hsub := (List.takeWhile_sublist (l := ls) (· ≠ ENDSEC)).trans (dataLines_sublist hls)
  refine ⟨fun l hl => ?_, fun i hi => ?_⟩
  · exact counted_of_length ((length_getlines l (hsub.subset hl)).trans_lt h)
  · have hjoin := length_joined i hi
    have hsum := (hsub.map List.length).sum_le_sum fun n _ => Nat.zero_le n
    have htext := sum_length_getlines (d := '\n') (s := text)
    have hstart : Pending.start.tmpPartial.length = 0 := rfl
    omega

section Loop

variable {σ : Type} {add add' : Str → σ → Except Fault σ}
  (hadd : ∀ i s, i.length < 2 ^ 31 → add' i s = add i s)

include hadd

/-- **One line.** -/
theorem readLine_eq {l : Str} {p : Pending} (hl : Counted l) (hlen : (scan l p).1.length < 2 ^ 31)
    (s : σ) : readLine add' l p s = Compression.readLine add l p s := by
  rw [readLine, Compression.readLine, body_eq hl]
  by_cases hw : WideBlank l
  · rw [body_of_wideBlank hw]
    rfl
  · rw [Compression.body_eq hw]
    simp only [bind, Except.bind, hadd _ s hlen]

/-- The loop at the end of the input. -/
theorem dataLoop_stuck_eq {l : Str} {p : Pending} {complete : Bool} {s : σ}
    (h : Stuck l p complete) (hlen : l.length < 2 ^ 31) (fuel : ℕ) :
    dataLoop add' fuel ⟨[], true⟩ l p s = Compression.dataLoop add fuel ⟨[], true⟩ l p s := by
  induction fuel generalizing p s with
  | zero => rfl
  | succ fuel ih =>
      obtain ⟨p', hb, h'⟩ := h.scan
      rw [Compression.body_eq (not_wideBlank_of_trimmed h.trimmed), Except.ok.injEq] at hb
      rw [dataLoop, Compression.dataLoop,
        readLine_eq hadd (counted_of_length hlen) (by rw [hb]; exact hlen)]
      split
      · rfl
      · cases hread : Compression.readLine add l p s with
        | error e => rfl
        | ok r =>
            obtain ⟨line, p₁, s₁⟩ := r
            obtain ⟨-, c, hsc, -⟩ := readLine_ok hread
            rw [hb] at hsc
            cases hsc
            exact ih h'

/-- **The loop over the section**, by induction on the rounds: each takes a line of the text, until
there is none. -/
theorem dataLoop_eq (fuel : ℕ) : ∀ {ls : List Str} {u : Bool} {is : IStream} {l : Str}
    {p : Pending} {s : σ}, At is ls u → (∀ m ∈ l :: ls, '\n' ∉ m) → p.OK →
    Short ((l :: ls).takeWhile (· ≠ ENDSEC)) p →
    dataLoop add' fuel is l p s = Compression.dataLoop add fuel is l p s := by
  induction fuel with
  | zero => intros; rfl
  | succ fuel ih =>
      intro ls u is l p s hat hnl hp hshort
      rw [dataLoop, Compression.dataLoop]
      by_cases hend : l = ENDSEC
      · rw [if_pos hend, if_pos hend]
      · rw [List.takeWhile_cons_of_pos (by simpa using hend)] at hshort
        rw [if_neg hend, if_neg hend,
          readLine_eq hadd (hshort.lines l List.mem_cons_self) hshort.length_scan]
        cases hread : Compression.readLine add l p s with
        | error e => rfl
        | ok r =>
            obtain ⟨line, p', s'⟩ := r
            obtain ⟨-, c, hsc, -⟩ := readLine_ok hread
            have hok := (scan_ok (hnl l List.mem_cons_self) hp).1
            have hstuck := scan_stuck hp (hnl l List.mem_cons_self)
            have hlen := hshort.length_scan
            have htail := hshort.tail
            rw [hsc] at hok hstuck hlen htail
            cases ls with
            | nil =>
                -- the stream has run out: the line stays, or is emptied for good
                simp only [getline_last hat]
                cases u with
                | false => exact dataLoop_stuck_eq hadd (stuck_nil p') (by decide) fuel
                | true => exact dataLoop_stuck_eq hadd hstuck hlen fuel
            | cons m ls =>
                obtain ⟨hg, hat'⟩ := hat.getline line
                have hline : (getline '\n' is line).2.1 = m := by rw [hg]
                simp only [hline]
                exact ih hat' (fun k hk => hnl k (List.mem_cons_of_mem _ hk)) hok htail

/-- **Both loops.**  The header is not looked into. -/
theorem reading_eq {head : HeadLoop} {text : Str} (hshort : ∀ ls, dataLines head text = some ls →
    Short (ls.takeWhile (· ≠ ENDSEC)) .start) (fuel : ℕ) (s : σ) :
    reading add' head fuel text s = Compression.reading add head fuel text s := by
  rw [reading, Compression.reading]
  cases hh : headLoop head fuel (.ofText text) with
  | none => rfl
  | some r =>
      obtain ⟨ifcHead, is, line⟩ := r
      have hspec := headLoop_spec head text
      cases hd : dataLines head text with
      | none =>
          rw [hd] at hspec
          rw [hspec fuel] at hh
          cases hh
      | some ls =>
          rw [hd] at hspec
          obtain ⟨is', line', hstart, hrun⟩ := hspec
          have hmore := hrun fuel
          rw [Nat.add_comm, headLoop_mono hh, Option.map_some, Option.some.injEq,
            Prod.mk.injEq, Prod.mk.injEq] at hmore
          obtain ⟨-, rfl, rfl⟩ := hmore
          refine congrArg (Option.map _) ?_
          have hls := hshort ls hd
          cases ls with
          | nil =>
              obtain ⟨h₁, h₂⟩ := hstart
              rw [h₁, h₂]
              exact dataLoop_stuck_eq hadd (stuck_nil .start) (by decide) fuel
          | cons l ls =>
              obtain ⟨hat, rfl⟩ := hstart
              exact dataLoop_eq hadd fuel hat (newline_of_dataLines hd) Pending.start_ok hls

end Loop

/-! ### Step 1 -/

/-- **One instance.** -/
theorem addInstance_eq (prog : Program) (mode : Mode) {line : Str} (h : line.length < 2 ^ 31)
    (w : Work) : addInstance prog mode line w = Compression.addInstance prog mode line w := by
  rw [addInstance, Compression.addInstance, ifcInstanceAna_eq mode h]

/-- A normalised content, none of whose tokens has `2 ^ 32` characters. -/
def Fits (content : Str) : Prop :=
  ∃ ts, (∀ t ∈ ts, NormToken t) ∧ (∀ t ∈ ts, t.length < 2 ^ 32) ∧ content = joinWith ',' ts

section Reads

variable {mode : Mode} (hround : mode.round = binary64) (hprec : mode.precision < 2 ^ 31)
include hround hprec

/-- Every content that is kept is one that was read. -/
theorem fits_addInstance {prog : Program} {line : Str} (hl : Whole line)
    (hlen : line.length < 2 ^ 31) {w w' : Work}
    (h : Compression.addInstance prog mode line w = .ok w')
    (hw : ∀ s ∈ w.umSet.slots, Fits s.1.content) : ∀ s ∈ w'.umSet.slots, Fits s.1.content := by
  have hp : Parses line := (accepts_addInstance prog mode line w hl).mpr ⟨w', h⟩
  have hfits : Fits (joinWith ',' (tokensOf mode line)) :=
    ⟨_, tokensOf_norm mode hp hl.newline, length_tokensOf hround hprec hlen, rfl⟩
  rw [Compression.addInstance] at h
  simp only [bind, Except.bind,
    Compression.ifcInstanceAna_eq mode hl.ne_nil hl.trimmed hl.newline hp] at h
  split at h
  · -- an instance without references is a base, or it is merged with one
    cases h
    split
    · cases prog with
      | compressor =>
          simp only [addBase, (matchInstance_frame _ _).1, List.forall_mem_append, List.forall_mem_singleton]
          exact ⟨hw, hfits⟩
      | ana =>
          simp only [addBase, Work.emit, (matchInstance_frame _ _).1]
          exact hw
    · rw [(matchInstance_frame _ _).1]
      exact hw
  · cases h
    simp only [List.forall_mem_append, List.forall_mem_singleton]
    exact ⟨hw, hfits⟩

/-- **What Step 1 keeps**, by induction on the instances. -/
theorem fits_addAll {prog : Program} {ls : List Str} (hl : ∀ l ∈ ls, Whole l)
    (hlen : ∀ l ∈ ls, l.length < 2 ^ 31) {w w' : Work}
    (h : addAll (Compression.addInstance prog mode) ls w = .ok w')
    (hw : ∀ s ∈ w.umSet.slots, Fits s.1.content) : ∀ s ∈ w'.umSet.slots, Fits s.1.content := by
  induction ls generalizing w with
  | nil =>
      cases h
      exact hw
  | cons l ls ih =>
      rw [addAll] at h
      cases hadd : Compression.addInstance prog mode l w with
      | error e =>
          rw [hadd] at h
          cases h
      | ok w₁ =>
          rw [hadd] at h
          exact ih (fun m hm => hl m (List.mem_cons_of_mem _ hm))
            (fun m hm => hlen m (List.mem_cons_of_mem _ hm)) h
            (fits_addInstance hround hprec (hl l List.mem_cons_self) (hlen l List.mem_cons_self)
              hadd hw)

/-- The slots at the end of the section. -/
theorem fits_reading {prog : Program} {head : HeadLoop} {fuel : ℕ} {text ifcHead : Str}
    {is : IStream} {w : Work} (hshort : ∀ ls, dataLines head text = some ls →
      Short (ls.takeWhile (· ≠ ENDSEC)) .start)
    (h : Compression.reading (Compression.addInstance prog mode) head fuel text Work.start =
      some (.ok (ifcHead, is, w))) : ∀ s ∈ w.umSet.slots, Fits s.1.content := by
  obtain ⟨a, more, hhas, -, hadd, -⟩ := reading_added h
  have htake : ∀ ls : List Str, ENDSEC ∉ a → (ls = a ++ ENDSEC :: more ∨ ls = a) →
      ls.takeWhile (· ≠ ENDSEC) = a := by
    intro ls hend hls
    have hall : ∀ l ∈ a, decide (l ≠ ENDSEC) = true := fun l hl =>
      decide_eq_true (ne_of_mem_of_not_mem hl hend)
    rcases hls with rfl | rfl
    · rw [List.takeWhile_append_of_pos hall, List.takeWhile_cons_of_neg (by simp), List.append_nil]
    · exact List.takeWhile_eq_self_iff.mpr hall
  obtain ⟨ls, hls, hcut⟩ : ∃ ls, dataLines head text = some ls ∧
      ls.takeWhile (· ≠ ENDSEC) = a := by
    obtain ⟨hend, hd | ⟨hd, -⟩⟩ := hhas
    · exact ⟨_, hd, htake _ hend (.inl rfl)⟩
    · exact ⟨_, hd, htake _ hend (.inr rfl)⟩
  have hlines := hshort ls hls
  rw [hcut] at hlines
  exact fits_addAll hround hprec (instances_whole hhas.newline) hlines.instances hadd (by
    simp [Work.start])

end Reads

/-! ### Step 2 -/

theorem rewriteSlot_eq (rel : StdMap Int ℕ) {s : Slot} (h : Fits s.1.content) :
    rewriteSlot rel s = Compression.rewriteSlot rel s := by
  obtain ⟨ts, hnorm, hlen, hs⟩ := h
  rw [rewriteSlot, Compression.rewriteSlot, hs, standardContentRel_eq hnorm hlen]

theorem rewriteSlots_eq (rel : StdMap Int ℕ) {which : Slot → Bool} {slots : List Slot}
    (h : ∀ s ∈ slots, which s = true → Fits s.1.content) :
    rewriteSlots rel which slots = Compression.rewriteSlots rel which slots := by
  induction slots with
  | nil => rfl
  | cons s slots ih =>
      obtain ⟨hs, hslots⟩ := List.forall_mem_cons.mp h
      rw [rewriteSlots, Compression.rewriteSlots, ih hslots]
      cases hw : which s with
      | false => rfl
      | true => simp only [if_true, rewriteSlot_eq rel (hs hw)]

theorem rewriteSlots_cons {rel : StdMap Int ℕ} {which : Slot → Bool} {s : Slot}
    {slots slots' : List Slot} (h : Compression.rewriteSlots rel which (s :: slots) = .ok slots') :
    ∃ s' rest, (if which s then Compression.rewriteSlot rel s else .ok s) = .ok s' ∧
      Compression.rewriteSlots rel which slots = .ok rest ∧ slots' = s' :: rest := by
  have hbind : ∃ s', (if which s then Compression.rewriteSlot rel s else .ok s) = .ok s' ∧
      (Compression.rewriteSlots rel which slots).map (s' :: ·) = .ok slots' := by
    rw [Compression.rewriteSlots] at h
    cases hw : which s with
    | false =>
        rw [hw] at h
        exact ⟨s, rfl, h⟩
    | true =>
        rw [hw] at h
        cases hone : Compression.rewriteSlot rel s with
        | error e =>
            simp only [hone, if_true, bind, Except.bind] at h
            cases h
        | ok s' =>
            simp only [hone, if_true, bind, Except.bind] at h
            exact ⟨s', rfl, h⟩
  obtain ⟨s', hone, hrest⟩ := hbind
  cases hr : Compression.rewriteSlots rel which slots with
  | error e =>
      rw [hr] at hrest
      cases hrest
  | ok rest =>
      rw [hr] at hrest
      exact ⟨s', rest, hone, rfl, (Except.ok.inj hrest).symm⟩

/-- A slot that still waits for a reference has the content that was read. -/
def Waits (slots : List Slot) : Prop :=
  ∀ s ∈ slots, s.2 = true → s.1.flag = false → Fits s.1.content

/-- A content is replaced only when all its references are known. -/
theorem waits_rewriteSlots (rel : StdMap Int ℕ) {which : Slot → Bool} {slots slots' : List Slot}
    (h : ∀ s ∈ slots, which s = true → Fits s.1.content) (hw : ∀ s ∈ slots, s.2 = true → which s)
    (hrun : Compression.rewriteSlots rel which slots = .ok slots') : Waits slots' := by
  induction slots generalizing slots' with
  | nil =>
      cases hrun
      exact nofun
  | cons s slots ih =>
      obtain ⟨hs, hslots⟩ := List.forall_mem_cons.mp h
      obtain ⟨hws, hwslots⟩ := List.forall_mem_cons.mp hw
      obtain ⟨s', rest, hone, hrest, rfl⟩ := rewriteSlots_cons hrun
      refine List.forall_mem_cons.mpr ⟨fun hflag hwait => ?_, ih hslots hwslots hrest⟩
      cases hwhich : which s with
      | false =>
          rw [hwhich] at hone
          cases hone
          exact absurd (hws hflag) (by simp [hwhich])
      | true =>
          obtain ⟨ts, hnorm, hlen, heq⟩ := hs hwhich
          rw [hwhich, if_pos rfl, Compression.rewriteSlot, heq,
            Compression.standardContentRel_eq rel hnorm] at hone
          cases hone
          have hall : (ts.all fun t => (rename rel (cutOf t)).2) = false := hwait
          refine ⟨ts, hnorm, hlen, ?_⟩
          simp only [hall, Bool.false_eq_true, if_false]

/-- What the first loop of a pass leaves flagged has not been rewritten. -/
theorem flagged_matchSlots (prog : Program) {slots : List Slot} : ∀ {i : ℕ} {w : Work},
    ∀ s ∈ (matchSlots prog i slots w).2, s.2 = true → s ∈ slots ∧ s.1.flag = false := by
  induction slots with
  | nil => intro i w s hs; cases hs
  | cons s₀ slots ih =>
      intro i w s hs hflag
      obtain ⟨ist, flag⟩ := s₀
      rw [matchSlots] at hs
      split at hs
      · rcases List.mem_cons.mp hs with rfl | hs
        · cases hflag
        · obtain ⟨hmem, hwait⟩ := ih s hs hflag
          exact ⟨List.mem_cons_of_mem _ hmem, hwait⟩
      · rename_i hne
        rcases List.mem_cons.mp hs with rfl | hs
        · have hset : flag = true := hflag
          refine ⟨List.mem_cons_self, ?_⟩
          simpa [hset] using hne
        · obtain ⟨hmem, hwait⟩ := ih s hs hflag
          exact ⟨List.mem_cons_of_mem _ hmem, hwait⟩

/-- **The end of Step 1.** -/
theorem endStep1_eq {w : Work} (h : ∀ s ∈ w.umSet.slots, Fits s.1.content) :
    endStep1 w = Compression.endStep1 w ∧
      ∀ w', Compression.endStep1 w = .ok w' → Waits w'.umSet.slots := by
  have hfits : ∀ s ∈ w.umSet.slots, true = true → Fits s.1.content := fun s hs _ => h s hs
  constructor
  · rw [endStep1, Compression.endStep1, rewriteSlots_eq _ hfits]
  · intro w' hrun
    rw [Compression.endStep1] at hrun
    cases hslots : Compression.rewriteSlots w.mSet.idBaseID (fun _ => true) w.umSet.slots with
    | error e =>
        rw [hslots] at hrun
        cases hrun
    | ok slots =>
        rw [hslots] at hrun
        cases hrun
        exact waits_rewriteSlots _ hfits (fun _ _ _ => rfl) hslots

/-- **One pass.** -/
theorem pass_eq (prog : Program) {w : Work} (h : Waits w.umSet.slots) :
    pass prog w = Compression.pass prog w ∧
      ∀ w', Compression.pass prog w = .ok w' → Waits w'.umSet.slots := by
  have hfits : ∀ s ∈ (matchSlots prog 0 w.umSet.slots w).2, s.2 = true → Fits s.1.content := by
    intro s hs hflag
    obtain ⟨hmem, hwait⟩ := flagged_matchSlots prog s hs hflag
    exact h s hmem hflag hwait
  constructor
  · rw [pass, Compression.pass]
    simp only [rewriteSlots_eq _ hfits]
  · intro w' hrun
    rw [Compression.pass] at hrun
    cases hslots : Compression.rewriteSlots (matchSlots prog 0 w.umSet.slots w).1.mSet.idBaseID
        (fun s => s.2) (matchSlots prog 0 w.umSet.slots w).2 with
    | error e =>
        simp only [hslots, bind, Except.bind] at hrun
        cases hrun
    | ok slots =>
        simp only [hslots, bind, Except.bind] at hrun
        cases hrun
        exact waits_rewriteSlots _ hfits (fun _ _ hflag => hflag) hslots

/-- **Step 2**, by induction on the passes. -/
theorem resolveLoop_eq (prog : Program) (fuel : ℕ) : ∀ {w : Work}, Waits w.umSet.slots →
    resolveLoop prog fuel w = Compression.resolveLoop prog fuel w := by
  induction fuel with
  | zero => intros; rfl
  | succ fuel ih =>
      intro w h
      obtain ⟨heq, hkeeps⟩ := pass_eq prog h
      rw [resolveLoop, Compression.resolveLoop, heq]
      split
      · rfl
      · cases hp : Compression.pass prog w with
        | error e => rfl
        | ok w' => exact ih (hkeeps w' hp)

/-! ### The programs are the same -/

section Programs

variable {mode : Mode} (hround : mode.round = binary64) (hprec : mode.precision < 2 ^ 31)
include hround hprec

/-- **Both steps.** -/
theorem steps_eq (prog : Program) {head : HeadLoop} {text : Str}
    (hshort : ∀ ls, dataLines head text = some ls → Short (ls.takeWhile (· ≠ ENDSEC)) .start)
    (fuel : ℕ) : steps prog mode head fuel text = Compression.steps prog mode head fuel text := by
  rw [steps, Compression.steps,
    reading_eq (fun i s hi => addInstance_eq prog mode hi s) hshort fuel Work.start]
  cases hr : Compression.reading (Compression.addInstance prog mode) head fuel text Work.start with
  | none => rfl
  | some r =>
      cases r with
      | error e => rfl
      | ok r =>
          obtain ⟨ifcHead, is, w⟩ := r
          obtain ⟨heq, hwaits⟩ := endStep1_eq (fits_reading hround hprec hshort hr)
          simp only [heq]
          cases hend : Compression.endStep1 w with
          | error e => rfl
          | ok w' => simp only [resolveLoop_eq prog fuel (hwaits w' hend)]

/-- **The compressor** on a text whose lines and instances an `int` can count, also one whose
section is not closed. -/
theorem ifcCompressor_eq {head : HeadLoop} {text : Str}
    (hshort : ∀ ls, dataLines head text = some ls → Short (ls.takeWhile (· ≠ ENDSEC)) .start)
    (fuel : ℕ) :
    ifcCompressor mode head fuel text = Compression.ifcCompressor mode head fuel text := by
  rw [ifcCompressor, steps_eq hround hprec .compressor hshort]
  rfl

/-- **The analysis** on such a text. -/
theorem ifcCompressorAna_eq {text : Str} (hshort : ∀ ls, dataLines .forGetline text = some ls →
    Short (ls.takeWhile (· ≠ ENDSEC)) .start) (fuel : ℕ) :
    ifcCompressorAna mode fuel text = Compression.ifcCompressorAna mode fuel text := by
  rw [ifcCompressorAna, Compression.ifcCompressorAna, steps_eq hround hprec .ana hshort]

end Programs

end Narrow

end VulcanDB.Compression
