import VulcanDB.Compression.Simulation

/-!
# Compression — Runs

Both steps on a text, from the header to the end of the loop.

* `reading_ok`, `steps_ok`: what a run that ends has read, and the passes it has made.
* `HasRead.steps`: a section that ends is read, and the loop of Step 2 ends when the passes of its
  instances do.
-/

namespace VulcanDB.Compression

open Cxx HashCons

/-- The lines of a text between its `DATA;` and the next `ENDSEC;`. -/
def DataSection (text : Str) (ls : List Str) : Prop :=
  ∃ hs more, getlines '\n' text = hs ++ DATA :: (ls ++ ENDSEC :: more) ∧ DATA ∉ hs ∧ ENDSEC ∉ ls

/-- The instances of a section. -/
def instances (ls : List Str) : List Str := joined ls .start

/-- The instances of a section as nodes. -/
def nodes (mode : Mode) (ls : List Str) : List (Node Label Int) :=
  (instances ls).map (node mode)

/-- Nothing in the section throws an exception. -/
def Readable (ls : List Str) : Prop :=
  (∀ l ∈ ls, ¬ WideBlank l) ∧ ∀ l ∈ instances ls, Parses l

instance (ls : List Str) : Decidable (Readable ls) := by unfold Readable; infer_instance

/-- Whether an instance is added does not depend on the state. -/
theorem stable_addInstance (prog : Program) (mode : Mode) : Stable (addInstance prog mode) := by
  intro line s s' h s₂
  cases hp : ifcInstanceAna mode line with
  | error e =>
      rw [addInstance] at h
      simp only [bind, Except.bind, hp] at h
      cases h
  | ok r =>
      rw [addInstance]
      simp only [bind, Except.bind, hp]
      split
      · exact ⟨_, rfl⟩
      · exact ⟨_, rfl⟩

/-- An instance is added exactly when it parses. -/
theorem accepts_addInstance (prog : Program) (mode : Mode) :
    Accepts (addInstance prog mode) Parses := by
  intro line s hl
  by_cases hp : Parses line
  · refine iff_of_true hp ?_
    have h := ifcInstanceAna_eq mode hl.ne_nil hl.trimmed hl.newline hp
    rw [addInstance]
    simp only [bind, Except.bind, h]
    split
    · exact ⟨_, rfl⟩
    · exact ⟨_, rfl⟩
  · refine iff_of_false hp ?_
    obtain ⟨e, h⟩ := ifcInstanceAna_error mode hl.ne_nil hl.trimmed hp
    rintro ⟨s', hs⟩
    rw [addInstance] at hs
    simp only [bind, Except.bind, h] at hs
    cases hs

theorem instances_whole {ls : List Str} (h : ∀ l ∈ ls, '\n' ∉ l) : ∀ l ∈ instances ls, Whole l :=
  joined_whole h Pending.start_ok

theorem dataLines_of_lines (head : HeadLoop) {text : Str} {hs ls more : List Str}
    (hl : getlines '\n' text = hs ++ DATA :: (ls ++ ENDSEC :: more)) (hh : DATA ∉ hs) :
    dataLines head text = some (ls ++ ENDSEC :: more) := by
  have hpos : ∀ y ∈ hs, decide (y ≠ DATA) = true := fun y hy => by
    simp only [ne_eq, decide_not, Bool.not_eq_true', decide_eq_false_iff_not]
    rintro rfl
    exact hh hy
  have hdrop : ((getlines '\n' text).dropWhile (· ≠ DATA)).tail = ls ++ ENDSEC :: more := by
    rw [hl, List.dropWhile_append_of_pos hpos, List.dropWhile_cons_of_neg (by simp),
      List.tail_cons]
  simp only [dataLines, hdrop]
  rw [if_pos (by rw [hl]; simp)]
  simp

/-- A section with its two ends is what the loops see. -/
theorem dataLines_of_section (head : HeadLoop) {text : Str} {ls : List Str}
    (h : DataSection text ls) :
    ∃ more, dataLines head text = some (ls ++ ENDSEC :: more) := by
  obtain ⟨hs, more, hl, hh, -⟩ := h
  exact ⟨more, dataLines_of_lines head hl hh⟩

/-- Lists with one `x` each are the same up to it and behind it. -/
theorem append_cons_inj {α : Type*} [DecidableEq α] {x : α} {l l' m m' : List α} (h : x ∉ l)
    (h' : x ∉ l') (e : l ++ x :: m = l' ++ x :: m') : l = l' ∧ m = m' := by
  have take : ∀ {l m : List α}, x ∉ l → (l ++ x :: m).takeWhile (· ≠ x) = l := by
    intro l m hl
    rw [List.takeWhile_append_of_pos fun y hy => by
        simpa using fun e : y = x => hl (e ▸ hy),
      List.takeWhile_cons_of_neg (by simp), List.append_nil]
  obtain rfl : l = l' := by rw [← take h, e, take h']
  exact ⟨rfl, (List.cons.inj (List.append_cancel_left e)).2⟩

/-- A text has one section at most. -/
theorem DataSection.unique {text : Str} {ls ls' : List Str} (h : DataSection text ls)
    (h' : DataSection text ls') : ls = ls' := by
  obtain ⟨hs, more, hl, hh, hend⟩ := h
  obtain ⟨hs', more', hl', hh', hend'⟩ := h'
  obtain ⟨-, e⟩ := append_cons_inj hh hh' (hl.symm.trans hl')
  exact (append_cons_inj hend hend' e).1

/-- The lines of a section have no newline. -/
theorem newline_of_section {text : Str} {ls : List Str} (h : DataSection text ls) :
    ∀ l ∈ ls, '\n' ∉ l := by
  obtain ⟨more, hd⟩ := dataLines_of_section .forGetline h
  exact fun l hl => newline_of_dataLines hd l (List.mem_append_left _ hl)

/-- The lines `a` that the loop goes over, and those it leaves: it ends at `ENDSEC;`, or on a last
line without a newline that the body turns into `ENDSEC;`. -/
def HasRead (head : HeadLoop) (text : Str) (a more : List Str) : Prop :=
  ENDSEC ∉ a ∧ (dataLines head text = some (a ++ ENDSEC :: more) ∨
    (dataLines head text = some a ∧ more = [] ∧ Unterminated '\n' text ∧
      lastLine a .start = ENDSEC))

/-- The lines that the loop goes over are determined by the text. -/
theorem HasRead.unique {head : HeadLoop} {text : Str} {a a' more more' : List Str}
    (h : HasRead head text a more) (h' : HasRead head text a' more') : a = a' ∧ more = more' := by
  obtain ⟨hend, ha | ⟨ha, rfl, -⟩⟩ := h <;> obtain ⟨hend', ha' | ⟨ha', rfl, -⟩⟩ := h' <;>
    rw [ha, Option.some.injEq] at ha'
  · exact append_cons_inj hend hend' ha'
  · exact absurd (ha' ▸ List.mem_append_right a (by simp)) hend'
  · exact absurd (ha' ▸ List.mem_append_right a' (by simp)) hend
  · exact ⟨ha', rfl⟩

/-- The header loop that does not test the stream finds the same lines, when it ends. -/
theorem HasRead.of_forGetline {text : Str} {a more : List Str}
    (h : HasRead .forGetline text a more) (head : HeadLoop) : HasRead head text a more := by
  have hd : DATA ∈ getlines '\n' text := by
    by_contra hd
    obtain ⟨-, ha | ⟨ha, -⟩⟩ := h <;> simp [dataLines, hd] at ha
  have hsame : dataLines head text = dataLines .forGetline text := by simp [dataLines, hd]
  rw [HasRead, hsame]
  exact h

theorem HasRead.newline {head : HeadLoop} {text : Str} {a more : List Str}
    (h : HasRead head text a more) : ∀ l ∈ a, '\n' ∉ l := by
  intro l hl
  obtain ⟨-, hd | ⟨hd, -⟩⟩ := h
  · exact newline_of_dataLines hd l (List.mem_append_left _ hl)
  · exact newline_of_dataLines hd l hl

theorem HasRead.newline_more {head : HeadLoop} {text : Str} {a more : List Str}
    (h : HasRead head text a more) : ∀ l ∈ more, '\n' ∉ l := by
  intro l hl
  obtain ⟨-, hd | ⟨-, rfl, -⟩⟩ := h
  · exact newline_of_dataLines hd l (List.mem_append_right _ (List.mem_cons_of_mem _ hl))
  · cases hl

/-! ### A run that ends -/

/-- A reading that ends without an exception has added the instances of some lines. -/
theorem reading_added {prog : Program} {mode : Mode} {head : HeadLoop} {fuel : ℕ}
    {text ifcHead : Str} {is : IStream} {w : Work}
    (h : reading (addInstance prog mode) head fuel text Work.start = some (.ok (ifcHead, is, w))) :
    ∃ a more, HasRead head text a more ∧ (∀ l ∈ a, ¬ WideBlank l) ∧
      addAll (addInstance prog mode) (instances a) Work.start = .ok w ∧ ifcHead = headText text ∧
      getlines '\n' is.rest = more ∧ (is.eof = true → is.rest = []) := by
  have hout := reading_outcome (stable_addInstance prog mode) head text Work.start
  cases hd : dataLines head text with
  | none =>
      rw [hd] at hout
      rw [hout fuel] at h
      cases h
  | some ls =>
      rw [hd, Option.bind_some] at hout
      cases ho : outcome (addInstance prog mode) (decide (Unterminated '\n' text)) ls .start
          Work.start with
      | none =>
          rw [ho] at hout
          rw [hout fuel] at h
          cases h
      | some r =>
          rw [ho] at hout
          cases r with
          | error e =>
              obtain ⟨fuel', hr⟩ := hout
              -- the outcome does not depend on the fuel
              have h₁ := reading_mono h fuel'
              rw [Nat.add_comm, reading_mono hr fuel] at h₁
              cases h₁
          | ok r =>
              obtain ⟨more, s'⟩ := r
              obtain ⟨fuel', is', hrest, heof, hr⟩ := hout
              have h₁ := reading_mono h fuel'
              rw [Nat.add_comm, reading_mono hr fuel] at h₁
              cases h₁
              obtain ⟨a, hend, hw, hadd, hls⟩ := outcome_ok ho
              refine ⟨a, more, ⟨hend, hls.imp (fun e => by rw [hd, e]) ?_⟩, hw, hadd, rfl, hrest,
                heof⟩
              rintro ⟨rfl, hmore, hu, hlast⟩
              exact ⟨hd, hmore, of_decide_eq_true hu, hlast⟩

/-- The lines it has read are readable. -/
theorem reading_ok {prog : Program} {mode : Mode} {head : HeadLoop} {fuel : ℕ} {text ifcHead : Str}
    {is : IStream} {w : Work}
    (h : reading (addInstance prog mode) head fuel text Work.start = some (.ok (ifcHead, is, w))) :
    ∃ a more, HasRead head text a more ∧ Readable a ∧ (∀ l ∈ instances a, Whole l) ∧
      Reads prog (nodes mode a) w ∧ ifcHead = headText text ∧ getlines '\n' is.rest = more ∧
      (is.eof = true → is.rest = []) := by
  obtain ⟨a, more, hhas, hw, hadd, hhead, hrest, heof⟩ := reading_added h
  have hwhole := instances_whole hhas.newline
  have hok : ∀ l ∈ instances a, Parses l :=
    (addAll_ok (accepts_addInstance prog mode) hwhole Work.start).mp ⟨_, hadd⟩
  obtain ⟨w', hw', hreads⟩ := addAll_reads prog mode (instances a)
    fun l hl => ⟨hwhole l hl, hok l hl⟩
  rw [hadd] at hw'
  cases hw'
  exact ⟨a, more, hhas, ⟨hw, hok⟩, hwhole, hreads, hhead, hrest, heof⟩

/-- A run that ends without an exception has made all its passes. -/
theorem steps_ok {prog : Program} {mode : Mode} {head : HeadLoop} {fuel : ℕ} {text ifcHead : Str}
    {is : IStream} {w : Work}
    (h : steps prog mode head fuel text = some (.ok (ifcHead, is, w))) :
    ∃ a more k, HasRead head text a more ∧ Readable a ∧ (∀ l ∈ instances a, Whole l) ∧
      Sim prog (nodes mode a) k w ∧ (after (nodes mode a) k).2 = [] ∧ ifcHead = headText text ∧
      getlines '\n' is.rest = more ∧ (is.eof = true → is.rest = []) := by
  unfold steps at h
  split at h
  · cases h
  · cases h
  · rename_i ifcHead' is' w₀ hr
    obtain ⟨a, more, hhas, hread, hwhole, hreads, hhead, hrest, heof⟩ := reading_ok hr
    obtain ⟨w₁, he, hsim⟩ := hreads.endStep1
    rw [he] at h
    obtain ⟨r, hloop, hmap⟩ := Option.map_eq_some_iff.mp h
    obtain ⟨m, w', rfl, hsim', hend⟩ := hsim.resolveLoop_ok hloop
    cases hmap
    exact ⟨a, more, 1 + m, hhas, hread, hwhole, hsim', hend, hhead, hrest, heof⟩

/-! ### More fuel -/

theorem resolveLoop_mono {prog : Program} {fuel : ℕ} {w : Work} {r : Except Fault Work}
    (h : resolveLoop prog fuel w = some r) (k : ℕ) : resolveLoop prog (fuel + k) w = some r := by
  induction fuel generalizing w with
  | zero => cases h
  | succ fuel ih =>
      rw [Nat.add_right_comm, resolveLoop]
      rw [resolveLoop] at h
      split at h
      · rename_i hw; rw [if_pos hw]; exact h
      · rename_i hw
        rw [if_neg hw]
        cases hp : pass prog w with
        | error e => rw [hp] at h; exact h
        | ok w' => rw [hp] at h; exact ih h

theorem steps_mono {prog : Program} {mode : Mode} {head : HeadLoop} {fuel : ℕ} {text : Str}
    {r : Except Fault (Str × IStream × Work)} (h : steps prog mode head fuel text = some r)
    (k : ℕ) : steps prog mode head (fuel + k) text = some r := by
  unfold steps at h ⊢
  cases hr : reading (addInstance prog mode) head fuel text Work.start with
  | none => rw [hr] at h; cases h
  | some r' =>
      rw [hr] at h
      rw [reading_mono hr k]
      cases r' with
      | error e => exact h
      | ok p =>
          simp only at h ⊢
          cases he : endStep1 p.2.2 with
          | error e => rw [he] at h; exact h
          | ok w =>
              rw [he] at h
              obtain ⟨r', hloop, hmap⟩ := Option.map_eq_some_iff.mp h
              exact Option.map_eq_some_iff.mpr ⟨r', resolveLoop_mono hloop k, hmap⟩

theorem ifcCompressor_mono {mode : Mode} {head : HeadLoop} {fuel : ℕ} {text : Str}
    {r : Except Fault Output} (h : ifcCompressor mode head fuel text = some r) (k : ℕ) :
    ifcCompressor mode head (fuel + k) text = some r := by
  unfold ifcCompressor at h ⊢
  cases hs : steps .compressor mode head fuel text with
  | none => rw [hs] at h; cases h
  | some r' => rw [hs] at h; rw [steps_mono hs k]; exact h

/-! ### A section that is closed -/

/-- Passes after the last change nothing. -/
theorem after_stable {ns : List (Node Label Int)} {k : ℕ} (h : (after ns k).2 = []) {j : ℕ}
    (hj : k ≤ j) : after ns j = after ns k := by
  induction j, hj using Nat.le_induction with
  | base => rfl
  | succ j _ ih =>
      rw [after_succ, ih, step, h]
      exact Prod.ext rfl h.symm

/-- The first pass, from the first on, that leaves nothing waiting. -/
theorem exists_first {ns : List (Node Label Int)} {k : ℕ} (h : (after ns k).2 = []) :
    ∃ m, (after ns (1 + m)).2 = [] ∧ ∀ j < m, (after ns (1 + j)).2 ≠ [] := by
  classical
  have hex : ∃ m, (after ns (1 + m)).2 = [] := ⟨k, by rw [after_stable h (by omega)]; exact h⟩
  exact ⟨Nat.find hex, Nat.find_spec hex, fun j hj => Nat.find_min hex hj⟩

/-- A section that ends and that nothing stops is read. -/
theorem HasRead.reading {prog : Program} {mode : Mode} {head : HeadLoop} {text : Str}
    {a more : List Str} (h : HasRead head text a more) (hread : Readable a) : ∃ fuel is w,
      reading (addInstance prog mode) head fuel text Work.start =
        some (.ok (headText text, is, w)) ∧ Reads prog (nodes mode a) w ∧
      getlines '\n' is.rest = more ∧ (is.eof = true → is.rest = []) := by
  obtain ⟨w, hadd, hreads⟩ := addAll_reads prog mode (instances a)
    fun l hl => ⟨instances_whole h.newline l hl, hread.2 l hl⟩
  have hout := reading_outcome (stable_addInstance prog mode) head text Work.start
  obtain ⟨hend, hd | ⟨hd, rfl, hu, hlast⟩⟩ := h
  · rw [hd, Option.bind_some, outcome_closed hend hread.1, ← instances, hadd] at hout
    obtain ⟨fuel, is, h₁, h₂, h₃⟩ := hout
    exact ⟨fuel, is, w, h₃, hreads, h₁, h₂⟩
  · rw [hd, Option.bind_some, outcome_open hend hread.1, ← instances, hadd] at hout
    simp only [hu, hlast, decide_true, and_self, if_true] at hout
    obtain ⟨fuel, is, h₁, h₂, h₃⟩ := hout
    exact ⟨fuel, is, w, h₃, hreads, h₁, h₂⟩

/-- A closed section that nothing stops is read. -/
theorem reading_closed (prog : Program) (mode : Mode) {head : HeadLoop} {text : Str}
    {ls more : List Str} (hd : dataLines head text = some (ls ++ ENDSEC :: more))
    (hend : ENDSEC ∉ ls) (hread : Readable ls) : ∃ fuel is w,
      reading (addInstance prog mode) head fuel text Work.start =
        some (.ok (headText text, is, w)) ∧ Reads prog (nodes mode ls) w ∧
      getlines '\n' is.rest = more ∧ (is.eof = true → is.rest = []) :=
  HasRead.reading ⟨hend, .inl hd⟩ hread

/-- A closed section that something stops is not read to its end. -/
theorem reading_stopped (prog : Program) (mode : Mode) {head : HeadLoop} {text : Str}
    {ls more : List Str} (hd : dataLines head text = some (ls ++ ENDSEC :: more))
    (hend : ENDSEC ∉ ls) (hread : ¬ Readable ls) (fuel : ℕ) (r : Str × IStream × Work) :
    reading (addInstance prog mode) head fuel text Work.start ≠ some (.ok r) := by
  intro h
  obtain ⟨ifcHead, is, w⟩ := r
  obtain ⟨a, more', hhas, hread', -⟩ := reading_ok h
  obtain ⟨rfl, -⟩ := hhas.unique ⟨hend, .inl hd⟩
  exact hread hread'

/-- **A section that ends, and whose passes end**, is run to the end. -/
theorem HasRead.steps {prog : Program} {mode : Mode} {head : HeadLoop} {text : Str}
    {a more : List Str} (h : HasRead head text a more) (hread : Readable a) {k : ℕ}
    (hk : (after (nodes mode a) k).2 = []) :
    ∃ fuel is w k', steps prog mode head fuel text = some (.ok (headText text, is, w)) ∧
      Sim prog (nodes mode a) k' w ∧ (after (nodes mode a) k').2 = [] ∧
      getlines '\n' is.rest = more ∧ (is.eof = true → is.rest = []) := by
  obtain ⟨fuel, is, w₀, hr, hreads, hrest, heof⟩ := h.reading hread
  obtain ⟨w₁, he, hsim⟩ := hreads.endStep1
  obtain ⟨m, hm, hfirst⟩ := exists_first hk
  obtain ⟨w₂, -, hsim₂, hloop⟩ := hsim.resolveLoop_ends hm hfirst
  refine ⟨fuel + (m + 1), is, w₂, 1 + m, ?_, hsim₂, hm, hrest, heof⟩
  rw [Compression.steps, reading_mono hr]
  simp only [he]
  rw [Nat.add_comm, hloop fuel]
  rfl

end VulcanDB.Compression
