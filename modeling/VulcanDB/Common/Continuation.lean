import VulcanDB.Common.Load

/-!
# Common — Lines that are continued

A line that ends with a backslash is continued by the next entry line, whatever lines are between
them.  The loop keeps what it has of the entry, and hands it over where the entry ends.

* `textRuns`: the entries of a text, each with the sections where it starts and where it ends.
* `stores_runs`, `exists_run`: the loop hands over those that end, in the sections where they end.
* `load_joins_iff`: when that is all of them, in the sections where they start.
* `load_examines_iff`: when all lines are examined and each entry can be got.

`textRuns` is about the lines of the file.  `readRuns` is about the C strings that `load` makes of
them, each up to a terminator.
-/

namespace VulcanDB.Common

open Cxx Trim Steps Loading

/-! ### Runs of entry lines -/

/-- Entry lines that are joined: the section in force at the first, the text without the
backslashes, and the section in force at the last, unless that is continued too. -/
structure Run where
  start : Str
  text : Str
  stop : Option Str

/-- The entry lines, each with the section in force. -/
def placed (sessionName : Str) : List Line → List (Str × Str × Bool)
  | [] => []
  | .entry text continued :: ls => (sessionName, text, continued) :: placed sessionName ls
  | .header name :: ls => placed name ls
  | .blank :: ls | .comment :: ls => placed sessionName ls

/-- A line is joined to the run behind it if it is continued. -/
def runs : List (Str × Str × Bool) → List Run
  | [] => []
  | (s, text, false) :: ls => ⟨s, text, some s⟩ :: runs ls
  | (s, text, true) :: ls => match runs ls with
    | [] => [⟨s, text, none⟩]
    | r :: rs => ⟨s, text ++ r.text, r.stop⟩ :: rs

/-- The runs of the C strings that are read of a text. -/
def readRuns (text : Str) : List Run := runs (placed [] ((text.splitOn '\n').map Line.read))

/-- The entry that a run is. -/
def Run.entry (r : Run) : Str × Str := (r.start, r.text)

/-- The entry that is handed over. -/
def Run.ended (r : Run) : Option (Str × Str) := r.stop.map (·, r.text)

/-- What is handed over of the runs, where `pending` is kept from the lines before. -/
def handed (pending : Str) : List Run → List (Str × Str)
  | [] => []
  | r :: rs => ({ r with text := pending ++ r.text } :: rs).filterMap Run.ended

/-- Without an entry before them, the runs that end are handed on. -/
theorem handed_nil (rs : List Run) : handed [] rs = rs.filterMap Run.ended := by
  cases rs with
  | nil => rfl
  | cons r rs => rfl

theorem filterMap_ended_iff {rs : List Run} :
    rs.filterMap Run.ended = rs.map Run.entry ↔ ∀ r ∈ rs, r.stop = some r.start := by
  induction rs with
  | nil => exact ⟨fun _ => nofun, fun _ => rfl⟩
  | cons r rs ih =>
      rw [List.forall_mem_cons]
      cases hstop : r.stop with
      | none =>
          have hended : r.ended = none := by rw [Run.ended, hstop]; rfl
          rw [List.filterMap_cons_none hended]
          refine ⟨fun h => ?_, fun h => nomatch h.1⟩
          have hlen := congrArg List.length h
          have hle := List.length_filterMap_le Run.ended rs
          rw [List.length_map, List.length_cons] at hlen
          omega
      | some s =>
          have hended : r.ended = some (s, r.text) := by rw [Run.ended, hstop]; rfl
          rw [List.filterMap_cons_some hended, List.map_cons, List.cons.injEq, ih, Run.entry,
            Prod.mk.injEq, Option.some.injEq]
          exact ⟨fun h => ⟨h.1.1, h.2⟩, fun h => ⟨⟨h.1, rfl⟩, h.2⟩⟩

/-! ### The loop -/

/-- The section and what is kept, behind a line. -/
def Loading.next (st : Loading) : Line → Str × Str
  | .blank | .comment => (st.currentSession, st.pending)
  | .header name => (name, st.pending)
  | .entry text true => (st.currentSession, st.pending ++ text)
  | .entry _ false => (st.currentSession, [])

/-- What a line does to the section and the entry that waits. -/
theorem next_examine {st st' : Loading} {l : Line} (h : st.examine l = .ok st') :
    st.next l = (st'.currentSession, st'.pending) := by
  match l with
  | .blank | .comment => rw [← Except.ok.inj h]; rfl
  | .header name => rw [← Except.ok.inj h]; rfl
  | .entry text true => rw [← Except.ok.inj h]; rfl
  | .entry text false =>
      obtain ⟨r, -, hr⟩ := bind_eq_ok.mp h
      rw [← Except.ok.inj hr]
      rfl

/-- A line hands over the entry that it completes, and the runs behind it the others. -/
theorem handed_cons (st : Loading) (l : Line) (ls : List Line) :
    handed st.pending (runs (placed st.currentSession (l :: ls))) =
      st.completed l ++ handed (st.next l).2 (runs (placed (st.next l).1 ls)) := by
  match l with
  | .blank | .comment => rfl
  | .header name => rfl
  | .entry text true =>
      show handed st.pending (runs ((st.currentSession, text, true) :: _)) =
        [] ++ handed (st.pending ++ text) (runs (placed st.currentSession ls))
      rw [runs, List.nil_append]
      cases runs (placed st.currentSession ls) with
      | nil => rfl
      | cons r rs =>
          show List.filterMap Run.ended (⟨_, st.pending ++ (text ++ r.text), r.stop⟩ :: rs) =
            List.filterMap Run.ended (⟨_, st.pending ++ text ++ r.text, r.stop⟩ :: rs)
          rw [List.append_assoc]
          rfl
  | .entry text false =>
      rw [placed, runs, completed, next, handed_nil]
      rfl

/-- **What the loop hands over** is stored. -/
theorem stores_runs {lines : List Str} (hshort : ∀ l ∈ lines, l.length < maxCfgLineLen)
    {st st' : Loading} (hcurrent : st.Current) (h : lines.foldlM loadTurn st = .ok st') :
    let es := handed st.pending (runs (placed st.currentSession (lines.map Line.read)))
    Stores st st' es ∧ ∀ e ∈ es, SafeEntry e.2 := by
  induction lines generalizing st with
  | nil =>
      obtain rfl := Except.ok.inj h
      exact ⟨⟨(List.append_nil _).symm, fun s => rfl, hcurrent⟩, nofun⟩
  | cons line lines ih =>
      obtain ⟨hline, hlines⟩ := List.forall_mem_cons.mp hshort
      obtain ⟨st₁, hst₁, h⟩ := exists_turn hline h
      have hnote : (st.note line).Current := hcurrent
      obtain ⟨hstores, hsafe⟩ := stores_examine hnote hst₁
      obtain ⟨hes, hsafes⟩ := ih hlines hstores.current h
      have hcons := handed_cons (st.note line) (Line.read line) (lines.map Line.read)
      rw [next_examine hst₁] at hcons
      intro es
      have hes_eq : es = _ := hcons
      rw [hes_eq]
      refine ⟨Stores.trans ⟨hstores.entries, hstores.sections, hstores.current⟩ hes, ?_⟩
      rw [List.forall_mem_append]
      exact ⟨hsafe, hsafes⟩

/-- The loop ends if all that it hands over is safe. -/
theorem exists_run {lines : List Str} (hshort : ∀ l ∈ lines, l.length < maxCfgLineLen)
    {st : Loading} (hcurrent : st.Current)
    (hsafe : ∀ e ∈ handed st.pending (runs (placed st.currentSession (lines.map Line.read))),
      SafeEntry e.2) : ∃ st', lines.foldlM loadTurn st = .ok st' := by
  induction lines generalizing st with
  | nil => exact ⟨st, rfl⟩
  | cons line lines ih =>
      obtain ⟨hline, hlines⟩ := List.forall_mem_cons.mp hshort
      have hnote : (st.note line).Current := hcurrent
      have hcons := handed_cons (st.note line) (Line.read line) (lines.map Line.read)
      replace hsafe : ∀ e ∈ handed (st.note line).pending
        (runs (placed (st.note line).currentSession (Line.read line :: lines.map Line.read))),
        SafeEntry e.2 := hsafe
      rw [hcons, List.forall_mem_append] at hsafe
      rw [List.foldlM_cons, loadTurn_read st hline]
      cases hst₁ : (st.note line).examine (Line.read line) with
      | error e =>
          obtain ⟨-, e', he', hunsafe⟩ := examine_eq_error hnote hst₁
          exact absurd (hsafe.1 e' he') hunsafe
      | ok st₁ =>
          obtain ⟨hstores, -⟩ := stores_examine hnote hst₁
          rw [next_examine hst₁] at hsafe
          exact ih hlines hstores.current hsafe.2

/-! ### The lines of a text -/

/-- A line of a text.  The name of a section is a C string: what has a terminator between its
brackets is no header. -/
def Line.whole (line : Str) : Line :=
  match Line.of (trim isspace line) with
  | .header name =>
    if terminator ∈ name then .entry (trim isspace line) false else .header name
  | l => l

/-- The runs of a text. -/
def textRuns (text : Str) : List Run := runs (placed [] ((text.splitOn '\n').map Line.whole))

theorem mem_trim_terminator {line : Str} (h : terminator ∈ line) : terminator ∈ trim isspace line :=
  mem_trim h rfl

/-- What a line with a terminator is. -/
theorem whole_of_mem {line : Str} (h : terminator ∈ line) :
    Line.whole line = .comment ∨
      ∃ text continued, Line.whole line = .entry text continued ∧ terminator ∈ text := by
  have hmem := mem_trim_terminator h
  rw [Line.whole]
  generalize trim isspace line = s at *
  cases s with
  | nil => cases hmem
  | cons c s =>
      rw [Line.of]
      by_cases hcomment : c = '#'
      · rw [if_pos hcomment]
        exact .inl rfl
      rw [if_neg hcomment]
      refine .inr ?_
      -- with a NUL between its brackets the line is no header
      by_cases hheader : c = '[' ∧ (c :: s).getLast? = some ']'
      · rw [if_pos hheader]
        have hname : terminator ∈ (c :: s).dropLast.tail := by
          obtain ⟨hc, hlast⟩ := hheader
          subst hc
          rcases List.eq_nil_or_concat' s with rfl | ⟨t, d, rfl⟩
          · cases hlast
          · rw [← List.cons_append, List.getLast?_concat, Option.some.injEq] at hlast
            subst hlast
            rw [← List.cons_append, List.dropLast_concat, List.tail_cons]
            rw [List.mem_cons, List.mem_append, List.mem_singleton] at hmem
            rcases hmem with hmem | hmem | hmem
            · cases hmem
            · exact hmem
            · cases hmem
        simp only [if_pos hname]
        exact ⟨_, _, rfl, hmem⟩
      rw [if_neg hheader]
      by_cases hcontinued : (c :: s).getLast? = some '\\'
      · rw [if_pos hcontinued]
        refine ⟨_, _, rfl, ?_⟩
        have hne : c :: s ≠ [] := List.cons_ne_nil c s
        rw [← List.dropLast_append_getLast hne, List.mem_append, List.mem_singleton] at hmem
        refine hmem.resolve_right fun hlast => ?_
        rw [List.getLast?_eq_some_getLast hne, ← hlast] at hcontinued
        cases hcontinued
      · rw [if_neg hcontinued]
        exact ⟨_, _, rfl, hmem⟩

/-- A line without a terminator is read as it is. -/
theorem whole_of_notMem {line : Str} (h : terminator ∉ line) :
    Line.whole line = Line.read line := by
  have htrim : terminator ∉ trim isspace line := fun hmem => h (mem_of_mem_trim hmem)
  rw [Line.whole, Line.read, cLine, before_of_notMem h]
  cases hof : Line.of (trim isspace line) with
  | header name =>
      have hname : terminator ∉ name := by
        generalize trim isspace line = s at *
        cases s with
        | nil => cases hof
        | cons c s =>
            rw [Line.of] at hof
            split at hof
            · cases hof
            split at hof
            · rw [← Line.header.inj hof]
              exact fun hmem => htrim (List.mem_of_mem_dropLast (List.mem_of_mem_tail hmem))
            · split at hof <;> cases hof
      simp only [if_neg hname]
  | _ => rfl

/-- A comment is one up to its terminator. -/
theorem read_of_comment {line : Str} (h : Line.whole line = .comment) :
    Line.read line = .comment := by
  have hof : Line.of (trim isspace line) = .comment := by
    rw [Line.whole] at h
    split at h
    · split at h <;> cases h
    · exact h
  have htext : HasText isspace line := by
    by_contra hnone
    rw [trim_of_not_hasText hnone] at hof
    cases hof
  obtain ⟨a, m, b, rfl, hcore⟩ := exists_core htext
  rw [hcore.trim] at hof
  have hblank : terminator ∉ a := fun hmem => nomatch hcore.before _ hmem
  cases m with
  | nil => cases hof
  | cons c m =>
      obtain rfl : c = '#' := by
        by_contra hne
        rw [Line.of, if_neg hne] at hof
        split at hof
        · cases hof
        · split at hof <;> cases hof
      have hcut : cLine (a ++ '#' :: m ++ b) = a ++ '#' :: before terminator (m ++ b) := by
        rw [cLine, before, List.append_assoc, List.cons_append,
          List.takeWhile_append_of_pos fun x hx => ?_]
        · rfl
        · exact bne_iff_ne.mpr fun heq => hblank (heq ▸ hx)
      obtain ⟨t, ht⟩ := exists_trim_append_cons hcore.before (c := '#') rfl
        (before terminator (m ++ b))
      rw [Line.read, hcut, ht]
      rfl

/-- The characters of the runs are those of the entry lines. -/
theorem mem_text_runs {c : Char} {s : Str} {ls : List Line} :
    (∃ r ∈ runs (placed s ls), c ∈ r.text) ↔
      ∃ text continued, Line.entry text continued ∈ ls ∧ c ∈ text := by
  induction ls generalizing s with
  | nil => simp [placed, runs]
  | cons l ls ih =>
      match l with
      | .blank | .comment =>
          rw [placed, ih]
          simp
      | .header name =>
          rw [placed, ih]
          simp
      | .entry text false =>
          rw [placed, runs, List.exists_mem_cons_iff, ih]
          constructor
          · rintro (hc | ⟨t, b, hmem, hc⟩)
            · exact ⟨text, false, List.mem_cons_self, hc⟩
            · exact ⟨t, b, List.mem_cons_of_mem _ hmem, hc⟩
          · rintro ⟨t, b, hmem, hc⟩
            rcases List.mem_cons.mp hmem with heq | hmem
            · obtain ⟨rfl, -⟩ := Line.entry.inj heq
              exact .inl hc
            · exact .inr ⟨t, b, hmem, hc⟩
      | .entry text true =>
          -- a continued entry is the start of the run behind it
          have hruns : (∃ r ∈ runs (placed s (.entry text true :: ls)), c ∈ r.text) ↔
              c ∈ text ∨ ∃ r ∈ runs (placed s ls), c ∈ r.text := by
            rw [placed, runs]
            cases runs (placed s ls) with
            | nil => simp
            | cons r rs => simp [or_assoc]
          rw [hruns, ih]
          constructor
          · rintro (hc | ⟨t, b, hmem, hc⟩)
            · exact ⟨text, true, List.mem_cons_self, hc⟩
            · exact ⟨t, b, List.mem_cons_of_mem _ hmem, hc⟩
          · rintro ⟨t, b, hmem, hc⟩
            rcases List.mem_cons.mp hmem with heq | hmem
            · obtain ⟨rfl, -⟩ := Line.entry.inj heq
              exact .inl hc
            · exact .inr ⟨t, b, hmem, hc⟩

/-- No run that is read has a terminator. -/
theorem notMem_readRuns {text : Str} {r : Run} (h : r ∈ readRuns text) : terminator ∉ r.text := by
  intro hmem
  obtain ⟨t, b, ht, hc⟩ := mem_text_runs.mp ⟨r, h, hmem⟩
  obtain ⟨line, -, hline⟩ := List.mem_map.mp ht
  have hcore : terminator ∉ trim isspace (cLine line) :=
    fun hmem => notMem_cLine line (mem_of_mem_trim hmem)
  rw [Line.read] at hline
  generalize trim isspace (cLine line) = s at *
  cases s with
  | nil => cases hline
  | cons c s =>
      rw [Line.of] at hline
      split at hline
      · cases hline
      split at hline
      · cases hline
      split at hline
      · obtain ⟨rfl, -⟩ := Line.entry.inj hline
        exact hcore (List.mem_of_mem_dropLast hc)
      · obtain ⟨rfl, -⟩ := Line.entry.inj hline
        exact hcore hc

/-- Only comments are cut. -/
def OnlyCommentsCut (text : Str) : Prop :=
  ∀ l ∈ text.splitOn '\n', terminator ∈ l → Line.whole l = .comment

/-- The runs of the text are those of the lines as they are read, when NULs cut comments only. -/
theorem textRuns_eq {text : Str} (h : OnlyCommentsCut text) : textRuns text = readRuns text := by
  rw [textRuns, readRuns]
  refine congrArg (fun ls => runs (placed [] ls)) (List.map_congr_left fun l hl => ?_)
  by_cases hmem : terminator ∈ l
  · rw [h l hl hmem, read_of_comment (h l hl hmem)]
  · exact whole_of_notMem hmem

/-! ### Whether all runs are stored -/

/-- `load` stores each run as one entry, in the section where it starts. -/
def Joins (disk : Str → Option Str) (f : IniFile) (fileName text : Str) : Prop :=
  ∃ st, load disk f fileName = .ok (st, 0) ∧ st.entries = (textRuns text).map Run.entry ∧
    ∀ s, st.ini.getSection s =
      (((textRuns text).map Run.entry).foldl IniFile.putEntry f).getSection s

section Text

variable {disk : Str → Option Str} {f : IniFile} {fileName text : Str}
  (hfile : disk fileName = some text)
  (hshort : ∀ l ∈ text.splitOn '\n', l.length < maxCfgLineLen)

include hfile hshort

/-- `load` of a text that is on the disk. -/
theorem load_text {st : Loading} : load disk f fileName = .ok (st, 0) ↔
    (text.splitOn '\n').foldlM loadTurn (.start f) = .ok st := by
  rw [load_eq_ok, hfile, IfStream.ofFile, loadLoop_eq, readLines_of_short hshort]
  exact ⟨fun h => h.1, fun h => ⟨h, rfl⟩⟩

/-- **What `load` stores**: the runs that end, in the sections where they end. -/
theorem stores_load {st : Loading} (h : load disk f fileName = .ok (st, 0)) :
    Stores (.start f) st ((readRuns text).filterMap Run.ended) ∧
      ∀ e ∈ (readRuns text).filterMap Run.ended, SafeEntry e.2 := by
  have hrun := stores_runs hshort (current_start f) ((load_text hfile hshort).mp h)
  rwa [show (Loading.start f).pending = [] from rfl, handed_nil] at hrun

/-- `load` ends if the runs that end are safe. -/
theorem exists_load (hsafe : ∀ e ∈ (readRuns text).filterMap Run.ended, SafeEntry e.2) :
    ∃ st, load disk f fileName = .ok (st, 0) := by
  have hloop := exists_run hshort (current_start f) (by
    rwa [show (Loading.start f).pending = [] from rfl, handed_nil])
  obtain ⟨st, hst⟩ := hloop
  exact ⟨st, (load_text hfile hshort).mpr hst⟩

/-- Where the runs are stored, nothing of an entry has been cut. -/
theorem onlyCommentsCut_of_entries {st : Loading} (h : load disk f fileName = .ok (st, 0))
    (hentries : st.entries = (textRuns text).map Run.entry) : OnlyCommentsCut text := by
  intro l hl hmem
  refine (whole_of_mem hmem).resolve_right ?_
  rintro ⟨t, b, hwhole, ht⟩
  obtain ⟨r, hr, hc⟩ := mem_text_runs.mpr ⟨t, b, List.mem_map.mpr ⟨l, hl, hwhole⟩, ht⟩
  have hended : r.entry ∈ (readRuns text).filterMap Run.ended := by
    have hstored : st.entries = (readRuns text).filterMap Run.ended :=
      (stores_load hfile hshort h).1.entries
    rw [← hstored, hentries]
    exact List.mem_map_of_mem hr
  obtain ⟨r', hr', heq⟩ := List.mem_filterMap.mp hended
  obtain ⟨s, -, hs⟩ := Option.map_eq_some_iff.mp heq
  have htext : r'.text = r.text := congrArg Prod.snd hs
  exact notMem_readRuns hr' (htext ▸ hc)

/-- **Main result.**  All lines that are continued are joined if and only if no line but a comment
has a terminator in it, each run ends, in the section where it starts, and neither its key nor its
value is white space only. -/
theorem load_joins_iff : Joins disk f fileName text ↔ OnlyCommentsCut text ∧
    ∀ r ∈ textRuns text, r.stop = some r.start ∧ SafeEntry r.text := by
  constructor
  · rintro ⟨st, hst, hentries, -⟩
    have hcut := onlyCommentsCut_of_entries hfile hshort hst hentries
    refine ⟨hcut, fun r hr => ?_⟩
    obtain ⟨hstores, hsafe⟩ := stores_load hfile hshort hst
    rw [← textRuns_eq hcut] at hstores hsafe
    have hended : (textRuns text).filterMap Run.ended = (textRuns text).map Run.entry :=
      hstores.entries.symm.trans hentries
    rw [hended] at hsafe
    exact ⟨filterMap_ended_iff.mp hended r hr, hsafe _ (List.mem_map_of_mem hr)⟩
  · rintro ⟨hcut, h⟩
    have hended : (readRuns text).filterMap Run.ended = (textRuns text).map Run.entry := by
      rw [← textRuns_eq hcut]
      exact filterMap_ended_iff.mpr fun r hr => (h r hr).1
    have hsafe : ∀ e ∈ (readRuns text).filterMap Run.ended, SafeEntry e.2 := by
      rw [hended, List.forall_mem_map]
      exact fun r hr => (h r hr).2
    obtain ⟨st, hload⟩ := exists_load (f := f) hfile hshort hsafe
    obtain ⟨hstores, -⟩ := stores_load hfile hshort hload
    rw [hended] at hstores
    refine ⟨st, hload, hstores.entries, fun s => ?_⟩
    rw [hstores.sections]
    exact IniFile.getSection_foldl (IniFile.getSection_switchSession f []) _ s

end Text

/-- Entries of two lines and of one, with a blank line, a comment that is cut, and a section. -/
theorem load_joins_lines :
    Joins (fun _ => some "a=1\\\n#\x00\\\n\n 2\n[s]\nb=3".toList) .new []
      "a=1\\\n#\x00\\\n\n 2\n[s]\nb=3".toList := by
  have hruns : textRuns "a=1\\\n#\x00\\\n\n 2\n[s]\nb=3".toList =
      [⟨[], "a=12".toList, some []⟩, ⟨"s".toList, "b=3".toList, some "s".toList⟩] := rfl
  refine (load_joins_iff rfl (by decide)).mpr ⟨?_, ?_⟩
  · intro l hl hmem
    fin_cases hl
    · exact absurd hmem (by decide)
    · rfl
    · exact absurd hmem (by decide)
    · exact absurd hmem (by decide)
    · exact absurd hmem (by decide)
    · exact absurd hmem (by decide)
  · rw [hruns, List.forall_mem_cons, List.forall_mem_singleton]
    exact ⟨⟨rfl, fun _ => ⟨⟨'a', by decide, rfl⟩, ⟨'1', by decide, rfl⟩⟩⟩,
      ⟨rfl, fun _ => ⟨⟨'b', by decide, rfl⟩, ⟨'3', by decide, rfl⟩⟩⟩⟩

/-- A line at the end of the file that is continued, a section that starts within an entry, and an
entry with a terminator. -/
theorem not_always_joined :
    ¬ Joins (fun _ => some "a=1\\".toList) .new [] "a=1\\".toList ∧
      ¬ Joins (fun _ => some "a=1\\\n[s]\n2".toList) .new [] "a=1\\\n[s]\n2".toList ∧
      ¬ Joins (fun _ => some "a=1\x00x\\\n2\n".toList) .new [] "a=1\x00x\\\n2\n".toList := by
  refine ⟨?_, ?_, ?_⟩
  all_goals
    rintro ⟨st, hst, hentries, -⟩
    obtain ⟨hstores, -⟩ := stores_load rfl (by decide) hst
    exact absurd (hstores.entries.symm.trans hentries) (by decide)

/-! ### Whether all lines are examined -/

/-- The key of a run with a `=`. -/
def Run.key (r : Run) : Str := trim isspace (before '=' r.text)

/-- The value of a run with a `=`. -/
def Run.value (r : Run) : Str := trim isspace (after '=' r.text)

/-- Behind the runs, each entry can be got from the section where it starts, unless that had its
key before. -/
def Retrievable (f f' : IniFile) (rs : List Run) : Prop :=
  ∀ done r rest, rs = done ++ r :: rest → '=' ∈ r.text →
    (((done.map Run.entry).foldl IniFile.putEntry f).getSection r.start).find r.key = none →
    ∀ d, f'.get r.key d r.start = r.value

/-- The file was opened, each of its lines was examined, and each entry can be got. -/
def Examined (file : Option Str) (f : IniFile) (st' : Loading) : Prop :=
  ∃ text, file = some text ∧ st'.examined = text.splitOn '\n' ∧
    Retrievable f st'.ini (textRuns text)

/-- Of each key that its section does not have yet, the first entry that ends in the section has
the value of the first that starts there. -/
def EndsFirst (f : IniFile) (rs : List Run) : Prop :=
  ∀ r ∈ rs, '=' ∈ r.text → (f.getSection r.start).find r.key = none →
    firstValue r.key r.start (rs.filterMap Run.ended) =
      firstValue r.key r.start (rs.map Run.entry)

theorem entryValue_self {r : Run} (h : '=' ∈ r.text) :
    entryValue r.key r.start r.entry = some r.value := if_pos ⟨h, rfl, rfl⟩

theorem entryValue_eq_some {r : Run} {key s v : Str} (h : entryValue key s r.entry = some v) :
    s = r.start ∧ '=' ∈ r.text ∧ key = r.key ∧ v = r.value := by
  rw [entryValue] at h
  split at h
  · rename_i hsame
    exact ⟨hsame.2.2, hsame.1, hsame.2.1, (Option.some.inj h).symm⟩
  · cases h

/-- What is got whatever the default is, is there. -/
theorem getD_eq_iff {o : Option Str} {v : Str} : (∀ d, o.getD d = v) ↔ o = some v := by
  refine ⟨fun h => ?_, fun h d => by rw [h]; rfl⟩
  cases o with
  | some w => exact congrArg some (h [])
  | none =>
      have hlen := congrArg List.length (h (' ' :: v))
      rw [Option.getD_none, List.length_cons] at hlen
      omega

/-- Each entry can be got if the runs that end put the values of those that start. -/
theorem retrievable_iff {f f' : IniFile} {rs : List Run} (h : ∀ key s,
    (f'.getSection s).find key =
      ((f.getSection s).find key).or (firstValue key s (rs.filterMap Run.ended))) :
    Retrievable f f' rs ↔ EndsFirst f rs := by
  constructor
  · intro hget r hr hmem hnew
    -- the first run of the section with the key
    have hsome : ((rs.map Run.entry).findSome? (entryValue r.key r.start)).isSome :=
      List.findSome?_isSome_iff.mpr
        ⟨_, List.mem_map_of_mem hr, by rw [entryValue_self hmem]; rfl⟩
    obtain ⟨v, hv⟩ := Option.isSome_iff_exists.mp hsome
    obtain ⟨done, e, rest, heq, he, hdone⟩ := List.findSome?_eq_some_iff.mp hv
    obtain ⟨rs₁, rs₂, rfl, rfl, hrs₂⟩ := List.map_eq_append_iff.mp heq
    obtain ⟨r₀, rs₃, rfl, rfl, -⟩ := List.map_eq_cons_iff.mp hrs₂
    obtain ⟨hstart, hmem₀, hkey, rfl⟩ := entryValue_eq_some he
    have hbefore : firstValue r₀.key r₀.start (rs₁.map Run.entry) = none := by
      rw [← hkey, ← hstart]
      exact List.findSome?_eq_none_iff.mpr hdone
    rw [hkey, hstart] at hnew ⊢
    have hfind := getD_eq_iff.mp (hget rs₁ r₀ rs₃ rfl hmem₀ (by
      rw [IniFile.find_foldl, hnew, hbefore]; rfl))
    rw [h, hnew, Option.none_or] at hfind
    rw [hfind, firstValue, ← hkey, ← hstart, hv]
  · intro hfirst done r rest heq hmem hnew d
    rw [IniFile.find_foldl, Option.or_eq_none_iff] at hnew
    have hspec : firstValue r.key r.start (rs.map Run.entry) = some r.value := by
      rw [heq, List.map_append, List.map_cons, firstValue, List.findSome?_append,
        List.findSome?_cons, entryValue_self hmem]
      exact (congrArg (Option.or · _) hnew.2).trans rfl
    have hr : r ∈ rs := heq ▸ List.mem_append_right _ List.mem_cons_self
    rw [IniFile.get, h, hnew.1, hfirst r hr hmem hnew.1, hspec]
    rfl

/-- Where all runs end in the section where they start, each entry can be got. -/
theorem endsFirst_of_ended {f : IniFile} {rs : List Run} (h : ∀ r ∈ rs, r.stop = some r.start) :
    EndsFirst f rs := by
  intro r hr hmem hnew
  rw [filterMap_ended_iff.mpr h]

/-- What the sections are behind `load`. -/
theorem find_load {disk : Str → Option Str} {f : IniFile} {fileName text : Str} {st : Loading}
    (hfile : disk fileName = some text)
    (hshort : ∀ l ∈ text.splitOn '\n', l.length < maxCfgLineLen)
    (h : load disk f fileName = .ok (st, 0)) (key s : Str) : (st.ini.getSection s).find key =
      ((f.getSection s).find key).or (firstValue key s ((readRuns text).filterMap Run.ended)) := by
  rw [(stores_load hfile hshort h).1.sections s, IniFile.find_foldl]
  exact congrArg (fun m : StdMap Str Str => (m.find key).or _)
    (IniFile.getSection_switchSession f [] s)

/-- **Main result.**  Where `load` returns 0, all lines have been examined and all new entries can
be got if and only if the file is there, no line has 1024 characters or more or a terminator in it,
and of each key that is new the first entry to end in its section is the first to start there. -/
theorem load_examines_iff {disk : Str → Option Str} {f : IniFile} {fileName : Str}
    {r : Loading × ℤ} (h : load disk f fileName = .ok r) :
    (r.2 = 0 → Examined (disk fileName) f r.1) ↔ ∃ text, disk fileName = some text ∧
      (∀ l ∈ text.splitOn '\n', l.length < maxCfgLineLen ∧ terminator ∉ l) ∧
      EndsFirst f (textRuns text) := by
  obtain ⟨hloop, hzero⟩ := load_eq_ok.mp h
  obtain ⟨st, code⟩ := r
  obtain rfl : code = 0 := hzero
  have hnotCut {text : Str} (hlines : ∀ l ∈ text.splitOn '\n',
      l.length < maxCfgLineLen ∧ terminator ∉ l) : OnlyCommentsCut text :=
    fun l hl hmem => absurd hmem (hlines l hl).2
  constructor
  · intro hexamined
    obtain ⟨text, hfile, hlines, hget⟩ := hexamined rfl
    have hread := hloop
    rw [hfile, IfStream.ofFile, loadLoop_eq] at hread
    obtain ⟨es, -, hrun⟩ := stores_run
      (fun l hl => length_of_mem_readLines (by decide) hl) (current_start f) hread
    have hcond := (map_cLine_eq_iff (by decide)).mp (hrun.symm.trans hlines)
    refine ⟨text, hfile, hcond, (retrievable_iff fun key s => ?_).mp hget⟩
    rw [textRuns_eq (hnotCut hcond)]
    exact find_load hfile (fun l hl => (hcond l hl).1) h key s
  · rintro ⟨text, hfile, hcond, hfirst⟩ -
    have hshort : ∀ l ∈ text.splitOn '\n', l.length < maxCfgLineLen := fun l hl => (hcond l hl).1
    obtain ⟨es, -, hrun⟩ := stores_run hshort (current_start f) ((load_text hfile hshort).mp h)
    refine ⟨text, hfile, ?_, (retrievable_iff fun key s => ?_).mpr hfirst⟩
    · have hlines := (map_cLine_eq_iff (by decide)).mpr hcond
      rw [readLines_of_short hshort] at hlines
      rw [hrun, hlines]
      rfl
    · rw [textRuns_eq (hnotCut hcond)]
      exact find_load hfile hshort h key s

/-- A file of entries of two lines and of one, with a blank line, a comment and a section.  The
last entry has a key that was there. -/
theorem load_examines_lines : ∃ r,
    load (fun _ => some "a=1\\\n# 0\n\n 2\n[s]\na=3\na=4".toList) .new [] = .ok r ∧
      (r.2 = 0 → Examined (some "a=1\\\n# 0\n\n 2\n[s]\na=3\na=4".toList) .new r.1) := by
  have hruns : textRuns "a=1\\\n# 0\n\n 2\n[s]\na=3\na=4".toList =
      [⟨[], "a=12".toList, some []⟩, ⟨"s".toList, "a=3".toList, some "s".toList⟩,
        ⟨"s".toList, "a=4".toList, some "s".toList⟩] := rfl
  have hread : readRuns "a=1\\\n# 0\n\n 2\n[s]\na=3\na=4".toList =
      textRuns "a=1\\\n# 0\n\n 2\n[s]\na=3\na=4".toList := rfl
  have hsafe : ∀ e ∈ (readRuns "a=1\\\n# 0\n\n 2\n[s]\na=3\na=4".toList).filterMap Run.ended,
      SafeEntry e.2 := by
    rw [hread, hruns]
    intro e he
    fin_cases he
    · exact fun _ => ⟨⟨'a', by decide, rfl⟩, ⟨'1', by decide, rfl⟩⟩
    · exact fun _ => ⟨⟨'a', by decide, rfl⟩, ⟨'3', by decide, rfl⟩⟩
    · exact fun _ => ⟨⟨'a', by decide, rfl⟩, ⟨'4', by decide, rfl⟩⟩
  obtain ⟨st, hst⟩ : ∃ st,
      load (fun _ => some "a=1\\\n# 0\n\n 2\n[s]\na=3\na=4".toList) .new [] = .ok (st, 0) :=
    exists_load rfl (by decide) hsafe
  refine ⟨_, hst, (load_examines_iff hst).mpr ⟨_, rfl, by decide, endsFirst_of_ended ?_⟩⟩
  rw [hruns]
  decide

/-- A comment that is too long. -/
theorem loadTurn_comment (st : Loading) (n : ℕ) (h : n + 1 < maxCfgLineLen) :
    loadTurn st (List.replicate (n + 1) '#') =
      .ok (st.note (List.replicate (n + 1) '#')) := by
  have hnul : terminator ∉ List.replicate (n + 1) '#' := fun hmem => by
    cases List.eq_of_mem_replicate hmem
  have hcore : Core isspace [] (List.replicate (n + 1) '#') [] :=
    ⟨nofun, nofun, ⟨'#', List.replicate n '#', rfl, rfl⟩,
      ⟨List.replicate n '#', '#', List.replicate_succ', rfl⟩⟩
  have htrim : trim isspace (List.replicate (n + 1) '#') = List.replicate (n + 1) '#' := by
    have h := hcore.trim
    rwa [List.nil_append, List.append_nil] at h
  rw [loadTurn_read st (by rwa [List.length_replicate]), Line.read, cLine, before_of_notMem hnul,
    htrim]
  rfl

/-- A file whose entries cannot be got. -/
theorem exists_not_examined {text : Str}
    (hshort : ∀ l ∈ text.splitOn '\n', l.length < maxCfgLineLen)
    (hsafe : ∀ e ∈ (readRuns text).filterMap Run.ended, SafeEntry e.2)
    (hread : textRuns text = readRuns text) (hfirst : ¬ EndsFirst .new (textRuns text)) :
    ∃ r, load (fun _ => some text) .new [] = .ok r ∧ r.2 = 0 ∧ ¬ Examined (some text) .new r.1 := by
  obtain ⟨st, hst⟩ : ∃ st, load (fun _ => some text) .new [] = .ok (st, 0) :=
    exists_load rfl hshort hsafe
  refine ⟨_, hst, rfl, ?_⟩
  rintro ⟨text', htext, -, hget⟩
  obtain rfl := Option.some.inj htext
  refine hfirst ((retrievable_iff fun key s => ?_).mp hget)
  rw [hread]
  exact find_load rfl hshort hst key s

/-- A file that is not there, an entry behind a line that is too long, an entry whose only line is
continued, and one that ends in another section. -/
theorem not_always_examined :
    (∃ r, load (fun _ => none) .new [] = .ok r ∧ r.2 = 0 ∧ ¬ Examined none .new r.1) ∧
      (∃ r, load (fun _ => some (List.replicate 1024 '#' ++ '\n' :: "a=1".toList)) .new [] = .ok r ∧
        r.2 = 0 ∧
          ¬ Examined (some (List.replicate 1024 '#' ++ '\n' :: "a=1".toList)) .new r.1) ∧
      (∃ r, load (fun _ => some "a=1\\".toList) .new [] = .ok r ∧ r.2 = 0 ∧
        ¬ Examined (some "a=1\\".toList) .new r.1) ∧
      ∃ r, load (fun _ => some "a=1\\\n[s]\n2".toList) .new [] = .ok r ∧ r.2 = 0 ∧
        ¬ Examined (some "a=1\\\n[s]\n2".toList) .new r.1 := by
  refine ⟨?_, ?_, ?_, ?_⟩
  · refine ⟨(.start .new, 0), load_eq_ok.mpr ⟨loadLoop_not_good rfl _, rfl⟩, rfl, ?_⟩
    rintro ⟨text, htext, -⟩
    cases htext
  · have hline : '\n' ∉ List.replicate 1024 '#' := fun hmem => by
      cases List.eq_of_mem_replicate hmem
    have hlines : (List.replicate 1024 '#' ++ '\n' :: "a=1".toList).splitOn '\n' =
        [List.replicate 1024 '#', "a=1".toList] :=
      List.splitOn_append_cons_self_of_not_mem hline "a=1".toList
    have hrun := loadLoop_eq (List.replicate 1024 '#' ++ '\n' :: "a=1".toList) (.start .new)
    rw [hlines, readLines, if_pos (by rw [List.length_replicate]; decide), List.take_replicate,
      show min (maxCfgLineLen - 1) 1024 = 1022 + 1 from rfl, List.foldlM_cons,
      loadTurn_comment (.start .new) 1022 (by decide)] at hrun
    refine ⟨((Loading.start .new).note (List.replicate (1022 + 1) '#'), 0),
      load_eq_ok.mpr ⟨hrun, rfl⟩, rfl, ?_⟩
    rintro ⟨text, htext, hexamined, -⟩
    rw [← Option.some.inj htext, hlines] at hexamined
    have hlen := congrArg List.length hexamined
    rw [note, List.length_append, List.length_singleton] at hlen
    cases hlen
  · refine exists_not_examined (by decide) (fun e he => by cases he) rfl fun hfirst => ?_
    have h := hfirst ⟨[], "a=1".toList, none⟩ List.mem_cons_self (by decide) rfl
    exact absurd h (by decide)
  · refine exists_not_examined (by decide) (fun e he => ?_) rfl fun hfirst => ?_
    · fin_cases he
      exact fun _ => ⟨⟨'a', by decide, rfl⟩, ⟨'1', by decide, rfl⟩⟩
    · have h := hfirst ⟨[], "a=12".toList, some "s".toList⟩ List.mem_cons_self (by decide) rfl
      exact absurd h (by decide)

end VulcanDB.Common
