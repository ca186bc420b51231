import VulcanDB.Common.Strip
import VulcanDB.Library.Steps
import VulcanDB.Library.Stream

/-!
# Common — Loading a configuration

`IniFile::load` reads a file line by line into a buffer of 1024 characters, and joins a line that
ends with a backslash with those behind it.

* `loadLoop_eq`: the loop goes over the lines, up to one that is too long.
* `stores_examine`, `stores_run`: the entries that are put by one line and by all.
* `load_throws_nothing`: `load` returns 0 or is undefined.

The messages and the names of the files that have been loaded are left out.
-/

namespace VulcanDB.Common

open Cxx Trim Steps

/-! ### The stream -/

/-- An input file stream: what is left of its text, and its state. -/
structure IfStream where
  rest : Str
  eof : Bool
  fail : Bool

namespace IfStream

/-- The stream after `open`, of a file that is there or not. -/
def ofFile : Option Str → IfStream
  | some text => ⟨text, false, false⟩
  | none => ⟨[], false, true⟩

/-- `ifs.good()`. -/
def good (ifs : IfStream) : Bool := !ifs.eof && !ifs.fail

/-- `getline(line, n)` of a stream that is good: the characters that are stored before the
terminator. -/
def getline (ifs : IfStream) (n : ℕ) : IfStream × Str :=
  let line := before '\n' ifs.rest
  if n ≤ line.length then (⟨ifs.rest.drop (n - 1), false, true⟩, ifs.rest.take (n - 1))
  else if '\n' ∈ ifs.rest then (⟨after '\n' ifs.rest, false, false⟩, line)
  else (⟨[], true, line.isEmpty⟩, line)

/-- Of a line that is too long, all but one of the `n` characters are stored. -/
theorem getline_long {s : Str} {n : ℕ} (h : n ≤ (before '\n' s).length) :
    (⟨s, false, false⟩ : IfStream).getline n =
      (⟨s.drop (n - 1), false, true⟩, s.take (n - 1)) := by
  simp only [getline, if_pos h]

theorem getline_line {l : Str} {n : ℕ} (hl : '\n' ∉ l) (h : l.length < n) (s : Str) :
    (⟨l ++ '\n' :: s, false, false⟩ : IfStream).getline n = (⟨s, false, false⟩, l) := by
  have hmem : '\n' ∈ l ++ '\n' :: s := List.mem_append_right _ List.mem_cons_self
  simp only [getline, before_append hl, after_append hl, if_neg (Nat.not_le.mpr h), if_pos hmem]

theorem getline_last {l : Str} {n : ℕ} (hl : '\n' ∉ l) (h : l.length < n) :
    (⟨l, false, false⟩ : IfStream).getline n = (⟨[], true, l.isEmpty⟩, l) := by
  simp only [getline, before_of_notMem hl, if_neg (Nat.not_le.mpr h), if_neg hl]

theorem after_lt {s : Str} {c : Char} (h : c ∈ s) : (after c s).length < s.length := by
  obtain ⟨a, b, rfl, ha⟩ := List.eq_append_cons_of_mem h
  rw [after_append ha, List.length_append, List.length_cons]
  omega

/-- Each read takes characters, or is the last. -/
theorem getline_lt {ifs : IfStream} {n : ℕ} (h : (ifs.getline n).1.good = true) :
    (ifs.getline n).1.rest.length < ifs.rest.length := by
  rw [getline] at h ⊢
  by_cases hn : n ≤ (before '\n' ifs.rest).length
  · rw [if_pos hn] at h
    cases h
  · rw [if_neg hn] at h ⊢
    by_cases hmem : '\n' ∈ ifs.rest
    · rw [if_pos hmem]
      exact after_lt hmem
    · rw [if_neg hmem] at h
      cases h

end IfStream

/-! ### The code -/

/-- `MAX_CFG_LINE_LEN`, the size of the buffer of a line. -/
def maxCfgLineLen : ℕ := 1024

/-- `line`, of `n` characters, after `memset` and `getline`. -/
def lineBuffer (n : ℕ) (stored : Str) : Block Char :=
  ⟨stored.map some ++ List.replicate (n - stored.length) (some terminator)⟩

/-- The string at `read_buf`. -/
def readBuf (line : Block Char) : Except Fault Str :=
  match stripPtr line with
  | none => .error .badIndex
  | some (str, head) => match cString (str.cells.drop head) with
    | none => .error .badIndex
    | some s => .ok s

/-- The variables of the loop. -/
structure Loading where
  ini : IniFile
  /-- The section whose map `current_session` points to. -/
  currentSession : Str
  continueLastLine : Bool
  lineEntry : Str
  /-- The strings that were examined. -/
  examined : List Str
  /-- The calls of `insert_entry`: the section and the line. -/
  entries : List (Str × Str)

/-- Before the first line. -/
def Loading.start (f : IniFile) : Loading := ⟨(f.switchSession []).1, [], false, [], [], []⟩

/-- `insert_entry(current_session, line_entry)`, whose result is not looked at. -/
def Loading.insert (st : Loading) : Except Fault Loading := do
  let r ← insertEntry (st.ini.sections.find st.currentSession) st.lineEntry
  return { st with
    ini := match r.1 with
      | some m => ⟨st.ini.sections.assign st.currentSession m⟩
      | none => st.ini
    entries := st.entries ++ [(st.currentSession, st.lineEntry)] }

/-- The loop behind `strip`. -/
def loadLine (st : Loading) (readBuf : Str) : Except Fault Loading :=
  match readBuf with
  | [] => .ok st
  | c :: _ =>
    if c = '#' then .ok st
    else if c = '[' ∧ readBuf.getLast? = some ']' then
      let sessionName := readBuf.dropLast.tail
      .ok { st with ini := (st.ini.switchSession sessionName).1, currentSession := sessionName }
    else
      let lineEntry := if st.continueLastLine then st.lineEntry ++ readBuf else readBuf
      if readBuf.getLast? = some '\\' then do
        let lineEntry ← substr lineEntry 0 (lineEntry.length - 1)
        return { st with continueLastLine := true, lineEntry }
      else Loading.insert { st with continueLastLine := false, lineEntry }

/-- One turn of the loop, with the characters that `getline` has stored. -/
def loadTurn (st : Loading) (stored : Str) : Except Fault Loading := do
  let line := lineBuffer maxCfgLineLen stored
  let s ← readBuf line
  loadLine { st with examined := st.examined ++ (cString line.cells).toList } s

/-- `while (ifs.good())`: a line is taken if the stream is good behind it. -/
def loadLoop (ifs : IfStream) (st : Loading) : Except Fault Loading :=
  if ifs.good then
    match loadTurn st (ifs.getline maxCfgLineLen).2 with
    | .error e => .error e
    | .ok st =>
      if (ifs.getline maxCfgLineLen).1.good then loadLoop (ifs.getline maxCfgLineLen).1 st
      else .ok st
  else .ok st
termination_by ifs.rest.length
decreasing_by exact IfStream.getline_lt ‹_›

/-- `load`, where `disk` are the files.  The handler is left out, as nothing throws
(`load_throws_nothing`). -/
def load (disk : Str → Option Str) (f : IniFile) (fileName : Str) : Except Fault (Loading × ℤ) := do
  let st ← loadLoop (.ofFile (disk fileName)) (.start f)
  return (st, 0)

/-! ### The lines -/

/-- A line as a C string. -/
def cLine (stored : Str) : Str := before terminator stored

/-- The lines that are read, where one of `n` characters is the last. -/
def readLines (n : ℕ) : List Str → List Str
  | [] => []
  | l :: ls => if n ≤ l.length then [l.take (n - 1)] else l :: readLines n ls

theorem notMem_cLine (stored : Str) : terminator ∉ cLine stored := notMem_before _ _

theorem lineBuffer_cells {n : ℕ} {stored : Str} (h : stored.length < n) :
    ∃ rest, (lineBuffer n stored).cells = store (cLine stored) ++ rest := by
  by_cases hmem : terminator ∈ stored
  · obtain ⟨a, b, rfl, ha⟩ := List.eq_append_cons_of_mem hmem
    rw [cLine, before_append ha]
    refine ⟨b.map some ++
      List.replicate (n - (a ++ terminator :: b).length) (some terminator), ?_⟩
    simp [lineBuffer, store]
  · obtain ⟨k, hk⟩ := Nat.exists_eq_add_of_lt h
    rw [cLine, before_of_notMem hmem]
    refine ⟨List.replicate k (some terminator), ?_⟩
    have hroom : n - stored.length = k + 1 := by omega
    rw [lineBuffer, hroom, store, List.replicate_succ, List.append_assoc, List.singleton_append]

/-- One turn, with what the buffer holds. -/
theorem loadTurn_eq (st : Loading) {stored : Str} (h : stored.length < maxCfgLineLen) :
    loadTurn st stored = loadLine { st with examined := st.examined ++ [cLine stored] }
      (trim isspace (cLine stored)) := by
  obtain ⟨rest, hcells⟩ := lineBuffer_cells h
  obtain ⟨str, head, hstrip, hcore⟩ := stripPtr_store (notMem_cLine stored) rest
  have hbuf : readBuf (lineBuffer maxCfgLineLen stored) = .ok (trim isspace (cLine stored)) := by
    rw [readBuf, show lineBuffer maxCfgLineLen stored = ⟨_⟩ from congrArg Block.mk hcells, hstrip]
    simp only [hcore]
  have hstring : cString (lineBuffer maxCfgLineLen stored).cells = some (cLine stored) := by
    rw [hcells]
    exact cString_store (notMem_cLine stored) rest
  rw [loadTurn, hbuf, hstring]
  rfl

/-- A line that is read fits the buffer. -/
theorem length_of_mem_readLines {n : ℕ} (hn : 0 < n) {l : Str} {ls : List Str}
    (h : l ∈ readLines n ls) : l.length < n := by
  induction ls with
  | nil => cases h
  | cons m ls ih =>
      rw [readLines] at h
      split at h
      · rw [List.mem_singleton.mp h, List.length_take]
        omega
      · rcases List.mem_cons.mp h with rfl | h
        · omega
        · exact ih h

theorem readLines_of_short {n : ℕ} {ls : List Str} (h : ∀ l ∈ ls, l.length < n) :
    readLines n ls = ls := by
  induction ls with
  | nil => rfl
  | cons l ls ih =>
      obtain ⟨hl, hls⟩ := List.forall_mem_cons.mp h
      rw [readLines, if_neg (by omega), ih hls]

/-- What one turn of the loop does to the stream and to the variables. -/
theorem loadLoop_good {ifs next : IfStream} {stored : Str} (h : ifs.good = true)
    (hread : ifs.getline maxCfgLineLen = (next, stored)) (st : Loading) :
    loadLoop ifs st = (loadTurn st stored).bind (loadLoop next) := by
  obtain rfl : (ifs.getline maxCfgLineLen).1 = next := by rw [hread]
  obtain rfl : (ifs.getline maxCfgLineLen).2 = stored := by rw [hread]
  rw [loadLoop, if_pos h]
  cases hturn : loadTurn st (ifs.getline maxCfgLineLen).2 with
  | error e => rfl
  | ok st =>
      show (if _ then _ else _) = loadLoop _ st
      split
      · rfl
      · rename_i hnext
        rw [loadLoop, if_neg hnext]

/-- A stream that is not good ends the loop. -/
theorem loadLoop_not_good {ifs : IfStream} (h : ifs.good = false) (st : Loading) :
    loadLoop ifs st = .ok st := by
  rw [loadLoop, if_neg (by simp [h])]

/-- **The loop** goes over the lines that are read. -/
theorem loadLoop_eq (text : Str) (st : Loading) : loadLoop ⟨text, false, false⟩ st =
    (readLines maxCfgLineLen (text.splitOn '\n')).foldlM loadTurn st := by
  induction text using text_induction (d := '\n') generalizing st with
  | hpiece a b ha ih =>
      rw [List.splitOn_append_cons_self_of_not_mem ha, readLines]
      by_cases hlong : maxCfgLineLen ≤ a.length
      · -- the buffer is full, and the stream has failed
        have htake : (a ++ '\n' :: b).take (maxCfgLineLen - 1) = a.take (maxCfgLineLen - 1) :=
          List.take_append_of_le_length (by omega)
        have hread := IfStream.getline_long (s := a ++ '\n' :: b) (n := maxCfgLineLen)
          (by rwa [before_append ha])
        rw [if_pos hlong, loadLoop_good rfl hread, htake, List.foldlM_cons]
        exact bind_congr fun st => loadLoop_not_good rfl st
      · have hread := IfStream.getline_line ha (by omega) b (n := maxCfgLineLen)
        rw [if_neg hlong, loadLoop_good rfl hread, List.foldlM_cons]
        exact bind_congr fun st => ih st
  | hlast text hmem =>
      rw [List.splitOn_eq_singleton hmem, readLines]
      by_cases hlong : maxCfgLineLen ≤ text.length
      · have hread := IfStream.getline_long (s := text) (n := maxCfgLineLen)
          (by rwa [before_of_notMem hmem])
        rw [if_pos hlong, loadLoop_good rfl hread, List.foldlM_cons]
        exact bind_congr fun st => loadLoop_not_good rfl st
      · have hread := IfStream.getline_last hmem (n := maxCfgLineLen) (by omega)
        rw [if_neg hlong, loadLoop_good rfl hread, List.foldlM_cons]
        exact bind_congr fun st => loadLoop_not_good rfl st

/-! ### One line -/

/-- What a stripped line is. -/
inductive Line where
  | blank
  | comment
  | header (sessionName : Str)
  | entry (text : Str) (continued : Bool)

/-- What `load` takes a trimmed line for. -/
def Line.of (s : Str) : Line :=
  match s with
  | [] => .blank
  | c :: _ =>
    if c = '#' then .comment
    else if c = '[' ∧ s.getLast? = some ']' then .header s.dropLast.tail
    else if s.getLast? = some '\\' then .entry s.dropLast true
    else .entry s false

/-- The line of a text that `getline` has stored. -/
def Line.read (stored : Str) : Line := .of (trim isspace (cLine stored))

namespace Loading

/-- The text that the next line is joined to. -/
def pending (st : Loading) : Str := if st.continueLastLine then st.lineEntry else []

/-- The text is the last of the entry. -/
def complete (st : Loading) (text : Str) : Loading :=
  { st with continueLastLine := false, lineEntry := st.pending ++ text }

/-- What is done with a line. -/
def examine (st : Loading) : Line → Except Fault Loading
  | .blank | .comment => .ok st
  | .header name => .ok { st with
      ini := (st.ini.switchSession name).1
      currentSession := name }
  | .entry text true => .ok { st with
      continueLastLine := true
      lineEntry := st.pending ++ text }
  | .entry text false => (st.complete text).insert

/-- **The body of the loop** is a case analysis on the line. -/
theorem loadLine_eq (st : Loading) (s : Str) : loadLine st s = st.examine (.of s) := by
  cases s with
  | nil => rfl
  | cons c s =>
      rw [loadLine, Line.of]
      by_cases hcomment : c = '#'
      · rw [if_pos hcomment, if_pos hcomment, examine]
      rw [if_neg hcomment, if_neg hcomment]
      by_cases hheader : c = '[' ∧ (c :: s).getLast? = some ']'
      · rw [if_pos hheader, if_pos hheader]
        rfl
      rw [if_neg hheader, if_neg hheader]
      have hentry : (if st.continueLastLine then st.lineEntry ++ c :: s else c :: s) =
          st.pending ++ c :: s := by
        rw [pending]
        split <;> rfl
      rw [hentry]
      by_cases hcontinued : (c :: s).getLast? = some '\\'
      · rw [if_pos hcontinued, if_pos hcontinued, examine, substr_dropLast,
          List.dropLast_append_of_ne_nil (List.cons_ne_nil c s)]
        rfl
      · rw [if_neg hcontinued, if_neg hcontinued]
        rfl

end Loading

/-! ### What is stored -/

/-- A line of a section is put, key and value stripped, if it has both. -/
def IniFile.putEntry (f : IniFile) (e : Str × Str) : IniFile :=
  if e.2.contains '=' then
    f.put (trim isspace (before '=' e.2)) (trim isspace (after '=' e.2)) e.1
  else f

/-- An entry is put alike into maps with the same sections. -/
theorem IniFile.getSection_putEntry {f g : IniFile} (h : ∀ s, f.getSection s = g.getSection s)
    (e : Str × Str) (s : Str) : (f.putEntry e).getSection s = (g.putEntry e).getSection s := by
  rw [putEntry, putEntry]
  split
  · rw [getSection_put, getSection_put, h, h]
  · exact h s

theorem IniFile.getSection_foldl {f g : IniFile} (h : ∀ s, f.getSection s = g.getSection s)
    (es : List (Str × Str)) (s : Str) :
    (es.foldl putEntry f).getSection s = (es.foldl putEntry g).getSection s := by
  induction es generalizing f g with
  | nil => exact h s
  | cons e es ih => exact ih fun s => getSection_putEntry h e s

/-- The value that an entry puts to the key in the section. -/
def entryValue (key s : Str) (e : Str × Str) : Option Str :=
  if '=' ∈ e.2 ∧ key = trim isspace (before '=' e.2) ∧ s = e.1 then
    some (trim isspace (after '=' e.2))
  else none

/-- The value that the first entry of the section with the key has. -/
def firstValue (key s : Str) (es : List (Str × Str)) : Option Str :=
  es.findSome? (entryValue key s)

theorem IniFile.find_putEntry (f : IniFile) (e : Str × Str) (key s : Str) :
    ((f.putEntry e).getSection s).find key =
      ((f.getSection s).find key).or (entryValue key s e) := by
  rw [putEntry, entryValue]
  by_cases hmem : '=' ∈ e.2
  · rw [if_pos (by simpa using hmem), find_put]
    by_cases hsame : key = trim isspace (before '=' e.2) ∧ s = e.1
    · rw [if_pos hsame, if_pos ⟨hmem, hsame⟩, hsame.1, hsame.2]
      cases (f.getSection e.1).find _ <;> rfl
    · rw [if_neg hsame, if_neg fun h => hsame h.2, Option.or_none]
  · rw [if_neg (by simpa using hmem), if_neg fun h => hmem h.1, Option.or_none]

/-- **What is there stays**, else the first entry counts. -/
theorem IniFile.find_foldl (f : IniFile) (es : List (Str × Str)) (key s : Str) :
    ((es.foldl putEntry f).getSection s).find key =
      ((f.getSection s).find key).or (firstValue key s es) := by
  induction es generalizing f with
  | nil => rw [firstValue, List.findSome?_nil, Option.or_none]; rfl
  | cons e es ih =>
      rw [List.foldl_cons, ih, find_putEntry, Option.or_assoc, firstValue, firstValue,
        List.findSome?_cons]
      cases entryValue key s e <;> rfl

namespace Loading

/-- The current section is there. -/
def Current (st : Loading) : Prop := (st.ini.sections.find st.currentSession).isSome

/-- Between two states of the loop the entries are put. -/
structure Stores (st st' : Loading) (es : List (Str × Str)) : Prop where
  entries : st'.entries = st.entries ++ es
  sections : ∀ s, st'.ini.getSection s = (es.foldl IniFile.putEntry st.ini).getSection s
  current : st'.Current

/-- Entries that are stored one after another. -/
theorem Stores.trans {st₁ st₂ st₃ : Loading} {es es' : List (Str × Str)} (h : Stores st₁ st₂ es)
    (h' : Stores st₂ st₃ es') : Stores st₁ st₃ (es ++ es') where
  entries := by rw [h'.entries, h.entries, List.append_assoc]
  sections s := by
    rw [h'.sections, List.foldl_append]
    exact IniFile.getSection_foldl h.sections es' s
  current := h'.current

/-- The section that is switched to is there. -/
theorem find_switchSession (f : IniFile) (s : Str) :
    ((f.switchSession s).1.sections.find s).isSome := by
  unfold IniFile.switchSession
  cases h : f.sections.find s with
  | some m => simp only [h, Option.isSome_some]
  | none => simp only [IniFile.insertSession, StdMap.find_insertNew, if_true, Option.isSome_some]

/-- The state after `insert_entry`, where `m` is then the map of the section. -/
def inserted (st : Loading) (m : StdMap Str Str) : Loading :=
  { st with
    ini := ⟨st.ini.sections.assign st.currentSession m⟩
    entries := st.entries ++ [(st.currentSession, st.lineEntry)] }

theorem stores_inserted {st : Loading} {m : StdMap Str Str}
    (hput : ∀ s, (st.ini.putEntry (st.currentSession, st.lineEntry)).getSection s =
      if s = st.currentSession then m else st.ini.getSection s) :
    Stores st (st.inserted m) [(st.currentSession, st.lineEntry)] where
  entries := rfl
  sections s := by
    rw [List.foldl_cons, List.foldl_nil, hput, inserted, IniFile.getSection, StdMap.find_assign]
    split
    · rfl
    · rfl
  current := by
    rw [Current, inserted, StdMap.find_assign, if_pos rfl]
    rfl

/-- **A safe entry** is put. -/
theorem exists_insert {st : Loading} (hcurrent : st.Current) (hsafe : SafeEntry st.lineEntry) :
    ∃ st', st.insert = .ok st' ∧ Stores st st' [(st.currentSession, st.lineEntry)] := by
  obtain ⟨m, hm⟩ := Option.isSome_iff_exists.mp hcurrent
  have hsection : st.ini.getSection st.currentSession = m := by rw [IniFile.getSection, hm]; rfl
  by_cases hmem : '=' ∈ st.lineEntry
  · refine ⟨st.inserted (m.insertNew (trim isspace (before '=' st.lineEntry))
      (trim isspace (after '=' st.lineEntry))), ?_, stores_inserted ?_⟩
    · rw [insert, hm, insertEntry_safe hsafe hmem]
      rfl
    · intro s
      rw [IniFile.putEntry, if_pos (by simpa using hmem), IniFile.getSection_put, hsection]
  · refine ⟨st.inserted m, ?_, stores_inserted ?_⟩
    · rw [insert, hm, insertEntry_of_notMem hmem]
      rfl
    · intro s
      rw [IniFile.putEntry, if_neg (by simpa using hmem)]
      split
      · rename_i heq
        rw [heq, hsection]
      · rfl

/-- An entry that is inserted is one that `strip` takes. -/
theorem safeEntry_of_insert {st st' : Loading} (hcurrent : st.Current)
    (h : st.insert = .ok st') : SafeEntry st.lineEntry := by
  obtain ⟨m, hm⟩ := Option.isSome_iff_exists.mp hcurrent
  rw [insert, hm] at h
  obtain ⟨r, hr, -⟩ := bind_eq_ok.mp h
  exact insertEntry_ok_iff.mp ⟨r, hr⟩

/-- The entry that a line completes. -/
def completed (st : Loading) : Line → List (Str × Str)
  | .entry text false => [(st.currentSession, st.pending ++ text)]
  | _ => []

/-- **One line.** -/
theorem stores_examine {st st' : Loading} {l : Line} (hcurrent : st.Current)
    (h : st.examine l = .ok st') :
    Stores st st' (st.completed l) ∧ ∀ e ∈ st.completed l, SafeEntry e.2 := by
  cases l with
  | blank =>
      obtain rfl := Except.ok.inj h
      exact ⟨⟨(List.append_nil _).symm, fun s => rfl, hcurrent⟩, nofun⟩
  | comment =>
      obtain rfl := Except.ok.inj h
      exact ⟨⟨(List.append_nil _).symm, fun s => rfl, hcurrent⟩, nofun⟩
  | header name =>
      obtain rfl := Except.ok.inj h
      exact ⟨⟨(List.append_nil _).symm, fun s => IniFile.getSection_switchSession st.ini name s,
        find_switchSession st.ini name⟩, nofun⟩
  | entry text continued =>
      cases continued with
      | true =>
          obtain rfl := Except.ok.inj h
          exact ⟨⟨(List.append_nil _).symm, fun s => rfl, hcurrent⟩, nofun⟩
      | false =>
          have hcomplete : (st.complete text).Current := hcurrent
          have hsafe := safeEntry_of_insert hcomplete h
          obtain ⟨st₁, hst₁, hstores⟩ := exists_insert hcomplete hsafe
          obtain rfl := Except.ok.inj (hst₁.symm.trans h)
          refine ⟨⟨hstores.entries, hstores.sections, hstores.current⟩, fun e he => ?_⟩
          rw [List.mem_singleton.mp he]
          exact hsafe

theorem examined_examine {st st' : Loading} {l : Line} (h : st.examine l = .ok st') :
    st'.examined = st.examined := by
  cases l with
  | blank => rw [← Except.ok.inj h]
  | comment => rw [← Except.ok.inj h]
  | header name => rw [← Except.ok.inj h]
  | entry text continued =>
      cases continued with
      | true => rw [← Except.ok.inj h]
      | false =>
          obtain ⟨r, -, hr⟩ := bind_eq_ok.mp h
          rw [← Except.ok.inj hr]
          rfl

/-- What goes wrong is a strip of an empty string or of white space. -/
theorem examine_eq_error {st : Loading} {l : Line} {e : Fault} (hcurrent : st.Current)
    (h : st.examine l = .error e) : e = .badIndex ∧ ∃ e' ∈ st.completed l, ¬ SafeEntry e'.2 := by
  match l with
  | .blank | .comment | .header _ | .entry _ true => cases h
  | .entry text false =>
      have hcomplete : (st.complete text).Current := hcurrent
      have hbad : e = .badIndex := by
        rw [examine, insert, bind_eq_error] at h
        rcases h with h | ⟨r, -, hr⟩
        · exact insertEntry_eq_error h
        · cases hr
      refine ⟨hbad, _, List.mem_singleton_self _, fun hsafe => ?_⟩
      obtain ⟨st₁, hst₁, -⟩ := exists_insert hcomplete hsafe
      cases hst₁.symm.trans h

end Loading

open Loading

/-- The line has been read. -/
def Loading.note (st : Loading) (line : Str) : Loading :=
  { st with examined := st.examined ++ [cLine line] }

/-- **One turn** examines the line as it is read. -/
theorem loadTurn_read (st : Loading) {line : Str} (h : line.length < maxCfgLineLen) :
    loadTurn st line = (st.note line).examine (.read line) := by
  rw [loadTurn_eq st h, loadLine_eq]
  rfl

/-- One turn of a loop that ends. -/
theorem exists_turn {line : Str} {lines : List Str} {st st' : Loading}
    (hline : line.length < maxCfgLineLen) (h : (line :: lines).foldlM loadTurn st = .ok st') :
    ∃ st₁, (st.note line).examine (.read line) = .ok st₁ ∧ lines.foldlM loadTurn st₁ = .ok st' := by
  rw [List.foldlM_cons, bind_eq_ok, loadTurn_read st hline] at h
  exact h

/-- **All lines.** -/
theorem stores_run {lines : List Str} (hshort : ∀ l ∈ lines, l.length < maxCfgLineLen)
    {st st' : Loading} (hcurrent : st.Current) (h : lines.foldlM loadTurn st = .ok st') :
    ∃ es, Stores st st' es ∧ st'.examined = st.examined ++ lines.map cLine := by
  induction lines generalizing st with
  | nil =>
      obtain rfl := Except.ok.inj h
      exact ⟨[], ⟨(List.append_nil _).symm, fun s => rfl, hcurrent⟩, (List.append_nil _).symm⟩
  | cons line lines ih =>
      obtain ⟨hline, hlines⟩ := List.forall_mem_cons.mp hshort
      obtain ⟨st₁, hst₁, h⟩ := exists_turn hline h
      have hnote : (st.note line).Current := hcurrent
      obtain ⟨hstores, -⟩ := stores_examine hnote hst₁
      obtain ⟨es, hes, hexamined⟩ := ih hlines hstores.current h
      refine ⟨_, Stores.trans ⟨hstores.entries, hstores.sections, hstores.current⟩ hes, ?_⟩
      rw [hexamined, examined_examine hst₁, note, List.map_cons, List.append_assoc,
        List.singleton_append]

theorem current_start (f : IniFile) : (Loading.start f).Current := find_switchSession f []

/-! ### The result -/

theorem load_eq_ok {disk : Str → Option Str} {f : IniFile} {fileName : Str} {r : Loading × ℤ} :
    load disk f fileName = .ok r ↔
      loadLoop (.ofFile (disk fileName)) (.start f) = .ok r.1 ∧ r.2 = 0 := by
  rw [load, bind_eq_ok]
  constructor
  · rintro ⟨st, hst, hr⟩
    obtain rfl := Except.ok.inj hr
    exact ⟨hst, rfl⟩
  · rintro ⟨hst, hr⟩
    refine ⟨r.1, hst, ?_⟩
    rw [← hr]
    rfl

/-- Nothing that a line leads to is caught. -/
theorem load_throws_nothing (disk : Str → Option Str) (f : IniFile) (fileName : Str) :
    load disk f fileName ≠ .error .outOfRange := by
  intro h
  rw [load, bind_eq_error] at h
  rcases h with h | ⟨st, -, hst⟩
  · cases hfile : disk fileName with
    | none =>
        rw [hfile, loadLoop_not_good rfl] at h
        cases h
    | some text =>
        rw [hfile, IfStream.ofFile, loadLoop_eq] at h
        obtain ⟨done, line, rest, st, heq, hdone, hline⟩ := foldlM_eq_error.mp h
        have hshort : ∀ l ∈ done ++ line :: rest, l.length < maxCfgLineLen :=
          fun l hl => length_of_mem_readLines (by decide) (heq ▸ hl)
        rw [List.forall_mem_append, List.forall_mem_cons] at hshort
        obtain ⟨es, hes, -⟩ := stores_run hshort.1 (current_start f) hdone
        rw [loadTurn_read st hshort.2.1] at hline
        have hnote : (st.note line).Current := hes.current
        cases (examine_eq_error hnote hline).1
  · cases hst

/-- All lines are examined as they stand exactly when they fit and have no NUL. -/
theorem map_cLine_eq_iff {ls : List Str} {n : ℕ} (hn : 0 < n) :
    (readLines n ls).map cLine = ls ↔ ∀ l ∈ ls, l.length < n ∧ terminator ∉ l := by
  induction ls with
  | nil => exact ⟨fun _ => nofun, fun _ => rfl⟩
  | cons l ls ih =>
      rw [readLines, List.forall_mem_cons]
      by_cases hlong : n ≤ l.length
      · rw [if_pos hlong]
        refine ⟨fun h => ?_, fun h => absurd h.1.1 (by omega)⟩
        have hlen := congrArg List.length (List.cons.inj h).1
        have hle : (cLine (l.take (n - 1))).length ≤ (l.take (n - 1)).length :=
          (List.takeWhile_sublist _).length_le
        rw [List.length_take] at hle
        omega
      · have hline : cLine l = l ↔ terminator ∉ l :=
          ⟨fun h => h ▸ notMem_cLine l, before_of_notMem⟩
        rw [if_neg hlong, List.map_cons, List.cons.injEq, ih, hline]
        exact ⟨fun h => ⟨⟨by omega, h.1⟩, h.2⟩, fun h => ⟨h.1.2, h.2⟩⟩

end VulcanDB.Common
