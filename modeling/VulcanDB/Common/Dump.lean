import VulcanDB.Common.Continuation
import VulcanDB.Common.SplitString

/-!
# Common — Dumped configurations

`IniFile::to_string` writes all sections in the format that `load` reads, between a first and a
last line that `load` takes for entries without a value.

* `Dumpable`: the configurations whose lines are read as what they were written for.
* `reload_dump`: such a configuration comes back from its dump.
* `dumpable_load`: a file in which no line is continued gives such a configuration.
-/

namespace VulcanDB.Common

open Cxx Trim Loading

/-! ### The code -/

/-- The lines of one section. -/
def sectionText (e : Str × StdMap Str Str) : Str :=
  '[' :: e.1 ++ "]\n".toList ++
    (e.2.items strLe).flatMap (fun p => p.1 ++ "=".toList ++ p.2 ++ "\n".toList) ++ "\n".toList

/-- `IniFile::to_string`. -/
def IniFile.toString (f : IniFile) : Str :=
  "Begin dump configuration\n".toList ++ (f.sections.items strLe).flatMap sectionText ++
    "Finish dump configuration \n".toList

/-! ### The lines of a dump -/

/-- Lines as the text they make. -/
def joined (ls : List Str) : Str := ls.flatMap (· ++ ['\n'])

/-- Lines that are joined are cut where they were. -/
theorem splitOn_joined {ls : List Str} (h : ∀ l ∈ ls, '\n' ∉ l) :
    (joined ls).splitOn '\n' = ls ++ [[]] := by
  induction ls with
  | nil => rfl
  | cons l ls ih =>
      obtain ⟨hl, hls⟩ := List.forall_mem_cons.mp h
      rw [joined, List.flatMap_cons, List.append_assoc, List.singleton_append,
        List.splitOn_append_cons_self_of_not_mem hl, ← joined, ih hls, List.cons_append]

/-- The line of an entry. -/
def entryLine (p : Str × Str) : Str := p.1 ++ '=' :: p.2

/-- The line of a section. -/
def headerLine (name : Str) : Str := '[' :: name ++ [']']

/-- The lines of a section, the last of them empty. -/
def sectionLines (e : Str × StdMap Str Str) : List Str :=
  headerLine e.1 :: (e.2.items strLe).map entryLine ++ [[]]

/-- What `to_string` begins with. -/
def firstLine : Str := "Begin dump configuration".toList

/-- What it ends with, a blank behind it. -/
def lastLine : Str := "Finish dump configuration ".toList

/-- All of its lines. -/
def dumpLines (f : IniFile) : List Str :=
  firstLine :: (f.sections.items strLe).flatMap sectionLines ++ [lastLine]

theorem joined_append (ls ms : List Str) : joined (ls ++ ms) = joined ls ++ joined ms :=
  List.flatMap_append

theorem joined_cons (l : Str) (ls : List Str) : joined (l :: ls) = l ++ ['\n'] ++ joined ls :=
  List.flatMap_cons

theorem joined_entryLines (ps : List (Str × Str)) : joined (ps.map entryLine) =
    ps.flatMap fun p => p.1 ++ "=".toList ++ p.2 ++ "\n".toList := by
  induction ps with
  | nil => rfl
  | cons p ps ih =>
      have hline : entryLine p ++ ['\n'] = p.1 ++ "=".toList ++ p.2 ++ "\n".toList := by
        rw [entryLine, show "=".toList = ['='] from rfl, show "\n".toList = ['\n'] from rfl,
          List.append_assoc p.1, List.append_assoc p.1, List.append_assoc p.1]
        rfl
      rw [List.map_cons, joined_cons, ih, List.flatMap_cons, hline]

/-- The text of a section is that of its lines. -/
theorem joined_sectionLines (e : Str × StdMap Str Str) :
    joined (sectionLines e) = sectionText e := by
  have hheader : headerLine e.1 ++ ['\n'] = '[' :: e.1 ++ "]\n".toList := by
    rw [headerLine, show "]\n".toList = [']', '\n'] from rfl, List.append_assoc]
    rfl
  rw [sectionLines, joined_append, joined_cons, hheader, joined_entryLines, sectionText]
  rfl

/-- **`to_string`** is the text of these lines. -/
theorem toString_eq (f : IniFile) : f.toString = joined (dumpLines f) := by
  have h : ∀ es : List (Str × StdMap Str Str),
      joined (es.flatMap sectionLines) = es.flatMap sectionText := by
    intro es
    rw [joined, List.flatMap_assoc]
    exact List.flatMap_congr fun e _ => joined_sectionLines e
  rw [dumpLines, joined_append, joined_cons, h]
  rfl

/-! ### What is read -/

/-- A text that `strip` leaves as it is. -/
def Stripped (s : Str) : Prop := Core isspace [] s []

/-- A text without space at its ends is left by `trim`. -/
theorem Stripped.trim {s : Str} (h : Stripped s) : trim isspace s = s := by
  have := Core.trim h
  rwa [List.nil_append, List.append_nil] at this

/-- What stands between two such texts does not matter. -/
theorem Stripped.append {s t : Str} (hs : Stripped s) (ht : Stripped t) (u : Str) :
    Stripped (s ++ u ++ t) := by
  obtain ⟨c, rest, hc⟩ := hs.first
  obtain ⟨rest', d, hd⟩ := ht.last
  refine ⟨nofun, nofun, ⟨c, rest ++ u ++ t, ?_, hc.2⟩, ⟨s ++ u ++ rest', d, ?_, hd.2⟩⟩
  · rw [hc.1]
    rfl
  · rw [hd.1, List.append_assoc _ rest']

theorem Stripped.ne_nil {s : Str} (h : Stripped s) : s ≠ [] := by
  obtain ⟨c, rest, rfl, -⟩ := h.first
  exact List.cons_ne_nil c rest

theorem Stripped.hasText {s : Str} (h : Stripped s) : HasText isspace s := by
  obtain ⟨c, rest, rfl, hc⟩ := h.first
  exact ⟨c, List.mem_cons_self, hc⟩

theorem stripped_trim {s : Str} (h : HasText isspace s) : Stripped (trim isspace s) := by
  obtain ⟨a, m, b, rfl, hcore⟩ := exists_core h
  rw [hcore.trim]
  exact ⟨nofun, nofun, hcore.first, hcore.last⟩

theorem stripped_of_ne_nil {s : Str} (h : trim isspace s ≠ []) : Stripped (trim isspace s) :=
  stripped_trim (not_not.mp fun hs => h (trim_of_not_hasText hs))

theorem read_stripped {s : Str} (h : Stripped s) (hn : terminator ∉ s) :
    Line.read s = .of s := by
  rw [Line.read, cLine, before_of_notMem hn, h.trim]

/-- Characters that stand in one line. -/
def OneLine (s : Str) : Prop := '\n' ∉ s ∧ terminator ∉ s

/-- A section name that comes back as it is. -/
structure DumpableName (name : Str) : Prop where
  oneLine : OneLine name
  short : name.length + 2 < maxCfgLineLen

/-- An entry whose line is read as this entry. -/
structure DumpableEntry (key value : Str) : Prop where
  strippedKey : Stripped key
  strippedValue : Stripped value
  noEqual : '=' ∉ key
  noComment : key.head? ≠ some '#'
  noContinue : value.getLast? ≠ some '\\'
  noHeader : ¬ (key.head? = some '[' ∧ value.getLast? = some ']')
  oneLine : OneLine (entryLine (key, value))
  short : (entryLine (key, value)).length < maxCfgLineLen

/-- Every name and every entry comes back. -/
structure Dumpable (f : IniFile) : Prop where
  name : ∀ s m, f.sections.find s = some m → DumpableName s
  entry : ∀ s m, f.sections.find s = some m → ∀ k v, m.find k = some v → DumpableEntry k v

/-! ### Each line read -/

theorem oneLine_headerLine {name : Str} (h : OneLine name) : OneLine (headerLine name) := by
  simp only [OneLine, headerLine, List.mem_append, List.mem_cons, List.not_mem_nil, or_false]
  constructor
  · rintro ((h' | h') | h')
    · exact absurd h' (by decide)
    · exact h.1 h'
    · exact absurd h' (by decide)
  · rintro ((h' | h') | h')
    · exact absurd h' (by decide)
    · exact h.2 h'
    · exact absurd h' (by decide)

theorem of_headerLine (name : Str) : Line.of (headerLine name) = .header name := by
  have hlast : ('[' :: name ++ [']']).getLast? = some ']' := List.getLast?_concat
  have hname : ('[' :: name ++ [']']).dropLast = '[' :: name := List.dropLast_concat
  rw [headerLine, List.cons_append, Line.of, if_neg (by decide), if_pos ⟨rfl, hlast⟩]
  exact congrArg (fun s => Line.header s.tail) hname

theorem read_header {name : Str} (h : DumpableName name) :
    Line.read (headerLine name) = .header name := by
  have hs : Stripped (headerLine name) :=
    ⟨nofun, nofun, ⟨'[', name ++ [']'], rfl, rfl⟩, ⟨'[' :: name, ']', rfl, rfl⟩⟩
  rw [read_stripped hs (oneLine_headerLine h.oneLine).2, of_headerLine]

/-- A line that is an entry by itself. -/
theorem of_entry {s : Str} (hs : s ≠ []) (h₁ : s.head? ≠ some '#')
    (h₂ : ¬ (s.head? = some '[' ∧ s.getLast? = some ']')) (h₃ : s.getLast? ≠ some '\\') :
    Line.of s = .entry s false := by
  obtain ⟨c, t, rfl⟩ := List.exists_cons_of_ne_nil hs
  rw [List.head?_cons] at h₁ h₂
  rw [Line.of, if_neg fun h => h₁ (congrArg some h), if_neg fun h => h₂ ⟨congrArg some h.1, h.2⟩,
    if_neg h₃]

/-- The line of an entry has no space at its ends. -/
theorem stripped_entryLine {key value : Str} (hk : Stripped key) (hv : Stripped value) :
    Stripped (entryLine (key, value)) := by
  have h := hk.append hv ['=']
  rwa [List.append_assoc] at h

theorem head?_entryLine {key : Str} (hk : key ≠ []) (value : Str) :
    (entryLine (key, value)).head? = key.head? := by
  obtain ⟨c, t, rfl⟩ := List.exists_cons_of_ne_nil hk
  rfl

theorem getLast?_entryLine {value : Str} (hv : value ≠ []) (key : Str) :
    (entryLine (key, value)).getLast? = value.getLast? := by
  obtain ⟨c, t, rfl⟩ := List.exists_cons_of_ne_nil hv
  rw [entryLine, List.getLast?_append_of_ne_nil _ (List.cons_ne_nil _ _), List.getLast?_cons_cons]

theorem read_entry {key value : Str} (h : DumpableEntry key value) :
    Line.read (entryLine (key, value)) = .entry (entryLine (key, value)) false := by
  have hs := stripped_entryLine h.strippedKey h.strippedValue
  have hhead := head?_entryLine h.strippedKey.ne_nil value
  have hlast := getLast?_entryLine h.strippedValue.ne_nil key
  rw [read_stripped hs h.oneLine.2]
  exact of_entry hs.ne_nil (hhead ▸ h.noComment) (hhead ▸ hlast ▸ h.noHeader)
    (hlast ▸ h.noContinue)

/-! ### The entries of lines that are not continued -/

/-- The line does not go on in the next. -/
def NotContinued (l : Line) : Prop := ∀ text, l ≠ .entry text true

/-- The entries, each with the section in force. -/
def assigned (sessionName : Str) : List Line → List (Str × Str)
  | [] => []
  | .entry text _ :: ls => (sessionName, text) :: assigned sessionName ls
  | .header name :: ls => assigned name ls
  | .blank :: ls | .comment :: ls => assigned sessionName ls

/-- The section in force behind lines. -/
def sectionAfter (sessionName : Str) (ls : List Line) : Str :=
  ls.foldl (fun s l => match l with | .header name => name | _ => s) sessionName

/-- The entries of lines are those of the first and, in the section these leave, of the others. -/
theorem assigned_append (s : Str) (ls ms : List Line) :
    assigned s (ls ++ ms) = assigned s ls ++ assigned (sectionAfter s ls) ms := by
  induction ls generalizing s with
  | nil => rfl
  | cons l ls ih =>
      cases l with
      | blank => exact ih s
      | comment => exact ih s
      | header name => exact ih name
      | entry text continued => exact congrArg (List.cons (s, text)) (ih s)

/-- Where nothing is continued, each entry is handed on under its section. -/
theorem handed_assigned {ls : List Line} (h : ∀ l ∈ ls, NotContinued l) (s : Str) :
    handed [] (runs (placed s ls)) = assigned s ls := by
  induction ls generalizing s with
  | nil => rfl
  | cons l ls ih =>
      obtain ⟨hl, hls⟩ := List.forall_mem_cons.mp h
      match l with
      | .blank | .comment => exact ih hls s
      | .header name => exact ih hls name
      | .entry text false =>
          rw [placed, runs, handed_nil, assigned, ← ih hls s, handed_nil]
          rfl
      | .entry text true => exact absurd rfl (hl text)

/-! ### The entries of a dump -/

section
variable {f : IniFile}

/-- What `to_string` writes is dumpable. -/
theorem Dumpable.of_items (h : Dumpable f) {e : Str × StdMap Str Str}
    (he : e ∈ f.sections.items strLe) :
    DumpableName e.1 ∧ ∀ p ∈ e.2.items strLe, DumpableEntry p.1 p.2 :=
  have hfind := StdMap.mem_items.mp he
  ⟨h.name _ _ hfind, fun p hp => h.entry _ _ hfind p.1 p.2 (StdMap.mem_items.mp hp)⟩

/-- The first line is an entry without an `=`. -/
theorem read_firstLine : Line.read firstLine = .entry firstLine false := by
  have hs : Stripped firstLine :=
    ⟨nofun, nofun, ⟨'B', "egin dump configuration".toList, rfl, rfl⟩,
      ⟨"Begin dump configuratio".toList, 'n', rfl, rfl⟩⟩
  rw [read_stripped hs (by decide)]
  exact of_entry hs.ne_nil (by decide) (by decide) (by decide)

theorem read_lastLine : Line.read lastLine = .entry lastLine.dropLast false := by
  have hcore : Core isspace [] lastLine.dropLast [' '] :=
    ⟨nofun, by decide, ⟨'F', "inish dump configuration".toList, rfl, rfl⟩,
      ⟨"Finish dump configuratio".toList, 'n', rfl, rfl⟩⟩
  have htrim : trim isspace lastLine = lastLine.dropLast := hcore.trim
  rw [Line.read, cLine, before_of_notMem (by decide), htrim]
  exact of_entry (by decide) (by decide) (by decide) (by decide)

theorem read_nil : Line.read [] = .blank := rfl

/-- The entries of a section. -/
def sectionEntries (e : Str × StdMap Str Str) : List (Str × Str) :=
  (e.2.items strLe).map fun p => (e.1, entryLine p)

theorem map_read_entryLine {ps : List (Str × Str)} (h : ∀ p ∈ ps, DumpableEntry p.1 p.2) :
    (ps.map entryLine).map Line.read = ps.map fun p => .entry (entryLine p) false := by
  rw [List.map_map]
  exact List.map_congr_left fun p hp => read_entry (h p hp)

/-- Entries stay in the section they follow. -/
theorem assigned_entries (name : Str) (ps : List (Str × Str)) :
    assigned name (ps.map fun p => .entry (entryLine p) false) =
      ps.map fun p => (name, entryLine p) := by
  induction ps with
  | nil => rfl
  | cons p ps ih => exact congrArg (List.cons (name, entryLine p)) ih

theorem map_read_sectionLines {e : Str × StdMap Str Str} (hname : DumpableName e.1)
    (h : ∀ p ∈ e.2.items strLe, DumpableEntry p.1 p.2) :
    (sectionLines e).map Line.read =
      .header e.1 :: (e.2.items strLe).map (fun p => .entry (entryLine p) false) ++ [.blank] := by
  rw [sectionLines, List.map_append, List.map_cons, read_header hname, map_read_entryLine h]
  rfl

/-- **The lines of the sections** give the entries of each under its name. -/
theorem assigned_sections {es : List (Str × StdMap Str Str)}
    (h : ∀ e ∈ es, DumpableName e.1 ∧ ∀ p ∈ e.2.items strLe, DumpableEntry p.1 p.2) (s : Str) :
    assigned s ((es.flatMap sectionLines).map Line.read) = es.flatMap sectionEntries ∧
      ∀ l ∈ (es.flatMap sectionLines).map Line.read, NotContinued l := by
  induction es generalizing s with
  | nil => exact ⟨rfl, nofun⟩
  | cons e es ih =>
      obtain ⟨⟨hname, he⟩, hes⟩ := List.forall_mem_cons.mp h
      rw [List.flatMap_cons, List.map_append, assigned_append, map_read_sectionLines hname he,
        List.flatMap_cons, List.forall_mem_append]
      refine ⟨congrArg₂ _ ?_ (ih hes _).1, ?_, (ih hes s).2⟩
      · rw [List.cons_append, assigned, assigned_append, assigned_entries]
        exact List.append_nil _
      · simp only [List.cons_append, List.forall_mem_cons, List.forall_mem_append, List.forall_mem_map]
        exact ⟨nofun, fun p _ => nofun, nofun, nofun⟩

/-- **The entries of a dump** are those of the sections, and its first and last line. -/
theorem assigned_dump (h : Dumpable f) : ∃ s,
    assigned [] ((dumpLines f ++ [[]]).map Line.read) =
      ([], firstLine) :: (f.sections.items strLe).flatMap sectionEntries ++ [(s, lastLine.dropLast)]
    ∧ ∀ l ∈ (dumpLines f ++ [[]]).map Line.read, NotContinued l := by
  obtain ⟨hentries, hcont⟩ := assigned_sections (fun e he => h.of_items he) []
  have hread : (dumpLines f ++ [[]]).map Line.read = .entry firstLine false ::
      ((f.sections.items strLe).flatMap sectionLines).map Line.read ++
        [.entry lastLine.dropLast false, .blank] := by
    rw [dumpLines, List.map_append, List.map_append, List.map_cons, read_firstLine]
    simp only [List.map_cons, List.map_nil, read_lastLine, read_nil, List.append_assoc]
    rfl
  refine ⟨sectionAfter [] (.entry firstLine false ::
    ((f.sections.items strLe).flatMap sectionLines).map Line.read), ?_, ?_⟩
  · rw [hread, assigned_append, assigned, hentries]
    rfl
  · rw [hread]
    simp only [List.cons_append, List.forall_mem_cons, List.forall_mem_append]
    exact ⟨nofun, hcont, nofun, nofun, nofun⟩

end

/-! ### The configuration that is loaded -/

/-- Of what is put into an empty configuration, the first value stays. -/
theorem find_entries (es : List (Str × Str)) (key s : Str) :
    ((es.foldl IniFile.putEntry .new).getSection s).find key =
      es.findSome? (entryValue key s) := by
  rw [IniFile.find_foldl, show (IniFile.new.getSection s).find key = none from rfl,
    Option.none_or, firstValue]

/-- A search with one possible result finds it. -/
theorem findSome?_of_unique {α β : Type} {p : α → Option β} {l : List α} {b : β}
    (hmem : ∃ a ∈ l, p a = some b) (h : ∀ a ∈ l, ∀ c, p a = some c → c = b) :
    l.findSome? p = some b := by
  obtain ⟨a, ha, hab⟩ := hmem
  cases hl : l.findSome? p with
  | none =>
      rw [List.findSome?_eq_none_iff] at hl
      rw [hl a ha] at hab
      cases hab
  | some c =>
      obtain ⟨a', ha', hc⟩ := List.exists_of_findSome?_eq_some hl
      rw [h a' ha' c hc]

section
variable {f : IniFile}

theorem before_entryLine {key : Str} (h : '=' ∉ key) (value : Str) :
    before '=' (entryLine (key, value)) = key := before_append h

theorem after_entryLine {key : Str} (h : '=' ∉ key) (value : Str) :
    after '=' (entryLine (key, value)) = value := after_append h

/-- The line of an entry has the value for its key and its section only. -/
theorem entryValue_entryLine {k v : Str} (h : DumpableEntry k v) (key s n : Str) :
    entryValue key s (n, entryLine (k, v)) = if key = k ∧ s = n then some v else none := by
  have hmem : '=' ∈ entryLine (k, v) := List.mem_append_right _ List.mem_cons_self
  rw [entryValue, before_entryLine h.noEqual, after_entryLine h.noEqual, h.strippedKey.trim,
    h.strippedValue.trim]
  simp only [hmem, true_and]

/-- The entries that are written are those of the map. -/
theorem mem_sectionEntries {e : Str × Str} :
    e ∈ (f.sections.items strLe).flatMap sectionEntries ↔ ∃ n m k v, f.sections.find n = some m ∧
      m.find k = some v ∧ e = (n, entryLine (k, v)) := by
  rw [List.mem_flatMap]
  constructor
  · rintro ⟨⟨n, m⟩, hm, he⟩
    obtain ⟨⟨k, v⟩, hp, rfl⟩ := List.mem_map.mp he
    exact ⟨n, m, k, v, StdMap.mem_items.mp hm, StdMap.mem_items.mp hp, rfl⟩
  · rintro ⟨n, m, k, v, hm, hv, rfl⟩
    exact ⟨(n, m), StdMap.mem_items.mpr hm,
      List.mem_map.mpr ⟨(k, v), StdMap.mem_items.mpr hv, rfl⟩⟩

/-- The entries of the sections put what is in the sections. -/
theorem findSome?_sectionEntries (h : Dumpable f) (key s : Str) :
    ((f.sections.items strLe).flatMap sectionEntries).findSome? (entryValue key s) =
      (f.getSection s).find key := by
  have hvalue : ∀ {n m k v}, f.sections.find n = some m → m.find k = some v →
      entryValue key s (n, entryLine (k, v)) = if key = k ∧ s = n then some v else none :=
    fun hm hv => entryValue_entryLine (h.entry _ _ hm _ _ hv) key s _
  cases hfind : (f.getSection s).find key with
  | none =>
      rw [List.findSome?_eq_none_iff]
      intro e he
      obtain ⟨n, m, k, v, hm, hv, rfl⟩ := mem_sectionEntries.mp he
      rw [hvalue hm hv, if_neg]
      rintro ⟨rfl, rfl⟩
      rw [IniFile.getSection, hm, Option.getD_some, hv] at hfind
      cases hfind
  | some w =>
      have hs : ∃ m, f.sections.find s = some m := by
        cases hm : f.sections.find s with
        | none =>
            rw [IniFile.getSection, hm, Option.getD_none, StdMap.find_empty] at hfind
            cases hfind
        | some m => exact ⟨m, rfl⟩
      obtain ⟨m, hm⟩ := hs
      rw [IniFile.getSection, hm, Option.getD_some] at hfind
      refine findSome?_of_unique ⟨(s, entryLine (key, w)), mem_sectionEntries.mpr
        ⟨s, m, key, w, hm, hfind, rfl⟩, ?_⟩ ?_
      · rw [hvalue hm hfind, if_pos ⟨rfl, rfl⟩]
      · intro e he c hc
        obtain ⟨n, m', k, v, hm', hv, rfl⟩ := mem_sectionEntries.mp he
        rw [hvalue hm' hv] at hc
        split at hc
        · rename_i hsame
          obtain ⟨rfl, rfl⟩ := hsame
          rw [hm] at hm'
          obtain rfl := Option.some.inj hm'
          rw [hfind] at hv
          rw [← Option.some.inj hc, Option.some.inj hv]
        · cases hc

/-- No entry that is written is undefined behaviour of `strip`. -/
theorem safeEntry_entryLine {k v : Str} (h : DumpableEntry k v) : SafeEntry (entryLine (k, v)) := by
  intro _
  rw [before_entryLine h.noEqual, after_entryLine h.noEqual]
  exact ⟨h.strippedKey.hasText, h.strippedValue.hasText⟩

/-- Every line fits the buffer of `load`. -/
theorem dumpLines_oneLine (h : Dumpable f) :
    ∀ l ∈ dumpLines f, '\n' ∉ l ∧ l.length < maxCfgLineLen := by
  have hsections : ∀ l ∈ (f.sections.items strLe).flatMap sectionLines,
      '\n' ∉ l ∧ l.length < maxCfgLineLen := by
    intro l hl
    obtain ⟨e, he, hl⟩ := List.mem_flatMap.mp hl
    obtain ⟨hname, hentries⟩ := h.of_items he
    rcases List.mem_append.mp hl with hl | hl
    · rcases List.mem_cons.mp hl with rfl | hl
      · refine ⟨(oneLine_headerLine hname.oneLine).1, ?_⟩
        have := hname.short
        simp only [headerLine, List.length_append, List.length_cons, List.length_nil]
        omega
      · obtain ⟨p, hp, rfl⟩ := List.mem_map.mp hl
        exact ⟨(hentries p hp).oneLine.1, (hentries p hp).short⟩
    · rw [List.mem_singleton.mp hl]
      exact ⟨nofun, by decide⟩
  rw [dumpLines, List.forall_mem_append, List.forall_mem_cons]
  exact ⟨⟨⟨by decide, by decide⟩, hsections⟩,
    fun l hl => List.mem_singleton.mp hl ▸ ⟨by decide, by decide⟩⟩

/-- `load` gets the lines that were written. -/
theorem splitOn_toString (h : Dumpable f) : f.toString.splitOn '\n' = dumpLines f ++ [[]] := by
  rw [toString_eq, splitOn_joined fun l hl => (dumpLines_oneLine h l hl).1]

theorem short_toString (h : Dumpable f) :
    ∀ l ∈ f.toString.splitOn '\n', l.length < maxCfgLineLen := by
  rw [splitOn_toString h, List.forall_mem_append]
  exact ⟨fun l hl => (dumpLines_oneLine h l hl).2,
    fun l hl => List.mem_singleton.mp hl ▸ by decide⟩

/-- What the loop hands over of a dump. -/
theorem handed_dump (h : Dumpable f) : ∃ s, handed [] (readRuns f.toString) =
    ([], firstLine) :: (f.sections.items strLe).flatMap sectionEntries ++
      [(s, lastLine.dropLast)] := by
  obtain ⟨s, hassigned, hcont⟩ := assigned_dump h
  exact ⟨s, by rw [readRuns, splitOn_toString h, handed_assigned hcont, hassigned]⟩

theorem notMem_firstLine : '=' ∉ firstLine := by decide

theorem notMem_lastLine : '=' ∉ lastLine.dropLast := by decide

theorem safe_dump (h : Dumpable f) : ∀ e ∈ handed [] (readRuns f.toString), SafeEntry e.2 := by
  obtain ⟨s, hhanded⟩ := handed_dump h
  rw [hhanded, List.forall_mem_append, List.forall_mem_cons]
  refine ⟨⟨fun hmem => absurd hmem notMem_firstLine, fun e he => ?_⟩,
    fun e he => List.mem_singleton.mp he ▸ fun hmem => absurd hmem notMem_lastLine⟩
  obtain ⟨n, m, k, v, hm, hv, rfl⟩ := mem_sectionEntries.mp he
  exact safeEntry_entryLine (h.entry _ _ hm _ _ hv)

/-- **The dump of a dumpable configuration**, loaded into an empty one, gives each key its value
in its section, and nothing else. -/
theorem reload_dump (h : Dumpable f) (fileName : Str) :
    ∃ st, load (fun _ => some f.toString) .new fileName = .ok (st, 0) ∧
      ∀ key defaultValue s, st.ini.get key defaultValue s = f.get key defaultValue s := by
  have hshort := short_toString h
  obtain ⟨st, hst⟩ := exists_run hshort (current_start .new) (safe_dump h)
  have hload : load (fun _ => some f.toString) .new fileName = .ok (st, 0) :=
    (load_text rfl hshort).mpr hst
  obtain ⟨s₀, hhanded⟩ := handed_dump h
  have hstores := (stores_load rfl hshort hload).1
  rw [← handed_nil, hhanded] at hstores
  refine ⟨st, hload, fun key d s => ?_⟩
  have hsection := (hstores.sections s).trans
    (IniFile.getSection_foldl (IniFile.getSection_switchSession .new []) _ s)
  -- the first and the last line put nothing
  have hfirst : entryValue key s ([], firstLine) = none := if_neg fun h => notMem_firstLine h.1
  have hlast : entryValue key s (s₀, lastLine.dropLast) = none :=
    if_neg fun h => notMem_lastLine h.1
  rw [IniFile.get, IniFile.get, hsection, find_entries, List.cons_append, List.findSome?_cons,
    hfirst, List.findSome?_append, findSome?_sectionEntries h, List.findSome?_cons, hlast]
  simp

end

/-! ### Files that are loaded -/

/-- A text that begins with no space keeps its first character. -/
theorem head?_trim {s : Str} {c : Char} {t : Str} (hs : s = c :: t) (hc : isspace c = false) :
    (trim isspace s).head? = some c := by
  obtain ⟨a, m, b, heq, hcore⟩ := exists_core (p := isspace) (s := s) ⟨c, by simp [hs], hc⟩
  obtain ⟨d, u, hm, hd⟩ := hcore.first
  rw [heq, hcore.trim, hm, List.head?_cons]
  rcases a with _ | ⟨x, a⟩
  · rw [hs, hm] at heq
    exact congrArg some (List.cons.inj heq).1.symm
  · -- a blank would be first
    rw [hs] at heq
    have hx := hcore.before x List.mem_cons_self
    rw [← (List.cons.inj heq).1, hc] at hx
    cases hx

/-- A text that ends with no space keeps its last. -/
theorem getLast?_trim {s : Str} {c : Char} {t : Str} (hs : s = t ++ [c]) (hc : isspace c = false) :
    (trim isspace s).getLast? = some c := by
  obtain ⟨a, m, b, heq, hcore⟩ := exists_core (p := isspace) (s := s) ⟨c, by simp [hs], hc⟩
  obtain ⟨u, d, hm, hd⟩ := hcore.last
  rw [heq, hcore.trim, hm, List.getLast?_concat]
  rcases List.eq_nil_or_concat' b with rfl | ⟨b, x, rfl⟩
  · rw [hs, hm, List.append_nil, ← List.append_assoc] at heq
    exact congrArg some (List.append_singleton_inj.mp heq).2.symm
  · rw [hs, ← List.append_assoc] at heq
    have hx := hcore.after x (List.mem_append_right _ List.mem_cons_self)
    rw [← (List.append_singleton_inj.mp heq).2, hc] at hx
    cases hx

theorem length_trim_le (s : Str) : (trim isspace s).length ≤ s.length :=
  le_trans (List.rdropWhile_prefix _ _).length_le (List.dropWhile_sublist _).length_le

theorem oneLine_of_subset {s t : Str} (h : OneLine s) (ht : ∀ c ∈ t, c ∈ s) : OneLine t :=
  ⟨fun hc => h.1 (ht _ hc), fun hc => h.2 (ht _ hc)⟩

/-- An entry line, read as key and value. -/
theorem dumpableEntry_of_line {s : Str} (hs : Stripped s) (hline : OneLine s)
    (hshort : s.length < maxCfgLineLen) (h₁ : s.head? ≠ some '#')
    (h₂ : ¬ (s.head? = some '[' ∧ s.getLast? = some ']')) (h₃ : s.getLast? ≠ some '\\')
    (hmem : '=' ∈ s) (hsafe : SafeEntry s) :
    DumpableEntry (trim isspace (before '=' s)) (trim isspace (after '=' s)) := by
  obtain ⟨a, b, rfl, ha⟩ := List.eq_append_cons_of_mem hmem
  have htext := hsafe hmem
  rw [before_append ha, after_append ha] at htext ⊢
  obtain ⟨c, t, hct, hc⟩ := hs.first
  obtain ⟨u, d, hud, hd⟩ := hs.last
  have hane : a ≠ [] := by rintro rfl; obtain ⟨x, hx, -⟩ := htext.1; cases hx
  have hbne : b ≠ [] := by rintro rfl; obtain ⟨x, hx, -⟩ := htext.2; cases hx
  obtain ⟨x, a', rfl⟩ := List.exists_cons_of_ne_nil hane
  obtain ⟨b', y, rfl⟩ := (List.eq_nil_or_concat' b).resolve_left hbne
  have hx : x = c := (List.cons.inj hct).1
  have hy : y = d := by
    have hlast : x :: a' ++ '=' :: (b' ++ [y]) = (x :: a' ++ '=' :: b') ++ [y] := by simp
    rw [hlast] at hud
    exact (List.append_singleton_inj.mp hud).2
  subst hx hy
  -- trimmed, the key begins as the line does, and the value ends as it does
  have hkey := head?_trim (s := x :: a') rfl hc
  have hvalue := getLast?_trim (s := b' ++ [y]) rfl hd
  have hhead : (x :: a' ++ '=' :: (b' ++ [y])).head? = some x := rfl
  have hlast : (x :: a' ++ '=' :: (b' ++ [y])).getLast? = some y := by
    rw [hud, List.getLast?_concat]
  rw [hhead] at h₁ h₂
  rw [hlast] at h₂ h₃
  refine ⟨stripped_trim htext.1, stripped_trim htext.2, fun h => ha (mem_of_mem_trim h),
    hkey ▸ h₁, hvalue ▸ h₃, hkey ▸ hvalue ▸ h₂, oneLine_of_subset hline fun z hz => ?_, ?_⟩
  · rcases List.mem_append.mp hz with hz | hz
    · exact List.mem_append_left _ (mem_of_mem_trim hz)
    · rcases List.mem_cons.mp hz with rfl | hz
      · exact List.mem_append_right _ List.mem_cons_self
      · exact List.mem_append_right _ (List.mem_cons_of_mem _ (mem_of_mem_trim hz))
  · have hl₁ := length_trim_le (x :: a')
    have hl₂ := length_trim_le (b' ++ [y])
    simp only [entryLine, List.length_append, List.length_cons] at hshort hl₁ hl₂ ⊢
    omega

/-- What the loop keeps while no line is continued. -/
structure Kept (st : Loading) : Prop where
  dumpable : Dumpable st.ini
  current : st.Current
  whole : st.continueLastLine = false

/-- A new section keeps a map dumpable, if its name is. -/
theorem dumpable_switchSession {f : IniFile} (h : Dumpable f) {name : Str}
    (hname : DumpableName name) : Dumpable (f.switchSession name).1 := by
  cases hfind : f.sections.find name with
  | some m => rwa [IniFile.switchSession, hfind]
  | none =>
      have heq : (f.switchSession name).1.sections = f.sections.insertNew name ∅ := by
        rw [IniFile.switchSession, hfind]
        rfl
      constructor
      · intro s m hs
        rw [heq, StdMap.find_insertNew] at hs
        split at hs
        · rename_i hsame
          exact hsame ▸ hname
        · exact h.name s m hs
      · intro s m hs k v hk
        rw [heq, StdMap.find_insertNew] at hs
        split at hs
        · rw [hfind] at hs
          rw [← Option.some.inj hs, Option.getD_none, StdMap.find_empty] at hk
          cases hk
        · exact h.entry s m hs k v hk

theorem dumpable_assign {f : IniFile} (h : Dumpable f) {name : Str} {m : StdMap Str Str}
    (hname : DumpableName name) (hm : ∀ k v, m.find k = some v → DumpableEntry k v) :
    Dumpable ⟨f.sections.assign name m⟩ := by
  constructor
  · intro s m' hs
    rw [StdMap.find_assign] at hs
    split at hs
    · rename_i hsame
      exact hsame ▸ hname
    · exact h.name s m' hs
  · intro s m' hs
    rw [StdMap.find_assign] at hs
    split at hs
    · rw [← Option.some.inj hs]
      exact hm
    · exact h.entry s m' hs

/-- What an entry that is stored does to the sections. -/
theorem insert_ok {st st' : Loading} {m : StdMap Str Str}
    (hm : st.ini.sections.find st.currentSession = some m) (h : st.insert = .ok st') :
    SafeEntry st.lineEntry ∧ st'.continueLastLine = st.continueLastLine ∧
      st'.currentSession = st.currentSession ∧
      st'.ini = ⟨st.ini.sections.assign st.currentSession
        (if '=' ∈ st.lineEntry then m.insertNew (trim isspace (before '=' st.lineEntry))
          (trim isspace (after '=' st.lineEntry)) else m)⟩ := by
  have hcurrent : st.Current := by rw [Current, hm]; rfl
  have hsafe := safeEntry_of_insert hcurrent h
  refine ⟨hsafe, ?_⟩
  by_cases hmem : '=' ∈ st.lineEntry
  · rw [Loading.insert, hm, insertEntry_safe hsafe hmem] at h
    rw [← Except.ok.inj h, if_pos hmem]
    exact ⟨rfl, rfl, rfl⟩
  · rw [Loading.insert, hm, insertEntry_of_notMem hmem] at h
    rw [← Except.ok.inj h, if_neg hmem]
    exact ⟨rfl, rfl, rfl⟩

/-- The kinds of a line that is read, by its text. -/
inductive ReadAs (s : Str) : Line → Prop where
  | blank : ReadAs s .blank
  | comment : ReadAs s .comment
  | header {name : Str} (h : s = headerLine name) : ReadAs s (.header name)
  | continued {text : Str} : ReadAs s (.entry text true)
  | entry (hne : s ≠ []) (h₁ : s.head? ≠ some '#')
      (h₂ : ¬ (s.head? = some '[' ∧ s.getLast? = some ']')) (h₃ : s.getLast? ≠ some '\\') :
      ReadAs s (.entry s false)

theorem readAs_of (s : Str) : ReadAs s (.of s) := by
  cases s with
  | nil => exact .blank
  | cons c t =>
      rw [Line.of]
      split
      · exact .comment
      rename_i h₁
      split
      · rename_i h₂
        refine .header ?_
        obtain ⟨hc, hlast⟩ := h₂
        subst hc
        rcases List.eq_nil_or_concat' t with rfl | ⟨t, d, rfl⟩
        · cases hlast
        · have hd : d = ']' := by
            rw [← List.cons_append, List.getLast?_concat] at hlast
            exact Option.some.inj hlast
          rw [hd, headerLine, ← List.cons_append, List.dropLast_concat]
          rfl
      rename_i h₂
      split
      · exact .continued
      rename_i h₃
      exact .entry (List.cons_ne_nil c t) (fun h => h₁ (Option.some.inj h))
        (fun h => h₂ ⟨Option.some.inj h.1, h.2⟩) h₃

/-- An entry keeps it. -/
theorem kept_insert {st st' : Loading} (h : Kept st) (hs : Stripped st.lineEntry)
    (hone : OneLine st.lineEntry) (hshort : st.lineEntry.length < maxCfgLineLen)
    (h₁ : st.lineEntry.head? ≠ some '#')
    (h₂ : ¬ (st.lineEntry.head? = some '[' ∧ st.lineEntry.getLast? = some ']'))
    (h₃ : st.lineEntry.getLast? ≠ some '\\') (hinsert : st.insert = .ok st') : Kept st' := by
  obtain ⟨m, hm⟩ := Option.isSome_iff_exists.mp h.current
  obtain ⟨hsafe, hwhole, hsession, hini⟩ := insert_ok hm hinsert
  have hentry : ∀ k v, (if '=' ∈ st.lineEntry then
      m.insertNew (trim isspace (before '=' st.lineEntry))
        (trim isspace (after '=' st.lineEntry)) else m).find k = some v → DumpableEntry k v := by
    intro k v hk
    split at hk
    · rename_i hmem
      rw [StdMap.find_insertNew] at hk
      split at hk
      · rename_i hsame
        cases hold : m.find (trim isspace (before '=' st.lineEntry)) with
        | some w =>
            rw [hold] at hk
            rw [← Option.some.inj hk, hsame]
            exact h.dumpable.entry _ _ hm _ _ hold
        | none =>
            rw [hold] at hk
            rw [← Option.some.inj hk, hsame]
            exact dumpableEntry_of_line hs hone hshort h₁ h₂ h₃ hmem hsafe
      · exact h.dumpable.entry _ _ hm _ _ hk
    · exact h.dumpable.entry _ _ hm _ _ hk
  refine ⟨?_, ?_, hwhole.trans h.whole⟩
  · rw [hini]
    exact dumpable_assign h.dumpable (h.dumpable.name _ _ hm) hentry
  · rw [Current, hini, hsession, StdMap.find_assign, if_pos rfl]
    rfl

/-- **One line** keeps it. -/
theorem kept_examine {st st' : Loading} {line : Str} (h : Kept st) (hnl : '\n' ∉ line)
    (hshort : line.length < maxCfgLineLen) (hcont : NotContinued (Line.read line))
    (hline : st.examine (Line.read line) = .ok st') : Kept st' := by
  have hone : OneLine (trim isspace (cLine line)) := by
    have hc : OneLine (cLine line) :=
      ⟨fun hmem => hnl ((List.takeWhile_sublist _).mem hmem), notMem_cLine line⟩
    exact oneLine_of_subset hc fun c hc => mem_of_mem_trim hc
  have hlen : (trim isspace (cLine line)).length < maxCfgLineLen :=
    lt_of_le_of_lt (le_trans (length_trim_le _) (List.takeWhile_sublist _).length_le) hshort
  have hstripped := stripped_of_ne_nil (s := cLine line)
  have hread := readAs_of (trim isspace (cLine line))
  rw [Line.read] at hline hcont
  generalize trim isspace (cLine line) = s at *
  generalize Line.of s = l at *
  cases hread with
  | blank => obtain rfl := Except.ok.inj hline; exact h
  | comment => obtain rfl := Except.ok.inj hline; exact h
  | @header name hname =>
      obtain rfl := Except.ok.inj hline
      rw [hname] at hone hlen
      have hn : DumpableName name :=
        ⟨oneLine_of_subset hone fun c hc => List.mem_append_left _ (List.mem_cons_of_mem _ hc),
          by simpa [headerLine] using hlen⟩
      exact ⟨dumpable_switchSession h.dumpable hn, find_switchSession _ _, h.whole⟩
  | continued => exact absurd rfl (hcont _)
  -- no line is pending, so the entry is the line itself
  | entry hne h₁ h₂ h₃ =>
      have hpending : st.pending ++ s = s := by
        rw [pending, h.whole]
        rfl
      have hcomplete : Kept (st.complete s) := ⟨h.dumpable, h.current, rfl⟩
      refine kept_insert hcomplete ?_ ?_ ?_ ?_ ?_ ?_ hline <;>
        simp only [complete, hpending]
      · exact hstripped hne
      · exact hone
      · exact hlen
      · exact h₁
      · exact h₂
      · exact h₃

/-- **What the lines of a file preserve**, by induction on them. -/
theorem kept_run {lines : List Str} (hlines : ∀ l ∈ lines, '\n' ∉ l ∧ l.length < maxCfgLineLen ∧
    NotContinued (Line.read l)) {st st' : Loading} (h : Kept st)
    (hrun : lines.foldlM loadTurn st = .ok st') : Kept st' := by
  induction lines generalizing st with
  | nil => exact Except.ok.inj hrun ▸ h
  | cons line lines ih =>
      obtain ⟨⟨hnl, hshort, hcont⟩, hrest⟩ := List.forall_mem_cons.mp hlines
      obtain ⟨st₁, hst₁, hrun⟩ := exists_turn hshort hrun
      have hnote : Kept (st.note line) := ⟨h.dumpable, h.current, h.whole⟩
      exact ih hrest (kept_examine hnote hnl hshort hcont hst₁) hrun

/-- No entry of the file is continued on the next line. -/
def NoneContinued (disk : Str → Option Str) (fileName : Str) : Prop :=
  ∀ text, disk fileName = some text →
    ∀ l ∈ readLines maxCfgLineLen (text.splitOn '\n'), NotContinued (Line.read l)

theorem notMem_of_mem_readLines {n : ℕ} {l : Str} {ls : List Str} (h : ∀ l ∈ ls, '\n' ∉ l)
    (hl : l ∈ readLines n ls) : '\n' ∉ l := by
  induction ls with
  | nil => cases hl
  | cons m ls ih =>
      obtain ⟨hm, hls⟩ := List.forall_mem_cons.mp h
      rw [readLines] at hl
      split at hl
      · rw [List.mem_singleton.mp hl]
        exact fun hmem => hm (List.mem_of_mem_take hmem)
      · rcases List.mem_cons.mp hl with rfl | hl
        · exact hm
        · exact ih hls hl

/-- **`load` keeps a map dumpable.** -/
theorem dumpable_load {disk : Str → Option Str} {f : IniFile} {fileName : Str} {st : Loading}
    (h : Dumpable f) (hcont : NoneContinued disk fileName)
    (hload : load disk f fileName = .ok (st, 0)) : Dumpable st.ini := by
  have hstart : Kept (.start f) :=
    ⟨dumpable_switchSession h ⟨⟨nofun, nofun⟩, by decide⟩, current_start f, rfl⟩
  obtain ⟨hloop, -⟩ := load_eq_ok.mp hload
  cases hfile : disk fileName with
  | none =>
      rw [hfile, IfStream.ofFile, loadLoop_not_good rfl] at hloop
      obtain rfl := Except.ok.inj hloop
      exact hstart.dumpable
  | some text =>
      rw [hfile, IfStream.ofFile, loadLoop_eq] at hloop
      refine (kept_run (fun l hl => ⟨?_, ?_, hcont text hfile l hl⟩) hstart hloop).dumpable
      · exact notMem_of_mem_readLines (fun m hm => notMem_of_mem_splitOn hm) hl
      · exact length_of_mem_readLines (by decide) hl

theorem dumpable_new : Dumpable .new :=
  ⟨fun _ _ h => (nomatch h), fun _ _ h => (nomatch h)⟩

/-- Files loaded one after the other. -/
def loadAll (disk : Str → Option Str) (f : IniFile) : List Str → Except Fault IniFile
  | [] => .ok f
  | name :: names =>
    match load disk f name with
    | .error e => .error e
    | .ok r => loadAll disk r.1.ini names

theorem dumpable_loadAll {disk : Str → Option Str} {names : List Str}
    (hcont : ∀ name ∈ names, NoneContinued disk name) {f g : IniFile} (h : Dumpable f)
    (hload : loadAll disk f names = .ok g) : Dumpable g := by
  induction names generalizing f with
  | nil => exact Except.ok.inj hload ▸ h
  | cons name names ih =>
      obtain ⟨hname, hnames⟩ := List.forall_mem_cons.mp hcont
      rw [loadAll] at hload
      split at hload
      · cases hload
      · rename_i r hr
        have hzero : r = (r.1, 0) := Prod.ext rfl (load_eq_ok.mp hr).2
        rw [hzero] at hr
        exact ih hnames (dumpable_load h hname hr) hload

/-- **Loaded files come back from the dump**: whatever files were loaded one after the other, if in
none of them an entry is continued on the next line, the dump of what was loaded, loaded again,
gives each key the same value in its section. -/
theorem reload_loadAll {disk : Str → Option Str} {names : List Str} {f : IniFile}
    (hcont : ∀ name ∈ names, NoneContinued disk name) (hload : loadAll disk .new names = .ok f)
    (fileName : Str) :
    ∃ st, load (fun _ => some f.toString) .new fileName = .ok (st, 0) ∧
      ∀ key defaultValue s, st.ini.get key defaultValue s = f.get key defaultValue s :=
  reload_dump (dumpable_loadAll hcont dumpable_new hload) fileName

/-- The files of the example: two sections, the second of which is in both. -/
def siteFiles (name : Str) : Option Str :=
  if name = "x".toList then some "a=1\n# c\n[s]\nb = 2".toList else some "[s]\nb=3\nc=4".toList

/-- Two files, loaded one after the other. -/
theorem reload_loadAll_two : ∃ f, loadAll siteFiles .new ["x".toList, "y".toList] = .ok f ∧
    ∃ st, load (fun _ => some f.toString) .new [] = .ok (st, 0) ∧
      ∀ key defaultValue s, st.ini.get key defaultValue s = f.get key defaultValue s := by
  have hcont : ∀ name ∈ ["x".toList, "y".toList], NoneContinued siteFiles name := by
    intro name hname text htext
    fin_cases hname
    · obtain rfl := Option.some.inj htext
      rw [readLines_of_short (by decide)]
      intro l hl
      fin_cases hl <;> exact nofun
    · obtain rfl := Option.some.inj htext
      rw [readLines_of_short (by decide)]
      intro l hl
      fin_cases hl <;> exact nofun
  obtain ⟨st₁, hst₁⟩ : ∃ st, load siteFiles .new "x".toList = .ok (st, 0) := by
    refine exists_load rfl (by decide) fun e he => ?_
    fin_cases he
    · exact fun _ => ⟨⟨'a', by decide, rfl⟩, ⟨'1', by decide, rfl⟩⟩
    · exact fun _ => ⟨⟨'b', by decide, rfl⟩, ⟨'2', by decide, rfl⟩⟩
  obtain ⟨st₂, hst₂⟩ : ∃ st, load siteFiles st₁.ini "y".toList = .ok (st, 0) := by
    refine exists_load rfl (by decide) fun e he => ?_
    fin_cases he
    · exact fun _ => ⟨⟨'b', by decide, rfl⟩, ⟨'3', by decide, rfl⟩⟩
    · exact fun _ => ⟨⟨'c', by decide, rfl⟩, ⟨'4', by decide, rfl⟩⟩
  have hload : loadAll siteFiles .new ["x".toList, "y".toList] = .ok st₂.ini := by
    simp only [loadAll, hst₁, hst₂]
  exact ⟨st₂.ini, hload, reload_loadAll hcont hload []⟩

end VulcanDB.Common
