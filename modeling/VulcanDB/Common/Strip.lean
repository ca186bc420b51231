import VulcanDB.Common.IniFile
import VulcanDB.Library.Block
import VulcanDB.Library.Steps
import VulcanDB.Library.Trim

/-!
# Common — Stripping

The two functions that take the white space off the ends of a string, on the cells behind a pointer
and on a `std::string`.

* `stripPtr_store`: the first stays within the string and its terminator.
* `stripString_core`, `stripString_blank`: the second does unless nothing is left.
* `strip_safe_iff`: when both do the same, and when an entry is inserted.

The message for an argument that is empty is left out.
-/

namespace VulcanDB.Common

open Cxx Trim Steps

/-- `isspace`, in the C locale. -/
def isspace (c : Char) : Bool :=
  c == ' ' || c == '\t' || c == '\n' || c == '\x0b' || c == '\x0c' || c == '\r'

/-! ### `char *strip(char *)` -/

/-- `while (isspace(*head)) ++head;`: how far the head goes. -/
def skipCells : List (Option Char) → Option ℕ
  | some c :: cells => if isspace c then (skipCells cells).map (· + 1) else some 0
  | _ => none

/-- `while (isspace(*last) && last != str_) --last;` -/
def lastCell (str : Block Char) : ℕ → Option ℕ
  | 0 => (str.read 0).map fun _ => 0
  | last + 1 => do
    if isspace (← str.read (last + 1)) then lastCell str last else return last + 1

/-- The string behind the pointer, and how far in it the head is. -/
def stripPtr (str : Block Char) : Option (Block Char × ℕ) :=
  if str = .null then some (str, 0)
  else do
    if (← str.read 0) = terminator then return (str, 0)
    let head ← skipCells str.cells
    let last ← lastCell str ((← cString str.cells).length - 1)
    return (← str.write (last + 1) terminator, head)

theorem isspace_terminator : isspace terminator = false := rfl

/-- The loop over the space at the start. -/
theorem skipCells_append {a : Str} (h : ∀ c ∈ a, isspace c = true) {c : Char}
    (hc : isspace c = false) (cells : List (Option Char)) :
    skipCells (a.map some ++ some c :: cells) = some a.length := by
  induction a with
  | nil => simp [skipCells, hc]
  | cons d a ih =>
      obtain ⟨hd, ha⟩ := List.forall_mem_cons.mp h
      rw [List.map_cons, List.cons_append, skipCells, if_pos hd, ih ha]
      rfl

/-- The loop over the space at the end stops at a character. -/
theorem lastCell_stop {str : Block Char} {k : ℕ} {c : Char} (h : str.read k = some c)
    (hc : isspace c = false) : lastCell str k = some k := by
  cases k with
  | zero => rw [lastCell, h, Option.map_some]
  | succ k => simp [lastCell, h, hc]

theorem lastCell_back {str : Block Char} {k : ℕ} {r : Option ℕ} (h : lastCell str k = r) (n : ℕ)
    (hs : ∀ j, k < j → j ≤ k + n → ∃ c, str.read j = some c ∧ isspace c = true) :
    lastCell str (k + n) = r := by
  induction n with
  | zero => exact h
  | succ n ih =>
      obtain ⟨c, hread, hc⟩ := hs (k + n + 1) (by omega) le_rfl
      rw [← Nat.add_assoc, lastCell, hread]
      simp only [Option.bind_eq_bind, Option.bind_some, if_pos hc]
      exact ih fun j hj hle => hs j hj (by omega)

theorem begins_store (s : Str) (rest : List (Option Char)) :
    (⟨store s ++ rest⟩ : Block Char).Begins s := by
  rw [Block.Begins, store, List.append_assoc]
  exact List.prefix_append _ _

/-- The terminator put behind a part of a string ends that part. -/
theorem set_store (a m b : Str) (rest : List (Option Char)) : ∃ cells,
    (store (a ++ m ++ b) ++ rest).set (a.length + m.length) (some terminator) =
      a.map some ++ (store m ++ cells) := by
  obtain ⟨x, cells, hb⟩ : ∃ x cells, store b ++ rest = x :: cells := by
    cases b with
    | nil => exact ⟨_, _, rfl⟩
    | cons x b => exact ⟨_, _, rfl⟩
  have hcells : store (a ++ m ++ b) ++ rest = (a ++ m).map some ++ x :: cells := by
    rw [← hb]
    simp [store]
  refine ⟨cells, ?_⟩
  rw [hcells, ← List.length_append, ← List.length_map some, List.set_append_right _ _ le_rfl,
    Nat.sub_self, List.set_cons_zero]
  simp [store]

section Store

variable {s : Str} (hs : terminator ∉ s) (rest : List (Option Char))

include hs

/-- What is done to a string that is not empty. -/
theorem stripPtr_eq (hne : s ≠ []) {head last : ℕ} (hhead : skipCells (store s ++ rest) = some head)
    (hlast : lastCell ⟨store s ++ rest⟩ (s.length - 1) = some last) (hroom : last < s.length) :
    stripPtr ⟨store s ++ rest⟩ =
      some (⟨(store s ++ rest).set (last + 1) (some terminator)⟩, head) := by
  obtain ⟨c, t, rfl⟩ := List.exists_cons_of_ne_nil hne
  have hc : c ≠ terminator := fun h => hs (by simp [h])
  have hread : (⟨store (c :: t) ++ rest⟩ : Block Char).read 0 = some c :=
    (begins_store (c :: t) rest).read rfl
  have hnull : (⟨store (c :: t) ++ rest⟩ : Block Char) ≠ .null := by
    intro h
    cases h
  have hlt : last + 1 < (store (c :: t) ++ rest).length := by
    rw [List.length_append, length_store]
    omega
  rw [stripPtr, if_neg hnull, hread]
  simp only [Option.bind_eq_bind, Option.bind_some, if_neg hc, hhead, cString_store hs, hlast,
    Block.write, if_pos hlt]
  rfl

/-- The last character of the core is the last that stays. -/
theorem stripPtr_core {a m b : Str} (hcore : Core isspace a m b) (heq : s = a ++ m ++ b) :
    ∃ str head, stripPtr ⟨store s ++ rest⟩ = some (str, head) ∧
      cString (str.cells.drop head) = some m := by
  subst heq
  have hbegins := begins_store (a ++ m ++ b) rest
  have hpos := hcore.length_pos
  have hlen : (a ++ m ++ b).length = a.length + m.length + b.length := by
    rw [List.length_append, List.length_append]
  obtain ⟨c, m', hm, hc⟩ := hcore.first
  obtain ⟨d, hd, hspace⟩ := hcore.getElem?_last
  have hskip : skipCells (store (a ++ m ++ b) ++ rest) = some a.length := by
    have hcells : store (a ++ m ++ b) ++ rest = a.map some ++ some c ::
        (m'.map some ++ (store b ++ rest)) := by simp [store, hm]
    rw [hcells]
    exact skipCells_append hcore.before hc _
  have hstop : lastCell ⟨store (a ++ m ++ b) ++ rest⟩ (a.length + (m.length - 1)) =
      some (a.length + (m.length - 1)) := lastCell_stop (hbegins.read hd) hspace
  -- from the end back to the last character that is kept
  have hlast : lastCell ⟨store (a ++ m ++ b) ++ rest⟩ ((a ++ m ++ b).length - 1) =
      some (a.length + (m.length - 1)) := by
    have hend : (a ++ m ++ b).length - 1 = a.length + (m.length - 1) + b.length := by omega
    rw [hend]
    refine lastCell_back hstop b.length fun j hj hle => ?_
    obtain ⟨e, he, hblank⟩ := hcore.getElem?_after (j := j) (by omega) (by omega)
    exact ⟨e, hbegins.read he, hblank⟩
  refine ⟨_, _, stripPtr_eq hs rest (by simp [hm]) hskip hlast (by omega), ?_⟩
  have hput : a.length + (m.length - 1) + 1 = a.length + m.length := by omega
  obtain ⟨cells, hset⟩ := set_store a m b rest
  rw [hput]
  simp only [hset]
  rw [List.drop_left' (by rw [List.length_map])]
  exact cString_store (fun h => hs (by simp [h])) cells

/-- A text of space only is left empty. -/
theorem stripPtr_blank (hne : s ≠ []) (hblank : ∀ c ∈ s, isspace c = true) :
    ∃ str head, stripPtr ⟨store s ++ rest⟩ = some (str, head) ∧
      cString (str.cells.drop head) = some [] := by
  have hlen := List.length_pos_iff.mpr hne
  have hbegins := begins_store s rest
  have hskip : skipCells (store s ++ rest) = some s.length := by
    rw [store, List.append_assoc]
    exact skipCells_append hblank isspace_terminator rest
  have hstop : lastCell ⟨store s ++ rest⟩ 0 = some 0 := by
    rw [lastCell, hbegins.read (List.getElem?_eq_getElem hlen), Option.map_some]
  have hlast : lastCell ⟨store s ++ rest⟩ (s.length - 1) = some 0 := by
    have hback := lastCell_back hstop (s.length - 1) fun j hj hle => by
      have hj' : j < s.length := by omega
      exact ⟨s[j], hbegins.read (List.getElem?_eq_getElem hj'), hblank _ (List.getElem_mem hj')⟩
    rwa [Nat.zero_add] at hback
  refine ⟨_, _, stripPtr_eq hs rest hne hskip hlast hlen, ?_⟩
  have hlt : s.length < ((store s ++ rest).set (0 + 1) (some terminator)).length := by
    rw [List.length_set, List.length_append, length_store]
    omega
  have hget : ((store s ++ rest).set (0 + 1) (some terminator))[s.length] = some terminator := by
    rw [List.getElem_set]
    split
    · rfl
    · simp [store]
  show cString (((store s ++ rest).set (0 + 1) (some terminator)).drop s.length) = some []
  rw [List.drop_eq_getElem_cons hlt, hget]
  rfl

/-- **`strip` on a pointer** stays within the string and its terminator, and gives the string
without the white space at its ends. -/
theorem stripPtr_store : ∃ str head, stripPtr ⟨store s ++ rest⟩ = some (str, head) ∧
    cString (str.cells.drop head) = some (trim isspace s) := by
  by_cases htext : HasText isspace s
  · obtain ⟨a, m, b, heq, hcore⟩ := exists_core htext
    have htrim : trim isspace s = m := by rw [heq, hcore.trim]
    rw [htrim]
    exact stripPtr_core hs rest hcore heq
  · rw [trim_of_not_hasText htext]
    by_cases hne : s = []
    · subst hne
      exact ⟨⟨store [] ++ rest⟩, 0, rfl, rfl⟩
    · exact stripPtr_blank hs rest hne (not_hasText_iff.mp htext)

end Store

/-! ### `void strip(std::string &)` -/

/-- `while (isspace(str[tail]) && tail != head) --tail;` -/
def tailFrom (str : Str) (head : ℕ) : ℕ → Except Fault ℕ
  | 0 => do
    -- below 0 the next index is `2^64 - 1`
    if isspace (← charAt str 0) && head != 0 then .error .badIndex else return 0
  | tail + 1 => do
    if isspace (← charAt str (tail + 1)) && head != tail + 1 then tailFrom str head tail
    else return tail + 1

/-- The head stops at the terminator at last.  The size of an empty string less 1 is `2^64 - 1`. -/
def stripString (str : Str) : Except Fault Str :=
  let head := (str.takeWhile isspace).length
  match str.length with
  | 0 => .error .badIndex
  | n + 1 => do
    let tail ← tailFrom str head n
    substr str head (tail - head + 1)

/-- The index from the end stops at a character. -/
theorem tailFrom_stop {s : Str} {head k : ℕ} {c : Char} (h : s[k]? = some c)
    (hc : isspace c = false) : tailFrom s head k = .ok k := by
  cases k with
  | zero =>
      have hchar : charAt s 0 = .ok c := charAt_of_getElem? h
      simp [tailFrom, hchar, hc, bind, Except.bind, pure, Except.pure]
  | succ k =>
      have hchar : charAt s (k + 1) = .ok c := charAt_of_getElem? h
      simp [tailFrom, hchar, hc, bind, Except.bind, pure, Except.pure]

theorem tailFrom_back {s : Str} {head k : ℕ} {r : Except Fault ℕ} (h : tailFrom s head k = r) (n : ℕ)
    (hs : ∀ j, k < j → j ≤ k + n → head ≠ j ∧ ∃ c, s[j]? = some c ∧ isspace c = true) :
    tailFrom s head (k + n) = r := by
  induction n with
  | zero => exact h
  | succ n ih =>
      obtain ⟨hne, c, hget, hc⟩ := hs (k + n + 1) (by omega) le_rfl
      have hchar : charAt s (((k + n : ℕ) : ℤ) + 1) = .ok c := charAt_of_getElem? hget
      have hstep : tailFrom s head (k + n + 1) = tailFrom s head (k + n) := by
        rw [tailFrom, hchar]
        simp [bind, Except.bind, hc, hne]
      rw [← Nat.add_assoc, hstep]
      exact ih fun j hj hle => hs j hj (by omega)

/-- **`strip` on a string** with a character that is no white space gives the core. -/
theorem stripString_core {a m b : Str} (hcore : Core isspace a m b) :
    stripString (a ++ m ++ b) = .ok m := by
  have hpos := hcore.length_pos
  obtain ⟨c, m', hm, hc⟩ := hcore.first
  obtain ⟨d, hd, hspace⟩ := hcore.getElem?_last
  have hhead : (a ++ m ++ b).takeWhile isspace = a := by
    rw [hm, List.append_assoc, List.cons_append]
    exact takeWhile_append_stop hcore.before hc
  have hlen : (a ++ m ++ b).length = a.length + (m.length - 1) + b.length + 1 := by
    rw [List.length_append, List.length_append]
    omega
  have hstop : tailFrom (a ++ m ++ b) a.length (a.length + (m.length - 1)) =
      .ok (a.length + (m.length - 1)) := tailFrom_stop hd hspace
  have htail : tailFrom (a ++ m ++ b) a.length (a.length + (m.length - 1) + b.length) =
      .ok (a.length + (m.length - 1)) := by
    refine tailFrom_back hstop b.length fun j hj hle => ⟨by omega, ?_⟩
    exact hcore.getElem?_after (by omega) (by omega)
  have hcount : ((a.length + (m.length - 1) : ℕ) : ℤ) - a.length + 1 = m.length := by omega
  rw [stripString, hlen]
  simp only [hhead, htail]
  show substr (a ++ m ++ b) a.length _ = .ok m
  rw [hcount]
  exact substr_append a m b

/-- A text of space only is indexed outside itself. -/
theorem stripString_blank {s : Str} (h : ∀ c ∈ s, isspace c = true) :
    stripString s = .error .badIndex := by
  cases s with
  | nil => rfl
  | cons c s =>
      have hhead : (c :: s).takeWhile isspace = c :: s := List.takeWhile_eq_self_iff.mpr h
      have hfirst : tailFrom (c :: s) (s.length + 1) 0 = .error .badIndex := by
        simp [tailFrom, h c List.mem_cons_self, bind, Except.bind]
      have htail : tailFrom (c :: s) (s.length + 1) s.length = .error .badIndex := by
        have hback := tailFrom_back hfirst s.length fun j hj hle => by
          have hj' : j < (c :: s).length := by
            rw [List.length_cons]
            omega
          exact ⟨by omega, (c :: s)[j], List.getElem?_eq_getElem hj', h _ (List.getElem_mem hj')⟩
        rwa [Nat.zero_add] at hback
      rw [stripString, hhead, List.length_cons]
      simp only [htail]
      rfl

/-- **`strip` of a string** returns exactly when there is text, and trims it. -/
theorem stripString_ok_iff {s r : Str} :
    stripString s = .ok r ↔ HasText isspace s ∧ r = trim isspace s := by
  by_cases h : HasText isspace s
  · obtain ⟨a, m, b, rfl, hcore⟩ := exists_core h
    rw [stripString_core hcore, hcore.trim, Except.ok.injEq, eq_comm]
    exact ⟨fun hr => ⟨h, hr⟩, fun hr => hr.2⟩
  · rw [stripString_blank (not_hasText_iff.mp h)]
    exact ⟨nofun, fun hr => absurd hr.1 h⟩

/-! ### Entries -/

/-- `insert_entry`: the map that the pointer points to, if it is not null, and what is returned. -/
def insertEntry (sessionMap : Option (StdMap Str Str)) (line : Str) :
    Except Fault (Option (StdMap Str Str) × ℤ) :=
  match sessionMap with
  | none => .ok (none, -1)
  | some m =>
    let equalPos := findFirstOf line '='
    if equalPos = -1 then .ok (some m, -1)
    else do
      let key ← substr line 0 equalPos
      let value ← substr line (equalPos + 1) (-1)
      let key ← stripString key
      let value ← stripString value
      return (some (m.insertNew key value), 0)

/-- Nothing is stripped that is white space only. -/
def SafeEntry (line : Str) : Prop :=
  '=' ∈ line → HasText isspace (before '=' line) ∧ HasText isspace (after '=' line)

theorem insertEntry_of_notMem {line : Str} (h : '=' ∉ line) (m : StdMap Str Str) :
    insertEntry (some m) line = .ok (some m, -1) := by
  simp only [insertEntry, findFirstOf_of_notMem h, if_true]

/-- Any other is cut there, and both parts are stripped. -/
theorem insertEntry_of_mem {line : Str} (h : '=' ∈ line) (m : StdMap Str Str) :
    insertEntry (some m) line = do
      let key ← stripString (before '=' line)
      let value ← stripString (after '=' line)
      return (some (m.insertNew key value), 0) := by
  obtain ⟨a, b, rfl, ha⟩ := List.eq_append_cons_of_mem h
  have hpos := findFirstOf_append (t := b) ha
  have hkey := substr_findFirstOf (a ++ '=' :: b) '='
  have hvalue : substr (a ++ '=' :: b) (a.length + 1) (-1) = .ok b := by
    rw [substr_ok _ (by omega) (by simp only [List.length_append, List.length_cons]; omega)]
    have hnat : ((a.length : ℤ) + 1).toNat = a.length + 1 := by omega
    rw [if_pos (by omega), hnat, ← List.drop_drop, List.drop_left]
    rfl
  rw [hpos] at hkey
  simp only [insertEntry, hpos, if_neg (show ¬ (a.length : ℤ) = -1 by omega), hkey, hvalue,
    after_append ha]
  rfl

/-- An entry whose parts have text is stored. -/
theorem insertEntry_safe {line : Str} (h : SafeEntry line) (hmem : '=' ∈ line)
    (m : StdMap Str Str) : insertEntry (some m) line = .ok
      (some (m.insertNew (trim isspace (before '=' line)) (trim isspace (after '=' line))), 0) := by
  obtain ⟨hkey, hvalue⟩ := h hmem
  rw [insertEntry_of_mem hmem, stripString_ok_iff.mpr ⟨hkey, rfl⟩,
    stripString_ok_iff.mpr ⟨hvalue, rfl⟩]
  rfl

/-- **`insert_entry`** returns exactly on such entries. -/
theorem insertEntry_ok_iff {line : Str} {m : StdMap Str Str} :
    (∃ r, insertEntry (some m) line = .ok r) ↔ SafeEntry line := by
  by_cases hmem : '=' ∈ line
  · refine ⟨fun ⟨r, hr⟩ _ => ?_, fun h => ⟨_, insertEntry_safe h hmem m⟩⟩
    rw [insertEntry_of_mem hmem] at hr
    cases hkey : stripString (before '=' line) with
    | error e =>
        rw [hkey] at hr
        cases hr
    | ok key =>
        rw [hkey] at hr
        cases hvalue : stripString (after '=' line) with
        | error e =>
            rw [show (Except.ok key >>= _) = _ from rfl, hvalue] at hr
            cases hr
        | ok value => exact ⟨(stripString_ok_iff.mp hkey).1, (stripString_ok_iff.mp hvalue).1⟩
  · exact ⟨fun _ h => absurd h hmem, fun _ => ⟨_, insertEntry_of_notMem hmem m⟩⟩

theorem stripString_eq_error {s : Str} {e : Fault} (h : stripString s = .error e) :
    e = .badIndex := by
  by_cases htext : HasText isspace s
  · cases (stripString_ok_iff.mpr ⟨htext, rfl⟩).symm.trans h
  · exact Except.error.inj (h.symm.trans (stripString_blank (not_hasText_iff.mp htext)))

theorem insertEntry_eq_error {m : Option (StdMap Str Str)} {line : Str} {e : Fault}
    (h : insertEntry m line = .error e) : e = .badIndex := by
  cases m with
  | none => cases h
  | some m =>
      by_cases hmem : '=' ∈ line
      · rw [insertEntry_of_mem hmem, bind_eq_error] at h
        rcases h with h | ⟨key, -, h⟩
        · exact stripString_eq_error h
        · rw [bind_eq_error] at h
          rcases h with h | ⟨value, -, h⟩
          · exact stripString_eq_error h
          · cases h
      · rw [insertEntry_of_notMem hmem] at h
        cases h

/-! ### Both functions -/

/-- Both functions give the string without the white space at its ends, read no character outside
of it, and change what they give no more. -/
structure Strips (s : Str) : Prop where
  string : stripString s = .ok (trim isspace s)
  ptr : ∃ str head, stripPtr ⟨store s⟩ = some (str, head) ∧
    cString (str.cells.drop head) = some (trim isspace s)
  again : stripString (trim isspace s) = .ok (trim isspace s) ∧
    ∃ str head, stripPtr ⟨store (trim isspace s)⟩ = some (str, head) ∧
      cString (str.cells.drop head) = some (trim isspace s)

theorem stripPtr_trim {s : Str} (h : terminator ∉ s) :
    ∃ str head, stripPtr ⟨store s⟩ = some (str, head) ∧
      cString (str.cells.drop head) = some (trim isspace s) := by
  have hspec := stripPtr_store h []
  rwa [List.append_nil] at hspec

/-- **Main result.**  Of a string both functions give the same if and only if not all of it is white
space, and an entry is inserted if and only if neither its key nor its value is white space only. -/
theorem strip_safe_iff {s : Str} (hs : terminator ∉ s) (m : StdMap Str Str) (line : Str) :
    (Strips s ↔ HasText isspace s) ∧
      ((∃ r, insertEntry (some m) line = .ok r) ↔ SafeEntry line) := by
  refine ⟨⟨fun h => (stripString_ok_iff.mp h.string).1, fun h => ?_⟩, insertEntry_ok_iff⟩
  have htrim : terminator ∉ trim isspace s := fun hmem => hs (mem_of_mem_trim hmem)
  have hagain := stripPtr_trim htrim
  rw [trim_trim] at hagain
  exact ⟨stripString_ok_iff.mpr ⟨h, rfl⟩, stripPtr_trim hs,
    stripString_ok_iff.mpr ⟨hasText_trim h, (trim_trim s).symm⟩, hagain⟩

/-- A string with white space on both sides, and an entry with a key and a value. -/
theorem strip_safe_both : Strips " a ".toList ∧
    ∃ r, insertEntry (some ∅) "k = v".toList = .ok r := by
  obtain ⟨hstrip, hinsert⟩ :=
    strip_safe_iff (s := " a ".toList) (by decide) ∅ "k = v".toList
  exact ⟨hstrip.mpr ⟨'a', by decide, rfl⟩,
    hinsert.mpr fun _ => ⟨⟨'k', by decide, rfl⟩, ⟨'v', by decide, rfl⟩⟩⟩

/-- An entry without a value. -/
theorem not_always_strip : ¬ Strips [] ∧
    insertEntry (some ∅) "key=".toList = .error .badIndex := by
  refine ⟨fun h => ?_, rfl⟩
  cases h.string

end VulcanDB.Common
