import VulcanDB.Common.Replace
import VulcanDB.Library.Stream

/-!
# Common — Converting newlines

`replace_win_newlines_to_unix` writes the lines of a file to a temporary one, without carriage
returns, removes the file, and copies the temporary one to the destination.  What the file system
grants is a parameter.

* `convert_eq`: the lines that are written.
* `newlines_kept_iff`: when the lines are in the destination, or the source is as it was.
-/

namespace VulcanDB.Common

open Cxx Occurrence

/-! ### The file system -/

/-- The files, and what the calls to come are granted. -/
structure FileSystem (Path : Type) where
  files : Path → Option Str
  /-- The file that a name names. -/
  locate : Str → Path
  /-- It can be opened for reading and writing. -/
  opens : Path → Bool
  /-- A temporary directory, a file in it, and the characters that can be written to that. -/
  tempDirectory : Bool
  tempFile : Bool
  tempRoom : ℕ
  removable : Path → Bool
  /-- It can be created, and the characters that can be copied. -/
  creatable : Path → Bool
  copyRoom : ℕ

variable {Path : Type} [DecidableEq Path]

namespace FileSystem

/-- A file with its content, or none. -/
def set (d : FileSystem Path) (p : Path) (content : Option Str) : FileSystem Path :=
  { d with files := Function.update d.files p content }

/-- `std::filesystem::remove`, with nothing where it throws. -/
def remove (d : FileSystem Path) (p : Path) : Option (FileSystem Path) :=
  if (d.files p).isSome && !d.removable p then none else some (d.set p none)

/-- `std::filesystem::copy` of the temporary file, with what is there where it throws. -/
def copy (d : FileSystem Path) (tmpFile : Option Str) (p : Path) : FileSystem Path :=
  match tmpFile with
  | none => d
  | some content =>
    if (d.files p).isSome then d
    else if d.creatable p then d.set p (some (content.take d.copyRoom))
    else d

@[simp] theorem set_self (d : FileSystem Path) (p : Path) (content : Option Str) :
    (d.set p content).files p = content := Function.update_self ..

theorem set_of_ne (d : FileSystem Path) {p q : Path} (h : q ≠ p) (content : Option Str) :
    (d.set p content).files q = d.files q := Function.update_of_ne h ..

/-- `copy_file` does not write over a file. -/
theorem copy_of_isSome {d : FileSystem Path} {p : Path} (h : (d.files p).isSome)
    (tmpFile : Option Str) : d.copy tmpFile p = d := by
  cases tmpFile with
  | none => rfl
  | some content => rw [copy, if_pos h]

theorem copy_of_none {d : FileSystem Path} {p : Path} (h : d.files p = none) (content : Str) :
    d.copy (some content) p =
      if d.creatable p then d.set p (some (content.take d.copyRoom)) else d := by
  rw [copy, if_neg (by simp [h])]

end FileSystem

/-! ### The code -/

/-- The loop over the lines: what is written to the temporary file. -/
def convert (text : Str) : Option Str := do
  let lines ← (getlines '\n' text).mapM fun line => subreplace (line.length + 1) line ['\r'] []
  return terminated '\n' lines

/-- The name that an empty one stands for. -/
def destination (file newFile : Str) : Str := if newFile = [] then file else newFile

def replaceWinNewlinesToUnix (d : FileSystem Path) (file newFile : Str) :
    Option (FileSystem Path) :=
  let newFile := destination file newFile
  let fs := if d.opens (d.locate file) then (d.files (d.locate file)).getD [] else []
  if !d.tempDirectory then some d
  else (convert fs).map fun lines =>
    let tmpFile := if d.tempFile then some (lines.take d.tempRoom) else none
    match d.remove (d.locate file) with
    | none => d
    | some d => d.copy tmpFile (d.locate newFile)

/-! ### The lines -/

/-- The lines of the text without carriage returns. -/
def unixLines (text : Str) : List Str := (getlines '\n' text).map (·.filter (· != '\r'))

/-- A character is removed from a string. -/
theorem subreplaceLoop_char (c : Char) : ∀ {fuel : ℕ} {s : Str}, s.length < fuel →
    subreplaceLoop [c] [] fuel s = some (s.filter (· != c)) := by
  intro fuel
  induction fuel with
  | zero => exact fun h => absurd h (Nat.not_lt_zero _)
  | succ fuel ih =>
      intro s hs
      rcases cases_first [c] s with ⟨hfind, hnot⟩ | ⟨a, b, rfl, -, hfind⟩
      · have hmem : c ∉ s := fun h => hnot ((List.singleton_infix_iff c s).mpr h)
        rw [subreplaceLoop, hfind]
        exact congrArg some (List.filter_eq_self.mpr (ne_of_notMem hmem)).symm
      · rw [subreplaceLoop, hfind]
        simp only [replaceAt_append]
        have hlen : (a ++ [] ++ b).length < fuel := by
          simp only [List.length_append, List.length_singleton, List.length_nil] at hs ⊢
          omega
        rw [ih hlen]
        simp

/-- The lines that are written end with a newline each. -/
theorem convert_eq (text : Str) : convert text = some (terminated '\n' (unixLines text)) := by
  have hline : ∀ line : Str,
      subreplace (line.length + 1) line ['\r'] [] = pure (line.filter (· != '\r')) :=
    fun line => subreplaceLoop_char '\r' (Nat.lt_succ_self _)
  rw [convert, funext hline, List.mapM_pure]
  rfl

theorem notMem_unixLines {text l : Str} (h : l ∈ unixLines text) : '\n' ∉ l := by
  obtain ⟨m, hm, rfl⟩ := List.mem_map.mp h
  exact fun hmem => notMem_of_mem_getlines hm (List.mem_of_mem_filter hmem)

theorem unixLines_eq_nil {text : Str} : unixLines text = [] ↔ text = [] := by
  rw [unixLines, List.map_eq_nil_iff, getlines_eq_nil]

theorem notMem_terminated (text : Str) : '\r' ∉ terminated '\n' (unixLines text) := by
  intro h
  obtain ⟨l, hl, hmem⟩ := List.mem_flatMap.mp h
  obtain ⟨m, -, rfl⟩ := List.mem_map.mp hl
  rcases List.mem_append.mp hmem with hfilter | hnewline
  · cases (List.mem_filter.mp hfilter).2
  · cases List.mem_singleton.mp hnewline

/-- A text without carriage returns has its own lines. -/
theorem unixLines_of_notMem {text : Str} (h : '\r' ∉ text) :
    unixLines text = getlines '\n' text := by
  have hline : ∀ l ∈ getlines '\n' text, l.filter (· != '\r') = l := fun l hl =>
    List.filter_eq_self.mpr (ne_of_notMem fun hmem => h (mem_of_mem_getlines hl hmem))
  rw [unixLines, List.map_congr_left hline, List.map_id']

/-- The lines fit into `k` characters, at least without the last newline. -/
def Fits (lines : List Str) (k : ℕ) : Prop := (terminated '\n' lines).length ≤ k ∨
  (terminated '\n' lines).length = k + 1 ∧ lines.getLast? ≠ some []

/-- Of a file that could not be opened nothing is written. -/
theorem getlines_written_iff (opens : Bool) (text : Str) (k : ℕ) :
    getlines '\n' ((terminated '\n' (unixLines (if opens then text else []))).take k) =
      unixLines text ↔ (opens = true ∨ text = []) ∧ Fits (unixLines text) k := by
  cases opens with
  | true =>
      rw [if_pos rfl, getlines_take_terminated_iff fun l => notMem_unixLines]
      exact ⟨fun h => ⟨.inl rfl, h⟩, fun h => h.2⟩
  | false =>
      have hnil : (terminated '\n' (unixLines [])).take k = [] := List.take_nil
      rw [if_neg nofun, hnil, getlines_nil, eq_comm, unixLines_eq_nil]
      constructor
      · rintro rfl
        exact ⟨.inr rfl, .inl (Nat.zero_le k)⟩
      · rintro ⟨h | h, -⟩
        · cases h
        · exact h

/-! ### Whether the lines are kept -/

/-- The file has the lines of the text, without carriage returns. -/
def Holds (file : Option Str) (text : Str) : Prop :=
  ∃ content, file = some content ∧ getlines '\n' content = unixLines text

/-- The destination has the lines, or the source is as it was. -/
def KeepsLines (d : FileSystem Path) (file newFile text : Str) : Prop :=
  ∃ d', replaceWinNewlinesToUnix d file newFile = some d' ∧
    (Holds (d'.files (d.locate (destination file newFile))) text ∨
      d'.files (d.locate file) = some text)

section Source

variable {d : FileSystem Path} {file newFile text : Str}
  (hsource : d.files (d.locate file) = some text)

include hsource

/-- Where an exception is thrown, nothing has changed. -/
theorem keepsLines_of_thrown
    (h : d.tempDirectory = false ∨ d.removable (d.locate file) = false) :
    KeepsLines d file newFile text := by
  refine ⟨d, ?_, .inr hsource⟩
  rw [replaceWinNewlinesToUnix]
  rcases h with hdir | hremove
  · rw [hdir]
    rfl
  · cases d.tempDirectory with
    | false => rfl
    | true =>
        simp only [convert_eq, FileSystem.remove, hsource, hremove]
        rfl

/-- The source is removed before the copy. -/
theorem replaceWin_eq (hdir : d.tempDirectory = true)
    (hremove : d.removable (d.locate file) = true) :
    replaceWinNewlinesToUnix d file newFile = some ((d.set (d.locate file) none).copy
      (if d.tempFile then some ((terminated '\n' (unixLines
        (if d.opens (d.locate file) then text else []))).take d.tempRoom) else none)
      (d.locate (destination file newFile))) := by
  rw [replaceWinNewlinesToUnix]
  simp only [hdir, convert_eq, FileSystem.remove, hsource, hremove]
  rfl

end Source

omit [DecidableEq Path] in
/-- The source has been removed, and the destination does not hold the lines. -/
theorem lost {d : FileSystem Path} {src dst : Path} (hsrc : d.files src = none)
    {text : Str} (hdst : ¬ Holds (d.files dst) text) :
    ¬ (Holds (d.files dst) text ∨ d.files src = some text) := by
  rintro (h | h)
  · exact hdst h
  · cases hsrc.symm.trans h

theorem not_holds_none (text : Str) : ¬ Holds none text := fun ⟨_, h, _⟩ => nomatch h

/-- What is copied is the source as it was only if it is its lines. -/
theorem copied_iff {d : FileSystem Path} {src dst : Path} (hsrc : d.files src = none)
    {text content : Str} (hcontent : '\r' ∉ content) :
    (Holds ((d.set dst (some content)).files dst) text ∨
      (d.set dst (some content)).files src = some text) ↔
        getlines '\n' content = unixLines text := by
  rw [FileSystem.set_self]
  constructor
  · rintro (⟨c, hc, hlines⟩ | hsame)
    · rwa [Option.some.inj hc]
    · by_cases hne : src = dst
      · rw [hne, FileSystem.set_self] at hsame
        rw [← Option.some.inj hsame, unixLines_of_notMem hcontent]
      · rw [FileSystem.set_of_ne d hne, hsrc] at hsame
        cases hsame
  · exact fun hlines => .inl ⟨content, rfl, hlines⟩

/-- The copy to a name that is free. -/
theorem copy_free_iff {d : FileSystem Path} {src dst : Path} (hsrc : d.files src = none)
    (hdst : d.files dst = none) (opens : Bool) (text : Str) :
    let d' := d.copy (if d.tempFile then some ((terminated '\n' (unixLines
      (if opens then text else []))).take d.tempRoom) else none) dst
    Holds (d'.files dst) text ∨ d'.files src = some text ↔
      d.creatable dst = true ∧ d.tempFile = true ∧ (opens = true ∨ text = []) ∧
        Fits (unixLines text) (min d.copyRoom d.tempRoom) := by
  have hlost : ¬ (Holds (d.files dst) text ∨ d.files src = some text) :=
    lost hsrc (hdst ▸ not_holds_none text)
  cases htemp : d.tempFile with
  | false => exact ⟨fun h => absurd h hlost, fun h => nomatch h.2.1⟩
  | true =>
      simp only [if_true]
      rw [FileSystem.copy_of_none hdst]
      cases hcreate : d.creatable dst with
      | false => exact ⟨fun h => absurd h hlost, fun h => nomatch h.1⟩
      | true =>
          have hnot : ∀ k, '\r' ∉
              (terminated '\n' (unixLines (if opens then text else []))).take k :=
            fun k h => notMem_terminated _ (List.mem_of_mem_take h)
          rw [if_pos rfl, List.take_take, copied_iff hsrc (hnot _), getlines_written_iff]
          exact ⟨fun h => ⟨rfl, trivial, h⟩, fun h => h.2.2⟩

/-- **Main result.**  The lines are kept if and only if nothing is removed (no temporary directory
can be made, or the source cannot be removed), another file at the destination holds them already,
or the destination is free, all is granted, and there is room. -/
theorem newlines_kept_iff {d : FileSystem Path} {file newFile text : Str}
    (hsource : d.files (d.locate file) = some text) :
    KeepsLines d file newFile text ↔
      (d.tempDirectory = false ∨ d.removable (d.locate file) = false) ∨
      (d.locate (destination file newFile) ≠ d.locate file ∧
        Holds (d.files (d.locate (destination file newFile))) text) ∨
      ((d.locate (destination file newFile) = d.locate file ∨
          d.files (d.locate (destination file newFile)) = none) ∧
        d.creatable (d.locate (destination file newFile)) = true ∧ d.tempFile = true ∧
        (d.opens (d.locate file) = true ∨ text = []) ∧
        Fits (unixLines text) (min d.copyRoom d.tempRoom)) := by
  by_cases hthrown : d.tempDirectory = false ∨ d.removable (d.locate file) = false
  · exact ⟨fun _ => .inl hthrown, fun _ => keepsLines_of_thrown hsource hthrown⟩
  rw [or_iff_right hthrown]
  rw [not_or, Bool.not_eq_false, Bool.not_eq_false] at hthrown
  rw [KeepsLines, replaceWin_eq hsource hthrown.1 hthrown.2]
  simp only [Option.some.injEq, exists_eq_left']
  generalize d.locate file = src at *
  generalize d.locate (destination file newFile) = dst
  have hgone : (d.set src none).files src = none := d.set_self src none
  -- the destination has to be free when the source has been removed
  by_cases hfree : dst = src ∨ d.files dst = none
  · have hnone : (d.set src none).files dst = none := by
      by_cases hsame : dst = src
      · rw [hsame, hgone]
      · rw [d.set_of_ne hsame, hfree.resolve_left hsame]
    have hnot : ¬ (dst ≠ src ∧ Holds (d.files dst) text) := fun ⟨hne, h⟩ =>
      not_holds_none text (hfree.resolve_left hne ▸ h)
    rw [or_iff_right hnot, and_iff_right hfree]
    exact copy_free_iff hgone hnone _ text
  · rw [not_or] at hfree
    have hold : (d.set src none).files dst = d.files dst := d.set_of_ne hfree.1 none
    have hsome : ((d.set src none).files dst).isSome := by
      rw [hold]
      exact Option.isSome_iff_ne_none.mpr hfree.2
    rw [FileSystem.copy_of_isSome hsome, hold, hgone]
    constructor
    · rintro (h | h)
      · exact .inl ⟨hfree.1, h⟩
      · cases h
    · rintro (⟨-, h⟩ | ⟨hor, -⟩)
      · exact .inl h
      · exact absurd hor (not_or.mpr hfree)

/-- Two files, and all that is asked for is granted. -/
def twoFiles (source old : Option Str) : FileSystem Bool where
  files b := if b then source else old
  locate name := name == "a".toList
  opens _ := true
  tempDirectory := true
  tempFile := true
  tempRoom := 100
  removable _ := true
  creatable _ := true
  copyRoom := 100

/-- A line that ends with a carriage return, converted in its place. -/
theorem newlines_kept_one :
    KeepsLines (twoFiles (some "x\r\n".toList) none) "a".toList [] "x\r\n".toList :=
  (newlines_kept_iff rfl).mpr (.inr (.inr
    ⟨.inl rfl, rfl, rfl, .inl rfl, .inl (show List.length _ ≤ _ by decide)⟩))

/-- A destination that is there. -/
theorem newlines_not_always_kept : ¬ KeepsLines
    (twoFiles (some "x\r\n".toList) (some "y\n".toList)) "a".toList "b".toList "x\r\n".toList := by
  rintro ⟨d', hrun, h⟩
  rw [replaceWin_eq (d := twoFiles (some "x\r\n".toList) (some "y\n".toList))
    rfl rfl rfl] at hrun
  obtain rfl := Option.some.inj hrun
  rcases h with ⟨content, hcontent, hlines⟩ | h
  · obtain rfl : "y\n".toList = content := Option.some.inj hcontent
    exact absurd hlines (by decide)
  · cases h

end VulcanDB.Common
