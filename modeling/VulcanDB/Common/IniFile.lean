import VulcanDB.Library.CxxString
import VulcanDB.Library.StdMap

/-!
# Common — Configurations

The sections of an `IniFile` and their entries.  `put` enters a pair with `insert`, which keeps an
entry that is already there.

* `find_put`: what a put changes.
* `get_run`: a get finds the first value that was put.
* `get_eq_last_iff`: when that is the last one.

The files that are loaded and the output of all sections are left out.
-/

namespace VulcanDB.Common

open Cxx

/-- `IniFile`, with its map of sections. -/
structure IniFile where
  sections : StdMap Str (StdMap Str Str)

namespace IniFile

/-- The empty map. -/
def new : IniFile := ⟨∅⟩

/-- `insert_session`: a new section, unless there is one of that name. -/
def insertSession (f : IniFile) (sessionName : Str) : IniFile :=
  ⟨f.sections.insertNew sessionName ∅⟩

/-- The map of a section, which is made if it is not there. -/
def switchSession (f : IniFile) (sessionName : Str) : IniFile × Option (StdMap Str Str) :=
  match f.sections.find sessionName with
  | some m => (f, some m)
  | none => (f.insertSession sessionName, (f.insertSession sessionName).sections.find sessionName)

/-- The section of a name, empty if there is none. -/
def getSection (f : IniFile) (section' : Str) : StdMap Str Str :=
  (f.sections.find section').getD ∅

/-- `get`: the value of a key, or what is given besides. -/
def get (f : IniFile) (key defaultValue section' : Str) : Str :=
  ((f.getSection section').find key).getD defaultValue

/-- `put`, which writes through the pointer that `switch_session` returns. -/
def put (f : IniFile) (key value section' : Str) : IniFile :=
  match f.switchSession section' with
  | (f, some m) => ⟨f.sections.assign section' (m.insertNew key value)⟩
  -- the null pointer, which is never returned
  | (f, none) => f

/-! ### One put -/

theorem switchSession_snd (f : IniFile) (s : Str) :
    (f.switchSession s).2 = some (f.getSection s) := by
  unfold switchSession getSection
  cases h : f.sections.find s with
  | some m => rfl
  | none => simp [insertSession, StdMap.find_insertNew, h]

/-- Switching the section changes no section. -/
theorem getSection_switchSession (f : IniFile) (s t : Str) :
    (f.switchSession s).1.getSection t = f.getSection t := by
  unfold switchSession getSection
  cases h : f.sections.find s with
  | some m => rfl
  | none =>
      simp only [insertSession, StdMap.find_insertNew]
      by_cases ht : t = s
      · simp [ht, h]
      · rw [if_neg ht]

theorem getSection_put (f : IniFile) (key value s t : Str) : (f.put key value s).getSection t =
    if t = s then (f.getSection s).insertNew key value else f.getSection t := by
  have hswitch := switchSession_snd f s
  have hget := getSection_switchSession f s t
  unfold put
  generalize f.switchSession s = r at hswitch hget
  obtain ⟨g, m⟩ := r
  obtain rfl : m = some (f.getSection s) := hswitch
  rw [← hget]
  simp only [getSection, StdMap.find_assign]
  by_cases ht : t = s
  · simp [ht]
  · simp [ht]

/-- **What a put changes**: the entry, if there was none. -/
theorem find_put (f : IniFile) (key value s key' t : Str) :
    ((f.put key value s).getSection t).find key' = if key' = key ∧ t = s then
      some (((f.getSection s).find key).getD value) else (f.getSection t).find key' := by
  rw [getSection_put]
  by_cases ht : t = s
  · subst ht
    rw [if_pos rfl, StdMap.find_insertNew]
    simp
  · rw [if_neg ht, if_neg fun h => ht h.2]

/-- A put changes no other key and no other section. -/
theorem get_put_of_ne (f : IniFile) {key s key' t : Str} (h : ¬ (key' = key ∧ t = s))
    (value defaultValue : Str) :
    (f.put key value s).get key' defaultValue t = f.get key' defaultValue t := by
  rw [get, find_put, if_neg h, get]

end IniFile

/-! ### Histories -/

/-- A call of `put` or `get`. -/
inductive Call where
  | put (key value section' : Str)
  | get (key defaultValue section' : Str)

/-- What a call leaves. -/
def IniFile.apply (f : IniFile) : Call → IniFile
  | .put key value s => f.put key value s
  | .get _ _ _ => f

/-- The map after the calls. -/
def run (calls : List Call) : IniFile := calls.foldl IniFile.apply .new

/-- The value that a call puts to the key in the section. -/
def Call.value (key s : Str) : Call → Option Str
  | .put key' value s' => if key = key' ∧ s = s' then some value else none
  | .get _ _ _ => none

/-- What the first `put` of a key in a section gave. -/
def firstPut (calls : List Call) (key s : Str) : Option Str := calls.findSome? (Call.value key s)

/-- The most recent put. -/
def lastPut (calls : List Call) (key s : Str) : Option Str := firstPut calls.reverse key s

/-- **One call**: a key that has a value keeps it. -/
theorem find_apply (f : IniFile) (c : Call) (key s : Str) : ((f.apply c).getSection s).find key =
    ((f.getSection s).find key).or (c.value key s) := by
  cases c with
  | put key' value s' =>
      rw [IniFile.apply, IniFile.find_put, Call.value]
      by_cases h : key = key' ∧ s = s'
      · rw [if_pos h, if_pos h, h.1, h.2]
        cases (f.getSection s').find key' <;> rfl
      · rw [if_neg h, if_neg h, Option.or_none]
  | get key' d s' => rw [IniFile.apply, Call.value, Option.or_none]

/-- **The first value that is put stays.** -/
theorem find_run (calls : List Call) (key s : Str) :
    ((run calls).getSection s).find key = firstPut calls key s := by
  induction calls using List.reverseRecOn with
  | nil => simp [run, IniFile.new, IniFile.getSection, firstPut]
  | append_singleton calls c ih =>
      have hrun : run (calls ++ [c]) = (run calls).apply c := List.foldl_concat ..
      have hlast : List.findSome? (Call.value key s) [c] = c.value key s := by
        cases hc : c.value key s <;> simp [hc]
      rw [hrun, find_apply, ih, firstPut, firstPut, List.findSome?_append, hlast]

theorem firstPut_isSome_iff (calls : List Call) (key s : Str) :
    (firstPut calls key s).isSome ↔ (lastPut calls key s).isSome := by
  simp only [firstPut, lastPut, List.findSome?_isSome_iff, List.mem_reverse]

/-- **Main result.**  A get finds the most recent put to its key and section, if and only if that
has the value of the first; a put changes no other key or section in any case. -/
theorem get_eq_last_iff (calls : List Call) (key defaultValue s : Str) :
    ((run calls).get key defaultValue s = (lastPut calls key s).getD defaultValue ∧
      ∀ value key' t defaultValue', ¬ (key' = key ∧ t = s) →
        ((run calls).put key value s).get key' defaultValue' t =
          (run calls).get key' defaultValue' t) ↔
      firstPut calls key s = lastPut calls key s := by
  have hsome := firstPut_isSome_iff calls key s
  constructor
  · rintro ⟨hget, -⟩
    rw [IniFile.get, find_run] at hget
    cases hfirst : firstPut calls key s with
    | none =>
        rw [hfirst] at hsome
        exact (Option.not_isSome_iff_eq_none.mp (mt hsome.mpr (by simp))).symm
    | some v =>
        obtain ⟨w, hw⟩ := Option.isSome_iff_exists.mp (hsome.mp (by simp [hfirst]))
        rw [hfirst, hw, Option.getD_some, Option.getD_some] at hget
        rw [hw, hget]
  · intro h
    refine ⟨by rw [IniFile.get, find_run, h], fun value key' t d hne => ?_⟩
    exact IniFile.get_put_of_ne _ hne value d

/-- Two puts: the second value is lost. -/
theorem get_not_always_last : ∃ calls,
    (run calls).get "port".toList [] [] ≠ (lastPut calls "port".toList []).getD [] := by
  refine ⟨[.put "port".toList "1".toList [], .put "port".toList "2".toList []], ?_⟩
  rw [IniFile.get, find_run]
  decide

end VulcanDB.Common
