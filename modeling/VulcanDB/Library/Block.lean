import VulcanDB.Library.CxxString

/-!
# Library — Blocks of the heap

A block is its cells, of which some were never set.  Nothing outside a block is read or written, and
no cell that was never set is read.

* `Block.Holds.append`: an array that is made longer by an element.
* `strcat_store`: a string that is appended to another.
* `cutNames_store`: a string that is cut into names in place.
-/

namespace Cxx

/-! ### Arrays -/

/-- The cells of a block, set or not. -/
structure Block (α : Type) where
  cells : List (Option α)
  deriving DecidableEq

namespace Block

variable {α : Type}

/-- The block behind a null pointer. -/
def null : Block α := ⟨[]⟩

/-- A block of `n` unset cells. -/
def malloc (n : ℕ) : Block α := ⟨List.replicate n none⟩

/-- The cells that fit are kept, the others are unset. -/
def realloc (b : Block α) (n : ℕ) : Block α :=
  ⟨b.cells.take n ++ List.replicate (n - b.cells.length) none⟩

/-- A read of a cell that is set. -/
def read (b : Block α) (i : ℕ) : Option α := b.cells[i]?.join

/-- A write inside of the block. -/
def write (b : Block α) (i : ℕ) (x : α) : Option (Block α) :=
  if i < b.cells.length then some ⟨b.cells.set i x⟩ else none

/-- The block begins with these elements. -/
def Begins (b : Block α) (xs : List α) : Prop := xs.map some <+: b.cells

theorem Begins.read {b : Block α} {xs : List α} (h : b.Begins xs) {i : ℕ} {x : α}
    (hx : xs[i]? = some x) : b.read i = some x := by
  obtain ⟨rest, hrest⟩ := h
  have hlt : i < (xs.map some).length := by
    rw [List.length_map]
    exact (List.getElem?_eq_some_iff.mp hx).1
  rw [Block.read, ← hrest, List.getElem?_append_left hlt, List.getElem?_map, hx]
  rfl

/-- An element is written behind those that a block begins with. -/
theorem Begins.set {b : Block α} {xs : List α} (h : b.Begins xs) (hroom : xs.length < b.cells.length)
    (x : α) : (⟨b.cells.set xs.length x⟩ : Block α).Begins (xs ++ [x]) := by
  obtain ⟨rest, hrest⟩ := h
  cases rest with
  | nil =>
      rw [← hrest] at hroom
      simp at hroom
  | cons c rest =>
      refine ⟨rest, ?_⟩
      rw [← hrest, List.set_append_right _ _ (by simp)]
      simp

/-- The block holds these elements and nothing else. -/
def Holds (b : Block α) (xs : List α) : Prop := b.cells = xs.map some

/-- A block that holds the elements begins with them. -/
theorem Holds.begins {b : Block α} {xs : List α} (h : b.Holds xs) : b.Begins xs := by
  rw [Begins, ← show b.cells = xs.map some from h]

/-- **An element is appended** to an array that is made longer by one. -/
theorem Holds.append {b : Block α} {xs : List α} (h : b.Holds xs) (x : α) :
    ∃ b', (b.realloc (xs.length + 1)).write xs.length x = some b' ∧ b'.Holds (xs ++ [x]) := by
  have hcells : (b.realloc (xs.length + 1)).cells = xs.map some ++ [none] := by
    have htake : (xs.map some).take (xs.length + 1) = xs.map some :=
      List.take_of_length_le (by simp)
    rw [realloc, show b.cells = _ from h, htake]
    simp
  refine ⟨⟨xs.map some ++ [some x]⟩, ?_, by simp [Holds]⟩
  rw [write, hcells, if_pos (by simp), List.set_append_right _ _ (by simp)]
  simp

end Block

/-- An array of a fixed length. -/
structure Table (α : Type) (n : ℕ) extends Block α where
  room : cells.length = n

namespace Table

variable {α : Type} {n : ℕ}

def write (t : Table α n) (i : ℕ) (x : α) : Option (Table α n) :=
  if i < n then some ⟨⟨t.cells.set i x⟩, by rw [List.length_set, t.room]⟩ else none

/-- One more element is written behind the others. -/
theorem write_begins {t : Table α n} {xs : List α} (h : t.Begins xs) (hroom : xs.length < n) (x : α) :
    ∃ t', t.write xs.length x = some t' ∧ t'.Begins (xs ++ [x]) := by
  refine ⟨_, if_pos hroom, ?_⟩
  exact h.set (hroom.trans_eq t.room.symm) x

end Table

/-! ### Strings -/

/-- The NUL. -/
def terminator : Char := '\x00'

/-- The characters before the terminator. -/
def cString : List (Option Char) → Option Str
  | some c :: cells => if c = terminator then some [] else (cString cells).map (c :: ·)
  | _ => none

/-- The cells of a string. -/
def store (s : Str) : List (Option Char) := s.map some ++ [some terminator]

/-- A block of its own for a string. -/
def strdup (s : Str) : Block Char := ⟨store s⟩

/-- `strcat`, where the block has room. -/
def strcat (dest : Block Char) (src : Str) : Option (Block Char) := do
  let s ← cString dest.cells
  if s.length + src.length + 1 ≤ dest.cells.length then
    return ⟨s.map some ++ store src ++ dest.cells.drop (s.length + src.length + 1)⟩
  else none

theorem cString_store {s : Str} (h : terminator ∉ s) (rest : List (Option Char)) :
    cString (store s ++ rest) = some s := by
  induction s with
  | nil => rfl
  | cons c s ih =>
      obtain ⟨hc, hs⟩ := List.ne_and_not_mem_of_not_mem_cons h
      show (if c = terminator then _ else (cString (store s ++ rest)).map (c :: ·)) = _
      rw [if_neg hc.symm, ih hs]
      rfl

/-- The block holds the string, and has no other cells. -/
def IsString (b : Block Char) (s : Str) : Prop := terminator ∉ s ∧ b.cells = store s

theorem isString_strdup {s : Str} (h : terminator ∉ s) : IsString (strdup s) s := ⟨h, rfl⟩

theorem IsString.cString {b : Block Char} {s : Str} (h : IsString b s) :
    Cxx.cString b.cells = some s := by
  have hs := cString_store h.1 []
  rwa [List.append_nil, ← h.2] at hs

/-- A string takes one cell more for its NUL. -/
theorem length_store (s : Str) : (store s).length = s.length + 1 := by
  simp [store]

/-- **A string is appended** where the block has room for both and one terminator, and takes up as
much of it. -/
theorem strcat_store {s t : Str} (hs : terminator ∉ s) (n : ℕ) :
    strcat ⟨store s ++ List.replicate (t.length + n) none⟩ t =
      some ⟨store (s ++ t) ++ List.replicate n none⟩ := by
  have hroom : s.length + t.length + 1 ≤
      (store s ++ List.replicate (t.length + n) (none : Option Char)).length := by
    rw [List.length_append, length_store, List.length_replicate]
    omega
  have hdrop : (store s ++ List.replicate (t.length + n) (none : Option Char)).drop
      (s.length + t.length + 1) = List.replicate n none := by
    have hlen : s.length + t.length + 1 = (store s).length + t.length := by
      rw [length_store]
      omega
    rw [hlen, List.drop_length_add_append, List.drop_replicate, Nat.add_sub_cancel_left]
  rw [strcat, cString_store hs]
  simp only [Option.bind_eq_bind, Option.bind_some, if_pos hroom, hdrop]
  simp [store]

/-- A stored string with more room behind it. -/
theorem realloc_store (s : Str) (n : ℕ) : (⟨store s⟩ : Block Char).realloc (s.length + 1 + n) =
    ⟨store s ++ List.replicate n none⟩ := by
  have hlen := length_store s
  rw [Block.realloc, List.take_of_length_le (by rw [hlen]; omega), hlen, Nat.add_sub_cancel_left]

/-! ### Names in a string -/

/-- `for (i = 0; buffer[i] != 0; i++) if (buffer[i] == delim) { buffer[i] = 0; num++; }`. -/
def cut (delim : Char) : List (Option Char) → ℕ → Option (List (Option Char) × ℕ)
  | some c :: cells, num =>
    if c = terminator then some (some c :: cells, num)
    else if c = delim then (cut delim cells (num + 1)).map fun p => (some terminator :: p.1, p.2)
    else (cut delim cells num).map fun p => (some c :: p.1, p.2)
  | _, _ => none

/-- `list[i] = strdup(pos); pos += strlen(pos) + 1;`, as often as there are names. -/
def copyNames : ℕ → List (Option Char) → Option (List Str)
  | 0, _ => some []
  | n + 1, cells => do
    let name ← cString cells
    return name :: (← copyNames n (cells.drop (name.length + 1)))

/-- The number of the names, and the names. -/
def cutNames (delim : Char) (cells : List (Option Char)) (num : ℕ) : Option (ℕ × List Str) := do
  let (cells, num) ← cut delim cells num
  return (num, ← copyNames num cells)

section Cut

variable {delim : Char}

/-- A separator becomes a terminator. -/
def cutChar (delim c : Char) : Char := if c = delim then terminator else c

/-- **The cut** of a stored string. -/
theorem cut_store (hdelim : delim ≠ terminator) {s : Str} (h : terminator ∉ s) (num : ℕ) :
    cut delim (store s) num = some (store (s.map (cutChar delim)), num + s.count delim) := by
  induction s generalizing num with
  | nil => rfl
  | cons c s ih =>
      obtain ⟨hc, hs⟩ := List.ne_and_not_mem_of_not_mem_cons h
      show (if c = terminator then _ else if c = delim then
        (cut delim (store s) (num + 1)).map _ else (cut delim (store s) num).map _) = _
      rw [if_neg hc.symm, ih hs, ih hs]
      by_cases hcd : c = delim
      · subst hcd
        simp only [store, cutChar, List.map_cons, List.count_cons_self, if_true, Option.map_some]
        rw [Nat.add_assoc, Nat.add_comm 1]
        rfl
      · simp [store, cutChar, hcd]

/-- The first name of a string that is cut. -/
theorem store_cut {name s : Str} (h : delim ∉ name) :
    store ((name ++ delim :: s).map (cutChar delim)) =
      store name ++ store (s.map (cutChar delim)) := by
  have hname : name.map (cutChar delim) = name := by
    refine (List.map_congr_left fun c hc => ?_).trans (List.map_id name)
    exact if_neg (ne_of_mem_of_not_mem hc h)
  rw [List.map_append, hname]
  simp [store, cutChar]

/-- The names that are copied are the parts before the separators. -/
theorem copyNames_cut {s : Str} (h : terminator ∉ s) :
    copyNames (s.count delim) (store (s.map (cutChar delim))) =
      some ((s.splitOn delim).take (s.count delim)) := by
  induction hn : s.count delim generalizing s with
  | zero => rfl
  | succ n ih =>
      have hmem : delim ∈ s := List.count_pos_iff.mp (by omega)
      obtain ⟨name, rest, rfl, hname⟩ := List.eq_append_cons_of_mem hmem
      rw [List.count_append, List.count_eq_zero.mpr hname, List.count_cons_self] at hn
      have hrest : terminator ∉ rest := fun hr => h (by simp [hr])
      have hsplit : (name ++ delim :: rest).splitOn delim = name :: rest.splitOn delim :=
        List.splitOnP_append_cons_of_forall_mem
          (fun c hc => beq_false_of_ne (ne_of_mem_of_not_mem hc hname)) delim
          (beq_self_eq_true delim) _
      have hdrop : (store name ++ store (rest.map (cutChar delim))).drop (name.length + 1) =
          store (rest.map (cutChar delim)) := by
        rw [← length_store, List.drop_left]
      rw [store_cut hname, hsplit, List.take_succ_cons, copyNames,
        cString_store fun hc => h (List.mem_append_left _ hc)]
      simp only [Option.bind_eq_bind, Option.bind_some, hdrop, ih hrest (by omega)]
      rfl

/-- **The parts of a string before its separators,** and their number. -/
theorem cutNames_store (hdelim : delim ≠ terminator) {s : Str} (h : terminator ∉ s) :
    cutNames delim (store s) 0 = some (s.count delim, (s.splitOn delim).take (s.count delim)) := by
  rw [cutNames, cut_store hdelim h]
  simp only [Option.bind_eq_bind, Option.bind_some, Nat.zero_add, copyNames_cut h]
  rfl

end Cut

end Cxx
