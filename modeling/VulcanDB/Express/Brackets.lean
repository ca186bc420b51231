import VulcanDB.Express.Truncation

/-!
# EXPRESS — The brackets of a serialised type

Every call opens a bracket, and every call closes it but the one for a derived type, which returns
after the text of what it is derived from.

* `TypeTree.brackets`: the brackets of a tree.
* `wellBracketed_iff`: the trees with a pair for each node.
-/

namespace VulcanDB.Express

open Cxx Steps PrintBuffer

/-! ### Nested brackets -/

/-- No bracket is closed before it is opened. -/
def OpensFirst (s : Str) : Prop := ∀ p, p <+: s → p.count ']' ≤ p.count '['

/-- A text without brackets. -/
def NoBracket (s : Str) : Prop := '[' ∉ s ∧ ']' ∉ s

instance (s : Str) : Decidable (NoBracket s) := inferInstanceAs (Decidable (_ ∧ _))

theorem NoBracket.count {s : Str} (h : NoBracket s) : s.count '[' = 0 ∧ s.count ']' = 0 :=
  ⟨List.count_eq_zero.mpr h.1, List.count_eq_zero.mpr h.2⟩

theorem NoBracket.opensFirst {s : Str} (h : NoBracket s) : OpensFirst s := by
  intro p hp
  have hnot : ']' ∉ p := fun hm => h.2 (hp.subset hm)
  rw [List.count_eq_zero.mpr hnot]
  exact Nat.zero_le _

/-- Two texts in which every bracket that closes was opened. -/
theorem OpensFirst.append {s t : Str} (hs : OpensFirst s) (ht : OpensFirst t) :
    OpensFirst (s ++ t) := by
  intro p hp
  rcases List.prefix_or_prefix_of_prefix hp (List.prefix_append s t) with hp' | ⟨q, rfl⟩
  · exact hs p hp'
  · have hq := ht q ((List.prefix_append_right_inj s).mp hp)
    rw [List.count_append, List.count_append]
    exact Nat.add_le_add (hs s (List.prefix_refl s)) hq

theorem OpensFirst.opened {s : Str} (h : OpensFirst s) : OpensFirst ('[' :: s) := by
  intro p hp
  rcases List.prefix_cons_iff.mp hp with rfl | ⟨q, rfl, hq⟩
  · exact le_rfl
  · rw [List.count_cons_of_ne (by decide), List.count_cons_self]
    exact Nat.le_succ_of_le (h q hq)

/-- An open bracket pays for one that is closed at the end. -/
theorem OpensFirst.closed {s : Str} (h : OpensFirst s) : OpensFirst ('[' :: s ++ [']']) := by
  intro p hp
  rcases List.prefix_concat_iff.mp hp with rfl | hp
  · have hs := h s (List.prefix_refl s)
    simp only [List.count_append, List.count_cons, List.count_nil]
    simp
    omega
  · exact h.opened p hp

/-! ### The brackets of a tree -/

mutual

/-- The names and literals contain no bracket. -/
def TypeTree.Plain : TypeTree → Prop
  | .reference _ name => NoBracket name
  | .derived _ name child => NoBracket (name.getD []) ∧ child.Plain
  | .select _ name members => NoBracket (name.getD []) ∧ AllPlain members
  | .enum _ name literals => NoBracket (name.getD []) ∧ ∀ l ∈ literals, NoBracket l
  | .base _ name _ => NoBracket (name.getD [])

/-- No name or literal of the member has a bracket. -/
def MemberTree.Plain : MemberTree → Prop
  | .nested tree => tree.Plain
  | .entity name => NoBracket name
  | .plain name _ => NoBracket name

/-- Nor any of the members. -/
def AllPlain : List MemberTree → Prop
  | [] => True
  | m :: ms => m.Plain ∧ AllPlain ms

end

mutual

/-- The types, and the members that are printed at once. -/
def TypeTree.nodes : TypeTree → ℕ
  | .reference _ _ => 1
  | .derived _ _ child => 1 + child.nodes
  | .select _ _ members => 1 + nodesOf members
  | .enum _ _ _ => 1
  | .base _ _ _ => 1

/-- The nodes that are printed for a member. -/
def MemberTree.nodes : MemberTree → ℕ
  | .nested tree => tree.nodes
  | .entity _ => 1
  | .plain _ _ => 1

/-- Those of several. -/
def nodesOf : List MemberTree → ℕ
  | [] => 0
  | m :: ms => m.nodes + nodesOf ms

end

mutual

/-- The derived types that are printed by a call of their own. -/
def TypeTree.derivedNodes : TypeTree → ℕ
  | .reference _ _ => 0
  | .derived _ _ child => 1 + child.derivedNodes
  | .select _ _ members => derivedNodesOf members
  | .enum _ _ _ => 0
  | .base _ _ _ => 0

/-- The derived types among them. -/
def MemberTree.derivedNodes : MemberTree → ℕ
  | .nested tree => tree.derivedNodes
  | .entity _ => 0
  | .plain _ _ => 0

/-- Those of several. -/
def derivedNodesOf : List MemberTree → ℕ
  | [] => 0
  | m :: ms => m.derivedNodes + derivedNodesOf ms

end

/-- `m` brackets are opened and all but `k` of them closed, none before it is opened. -/
structure Brackets (s : Str) (m k : ℕ) : Prop where
  opened : s.count '[' = m
  closed : s.count ']' + k = m
  first : OpensFirst s

theorem Brackets.append {s t : Str} {m n k l : ℕ} (hs : Brackets s m k) (ht : Brackets t n l) :
    Brackets (s ++ t) (m + n) (k + l) := by
  have hs' := hs.closed
  have ht' := ht.closed
  refine ⟨?_, ?_, hs.first.append ht.first⟩
  · rw [List.count_append, hs.opened, ht.opened]
  · rw [List.count_append]
    omega

theorem NoBracket.brackets {s : Str} (h : NoBracket s) : Brackets s 0 0 := by
  obtain ⟨hopen, hclose⟩ := h.count
  exact ⟨hopen, by rw [hclose], h.opensFirst⟩

/-- A text without brackets changes nothing. -/
theorem Brackets.append_plain {s t : Str} {m k : ℕ} (hs : Brackets s m k) (ht : NoBracket t) :
    Brackets (s ++ t) m k :=
  hs.append ht.brackets

theorem NoBracket.append {s t : Str} (hs : NoBracket s) (ht : NoBracket t) : NoBracket (s ++ t) :=
  ⟨fun h => (List.mem_append.mp h).elim hs.1 ht.1, fun h => (List.mem_append.mp h).elim hs.2 ht.2⟩

/-- A bracket before a text that may leave others open. -/
theorem Brackets.opened_before {s : Str} {m k : ℕ} (h : Brackets s m k) :
    Brackets ('[' :: s) (1 + m) (1 + k) := by
  have hopen := h.opened
  have hclose := h.closed
  refine ⟨?_, ?_, h.first.opened⟩
  · rw [List.count_cons_self]
    omega
  · rw [List.count_cons_of_ne (by decide)]
    omega

/-- A pair around a text. -/
theorem Brackets.closed_around {s : Str} {m k : ℕ} (h : Brackets s m k) :
    Brackets ('[' :: s ++ [']']) (1 + m) k := by
  have hopen := h.opened_before.opened
  have hclose := h.opened_before.closed
  refine ⟨?_, ?_, h.first.closed⟩
  · rw [List.count_append, hopen]
    rfl
  · rw [List.count_append, List.count_singleton_self]
    omega

/-! ### What is printed -/

theorem noBracket_label (type : TypeEnum) : NoBracket (labelOf type) := by
  cases type <;> decide

theorem noBracket_separator (last : Prop) [Decidable last] :
    NoBracket (if last then ")".toList else "|".toList) := by
  split <;> decide

/-- A call opens its bracket, and nothing else, before the kind of the type. -/
theorem header_eq (isList : Bool) {name : Option Str} (h : NoBracket (name.getD [])) :
    ∃ u, header isList name = '[' :: u ∧ NoBracket u := by
  have hname : header isList name = openingOf isList ++ name.getD [] := by
    cases name with
    | none => exact (List.append_nil _).symm
    | some name => rfl
  rw [hname]
  cases isList with
  | true => exact ⟨_, rfl, NoBracket.append (s := " LIST OF ".toList) (by decide) h⟩
  | false => exact ⟨_, rfl, NoBracket.append (s := " ".toList) (by decide) h⟩

/-- Literals without brackets are printed without them. -/
theorem noBracket_literals {ls : List Str} (h : ∀ l ∈ ls, NoBracket l) {u : Str}
    (hu : NoBracket u) : NoBracket (printLiterals ls u) := by
  induction ls generalizing u with
  | nil => exact hu
  | cons l ls ih =>
      refine ih (fun l' hl' => h l' (List.mem_cons_of_mem _ hl')) ?_
      refine (hu.append (h l List.mem_cons_self)).append ?_
      split <;> decide

/-- Literals are printed behind what is there. -/
theorem printLiterals_append (ls : List Str) (u v : Str) :
    printLiterals ls (u ++ v) = u ++ printLiterals ls v := by
  induction ls generalizing v with
  | nil => rfl
  | cons l ls ih =>
      show printLiterals ls (u ++ v ++ l ++ _) = u ++ printLiterals ls (v ++ l ++ _)
      rw [← ih]
      simp only [List.append_assoc]

theorem printedAll_append (members : List MemberTree) (u v : Str) :
    printedAll (u ++ v) members = u ++ printedAll v members := by
  induction members generalizing v with
  | nil => rfl
  | cons m ms ih =>
      show printedAll (m.printed (u ++ v) ++ _) ms = u ++ printedAll (m.printed v ++ _) ms
      rw [← ih, m.printed_str, m.printed_str]
      simp only [List.append_assoc]

/-- A call whose text is closed. -/
theorem brackets_call (isList : Bool) {name : Option Str} (h : NoBracket (name.getD [])) {v : Str}
    {m k : ℕ} (hv : Brackets v m k) :
    Brackets (header isList name ++ v ++ "]".toList) (1 + m) k := by
  obtain ⟨u, hu, hplain⟩ := header_eq isList h
  have hin : Brackets (u ++ v) m k := by
    have := hplain.brackets.append hv
    rwa [Nat.zero_add, Nat.zero_add] at this
  rw [hu]
  exact hin.closed_around

mutual

/-- Every node opens a bracket and the derived ones leave it open. -/
theorem TypeTree.brackets : ∀ tree : TypeTree, tree.Plain →
    Brackets tree.text tree.nodes tree.derivedNodes
  | .reference isList name, h => by
    have hname : NoBracket ("ENTITY ".toList ++ name) := NoBracket.append (by decide) h
    have hnone : NoBracket ((none : Option Str).getD []) := by decide
    have hcall := brackets_call isList hnone hname.brackets
    have htext : (TypeTree.reference isList name).text =
        header isList none ++ ("ENTITY ".toList ++ name) ++ "]".toList :=
      (List.append_assoc _ _ _).symm
    rw [htext]
    exact hcall
  | .derived isList name child, h => by
    obtain ⟨u, hu, hplain⟩ := header_eq isList h.1
    have hin := hplain.brackets.append (child.brackets h.2)
    rw [Nat.zero_add, Nat.zero_add] at hin
    show Brackets (header isList name ++ child.text) _ _
    rw [hu]
    exact hin.opened_before
  | .select isList name members, h => by
    have hin := (show NoBracket "SELECT OF (".toList by decide).brackets.append
      (brackets_members members h.2)
    rw [Nat.zero_add, Nat.zero_add] at hin
    have htext : (TypeTree.select isList name members).text =
        header isList name ++ ("SELECT OF (".toList ++ printedAll [] members) ++ "]".toList := by
      show printedAll (header isList name ++ "SELECT OF (".toList) members ++ _ = _
      rw [← List.append_assoc, ← printedAll_append, List.append_nil]
    rw [htext]
    exact brackets_call isList h.1 hin
  | .enum isList name literals, h => by
    have hin : NoBracket (printLiterals literals "ENUMERATION OF <".toList) :=
      noBracket_literals h.2 (by decide)
    have htext : (TypeTree.enum isList name literals).text =
        header isList name ++ printLiterals literals "ENUMERATION OF <".toList ++ "]".toList := by
      rw [← printLiterals_append]
      rfl
    rw [htext]
    exact brackets_call isList h.1 hin.brackets
  | .base isList name type, h => brackets_call isList h (noBracket_label type).brackets

/-- **The brackets of a member**, by induction on the tree. -/
theorem MemberTree.brackets : ∀ member : MemberTree, member.Plain →
    Brackets member.text member.nodes member.derivedNodes
  | .nested tree, h => tree.brackets h
  | .entity name, h => by
    have hname : NoBracket ("ENTITY ".toList ++ name) := NoBracket.append (by decide) h
    exact hname.brackets.closed_around
  | .plain name type, h => by
    have hname : NoBracket (name ++ " ".toList ++ labelOf type) :=
      (h.append (by decide)).append (noBracket_label type)
    have htext : (MemberTree.plain name type).text =
        '[' :: (name ++ " ".toList ++ labelOf type) ++ [']'] := by
      show "[".toList ++ name ++ " ".toList ++ labelOf type ++ "]".toList = _
      simp
    rw [htext]
    exact hname.brackets.closed_around

theorem brackets_members : ∀ members : List MemberTree, AllPlain members →
    Brackets (printedAll [] members) (nodesOf members) (derivedNodesOf members)
  | [], _ => NoBracket.brackets (by decide)
  | m :: ms, h => by
    have hm := (m.brackets h.1).append_plain (noBracket_separator (ms = []))
    have hall := hm.append (brackets_members ms h.2)
    have htext : (printedAll [] (m :: ms) : Str) =
        m.text ++ (if ms = [] then ")".toList else "|".toList) ++ printedAll [] ms := by
      rw [← printedAll_append, List.append_nil]
      rfl
    rw [htext]
    exact hall

end

/-- **Main result.**  Of the brackets of a text that is printed whole one is opened for each node,
none is closed before it is opened, and every one is closed exactly when no derived type is printed
by a call of its own. -/
theorem wellBracketed_iff {n : ℕ} {s : Schema} {t : TypeRecord} {tree : TypeTree}
    (h : unfold n s t = .ok tree) (hplain : tree.Plain) (hfits : tree.Fits) :
    ∃ b : CBuffer, serializeTypeTree n s t = .ok b ∧
      ((b.text.count '[' = tree.nodes ∧ b.text.count ']' = tree.nodes ∧ OpensFirst b.text) ↔
        tree.derivedNodes = 0) := by
  obtain ⟨size, htracks⟩ := tree.tracks
  refine ⟨tree.printed, serialize_ok h, ?_⟩
  rw [(htracks.exact hfits).1]
  have hb := tree.brackets hplain
  have hclosed := hb.closed
  constructor
  · rintro ⟨-, hclose, -⟩
    rw [hclose] at hclosed
    omega
  · intro hzero
    rw [hzero] at hclosed
    exact ⟨hb.opened, hclosed, hb.first⟩

/-- The tree of the mixed schema has no bracket in its names. -/
theorem plain_mixed : mixedTree.Plain := by
  have hnested : (TypeTree.enum false "IfcColour".toList ["RED".toList, "BLUE".toList]).Plain := by
    refine ⟨by decide, fun l hl => ?_⟩
    obtain rfl | rfl : l = _ ∨ l = _ := by simpa using hl
    · decide
    · decide
  exact ⟨by decide, hnested, show NoBracket "IfcLabel".toList by decide,
    show NoBracket "IfcR".toList by decide, trivial⟩

/-- The brackets of a type that leads to others. -/
theorem wellBracketed_mixed : ∃ b : CBuffer,
    serializeTypeTree 2 mixedSchema mixedType = .ok b ∧
      ((b.text.count '[' = 4 ∧ b.text.count ']' = 4 ∧ OpensFirst b.text) ↔ 0 = 0) :=
  wellBracketed_iff unfold_mixed plain_mixed fits_mixed

/-- `TYPE IfcA = REAL; END_TYPE; TYPE IfcB = IfcA; END_TYPE;` -/
def derivedSchema : Schema :=
  { newSchema with
      types := [{ newType with name := "IfcA".toList, type := .real },
        { newType with name := "IfcB".toList, type := .derived, refType := some (.type 0) }] }

/-- A derived type has a bracket too few. -/
theorem not_always_wellBracketed : ∃ (t : TypeRecord) (b : CBuffer),
    derivedSchema.types[1]? = some t ∧ serializeTypeTree 2 derivedSchema t = .ok b ∧
      b.text = "[ IfcB[ IfcAREAL]".toList ∧ b.text.count '[' = 2 ∧ b.text.count ']' = 1 := by
  refine ⟨_, _, rfl, rfl, ?_, ?_, ?_⟩ <;> decide +kernel

end VulcanDB.Express
