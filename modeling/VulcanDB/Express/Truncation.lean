import VulcanDB.Express.TypeTree

/-!
# EXPRESS — The buffer of a serialised type

Every text is printed with `buf_size` as the bound, which starts at 1024 and grows by
`resize_buffer` only.

* `Tracks`: the buffer of the code beside the text that it should hold.
* `untruncated_iff`: the trees that are printed whole.
-/

namespace VulcanDB.Express

open Cxx Steps PrintBuffer

/-! ### Lengths -/

/-- What is printed into the buffer without a bound. -/
def TypeTree.text (tree : TypeTree) : Str := tree.printed

/-- The text of a member. -/
def MemberTree.text (member : MemberTree) : Str := member.printed ([] : Str)

/-- What comes before the kind of the type. -/
def header (isList : Bool) (name : Option Str) : Str := printName (openingOf isList) name

/-- What `resize_buffer` makes room for at a member, beyond the text so far. -/
def MemberTree.asked : MemberTree → ℕ
  | .nested tree => tree.text.length + 2
  | .entity name => name.length + 20
  | .plain name type => name.length + (labelOf type).length + 5

/-- `buf_size` after the members, from a text of that length on. -/
def sizeAfter (size len : ℕ) : List MemberTree → ℕ
  | [] => size
  | m :: ms => sizeAfter (max size (len + m.asked)) (len + m.text.length + 1) ms

mutual

/-- The buffer is large enough: 1024 bytes for what is printed without `resize_buffer`, and for the
bracket behind the members of a `SELECT` the most that was asked for. -/
def TypeTree.Fits : TypeTree → Prop
  | .reference isList name => (TypeTree.reference isList name).text.length < bufferSize
  | .derived isList name child => (header isList name).length < bufferSize ∧ child.Fits
  | .select isList name members =>
    (header isList name ++ "SELECT OF (".toList).length < bufferSize ∧
      AllFit members ∧
      (TypeTree.select isList name members).text.length <
        sizeAfter bufferSize (header isList name ++ "SELECT OF (".toList).length members
  | .enum isList name literals => (TypeTree.enum isList name literals).text.length < bufferSize
  | .base isList name type => (TypeTree.base isList name type).text.length < bufferSize

/-- A member fits where the trees in it do. -/
def MemberTree.Fits : MemberTree → Prop
  | .nested tree => tree.Fits
  | .entity _ => True
  | .plain _ _ => True

/-- Every member fits. -/
def AllFit : List MemberTree → Prop
  | [] => True
  | m :: ms => m.Fits ∧ AllFit ms

end

/-! ### One text after another -/

/-- Where `p` holds the buffer has the text `u` and the size `size`, as its block has; where it does
not, some of the text is missing. -/
structure Tracks (b : CBuffer) (u : Str) (size : ℕ) (p : Prop) : Prop where
  exact : p → b = ⟨u, size, size⟩ ∧ u.length < size
  short : ¬ p → b.text.length < u.length

/-- The text `s'` that is printed for `s`. -/
structure Stands (s' s : Str) (q : Prop) : Prop where
  whole : q → s' = s
  short : ¬ q → s'.length < s.length

section Tracks

variable {b : CBuffer} {u s s' : Str} {size n : ℕ} {p p' q : Prop}

theorem Stands.refl (s : Str) : Stands s s True := ⟨fun _ => rfl, fun h => absurd trivial h⟩

/-- What stands for a text is no longer. -/
theorem Stands.length_le (h : Stands s' s q) : s'.length ≤ s.length := by
  by_cases hq : q
  · rw [h.whole hq]
  · exact (h.short hq).le

/-- The condition may be put otherwise. -/
theorem Tracks.congr (h : Tracks b u size p) (hp : p ↔ p') : Tracks b u size p' :=
  ⟨fun hp' => h.exact (hp.mpr hp'), fun hp' => h.short fun hpp => hp' (hp.mp hpp)⟩

/-- A buffer holds no more than the text. -/
theorem Tracks.length_le (h : Tracks b u size p) : b.text.length ≤ u.length := by
  by_cases hp : p
  · rw [(h.exact hp).1]
  · exact (h.short hp).le

/-- A buffer that is done stands for its text. -/
theorem Tracks.stands (h : Tracks b u size p) : Stands b.text u p :=
  ⟨fun hp => by rw [(h.exact hp).1], h.short⟩

/-- A print adds no more than its text. -/
theorem length_print_le (b : CBuffer) (s : Str) :
    (b.print s).text.length ≤ b.text.length + s.length := by
  simp only [CBuffer.print, List.length_append, List.length_take]
  omega

/-- A text that fits is printed whole, and of another something is missing. -/
theorem Tracks.print (h : Tracks b u size p) (s : Str) :
    Tracks (b.print s) (u ++ s) size (p ∧ (u ++ s).length < size) := by
  have hle := length_print_le b s
  constructor
  · rintro ⟨hp, hlt⟩
    obtain ⟨rfl, -⟩ := h.exact hp
    refine ⟨?_, hlt⟩
    rw [List.length_append] at hlt
    simp only [CBuffer.print, CBuffer.mk.injEq, and_true, List.append_cancel_left_eq]
    exact List.take_of_length_le (by omega)
  · intro hnot
    rw [List.length_append]
    by_cases hp : p
    · obtain ⟨rfl, hu⟩ := h.exact hp
      have hlong : ¬ (u ++ s).length < size := fun hlt => hnot ⟨hp, hlt⟩
      rw [List.length_append] at hlong
      simp only [CBuffer.print, List.length_append, List.length_take]
      omega
    · have := h.short hp
      omega

/-- A text that room was made for. -/
theorem Tracks.printResized (h : Tracks b u size p) (hs : Stands s' s q) (n' : ℕ)
    (hn : q → n' = n) (hroom : s.length < n) :
    Tracks ((b.resize (b.text.length + n')).print s') (u ++ s) (max size (u.length + n))
      (p ∧ q) := by
  have hle := length_print_le (b.resize (b.text.length + n')) s'
  have htext : (b.resize (b.text.length + n')).text = b.text := by
    unfold CBuffer.resize
    split <;> rfl
  rw [htext] at hle
  constructor
  · rintro ⟨hp, hq⟩
    obtain ⟨rfl, hu⟩ := h.exact hp
    obtain rfl := hs.whole hq
    obtain rfl := hn hq
    have hsize : (CBuffer.mk u size size).resize (u.length + n') =
        ⟨u, max size (u.length + n'), max size (u.length + n')⟩ := by
      unfold CBuffer.resize
      split
      · rename_i hlt
        rw [max_eq_right (Nat.le_of_lt hlt)]
      · rename_i hge
        rw [max_eq_left (Nat.le_of_not_lt hge)]
    have hfits : (u ++ s').length < max size (u.length + n') := by
      rw [List.length_append]
      omega
    have hu' : u.length < max size (u.length + n') := by omega
    have htracks : Tracks ⟨u, max size (u.length + n'), max size (u.length + n')⟩ u
        (max size (u.length + n')) True := ⟨fun _ => ⟨rfl, hu'⟩, fun h => absurd trivial h⟩
    rw [hsize]
    exact (htracks.print s').exact ⟨trivial, hfits⟩
  · intro hnot
    rw [List.length_append]
    have hsle := hs.length_le
    by_cases hp : p
    · have := hs.short fun hq => hnot ⟨hp, hq⟩
      have := h.length_le
      omega
    · have := h.short hp
      omega

/-- More room changes neither the text nor the size that is printed against. -/
theorem text_makeRoom (b : CBuffer) (l : Str) :
    (b.makeRoom l).text = b.text ∧ (b.makeRoom l).bufSize = b.bufSize := by
  simp only [CBuffer.makeRoom]
  split <;> exact ⟨rfl, rfl⟩

theorem length_print_lt {b : CBuffer} (h : b.text.length < b.bufSize) (s : Str) :
    (b.print s).text.length < (b.print s).bufSize := by
  simp only [CBuffer.print, List.length_append, List.length_take]
  omega

/-- A literal and what is behind it. -/
theorem Tracks.literal (h : Tracks b u size p) (l : Str) {sep : Str} (hsep : sep.length = 1) :
    Tracks (((b.makeRoom l).print l).print sep) (u ++ l ++ sep) size
      (p ∧ (u ++ l ++ sep).length < size) := by
  obtain ⟨htext, hsize⟩ := text_makeRoom b l
  have hle := length_print_le (b.makeRoom l) l
  have hle' := length_print_le ((b.makeRoom l).print l) sep
  rw [htext] at hle
  constructor
  · rintro ⟨hp, hlt⟩
    obtain ⟨rfl, hu⟩ := h.exact hp
    have hkeep : (CBuffer.mk u size size).makeRoom l = ⟨u, size, size⟩ := by
      simp only [List.length_append] at hlt
      simp only [CBuffer.makeRoom]
      exact if_neg (by omega)
    rw [hkeep]
    refine ((h.print l).print sep).exact ⟨⟨hp, ?_⟩, hlt⟩
    simp only [List.length_append] at hlt ⊢
    omega
  · intro hnot
    simp only [List.length_append]
    by_cases hp : p
    · -- the size is the old one, also where there is more room now
      obtain ⟨rfl, hu⟩ := h.exact hp
      have hlong : ¬ (u ++ l ++ sep).length < size := fun hlt => hnot ⟨hp, hlt⟩
      simp only [List.length_append] at hlong
      have hlt : ((CBuffer.mk u size size).makeRoom l).text.length <
          ((CBuffer.mk u size size).makeRoom l).bufSize := by
        rw [htext, hsize]
        exact hu
      have hbound := length_print_lt (length_print_lt hlt l) sep
      have hsame : ((((CBuffer.mk u size size).makeRoom l).print l).print sep).bufSize = size := hsize
      omega
    · have := h.short hp
      omega

theorem length_printLiterals (ls : List Str) (u : Str) :
    u.length ≤ (printLiterals ls u).length := by
  induction ls generalizing u with
  | nil => exact le_rfl
  | cons l ls ih =>
      refine le_trans ?_ (ih _)
      show u.length ≤ (u ++ l ++ _).length
      simp only [List.length_append]
      omega

/-- **The literals**, by induction on them. -/
theorem Tracks.literals (h : Tracks b u size p) (ls : List Str) :
    Tracks (printLiterals ls b) (printLiterals ls u) size
      (p ∧ (printLiterals ls u).length < size) := by
  induction ls generalizing b u p with
  | nil => exact h.congr ⟨fun hp => ⟨hp, (h.exact hp).2⟩, fun hp => hp.1⟩
  | cons l ls ih =>
      have hsep : (if ls = [] then ">".toList else ",".toList).length = 1 := by split <;> rfl
      refine (ih (h.literal l hsep)).congr ?_
      rw [and_assoc]
      refine and_congr_right fun _ => and_iff_right_of_imp fun hlt => ?_
      exact (length_printLiterals ls _).trans_lt hlt

end Tracks

/-! ### Trees -/

theorem tracks_opening (isList : Bool) :
    Tracks (openingOf isList) (openingOf isList) bufferSize True := by
  refine ⟨fun _ => ?_, fun h => absurd trivial h⟩
  cases isList <;> decide

/-- The name fits where the header is shorter than the buffer. -/
theorem tracks_header (isList : Bool) (name : Option Str) :
    Tracks (printName (openingOf isList) name) (header isList name) bufferSize
      ((header isList name).length < bufferSize) := by
  have h := tracks_opening isList
  cases name with
  | none => exact h.congr ⟨fun _ => (h.exact trivial).2, fun _ => trivial⟩
  | some name => exact (h.print name).congr (and_iff_right trivial)

theorem Tracks.child {b : CBuffer} {u c c' : Str} {size : ℕ} {p q : Prop} (h : Tracks b u size p)
    (hc : Stands c' c q) : Tracks (printChild b c') (u ++ c) (max size (u.length + (c.length + 2)))
      (p ∧ q) := by
  have hn : q → c'.length + 2 = c.length + 2 := fun hq => by rw [hc.whole hq]
  have h' := h.printResized hc (c'.length + 2) hn (by omega)
  rwa [← Nat.add_assoc] at h'

/-- On plain strings a member is appended. -/
theorem MemberTree.printed_str (member : MemberTree) (u : Str) :
    (member.printed u : Str) = u ++ member.text := by
  cases member <;> rfl

/-- A member asks for more room than it needs. -/
theorem MemberTree.text_lt_asked (member : MemberTree) :
    member.text.length + 1 < member.asked := by
  cases member with
  | nested tree => exact Nat.lt_succ_self _
  | entity name =>
      show ("[ENTITY ".toList ++ name ++ "]".toList).length + 1 < name.length + 20
      simp only [List.length_append]
      simp
      omega
  | plain name type =>
      show ("[".toList ++ name ++ " ".toList ++ labelOf type ++ "]".toList).length + 1 <
        name.length + (labelOf type).length + 5
      simp only [List.length_append]
      simp
      omega

mutual

/-- **Every tree** is tracked, by recursion on it. -/
theorem TypeTree.tracks : ∀ tree : TypeTree,
    ∃ size, Tracks tree.printed tree.text size tree.Fits
  | .reference isList name =>
    ⟨_, ((tracks_opening isList).print _).congr (and_iff_right trivial)⟩
  | .derived isList name child => by
    obtain ⟨size, hchild⟩ := child.tracks
    exact ⟨_, (tracks_header isList name).child hchild.stands⟩
  | .select isList name members => by
    have hstart := (tracks_header isList name).print "SELECT OF (".toList
    have hall := (tracks_members members hstart).print "]".toList
    refine ⟨_, hall.congr ?_⟩
    have hmono : (header isList name ++ "SELECT OF (".toList).length < bufferSize →
        (header isList name).length < bufferSize := fun hlt => by
      rw [List.length_append] at hlt
      omega
    rw [and_assoc, and_iff_right_of_imp hmono]
    rfl
  | .enum isList name literals => by
    have hstart := (tracks_header isList name).print "ENUMERATION OF <".toList
    have hall := (hstart.literals literals).print "]".toList
    refine ⟨_, hall.congr (and_iff_right_of_imp fun hlt => ?_)⟩
    have hle := length_printLiterals literals (header isList name ++ "ENUMERATION OF <".toList)
    rw [List.length_append] at hlt hle
    refine ⟨⟨?_, ?_⟩, ?_⟩
    · omega
    · rw [List.length_append]
      omega
    · omega
  | .base isList name type => by
    have hall := ((tracks_header isList name).print (labelOf type)).print "]".toList
    refine ⟨_, hall.congr (and_iff_right_of_imp fun hlt => ?_)⟩
    rw [List.length_append, List.length_append] at hlt
    refine ⟨?_, ?_⟩
    · omega
    · rw [List.length_append]
      omega

theorem MemberTree.tracks : ∀ (member : MemberTree) {b : CBuffer} {u : Str} {size : ℕ} {p : Prop},
    Tracks b u size p → Tracks (member.printed b) (u ++ member.text)
      (max size (u.length + member.asked)) (p ∧ member.Fits)
  | .nested tree, b, u, size, p, h => by
    obtain ⟨size', htree⟩ := tree.tracks
    exact h.child htree.stands
  | .entity name, b, u, size, p, h => by
    have h' := h.printResized (.refl _) (name.length + 20) (fun _ => rfl)
      (Nat.lt_of_succ_lt (MemberTree.entity name).text_lt_asked)
    rwa [← Nat.add_assoc] at h'
  | .plain name type, b, u, size, p, h => by
    have h' := h.printResized (.refl _) (name.length + (labelOf type).length + 5)
      (fun _ => rfl) (Nat.lt_of_succ_lt (MemberTree.plain name type).text_lt_asked)
    rwa [← Nat.add_assoc, ← Nat.add_assoc] at h'

theorem tracks_members : ∀ (members : List MemberTree) {b : CBuffer} {u : Str} {size : ℕ}
    {p : Prop}, Tracks b u size p → Tracks (printedAll b members) (printedAll u members)
      (sizeAfter size u.length members) (p ∧ AllFit members)
  | [], b, u, size, p, h => h.congr (and_iff_left trivial).symm
  | m :: ms, b, u, size, p, h => by
    have hsep : (if ms = [] then ")".toList else "|".toList).length = 1 := by split <;> rfl
    have hm := (m.tracks h).print (if ms = [] then ")".toList else "|".toList)
    have hroom : (u ++ m.text ++ (if ms = [] then ")".toList else "|".toList)).length <
        max size (u.length + m.asked) := by
      have := m.text_lt_asked
      rw [List.length_append, List.length_append, hsep]
      omega
    have hms := tracks_members ms (hm.congr (and_iff_left hroom))
    rw [List.length_append, List.length_append, hsep, and_assoc, ← m.printed_str] at hms
    exact hms

end

/-- **Main result.**  A type is printed whole, and the size kept is that of the block, exactly when
its tree fits. -/
theorem untruncated_iff {n : ℕ} {s : Schema} {t : TypeRecord} {tree : TypeTree}
    (h : unfold n s t = .ok tree) : ∃ (b : CBuffer) (u : Str), serializeTypeTree n s t = .ok b ∧
      serializeTypeTree n s t = .ok u ∧ ((b.text = u ∧ b.bufSize = b.allocated) ↔ tree.Fits) := by
  obtain ⟨size, htracks⟩ := tree.tracks
  refine ⟨tree.printed, tree.text, serialize_ok h, serialize_ok h, ?_⟩
  constructor
  · rintro ⟨htext, -⟩
    by_contra hfits
    have hshort := htracks.short hfits
    rw [htext] at hshort
    exact absurd hshort (lt_irrefl _)
  · intro hfits
    rw [(htracks.exact hfits).1]
    exact ⟨rfl, rfl⟩

/-- An enumeration, a string and an entity. -/
def mixedSchema : Schema :=
  { newSchema with
      types := [{ newType with name := "IfcColour".toList, type := .enum, enumNum := 2,
                                enumList := ["RED".toList, "BLUE".toList] },
        { newType with name := "IfcLabel".toList, type := .string }],
      entities := [newEntity "IfcR".toList] }

/-- A list of one of them. -/
def mixedType : TypeRecord :=
  { newType with name := "IfcValue".toList, type := .select, isList := true, selectNum := 3,
                 selectList := [.type 0, .type 1, .entity 0] }

/-- The tree of a selection among an enumeration, a string and an entity. -/
def mixedTree : TypeTree :=
  .select true "IfcValue".toList
    [.nested (.enum false "IfcColour".toList ["RED".toList, "BLUE".toList]),
      .plain "IfcLabel".toList .string, .entity "IfcR".toList]

theorem unfold_mixed : unfold 2 mixedSchema mixedType = .ok mixedTree := rfl

theorem fits_mixed : mixedTree.Fits := by
  have hnested : (TypeTree.enum false "IfcColour".toList ["RED".toList, "BLUE".toList]).Fits := by
    show _ < _
    decide +kernel
  exact ⟨by decide +kernel, ⟨hnested, trivial, trivial, trivial⟩, by decide +kernel⟩

/-- A type that leads to others. -/
theorem untruncated_mixed : ∃ (b : CBuffer) (u : Str),
    serializeTypeTree 2 mixedSchema mixedType = .ok b ∧
      serializeTypeTree 2 mixedSchema mixedType = .ok u ∧ b.text = u ∧
      b.bufSize = b.allocated := by
  obtain ⟨b, u, hb, hu, hfits⟩ := untruncated_iff unfold_mixed
  exact ⟨b, u, hb, hu, hfits.mpr fits_mixed⟩

/-- An enumeration of two literals of 600 letters. -/
def longType : TypeRecord :=
  { newType with name := "IfcEnum".toList, type := .enum, enumNum := 2,
                 enumList := [List.replicate 600 'A', List.replicate 600 'B'] }

/-- An enumeration whose labels outgrow the buffer. -/
def longTree : TypeTree :=
  .enum false "IfcEnum".toList (longType.enumList.take longType.enumNum)

/-- There the text is cut although more was allocated. -/
theorem not_always_untruncated : ∃ (b : CBuffer) (u : Str),
    serializeTypeTree 1 newSchema longType = .ok b ∧
      serializeTypeTree 1 newSchema longType = .ok u ∧ b.text ≠ u ∧ b.bufSize < b.allocated := by
  have htree : unfold 1 newSchema longType = .ok longTree :=
    unfold_enum 0 newSchema rfl (by decide) le_rfl
  have hlength : (longTree.printed : CBuffer).text.length ≠ (longTree.printed : Str).length := by
    decide +kernel
  have hsize : (longTree.printed : CBuffer).bufSize < (longTree.printed : CBuffer).allocated := by
    decide +kernel
  exact ⟨longTree.printed, longTree.printed, serialize_ok htree, serialize_ok htree,
    fun heq => hlength (congrArg List.length heq), hsize⟩

end VulcanDB.Express
