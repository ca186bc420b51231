import VulcanDB.Compression.Runs

/-!
# Compression — Entity names

The number of an entity name is kept in an `int`: `atoi` converts it on its own at the definition
and at each citation, and `id_baseID` is keyed by it.

* `assigned_eq`: the id of a name, wherever it is converted.
* `names_kept_iff`: the sections in which two names have two ids, and a citation is resolved to the
  instance it names.
-/

namespace VulcanDB.Compression

open Cxx HashCons

/-- The text begins with the digits of `n`, behind blanks and before anything but a digit. -/
def ReadsNumber (s : Str) (n : ℕ) : Prop :=
  ∃ b ds rest, (∀ c ∈ b, isSpace c = true) ∧ ds ≠ [] ∧ (∀ c ∈ ds, c.isDigit = true) ∧
    rest.head?.any Char.isDigit = false ∧ digitsValue ds = n ∧ s = b ++ (ds ++ rest)

/-- The line defines the entity `#n`. -/
def DefinesName (l : Str) (n : ℕ) : Prop :=
  ∃ s rest, ReadsNumber s n ∧ '=' ∉ s ∧ l = '#' :: (s ++ '=' :: rest)

/-- The token cites the entity `#n`: alone, or at the start, inside or at the end of a list, with
whatever follows the number. -/
def CitesName (t : Str) (n : ℕ) : Prop :=
  ∃ opened s, ReadsNumber s n ∧ t = paren opened '(' ++ '#' :: s

/-- The id `i` is assigned to the name `#n` in the section. -/
inductive Assigned (mode : Mode) (ls : List Str) (n : ℕ) : Int → Prop
  | definition {l i type content cite} (hl : l ∈ instances ls) (hn : DefinesName l n)
    (h : ifcInstanceAna mode l = .ok (i, type, content, cite)) : Assigned mode ls n i
  | citation {l t c i} (hl : l ∈ instances ls) (ht : t ∈ tokens (argsText l))
    (hn : CitesName t n) (h : cutParens t = .ok c) (hc : c.cite = some i) : Assigned mode ls n i

/-- The name `#n` occurs in the section, in a definition that is read or in a citation. -/
def Occurs (ls : List Str) (n : ℕ) : Prop :=
  ∃ l ∈ instances ls, (Parses l ∧ DefinesName l n) ∨ ∃ t ∈ tokens (argsText l), CitesName t n

/-- The base id `b` is that of the instance `#n`. -/
def BaseOf (mode : Mode) (ls : List Str) (w : Work) (n b : ℕ) : Prop :=
  ∃ l ∈ instances ls, DefinesName l n ∧ ∃ i type content cite content',
    ifcInstanceAna mode l = .ok (i, type, content, cite) ∧
      standardContentRel content w.mSet.idBaseID = .ok (true, content') ∧
      w.mSet.number type content' = some b

/-- Two names have two ids, and after Step 1 and any number of rounds of Step 2 a citation finds
the base id of the instance it names or none. -/
structure NamesKept (prog : Program) (mode : Mode) (head : HeadLoop) (text : Str) (ls : List Str) :
    Prop where
  differ : ∀ m n i j, m ≠ n → Assigned mode ls m i → Assigned mode ls n j → i ≠ j
  resolved : ∀ fuel ifcHead is w₀ w₁ k w,
    reading (addInstance prog mode) head fuel text Work.start = some (.ok (ifcHead, is, w₀)) →
    endStep1 w₀ = .ok w₁ → rounds prog k w₁ = .ok w →
    ∀ l ∈ instances ls, ∀ t ∈ tokens (argsText l), ∀ n c i b, CitesName t n →
      cutParens t = .ok c → c.cite = some i → w.mSet.idBaseID.find i = some b →
      BaseOf mode ls w n b

/-! ### The id of a name -/

/-- `atoi` of the digits of a number: cut at the greatest `long`, and then to 32 bits. -/
def nameId (n : ℕ) : Int := (min (2 ^ 63 - 1) (n : Int)).bmod (2 ^ 32)

/-- `atoi` reads the digits, and wraps. -/
theorem ReadsNumber.atoi_eq {s : Str} {n : ℕ} (h : ReadsNumber s n) : atoi s = nameId n := by
  obtain ⟨b, ds, rest, hb, hne, hd, hrest, rfl, rfl⟩ := h
  have hstop : ∀ c, rest.head? = some c → c.isDigit = false := by
    intro c hc
    rwa [hc] at hrest
  rw [atoi, strtol_spaces hb, strtol_digits hne hd hstop, nameId]

/-- A parenthesis at the end is not part of the number. -/
theorem ReadsNumber.dropLast {s : Str} {n : ℕ} (h : ReadsNumber s n) (hends : endsParen s = true) :
    ReadsNumber s.dropLast n := by
  obtain ⟨b, ds, rest, hb, hne, hd, hrest, rfl, rfl⟩ := h
  have hmore : rest ≠ [] := by
    rintro rfl
    rw [endsParen, decide_eq_true_eq, List.append_nil, List.getLast?_append_of_ne_nil _ hne] at hends
    cases hd _ (List.mem_of_getLast? hends)
  refine ⟨b, ds, rest.dropLast, hb, hne, hd, ?_, rfl, ?_⟩
  · cases rest with
    | nil => exact absurd rfl hmore
    | cons c rest =>
        cases rest with
        | nil => rfl
        | cons d rest => exact hrest
  · rw [List.dropLast_append_of_ne_nil (by simp [hmore]), List.dropLast_append_of_ne_nil hmore]

/-- Two numbers give one id exactly when they agree modulo `2 ^ 32`, up to the greatest `long`. -/
theorem nameId_eq_iff {m n : ℕ} :
    nameId m = nameId n ↔ min m (2 ^ 63 - 1) % 2 ^ 32 = min n (2 ^ 63 - 1) % 2 ^ 32 := by
  have hcast : ∀ k : ℕ, min (2 ^ 63 - 1) (k : Int) = ((min k (2 ^ 63 - 1) : ℕ) : Int) := by
    intro k
    omega
  have hmod : ∀ a b : Int,
      a.bmod (2 ^ 32) = b.bmod (2 ^ 32) ↔ a % (2 ^ 32 : ℕ) = b % (2 ^ 32 : ℕ) := by
    intro a b
    constructor
    · intro h
      rw [← Int.bmod_emod, h, Int.bmod_emod]
    · intro h
      rw [← Int.emod_bmod, h, Int.emod_bmod]
  rw [nameId, nameId, hcast, hcast, hmod]
  omega

/-- An instance gets the id of the name that it defines. -/
theorem idOf_name {l : Str} {n : ℕ} (h : DefinesName l n) : idOf l = nameId n := by
  obtain ⟨s, rest, hs, hnot, rfl⟩ := h
  have hindex : indexText ('#' :: (s ++ '=' :: rest)) = s := by
    have hsharp : '=' ∉ '#' :: s := by
      rw [List.mem_cons, not_or]
      exact ⟨by decide, hnot⟩
    rw [← List.cons_append, indexText, if_neg (by simp), before_append hsharp, List.tail_cons]
  rw [idOf, hindex, hs.atoi_eq]

/-- What is left of a citation without its parentheses. -/
theorem cutOf_name {s : Str} {n : ℕ} (h : ReadsNumber s n) (opened : Bool) :
    ∃ s', ReadsNumber s' n ∧ (cutOf (paren opened '(' ++ '#' :: s)).pp = '#' :: s' := by
  have hne : s ≠ [] := by
    obtain ⟨b, ds, rest, -, hne, -, -, -, rfl⟩ := h
    simp [hne]
  have hsharp : endsParen ('#' :: s) = endsParen s := by
    rw [endsParen, endsParen, List.getLast?_cons_of_ne_nil hne]
  have hdrop : ('#' :: s).dropLast = '#' :: s.dropLast := List.dropLast_cons_of_ne_nil hne
  cases hends : endsParen s with
  | true =>
      refine ⟨s.dropLast, h.dropLast hends, ?_⟩
      cases opened <;> simp [paren, cutOf, hsharp, hends, hdrop]
  | false =>
      refine ⟨s, h, ?_⟩
      cases opened <;> simp [paren, cutOf, hsharp, hends]

/-- A citation gets the id of the name that it cites. -/
theorem cite_name {t : Str} {n : ℕ} {c : Cut} (h : CitesName t n) (hc : cutParens t = .ok c) :
    c.cite = some (nameId n) := by
  obtain ⟨opened, s, hs, rfl⟩ := h
  rw [cutParens_eq (by simp)] at hc
  obtain rfl := Except.ok.inj hc
  obtain ⟨s', hs', hpp⟩ := cutOf_name hs opened
  rw [Cut.cite, hpp, if_pos (by simp), List.tail_cons, hs'.atoi_eq]

/-- **The id of a name**, at its definition and at a citation. -/
theorem assigned_eq {mode : Mode} {ls : List Str} {n : ℕ} {i : Int} (h : Assigned mode ls n i)
    (hwhole : ∀ l ∈ instances ls, Whole l) : i = nameId n ∧ Occurs ls n := by
  cases h with
  | @definition l _ type content cite hl hn h =>
      have hw := hwhole l hl
      have hp : Parses l := by
        by_contra hp
        obtain ⟨e, he⟩ := ifcInstanceAna_error mode hw.ne_nil hw.trimmed hp
        rw [he] at h
        cases h
      rw [ifcInstanceAna_eq mode hw.ne_nil hw.trimmed hw.newline hp] at h
      obtain ⟨rfl, -⟩ := Prod.mk.inj (Except.ok.inj h)
      exact ⟨idOf_name hn, l, hl, .inl ⟨hp, hn⟩⟩
  | @citation l t c _ hl ht hn h hc =>
      rw [cite_name hn h] at hc
      exact ⟨(Option.some.inj hc).symm, l, hl, .inr ⟨t, ht, hn⟩⟩

theorem exists_assigned (mode : Mode) {ls : List Str} {n : ℕ} (h : Occurs ls n)
    (hwhole : ∀ l ∈ instances ls, Whole l) : Assigned mode ls n (nameId n) := by
  obtain ⟨l, hl, ⟨hp, hn⟩ | ⟨t, ht, hn⟩⟩ := h
  · have hw := hwhole l hl
    have heq := ifcInstanceAna_eq mode hw.ne_nil hw.trimmed hw.newline hp
    rw [idOf_name hn] at heq
    exact .definition hl hn heq
  · have hne : t ≠ [] := by
      obtain ⟨opened, s, -, rfl⟩ := hn
      simp
    exact .citation hl ht hn (cutParens_eq hne) (cite_name hn (cutParens_eq hne))

/-! ### Resolving a citation -/

/-- After Step 1 and some rounds of Step 2 an id has the base id of an instance of its own. -/
theorem found_base {prog : Program} {mode : Mode} {head : HeadLoop} {fuel k : ℕ}
    {text ifcHead : Str} {is : IStream} {w₀ w₁ w : Work} {a more : List Str}
    (hhas : HasRead head text a more)
    (hr : reading (addInstance prog mode) head fuel text Work.start = some (.ok (ifcHead, is, w₀)))
    (he : endStep1 w₀ = .ok w₁) (hrounds : rounds prog k w₁ = .ok w) {i : Int} {b : ℕ}
    (hb : w.mSet.idBaseID.find i = some b) :
    ∃ l ∈ instances a, Parses l ∧ idOf l = i ∧ ∃ i' type content cite content',
      ifcInstanceAna mode l = .ok (i', type, content, cite) ∧
        standardContentRel content w.mSet.idBaseID = .ok (true, content') ∧
        w.mSet.number type content' = some b := by
  obtain ⟨a', more', hhas', hread, hwhole, hreads, -⟩ := reading_ok hr
  obtain ⟨rfl, -⟩ := hhas'.unique hhas
  have hsim := hreads.sim_of_rounds he hrounds
  set T := (after (nodes mode a') (1 + k)).1
  have htracks : Tracks w T := hsim.tracks
  have hwf : T.WF := after_wf _ _
  rw [htracks.rel] at hb
  -- an id that has a base comes from a node with the base's key
  obtain ⟨n, hn, hid, key, hkey, hbase⟩ := (traces_after (nodes mode a') (1 + k)).sound i b hb
  obtain ⟨l, hl, rfl⟩ := List.mem_map.mp hn
  have hw := hwhole l hl
  have hp := hread.2 l hl
  have hnorm := tokensOf_norm mode hp hw.newline
  have hcontent := standardContentRel_key w.mSet.idBaseID (idOf l) (typeOf l) hnorm
  have hkey' : (nodeOf (idOf l) (typeOf l) (tokensOf mode l)).key w.mSet.idBaseID.find =
      some key := by
    rw [htracks.rel]
    exact hkey
  rw [hkey'] at hcontent
  refine ⟨l, hl, hp, hid, _, _, _, _, _, ifcInstanceAna_eq mode hw.ne_nil hw.trimmed hw.newline hp,
    hcontent, ?_⟩
  have hmem : key ∈ T.bases := List.mem_of_getElem? hbase
  have htype : key.1.type = typeOf l := by rw [(key_eq_some.mp hkey).1]; rfl
  have hnumber : T.number key = b := hwf.number_eq (hwf.rel i b hb).1 hbase
  rw [← htype, htracks.number key (isKey_nodeOf hnorm hkey'), if_pos hmem, hnumber]

/-- **Main result.**  Two names are kept apart exactly when their numbers differ, cut at the
greatest `long`, in their last 32 bits. -/
theorem names_kept_iff (prog : Program) (mode : Mode) (head : HeadLoop) {text : Str}
    {ls : List Str} (hsec : DataSection text ls)
    (hdef : ∀ l ∈ instances ls, ∃ n, DefinesName l n) :
    NamesKept prog mode head text ls ↔ ∀ m n, Occurs ls m → Occurs ls n → m ≠ n →
      min m (2 ^ 63 - 1) % 2 ^ 32 ≠ min n (2 ^ 63 - 1) % 2 ^ 32 := by
  obtain ⟨more, hd⟩ := dataLines_of_section head hsec
  obtain ⟨-, -, -, -, hend⟩ := hsec
  have hhas : HasRead head text ls more := ⟨hend, .inl hd⟩
  have hwhole := instances_whole hhas.newline
  constructor
  · intro h m n hm hn hne hmod
    refine h.differ m n _ _ hne (exists_assigned mode hm hwhole) (exists_assigned mode hn hwhole) ?_
    exact nameId_eq_iff.mpr hmod
  · intro h
    have hdiffer : ∀ m n, Occurs ls m → Occurs ls n → nameId m = nameId n → m = n := by
      intro m n hm hn hid
      by_contra hne
      exact h m n hm hn hne (nameId_eq_iff.mp hid)
    refine ⟨fun m n i j hne hi hj heq => ?_, ?_⟩
    · obtain ⟨rfl, hm⟩ := assigned_eq hi hwhole
      obtain ⟨rfl, hn⟩ := assigned_eq hj hwhole
      exact hne (hdiffer m n hm hn heq)
    · intro fuel ifcHead is w₀ w₁ k w hr he hrounds l hl t ht n c i b hn hc hci hb
      obtain ⟨l', hl', hp, hid, hbase⟩ := found_base hhas hr he hrounds hb
      obtain ⟨n', hn'⟩ := hdef l' hl'
      rw [cite_name hn hc] at hci
      have hsame : n' = n := by
        refine hdiffer n' n ⟨l', hl', .inl ⟨hp, hn'⟩⟩ ⟨l, hl, .inr ⟨t, ht, hn⟩⟩ ?_
        rw [← idOf_name hn', hid, Option.some.inj hci]
      exact ⟨l', hl', hsame ▸ hn', hbase⟩

/-! ### Two sections -/

/-- The number a text begins with. -/
def firstNumber (s : Str) : ℕ := digitsValue (s.dropWhile isSpace)

/-- The first number of a text that begins with digits. -/
theorem ReadsNumber.firstNumber_eq {s : Str} {n : ℕ} (h : ReadsNumber s n) (more : Str)
    (hmore : more.head?.any Char.isDigit = false) : firstNumber (s ++ more) = n := by
  obtain ⟨b, ds, rest, hb, hne, hd, hrest, rfl, rfl⟩ := h
  obtain ⟨c, ds, rfl⟩ := List.exists_cons_of_ne_nil hne
  have hc := isSpace_eq_false_of_isDigit (hd c List.mem_cons_self)
  rw [List.append_assoc, firstNumber, List.dropWhile_append_of_pos hb, List.append_assoc,
    List.cons_append, List.dropWhile_cons_of_neg (by simp [hc]), ← List.cons_append]
  refine digitsValue_append _ fun d hd' => ?_
  cases rest with
  | nil =>
      rw [List.nil_append] at hd'
      rwa [hd'] at hmore
  | cons e rest =>
      obtain rfl : e = d := Option.some.inj hd'
      exact hrest

/-- The numbers that a name in the section can have. -/
def numbers (ls : List Str) : List ℕ :=
  (instances ls).flatMap fun l => firstNumber l.tail ::
    (tokens (argsText l)).map fun t => firstNumber (Cxx.after '#' t)

/-- A name that occurs is among the numbers of the section. -/
theorem Occurs.mem_numbers {ls : List Str} {n : ℕ} (h : Occurs ls n) : n ∈ numbers ls := by
  obtain ⟨l, hl, ⟨-, hn⟩ | ⟨t, ht, hn⟩⟩ := h
  · obtain ⟨s, rest, hs, -, rfl⟩ := hn
    refine List.mem_flatMap.mpr ⟨_, hl, List.mem_cons.mpr (.inl ?_)⟩
    exact (hs.firstNumber_eq _ rfl).symm
  · obtain ⟨opened, s, hs, rfl⟩ := hn
    refine List.mem_flatMap.mpr ⟨l, hl, List.mem_cons_of_mem _ (List.mem_map.mpr ⟨_, ht, ?_⟩)⟩
    have hafter : Cxx.after '#' (paren opened '(' ++ '#' :: s) = s := by
      refine after_append ?_
      cases opened <;> decide
    rw [hafter, ← List.append_nil s]
    exact hs.firstNumber_eq [] rfl

/-- Names beyond an `int` that do not meet. -/
def nearText : Str := "DATA;\n#1=A(3);\n#2147483648 =B((#1, #1 ));\nENDSEC;\n".toList

/-- Its section. -/
def nearLines : List Str := ["#1=A(3);".toList, "#2147483648 =B((#1, #1 ));".toList]

/-- Two names whose numbers are apart, with blanks in a citation and behind a name. -/
theorem names_kept_near :
    NamesKept .compressor ⟨false, 2, binary64⟩ .whileGetline nearText nearLines := by
  refine (names_kept_iff .compressor ⟨false, 2, binary64⟩ .whileGetline
    ⟨[], [], by decide +kernel, by decide, by decide⟩ ?_).mpr ?_
  · have hins : instances nearLines = nearLines := by decide +kernel
    rw [hins]
    intro l hl
    rcases List.mem_cons.mp hl with rfl | hl
    · exact ⟨1, "1".toList, "A(3);".toList, ⟨[], "1".toList, [], by decide⟩, by decide⟩
    · obtain rfl := List.mem_singleton.mp hl
      exact ⟨2147483648, "2147483648 ".toList, "B((#1, #1 ));".toList,
        ⟨[], "2147483648".toList, " ".toList, by decide⟩, by decide⟩
  · have hall : ∀ m ∈ numbers nearLines, ∀ n ∈ numbers nearLines, m ≠ n →
        min m (2 ^ 63 - 1) % 2 ^ 32 ≠ min n (2 ^ 63 - 1) % 2 ^ 32 := by decide +kernel
    exact fun m n hm hn => hall m hm.mem_numbers n hn.mem_numbers

/-- Two names that are one modulo `2 ^ 32`, and a reference to the second. -/
def farText : Str :=
  "DATA;\n#1=A(3);\n#4294967297=B(4);\n#5=C(#4294967297);\nENDSEC;\n".toList

/-- Its section. -/
def farLines : List Str :=
  ["#1=A(3);".toList, "#4294967297=B(4);".toList, "#5=C(#4294967297);".toList]

/-- The names `#1` and `#4294967297` have one id. -/
theorem names_not_always_kept : DataSection farText farLines ∧
    (∀ l ∈ instances farLines, ∃ n, DefinesName l n) ∧
    ¬ NamesKept .compressor ⟨false, 2, binary64⟩ .whileGetline farText farLines := by
  have hins : instances farLines = farLines := by decide +kernel
  have hone : DefinesName "#1=A(3);".toList 1 :=
    ⟨"1".toList, "A(3);".toList, ⟨[], "1".toList, [], by decide⟩, by decide⟩
  have hfar : DefinesName "#4294967297=B(4);".toList 4294967297 :=
    ⟨"4294967297".toList, "B(4);".toList, ⟨[], "4294967297".toList, [], by decide⟩, by decide⟩
  refine ⟨⟨[], [], by decide +kernel, by decide, by decide⟩, ?_, fun h => ?_⟩
  · rw [hins]
    intro l hl
    rcases List.mem_cons.mp hl with rfl | hl
    · exact ⟨1, hone⟩
    rcases List.mem_cons.mp hl with rfl | hl
    · exact ⟨4294967297, hfar⟩
    · obtain rfl := List.mem_singleton.mp hl
      exact ⟨5, "5".toList, "C(#4294967297);".toList, ⟨[], "5".toList, [], by decide⟩, by decide⟩
  · have hmem : farLines ⊆ instances farLines := hins ▸ List.Subset.refl _
    have hread : ifcInstanceAna ⟨false, 2, binary64⟩ "#1=A(3);".toList =
        .ok (1, "A".toList, "3".toList, []) := by decide +kernel
    have hread' : ifcInstanceAna ⟨false, 2, binary64⟩ "#4294967297=B(4);".toList =
        .ok (1, "B".toList, "4".toList, []) := by decide +kernel
    exact h.differ 1 4294967297 1 1 (by decide)
      (.definition (hmem (by decide)) hone hread) (.definition (hmem (by decide)) hfar hread') rfl

end VulcanDB.Compression
