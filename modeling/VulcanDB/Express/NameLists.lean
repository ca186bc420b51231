import VulcanDB.Express.Grammar
import VulcanDB.Library.Block

/-!
# EXPRESS — Lists of names

The actions that join the names of a list, and cut what they joined.  A rule is reduced after the
list behind it, which is a null pointer where it is empty.  The counters are of type `int`, which
holds the length of every text that is scanned.

* `joined_isString`: what the reductions of a list build, within the room of each block.
* `enumAttr_joins`, `entityNames_joins`: it is what the rules of the grammar give.
* `names_round_trip`: the names that are cut are those that were joined.
-/

namespace VulcanDB.Express

open Cxx

/-! ### Joining -/

/-- `res` is made longer by a comma and the list, and both are appended. -/
def joinName (res : Block Char) (list : Option (Block Char)) : Option (Block Char) := do
  let name ← cString res.cells
  match list with
  | none => strcat (res.realloc (name.length + 1 + 0 + 1)) ",".toList
  | some list =>
    let tail ← cString list.cells
    let res ← strcat (res.realloc (name.length + 1 + tail.length + 1)) ",".toList
    strcat res tail

namespace Action

/-- `enum_attr: LABEL label_list`. -/
def enumAttr : Block Char → Option (Block Char) → Option (Block Char) := joinName

/-- `label_list: COMMA LABEL label_list`. -/
def labelList : Block Char → Option (Block Char) → Option (Block Char) := joinName

/-- `entity_names: ENTITY_NAME entity_name_list`. -/
def entityNames : Block Char → Option (Block Char) → Option (Block Char) := joinName

/-- `entity_name_list: COMMA ENTITY_NAME entity_name_list`. -/
def entityNameList : Block Char → Option (Block Char) → Option (Block Char) := joinName

end Action

/-- The reductions of a list by one rule, from the last name on. -/
def reduceList (rule : Block Char → Option (Block Char) → Option (Block Char)) :
    List Str → Option (Option (Block Char))
  | [] => some none
  | n :: ns => do return some (← rule (strdup n) (← reduceList rule ns))

/-- The reductions of an enumeration's labels. -/
def reduceEnumAttr (n : Str) (ns : List Str) : Option (Block Char) := do
  Action.enumAttr (strdup n) (← reduceList Action.labelList ns)

/-- The reductions of a select's names. -/
def reduceEntityNames (n : Str) (ns : List Str) : Option (Block Char) := do
  Action.entityNames (strdup n) (← reduceList Action.entityNameList ns)

/-- Each name with a comma after it. -/
def joined (names : List Str) : Str := names.flatMap fun n => n ++ ",".toList

/-- A label or a name without a terminator in it. -/
def IsName (n : Str) : Prop := terminator ∉ n

/-- Names without NUL are joined without it. -/
theorem not_mem_joined {names : List Str} (h : ∀ n ∈ names, IsName n) :
    terminator ∉ joined names := by
  intro hmem
  obtain ⟨n, hn, hc⟩ := List.mem_flatMap.mp hmem
  rcases List.mem_append.mp hc with hc | hc
  · exact h n hn hc
  · exact absurd hc (by decide)

/-- The space for a comma and the list behind it is what they take up. -/
theorem joinName_spec {n t : Str} (hn : IsName n) (ht : terminator ∉ t) {list : Option (Block Char)}
    (hlist : (list = none ∧ t = []) ∨ ∃ b, list = some b ∧ IsString b t) :
    ∃ b, joinName (strdup n) list = some b ∧ IsString b (n ++ ",".toList ++ t) := by
  have hcomma : terminator ∉ n ++ ",".toList := fun h =>
    (List.mem_append.mp h).elim hn (by decide)
  have hall : terminator ∉ n ++ ",".toList ++ t := fun h =>
    (List.mem_append.mp h).elim hcomma ht
  have hname : cString (strdup n).cells = some n := (isString_strdup hn).cString
  have hfirst : ∀ m, strcat ((strdup n).realloc (n.length + 1 + m + 1)) ",".toList =
      some ⟨store (n ++ ",".toList) ++ List.replicate m none⟩ := by
    intro m
    have hlen : n.length + 1 + m + 1 = n.length + 1 + (",".toList.length + m) := by
      rw [show ",".toList.length = 1 from rfl, Nat.add_assoc, Nat.add_comm m]
    rw [hlen, strdup, realloc_store]
    exact strcat_store hn m
  rcases hlist with ⟨rfl, rfl⟩ | ⟨list, rfl, hstring⟩
  · refine ⟨⟨store (n ++ ",".toList)⟩, ?_, hall, ?_⟩
    · simp only [joinName, hname, Option.bind_eq_bind, Option.bind_some]
      exact (hfirst 0).trans (by simp)
    · rw [List.append_nil]
  · refine ⟨⟨store (n ++ ",".toList ++ t)⟩, ?_, hall, rfl⟩
    simp only [joinName, hname, hstring.cString, Option.bind_eq_bind, Option.bind_some, hfirst]
    exact (strcat_store hcomma 0).trans (by simp)

/-- **The reductions of a list** leave the names joined with commas, within the blocks. -/
theorem reduceList_spec {rule : Block Char → Option (Block Char) → Option (Block Char)}
    (hrule : rule = joinName) {names : List Str} (h : ∀ n ∈ names, IsName n) :
    ∃ list, reduceList rule names = some list ∧ ((list = none ∧ joined names = []) ∨
      ∃ b, list = some b ∧ IsString b (joined names)) := by
  subst hrule
  induction names with
  | nil => exact ⟨none, rfl, .inl ⟨rfl, rfl⟩⟩
  | cons n ns ih =>
      obtain ⟨hn, hns⟩ := List.forall_mem_cons.mp h
      obtain ⟨list, hlist, hspec⟩ := ih hns
      obtain ⟨b, hb, hstring⟩ := joinName_spec hn (not_mem_joined hns) hspec
      refine ⟨some b, ?_, .inr ⟨b, rfl, hstring⟩⟩
      simp only [reduceList, hlist, hb, Option.bind_eq_bind, Option.bind_some]
      rfl

/-- **The names of a list are joined,** and no `strcat` leaves the space of its `realloc`. -/
theorem joined_isString {n : Str} {ns : List Str} (h : ∀ m ∈ n :: ns, IsName m) :
    (∃ b, reduceEnumAttr n ns = some b ∧ IsString b (joined (n :: ns))) ∧
      ∃ b, reduceEntityNames n ns = some b ∧ IsString b (joined (n :: ns)) := by
  obtain ⟨hn, hns⟩ := List.forall_mem_cons.mp h
  obtain ⟨list, hlist, hspec⟩ := reduceList_spec (rfl : joinName = joinName) hns
  obtain ⟨b, hb, hstring⟩ := joinName_spec hn (not_mem_joined hns) hspec
  have hreduced : (do joinName (strdup n) (← reduceList joinName ns)) = some b := by
    simp only [hlist, Option.bind_eq_bind, Option.bind_some]
    exact hb
  exact ⟨⟨b, hreduced, hstring⟩, b, hreduced, hstring⟩

/-! ### The rules -/

theorem labelList_joins (ts : List Token) : ∃ ns, (labelList ts).1 = joined ns ∧
    ts = (ns.flatMap fun n => [Token.comma, Token.label n]) ++ (labelList ts).2 := by
  fun_induction labelList ts with
  | case1 l ts ih =>
      obtain ⟨ns, hs, hts⟩ := ih
      exact ⟨l :: ns, congrArg (l ++ ",".toList ++ ·) hs, congrArg (.comma :: .label l :: ·) hts⟩
  | case2 ts => exact ⟨[], rfl, rfl⟩

theorem entityNameList_joins (ts : List Token) : ∃ ns, (entityNameList ts).1 = joined ns ∧
    ts = (ns.flatMap fun n => [Token.comma, Token.entityName n]) ++ (entityNameList ts).2 := by
  fun_induction entityNameList ts with
  | case1 l ts ih =>
      obtain ⟨ns, hs, hts⟩ := ih
      exact ⟨l :: ns, congrArg (l ++ ",".toList ++ ·) hs,
        congrArg (.comma :: .entityName l :: ·) hts⟩
  | case2 ts => exact ⟨[], rfl, rfl⟩

theorem enumAttr_labels {ts rest : List Token} {s : Str} (h : enumAttr ts = some (s, rest)) :
    ∃ n ns, ts = .label n :: (ns.flatMap fun n => [Token.comma, Token.label n]) ++ rest ∧
      s = joined (n :: ns) := by
  unfold enumAttr at h
  split at h
  · rename_i n ts
    obtain ⟨rfl, rfl⟩ := Prod.mk.inj (Option.some.inj h)
    obtain ⟨ns, hs, hts⟩ := labelList_joins ts
    exact ⟨n, ns, congrArg (.label n :: ·) hts, congrArg (n ++ ",".toList ++ ·) hs⟩
  · cases h

theorem entityNames_names {ts rest : List Token} {s : Str} (h : entityNames ts = some (s, rest)) :
    ∃ n ns, ts = .entityName n :: (ns.flatMap fun n => [Token.comma, Token.entityName n]) ++ rest ∧
      s = joined (n :: ns) := by
  unfold entityNames at h
  split at h
  · rename_i n ts
    obtain ⟨rfl, rfl⟩ := Prod.mk.inj (Option.some.inj h)
    obtain ⟨ns, hs, hts⟩ := entityNameList_joins ts
    exact ⟨n, ns, congrArg (.entityName n :: ·) hts, congrArg (n ++ ",".toList ++ ·) hs⟩
  · cases h

/-- The string of an enumeration is what the reductions of its labels build. -/
theorem enumAttr_joins {ts rest : List Token} {s : Str} (h : enumAttr ts = some (s, rest)) :
    ∃ n ns, ts = .label n :: (ns.flatMap fun n => [Token.comma, Token.label n]) ++ rest ∧
      ((∀ m ∈ n :: ns, IsName m) → ∃ b, reduceEnumAttr n ns = some b ∧ IsString b s) := by
  obtain ⟨n, ns, hts, rfl⟩ := enumAttr_labels h
  exact ⟨n, ns, hts, fun hnames => (joined_isString hnames).1⟩

/-- What the reductions leave for them. -/
theorem entityNames_joins {ts rest : List Token} {s : Str} (h : entityNames ts = some (s, rest)) :
    ∃ n ns, ts = .entityName n :: (ns.flatMap fun n => [Token.comma, Token.entityName n]) ++ rest ∧
      ((∀ m ∈ n :: ns, IsName m) → ∃ b, reduceEntityNames n ns = some b ∧ IsString b s) := by
  obtain ⟨n, ns, hts, rfl⟩ := entityNames_names h
  exact ⟨n, ns, hts, fun hnames => (joined_isString hnames).2⟩

/-! ### Cutting -/

namespace Action

/-- `enum_num` and `enum_list`, from the string of `enum_attr`. -/
def enumeration (buffer : Block Char) : Option (ℕ × List Str) :=
  cutNames ',' buffer.cells (newTypeNameArgs none .enum).enumList.length

/-- `select_num` and `select_list`, from the string of `entity_names`. -/
def select (buffer : Block Char) : Option (ℕ × List Str) :=
  cutNames ',' buffer.cells (newTypeNameArgs none .select).selectList.length

/-- `*num` and the list that is returned. -/
def splitString (s : Block Char) (delim : Char) (num : ℕ) : Option (ℕ × List Str) := do
  cutNames delim (strdup (← cString s.cells)).cells num

end Action

/-- All three cut a string where the grammar splits it. -/
theorem cut_eq_splitString {b : Block Char} {s : Str} (h : IsString b s) :
    Action.enumeration b = some (s.count ',', splitString s) ∧
      Action.select b = some (s.count ',', splitString s) ∧
      Action.splitString b ',' 0 = some (s.count ',', splitString s) := by
  have hcut : cutNames ',' b.cells 0 = some (s.count ',', splitString s) := by
    rw [h.2]
    exact cutNames_store (by decide) h.1
  refine ⟨hcut, hcut, ?_⟩
  rw [Action.splitString, h.cString]
  exact cutNames_store (by decide) h.1

/-- **Main result.**  The names of a list are the same after they were joined and cut again, with
their number, by each of the three. -/
theorem names_round_trip {n : Str} {ns : List Str} (h : ∀ m ∈ n :: ns, IsName m)
    (hcomma : ∀ m ∈ n :: ns, ',' ∉ m) :
    (∃ b, reduceEnumAttr n ns = some b ∧
      Action.enumeration b = some ((n :: ns).length, n :: ns)) ∧
    ∃ b, reduceEntityNames n ns = some b ∧ Action.select b = some ((n :: ns).length, n :: ns) ∧
      Action.splitString b ',' 0 = some ((n :: ns).length, n :: ns) := by
  have hsplit : splitString (joined (n :: ns)) = n :: ns := splitString_joined hcomma
  have hcount : (joined (n :: ns)).count ',' = (n :: ns).length := count_joined hcomma
  obtain ⟨⟨b, hb, hstring⟩, b', hb', hstring'⟩ := joined_isString h
  obtain ⟨henum, -, -⟩ := cut_eq_splitString hstring
  obtain ⟨-, hselect, hsubtypes⟩ := cut_eq_splitString hstring'
  rw [hsplit, hcount] at henum hselect hsubtypes
  exact ⟨⟨b, hb, henum⟩, b', hb', hselect, hsubtypes⟩

theorem names_round_trip_colours :
    (∃ b, reduceEnumAttr "RED".toList ["GREEN".toList] = some b ∧
      Action.enumeration b = some (2, ["RED".toList, "GREEN".toList])) ∧
    ∃ b, reduceEntityNames "RED".toList ["GREEN".toList] = some b ∧
      Action.select b = some (2, ["RED".toList, "GREEN".toList]) ∧
      Action.splitString b ',' 0 = some (2, ["RED".toList, "GREEN".toList]) :=
  names_round_trip (by unfold IsName; decide) (by decide)

end VulcanDB.Express
