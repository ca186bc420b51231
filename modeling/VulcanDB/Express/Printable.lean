import VulcanDB.Express.TypeTree

/-!
# EXPRESS — Types that can be serialised

`serialize_type_tree` follows derived types and the members of a `SELECT` without a bound, and does
not ask what kind of record they lead to.

* `exists_unfold_succ`: what a call needs of the calls that it makes.
* `unfolds_iff`: the types that are followed to an end.
-/

namespace VulcanDB.Express

open Cxx Steps

/-! ### Members -/

/-- What a member of a `SELECT` leads to: a call for a type, if there is one. -/
inductive Member (s : Schema) (d : Desc) : Option TypeRecord → Prop
  | entity {i e} (h : s.child d = .ok (.entity i)) (he : s.entities[i]? = some e) : Member s d none
  | plain {i t name l} (h : s.child d = .ok (.type i)) (ht : s.types[i]? = some t)
    (hn : ¬ t.Nested) (hname : t.name = some name) (hl : typeNames t.type = .ok l) : Member s d none
  | nested {i t} (h : s.child d = .ok (.type i)) (ht : s.types[i]? = some t) (hn : t.Nested) :
    Member s d (some t)

section Members

variable {s : Schema} {d : Desc} {f g : TypeRecord → Except Stop TypeTree}

theorem typeAt_ok {i : ℕ} {t : TypeRecord} : s.typeAt i = .ok t ↔ s.types[i]? = some t := by
  unfold Schema.typeAt
  cases s.types[i]? <;> simp

theorem entityAt_ok {i : ℕ} {e : EntityRecord} : s.entityAt i = .ok e ↔ s.entities[i]? = some e := by
  unfold Schema.entityAt
  cases s.entities[i]? <;> simp

/-- The name of a type, when it has one. -/
theorem childName_ok {t : TypeRecord} {name : Str} : childName t = .ok name ↔ t.name = some name := by
  unfold childName
  cases t.name <;> simp

/-- A member is printed where the call for it is. -/
theorem memberTree_iff : (∃ m, memberTree f s d = .ok m) ↔
    ∃ call, Member s d call ∧ ∀ t ∈ call, ∃ tree, f t = .ok tree := by
  constructor
  · rintro ⟨m, h⟩
    simp only [memberTree, bind_eq_ok] at h
    obtain ⟨child, hchild, h⟩ := h
    cases child with
    | entity i =>
        obtain ⟨e, he, -⟩ := bind_eq_ok.mp h
        exact ⟨none, .entity hchild (entityAt_ok.mp he), fun t ht => by cases ht⟩
    | type i =>
        obtain ⟨t, ht, h⟩ := bind_eq_ok.mp h
        split at h
        · rename_i hn
          obtain ⟨tree, htree, -⟩ := bind_eq_ok.mp h
          refine ⟨some t, .nested hchild (typeAt_ok.mp ht) hn, fun t' ht' => ?_⟩
          obtain rfl := Option.some.inj ht'
          exact ⟨tree, htree⟩
        · rename_i hn
          obtain ⟨name, hname, h⟩ := bind_eq_ok.mp h
          obtain ⟨l, hl, -⟩ := bind_eq_ok.mp h
          exact ⟨none, .plain hchild (typeAt_ok.mp ht) hn (childName_ok.mp hname) hl,
            fun t ht => by cases ht⟩
  · rintro ⟨call, hcall, hf⟩
    cases hcall with
    -- an entity and a plain type are printed by their names
    | @entity i e h he =>
        refine ⟨.entity e.name, ?_⟩
        simp only [memberTree, h, entityAt_ok.mpr he, bind, Except.bind]
        rfl
    | @plain i t name l h ht hn hname hl =>
        refine ⟨.plain name t.type, ?_⟩
        simp only [memberTree, h, typeAt_ok.mpr ht, if_neg hn, childName_ok.mpr hname, hl, bind,
          Except.bind]
        rfl
    | nested h ht hn =>
        obtain ⟨tree, htree⟩ := hf _ rfl
        refine ⟨.nested tree, ?_⟩
        simp only [memberTree, h, typeAt_ok.mpr ht, if_pos hn, htree, bind, Except.bind]
        rfl

end Members

/-! ### Calls -/

/-- A call comes to its end, where those that it makes do for the types in `P`. -/
inductive Prints (P : TypeRecord → Prop) (s : Schema) (t : TypeRecord) : Prop
  | reference {i e} (h : t.type = .reference) (href : t.refType = some (.entity i))
    (he : s.entities[i]? = some e)
  | derived {i t'} (h : t.type = .derived) (href : t.refType = some (.type i))
    (ht' : s.types[i]? = some t') (hP : P t')
  | select (h : t.type = .select) (hpos : 0 < t.selectNum)
    (hle : t.selectNum ≤ t.selectList.length)
    (hP : ∀ d ∈ t.selectList.take t.selectNum, ∃ call, Member s d call ∧ ∀ t' ∈ call, P t')
  | enum (h : t.type = .enum) (hpos : 0 < t.enumNum) (hle : t.enumNum ≤ t.enumList.length)
  | base {l} (hr : t.type ≠ .reference) (hd : t.type ≠ .derived) (hs : t.type ≠ .select)
    (he : t.type ≠ .enum) (hl : typeNames t.type = .ok l)

section Calls

variable {s : Schema} {t : TypeRecord} {P Q : TypeRecord → Prop}

theorem Prints.mono (h : Prints P s t) (hPQ : ∀ t, P t → Q t) : Prints Q s t := by
  cases h with
  | reference h href he => exact .reference h href he
  | derived h href ht' hP => exact .derived h href ht' (hPQ _ hP)
  | select h hpos hle hP =>
      refine .select h hpos hle fun d hd => ?_
      obtain ⟨call, hcall, hcalls⟩ := hP d hd
      exact ⟨call, hcall, fun t' ht' => hPQ t' (hcalls t' ht')⟩
  | enum h hpos hle => exact .enum h hpos hle
  | base hr hd hs he hl => exact .base hr hd hs he hl

theorem Prints.of_reference (h : Prints P s t) (ht : t.type = .reference) :
    ∃ i e, t.refType = some (.entity i) ∧ s.entities[i]? = some e := by
  cases h with
  | reference _ href he => exact ⟨_, _, href, he⟩
  | derived h => simp [ht] at h
  | select h => simp [ht] at h
  | enum h => simp [ht] at h
  | base h => exact absurd ht h

theorem Prints.of_derived (h : Prints P s t) (ht : t.type = .derived) :
    ∃ i t', t.refType = some (.type i) ∧ s.types[i]? = some t' ∧ P t' := by
  cases h with
  | reference h => simp [ht] at h
  | derived _ href ht' hP => exact ⟨_, _, href, ht', hP⟩
  | select h => simp [ht] at h
  | enum h => simp [ht] at h
  | base _ h => exact absurd ht h

theorem Prints.of_select (h : Prints P s t) (ht : t.type = .select) :
    0 < t.selectNum ∧ t.selectNum ≤ t.selectList.length ∧
      ∀ d ∈ t.selectList.take t.selectNum, ∃ call, Member s d call ∧ ∀ t' ∈ call, P t' := by
  cases h with
  | reference h => simp [ht] at h
  | derived h => simp [ht] at h
  | select _ hpos hle hP => exact ⟨hpos, hle, hP⟩
  | enum h => simp [ht] at h
  | base _ _ h => exact absurd ht h

theorem Prints.of_enum (h : Prints P s t) (ht : t.type = .enum) :
    0 < t.enumNum ∧ t.enumNum ≤ t.enumList.length := by
  cases h with
  | reference h => simp [ht] at h
  | derived h => simp [ht] at h
  | select h => simp [ht] at h
  | enum _ hpos hle => exact ⟨hpos, hle⟩
  | base _ _ _ h => exact absurd ht h

theorem Prints.of_base (h : Prints P s t) (hr : t.type ≠ .reference) (hd : t.type ≠ .derived)
    (hs : t.type ≠ .select) (he : t.type ≠ .enum) : ∃ l, typeNames t.type = .ok l := by
  cases h with
  | reference h => exact absurd h hr
  | derived h => exact absurd h hd
  | select h => exact absurd h hs
  | enum h => exact absurd h he
  | base _ _ _ _ hl => exact ⟨_, hl⟩

/-- The name of the entity that is referred to. -/
theorem refName_ok {name : Str} : s.refName t = .ok name ↔
    ∃ i e, t.refType = some (.entity i) ∧ s.entities[i]? = some e ∧ e.name = name := by
  unfold Schema.refName
  split
  · rename_i h
    simp [h]
  · rename_i i h
    simp only [bind_eq_ok, pure_eq_ok, entityAt_ok, h, Option.some.injEq, Desc.entity.injEq]
    constructor
    · rintro ⟨e, he, rfl⟩
      exact ⟨i, e, rfl, he, rfl⟩
    · rintro ⟨j, e, rfl, he, rfl⟩
      exact ⟨e, he, rfl⟩
  · rename_i i h
    simp [h]

/-- The record of the type that is derived from. -/
theorem refRecord_ok {t' : TypeRecord} : s.refRecord t = .ok t' ↔
    ∃ i, t.refType = some (.type i) ∧ s.types[i]? = some t' := by
  unfold Schema.refRecord
  split
  · rename_i h
    simp [h]
  · rename_i i h
    simp [h, typeAt_ok]
  · rename_i i h
    simp [h]

/-- **What a call needs** of the calls that it makes. -/
theorem exists_unfold_succ {n : ℕ} : (∃ tree, unfold (n + 1) s t = .ok tree) ↔
    Prints (fun t => ∃ tree, unfold n s t = .ok tree) s t := by
  -- the members are unfolded one by one, with the fuel that is left
  have hmembers : (∃ ms, (t.selectList.take t.selectNum).mapM (memberTree (unfold n s) s) = .ok ms) ↔
      ∀ d ∈ t.selectList.take t.selectNum, ∃ call, Member s d call ∧
        ∀ t' ∈ call, ∃ tree, unfold n s t' = .ok tree := by
    rw [exists_mapM_ok]
    exact forall₂_congr fun d _ => memberTree_iff
  rw [unfold]
  by_cases hr : t.type = .reference
  · simp only [hr, if_true, bind_eq_ok, pure_eq_ok, refName_ok]
    constructor
    · rintro ⟨tree, name, ⟨i, e, href, he, -⟩, -⟩
      exact .reference hr href he
    · intro h
      obtain ⟨i, e, href, he⟩ := h.of_reference hr
      exact ⟨_, _, ⟨i, e, href, he, rfl⟩, rfl⟩
  · simp only [hr, if_false]
    split
    · rename_i hd
      simp only [bind_eq_ok, pure_eq_ok, refRecord_ok]
      constructor
      · rintro ⟨tree, t', ⟨i, href, ht'⟩, tree', htree', -⟩
        exact .derived hd href ht' ⟨tree', htree'⟩
      · intro h
        obtain ⟨i, t', href, ht', tree', htree'⟩ := h.of_derived hd
        exact ⟨_, t', ⟨i, href, ht'⟩, tree', htree', rfl⟩
    · rename_i hs
      simp only [bind_eq_ok, pure_eq_ok, require_eq_ok]
      constructor
      · rintro ⟨tree, -, hpos, -, hle, ms, hms, -⟩
        exact .select hs hpos hle (hmembers.mp ⟨ms, hms⟩)
      · intro h
        obtain ⟨hpos, hle, hP⟩ := h.of_select hs
        obtain ⟨ms, hms⟩ := hmembers.mpr hP
        exact ⟨_, (), hpos, (), hle, ms, hms, rfl⟩
    · rename_i he
      simp only [bind_eq_ok, pure_eq_ok, require_eq_ok]
      constructor
      · rintro ⟨tree, -, hpos, -, hle, -⟩
        exact .enum he hpos hle
      · intro h
        obtain ⟨hpos, hle⟩ := h.of_enum he
        exact ⟨_, (), hpos, (), hle, rfl⟩
    · rename_i hd hs he
      simp only [bind_eq_ok, pure_eq_ok]
      constructor
      · rintro ⟨tree, l, hl, -⟩
        exact .base hr hd hs he hl
      · intro h
        obtain ⟨l, hl⟩ := h.of_base hr hd hs he
        exact ⟨_, l, hl, rfl⟩

theorem exists_unfold_mono {n m : ℕ} (h : ∃ tree, unfold n s t = .ok tree) (hle : n ≤ m) :
    ∃ tree, unfold m s t = .ok tree := by
  induction n generalizing m t with
  | zero =>
      obtain ⟨tree, h⟩ := h
      cases h
  | succ n ih =>
      obtain ⟨m, rfl⟩ : ∃ k, m = k + 1 := ⟨m - 1, by omega⟩
      exact exists_unfold_succ.mpr
        ((exists_unfold_succ.mp h).mono fun t ht => ih ht (Nat.le_of_succ_le_succ hle))

/-- The type is followed to an end. -/
def Unfolds (s : Schema) (t : TypeRecord) : Prop := ∃ n tree, unfold n s t = .ok tree

/-- With fuel for each of the members there is fuel for them all. -/
theorem exists_fuel {ds : List Desc}
    (h : ∀ d ∈ ds, ∃ call, Member s d call ∧ ∀ t' ∈ call, Unfolds s t') :
    ∃ n, ∀ d ∈ ds, ∃ call, Member s d call ∧ ∀ t' ∈ call, ∃ tree, unfold n s t' = .ok tree := by
  induction ds with
  | nil => exact ⟨0, by simp⟩
  | cons d ds ih =>
      obtain ⟨⟨call, hcall, hd⟩, hds⟩ := List.forall_mem_cons.mp h
      obtain ⟨n, hn⟩ := ih hds
      obtain ⟨m, hm⟩ : ∃ m, ∀ t' ∈ call, ∃ tree, unfold m s t' = .ok tree := by
        cases call with
        | none => exact ⟨0, by simp⟩
        | some t' =>
            obtain ⟨m, hm⟩ := hd t' rfl
            exact ⟨m, by simpa using hm⟩
      refine ⟨max m n, List.forall_mem_cons.mpr ⟨⟨call, hcall, fun t' ht' => ?_⟩, fun d' hd' => ?_⟩⟩
      · exact exists_unfold_mono (hm t' ht') (le_max_left m n)
      · obtain ⟨call', hcall', hcalls⟩ := hn d' hd'
        exact ⟨call', hcall', fun t' ht' => exists_unfold_mono (hcalls t' ht') (le_max_right m n)⟩

/-- **A type is followed to an end** where those that it leads to are. -/
theorem unfolds_iff : Unfolds s t ↔ Prints (Unfolds s) s t := by
  constructor
  · rintro ⟨n, h⟩
    cases n with
    | zero =>
        obtain ⟨tree, h⟩ := h
        cases h
    | succ n => exact (exists_unfold_succ.mp h).mono fun t ht => ⟨n, ht⟩
  · intro h
    cases h with
    | reference h href he => exact ⟨1, exists_unfold_succ.mpr (.reference h href he)⟩
    | derived h href ht' hP =>
        obtain ⟨n, hn⟩ := hP
        exact ⟨n + 1, exists_unfold_succ.mpr (.derived h href ht' hn)⟩
    | select h hpos hle hP =>
        obtain ⟨n, hn⟩ := exists_fuel hP
        exact ⟨n + 1, exists_unfold_succ.mpr (.select h hpos hle hn)⟩
    | enum h hpos hle => exact ⟨1, exists_unfold_succ.mpr (.enum h hpos hle)⟩
    | base hr hd hs he hl => exact ⟨1, exists_unfold_succ.mpr (.base hr hd hs he hl)⟩

/-- **A type is printed with enough fuel** exactly when it unfolds to an end. -/
theorem exists_serialize {β : Type} [PrintBuffer β] :
    (∃ n, ∃ b : β, serializeTypeTree n s t = .ok b) ↔ Unfolds s t := by
  refine exists_congr fun n => ?_
  rw [serialize_eq]
  cases unfold n s t <;> simp [Except.map]

end Calls

end VulcanDB.Express
