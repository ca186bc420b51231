import Mathlib.Data.List.Nodup
import Mathlib.Data.Option.Basic
import Mathlib.Logic.Function.Basic
import Mathlib.Logic.Relation
import Mathlib.Tactic.Common

/-!
# Library — a catalog of tables, and functions that create them

Data definition in SQL.  A catalog holds types, functions and tables.  The body of a function is
not looked at before the function is called, and a call finds the functions of that moment; a
table is created only where there is none of its name.  `none` is an error of the server.

A *hierarchy* is a set of functions each of which calls that of its parent and then creates a
table that inherits from the parent's.  `Row` is the table that a member of it gets, and
`callAll_iff` says which runs of calls succeed, and what they leave.
-/

namespace Ddl

/-! ### Commands -/

/-- A column of a table, or a field of a composite type. -/
structure Column (I : Type) where
  name : I
  type : I
  isArray : Bool
  notNull : Bool
  deriving DecidableEq

/-- What `CREATE TABLE` is given. -/
structure TableDef (I : Type) where
  name : I
  columns : List (Column I)
  inherits : Option I
  deriving DecidableEq

/-- A statement of a function. -/
inductive Action (I : Type) where
  | perform (f : I)
  /-- `CREATE TABLE IF NOT EXISTS`. -/
  | createTable (t : TableDef I)
  deriving DecidableEq

/-- A statement of a script. -/
inductive Command (I : Type) where
  | createEnum (name : I) (labels : List I)
  | createComposite (name : I) (fields : List (Column I))
  | createFunction (name : I) (body : List (Action I))
  deriving DecidableEq

/-- `types` are the enumerations; a composite type is a relation as well. -/
structure Catalog (I : Type) where
  types : List I
  composites : List I
  functions : I → Option (List (Action I))
  tables : I → Option (List (Column I))

variable {I : Type}

/-- The catalog in which nothing is defined. -/
def Catalog.empty : Catalog I := ⟨[], [], fun _ => none, fun _ => none⟩

variable [DecidableEq I]

/-! ### Tables -/

/-- A column of the table itself beside those it inherits. -/
def addColumn (columns : List (Column I)) (x : Column I) : Option (List (Column I)) :=
  match columns.find? (·.name = x.name) with
  | none => some (columns ++ [x])
  | some y =>
    if y.type = x.type ∧ y.isArray = x.isArray then
      some (columns.map fun z =>
        if z.name = x.name then { z with notNull := z.notNull || x.notNull } else z)
    else none

/-- The columns of a table: those it inherits, then its own. -/
def mergeColumns (inherited own : List (Column I)) : Option (List (Column I)) :=
  own.foldlM addColumn inherited

/-- A column of a new name comes last. -/
theorem addColumn_fresh {columns : List (Column I)} {x : Column I}
    (h : x.name ∉ columns.map Column.name) : addColumn columns x = some (columns ++ [x]) := by
  have hnone : columns.find? (·.name = x.name) = none := by
    rw [List.find?_eq_none]
    intro y hy
    simpa using fun heq : y.name = x.name => h (heq ▸ List.mem_map_of_mem hy)
  rw [addColumn, hnone]

/-- Columns of new names come after the inherited ones. -/
theorem mergeColumns_fresh {inherited own : List (Column I)}
    (h : ((inherited ++ own).map Column.name).Nodup) :
    mergeColumns inherited own = some (inherited ++ own) := by
  induction own generalizing inherited with
  | nil => simp [mergeColumns]
  | cons x xs ih =>
    have hx : x.name ∉ inherited.map Column.name := by
      rw [List.map_append, List.nodup_append'] at h
      exact fun hmem => h.2.2 hmem (by simp)
    rw [List.append_cons] at h
    rw [mergeColumns, List.foldlM_cons, addColumn_fresh hx]
    exact (ih h).trans (by simp)

/-- There is a type of this name: each relation has one. -/
def Catalog.Taken (c : Catalog I) (type : I) : Prop :=
  type ∈ c.types ∨ type ∈ c.composites ∨ (c.tables type).isSome

instance (c : Catalog I) (type : I) : Decidable (c.Taken type) := by
  unfold Catalog.Taken; infer_instance

variable (builtin : I → Bool)

/-- A column may be of this type. -/
def Catalog.Known (c : Catalog I) (type : I) : Prop := builtin type ∨ c.Taken type

instance (c : Catalog I) (type : I) : Decidable (c.Known builtin type) := by
  unfold Catalog.Known; infer_instance

/-- What a table inherits, where there is a table to inherit from. -/
def Catalog.inherited (c : Catalog I) : Option I → Option (List (Column I))
  | none => some []
  | some p => c.tables p

/-- There is a relation of this name. -/
def Catalog.Related (c : Catalog I) (name : I) : Prop :=
  (c.tables name).isSome ∨ name ∈ c.composites

instance (c : Catalog I) (name : I) : Decidable (c.Related name) := by
  unfold Catalog.Related; infer_instance

/-- The catalog with one table more. -/
def Catalog.setTable (c : Catalog I) (name : I) (columns : List (Column I)) : Catalog I :=
  { c with tables := Function.update c.tables name (some columns) }

@[simp] theorem Catalog.setTable_self (c : Catalog I) (name : I) (columns : List (Column I)) :
    (c.setTable name columns).tables name = some columns :=
  Function.update_self ..

theorem Catalog.setTable_of_ne (c : Catalog I) {name i : I} (columns : List (Column I))
    (h : i ≠ name) : (c.setTable name columns).tables i = c.tables i :=
  Function.update_of_ne h ..

/-- `CREATE TABLE IF NOT EXISTS`. -/
def Catalog.createTable (c : Catalog I) (t : TableDef I) : Option (Catalog I) :=
  if c.Related t.name then some c
  else if t.name ∈ c.types then none
  else if (t.columns.map Column.name).Nodup ∧ ∀ x ∈ t.columns, c.Known builtin x.type then do
    let inherited ← c.inherited t.inherits
    let columns ← mergeColumns inherited t.columns
    return c.setTable t.name columns
  else none

/-- What `CREATE TABLE` checks of the table itself. -/
structure Catalog.Accepts (c : Catalog I) (t : TableDef I) : Prop where
  free : t.name ∉ c.types
  nodup : (t.columns.map Column.name).Nodup
  known : ∀ x ∈ t.columns, c.Known builtin x.type

variable {builtin} in
/-- What `CREATE TABLE IF NOT EXISTS` does, and when. -/
theorem Catalog.createTable_iff {c c' : Catalog I} {t : TableDef I} :
    c.createTable builtin t = some c' ↔ c.Related t.name ∧ c' = c ∨
      ¬ c.Related t.name ∧ c.Accepts builtin t ∧ ∃ inherited columns,
        c.inherited t.inherits = some inherited ∧ mergeColumns inherited t.columns = some columns ∧
        c' = c.setTable t.name columns := by
  by_cases hold : c.Related t.name
  · rw [Catalog.createTable, if_pos hold]
    simp only [hold, true_and, not_true_eq_false, false_and, or_false, Option.some.injEq]
    exact eq_comm
  simp only [hold, false_and, not_false_eq_true, true_and, false_or]
  rw [Catalog.createTable, if_neg hold]
  by_cases hfree : t.name ∈ c.types
  · rw [if_pos hfree]
    exact ⟨nofun, fun h => absurd hfree h.1.free⟩
  rw [if_neg hfree]
  by_cases hcolumns : (t.columns.map Column.name).Nodup ∧ ∀ x ∈ t.columns, c.Known builtin x.type
  · have haccepts : c.Accepts builtin t := ⟨hfree, hcolumns.1, hcolumns.2⟩
    rw [if_pos hcolumns]
    simp only [haccepts, true_and, Option.bind_eq_bind, Option.bind_eq_some_iff, Option.pure_def,
      Option.some.injEq, exists_and_left]
    simp only [eq_comm]
  · rw [if_neg hcolumns]
    exact ⟨nofun, fun h => absurd ⟨h.1.nodup, h.1.known⟩ hcolumns⟩

/-! ### Calls -/

/-- `call` is what calls the functions of a body. -/
def runBody (call : I → Catalog I → Option (Catalog I)) :
    List (Action I) → Catalog I → Option (Catalog I)
  | [], c => some c
  | .perform f :: as, c => do runBody call as (← call f c)
  | .createTable t :: as, c => do runBody call as (← c.createTable builtin t)

/-- The calls of functions may nest to the given depth. -/
def call : ℕ → I → Catalog I → Option (Catalog I)
  | 0, _, _ => none
  | n + 1, f, c => do runBody builtin (call n) (← c.functions f) c

/-- A run of calls. -/
def callAll (n : ℕ) (fs : List I) (c : Catalog I) : Option (Catalog I) :=
  fs.foldlM (fun c f => call builtin n f c) c

/-- One statement of a script. -/
def exec (c : Catalog I) : Command I → Option (Catalog I)
  | .createEnum name labels =>
    if c.Taken name ∨ ¬ labels.Nodup then none
    else some { c with types := name :: c.types }
  | .createComposite name fields =>
    if c.Taken name ∨ ¬ (fields.map Column.name).Nodup ∨
      ¬ ∀ x ∈ fields, c.Known builtin x.type then none
    else some { c with composites := name :: c.composites }
  | .createFunction name body =>
    if (c.functions name).isSome then none
    else some { c with functions := Function.update c.functions name (some body) }

/-- A script, of which every statement has to succeed. -/
def execAll (cs : List (Command I)) (c : Catalog I) : Option (Catalog I) :=
  cs.foldlM (exec builtin) c

variable {builtin}

/-- What succeeds with some calls succeeds with more. -/
theorem runBody_mono {call₁ call₂ : I → Catalog I → Option (Catalog I)}
    (h : ∀ f c c', call₁ f c = some c' → call₂ f c = some c') {as : List (Action I)}
    {c c' : Catalog I} (hrun : runBody builtin call₁ as c = some c') :
    runBody builtin call₂ as c = some c' := by
  induction as generalizing c with
  | nil => exact hrun
  | cons a as ih =>
    cases a with
    | perform f =>
      obtain ⟨c₁, hcall, hrest⟩ := Option.bind_eq_some_iff.1 hrun
      exact Option.bind_eq_some_iff.2 ⟨c₁, h f c c₁ hcall, ih hrest⟩
    | createTable t =>
      obtain ⟨c₁, hcreate, hrest⟩ := Option.bind_eq_some_iff.1 hrun
      exact Option.bind_eq_some_iff.2 ⟨c₁, hcreate, ih hrest⟩

theorem call_succ {n : ℕ} {f : I} {c c' : Catalog I} (h : call builtin n f c = some c') :
    call builtin (n + 1) f c = some c' := by
  induction n generalizing f c c' with
  | zero => cases h
  | succ n ih =>
    obtain ⟨body, hbody, hrun⟩ := Option.bind_eq_some_iff.1 h
    exact Option.bind_eq_some_iff.2 ⟨body, hbody, runBody_mono (fun _ _ _ => ih) hrun⟩

theorem call_mono {n m : ℕ} {f : I} {c c' : Catalog I} (h : call builtin n f c = some c')
    (hle : n ≤ m) : call builtin m f c = some c' := by
  induction hle with
  | refl => exact h
  | step _ ih => exact call_succ ih

/-- A call has one result, however deep it may nest. -/
theorem call_unique {n m : ℕ} {f : I} {c c₁ c₂ : Catalog I} (h₁ : call builtin n f c = some c₁)
    (h₂ : call builtin m f c = some c₂) : c₁ = c₂ := by
  have h := (call_mono h₁ (Nat.le_max_left n m)).symm.trans (call_mono h₂ (Nat.le_max_right n m))
  exact Option.some.inj h

theorem Catalog.createTable_functions {c c' : Catalog I} {t : TableDef I}
    (h : c.createTable builtin t = some c') : c'.functions = c.functions := by
  rcases Catalog.createTable_iff.1 h with ⟨-, rfl⟩ | ⟨-, -, _, _, -, -, rfl⟩
  · rfl
  · rfl

theorem runBody_functions {call : I → Catalog I → Option (Catalog I)}
    (h : ∀ f c c', call f c = some c' → c'.functions = c.functions) {as : List (Action I)}
    {c c' : Catalog I} (hrun : runBody builtin call as c = some c') :
    c'.functions = c.functions := by
  induction as generalizing c with
  | nil => exact Option.some.inj hrun ▸ rfl
  | cons a as ih =>
    cases a with
    | perform f =>
      obtain ⟨c₁, hcall, hrest⟩ := Option.bind_eq_some_iff.1 hrun
      exact (ih hrest).trans (h f c c₁ hcall)
    | createTable t =>
      obtain ⟨c₁, hcreate, hrest⟩ := Option.bind_eq_some_iff.1 hrun
      exact (ih hrest).trans (Catalog.createTable_functions hcreate)

/-- A call defines no function. -/
theorem call_functions {n : ℕ} {f : I} {c c' : Catalog I} (h : call builtin n f c = some c') :
    c'.functions = c.functions := by
  induction n generalizing f c c' with
  | zero => cases h
  | succ n ih =>
    obtain ⟨body, -, hrun⟩ := Option.bind_eq_some_iff.1 h
    exact runBody_functions (fun _ _ _ => ih) hrun

/-! ### Scripts -/

/-- The commands run one after another. -/
theorem execAll_append (as bs : List (Command I)) (c : Catalog I) :
    execAll builtin (as ++ bs) c = (execAll builtin as c).bind (execAll builtin bs) :=
  List.foldlM_append ..

/-- Types are created where their names are new and different, and their labels are. -/
theorem execAll_enums {es : List (I × List I)} {c c' : Catalog I} :
    execAll builtin (es.map fun e => .createEnum e.1 e.2) c = some c' ↔
      (es.map Prod.fst).Nodup ∧ (∀ e ∈ es, e.2.Nodup ∧ ¬ c.Taken e.1) ∧
        c' = { c with types := (es.map Prod.fst).reverse ++ c.types } := by
  induction es generalizing c with
  | nil => simp [execAll, eq_comm]
  | cons e es ih =>
    rw [execAll, List.map_cons, List.foldlM_cons, exec]
    by_cases hnew : c.Taken e.1 ∨ ¬ e.2.Nodup
    · rw [if_pos hnew]
      refine ⟨nofun, fun h => ?_⟩
      have he := h.2.1 e (List.mem_cons_self ..)
      exact absurd hnew (not_or.2 ⟨he.2, not_not.2 he.1⟩)
    rw [if_neg hnew]
    refine (ih (c := { c with types := e.1 :: c.types })).trans ?_
    have htaken : ∀ i, Catalog.Taken { c with types := e.1 :: c.types } i ↔ i = e.1 ∨ c.Taken i := by
      intro i
      rw [Catalog.Taken, List.mem_cons, or_assoc, Catalog.Taken]
    obtain ⟨hfree, hlabels⟩ := not_or.1 hnew
    simp only [htaken, not_or, List.map_cons, List.nodup_cons, List.forall_mem_cons, hfree,
      not_false_eq_true, not_not.1 hlabels, List.reverse_cons, List.append_assoc,
      List.singleton_append, List.mem_map, not_exists, not_and, true_and]
    constructor
    · rintro ⟨hnodup, hes, rfl⟩
      exact ⟨⟨fun x hx => (hes x hx).2.1, hnodup⟩, fun x hx => ⟨(hes x hx).1, (hes x hx).2.2⟩, rfl⟩
    · rintro ⟨⟨hne, hnodup⟩, hes, rfl⟩
      exact ⟨hnodup, fun x hx => ⟨(hes x hx).1, hne x hx, (hes x hx).2⟩, rfl⟩

/-- Functions are created where their names are new and different. -/
theorem execAll_functions {fs : List (I × List (Action I))} {c : Catalog I} :
    (∃ c', execAll builtin (fs.map fun f => .createFunction f.1 f.2) c = some c') ↔
      (fs.map Prod.fst).Nodup ∧ ∀ f ∈ fs, c.functions f.1 = none := by
  induction fs generalizing c with
  | nil => simp [execAll]
  | cons f fs ih =>
    simp only [execAll, List.map_cons, List.foldlM_cons, exec, Option.isSome_iff_ne_none] at ih ⊢
    by_cases hnew : c.functions f.1 = none
    · simp only [hnew, ne_eq, not_true_eq_false, if_false, Option.bind_eq_bind, Option.bind_some, ih,
        List.nodup_cons, List.forall_mem_cons, true_and, List.mem_map, not_exists, not_and]
      constructor
      · rintro ⟨hnodup, hfs⟩
        refine ⟨⟨fun x hx heq => ?_, hnodup⟩, fun x hx => ?_⟩
        · have hx := hfs x hx
          rw [heq, Function.update_self] at hx
          cases hx
        · have hx := hfs x hx
          by_cases heq : x.1 = f.1
          · rw [heq]; exact hnew
          · rwa [Function.update_of_ne heq] at hx
      · rintro ⟨⟨hne, hnodup⟩, hfs⟩
        refine ⟨hnodup, fun x hx => ?_⟩
        rw [Function.update_of_ne (hne x hx)]
        exact hfs x hx
    · simp [hnew]

/-- **Many functions** are created one after another. -/
theorem functions_of_execAll {fs : List (I × List (Action I))} {c c' : Catalog I}
    (h : execAll builtin (fs.map fun f => .createFunction f.1 f.2) c = some c') :
    c'.types = c.types ∧ c'.composites = c.composites ∧ c'.tables = c.tables ∧
      ∀ i b, c'.functions i = some b ↔ (i, b) ∈ fs ∨ c.functions i = some b := by
  induction fs generalizing c with
  | nil =>
    cases Option.some.inj h
    simp
  | cons f fs ih =>
    obtain ⟨c₁, hone, hrest⟩ := Option.bind_eq_some_iff.1 h
    rw [exec] at hone
    split at hone
    · cases hone
    rename_i hnew
    cases Option.some.inj hone
    obtain ⟨htypes, hcomposites, htables, hfunctions⟩ := ih hrest
    refine ⟨htypes, hcomposites, htables, fun i b => (hfunctions i b).trans ?_⟩
    rw [List.mem_cons, or_comm (a := (i, b) = f), or_assoc]
    refine or_congr_right ?_
    change Function.update c.functions f.1 (some f.2) i = some b ↔ _
    by_cases hi : i = f.1
    · have hnone : c.functions f.1 = none := by simpa using hnew
      rw [hi, Function.update_self, hnone]
      constructor
      · intro heq
        exact Or.inl (Prod.ext rfl (Option.some.inj heq).symm)
      · rintro (heq | heq)
        · rw [← heq]
        · cases heq
    · rw [Function.update_of_ne hi]
      exact ⟨Or.inr, fun h => h.resolve_left fun heq => hi (heq ▸ rfl)⟩

/-! ### Hierarchies -/

/-- Members with their parents, functions and tables. -/
structure Hierarchy (K I : Type) where
  parent : K → Option K
  function : K → I
  table : K → I
  columns : K → List (Column I)

namespace Hierarchy

variable {K : Type} (H : Hierarchy K I)

/-- The table of a member, which inherits from the parent's. -/
def tableDef (v : K) : TableDef I := ⟨H.table v, H.columns v, (H.parent v).map H.table⟩

/-- The function of a member. -/
def body (v : K) : List (Action I) :=
  match H.parent v with
  | some p => [.perform (H.function p), .createTable (H.tableDef v)]
  | none => [.createTable (H.tableDef v)]

/-- The member itself or one above it. -/
def Above (u v : K) : Prop := Relation.ReflTransGen (fun a b => H.parent a = some b) v u

/-- The member so many steps above. -/
def up : ℕ → K → Option K
  | 0, v => some v
  | k + 1, v => (H.parent v).bind (up k)

variable (D : K → Prop) (types : List I)

/-- What the own part of a table needs. -/
structure Own (v : K) : Prop where
  declared : D v
  free : H.table v ∉ types
  nodup : ((H.columns v).map Column.name).Nodup

/-- `Row v cols`: `v` and all above it are declared, and `cols` are the columns that they have
together, those of the topmost first. -/
inductive Row : K → List (Column I) → Prop
  | root {v : K} (own : H.Own D types v) (top : H.parent v = none) : Row v (H.columns v)
  | sub {v p : K} {inherited cols : List (Column I)} (own : H.Own D types v)
      (up : H.parent v = some p) (row : Row p inherited)
      (merged : mergeColumns inherited (H.columns v) = some cols) : Row v cols

variable {H D types}

theorem Row.own {v : K} {cols : List (Column I)} (h : H.Row D types v cols) :
    H.Own D types v := by
  cases h with
  | root own _ => exact own
  | sub own _ _ _ => exact own

/-- A member has one row. -/
theorem Row.unique {v : K} {cols cols' : List (Column I)} (h : H.Row D types v cols)
    (h' : H.Row D types v cols') : cols = cols' := by
  induction h generalizing cols' with
  | root _ top =>
    cases h' with
    | root => rfl
    | sub _ up => rw [top] at up; cases up
  | sub _ up _ merged ih =>
    cases h' with
    | root _ top => rw [top] at up; cases up
    | sub _ up' row' merged' =>
      cases Option.some.inj (up.symm.trans up')
      rw [ih row'] at merged
      exact Option.some.inj (merged.symm.trans merged')

/-- Above a member with a row there are finitely many. -/
theorem Row.exists_up {v : K} {cols : List (Column I)} (h : H.Row D types v cols) :
    ∃ n, H.up n v = none := by
  induction h with
  | root own top => exact ⟨1, by rw [up, top, Option.bind_none]⟩
  | sub own hup row merged ih =>
    obtain ⟨n, hn⟩ := ih
    exact ⟨n + 1, by rw [up, hup, Option.bind_some, hn]⟩

/-- What a catalog has of a hierarchy before any call. -/
structure Declared (builtin : I → Bool) (H : Hierarchy K I) (D : K → Prop) (c : Catalog I) :
    Prop where
  bodies : ∀ v, D v → c.functions (H.function v) = some (H.body v)
  others : ∀ v, ¬ D v → c.functions (H.function v) = none
  known : ∀ v, D v → ∀ x ∈ H.columns v, builtin x.type ∨ x.type ∈ c.types ∨ x.type ∈ c.composites
  names : Function.Injective H.table
  free : ∀ v, H.table v ∉ c.composites

/-- `c` has the tables of `S` and no others. -/
structure Created (H : Hierarchy K I) (D : K → Prop) (c₀ : Catalog I) (S : K → Prop)
    (c : Catalog I) : Prop where
  functions : c.functions = c₀.functions
  types : c.types = c₀.types
  composites : c.composites = c₀.composites
  rows : ∀ v, S v → ∃ cols, H.Row D c₀.types v cols
  tables : ∀ i cols, c.tables i = some cols ↔ ∃ v, S v ∧ H.table v = i ∧ H.Row D c₀.types v cols

section Calls

variable {builtin : I → Bool} {c₀ c c' : Catalog I} {S : K → Prop} {v : K}
  {cols : List (Column I)}

theorem Created.congr (h : H.Created D c₀ S c) {T : K → Prop} (hST : ∀ v, S v ↔ T v) :
    H.Created D c₀ T c := by
  have hST : S = T := funext fun v => propext (hST v)
  exact hST ▸ h

/-- The table of a node that is created. -/
theorem Created.table (h : H.Created D c₀ S c) (hv : S v) (hrow : H.Row D c₀.types v cols) :
    c.tables (H.table v) = some cols :=
  (h.tables _ _).2 ⟨v, hv, rfl, hrow⟩

theorem Created.table_none (h : H.Created D c₀ S c) (hD : Declared builtin H D c₀) (hv : ¬ S v) :
    c.tables (H.table v) = none := by
  rw [Option.eq_none_iff_forall_ne_some]
  intro cols htable
  obtain ⟨u, hu, hname, -⟩ := (h.tables _ _).1 htable
  exact hv (hD.names hname ▸ hu)

theorem Created.related_iff (h : H.Created D c₀ S c) (hD : Declared builtin H D c₀) :
    c.Related (H.table v) ↔ S v := by
  constructor
  · rintro (hsome | hcomposite)
    · by_contra hv
      rw [h.table_none hD hv] at hsome
      cases hsome
    · exact absurd (h.composites ▸ hcomposite) (hD.free v)
  · intro hv
    obtain ⟨cols, hrow⟩ := h.rows v hv
    exact Or.inl (h.table hv hrow ▸ rfl)

/-- **A table is accepted** where its own columns are. -/
theorem Created.accepts (h : H.Created D c₀ S c) (hD : Declared builtin H D c₀)
    (own : H.Own D c₀.types v) : c.Accepts builtin (H.tableDef v) where
  free := h.types ▸ own.free
  nodup := own.nodup
  known x hx := by
    rw [Catalog.Known, Catalog.Taken, h.types, h.composites]
    rcases hD.known v own.declared x hx with hb | ht | hc
    · exact Or.inl hb
    · exact Or.inr (Or.inl ht)
    · exact Or.inr (Or.inr (Or.inl hc))

/-- A table that is not there is added with the columns of its row. -/
theorem Created.createTable_new (h : H.Created D c₀ S c) (hD : Declared builtin H D c₀)
    (hrow : H.Row D c₀.types v cols) (hup : ∀ p, H.parent v = some p → S p) (hv : ¬ S v) :
    c.createTable builtin (H.tableDef v) =
      some (c.setTable (H.table v) cols) := by
  refine Catalog.createTable_iff.2 (Or.inr ⟨mt (h.related_iff hD).1 hv, h.accepts hD hrow.own, ?_⟩)
  cases hrow with
  | root own top =>
    exact ⟨[], _, by simp [tableDef, top, Catalog.inherited], mergeColumns_fresh own.nodup, rfl⟩
  | sub own up row merged =>
    exact ⟨_, _, by simp [tableDef, up, Catalog.inherited, h.table (hup _ up) row], merged, rfl⟩

theorem Created.add (h : H.Created D c₀ S c) (hD : Declared builtin H D c₀)
    (hrow : H.Row D c₀.types v cols) :
    H.Created D c₀ (fun u => S u ∨ u = v) (c.setTable (H.table v) cols) where
  functions := h.functions
  types := h.types
  composites := h.composites
  rows u hu := by
    rcases hu with hu | rfl
    · exact h.rows u hu
    · exact ⟨cols, hrow⟩
  tables i cols' := by
    by_cases hi : i = H.table v
    · subst hi
      rw [Catalog.setTable_self]
      constructor
      · intro heq
        cases Option.some.inj heq
        exact ⟨v, Or.inr rfl, rfl, hrow⟩
      · rintro ⟨u, -, hname, hrow'⟩
        cases hD.names hname
        rw [hrow.unique hrow']
    · rw [Catalog.setTable_of_ne c cols hi, h.tables]
      constructor
      · rintro ⟨u, hu, hname, hrow'⟩
        exact ⟨u, Or.inl hu, hname, hrow'⟩
      · rintro ⟨u, hu | rfl, hname, hrow'⟩
        · exact ⟨u, hu, hname, hrow'⟩
        · exact absurd hname.symm hi

/-- **One table is created**, when its parent has been. -/
theorem Created.createTable (h : H.Created D c₀ S c) (hD : Declared builtin H D c₀)
    (hrow : H.Row D c₀.types v cols) (hup : ∀ p, H.parent v = some p → S p) :
    ∃ c', c.createTable builtin (H.tableDef v) = some c' ∧
      H.Created D c₀ (fun u => S u ∨ u = v) c' := by
  by_cases hv : S v
  · have hold : c.createTable builtin (H.tableDef v) = some c :=
      Catalog.createTable_iff.2 (Or.inl ⟨(h.related_iff hD).2 hv, rfl⟩)
    refine ⟨c, hold, h.congr fun u => ⟨Or.inl, ?_⟩⟩
    rintro (hu | rfl)
    · exact hu
    · exact hv
  · exact ⟨_, h.createTable_new hD hrow hup hv, h.add hD hrow⟩

/-- Where the parent's table is there, only a row makes `CREATE TABLE` succeed. -/
theorem Created.row_of_createTable (h : H.Created D c₀ S c) (hD : Declared builtin H D c₀)
    (hdecl : D v) (hcreate : c.createTable builtin (H.tableDef v) = some c') :
    ∃ cols, H.Row D c₀.types v cols := by
  rcases Catalog.createTable_iff.1 hcreate with ⟨hold, -⟩ | ⟨-, haccepts, _, cols, habove, hmerge, -⟩
  · exact h.rows v ((h.related_iff hD).1 hold)
  have own : H.Own D c₀.types v := ⟨hdecl, h.types ▸ haccepts.free, haccepts.nodup⟩
  cases hp : H.parent v with
  | none => exact ⟨_, .root own hp⟩
  | some p =>
    rw [tableDef, hp] at habove
    obtain ⟨u, -, hname, hrow⟩ := (h.tables _ _).1 habove
    cases hD.names hname
    exact ⟨cols, .sub own hp hrow hmerge⟩

/-- A member with a row can be called where calls nest deep enough, and its call leaves its table
and all above it. -/
theorem Created.call {n : ℕ} (hrow : H.Row D c₀.types v cols) (hn : H.up n v = none)
    (h : H.Created D c₀ S c) (hD : Declared builtin H D c₀) :
    ∃ c', call builtin n (H.function v) c = some c' ∧
      H.Created D c₀ (fun u => S u ∨ H.Above u v) c' := by
  induction hrow generalizing n with
  -- a root has no parent to call
  | @root v own top =>
    cases n with
    | zero => cases hn
    | succ n =>
      obtain ⟨c', hcreate, hc'⟩ := h.createTable hD (.root own top) (by simp [top])
      refine ⟨c', ?_, hc'.congr fun u => or_congr_right ⟨?_, ?_⟩⟩
      · simp [Ddl.call, h.functions, hD.bodies v own.declared, body, top, runBody, hcreate]
      · rintro rfl
        exact .refl
      · intro habove
        rcases Relation.ReflTransGen.cases_head habove with heq | ⟨p, hp, -⟩
        · exact heq.symm
        · rw [top] at hp; cases hp
  -- the parent is called first, which creates all that is above it
  | @sub v p inherited cols own up row merged ih =>
    cases n with
    | zero => cases hn
    | succ n =>
      rw [Hierarchy.up, up, Option.bind_some] at hn
      obtain ⟨c₁, hcall, hc₁⟩ := ih hn
      obtain ⟨c', hcreate, hc'⟩ := hc₁.createTable hD (.sub own up row merged)
        (fun q hq => Or.inr (Option.some.inj (up.symm.trans hq) ▸ .refl))
      refine ⟨c', ?_, hc'.congr fun u => ⟨?_, ?_⟩⟩
      · simp [Ddl.call, h.functions, hD.bodies v own.declared, body, up, runBody, hcall, hcreate]
      · rintro ((hu | hu) | rfl)
        · exact Or.inl hu
        · exact Or.inr (.head up hu)
        · exact Or.inr .refl
      · rintro (hu | hu)
        · exact Or.inl (Or.inl hu)
        · rcases Relation.ReflTransGen.cases_head hu with heq | ⟨q, hq, hqu⟩
          · exact Or.inr heq.symm
          · cases Option.some.inj (up.symm.trans hq)
            exact Or.inl (Or.inr hqu)

/-- What the call of a member with a row leaves, however deep calls may nest. -/
theorem Created.of_call {n : ℕ} (hrow : H.Row D c₀.types v cols) (h : H.Created D c₀ S c)
    (hD : Declared builtin H D c₀) (hcall : Ddl.call builtin n (H.function v) c = some c') :
    H.Created D c₀ (fun u => S u ∨ H.Above u v) c' := by
  obtain ⟨m, hm⟩ := hrow.exists_up
  obtain ⟨c₁, hcall₁, hc₁⟩ := h.call hrow hm hD
  exact call_unique hcall hcall₁ ▸ hc₁

/-- Only members with a row can be called. -/
theorem Created.row_of_call {n : ℕ} (h : H.Created D c₀ S c) (hD : Declared builtin H D c₀)
    (hcall : Ddl.call builtin n (H.function v) c = some c') :
    ∃ cols, H.Row D c₀.types v cols := by
  induction n generalizing v c' with
  | zero => cases hcall
  | succ n ih =>
    by_cases hdecl : D v
    swap
    · simp [Ddl.call, h.functions, hD.others v hdecl] at hcall
    rw [Ddl.call, h.functions, hD.bodies v hdecl] at hcall
    cases hp : H.parent v with
    | none =>
      simp only [body, hp, runBody, Option.bind_eq_bind, Option.bind_some] at hcall
      obtain ⟨c₁, hcreate, -⟩ := Option.bind_eq_some_iff.1 hcall
      exact h.row_of_createTable hD hdecl hcreate
    | some p =>
      simp only [body, hp, runBody, Option.bind_eq_bind, Option.bind_some] at hcall
      obtain ⟨c₁, hparent, hrest⟩ := Option.bind_eq_some_iff.1 hcall
      obtain ⟨c₂, hcreate, -⟩ := Option.bind_eq_some_iff.1 hrest
      obtain ⟨_, hrow⟩ := ih hparent
      exact (h.of_call hrow hD hparent).row_of_createTable hD hdecl hcreate

/-- What a run of calls leaves. -/
theorem Created.callAll {n : ℕ} {vs : List K} (h : H.Created D c₀ S c)
    (hD : Declared builtin H D c₀) (hrun : callAll builtin n (vs.map H.function) c = some c') :
    (∀ v ∈ vs, ∃ cols, H.Row D c₀.types v cols) ∧
      H.Created D c₀ (fun u => S u ∨ ∃ v ∈ vs, H.Above u v) c' := by
  induction vs generalizing S c with
  | nil =>
    cases Option.some.inj hrun
    exact ⟨by simp, h.congr (by simp)⟩
  | cons v vs ih =>
    obtain ⟨c₁, hcall, hrest⟩ := Option.bind_eq_some_iff.1 hrun
    obtain ⟨cols, hrow⟩ := h.row_of_call hD hcall
    obtain ⟨hrows, hc'⟩ := ih (h.of_call hrow hD hcall) hrest
    refine ⟨List.forall_mem_cons.2 ⟨⟨cols, hrow⟩, hrows⟩, hc'.congr fun u => ?_⟩
    simp [or_assoc]

/-- A run of calls succeeds where the calls may nest deep enough, if each member has a row. -/
theorem Created.exists_callAll {n : ℕ} {vs : List K} (h : H.Created D c₀ S c)
    (hD : Declared builtin H D c₀) (hn : ∀ v ∈ vs, H.up n v = none)
    (hrows : ∀ v ∈ vs, ∃ cols, H.Row D c₀.types v cols) :
    ∃ c', Ddl.callAll builtin n (vs.map H.function) c = some c' := by
  induction vs generalizing S c with
  | nil => exact ⟨c, rfl⟩
  | cons v vs ih =>
    obtain ⟨⟨cols, hrow⟩, hrows⟩ := List.forall_mem_cons.1 hrows
    obtain ⟨hv, hn⟩ := List.forall_mem_cons.1 hn
    obtain ⟨c₁, hcall, hc₁⟩ := h.call hrow hv hD
    obtain ⟨c', hrest⟩ := ih hc₁ hn hrows
    refine ⟨c', ?_⟩
    rw [Ddl.callAll, List.map_cons, List.foldlM_cons, hcall]
    exact hrest

/-- **Calls of a hierarchy.** -/
theorem Declared.callAll_iff (hD : Declared builtin H D c₀) (hempty : ∀ i, c₀.tables i = none)
    (n : ℕ) (vs : List K) :
    ((∀ v ∈ vs, H.up n v = none) →
      ((∃ c', Ddl.callAll builtin n (vs.map H.function) c₀ = some c') ↔
        ∀ v ∈ vs, ∃ cols, H.Row D c₀.types v cols)) ∧
    ∀ c', Ddl.callAll builtin n (vs.map H.function) c₀ = some c' → ∀ i cols,
      c'.tables i = some cols ↔
        ∃ u, (∃ v ∈ vs, H.Above u v) ∧ H.table u = i ∧ H.Row D c₀.types u cols := by
  have h : H.Created D c₀ (fun _ => False) c₀ :=
    ⟨rfl, rfl, rfl, by simp, by simp [hempty]⟩
  refine ⟨fun hn => ⟨?_, h.exists_callAll hD hn⟩, ?_⟩
  · rintro ⟨c', hrun⟩
    exact (h.callAll hD hrun).1
  · intro c' hrun i cols
    rw [(h.callAll hD hrun).2.tables]
    simp only [false_or]

end Calls

end Hierarchy

end Ddl
