import VulcanDB.Compression.Instance

/-!
# Compression — Tokenisers

A content is cut into tokens by three copies of one loop: `StandardContent(type, content, cite,
islossy)`, which the overloads read an instance with, the `IfcInstanceAna` of five arguments,
which keeps the text between the references, and `StandardContent(content, rel)`, which looks the
references up.  The second is nowhere called.

* `ifcInstanceAna_cutLine`, `ifcInstanceAna₅_cutLine`: both readers cut a line alike.
* `standardContentRel_lookups`: the lookups change nothing of the result.
* `tokenisers_agree`: the ids that the three find are the same.
-/

namespace VulcanDB.Compression

open Cxx

/-! ### The reader of five arguments -/

/-- The loop of `IfcInstanceAna(instance, id, type, content, cite)`, with `str_static`: a reference
is cited, any other token is kept. -/
def staticLoop : List Str → Str → List Int → Except Fault (Str × List Int)
  | [], strStatic, cite => .ok (strStatic, cite)
  | pp :: tokens, strStatic, cite => do
    let pp ← trim pp
    let c ← cutParens pp
    staticLoop tokens (strStatic ++ c.around (if c.cite.isSome then [] else c.pp) ++ [','])
      (cite ++ c.cite.toList)

/-- `IfcInstanceAna(instance, id, type, content, cite)`. -/
def ifcInstanceAna₅ (line : Str) : Except Fault (Int × Str × Str × List Int) := do
  let line ← trim line
  let s := findFirstOf line '='
  let index ← substr line 1 (s - 1)
  let id := atoi index
  let content ← substr line (s + 1) (line.length - s - 1)
  let s := findFirstOf content '('
  let type ← substr content 0 s
  let type ← trim type
  let content ← substr content (s + 1) (findLastOf content ')' - s - 1)
  let (strStatic, cite) ← staticLoop (getlines ',' content) [] []
  let content ← substr strStatic 0 (strStatic.length - 1)
  return (id, type, content, cite)

/-- The text of a token that the reader keeps. -/
def staticToken (t : Str) : Str :=
  (cutOf t).around (if (citeOf t).isSome then [] else (cutOf t).pp)

/-- The loop of the static copy, on tokens that are not blank. -/
theorem staticLoop_eq {ps : List Str} (h : ∀ t ∈ ps, ¬ Blank ' ' t) (strStatic : Str)
    (cite : List Int) : staticLoop ps strStatic cite =
      .ok (strStatic ++ terminated ',' ((ps.map (strip ' ')).map staticToken),
        cite ++ (ps.map (strip ' ')).filterMap citeOf) := by
  induction ps generalizing strStatic cite with
  | nil => simp [staticLoop]
  | cons p ps ih =>
      have hp : ¬ Blank ' ' p := h p (by simp)
      have hs : strip ' ' p ≠ [] := fun e => hp (strip_eq_nil.mp e)
      rw [staticLoop, trim_of_not_wideBlank fun hw => hp hw.1]
      simp only [bind, Except.bind, cutParens_eq hs]
      rw [ih fun t ht => h t (by simp [ht])]
      simp only [List.map_cons, terminated_cons, List.append_assoc, List.singleton_append]
      congr 2
      cases hc : citeOf (strip ' ' p) <;> simp only [citeOf] at hc <;> simp [hc, citeOf]

/-! ### The ids that are looked up -/

/-- The loop of `StandardContent(content, rel)` with the ids passed to `rel.find` so far. -/
def lookupLoop (rel : StdMap Int ℕ) :
    List Str → Str → Bool → List Int → Except Fault (Str × Bool × List Int)
  | [], newContent, allFind, ids => .ok (newContent, allFind, ids)
  | pp :: tokens, newContent, allFind, ids => do
    let pp ← trim pp
    let c ← cutParens pp
    let (pp, found) := rename rel c
    lookupLoop rel tokens (newContent ++ c.around pp ++ [',']) (allFind && found)
      (ids ++ c.cite.toList)

/-- `StandardContent(content, rel)` with the ids passed to `rel.find`, in order. -/
def standardContentLookups (content : Str) (rel : StdMap Int ℕ) :
    Except Fault (Bool × Str × List Int) := do
  let (newContent, allFind, ids) ← lookupLoop rel (getlines ',' content) [] true []
  let newContent ← substr newContent 0 (newContent.length - 1)
  return (allFind, if allFind then newContent else content, ids)

/-- The loop that also collects ids does, besides, what the loop with the base ids does. -/
theorem lookupLoop_forget (rel : StdMap Int ℕ) (ps : List Str) (newContent : Str) (allFind : Bool)
    (ids : List Int) : (lookupLoop rel ps newContent allFind ids).map (fun r => (r.1, r.2.1)) =
      standardLoopRel rel ps newContent allFind := by
  induction ps generalizing newContent allFind ids with
  | nil => rfl
  | cons p ps ih =>
      rw [lookupLoop, standardLoopRel]
      cases trim p with
      | error e => rfl
      | ok pp =>
          simp only [bind, Except.bind]
          cases cutParens pp with
          | error e => rfl
          | ok c => exact ih _ _ _

/-- The lookups change nothing of what `StandardContent(content, rel)` returns. -/
theorem standardContentRel_lookups (content : Str) (rel : StdMap Int ℕ) :
    (standardContentLookups content rel).map (fun r => (r.1, r.2.1)) =
      standardContentRel content rel := by
  rw [standardContentLookups, standardContentRel,
    ← lookupLoop_forget rel (getlines ',' content) [] true []]
  cases lookupLoop rel (getlines ',' content) [] true [] with
  | error e => rfl
  | ok r =>
      simp only [bind, Except.bind, Except.map, substr_dropLast]
      rfl

theorem lookupLoop_eq (rel : StdMap Int ℕ) {ts : List Str}
    (h : ∀ t ∈ ts, t ≠ [] ∧ Trimmed ' ' t) (newContent : Str) (allFind : Bool) (ids : List Int) :
    lookupLoop rel ts newContent allFind ids =
      .ok (newContent ++ terminated ',' (ts.map (renamed rel)),
        allFind && ts.all fun t => (rename rel (cutOf t)).2, ids ++ ts.filterMap citeOf) := by
  induction ts generalizing newContent allFind ids with
  | nil => simp [lookupLoop]
  | cons t ts ih =>
      obtain ⟨hne, htrim⟩ := h t (by simp)
      rw [lookupLoop, trim_of_trimmed htrim]
      simp only [bind, Except.bind, cutParens_eq hne]
      rw [ih fun s hs => h s (by simp [hs])]
      cases hc : citeOf t <;> simp only [citeOf] at hc <;>
        simp [renamed, Bool.and_assoc, hc, citeOf]

/-- A token without a reference stays as it is, and nothing is missing. -/
theorem rename_of_citeOf_eq_none (rel : StdMap Int ℕ) {t : Str} (h : citeOf t = none) :
    renamed rel t = t ∧ (rename rel (cutOf t)).2 = true := by
  have hr : rename rel (cutOf t) = ((cutOf t).pp, true) := by
    rw [rename, show (cutOf t).cite = none from h]
  rw [renamed, hr]
  exact ⟨cutOf_around t, rfl⟩

theorem rename_missing {rel : StdMap Int ℕ} {t : Str} {id : Int} (h : citeOf t = some id)
    (hid : rel.find id = none) : (rename rel (cutOf t)).2 = false := by
  rw [rename, show (cutOf t).cite = some id from h]
  simp only [hid]

/-! ### What both readers do with a line -/

/-- The id, the type and the text between the parentheses. -/
def cutLine (line : Str) : Except Fault (Int × Str × Str) := do
  let line ← trim line
  let s := findFirstOf line '='
  let index ← substr line 1 (s - 1)
  let id := atoi index
  let content ← substr line (s + 1) (line.length - s - 1)
  let s := findFirstOf content '('
  let type ← substr content 0 s
  let type ← trim type
  let subContent ← substr content (s + 1) (findLastOf content ')' - s - 1)
  return (id, type, subContent)

/-- Both readers cut a line alike: this is the one with four arguments. -/
theorem ifcInstanceAna_cutLine (mode : Mode) (line : Str) : ifcInstanceAna mode line = (do
    let (id, type, subContent) ← cutLine line
    let (content, cite) ← standardContent mode.round type subContent mode.fpr mode.precision
    return (id, type, content, cite)) := by
  simp only [ifcInstanceAna, cutLine, bind_assoc, pure_bind]

theorem ifcInstanceAna₅_cutLine (line : Str) : ifcInstanceAna₅ line = (do
    let (id, type, subContent) ← cutLine line
    let (strStatic, cite) ← staticLoop (getlines ',' subContent) [] []
    let content ← substr strStatic 0 (strStatic.length - 1)
    return (id, type, content, cite)) := by
  simp only [ifcInstanceAna₅, cutLine, bind_assoc, pure_bind]

/-- What is cut out of a line is the text between the parentheses. -/
theorem cutLine_args {line : Str} {id : Int} {type subContent : Str}
    (h : cutLine line = .ok (id, type, subContent)) : subContent = argsText (strip ' ' line) := by
  by_cases hw : WideBlank line
  · rw [cutLine, trim_of_wideBlank hw] at h
    cases h
  · rw [cutLine, trim_of_not_wideBlank hw] at h
    rcases eq_or_ne (strip ' ' line) [] with hnil | hne
    · rw [hnil] at h
      cases h
    · simp only [bind, Except.bind, substr_index hne, substr_after_findFirstOf,
        substr_findFirstOf, substr_to_findLastOf _ (show ')' ≠ '(' by decide)] at h
      split at h
      · cases h
      · cases h
        rfl

/-! ### The three agree -/

/-- The lookups on a content whose tokens were cut out and joined again. -/
theorem standardContentLookups_eq (rel : StdMap Int ℕ) {content : Str} (h : NoBlankToken content) :
    standardContentLookups (joinWith ',' (tokens content)) rel =
      .ok ((tokens content).all fun t => (rename rel (cutOf t)).2,
        joinWith ',' (if (tokens content).all fun t => (rename rel (cutOf t)).2
          then (tokens content).map (renamed rel) else tokens content),
        (tokens content).filterMap citeOf) := by
  have hts : ∀ t ∈ tokens content, ',' ∉ t ∧ t ≠ [] ∧ Trimmed ' ' t := by
    intro t ht
    obtain ⟨s, hs, rfl⟩ := List.mem_map.mp ht
    exact ⟨fun hc => notMem_of_mem_getlines hs (mem_of_mem_strip hc),
      fun e => h s hs (strip_eq_nil.mp e), strip_trimmed ' ' s⟩
  have hlast : (tokens content).getLast? ≠ some [] := fun he =>
    (hts [] (List.mem_of_getLast? he)).2.1 rfl
  rw [standardContentLookups, getlines_joinWith (fun t ht => (hts t ht).1) hlast,
    lookupLoop_eq rel fun t ht => (hts t ht).2]
  simp only [bind, Except.bind, pure, Except.pure, substr_dropLast, List.nil_append,
    dropLast_terminated, Bool.true_and]
  split <;> rfl

/-- **Main result.**  On an instance without a blank token the three find the same ids, in order,
or the two readers stop at the same exception.  Without ids the content stays as it is and nothing
is missing; with a missing one it stays as it is too. -/
theorem tokenisers_agree {line : Str} (h : NoBlankToken (argsText (strip ' ' line)))
    (precision : Int) :
    match ifcInstanceAna ⟨false, precision, binary64⟩ line with
    | .error e => ifcInstanceAna₅ line = .error e
    | .ok (id, type, content, cite) =>
      (∃ strStatic, ifcInstanceAna₅ line = .ok (id, type, strStatic, cite)) ∧
        ∀ rel, ∃ allFind content',
          standardContentLookups content rel = .ok (allFind, content', cite) ∧
          (cite = [] → allFind = true ∧ content' = content) ∧
          ((∃ i ∈ cite, rel.find i = none) → allFind = false ∧ content' = content) := by
  rw [ifcInstanceAna_cutLine, ifcInstanceAna₅_cutLine]
  cases hcut : cutLine line with
  | error e => rfl
  | ok r =>
      obtain ⟨id, type, subContent⟩ := r
      obtain rfl := cutLine_args hcut
      -- without lossy mode no token is changed
      have hlossless : normalised binary64 type false precision (tokens (argsText (strip ' ' line))) =
          joinWith ',' (tokens (argsText (strip ' ' line))) := by
        rw [normalised]
        conv_rhs => rw [← List.map_id (tokens (argsText (strip ' ' line)))]
        exact congrArg _ (List.map_congr_left fun t _ => standardToken_lossless type precision t)
      simp only [bind, Except.bind, pure, Except.pure, standardContent_eq type h, hlossless,
        staticLoop_eq h, substr_dropLast]
      refine ⟨⟨_, rfl⟩, fun rel => ⟨_, _, standardContentLookups_eq rel h, fun hcite => ?_, ?_⟩⟩
      · -- no token is a reference
        have hnone : ∀ t ∈ tokens (argsText (strip ' ' line)), citeOf t = none :=
          List.filterMap_eq_nil_iff.mp hcite
        have hall : ((tokens (argsText (strip ' ' line))).all
            fun t => (rename rel (cutOf t)).2) = true :=
          List.all_eq_true.mpr fun t ht => (rename_of_citeOf_eq_none rel (hnone t ht)).2
        refine ⟨hall, ?_⟩
        rw [if_pos hall]
        conv_rhs => rw [← List.map_id (tokens (argsText (strip ' ' line)))]
        exact congrArg _ (List.map_congr_left fun t ht =>
          (rename_of_citeOf_eq_none rel (hnone t ht)).1)
      · rintro ⟨i, hi, hmiss⟩
        obtain ⟨t, ht, hcite⟩ := List.mem_filterMap.mp hi
        have hall : ((tokens (argsText (strip ' ' line))).all
            fun t => (rename rel (cutOf t)).2) = false :=
          List.all_eq_false.mpr ⟨t, ht, by simp [rename_missing hcite hmiss]⟩
        exact ⟨hall, by rw [hall]; rfl⟩

/-- Three references between parentheses and blanks. -/
theorem tokenisers_agree_list :
    ∃ strStatic, ifcInstanceAna₅ "#7= IFCX((#2,3, #4) , (#5));".toList =
      .ok (7, "IFCX".toList, strStatic, [2, 4, 5]) := by
  have h := @tokenisers_agree "#7= IFCX((#2,3, #4) , (#5));".toList (by decide) 2
  have hread : ifcInstanceAna ⟨false, 2, binary64⟩ "#7= IFCX((#2,3, #4) , (#5));".toList =
      .ok (7, "IFCX".toList, "(#2,3,#4),(#5)".toList, [2, 4, 5]) := by decide +kernel
  rw [hread] at h
  exact h.1

end VulcanDB.Compression
