import VulcanDB.Compression.Resolve

/-!
# Compression — Refinement

How the parts of the compressor's state stand for a hash-consing table: the match set and its
counter are the table (`Tracks`), the index picks a slot for each base (`Reserved`), and a slot
still flagged is a waiting node, its content rewritten exactly when the key is known (`Held`).

* `Tracks.matchInstance`: matching an instance is interning its key.
* `rewriteSlots_spec`: rewriting the contents, with the ids known by then.
-/

namespace VulcanDB.Compression

open Cxx HashCons

/-- The number `type_content` has for a type and a content. -/
def MatchSet.number (m : MatchSet) (type content : Str) : Option ℕ :=
  (m.typeContent.find type).bind (·.find content)

/-! ### Matching -/

/-- The two ways `matchInstance` ends: a new base, or one found. -/
theorem matchInstance_cases (ist : IfcInstance) (w : Work) :
    (w.mSet.number ist.type ist.content = none ∧ ∃ typeContent,
      (∀ t c, MatchSet.number { w.mSet with typeContent := typeContent } t c =
        if t = ist.type ∧ c = ist.content then some (w.newInc + 1) else w.mSet.number t c) ∧
      matchInstance ist w = ({ w with
        newInc := w.newInc + 1
        mSet := { w.mSet with
          typeContent := typeContent
          idBaseID := w.mSet.idBaseID.insertNew ist.id (w.newInc + 1) } }, true)) ∨
    ∃ baseID, w.mSet.number ist.type ist.content = some baseID ∧
      matchInstance ist w = ({ w with
        deleteCount := w.deleteCount + 1
        mSet := { w.mSet with idBaseID := w.mSet.idBaseID.insertNew ist.id baseID } }, false) := by
  unfold matchInstance MatchSet.number
  cases ht : w.mSet.typeContent.find ist.type with
  | none =>
      refine .inl ⟨rfl, _, fun t c => ?_, rfl⟩
      rw [StdMap.find_insertNew]
      by_cases e : t = ist.type
      · subst e
        by_cases e' : c = ist.content <;> simp [ht, StdMap.find_insertNew, e']
      · simp [e]
  | some contentId =>
      cases hc : contentId.find ist.content with
      | none =>
          refine .inl ⟨by simp [hc], w.mSet.typeContent.assign ist.type
            (contentId.insertNew ist.content (w.newInc + 1)), fun t c => ?_, by simp only [hc]⟩
          rw [StdMap.find_assign]
          by_cases e : t = ist.type
          · subst e
            by_cases e' : c = ist.content <;> simp [ht, hc, StdMap.find_insertNew, e']
          · simp [e]
      | some baseID => exact .inr ⟨baseID, by simp [hc], by simp only [hc]⟩

/-- The match set and its counter are the table. -/
structure Tracks (w : Work) (T : Table Label Int) : Prop where
  newInc : w.newInc = T.bases.length
  rel : w.mSet.idBaseID.find = T.rel
  keys : ∀ key ∈ T.bases, IsKey key
  number : ∀ key, IsKey key → w.mSet.number key.1.type (contentOf key) =
    if key ∈ T.bases then some (T.number key) else none

/-- A new entry of `idBaseID` is a new pair of the table. -/
theorem find_insertNew_eq (m : StdMap Int ℕ) (i : Int) (k : ℕ) :
    (m.insertNew i k).find = HashCons.insertNew m.find i k := by
  funext j
  rw [StdMap.find_insertNew, HashCons.insertNew]

/-- **Matching is interning.** -/
theorem Tracks.matchInstance {w : Work} {T : Table Label Int} (h : Tracks w T) (ist : IfcInstance)
    {key : Key Label} (hk : IsKey key) (ht : ist.type = key.1.type)
    (hc : ist.content = contentOf key) :
    Tracks (matchInstance ist w).1 (T.intern ist.id key) ∧
      ((matchInstance ist w).2 = true ↔ key ∉ T.bases) := by
  have hnum := h.number key hk
  rw [← ht, ← hc] at hnum
  rcases matchInstance_cases ist w with ⟨hn, tc, htc, he⟩ | ⟨baseID, hb, he⟩
  · have hnew : key ∉ T.bases := by
      intro hmem
      rw [hn, if_pos hmem] at hnum
      cases hnum
    have hbases : (T.intern ist.id key).bases = T.bases ++ [key] := if_neg hnew
    have hT : T.number key = w.newInc + 1 := by
      rw [Table.number, List.idxOf_eq_length hnew, h.newInc]
    rw [he]
    refine ⟨⟨?_, ?_, ?_, ?_⟩, by simp [hnew]⟩
    · simp [hbases, h.newInc]
    · rw [find_insertNew_eq, h.rel, ← hT]
      rfl
    · rw [hbases]
      intro key' hk'
      rcases List.mem_append.mp hk' with hk' | hk'
      · exact h.keys key' hk'
      · rwa [List.mem_singleton.mp hk']
    · intro key' hk'
      refine (htc _ _).trans ?_
      by_cases e : key' = key
      · subst e
        rw [if_pos ⟨ht.symm, hc.symm⟩, hbases, if_pos (by simp), Table.number, hbases,
          List.idxOf_append_of_notMem hnew, h.newInc]
        simp
      · have hne : ¬ (key'.1.type = ist.type ∧ contentOf key' = ist.content) := by
          rintro ⟨e₁, e₂⟩
          exact e (contentOf_injective hk' hk (e₁.trans ht) (e₂.trans hc))
        rw [if_neg hne, h.number key' hk', hbases]
        by_cases hm : key' ∈ T.bases
        · rw [if_pos hm, if_pos (by simp [hm]), Table.number, Table.number, hbases,
            List.idxOf_append_of_mem hm]
        · rw [if_neg hm, if_neg (by simp [hm, e])]
  · have hold : key ∈ T.bases := by
      by_contra hmem
      rw [hb, if_neg hmem] at hnum
      cases hnum
    have hT : T.number key = baseID := by
      rw [hb, if_pos hold] at hnum
      exact (Option.some.inj hnum).symm
    have hbases : (T.intern ist.id key).bases = T.bases := if_pos hold
    rw [he]
    refine ⟨⟨?_, ?_, ?_, ?_⟩, by simp [hold]⟩
    · rw [hbases]; exact h.newInc
    · rw [find_insertNew_eq, h.rel, ← hT]
      rfl
    · rw [hbases]; exact h.keys
    · intro key' hk'
      rw [hbases, Table.number, hbases]
      exact h.number key' hk'

/-- What `matchInstance` leaves alone, and the counts. -/
theorem matchInstance_frame (ist : IfcInstance) (w : Work) :
    (matchInstance ist w).1.umSet = w.umSet ∧
      (matchInstance ist w).1.mSet.index = w.mSet.index ∧
      (matchInstance ist w).1.totalCount = w.totalCount ∧
      (matchInstance ist w).1.newInc + (matchInstance ist w).1.deleteCount =
        w.newInc + w.deleteCount + 1 := by
  rcases matchInstance_cases ist w with ⟨-, tc, -, he⟩ | ⟨baseID, -, he⟩
  · rw [he]
    exact ⟨rfl, rfl, rfl, Nat.add_right_comm ..⟩
  · rw [he]
    exact ⟨rfl, rfl, rfl, rfl⟩

/-! ### The slots -/

/-- The instances that are still to be matched. -/
def flagged (slots : List Slot) : List IfcInstance := (slots.filter (·.2)).map (·.1)

/-- A kept instance and its node: the content is rewritten exactly when the key is known. -/
def Held (rel : Int → Option ℕ) (ist : IfcInstance) (n : Node Label Int) : Prop :=
  ∃ ts, (∀ t ∈ ts, NormToken t) ∧ n = nodeOf ist.id ist.type ts ∧
    match n.key rel with
    | none => ist.flag = false ∧ ist.content = joinWith ',' ts
    | some key => ist.flag = true ∧ ist.content = contentOf key

/-- The index picks, for each base, a slot that holds it under its number. -/
structure Reserved (slots : List Slot) (index : List ℕ) (bases : List (Key Label)) : Prop where
  length : index.length = bases.length
  slot : ∀ (k : ℕ) (key : Key Label), bases[k]? = some key → ∃ (j : ℕ) (ist : IfcInstance),
    index[k]? = some j ∧ slots[j]? = some (ist, false) ∧ ist.id = (k : Int) + 1 ∧
    ist.type = key.1.type ∧ ist.content = contentOf key

/-- The slots of bases are as they were. -/
def KeepsBases (slots slots' : List Slot) : Prop :=
  ∀ (j : ℕ) (ist : IfcInstance), slots[j]? = some (ist, false) → ∃ ist' : IfcInstance,
    slots'[j]? = some (ist', false) ∧ ist'.id = ist.id ∧ ist'.type = ist.type ∧
    ist'.content = ist.content

/-- Slots that keep the bases keep the index. -/
theorem Reserved.keep {slots slots' : List Slot} {index : List ℕ} {bases : List (Key Label)}
    (h : Reserved slots index bases) (hs : KeepsBases slots slots') :
    Reserved slots' index bases := by
  refine ⟨h.length, fun k key hk => ?_⟩
  obtain ⟨j, ist, hj, hsl, hid, ht, hc⟩ := h.slot k key hk
  obtain ⟨ist', hsl', hid', ht', hc'⟩ := hs j ist hsl
  exact ⟨j, ist', hj, hsl', hid'.trans hid, ht'.trans ht, hc'.trans hc⟩

/-- A new base at the end of the index. -/
theorem Reserved.push {slots : List Slot} {index : List ℕ} {bases : List (Key Label)}
    (h : Reserved slots index bases) {j : ℕ} (ist : IfcInstance) {key : Key Label}
    (hs : slots[j]? = some (ist, false)) (hid : ist.id = (bases.length : Int) + 1)
    (ht : ist.type = key.1.type) (hc : ist.content = contentOf key) :
    Reserved slots (index ++ [j]) (bases ++ [key]) := by
  refine ⟨by simp [h.length], fun k key' hk => ?_⟩
  rcases lt_or_ge k bases.length with hlt | hge
  · rw [List.getElem?_append_left hlt] at hk
    obtain ⟨j', ist', hj', rest⟩ := h.slot k key' hk
    exact ⟨j', ist', by rwa [List.getElem?_append_left (h.length ▸ hlt)], rest⟩
  · rw [List.getElem?_append_right hge, List.getElem?_singleton] at hk
    split at hk
    · rename_i h0
      cases hk
      obtain rfl : k = bases.length := Nat.le_antisymm (Nat.sub_eq_zero_iff_le.mp h0) hge
      refine ⟨j, ist, ?_, hs, hid, ht, hc⟩
      rw [← h.length, List.getElem?_append_right le_rfl]
      simp
    · cases hk

theorem flagged_append (slots slots' : List Slot) :
    flagged (slots ++ slots') = flagged slots ++ flagged slots' := by simp [flagged]

theorem flagged_cons_true (ist : IfcInstance) (slots : List Slot) :
    flagged ((ist, true) :: slots) = ist :: flagged slots := by simp [flagged]

theorem flagged_cons_false (ist : IfcInstance) (slots : List Slot) :
    flagged ((ist, false) :: slots) = flagged slots := by simp [flagged]

/-! ### Rewriting the slots -/

/-- A base without references, which Step 1 rewrites with the rest. -/
def PlainContent (content : Str) : Prop :=
  ∃ ts, (∀ t ∈ ts, NormToken t) ∧ content = joinWith ',' ts ∧ ts.filterMap citeOf = []

/-- A content without references is rewritten to itself. -/
theorem plainContent_rewrite {content : Str} (h : PlainContent content) (rel : StdMap Int ℕ) :
    standardContentRel content rel = .ok (true, content) := by
  obtain ⟨ts, hts, rfl, hc⟩ := h
  have hk := rename_resolve rel ts
  rw [hc] at hk
  have hself : ts.map (renamed rel) = ts := by
    conv_rhs => rw [← List.map_id ts]
    refine List.map_congr_left fun t ht => (rename_of_none ?_ rel).1
    exact List.filterMap_eq_nil_iff.mp hc t ht
  rw [standardContentRel_eq rel hts, hk.1, if_pos rfl, hself]

/-- A kept instance whose key was not known, rewritten. -/
theorem held_rewrite {rel₀ : Int → Option ℕ} {ist : IfcInstance} {n : Node Label Int}
    (h : Held rel₀ ist n) (hn : n.key rel₀ = none) (rel : StdMap Int ℕ) :
    ∃ ist', rewriteSlot rel (ist, true) = .ok (ist', true) ∧ Held rel.find ist' n := by
  obtain ⟨ts, hts, rfl, hk⟩ := h
  rw [hn] at hk
  have hr := standardContentRel_key rel ist.id ist.type hts
  rw [rewriteSlot, hk.2, hr]
  cases hkey : (nodeOf ist.id ist.type ts).key rel.find with
  | none => exact ⟨_, rfl, ts, hts, rfl, by rw [hkey]; exact ⟨rfl, rfl⟩⟩
  | some key => exact ⟨_, rfl, ts, hts, rfl, by rw [hkey]; exact ⟨rfl, rfl⟩⟩

/-- **Rewriting the slots**: what waits is held under the new table, and the bases are kept. -/
theorem rewriteSlots_spec {rel₀ : Int → Option ℕ} (rel : StdMap Int ℕ) (which : Slot → Bool)
    {slots : List Slot} : ∀ {W : List (Node Label Int)}, List.Forall₂ (Held rel₀) (flagged slots) W →
    (∀ n ∈ W, n.key rel₀ = none) → (∀ s ∈ slots, s.2 = true → which s = true) →
    (∀ s ∈ slots, s.2 = false → which s = true → PlainContent s.1.content) →
    ∃ slots', rewriteSlots rel which slots = .ok slots' ∧ slots'.length = slots.length ∧
      List.Forall₂ (Held rel.find) (flagged slots') W ∧ KeepsBases slots slots' := by
  induction slots with
  | nil =>
      intro W hW _ _ _
      obtain rfl : W = [] := by cases hW; rfl
      exact ⟨[], rfl, rfl, .nil, fun j ist h => by simp at h⟩
  | cons s slots ih =>
      intro W hW hn hw hp
      obtain ⟨ist, flag⟩ := s
      have hw' := fun s hs => hw s (List.mem_cons_of_mem _ hs)
      have hp' := fun s hs => hp s (List.mem_cons_of_mem _ hs)
      -- a base stays what it is, whatever becomes of the slots behind it
      have keep : ∀ {ist' : IfcInstance} {flag' : Bool} {slots' : List Slot},
          KeepsBases slots slots' → (flag = false → flag' = false ∧ ist'.id = ist.id ∧
            ist'.type = ist.type ∧ ist'.content = ist.content) →
          KeepsBases ((ist, flag) :: slots) ((ist', flag') :: slots') := by
        intro ist' flag' slots' hk h j i hj
        cases j with
        | zero =>
            obtain ⟨rfl, rfl⟩ : ist = i ∧ flag = false := by simpa using hj
            obtain ⟨rfl, hrest⟩ := h rfl
            exact ⟨ist', rfl, hrest⟩
        | succ j => exact hk j i hj
      cases flag with
      -- the slot waits: its known references are replaced
      | true =>
          rw [flagged_cons_true] at hW
          cases hW with
          | @cons _ n _ W hheld hW =>
              obtain ⟨ist', hist, hheld'⟩ := held_rewrite hheld (hn n (by simp)) rel
              obtain ⟨slots', hs, hlen, hW', hk⟩ :=
                ih hW (fun m hm => hn m (by simp [hm])) hw' hp'
              refine ⟨(ist', true) :: slots', ?_, by simp [hlen], ?_, keep hk nofun⟩
              · rw [rewriteSlots, if_pos (hw _ (by simp) rfl), hist]
                simp only [bind, Except.bind, hs]
                rfl
              · rw [flagged_cons_true]
                exact .cons hheld' hW'
      -- the slot is a base: its content has no reference that is left
      | false =>
          rw [flagged_cons_false] at hW
          obtain ⟨slots', hs, hlen, hW', hk⟩ := ih hW hn hw' hp'
          by_cases hwhich : which (ist, false) = true
          · have hrw := plainContent_rewrite (hp _ (by simp) rfl hwhich) rel
            refine ⟨({ ist with flag := true }, false) :: slots', ?_, by simp [hlen], ?_,
              keep hk fun _ => ⟨rfl, rfl, rfl, rfl⟩⟩
            · rw [rewriteSlots, if_pos hwhich, rewriteSlot]
              simp only [bind, Except.bind, pure, Except.pure, hrw, hs]
            · rw [flagged_cons_false]; exact hW'
          · refine ⟨(ist, false) :: slots', ?_, by simp [hlen], ?_,
              keep hk fun _ => ⟨rfl, rfl, rfl, rfl⟩⟩
            · rw [rewriteSlots, if_neg hwhich]
              simp only [bind, Except.bind, pure, Except.pure, hs]
            · rw [flagged_cons_false]; exact hW'

end VulcanDB.Compression
