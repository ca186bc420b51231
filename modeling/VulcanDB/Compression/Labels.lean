import VulcanDB.Compression.Tokens
import VulcanDB.Library.HashCons.Idempotent
import VulcanDB.Library.HashCons.Sharing

/-!
# Compression — Labels

The contents the compressor compares, as terms.  A normalised content is a list of tokens; a
*piece* is a token with its cited id taken out, and a label is a type with the pieces of a
content.  An instance is then a node of a term graph: its label, and the ids it cites.

A content whose references have all been rewritten is its pieces with numbers in the holes
(`render`), so contents are compared exactly when keys are.

* `standardContentRel_key`: rewriting a content computes the key of its node, written out.
* `contentOf_injective`: two keys with one content, and one type, are one key.
* `nodeOf_contentOf`: a written content is the node of its key.
-/

namespace VulcanDB.Compression

open Cxx HashCons

/-- A token without the id it cites: a text, or the place of a citation with its parentheses. -/
inductive Piece where
  | text (s : Str)
  | hole (opened closed : Bool)
  deriving DecidableEq

/-- What an instance has besides the ids it cites. -/
structure Label where
  type : Str
  pieces : List Piece
  deriving DecidableEq

/-- The piece of a token. -/
def pieceOf (t : Str) : Piece :=
  match citeOf t with
  | none => .text t
  | some _ => .hole (cutOf t).opened (cutOf t).closed

/-- An instance with normalised tokens, as a node. -/
def nodeOf (id : Int) (type : Str) (ts : List Str) : Node Label Int :=
  ⟨id, ⟨type, ts.map pieceOf⟩, ts.filterMap citeOf⟩

/-- A reference to base `m`, between the parentheses of its token. -/
def citation (opened closed : Bool) (m : ℕ) : Str :=
  (⟨opened, closed, []⟩ : Cut).around ('#' :: dec m)

/-- The tokens of these pieces, with base ids put into the places in their order. -/
def render : List Piece → List ℕ → List Str
  | [], _ => []
  | .text s :: ps, ms => s :: render ps ms
  | .hole opened closed :: ps, m :: ms => citation opened closed m :: render ps ms
  | .hole _ _ :: _, [] => []

/-- The content of a key: the pieces of its label with its numbers in the holes. -/
def contentOf (key : Key Label) : Str := joinWith ',' (render key.1.pieces key.2)

/-! ### Tokens and pieces -/

/-- A token cites nothing when no `#` stands behind its parentheses. -/
theorem citeOf_eq_none {t : Str} : citeOf t = none ↔ (cutOf t).pp.head? ≠ some '#' := by
  simp [citeOf, Cut.cite]

theorem pieceOf_text {t : Str} (h : citeOf t = none) : pieceOf t = .text t := by
  simp [pieceOf, h]

theorem pieceOf_hole {t : Str} {a : Int} (h : citeOf t = some a) :
    pieceOf t = .hole (cutOf t).opened (cutOf t).closed := by simp [pieceOf, h]

/-- A written id has no character that a token is cut at. -/
theorem ref_plain (m : ℕ) :
    ∀ x ∈ '#' :: dec m, x ≠ '(' ∧ x ≠ ')' ∧ x ≠ ',' ∧ x ≠ '\n' ∧ x ≠ ' ' := by
  intro x hx
  rcases List.mem_cons.mp hx with rfl | hx
  · decide
  · have h := (dec_plain m).2 x hx
    exact ⟨h.ne rfl, h.ne rfl, h.ne rfl, h.ne rfl, h.ne rfl⟩

theorem cutOf_citation (opened closed : Bool) (m : ℕ) :
    cutOf (citation opened closed m) = ⟨opened, closed, '#' :: dec m⟩ :=
  cutOf_around_of_plain ⟨opened, closed, []⟩ (by simp) fun x hx =>
    ⟨(ref_plain m x hx).1, (ref_plain m x hx).2.1⟩

/-- A written citation is read back, as far as an `int` goes. -/
theorem citeOf_citation (opened closed : Bool) {m : ℕ} (hm : m ≤ INT_MAX) :
    citeOf (citation opened closed m) = some (m : Int) := by
  have := atoi_dec hm (t := []) (by simp)
  simp only [List.append_nil] at this
  simp [citeOf, cutOf_citation, Cut.cite, this]

theorem pieceOf_citation (opened closed : Bool) (m : ℕ) :
    pieceOf (citation opened closed m) = .hole opened closed := by
  simp [pieceOf, citeOf, cutOf_citation, Cut.cite]

theorem citation_norm (opened closed : Bool) (m : ℕ) : NormToken (citation opened closed m) :=
  around_norm ⟨opened, closed, []⟩ (by simp) fun x hx => (ref_plain m x hx).2.2

/-! ### Rewriting computes the key -/

/-- A token that cites nothing is left as it is. -/
theorem rename_of_none {t : Str} (h : citeOf t = none) (rel : StdMap Int ℕ) :
    renamed rel t = t ∧ (rename rel (cutOf t)).2 = true := by
  rw [citeOf] at h
  simp [renamed, rename, h, cutOf_around]

/-- A citation is replaced by its base id, when it has one. -/
theorem rename_of_some {t : Str} {a : Int} (h : citeOf t = some a) (rel : StdMap Int ℕ) :
    ((rename rel (cutOf t)).2 = (rel.find a).isSome) ∧
      ∀ m, rel.find a = some m → renamed rel t = citation (cutOf t).opened (cutOf t).closed m := by
  rw [citeOf] at h
  constructor
  · cases hr : rel.find a <;> simp [rename, h, hr]
  · intro m hm
    simp [renamed, rename, h, hm, citation, Cut.around]

/-- **Renaming is resolving**: every id is found exactly when the node's key is known, and the
tokens are then those of the key. -/
theorem rename_resolve (rel : StdMap Int ℕ) (ts : List Str) :
    match resolve rel.find (ts.filterMap citeOf) with
    | none => (ts.all fun t => (rename rel (cutOf t)).2) = false
    | some ms => (ts.all fun t => (rename rel (cutOf t)).2) = true ∧
        ts.map (renamed rel) = render (ts.map pieceOf) ms := by
  induction ts with
  | nil => exact ⟨rfl, rfl⟩
  | cons t ts ih =>
      cases h : citeOf t with
      | none =>
          obtain ⟨h₁, h₂⟩ := rename_of_none h rel
          rw [List.filterMap_cons_none h]
          cases hr : resolve rel.find (ts.filterMap citeOf) with
          | none => rw [hr] at ih; simpa [h₂] using ih
          | some ms => rw [hr] at ih; simp [h₁, h₂, ih.2, pieceOf_text h, render, ih.1]
      | some a =>
          obtain ⟨h₁, h₂⟩ := rename_of_some h rel
          rw [List.filterMap_cons_some h, resolve]
          cases ha : rel.find a with
          | none => simp [h₁, ha]
          | some m =>
              cases hr : resolve rel.find (ts.filterMap citeOf) with
              | none => rw [hr] at ih; simpa [h₁, ha] using ih
              | some ms =>
                  rw [hr] at ih
                  simp [h₁, ha, ih.2, ih.1, pieceOf_hole h, render, h₂ m ha]

/-- **Rewriting a content** whose ids are all resolved writes its key out; otherwise the content
stays. -/
theorem standardContentRel_key (rel : StdMap Int ℕ) (id : Int) (type : Str) {ts : List Str}
    (h : ∀ t ∈ ts, NormToken t) : standardContentRel (joinWith ',' ts) rel =
      match (nodeOf id type ts).key rel.find with
      | none => .ok (false, joinWith ',' ts)
      | some key => .ok (true, contentOf key) := by
  have hk := rename_resolve rel ts
  rw [standardContentRel_eq rel h, Node.key]
  simp only [nodeOf]
  cases hr : resolve rel.find (ts.filterMap citeOf) with
  | none => rw [hr] at hk; simp [hk]
  | some ms => rw [hr] at hk; simp [hk.1, hk.2, contentOf]

/-! ### Keys of instances -/

/-- The key has the pieces of normalised tokens, and a number for each hole. -/
def IsKey (key : Key Label) : Prop :=
  ∃ ts : List Str, (∀ t ∈ ts, NormToken t) ∧ key.1.pieces = ts.map pieceOf ∧
    key.2.length = (ts.filterMap citeOf).length

/-- The key of an instance is one that can be written. -/
theorem isKey_nodeOf {rel : Int → Option ℕ} {id : Int} {type : Str} {ts : List Str}
    (h : ∀ t ∈ ts, NormToken t) {key : Key Label} (hk : (nodeOf id type ts).key rel = some key) :
    IsKey key := by
  obtain ⟨hl, ha⟩ := key_eq_some.mp hk
  refine ⟨ts, h, by rw [hl]; rfl, ?_⟩
  simpa [nodeOf] using (congrArg List.length ha).symm

/-- The rendered tokens have the pieces, and are as `standardContent` writes them. -/
theorem render_spec {ts : List Str} (h : ∀ t ∈ ts, NormToken t) {ms : List ℕ}
    (hm : ms.length = (ts.filterMap citeOf).length) :
    (∀ t ∈ render (ts.map pieceOf) ms, NormToken t) ∧
      (render (ts.map pieceOf) ms).map pieceOf = ts.map pieceOf := by
  induction ts generalizing ms with
  | nil => simp [render]
  | cons t ts ih =>
      have hts : ∀ s ∈ ts, NormToken s := fun s hs => h s (by simp [hs])
      cases hc : citeOf t with
      | none =>
          rw [List.filterMap_cons_none hc] at hm
          obtain ⟨h₁, h₂⟩ := ih hts hm
          simp only [List.map_cons, pieceOf_text hc, render, List.mem_cons, forall_eq_or_imp, h₂]
          exact ⟨⟨h t (by simp), h₁⟩, trivial⟩
      | some a =>
          rw [List.filterMap_cons_some hc, List.length_cons] at hm
          obtain ⟨m, ms, rfl⟩ := List.exists_cons_of_length_eq_add_one hm
          obtain ⟨h₁, h₂⟩ := ih hts (by simpa using hm)
          simp only [List.map_cons, pieceOf_hole hc, render, List.mem_cons, forall_eq_or_imp, h₂,
            pieceOf_citation]
          exact ⟨⟨citation_norm _ _ m, h₁⟩, trivial⟩

/-- The tokens of a key cite its base ids. -/
theorem render_cites {ts : List Str} {ms : List ℕ} (hm : ms.length = (ts.filterMap citeOf).length)
    (hmax : ∀ m ∈ ms, m ≤ INT_MAX) :
    (render (ts.map pieceOf) ms).filterMap citeOf = ms.map Nat.cast := by
  induction ts generalizing ms with
  | nil => cases ms <;> simp [render] at hm ⊢
  | cons t ts ih =>
      cases hc : citeOf t with
      | none =>
          rw [List.filterMap_cons_none hc] at hm
          simp only [List.map_cons, pieceOf_text hc, render]
          rw [List.filterMap_cons_none hc, ih hm hmax]
      | some a =>
          rw [List.filterMap_cons_some hc, List.length_cons] at hm
          obtain ⟨m, ms, rfl⟩ := List.exists_cons_of_length_eq_add_one hm
          simp only [List.map_cons, pieceOf_hole hc, render]
          rw [List.filterMap_cons_some (citeOf_citation _ _ (hmax m (by simp))),
            ih (by simpa using hm) fun k hk => hmax k (by simp [hk])]

/-- Different base ids give different tokens. -/
theorem render_injective {ts : List Str} {ms ms' : List ℕ}
    (hm : ms.length = (ts.filterMap citeOf).length)
    (hm' : ms'.length = (ts.filterMap citeOf).length)
    (h : render (ts.map pieceOf) ms = render (ts.map pieceOf) ms') : ms = ms' := by
  induction ts generalizing ms ms' with
  | nil =>
      obtain rfl : ms = [] := by simpa using hm
      exact (by simpa using hm' : ms' = []).symm
  | cons t ts ih =>
      cases hc : citeOf t with
      | none =>
          rw [List.filterMap_cons_none hc] at hm hm'
          simp only [List.map_cons, pieceOf_text hc, render, List.cons.injEq, true_and] at h
          exact ih hm hm' h
      | some a =>
          rw [List.filterMap_cons_some hc, List.length_cons] at hm hm'
          obtain ⟨m, ms, rfl⟩ := List.exists_cons_of_length_eq_add_one hm
          obtain ⟨m', ms', rfl⟩ := List.exists_cons_of_length_eq_add_one hm'
          simp only [List.map_cons, pieceOf_hole hc, render, List.cons.injEq] at h
          have hcut := congrArg cutOf h.1
          simp only [cutOf_citation, Cut.mk.injEq, List.cons.injEq, true_and] at hcut
          rw [dec_injective hcut, ih (by simpa using hm) (by simpa using hm') h.2]

/-- How many ids are cited can be read off the pieces. -/
theorem length_cites (ts : List Str) :
    (ts.filterMap citeOf).length = (ts.map pieceOf).countP fun p => p matches .hole _ _ := by
  induction ts with
  | nil => rfl
  | cons t ts ih =>
      cases hc : citeOf t with
      | none => simp [hc, ih, pieceOf_text hc]
      | some a => simp [hc, ih, pieceOf_hole hc]

/-- The tokens of a key are normalised. -/
theorem render_norm {key : Key Label} (h : IsKey key) :
    ∀ t ∈ render key.1.pieces key.2, NormToken t := by
  obtain ⟨ts, hts, hp, hm⟩ := h
  rw [hp]
  exact (render_spec hts hm).1

/-- **A content determines the key**: two keys of one type that are written alike are the same. -/
theorem contentOf_injective {key key' : Key Label} (h : IsKey key) (h' : IsKey key')
    (ht : key.1.type = key'.1.type) (hc : contentOf key = contentOf key') : key = key' := by
  have hr : render key.1.pieces key.2 = render key'.1.pieces key'.2 := by
    rw [← getlines_norm (render_norm h), ← getlines_norm (render_norm h')]
    exact congrArg _ hc
  obtain ⟨ts, hts, hp, hm⟩ := h
  obtain ⟨ts', hts', hp', hm'⟩ := h'
  have hpieces : ts.map pieceOf = ts'.map pieceOf := by
    have := congrArg (List.map pieceOf) hr
    rwa [hp, hp', (render_spec hts hm).2, (render_spec hts' hm').2] at this
  have hcites : (ts.filterMap citeOf).length = (ts'.filterMap citeOf).length := by
    rw [length_cites, length_cites, hpieces]
  obtain ⟨⟨type, pieces⟩, nums⟩ := key
  obtain ⟨⟨type', pieces'⟩, nums'⟩ := key'
  simp only at ht hp hp' hr hm hm'
  subst ht hp hp'
  rw [hpieces] at hr
  rw [hpieces, render_injective (hm.trans hcites) hm' hr]

/-- Read again, the content of a key is a node with the key's label, citing the key's numbers. -/
theorem nodeOf_contentOf {key : Key Label} (h : IsKey key) (hmax : ∀ m ∈ key.2, m ≤ INT_MAX)
    (id : Int) : nodeOf id key.1.type (getlines ',' (contentOf key)) =
      ⟨id, key.1, key.2.map Nat.cast⟩ := by
  rw [contentOf, getlines_norm (render_norm h)]
  obtain ⟨ts, hts, hp, hm⟩ := h
  rw [nodeOf, hp, (render_spec hts hm).2, render_cites hm hmax, ← hp]

end VulcanDB.Compression
