import VulcanDB.Express.Aggregates
import VulcanDB.Express.Attributes

/-!
# EXPRESS — The text of a declaration

What a declaration takes off the front of the tokens is read the same way whatever stands behind it,
so that a schema that is accepted falls into the texts of its declarations.

* `entityAttr_part`, `entityBody_part`: the rules that stop at a keyword.
* `declaration_part`: what a declaration takes up is a declaration of its own.
* `text_parts`: the text of a schema is that of its declarations, with a head and a tail.
-/

namespace VulcanDB.Express

open Cxx

/-! ### Attributes and conditions -/

/-- A type and a semicolon are read, whatever follows. -/
theorem attrOf_part {name : Str} {isOptional : Bool} {ts rest : List Token} {a : AttrArgs}
    (h : attrOf name isOptional ts = some (a, rest)) :
    ∃ d : TypeName, ts = d.tokens ++ .semicolon :: rest ∧ a = ⟨name, d.args, isOptional⟩ := by
  unfold attrOf at h
  split at h
  · rename_i args ts' hargs
    obtain ⟨rfl, rfl⟩ := Prod.mk.inj (Option.some.inj h)
    obtain ⟨d, rfl, rfl⟩ := exists_typeName hargs
    exact ⟨d, rfl, rfl⟩
  · cases h

theorem attrOf_tokens (name : Str) (isOptional : Bool) (d : TypeName) (rest : List Token) :
    attrOf name isOptional (d.tokens ++ .semicolon :: rest) =
      some (⟨name, d.args, isOptional⟩, rest) := by
  rw [attrOf, typeName_tokens]

theorem nextAttr_part {ts rest : List Token} {a : AttrArgs} (h : nextAttr ts = some (a, rest)) :
    ∃ used, ts = used ++ rest ∧ ∀ rest', nextAttr (used ++ rest') = some (a, rest') := by
  unfold nextAttr at h
  split at h
  · rename_i l ts
    obtain ⟨d, rfl, rfl⟩ := attrOf_part h
    refine ⟨.label l :: .colon :: .optional :: d.tokens ++ [.semicolon], by simp, fun rest' => ?_⟩
    rw [List.append_assoc]
    exact attrOf_tokens l true d rest'
  · rename_i l ts _
    obtain ⟨d, rfl, rfl⟩ := attrOf_part h
    refine ⟨.label l :: .colon :: d.tokens ++ [.semicolon], by simp, fun rest' => ?_⟩
    rw [List.append_assoc]
    have hplain : nextAttr (.label l :: .colon :: (d.tokens ++ .semicolon :: rest')) =
        attrOf l false (d.tokens ++ .semicolon :: rest') :=
      nextAttr.eq_2 l _ fun ts' => d.not_before _ (.inr rfl) ts'
    exact hplain.trans (attrOf_tokens l false d rest')
  · cases h

/-- The attributes of an entity, up to what is none. -/
theorem entityAttr_part (ts : List Token) : ∃ used, ts = used ++ (entityAttr ts).2 ∧
    ∀ rest', nextAttr rest' = none → entityAttr (used ++ rest') = ((entityAttr ts).1, rest') := by
  fun_induction entityAttr ts with
  | case1 ts h => exact ⟨[], rfl, fun rest' hnone => entityAttr_of_none hnone⟩
  | case2 ts a ts' h ih =>
      obtain ⟨first, rfl, hfirst⟩ := nextAttr_part h
      obtain ⟨used, hused, hrest⟩ := ih
      refine ⟨first ++ used, by rw [List.append_assoc, ← hused], fun rest' hnone => ?_⟩
      rw [List.append_assoc, entityAttr_of_next (hfirst _), hrest rest' hnone]

theorem condition_part {ts rest : List Token} (h : condition ts = some rest) :
    ∃ used, ts = used ++ rest ∧ ∀ rest', condition (used ++ rest') = some rest' := by
  unfold condition at h
  split at h
  · rename_i l l' ts
    split at h
    · rename_i s ts' hs
      obtain rfl := Option.some.inj h
      obtain ⟨ns, -, hts⟩ := labelList_joins ts
      rw [hs] at hts
      have htokens (rest' : List Token) : Token.label l :: Token.colon :: Token.label l' ::
          ((ns.flatMap fun n => [Token.comma, Token.label n]) ++ [Token.semicolon]) ++ rest' =
            Token.label l :: Token.colon :: Token.label l' ::
              ((ns.flatMap fun n => [Token.comma, Token.label n]) ++ Token.semicolon :: rest') := by
        simp
      refine ⟨_, by rw [hts, htokens], fun rest' => ?_⟩
      rw [htokens, condition, labelList_spelled ns rfl]
    · cases h
  · cases h

theorem uniqueConditionList_of_none {ts : List Token} (h : condition ts = none) :
    uniqueConditionList ts = ts := by
  rw [uniqueConditionList]
  split
  · rfl
  · rename_i heq
    rw [h] at heq
    cases heq

theorem uniqueConditionList_of_some {ts ts' : List Token} (h : condition ts = some ts') :
    uniqueConditionList ts = uniqueConditionList ts' := by
  rw [uniqueConditionList]
  split
  · rename_i heq
    rw [h] at heq
    cases heq
  · rename_i heq
    obtain rfl := Option.some.inj (h.symm.trans heq)
    rfl

theorem uniqueConditionList_part (ts : List Token) : ∃ used, ts = used ++ uniqueConditionList ts ∧
    ∀ rest', condition rest' = none → uniqueConditionList (used ++ rest') = rest' := by
  fun_induction uniqueConditionList ts with
  | case1 ts h => exact ⟨[], rfl, fun rest' hnone => uniqueConditionList_of_none hnone⟩
  | case2 ts ts' h ih =>
      obtain ⟨first, rfl, hfirst⟩ := condition_part h
      obtain ⟨used, hused, hrest⟩ := ih
      refine ⟨first ++ used, by rw [List.append_assoc, ← hused], fun rest' hnone => ?_⟩
      rw [List.append_assoc, uniqueConditionList_of_some (hfirst _), hrest rest' hnone]

/-- The conditions of an entity, which begin with no attribute. -/
theorem uniqueCondition_part {ts rest : List Token}
    (h : uniqueCondition ts = some (.endEntity :: rest)) :
    ∃ used, ts = used ++ .endEntity :: rest ∧ ∀ rest',
      uniqueCondition (used ++ .endEntity :: rest') = some (.endEntity :: rest') ∧
      nextAttr (used ++ .endEntity :: rest') = none := by
  unfold uniqueCondition at h
  split at h
  · rename_i ts
    obtain ⟨ts', hc, hlist⟩ := Option.map_eq_some_iff.mp h
    obtain ⟨first, rfl, hfirst⟩ := condition_part hc
    obtain ⟨used, hused, hrest⟩ := uniqueConditionList_part ts'
    rw [hlist] at hused
    refine ⟨.unique :: first ++ used, by rw [hused]; simp, fun rest' => ⟨?_, rfl⟩⟩
    rw [List.append_assoc]
    show (condition (first ++ (used ++ .endEntity :: rest'))).map uniqueConditionList = _
    rw [hfirst, Option.map_some, hrest _ rfl]
  · obtain rfl := Option.some.inj h
    exact ⟨[], rfl, fun rest' => ⟨rfl, rfl⟩⟩

/-- What stands between the semicolon behind the head of an entity and its end. -/
theorem entityBody_part {ts rest : List Token} {attrs : List AttrArgs}
    (h : entityBody ts = some (attrs, rest)) :
    ∃ used, ts = .semicolon :: used ++ rest ∧
      ∀ rest', entityBody (.semicolon :: used ++ rest') = some (attrs, rest') := by
  unfold entityBody at h
  split at h
  · rename_i ts
    split at h
    · rename_i ts' hu
      obtain ⟨rfl, rfl⟩ := Prod.mk.inj (Option.some.inj h)
      obtain ⟨first, hfirst, hattrs⟩ := entityAttr_part ts
      obtain ⟨used, hused, hrest⟩ := uniqueCondition_part hu
      refine ⟨first ++ used ++ [.endEntity, .semicolon], ?_, fun rest' => ?_⟩
      · rw [hused] at hfirst
        rw [hfirst]
        simp
      · have hread := hattrs (used ++ .endEntity :: .semicolon :: rest') (hrest _).2
        have hts : .semicolon :: (first ++ used ++ [.endEntity, .semicolon]) ++ rest' =
            .semicolon :: (first ++ (used ++ .endEntity :: .semicolon :: rest')) := by simp
        rw [hts, entityBody, hread]
        simp only [(hrest _).1]
    · cases h
  · cases h

/-! ### The head of an entity -/

theorem subtypeOf_part {ts ts' : List Token} (h : (subtypeOf ts).2 = .semicolon :: ts') :
    ∃ used, ts = used ++ .semicolon :: ts' ∧ (used = [] ∨ ∃ u, used = .subtype :: u) ∧
      ∀ rest', subtypeOf (used ++ .semicolon :: rest') =
        ((subtypeOf ts).1, .semicolon :: rest') := by
  unfold subtypeOf at h ⊢
  split at h
  · rename_i n ts
    obtain rfl : ts = .semicolon :: ts' := h
    exact ⟨[.subtype, .of, .lbrace, .entityName n, .rbrace], rfl, .inr ⟨_, rfl⟩, fun _ => rfl⟩
  · obtain rfl : _ = .semicolon :: ts' := h
    exact ⟨[], rfl, .inl rfl, fun _ => rfl⟩

theorem supertypeNames_part {ts rest : List Token} {names : List Str}
    (h : supertypeNames ts = some (names, rest)) :
    ∃ used, ts = used ++ rest ∧ ∀ rest', supertypeNames (used ++ rest') = some (names, rest') := by
  unfold supertypeNames at h
  split at h
  · rename_i n ts
    obtain ⟨rfl, rfl⟩ := Prod.mk.inj (Option.some.inj h)
    exact ⟨[.entityName n, .rbrace], rfl, fun _ => rfl⟩
  · split at h
    · rename_i s ts' hs
      obtain ⟨rfl, rfl⟩ := Prod.mk.inj (Option.some.inj h)
      obtain ⟨n, ns, rfl, rfl⟩ := entityNames_names hs
      have htokens (rest' : List Token) : Token.oneof :: Token.lbrace :: Token.entityName n ::
          ((ns.flatMap fun n => [Token.comma, Token.entityName n]) ++
            [Token.rbrace, Token.rbrace]) ++ rest' =
          Token.oneof :: Token.lbrace :: (Token.entityName n ::
            (ns.flatMap fun n => [Token.comma, Token.entityName n]) ++
              Token.rbrace :: Token.rbrace :: rest') := by simp
      refine ⟨_, (htokens _).symm, fun rest' => ?_⟩
      rw [htokens, supertypeNames, entityNames_spelled]
    · cases h
  · cases h

/-- What may stand behind `supertype_of`. -/
def EndsSupertype (ts : List Token) : Prop := ∃ ts', ts = .subtype :: ts' ∨ ts = .semicolon :: ts'

theorem supertypeOf_part {ts rest : List Token} {r : Bool × List Str}
    (h : supertypeOf ts = some (r, rest)) : ∃ used, ts = used ++ rest ∧
      ∀ rest', EndsSupertype rest' → supertypeOf (used ++ rest') = some (r, rest') := by
  unfold supertypeOf at h
  split at h
  · obtain ⟨⟨names, rest⟩, hn, heq⟩ := Option.map_eq_some_iff.mp h
    obtain ⟨rfl, rfl⟩ := Prod.mk.inj heq
    obtain ⟨used, rfl, hused⟩ := supertypeNames_part hn
    refine ⟨.supertype :: .of :: .lbrace :: used, rfl, fun rest' _ => ?_⟩
    show (supertypeNames (used ++ rest')).map _ = _
    rw [hused]
    rfl
  · obtain ⟨⟨names, rest⟩, hn, heq⟩ := Option.map_eq_some_iff.mp h
    obtain ⟨rfl, rfl⟩ := Prod.mk.inj heq
    obtain ⟨used, rfl, hused⟩ := supertypeNames_part hn
    refine ⟨.abstract :: .supertype :: .of :: .lbrace :: used, rfl, fun rest' _ => ?_⟩
    show (supertypeNames (used ++ rest')).map _ = _
    rw [hused]
    rfl
  · obtain ⟨rfl, rfl⟩ := Prod.mk.inj (Option.some.inj h)
    refine ⟨[], rfl, ?_⟩
    rintro rest' ⟨ts', rfl | rfl⟩ <;> rfl

/-! ### Declarations -/

theorem typeDeclaration_part {name : Str} {ts rest : List Token} {d : Declaration}
    (h : typeDeclaration name ts = some (d, rest)) :
    ∃ used, ts = used ++ rest ∧
      ∀ rest', typeDeclaration name (used ++ rest') = some (d, rest') := by
  unfold typeDeclaration at h
  split at h
  · rename_i args ts' hargs
    obtain ⟨rfl, rfl⟩ := Prod.mk.inj (Option.some.inj h)
    obtain ⟨d, rfl, rfl⟩ := exists_typeName hargs
    refine ⟨d.tokens ++ [Token.semicolon, Token.endType, Token.semicolon], by simp, fun rest' => ?_⟩
    rw [List.append_assoc, List.cons_append, typeDeclaration, typeName_tokens]
    rfl
  · cases h

theorem entityDeclaration_part {name : Str} {ts rest : List Token} {d : Declaration}
    (h : entityDeclaration name ts = some (d, rest)) : ∃ used, ts = used ++ rest ∧
      ∀ rest', entityDeclaration name (used ++ rest') = some (d, rest') := by
  simp only [entityDeclaration, Option.bind_eq_bind, Option.bind_eq_some_iff, Prod.exists,
    Option.pure_def, Option.some.injEq, Prod.mk.injEq] at h
  obtain ⟨isAbstract, subtypes, ts₁, hsup, attrs, rest, hbody, rfl, rfl⟩ := h
  obtain ⟨body, hts₂, hread⟩ := entityBody_part hbody
  obtain ⟨sub, hts₁, hfirst, hsub⟩ := subtypeOf_part hts₂
  obtain ⟨sup, rfl, hsuper⟩ := supertypeOf_part hsup
  refine ⟨sup ++ (sub ++ .semicolon :: body), by rw [hts₁]; simp, fun rest' => ?_⟩
  have hends : EndsSupertype (sub ++ .semicolon :: (body ++ rest')) := by
    rcases hfirst with rfl | ⟨u, rfl⟩
    · exact ⟨_, .inr rfl⟩
    · exact ⟨_, .inl rfl⟩
  have hts : sup ++ (sub ++ .semicolon :: body) ++ rest' =
      sup ++ (sub ++ .semicolon :: (body ++ rest')) := by simp
  have hbody' : entityBody (.semicolon :: (body ++ rest')) = some (attrs, rest') := hread rest'
  rw [hts]
  simp only [entityDeclaration, hsuper _ hends, hsub, hbody', Option.bind_eq_bind, Option.bind_some]
  rfl

/-- **What a declaration takes up is a declaration of its own,** whatever stands behind it. -/
theorem declaration_part {ts rest : List Token} {d : Declaration}
    (h : declaration ts = some (d, rest)) :
    ∃ used, ts = used ++ rest ∧ ∀ rest', declaration (used ++ rest') = some (d, rest') := by
  unfold declaration at h
  split at h
  · rename_i n ts
    obtain ⟨used, rfl, hused⟩ := typeDeclaration_part h
    exact ⟨.type :: .entityName n :: .eq :: used, rfl, hused⟩
  · rename_i n ts
    obtain ⟨used, rfl, hused⟩ := entityDeclaration_part h
    exact ⟨.entity :: .entityName n :: used, rfl, hused⟩
  · cases h

/-- **An accepted text is cut into the parts of its declarations**, each read by itself. -/
theorem declarations_parts {ts : List Token} (h : (declarations ts).2 = true) :
    ∃ parts : List (List Token), ts = parts.flatten ++ [.endSchema, .semicolon] ∧
      parts.map declaration = (declarations ts).1.map fun d => some (d, []) := by
  fun_induction declarations ts with
  | case1 ts _ => exact ⟨[], of_decide_eq_true h, rfl⟩
  | case2 ts d ts' hd ih =>
      obtain ⟨used, rfl, hused⟩ := declaration_part hd
      obtain ⟨parts, rfl, hparts⟩ := ih h
      have hown : declaration used = some (d, []) := by
        have hread := hused []
        rwa [List.append_nil] at hread
      exact ⟨used :: parts, by simp, congrArg₂ List.cons hown hparts⟩

/-! ### Texts -/

/-- A text falls into parts where its tokens do. -/
theorem tokens_parts {text : Str} {parts : List (List Token)} {rest : List Token}
    (h : tokens text = parts.flatten ++ rest) : ∃ (owns : List Str) (tail : Str),
      text = owns.flatten ++ tail ∧ owns.map tokens = parts ∧ tokens tail = rest := by
  induction parts generalizing text with
  | nil => exact ⟨[], text, rfl, rfl, h⟩
  | cons part parts ih =>
      rw [List.flatten_cons, List.append_assoc] at h
      obtain ⟨own, others, rfl, hown, hothers⟩ := tokens_split h
      obtain ⟨owns, tail, rfl, hparts, htail⟩ := ih hothers
      exact ⟨own :: owns, tail, by simp, congrArg₂ List.cons hown hparts, htail⟩

/-- **The text of a schema is that of its declarations,** each of which is read on its own as it is
in the schema. -/
theorem text_parts {text : Str} (h : (schema (tokens text)).2 = true) :
    ∃ (head : Str) (owns : List Str) (tail : Str), text = head ++ owns.flatten ++ tail ∧
      (∃ l, tokens head = [.schema, .label l, .semicolon]) ∧
      tokens tail = [.endSchema, .semicolon] ∧
      owns.map (fun own => declaration (tokens own)) =
        (schema (tokens text)).1.map fun d => some (d, []) := by
  generalize hts : tokens text = ts at h ⊢
  unfold schema at h ⊢
  split at h
  · rename_i l ts
    obtain ⟨parts, rfl, hparts⟩ := declarations_parts (Bool.and_eq_true_iff.mp h).1
    have hsplit : tokens text = [.schema, .label l, .semicolon] ++
        (parts.flatten ++ [.endSchema, .semicolon]) := hts
    obtain ⟨head, others, rfl, hhead, hothers⟩ := tokens_split hsplit
    obtain ⟨owns, tail, rfl, rfl, htail⟩ := tokens_parts hothers
    refine ⟨head, owns, tail, by simp, ⟨l, hhead⟩, htail, ?_⟩
    rw [← hparts, List.map_map]
    rfl
  · cases h

end VulcanDB.Express
