import Mathlib.Computability.Language
import Mathlib.Tactic

/-!
# Library — Patterns and rules of a scanner

Regular expressions over classes of characters, matched by derivatives, and the choice a scanner
makes among its rules: the longest match, and of equal ones the first rule.

* `accepts_iff`: the matcher decides the language of the expression.
* `longest_spec`: the longest match at the start of a text.
* `pick_spec`: the rule that is taken, and how much of the text it matches.
* `pick_of_prefix`: what follows the match has no part in the choice.
-/

namespace Flex

/-- The characters of the input. -/
abbrev Str := List Char

/-- Regular expressions over classes of characters. -/
inductive Regex where
  | empty
  | eps
  | chars (p : Char → Bool)
  | seq (r s : Regex)
  | alt (r s : Regex)
  | star (r : Regex)

namespace Regex

/-! ### Expressions -/

/-- One character. -/
def one (c : Char) : Regex := .chars (· == c)

/-- A quoted string of a rule. -/
def lit (s : Str) : Regex := s.foldr (fun c r => .seq (one c) r) .eps

/-- A string in letters of either case. -/
def word (s : Str) : Regex :=
  s.foldr (fun c r => .seq (.chars fun d => d == c.toLower || d == c.toUpper) r) .eps

/-- Once or more. -/
def plus (r : Regex) : Regex := .seq r (.star r)

/-- Once or not at all. -/
def opt (r : Regex) : Regex := .alt r .eps

/-- `.`, which does not match the end of a line. -/
def dot : Regex := .chars (· != '\n')

/-- Any character. -/
def any : Regex := .chars fun _ => true

/-! ### The matcher -/

/-- Whether the empty text is accepted. -/
def nullable : Regex → Bool
  | .empty => false
  | .eps => true
  | .chars _ => false
  | .seq r s => r.nullable && s.nullable
  | .alt r s => r.nullable || s.nullable
  | .star _ => true

/-- `seq`, without empty parts. -/
def mkSeq : Regex → Regex → Regex
  | .empty, _ => .empty
  | .eps, s => s
  | r, s => .seq r s

/-- `alt`, without empty parts. -/
def mkAlt : Regex → Regex → Regex
  | .empty, s => s
  | r, .empty => r
  | r, s => .alt r s

/-- What may follow the character. -/
def deriv (c : Char) : Regex → Regex
  | .empty => .empty
  | .eps => .empty
  | .chars p => if p c then .eps else .empty
  | .seq r s =>
    if r.nullable then mkAlt (mkSeq (r.deriv c) s) (s.deriv c) else mkSeq (r.deriv c) s
  | .alt r s => mkAlt (r.deriv c) (s.deriv c)
  | .star r => mkSeq (r.deriv c) (.star r)

/-- Whether the whole text is accepted. -/
def accepts (r : Regex) : Str → Bool
  | [] => r.nullable
  | c :: s => accepts (r.deriv c) s

/-- Nothing can be accepted any more. -/
def isEmpty : Regex → Bool
  | .empty => true
  | _ => false

/-- The length of the longest match at the start of a text. -/
def longest (r : Regex) : Str → Option ℕ
  | [] => if r.nullable then some 0 else none
  | c :: s =>
    if r.isEmpty then none
    else match longest (r.deriv c) s with
      | some n => some (n + 1)
      | none => if r.nullable then some 0 else none

/-! ### Languages -/

/-- The one-character strings of a class. -/
def classLang (p : Char → Bool) : Language Char := { s | ∃ c, p c = true ∧ s = [c] }

theorem mem_classLang {p : Char → Bool} {s : Str} :
    s ∈ classLang p ↔ ∃ c, p c = true ∧ s = [c] := Iff.rfl

/-- The language of an expression. -/
def lang : Regex → Language Char
  | .empty => 0
  | .eps => 1
  | .chars p => classLang p
  | .seq r s => r.lang * s.lang
  | .alt r s => r.lang + s.lang
  | .star r => KStar.kstar r.lang

/-- The empty text, by induction on the expression. -/
theorem nullable_iff (r : Regex) : r.nullable = true ↔ [] ∈ r.lang := by
  induction r with
  | empty => simp [nullable, lang]
  | eps => simp [nullable, lang]
  | chars p => simp [nullable, lang, mem_classLang]
  | seq r s ihr ihs => simp [nullable, lang, Language.mem_mul, ihr, ihs]
  | alt r s ihr ihs => simp [nullable, lang, Language.mem_add, ihr, ihs]
  | star r ih => simp [nullable, lang, Language.nil_mem_kstar]

/-- The short form is the same language. -/
theorem lang_mkSeq (r s : Regex) : (mkSeq r s).lang = r.lang * s.lang := by
  cases r <;> simp [mkSeq, lang]

theorem lang_mkAlt (r s : Regex) : (mkAlt r s).lang = r.lang + s.lang := by
  cases r <;> cases s <;> simp [mkAlt, lang, zero_add, add_zero]

/-- A character of a product belongs to the first factor, or to the second after an empty first. -/
theorem cons_mem_mul {l m : Language Char} {c : Char} {s : Str} :
    c :: s ∈ l * m ↔ ([] ∈ l ∧ c :: s ∈ m) ∨ ∃ a b, c :: a ∈ l ∧ b ∈ m ∧ a ++ b = s := by
  rw [Language.mem_mul]
  constructor
  · rintro ⟨a, ha, b, hb, hab⟩
    cases a with
    | nil => exact .inl ⟨ha, hab ▸ hb⟩
    | cons d a =>
        obtain ⟨rfl, rfl⟩ := List.cons.inj (List.cons_append.symm.trans hab)
        exact .inr ⟨a, b, ha, hb, rfl⟩
  · rintro (⟨hl, hm⟩ | ⟨a, b, ha, hb, rfl⟩)
    · exact ⟨[], hl, _, hm, rfl⟩
    · exact ⟨c :: a, ha, b, hb, rfl⟩

/-- A repetition begins with one that is not empty. -/
theorem cons_mem_kstar {l : Language Char} {c : Char} {s : Str} :
    c :: s ∈ KStar.kstar l ↔ ∃ a b, c :: a ∈ l ∧ b ∈ KStar.kstar l ∧ a ++ b = s := by
  constructor
  · intro h
    rw [Language.kstar_def_nonempty] at h
    obtain ⟨S, hS, hall⟩ := h
    cases S with
    | nil => cases hS
    | cons x S =>
        obtain ⟨hx, hne⟩ := hall x List.mem_cons_self
        cases x with
        | nil => exact absurd rfl hne
        | cons d a =>
            obtain ⟨rfl, hab⟩ := List.cons.inj hS
            refine ⟨a, S.flatten, hx, ?_, hab.symm⟩
            exact Language.join_mem_kstar fun y hy => (hall y (List.mem_cons_of_mem _ hy)).1
  · rintro ⟨a, b, ha, hb, rfl⟩
    rw [← Language.one_add_self_mul_kstar_eq_kstar, Language.mem_add]
    exact .inr (Language.append_mem_mul ha hb)

/-- **The derivative**, by induction on the expression. -/
theorem mem_lang_deriv (c : Char) (r : Regex) (s : Str) :
    s ∈ (r.deriv c).lang ↔ c :: s ∈ r.lang := by
  induction r generalizing s with
  | empty => simp [deriv, lang]
  | eps => simp [deriv, lang]
  | chars p =>
      rw [deriv, lang, mem_classLang]
      split
      · rename_i hp
        simp only [lang, Language.mem_one, List.cons.injEq]
        exact ⟨fun hs => ⟨c, hp, rfl, hs⟩, fun ⟨_, _, _, hs⟩ => hs⟩
      · rename_i hp
        simp only [lang, Language.notMem_zero, false_iff, List.cons.injEq, not_exists, not_and]
        rintro d hd rfl
        exact absurd hd hp
  | seq r t ihr iht =>
      have hfirst : s ∈ (r.deriv c).lang * t.lang ↔
          ∃ a b, c :: a ∈ r.lang ∧ b ∈ t.lang ∧ a ++ b = s := by
        simp only [Language.mem_mul, ihr]
        exact ⟨fun ⟨a, ha, b, hb, h⟩ => ⟨a, b, ha, hb, h⟩, fun ⟨a, b, ha, hb, h⟩ => ⟨a, ha, b, hb, h⟩⟩
      rw [lang, cons_mem_mul, ← hfirst, ← nullable_iff, ← iht, deriv]
      split
      · rename_i hn
        rw [lang_mkAlt, lang_mkSeq, Language.mem_add, or_comm]
        simp [hn]
      · rename_i hn
        rw [lang_mkSeq]
        simp [hn]
  | alt r t ihr iht => simp [deriv, lang_mkAlt, lang, Language.mem_add, ihr, iht]
  | star r ih =>
      rw [deriv, lang_mkSeq, lang, cons_mem_kstar, Language.mem_mul]
      simp only [ih]
      exact ⟨fun ⟨a, ha, b, hb, h⟩ => ⟨a, b, ha, hb, h⟩, fun ⟨a, b, ha, hb, h⟩ => ⟨a, ha, b, hb, h⟩⟩

/-- **The matcher decides the language**. -/
theorem accepts_iff (r : Regex) (s : Str) : r.accepts s = true ↔ s ∈ r.lang := by
  induction s generalizing r with
  | nil => exact nullable_iff r
  | cons c s ih => rw [accepts, ih, mem_lang_deriv]

/-- A string of the language has characters of its classes only. -/
theorem forall_of_mem_kstar {l : Language Char} {P : Char → Prop} (h : ∀ s ∈ l, ∀ c ∈ s, P c)
    {s : Str} (hs : s ∈ KStar.kstar l) : ∀ c ∈ s, P c := by
  obtain ⟨S, rfl, hall⟩ := Language.mem_kstar.mp hs
  intro c hc
  obtain ⟨y, hy, hcy⟩ := List.mem_flatten.mp hc
  exact h y (hall y hy) c hcy

/-- A quoted string matches itself. -/
theorem mem_lang_lit {w s : Str} : s ∈ (lit w).lang ↔ s = w := by
  induction w generalizing s with
  | nil => exact Language.mem_one s
  | cons c w ih =>
      have hunfold : (lit (c :: w)).lang = (one c).lang * (lit w).lang := rfl
      rw [hunfold, Language.mem_mul]
      constructor
      · rintro ⟨a, ⟨d, hd, rfl⟩, b, hb, rfl⟩
        rw [ih.mp hb, beq_iff_eq.mp hd]
        rfl
      · rintro rfl
        exact ⟨[c], ⟨c, beq_self_eq_true c, rfl⟩, w, ih.mpr rfl, rfl⟩

/-- A string of `r+` over a class of characters has these only. -/
theorem forall_of_mem_plus {p : Char → Bool} {s : Str} (h : s ∈ (plus (.chars p)).lang) :
    ∀ c ∈ s, p c = true := by
  have hclass : ∀ a ∈ classLang p, ∀ c ∈ a, p c = true := by
    rintro a ⟨d, hd, rfl⟩ c hc
    rwa [List.mem_singleton.mp hc]
  obtain ⟨a, ha, b, hb, rfl⟩ := Language.mem_mul.mp h
  intro c hc
  rcases List.mem_append.mp hc with hc | hc
  · exact hclass a ha c hc
  · exact forall_of_mem_kstar hclass hb c hc

/-! ### The longest match -/

theorem accepts_empty (s : Str) : accepts .empty s = false := by
  induction s with
  | nil => rfl
  | cons c s ih => exact ih

/-- **The longest match**, if there is one. -/
theorem longest_spec (r : Regex) (s : Str) :
    match r.longest s with
    | some n => n ≤ s.length ∧ r.accepts (s.take n) = true ∧
        ∀ m ≤ s.length, r.accepts (s.take m) = true → m ≤ n
    | none => ∀ m ≤ s.length, r.accepts (s.take m) = false := by
  induction s generalizing r with
  | nil =>
      unfold longest
      by_cases hn : r.nullable = true
      · simp [hn, accepts]
      · simp [hn, accepts]
  | cons c s ih =>
      have htail := ih (r.deriv c)
      -- nothing longer can match any more
      by_cases he : r.isEmpty = true
      · have hr : r = .empty := by cases r <;> simp [isEmpty] at he ⊢
        subst hr
        exact fun m _ => accepts_empty _
      rw [longest, if_neg he]
      -- a match of the rest is longer than the empty one
      cases hl : longest (r.deriv c) s with
      | some n =>
          rw [hl] at htail
          obtain ⟨hle, hacc, hmax⟩ := htail
          refine ⟨Nat.succ_le_succ hle, hacc, fun m hm hacc' => ?_⟩
          cases m with
          | zero => exact Nat.zero_le _
          | succ m => exact Nat.succ_le_succ (hmax m (Nat.le_of_succ_le_succ hm) hacc')
      | none =>
          rw [hl] at htail
          by_cases hn : r.nullable = true
          · simp only [hn, if_true]
            refine ⟨Nat.zero_le _, hn, fun m hm hacc => ?_⟩
            cases m with
            | zero => exact le_rfl
            | succ m => exact absurd hacc (by simp [accepts, htail m (Nat.le_of_succ_le_succ hm)])
          · simp only [hn]
            intro m hm
            cases m with
            | zero => simpa [accepts] using hn
            | succ m => exact htail m (Nat.le_of_succ_le_succ hm)

end Regex

/-! ### Rules -/

section Rules

variable {α : Type*}

/-- The longest match, and of equal ones that of the first rule. -/
def pick (s : Str) : List (Regex × α) → Option (ℕ × α)
  | [] => none
  | (r, a) :: rules =>
    match r.longest s, pick s rules with
    | some n, some (m, b) => if m ≤ n then some (n, a) else some (m, b)
    | some n, none => some (n, a)
    | none, p => p

/-- The prefixes of `s` that a rule matches are no longer than `n`. -/
def Bounded (s : Str) (rules : List (Regex × α)) (n : ℕ) : Prop :=
  ∀ r b, (r, b) ∈ rules → ∀ m ≤ s.length, r.accepts (s.take m) = true → m ≤ n

theorem Bounded.cons {s : Str} {r : Regex} {a : α} {rules : List (Regex × α)} {n : ℕ}
    (hr : ∀ m ≤ s.length, r.accepts (s.take m) = true → m ≤ n) (h : Bounded s rules n) :
    Bounded s ((r, a) :: rules) n := by
  intro q b hb m hm hacc
  rcases List.mem_cons.mp hb with heq | hb
  · obtain ⟨rfl, rfl⟩ := Prod.mk.inj heq
    exact hr m hm hacc
  · exact h q b hb m hm hacc

theorem pick_eq_none {s : Str} {rules : List (Regex × α)} (h : pick s rules = none) :
    ∀ r b, (r, b) ∈ rules → ∀ m ≤ s.length, r.accepts (s.take m) = false := by
  induction rules with
  | nil => simp
  | cons p rules ih =>
      obtain ⟨r, a⟩ := p
      have hlong := r.longest_spec s
      rw [pick] at h
      split at h
      · split at h <;> cases h
      · cases h
      · rename_i hnone
        rw [hnone] at hlong
        intro r' b hb
        rcases List.mem_cons.mp hb with heq | hb
        · obtain ⟨rfl, rfl⟩ := Prod.mk.inj heq
          exact hlong
        · exact ih h r' b hb

/-- **The rule that is picked** has the longest match of all. -/
theorem pick_spec {s : Str} {rules : List (Regex × α)} {n : ℕ} {a : α}
    (h : pick s rules = some (n, a)) :
    n ≤ s.length ∧ (∃ r, (r, a) ∈ rules ∧ r.accepts (s.take n) = true) ∧ Bounded s rules n := by
  induction rules generalizing n a with
  | nil => cases h
  | cons p rules ih =>
      obtain ⟨r, c⟩ := p
      have hlong := r.longest_spec s
      rw [pick] at h
      -- the first rule matches: it is taken where it is at least as long
      split at h
      · rename_i k m b hk hm
        rw [hk] at hlong
        obtain ⟨hle, ⟨r', hr', hacc'⟩, hmax⟩ := ih hm
        obtain ⟨hkle, hkacc, hkmax⟩ := hlong
        split at h
        · rename_i hmk
          obtain ⟨rfl, rfl⟩ := Prod.mk.inj (Option.some.inj h)
          exact ⟨hkle, ⟨r, List.mem_cons_self, hkacc⟩,
            .cons hkmax fun q d hd i hi hacc => (hmax q d hd i hi hacc).trans hmk⟩
        · rename_i hmk
          obtain ⟨rfl, rfl⟩ := Prod.mk.inj (Option.some.inj h)
          exact ⟨hle, ⟨r', List.mem_cons_of_mem _ hr', hacc'⟩,
            .cons (fun i hi hacc => (hkmax i hi hacc).trans (Nat.le_of_not_le hmk)) hmax⟩
      · rename_i k hk hnone
        rw [hk] at hlong
        obtain ⟨rfl, rfl⟩ := Prod.mk.inj (Option.some.inj h)
        refine ⟨hlong.1, ⟨r, List.mem_cons_self, hlong.2.1⟩,
          .cons hlong.2.2 fun q d hd i hi hacc => ?_⟩
        rw [pick_eq_none hnone q d hd i hi] at hacc
        cases hacc
      · rename_i hnone
        rw [hnone] at hlong
        obtain ⟨hle, ⟨r', hr', hacc'⟩, hmax⟩ := ih h
        refine ⟨hle, ⟨r', List.mem_cons_of_mem _ hr', hacc'⟩, .cons (fun i hi hacc => ?_) hmax⟩
        rw [hlong i hi] at hacc
        cases hacc

/-- What follows the longest match has no part in it. -/
theorem longest_of_prefix {s t : Str} (r : Regex) (hp : t <+: s)
    (hb : ∀ m ≤ s.length, r.accepts (s.take m) = true → m ≤ t.length) :
    r.longest t = r.longest s := by
  have hlen : t.length ≤ s.length := hp.length_le
  have htake : ∀ m ≤ t.length, t.take m = s.take m := by
    obtain ⟨u, rfl⟩ := hp
    exact fun m hm => (List.take_append_of_le_length hm).symm
  have hs := r.longest_spec s
  have ht := r.longest_spec t
  cases hls : r.longest s with
  | none =>
      rw [hls] at hs
      cases hlt : r.longest t with
      | none => rfl
      | some m =>
          rw [hlt] at ht
          obtain ⟨hm, hacc, -⟩ := ht
          rw [htake m hm, hs m (hm.trans hlen)] at hacc
          cases hacc
  | some n =>
      rw [hls] at hs
      obtain ⟨hn, hacc, hmax⟩ := hs
      have hnt : n ≤ t.length := hb n hn hacc
      cases hlt : r.longest t with
      | none =>
          rw [hlt] at ht
          rw [← htake n hnt, ht n hnt] at hacc
          cases hacc
      | some m =>
          rw [hlt] at ht
          obtain ⟨hm, hacc', hmax'⟩ := ht
          have hle : n ≤ m := hmax' n hnt (by rwa [htake n hnt])
          have hge : m ≤ n := hmax m (hm.trans hlen) (by rwa [← htake m hm])
          rw [Nat.le_antisymm hge hle]

/-- **A choice is made on the text that is matched,** whatever follows it. -/
theorem pick_of_prefix {s t : Str} {rules : List (Regex × α)} (hp : t <+: s)
    (hb : Bounded s rules t.length) : pick t rules = pick s rules := by
  induction rules with
  | nil => rfl
  | cons p rules ih =>
      obtain ⟨r, a⟩ := p
      have hlongest : r.longest t = r.longest s :=
        longest_of_prefix r hp fun m hm hacc => hb r a List.mem_cons_self m hm hacc
      have hrest : pick t rules = pick s rules :=
        ih fun q b hq => hb q b (List.mem_cons_of_mem _ hq)
      rw [pick, pick, hlongest, hrest]

end Rules

end Flex
