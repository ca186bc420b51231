import VulcanDB.Library.Decimal
import VulcanDB.Compression.Runs

/-!
# Compression — Points

With `fpr` the coordinates of a cartesian point are written rounded, and points are matched by
what was written of them.  Numbers are read as exact decimals here (`unrounded`), so that a
coordinate is rounded once.

* `written_eq`: what is written for a coordinate.
* `written_eq_iff`: of two coordinates with one rounded value, which are written alike.
* `points_merged_iff`: the points of one place that get one base id.
-/

namespace VulcanDB.Compression

open Cxx HashCons

/-! ### One coordinate -/

/-- A number in a list: the text before it and after it, without blanks at the ends. -/
structure Coord where
  opens : Str
  number : Decimal
  closes : Str
  opens_mem : ∀ c ∈ opens, c = '(' ∨ c = ' '
  closes_mem : ∀ c ∈ closes, c = ')' ∨ c = ' '
  opens_head : opens.head? ≠ some ' '
  closes_last : closes.getLast? ≠ some ' '

namespace Coord

/-- The token of a coordinate. -/
def text (c : Coord) : Str := c.opens ++ (c.number.text ++ c.closes)

/-- One parenthesis at most before the number, and behind it one at most, or two where there is
one before it: then the code takes the number for a coordinate. -/
def Rounds (c : Coord) : Prop :=
  (∀ x ∈ c.opens.tail, x = ' ') ∧
    (c.closes.dropLast = [] ∨ (c.opens ≠ [] ∧ c.closes.dropLast = [')']))

instance (c : Coord) : Decidable c.Rounds := by unfold Rounds; infer_instance

/-- The lists opened before the number and closed behind it. -/
def shape (c : Coord) : ℕ × ℕ := (c.opens.count '(', c.closes.count ')')

/-- The coordinates have one place in the list and one value rounded to `p` places. -/
def SamePlace (p : Int) (c d : Coord) : Prop :=
  c.shape = d.shape ∧ roundTo p c.number.value = roundTo p d.number.value

/-- The coordinates are both rounded, and not a zero with a minus and one without; or neither is
rounded, and they are the same text. -/
def Alike (p : Int) (c d : Coord) : Prop :=
  (c.Rounds ∧ d.Rounds ∧ (c.number.neg = d.number.neg ∨ roundTo p c.number.value ≠ 0)) ∨
    (¬ c.Rounds ∧ ¬ d.Rounds ∧ c.text = d.text)

/-- What the compressor writes. -/
def written (p : Int) (c : Coord) : Str :=
  standardToken unrounded "IFCCARTESIANPOINT".toList true p (cutOf c.text)

/-- A number is written with digits, a point, an exponent and signs. -/
theorem mem_number {d : Decimal} {c : Char} (h : c ∈ d.text) :
    c.isDigit = true ∨ c ∈ ['.', 'e', 'E', '+', '-'] := by
  rcases List.mem_append.mp h with h | h
  · right
    revert h
    cases d.sign
    · intro h
      cases h
    · intro h
      obtain rfl := List.mem_singleton.mp h
      decide
    · intro h
      obtain rfl := List.mem_singleton.mp h
      decide
  · exact d.mem_unsigned h

theorem number_plain {d : Decimal} {c : Char} (h : c ∈ d.text) : PlainChar c := by
  rcases mem_number h with h | h
  · exact plainChar_of_isDigit h
  · have hall : ∀ x ∈ ['.', 'e', 'E', '+', '-'], PlainChar x := by decide
    exact hall c h

theorem number_ne_nil (d : Decimal) : d.text ≠ [] := by
  obtain ⟨c, s, hs, -⟩ := d.exists_head
  simp [Decimal.text, hs]

variable (c : Coord)

/-- A coordinate opens a list, or does not. -/
theorem opens_cases : c.opens = [] ∨ ∃ o, c.opens = '(' :: o := by
  cases ho : c.opens with
  | nil => exact .inl rfl
  | cons x o =>
      rcases c.opens_mem x (by rw [ho]; exact List.mem_cons_self) with rfl | rfl
      · exact .inr ⟨o, rfl⟩
      · exact absurd (by rw [ho]; rfl) c.opens_head

theorem closes_cases : c.closes = [] ∨ c.closes = c.closes.dropLast ++ [')'] := by
  rcases List.eq_nil_or_concat c.closes with hc | ⟨s, x, hc⟩
  · exact .inl hc
  · right
    rw [List.concat_eq_append] at hc
    rcases c.closes_mem x (by rw [hc]; simp) with rfl | rfl
    · rw [hc, List.dropLast_concat]
    · exact absurd (by rw [hc]; simp) c.closes_last

/-- The last parenthesis is seen at the end of the token. -/
theorem endsParen_text (o : Str) :
    endsParen (o ++ (c.number.text ++ c.closes)) = decide (c.closes ≠ []) := by
  rcases c.closes_cases with hc | hc
  · rw [hc, List.append_nil, endsParen, List.getLast?_append_of_ne_nil _ (number_ne_nil c.number)]
    simp only [ne_eq, not_true_eq_false, decide_false, decide_eq_false_iff_not]
    exact fun h => (number_plain (List.mem_of_getLast? h)).ne rfl rfl
  · have hne : c.closes ≠ [] := by
      rw [hc]
      simp
    rw [endsParen, hc]
    simp [← List.append_assoc]

theorem dropLast_text (o : Str) (h : c.closes ≠ []) : (o ++ (c.number.text ++ c.closes)).dropLast =
    o ++ (c.number.text ++ c.closes.dropLast) := by
  rw [← List.append_assoc, List.dropLast_append_of_ne_nil h, List.append_assoc]

/-- The parenthesis that is cut at either end. -/
theorem cutOf_text : cutOf c.text = ⟨decide (c.opens ≠ []), decide (c.closes ≠ []),
    c.opens.tail ++ (c.number.text ++ c.closes.dropLast)⟩ := by
  have hlast : ∀ o, (if endsParen (o ++ (c.number.text ++ c.closes)) = true then
      (o ++ (c.number.text ++ c.closes)).dropLast else o ++ (c.number.text ++ c.closes)) =
      o ++ (c.number.text ++ c.closes.dropLast) := by
    intro o
    rw [c.endsParen_text]
    by_cases hc : c.closes = []
    · simp [hc]
    · rw [if_pos (decide_eq_true hc), c.dropLast_text o hc]
  rcases c.opens_cases with ho | ⟨o, ho⟩
  · have hcut : cutOf c.text = if endsParen c.text then ⟨false, true, c.text.dropLast⟩
        else ⟨false, false, c.text⟩ := by
      rw [cutOf]
      intro r hr
      obtain ⟨x, s, hs⟩ := List.exists_cons_of_ne_nil (number_ne_nil c.number)
      rw [text, ho, List.nil_append, hs, List.cons_append] at hr
      refine (number_plain (d := c.number) (c := x) ?_).ne rfl (List.cons.inj hr).1
      rw [hs]
      exact List.mem_cons_self
    have hnil := hlast []
    have hends := c.endsParen_text []
    rw [hcut, text, ho, hends]
    rw [hends] at hnil
    by_cases hc : c.closes = []
    · simp [hc]
    · simp only [ne_eq, hc, not_false_eq_true, decide_true, if_true] at hnil ⊢
      rw [hnil]
      rfl
  · have hpp := hlast o
    have hends := c.endsParen_text o
    rw [text, ho, List.cons_append, cutOf, hends]
    rw [hends] at hpp
    by_cases hc : c.closes = []
    · simp [hc]
    · simp only [ne_eq, hc, not_false_eq_true, decide_true, if_true] at hpp ⊢
      rw [hpp]
      rfl

theorem cite_text : (cutOf c.text).cite = none := by
  rw [cutOf_text, Cut.cite, if_neg]
  intro h
  rcases List.mem_append.mp (List.mem_of_head? h) with h | h
  · rcases c.opens_mem _ (List.mem_of_mem_tail h) with h | h <;> cases h
  rcases List.mem_append.mp h with h | h
  · exact (number_plain h).ne rfl rfl
  · rcases c.closes_mem _ (List.dropLast_subset _ h) with h | h <;> cases h

theorem citeOf_text : citeOf c.text = none := c.cite_text

/-- What follows the number ends it for `strtod`. -/
theorem stops_closes : Stops c.closes.dropLast := by
  constructor
  · intro h
    rcases c.closes_mem _ (List.dropLast_subset _ h) with h | h <;> cases h
  · intro x hx
    rcases c.closes_mem x (List.dropLast_subset _ (List.mem_of_head? hx)) with rfl | rfl <;> decide

/-- A text that begins with a parenthesis, after blanks, is no number. -/
theorem strtod_paren {b r : Str} (hb : ∀ x ∈ b, x = ' ') (hr : '\x00' ∉ r) :
    strtod unrounded (b ++ '(' :: r) = (.finite false 0, b ++ '(' :: r) := by
  have hzero : cStr (b ++ '(' :: r) = b ++ '(' :: r := by
    refine before_of_notMem fun h => ?_
    rcases List.mem_append.mp h with h | h
    · cases hb _ h
    rcases List.mem_cons.mp h with h | h
    · cases h
    · exact hr h
  have hdrop : (b ++ '(' :: r).dropWhile isSpace = '(' :: r := by
    refine dropWhile_append_stop (fun x hx => ?_) rfl
    rw [hb x hx]
    rfl
  have hword : ∀ x w, x ≠ '(' → stripWord (x :: w) ('(' :: r) = none :=
    fun x w hx => stripWord_cons_ne hx.symm
  have hinf := hword 'i' ['n', 'f', 'i', 'n', 'i', 't', 'y'] (by decide)
  have hinf' := hword 'i' ['n', 'f'] (by decide)
  have hnan := hword 'n' ['a', 'n'] (by decide)
  have hhex := hword '0' ['x'] (by decide)
  have hmant : mantissa 10 Char.isDigit (fun c => c.toNat - 48) ('(' :: r) = none := by
    simp [mantissa]
  rw [strtod, hzero, hdrop]
  simp [hinf, hinf', hnan, hhex, hmant]

/-- **What the code tests**: the text where the number stops. -/
theorem stops_iff : ((strtod unrounded (cutOf c.text).pp).2 = [] ∨
      ((cutOf c.text).opened = true ∧ (strtod unrounded (cutOf c.text).pp).2 = [')'])) ↔ c.Rounds := by
  rw [cutOf_text]
  simp only [decide_eq_true_eq]
  -- `strtod` passes blanks and stops at a second parenthesis
  by_cases hopen : ∀ x ∈ c.opens.tail, x = ' '
  · have hspace : ∀ x ∈ c.opens.tail, isSpace x = true := fun x hx => by
      rw [hopen x hx]
      rfl
    rw [c.number.strtod_text unrounded hspace c.stops_closes, Rounds]
    exact ⟨fun h => ⟨hopen, h⟩, fun h => h.2⟩
  · refine iff_of_false ?_ fun h => hopen h.1
    have hmem : '(' ∈ c.opens.tail := by
      by_contra hnot
      refine hopen fun x hx => (c.opens_mem x (List.mem_of_mem_tail hx)).resolve_left ?_
      rintro rfl
      exact hnot hx
    obtain ⟨b, r, hb, hnot⟩ := List.eq_append_cons_of_mem hmem
    have hblank : ∀ x ∈ b, x = ' ' := by
      intro x hx
      refine (c.opens_mem x (List.mem_of_mem_tail ?_)).resolve_left ?_
      · rw [hb]
        exact List.mem_append_left _ hx
      · rintro rfl
        exact hnot hx
    have hzero : '\x00' ∉ r ++ (c.number.text ++ c.closes.dropLast) := by
      intro h
      rcases List.mem_append.mp h with h | h
      · have hin : '\x00' ∈ c.opens.tail := by
          rw [hb]
          simp [h]
        rcases c.opens_mem _ (List.mem_of_mem_tail hin) with h | h <;> cases h
      rcases List.mem_append.mp h with h | h
      · rcases mem_number h with h | h
        · cases h
        · revert h
          decide
      · exact c.stops_closes.zero h
    rw [hb, List.append_assoc, List.cons_append, strtod_paren hblank hzero]
    rintro (h | ⟨-, h⟩)
    · simp at h
    · have hone := congrArg List.length h
      have hpos := List.length_pos_of_ne_nil (number_ne_nil c.number)
      simp only [List.length_append, List.length_cons, List.length_nil] at hone
      omega

/-- What is written for a coordinate: the number rounded and one parenthesis kept at either end,
or the text as it was. -/
theorem written_eq (p : Int) : c.written p =
    if c.Rounds then paren (c.opens ≠ []) '(' ++
      putFixed p (.finite c.number.neg c.number.mag) ++ paren (c.closes ≠ []) ')'
    else c.text := by
  have hstops := c.stops_iff
  rw [written, standardToken, cite_text]
  by_cases hr : c.Rounds
  · have hspace : ∀ x ∈ c.opens.tail, isSpace x = true := fun x hx => by
      rw [hr.1 x hx]
      rfl
    have hcoord : coordinate unrounded "IFCCARTESIANPOINT".toList true p (cutOf c.text) =
        putFixed p (strtod unrounded (cutOf c.text).pp).1 := by
      simp [coordinate, hstops.mpr hr]
    rw [if_pos hr]
    show (cutOf c.text).around (coordinate _ _ _ _ _) = _
    rw [hcoord, cutOf_text, Cut.around, c.number.strtod_text unrounded hspace c.stops_closes]
    rfl
  · have hcoord : coordinate unrounded "IFCCARTESIANPOINT".toList true p (cutOf c.text) =
        (cutOf c.text).pp := by
      rw [coordinate]
      exact if_pos (.inl fun h => hr (hstops.mp h))
    rw [if_neg hr]
    show (cutOf c.text).around (coordinate _ _ _ _ _) = _
    rw [hcoord, cutOf_around]

/-- A coordinate is rounded by the parentheses at it, and by where there are blanks. -/
theorem Rounds.of_shape {c d : Coord} (h : c.Rounds) (hs : c.shape = d.shape)
    (hd : ' ' ∉ d.text) : d.Rounds := by
  have ho : ∀ x ∈ d.opens, x = '(' := fun x hx => (d.opens_mem x hx).resolve_right fun e =>
    hd (e ▸ List.mem_append_left _ hx)
  have hc : ∀ x ∈ d.closes, x = ')' := fun x hx => (d.closes_mem x hx).resolve_right fun e =>
    hd (e ▸ List.mem_append_right _ (List.mem_append_right _ hx))
  have ho' := List.eq_replicate_iff.mpr ⟨rfl, ho⟩
  have hc' := List.eq_replicate_iff.mpr ⟨rfl, hc⟩
  obtain ⟨hopens, hcloses⟩ := Prod.mk.inj hs
  rw [List.count_eq_length.mpr fun x hx => (ho x hx).symm] at hopens
  rw [List.count_eq_length.mpr fun x hx => (hc x hx).symm] at hcloses
  -- without blanks only parentheses are left, as many as in the other
  have hone : d.opens.length ≤ 1 := by
    rw [← hopens]
    rcases c.opens_cases with e | ⟨o, e⟩
    · simp [e]
    · have : o.count '(' = 0 := List.count_eq_zero.mpr fun hm => by
        have := h.1 '(' (by rw [e]; exact hm)
        cases this
      rw [e, List.count_cons_self, this]
  have htail : d.opens.tail = [] := by
    rw [ho', List.tail_replicate]
    simp
    omega
  have hdrop : d.closes.dropLast = List.replicate (d.closes.length - 1) ')' := by
    conv_lhs => rw [hc']
    exact List.dropLast_replicate
  have hle := List.count_le_length (a := ')') (l := c.closes)
  have hlen : c.closes.dropLast.length = c.closes.length - 1 := List.length_dropLast
  refine ⟨by simp [htail], ?_⟩
  rcases h.2 with e | ⟨hne, e⟩
  · left
    rw [e, List.length_nil] at hlen
    rw [hdrop, List.replicate_eq_nil_iff]
    omega
  · have hd' : d.opens ≠ [] := by
      intro hnil
      rw [hnil, List.length_nil] at hopens
      rcases c.opens_cases with e | ⟨o, e⟩
      · exact hne e
      · rw [e] at hopens
        simp at hopens
    rw [e, List.length_singleton] at hlen
    have hsmall : d.closes.length - 1 = 0 ∨ d.closes.length - 1 = 1 := by omega
    rcases hsmall with hz | hz
    · exact .inl (by rw [hdrop, hz]; rfl)
    · exact .inr ⟨hd', by rw [hdrop, hz]; rfl⟩

theorem written_blank {p : Int} (h : c.Rounds) : ' ' ∉ c.written p := by
  rw [written_eq, if_pos h]
  intro hm
  rcases List.mem_append.mp hm with hm | hm
  · rcases List.mem_append.mp hm with hm | hm
    · cases ho : decide (c.opens ≠ []) <;> rw [ho] at hm <;> revert hm <;> decide
    · exact ((putFixed_plain p _).2 _ hm).ne rfl rfl
  · cases hc : decide (c.closes ≠ []) <;> rw [hc] at hm <;> revert hm <;> decide

/-- Coordinates of one shape open and close alike. -/
theorem ends_of_shape {c d : Coord} (h : c.shape = d.shape) :
    (c.opens ≠ [] ↔ d.opens ≠ []) ∧ (c.closes ≠ [] ↔ d.closes ≠ []) := by
  have hopens : ∀ e : Coord, e.opens ≠ [] ↔ 0 < e.shape.1 := by
    intro e
    rcases e.opens_cases with he | ⟨o, he⟩ <;> simp [shape, he]
  have hcloses : ∀ e : Coord, e.closes ≠ [] ↔ 0 < e.shape.2 := by
    intro e
    rcases e.closes_cases with he | he
    · simp [shape, he]
    · rw [shape, he]
      simp
  exact ⟨by rw [hopens, hopens, h], by rw [hcloses, hcloses, h]⟩

/-- **Coordinates of one place and one rounded value** that are written alike. -/
theorem written_eq_iff {p : Int} {c d : Coord} (h : SamePlace p c d) :
    c.written p = d.written p ↔ Alike p c d := by
  obtain ⟨hshape, hvalue⟩ := h
  obtain ⟨hopens, hcloses⟩ := ends_of_shape hshape
  unfold Alike
  by_cases hc : c.Rounds <;> by_cases hd : d.Rounds
  · rw [written_eq, written_eq, if_pos hc, if_pos hd, decide_eq_decide.mpr hopens,
      decide_eq_decide.mpr hcloses, List.append_cancel_right_eq, List.append_cancel_left_eq,
      putFixed_eq_iff p hvalue]
    simp [hc, hd]
  · refine iff_of_false (fun heq => hd (hc.of_shape hshape ?_)) (by simp [hc, hd])
    have hblank := written_blank (p := p) c hc
    rwa [heq, written_eq, if_neg hd] at hblank
  · refine iff_of_false (fun heq => hc (hd.of_shape hshape.symm ?_)) (by simp [hc, hd])
    have hblank := written_blank (p := p) d hd
    rwa [← heq, written_eq, if_neg hc] at hblank
  · rw [written_eq, written_eq, if_neg hc, if_neg hd]
    simp [hc, hd]

end Coord

/-! ### The base id of an instance -/

/-- A state after Step 1 and any number of rounds of Step 2. -/
def Reached (prog : Program) (mode : Mode) (head : HeadLoop) (text : Str) (w : Work) : Prop :=
  ∃ fuel ifcHead is w₀ w₁ k,
    reading (addInstance prog mode) head fuel text Work.start = some (.ok (ifcHead, is, w₀)) ∧
      endStep1 w₀ = .ok w₁ ∧ rounds prog k w₁ = .ok w

/-- The instance `l` cites nothing and has the base id `b`: by its type and content, and by its
id unless an instance before it has the same id. -/
def HasBase (mode : Mode) (ls : List Str) (w : Work) (l : Str) (b : ℕ) : Prop :=
  ∃ i type content, ifcInstanceAna mode l = .ok (i, type, content, []) ∧
    w.mSet.number type content = some b ∧
      ∀ front rest, instances ls = front ++ l :: rest →
        (∀ x ∈ front, ∀ r, ifcInstanceAna mode x = .ok r → r.1 ≠ i) →
          w.mSet.idBaseID.find i = some b

section Base

variable {prog : Program} {mode : Mode} {head : HeadLoop} {text : Str} {a more : List Str}
  {w : Work}

/-- **A state that is reached** is one after some passes over the nodes. -/
theorem Reached.sim (h : Reached prog mode head text w) (hhas : HasRead head text a more) :
    ∃ k, Sim prog (nodes mode a) (1 + k) w ∧ ∀ l ∈ instances a, Whole l ∧ Parses l := by
  obtain ⟨fuel, ifcHead, is, w₀, w₁, k, hr, he, hrounds⟩ := h
  obtain ⟨a', more', hhas', hread, hwhole, hreads, -⟩ := reading_ok hr
  obtain ⟨rfl, -⟩ := hhas'.unique hhas
  exact ⟨k, hreads.sim_of_rounds he hrounds, fun l hl => ⟨hwhole l hl, hread.2 l hl⟩⟩

/-- The key of an instance without references. -/
def leafKey (mode : Mode) (l : Str) : Key Label :=
  (⟨typeOf l, (tokensOf mode l).map pieceOf⟩, [])

/-- An instance without references has a key in any table. -/
theorem node_key_leaf {l : Str} (h : (tokensOf mode l).filterMap citeOf = [])
    (rel : Int → Option ℕ) : (node mode l).key rel = some (leafKey mode l) := by
  rw [node, key_eq_some, nodeOf, h]
  exact ⟨rfl, rfl⟩

/-- What the state knows about an instance without references. -/
theorem Reached.leaf (h : Reached prog mode head text w) (hhas : HasRead head text a more) :
    ∃ k, Sim prog (nodes mode a) (1 + k) w ∧ ∀ l ∈ instances a,
      (tokensOf mode l).filterMap citeOf = [] →
        ifcInstanceAna mode l = .ok (idOf l, typeOf l, joinWith ',' (tokensOf mode l), []) ∧
        leafKey mode l ∈ (after (nodes mode a) (1 + k)).1.bases ∧
        w.mSet.number (typeOf l) (joinWith ',' (tokensOf mode l)) =
          some ((after (nodes mode a) (1 + k)).1.number (leafKey mode l)) := by
  obtain ⟨k, hsim, hok⟩ := h.sim hhas
  refine ⟨k, hsim, fun l hl hleaf => ?_⟩
  obtain ⟨hw, hp⟩ := hok l hl
  have hnorm := tokensOf_norm mode hp hw.newline
  have hargs : (node mode l).args = [] := hleaf
  have hread := ifcInstanceAna_eq mode hw.ne_nil hw.trimmed hw.newline hp
  rw [hargs] at hread
  have hmem : leafKey mode l ∈ (after (nodes mode a) (1 + k)).1.bases := by
    rcases after_key (nodes mode a) (1 + k) (node mode l) (List.mem_map_of_mem hl) with
      hwait | ⟨key, hkey, heq⟩
    · rw [Nat.add_comm, after_succ, step] at hwait
      have hnone := (mem_waiting.mp hwait).2
      rw [node_key_leaf hleaf] at hnone
      cases hnone
    · rw [node_key_leaf hleaf] at heq
      rwa [Option.some.inj heq]
  have hkey : IsKey (leafKey mode l) := isKey_nodeOf hnorm (node_key_leaf hleaf unresolved)
  have hnumber := hsim.tracks.number _ hkey
  rw [if_pos hmem, leafKey, contentOf_plain hnorm hleaf] at hnumber
  exact ⟨hread, hmem, hnumber⟩

theorem Reached.hasBase (h : Reached prog mode head text w) (hhas : HasRead head text a more)
    {l : Str} (hl : l ∈ instances a) (hleaf : (tokensOf mode l).filterMap citeOf = []) :
    ∃ b, HasBase mode a w l b := by
  obtain ⟨-, -, hok⟩ := h.sim hhas
  obtain ⟨k, hsim, hknown⟩ := h.leaf hhas
  obtain ⟨hread, -, hnumber⟩ := hknown l hl hleaf
  refine ⟨_, _, _, _, hread, hnumber, fun front rest hsplit hfront => ?_⟩
  have hids : ∀ p ∈ ready unresolved (front.map (node mode)), p.1 ≠ idOf l := by
    rintro ⟨i, key⟩ hp
    obtain ⟨n, hn, rfl, -⟩ := mem_ready.mp hp
    obtain ⟨x, hx, rfl⟩ := List.mem_map.mp hn
    obtain ⟨hw, hpx⟩ := hok x (by rw [hsplit]; exact List.mem_append_left _ hx)
    exact hfront x hx _ (ifcInstanceAna_eq mode hw.ne_nil hw.trimmed hw.newline hpx)
  have hready : ready unresolved (nodes mode a) = ready unresolved (front.map (node mode)) ++
      (idOf l, leafKey mode l) :: ready unresolved (rest.map (node mode)) := by
    have hkey := node_key_leaf hleaf unresolved
    rw [nodes, hsplit, List.map_append, List.map_cons, ready_append]
    simp only [ready, List.filterMap_cons, hkey, Option.map_some]
    rfl
  obtain ⟨m, hm, hrel, hbase⟩ := @rel_internAll_first _ _ _ _ Table.empty _
    (ready unresolved (rest.map (node mode))) _ (leafKey mode l) rfl hids
  have hgrows := grows_after (nodes mode a) (Nat.le_add_right 1 k)
  rw [after_one, hready] at hgrows
  rw [hsim.tracks.rel, hgrows.rel _ _ hrel, (after_wf _ _).number_eq hm (hgrows.base hbase)]

/-- **Instances without references** have one base id when they are written alike. -/
theorem Reached.hasBase_iff (h : Reached prog mode head text w)
    (hhas : HasRead head text a more) {l l' : Str} (hl : l ∈ instances a) (hl' : l' ∈ instances a)
    (hleaf : (tokensOf mode l).filterMap citeOf = [])
    (hleaf' : (tokensOf mode l').filterMap citeOf = []) (htype : typeOf l = typeOf l') :
    (∃ b, HasBase mode a w l b ∧ HasBase mode a w l' b) ↔
      joinWith ',' (tokensOf mode l) = joinWith ',' (tokensOf mode l') := by
  obtain ⟨k, -, hknown⟩ := h.leaf hhas
  obtain ⟨hread, hmem, hnumber⟩ := hknown l hl hleaf
  obtain ⟨hread', hmem', hnumber'⟩ := hknown l' hl' hleaf'
  obtain ⟨-, -, hok⟩ := h.sim hhas
  have hbase : ∀ {x b}, HasBase mode a w x b →
      ifcInstanceAna mode x = .ok (idOf x, typeOf x, joinWith ',' (tokensOf mode x), []) →
        w.mSet.number (typeOf x) (joinWith ',' (tokensOf mode x)) = some b := by
    rintro x b ⟨i, type, content, hr, hb, -⟩ hread
    rw [hread, Except.ok.injEq, Prod.mk.injEq, Prod.mk.injEq, Prod.mk.injEq] at hr
    obtain ⟨-, rfl, rfl, -⟩ := hr
    exact hb
  constructor
  · rintro ⟨b, hb, hb'⟩
    have hsame := (hbase hb hread).trans (hbase hb' hread').symm
    rw [hnumber, hnumber', Option.some.injEq, Table.number, Table.number, Nat.add_right_cancel_iff,
      List.idxOf_inj hmem] at hsame
    rw [← contentOf_plain (tokensOf_norm mode (hok l hl).2 (hok l hl).1.newline) hleaf (typeOf l),
      ← contentOf_plain (tokensOf_norm mode (hok l' hl').2 (hok l' hl').1.newline) hleaf'
        (typeOf l')]
    exact congrArg contentOf hsame
  · intro hcontent
    obtain ⟨b, hb⟩ := h.hasBase hhas hl hleaf
    obtain ⟨b', hb'⟩ := h.hasBase hhas hl' hleaf'
    have hsame := hbase hb hread
    rw [htype, hcontent, hbase hb' hread', Option.some.injEq] at hsame
    exact ⟨b, hb, hsame ▸ hb'⟩

/-- A section that is read reaches a state. -/
theorem HasRead.reached (h : HasRead head text a more) (hread : Readable a) :
    ∃ w, Reached prog mode head text w := by
  obtain ⟨fuel, is, w₀, hr, hreads, -⟩ := h.reading hread
  obtain ⟨w₁, he, -⟩ := hreads.endStep1
  exact ⟨w₁, fuel, _, is, w₀, w₁, 0, hr, he, rfl⟩

end Base

/-! ### Two points -/

/-- The instance is a cartesian point with these coordinates. -/
def IsPoint (l : Str) (cs : List Coord) : Prop :=
  ∃ name b b' args rest, '=' ∉ name ∧ Blank ' ' b ∧ Blank ' ' b' ∧ ')' ∉ rest ∧
    tokens args = cs.map Coord.text ∧
    l = name ++ '=' :: (b ++ "IFCCARTESIANPOINT".toList ++ b' ++ '(' :: (args ++ ')' :: rest))

section Point

variable {l : Str} {cs : List Coord} {p : Int}

/-- The type and the tokens of a cartesian point. -/
theorem IsPoint.parts (h : IsPoint l cs) : typeOf l = "IFCCARTESIANPOINT".toList ∧
    tokens (argsText l) = cs.map Coord.text := by
  obtain ⟨name, b, b', args, rest, hname, hb, hb', hrest, htokens, rfl⟩ := h
  have hplain : '(' ∉ b ++ "IFCCARTESIANPOINT".toList ++ b' := by
    intro hm
    rcases List.mem_append.mp hm with hm | hm
    · rcases List.mem_append.mp hm with hm | hm
      · cases hb _ hm
      · revert hm
        decide
    · cases hb' _ hm
  constructor
  · rw [typeOf, typeText, after_append hname, before_append hplain]
    exact @strip_core ' ' 'I' 'T' b "FCCARTESIANPOINT".toList b' hb hb' (by decide) (by decide)
      (by decide)
  · rw [argsText, after_append hname, after_append hplain, beforeLast_append hrest, htokens]

/-- Its tokens are the rounded coordinates. -/
theorem IsPoint.tokensOf (h : IsPoint l cs) (p : Int) :
    Compression.tokensOf ⟨true, p, unrounded⟩ l = cs.map (Coord.written p) := by
  obtain ⟨htype, htokens⟩ := h.parts
  rw [Compression.tokensOf, htokens, htype, List.map_map]
  rfl

theorem IsPoint.leaf (h : IsPoint l cs) (hp : Parses l) (hl : '\n' ∉ l) :
    (Compression.tokensOf ⟨true, p, unrounded⟩ l).filterMap citeOf = [] := by
  rw [← cites_tokensOf ⟨true, p, unrounded⟩ hp hl, h.parts.2, List.filterMap_map,
    List.filterMap_eq_nil_iff]
  exact fun c _ => c.citeOf_text

end Point

/-- **Main result.**  In lossy mode two points of one place are merged exactly when their
coordinates are written alike. -/
theorem points_merged_iff (prog : Program) (p : Int) {head : HeadLoop} {text : Str}
    {ls more : List Str} {w : Work} (hhas : HasRead head text ls more)
    (h : Reached prog ⟨true, p, unrounded⟩ head text w) {l l' : Str} (hl : l ∈ instances ls)
    (hl' : l' ∈ instances ls) {cs ds : List Coord} (hpoint : IsPoint l cs)
    (hpoint' : IsPoint l' ds) (hplace : List.Forall₂ (Coord.SamePlace p) cs ds) :
    (∃ b, HasBase ⟨true, p, unrounded⟩ ls w l b ∧ HasBase ⟨true, p, unrounded⟩ ls w l' b) ↔
      List.Forall₂ (Coord.Alike p) cs ds := by
  obtain ⟨-, -, hok⟩ := h.sim hhas
  obtain ⟨hw, hp⟩ := hok l hl
  obtain ⟨hw', hp'⟩ := hok l' hl'
  rw [h.hasBase_iff hhas hl hl' (hpoint.leaf hp hw.newline) (hpoint'.leaf hp' hw'.newline)
    (hpoint.parts.1.trans hpoint'.parts.1.symm)]
  have hinj : joinWith ',' (tokensOf ⟨true, p, unrounded⟩ l) =
      joinWith ',' (tokensOf ⟨true, p, unrounded⟩ l') ↔
      tokensOf ⟨true, p, unrounded⟩ l = tokensOf ⟨true, p, unrounded⟩ l' := by
    refine ⟨fun heq => ?_, congrArg _⟩
    rw [← getlines_norm (tokensOf_norm ⟨true, p, unrounded⟩ hp hw.newline), heq,
      getlines_norm (tokensOf_norm ⟨true, p, unrounded⟩ hp' hw'.newline)]
  rw [hinj, hpoint.tokensOf, hpoint'.tokensOf]
  clear hpoint hpoint'
  induction hplace with
  | nil => simp
  | cons hcd _ ih =>
      rw [List.map_cons, List.map_cons, List.cons.injEq, List.forall₂_cons]
      exact and_congr (Coord.written_eq_iff hcd) ih

/-! ### Two texts -/

/-- `digits.digits`, after a sign. -/
def plainDecimal (sign : Sign) (whole places : Str)
    (hd : ∀ c ∈ whole ++ places, c.isDigit = true) (hne : whole ++ places ≠ []) : Decimal :=
  ⟨sign, whole, some places, none, hd, hne⟩

/-- The coordinates `(x` and `y)` of a list of two. -/
def pair (x y : Decimal) : List Coord :=
  [⟨['('], x, [], by decide, by decide, by decide, by decide⟩,
    ⟨[], y, [')'], by decide, by decide, by decide, by decide⟩]

instance (p : Int) (c d : Coord) : Decidable (Coord.SamePlace p c d) := by
  unfold Coord.SamePlace; infer_instance

instance (p : Int) (c d : Coord) : Decidable (Coord.Alike p c d) := by
  unfold Coord.Alike; infer_instance

/-- A point. -/
def nearPoint : Str := "#1=IFCCARTESIANPOINT((1.004,-2.));".toList

/-- The same point to two places. -/
def nearPoint' : Str := "#2=IFCCARTESIANPOINT((1.,-2.000));".toList

/-- A section with both. -/
def nearPoints : Str := "DATA;\n".toList ++ nearPoint ++ '\n' :: nearPoint' ++ "\nENDSEC;\n".toList

theorem points_merged_near : ∃ w b,
    Reached .compressor ⟨true, 2, unrounded⟩ .whileGetline nearPoints w ∧
    HasBase ⟨true, 2, unrounded⟩ [nearPoint, nearPoint'] w nearPoint b ∧
      HasBase ⟨true, 2, unrounded⟩ [nearPoint, nearPoint'] w nearPoint' b := by
  have hhas : HasRead .whileGetline nearPoints [nearPoint, nearPoint'] [] :=
    ⟨by decide, .inl (by decide +kernel)⟩
  have hins : instances [nearPoint, nearPoint'] = [nearPoint, nearPoint'] := by decide +kernel
  obtain ⟨w, hw⟩ : ∃ w, Reached .compressor ⟨true, 2, unrounded⟩ .whileGetline nearPoints w :=
    hhas.reached (by decide +kernel)
  have hpoint : IsPoint nearPoint (pair (plainDecimal .none "1".toList "004".toList (by decide)
      (by decide)) (plainDecimal .minus "2".toList [] (by decide) (by decide))) :=
    ⟨"#1".toList, [], [], "(1.004,-2.)".toList, [';'], by decide +kernel⟩
  have hpoint' : IsPoint nearPoint' (pair (plainDecimal .none "1".toList [] (by decide)
      (by decide)) (plainDecimal .minus "2".toList "000".toList (by decide) (by decide))) :=
    ⟨"#2".toList, [], [], "(1.,-2.000)".toList, [';'], by decide +kernel⟩
  obtain ⟨b, hb, hb'⟩ := (points_merged_iff .compressor 2 hhas hw (by rw [hins]; simp)
    (by rw [hins]; simp) hpoint hpoint' (.cons (by decide +kernel) (.cons (by decide +kernel)
      .nil))).mpr (.cons (by decide +kernel) (.cons (by decide +kernel) .nil))
  exact ⟨w, b, hw, hb, hb'⟩

/-- A coordinate that is rounded to a negative zero. -/
def zeroPoint : Str := "#1=IFCCARTESIANPOINT((-0.001,1.));".toList

/-- One that is rounded to zero. -/
def zeroPoint' : Str := "#2=IFCCARTESIANPOINT((0.001,1.));".toList

/-- A section with both. -/
def zeroPoints : Str := "DATA;\n".toList ++ zeroPoint ++ '\n' :: zeroPoint' ++ "\nENDSEC;\n".toList

/-- A zero with a minus and one without are two points. -/
theorem points_not_always_merged : HasRead .whileGetline zeroPoints [zeroPoint, zeroPoint'] [] ∧
    instances [zeroPoint, zeroPoint'] = [zeroPoint, zeroPoint'] ∧
    ∃ cs ds, IsPoint zeroPoint cs ∧ IsPoint zeroPoint' ds ∧
      List.Forall₂ (Coord.SamePlace 2) cs ds ∧
      (∃ w, Reached .compressor ⟨true, 2, unrounded⟩ .whileGetline zeroPoints w) ∧
      ∀ w, Reached .compressor ⟨true, 2, unrounded⟩ .whileGetline zeroPoints w →
        ¬ ∃ b, HasBase ⟨true, 2, unrounded⟩ [zeroPoint, zeroPoint'] w zeroPoint b ∧
          HasBase ⟨true, 2, unrounded⟩ [zeroPoint, zeroPoint'] w zeroPoint' b := by
  have hhas : HasRead .whileGetline zeroPoints [zeroPoint, zeroPoint'] [] :=
    ⟨by decide, .inl (by decide +kernel)⟩
  have hins : instances [zeroPoint, zeroPoint'] = [zeroPoint, zeroPoint'] := by decide +kernel
  refine ⟨hhas, hins, pair (plainDecimal .minus "0".toList "001".toList (by decide) (by decide))
      (plainDecimal .none "1".toList [] (by decide) (by decide)),
    pair (plainDecimal .none "0".toList "001".toList (by decide) (by decide))
      (plainDecimal .none "1".toList [] (by decide) (by decide)),
    ⟨"#1".toList, [], [], "(-0.001,1.)".toList, [';'], by decide +kernel⟩,
    ⟨"#2".toList, [], [], "(0.001,1.)".toList, [';'], by decide +kernel⟩,
    .cons (by decide +kernel) (.cons (by decide +kernel) .nil),
    hhas.reached (by decide +kernel), fun w hw => ?_⟩
  rw [hw.hasBase_iff hhas (by rw [hins]; simp) (by rw [hins]; simp) (by decide +kernel)
    (by decide +kernel) (by decide +kernel)]
  decide +kernel

end VulcanDB.Compression
