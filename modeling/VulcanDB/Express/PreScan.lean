import VulcanDB.Express.Parser
import VulcanDB.Library.Block
import VulcanDB.Library.Numbers
import VulcanDB.Library.Spans

/-!
# EXPRESS — The tokens of the first pass

`ExpressParser::Token` is two positions in the text.  `next` moves them with a `size_t`, `has_next`
looks ahead with an `int`.

* `hasNext_eq`, `next_eq`: what they do in a text of fewer than `2 ^ 31` characters.
* `scan_eq`: the tokens are the longest parts without separators, in their order.
* `preprocessLoop_eq`: the loop of `preprocess` is the first pass on what follows the token.
* `preScans_iff`: the texts that are cut so.
-/

namespace VulcanDB.Express.PreScan

open Cxx Spans Steps

/-! ### The code -/

/-- A token of a text that is given besides. -/
structure Token where
  start : ℕ
  endPos : ℕ
  deriving DecidableEq

/-- The loop of `has_next` at `i`, with the text from there. -/
def hasNextLoop : ℕ → Str → Except Fault Bool
  | _, [] => .ok false
  | i, c :: rest =>
    if c = terminator then .ok false
    else if isSeparator c = false then .ok true
    else if i < INT_MAX then hasNextLoop (i + 1) rest
    else .error .overflow

namespace Token

variable (content : Str) (t : Token)

/-- `Token::has_next`. -/
def hasNext : Except Fault Bool :=
  -- `int i = end`
  let i := asInt t.endPos
  if i < 0 ∨ content.length < i then .error .badIndex
  else hasNextLoop i.toNat (content.drop i.toNat)

/-- A character of a token. -/
def isLetter (c : Char) : Bool := !isSeparator c && c != terminator

/-- `Token::next`. -/
def next : Except Fault Token :=
  if content.length < t.endPos then .error .badIndex
  else
    let start := t.endPos + ((content.drop t.endPos).takeWhile isSeparator).length
    .ok ⟨start, start + ((content.drop start).takeWhile isLetter).length⟩

/-- `Token::is_valid`. -/
def isValid : Except Fault Bool := (charAt content t.start).map (· != terminator)

/-- `Token::get_length`. -/
def getLength : ℕ := t.endPos - t.start

/-- `Token::to_string`. -/
def toString : Str := (content.drop t.start).take t.getLength

/-- The loop of `operator==`. -/
def agree : Str → Str → Bool
  | c :: s, d :: other =>
    if d = terminator ∨ c = terminator then true else if c ≠ d then false else agree s other
  | _, _ => true

/-- `operator==`. -/
def eq (other : Str) : Bool :=
  if other.length ≠ t.getLength then false else agree (content.drop t.start) other

end Token

/-- Why the first pass does not go on. -/
inductive Halt where
  /-- What the language leaves undefined. -/
  | fault (f : Fault)
  | stop (s : Stop)
  /-- The loop goes on after the steps for which it is followed. -/
  | running

/-- A fault of a string. -/
def fault {α : Type} (x : Except Fault α) : Except Halt α := x.mapError .fault

/-- A stop of the parser. -/
def stop {α : Type} (x : Except Stop α) : Except Halt α := x.mapError .stop

/-- `next` as long as `has_next` is true. -/
def scan (content : Str) : ℕ → Token → Except Halt (List Token)
  | 0, _ => .error .running
  | fuel + 1, t => do
    if ← fault (t.hasNext content) then
      let t ← fault (t.next content)
      return t :: (← scan content fuel t)
    else return []

/-- The word that announces a name. -/
def Token.announces (content : Str) (t : Token) : Option Kind :=
  if t.eq content "TYPE".toList then some .type
  else if t.eq content "ENTITY".toList then some .entity
  else none

/-- The loop of `ExpressParser::preprocess`. -/
def preprocessLoop (content : Str) : ℕ → Context → Token → Except Halt Context
  | 0, _, _ => .error .running
  | fuel + 1, c, t => do
    if ← fault (t.hasNext content) then
      let t ← fault (t.next content)
      require ((← fault (t.isValid content)) = true) (.stop .assertion)
      match t.announces content with
      | some k =>
        let t ← fault (t.next content)
        require ((← fault (t.isValid content)) = true) (.stop .exit)
        preprocessLoop content fuel (← stop (c.register (k, t.toString content))) t
      | none => preprocessLoop content fuel c t
    else return c

/-- `Token token(exp_file, 0)`. -/
def first : Token := ⟨0, 0⟩

/-! ### The tokens of a text -/

/-- The tokens are the longest parts without separators, in their order. -/
structure Tokens (s : Str) (ts : List Token) : Prop where
  runs : ∀ i j, IsRun isSeparator s i j ↔ ⟨i, j⟩ ∈ ts
  order : ts.Pairwise fun t t' => t.endPos < t'.start

/-- After `has_next` is true, `next` gives a valid token that is not empty. -/
def NextsValid (s : Str) : Prop := ∀ t : Token, t.endPos ≤ s.length → t.hasNext s = .ok true →
  ∃ t', t.next s = .ok t' ∧ t'.start < t'.endPos ∧ t'.isValid s = .ok true

/-- The loop of `preprocess` comes to its end, or to an `exit` or an assertion. -/
def Ends (s : Str) (c : Context) : Prop := ∃ fuel r, preprocessLoop s fuel c first = stop r

/-- The text is cut into its tokens, and the first pass ends. -/
structure PreScans (s : Str) : Prop where
  tokens : ∃ fuel ts, scan s fuel first = .ok ts ∧ Tokens s ts
  valid : NextsValid s
  ends : ∀ c, Ends s c

/-! ### Looking ahead -/

section Scan

variable {s : Str} {t t' : Token}

/-- The loop of `has_next`, as far as an `int` goes. -/
theorem hasNextLoop_eq {i : ℕ} (hs : terminator ∉ s) (hlen : i + s.length ≤ INT_MAX) :
    hasNextLoop i s = .ok (hasNext s) := by
  induction s generalizing i with
  | nil => rfl
  | cons c s ih =>
      obtain ⟨hc, hs⟩ := List.ne_and_not_mem_of_not_mem_cons hs
      rw [List.length_cons] at hlen
      rw [hasNextLoop, if_neg (Ne.symm hc)]
      cases hsep : isSeparator c with
      | false => simp [hasNext, hsep]
      | true =>
          have hnext : hasNext (c :: s) = hasNext s := by simp [hasNext, hsep]
          rw [if_neg (by decide), if_pos (by omega), ih hs (by omega), hnext]

/-- A search that finds no token has read to the end, at a position that is an `int`. -/
theorem length_of_hasNextLoop {i : ℕ} (hs : terminator ∉ s) (hi : i ≤ INT_MAX)
    (h : hasNextLoop i s = .ok false) : i + s.length ≤ INT_MAX := by
  induction s generalizing i with
  | nil => exact hi
  | cons c s ih =>
      obtain ⟨hc, hs⟩ := List.ne_and_not_mem_of_not_mem_cons hs
      rw [hasNextLoop, if_neg (Ne.symm hc)] at h
      split at h
      · cases h
      · split at h
        · rename_i hlt
          have hlen := ih hs hlt h
          rw [List.length_cons]
          omega
        · cases h

/-- **`has_next`** in a short text. -/
theorem hasNext_eq (hs : terminator ∉ s) (hlen : s.length ≤ INT_MAX) (ht : t.endPos ≤ s.length) :
    t.hasNext s = .ok (hasNext (s.drop t.endPos)) := by
  have hint : asInt t.endPos = t.endPos := by
    refine asInt_short (by omega) ?_
    have hmax : t.endPos ≤ INT_MAX := ht.trans hlen
    rw [INT_MAX] at hmax
    omega
  have hdrop : terminator ∉ s.drop t.endPos := mt List.mem_of_mem_drop hs
  rw [Token.hasNext, hint, if_neg (by omega), Int.toNat_natCast]
  exact hasNextLoop_eq hdrop (by rw [List.length_drop]; omega)

/-- `has_next` is false for short texts only. -/
theorem length_of_hasNext (hs : terminator ∉ s) (h : t.hasNext s = .ok false) :
    s.length ≤ INT_MAX := by
  rw [Token.hasNext] at h
  split at h
  · cases h
  · rename_i hi
    obtain ⟨k, -, hshort⟩ := asInt_wraps t.endPos
    have hdrop : terminator ∉ s.drop (asInt t.endPos).toNat := mt List.mem_of_mem_drop hs
    have hlen := length_of_hasNextLoop hdrop (by rw [INT_MAX]; omega) h
    rw [List.length_drop] at hlen
    omega

/-! ### The next token -/

/-- The token that `next` gives behind a position. -/
def cut (s : Str) (i : ℕ) : Token where
  start := past isSeparator s i
  endPos := past (fun c => !isSeparator c) s (past isSeparator s i)

theorem takeWhile_isLetter (hs : terminator ∉ s) :
    s.takeWhile Token.isLetter = s.takeWhile fun c => !isSeparator c := by
  induction s with
  | nil => rfl
  | cons c s ih =>
      obtain ⟨hc, hs⟩ := List.ne_and_not_mem_of_not_mem_cons hs
      have hletter : Token.isLetter c = !isSeparator c := by simp [Token.isLetter, Ne.symm hc]
      rw [List.takeWhile_cons, List.takeWhile_cons, hletter, ih hs]

/-- **`next`** cuts the next word. -/
theorem next_eq (hs : terminator ∉ s) (ht : t.endPos ≤ s.length) :
    t.next s = .ok (cut s t.endPos) := by
  have hdrop : terminator ∉ s.drop (past isSeparator s t.endPos) := mt List.mem_of_mem_drop hs
  have hword := takeWhile_isLetter hdrop
  simp only [Token.next, if_neg (not_lt.mpr ht), cut, past] at hword ⊢
  rw [hword]

theorem cut_endPos_le {i : ℕ} (hi : i ≤ s.length) : (cut s i).endPos ≤ s.length :=
  past_le (past_le hi)

/-- There is a word exactly when it begins in the text. -/
theorem hasNext_drop (s : Str) (i : ℕ) :
    hasNext (s.drop i) = true ↔ (cut s i).start < s.length := by
  have hdrop : s.drop (cut s i).start = (s.drop i).dropWhile isSeparator := drop_past ..
  rw [← not_le, ← List.drop_eq_nil_iff, hdrop]
  rcases dropWhile_isSeparator (s.drop i) with ⟨hn, hd⟩ | ⟨hn, c, t, hd, -⟩
  · simp [hn, hd]
  · simp [hn, hd]

theorem start_lt_cut {i : ℕ} (hn : hasNext (s.drop i) = true) :
    (cut s i).start < (cut s i).endPos := by
  have hget := List.getElem?_eq_getElem ((hasNext_drop s i).mp hn)
  have hletter := at_past hget
  exact lt_past hget (by simp [hletter])

theorem isValid_cut (hs : terminator ∉ s) {i : ℕ} (hi : i ≤ s.length) :
    (cut s i).isValid s = .ok (hasNext (s.drop i)) := by
  by_cases hlt : (cut s i).start < s.length
  · have hget := List.getElem?_eq_getElem hlt
    have hchar : s[(cut s i).start] ≠ terminator := ne_of_mem_of_not_mem (List.getElem_mem hlt) hs
    rw [(hasNext_drop s i).mpr hlt, Token.isValid, charAt_of_getElem? hget]
    simp [Except.map, hchar]
  · have hend : (cut s i).start = s.length := le_antisymm (past_le hi) (not_lt.mp hlt)
    have hnone : hasNext (s.drop i) = false := by
      simpa using mt (hasNext_drop s i).mp hlt
    rw [hnone, Token.isValid, hend, charAt_length]
    rfl

theorem toString_cut (s : Str) (i : ℕ) : (cut s i).toString s = (nextToken (s.drop i)).1 := by
  have hdrop : s.drop (cut s i).start = (s.drop i).dropWhile isSeparator := drop_past ..
  have hlen : (cut s i).getLength =
      ((s.drop (cut s i).start).takeWhile fun c => !isSeparator c).length :=
    Nat.add_sub_cancel_left ..
  rw [Token.toString, hlen, hdrop]
  exact (List.prefix_iff_eq_take.mp (List.takeWhile_prefix _)).symm

/-- What follows it is what follows the word. -/
theorem drop_cut (s : Str) (i : ℕ) : s.drop (cut s i).endPos = (nextToken (s.drop i)).2 := by
  rw [cut, drop_past, drop_past]
  rfl

/-! ### Words that announce a name -/

/-- Two texts of which the second is not longer agree if the first begins with the second. -/
theorem agree_iff {u v : Str} (hu : terminator ∉ u) (hv : terminator ∉ v)
    (hlen : v.length ≤ u.length) : Token.agree u v = true ↔ u.take v.length = v := by
  induction u generalizing v with
  | nil =>
      have hnil : v = [] := List.length_eq_zero_iff.mp (Nat.le_zero.mp hlen)
      simp [hnil, Token.agree]
  | cons c u ih =>
      cases v with
      | nil => simp [Token.agree]
      | cons d v =>
          obtain ⟨hc, hu⟩ := List.ne_and_not_mem_of_not_mem_cons hu
          obtain ⟨hd, hv⟩ := List.ne_and_not_mem_of_not_mem_cons hv
          rw [List.length_cons, List.length_cons] at hlen
          rw [Token.agree, if_neg (by simp [Ne.symm hc, Ne.symm hd]), List.length_cons,
            List.take_succ_cons, List.cons.injEq]
          by_cases hcd : c = d
          · rw [if_neg (not_not.mpr hcd), ih hu hv (Nat.le_of_succ_le_succ hlen)]
            simp [hcd]
          · rw [if_pos hcd]
            simp [hcd]

/-- `operator==` is right for a token that does not reach beyond the text. -/
theorem eq_iff {other : Str} (hs : terminator ∉ s) (hother : terminator ∉ other)
    (ht : t.start + t.getLength ≤ s.length) : t.eq s other = true ↔ t.toString s = other := by
  have hlen : (t.toString s).length = t.getLength := by
    rw [Token.toString, List.length_take, List.length_drop]
    omega
  by_cases heq : other.length = t.getLength
  · have hdrop : terminator ∉ s.drop t.start := mt List.mem_of_mem_drop hs
    rw [Token.eq, if_neg (not_not.mpr heq), Token.toString, ← heq]
    exact agree_iff hdrop hother (by rw [List.length_drop]; omega)
  · rw [Token.eq, if_pos heq]
    refine iff_of_false (by simp) fun htext => heq ?_
    rw [← hlen, htext]

theorem announces_cut (hs : terminator ∉ s) {i : ℕ} (hi : i ≤ s.length) :
    (cut s i).announces s = announces (nextToken (s.drop i)).1 := by
  have hle : (cut s i).start + (cut s i).getLength ≤ s.length := by
    have hend : (cut s i).start ≤ (cut s i).endPos := le_past
    rw [Token.getLength, Nat.add_sub_cancel' hend]
    exact cut_endPos_le hi
  have heq : ∀ other, terminator ∉ other →
      ((cut s i).eq s other = true ↔ (nextToken (s.drop i)).1 = other) := by
    intro other hother
    rw [eq_iff hs hother hle, toString_cut]
  simp only [Token.announces, announces, heq _ (show terminator ∉ "TYPE".toList by decide),
    heq _ (show terminator ∉ "ENTITY".toList by decide)]

/-! ### The loops -/

@[simp] theorem fault_ok {α : Type} (a : α) : fault (.ok a) = .ok a := rfl

/-- Steps of the parser, one after another. -/
theorem stop_bind {α β : Type} (x : Except Stop α) (f : α → Except Stop β) :
    stop (x >>= f) = stop x >>= fun a => stop (f a) := by
  cases x <;> rfl

theorem fault_eq_ok {α : Type} {x : Except Fault α} {a : α} : fault x = .ok a ↔ x = .ok a := by
  cases x with
  | error e => simp [fault, Except.mapError]
  | ok b => simp

/-- One turn of the loop. -/
theorem preprocessLoop_succ {c : Context} (fuel : ℕ) (hs : terminator ∉ s)
    (hlen : s.length ≤ INT_MAX) (ht : t.endPos ≤ s.length) :
    preprocessLoop s (fuel + 1) c t =
      if hasNext (s.drop t.endPos) then
        match announces (nextToken (s.drop t.endPos)).1 with
        | some k => do
          let name := cut s (cut s t.endPos).endPos
          require (hasNext (s.drop (cut s t.endPos).endPos) = true) (.stop .exit)
          preprocessLoop s fuel (← stop (c.register (k, name.toString s))) name
        | none => preprocessLoop s fuel c (cut s t.endPos)
      else .ok c := by
  rw [preprocessLoop, hasNext_eq hs hlen ht, fault_ok]
  cases hn : hasNext (s.drop t.endPos) with
  | false => rfl
  | true =>
      have hle := cut_endPos_le ht
      have hvalid := isValid_cut hs ht
      rw [hn] at hvalid
      simp only [next_eq hs ht, hvalid, fault_ok, bind, Except.bind, require, ↓reduceIte,
        announces_cut hs ht]
      cases announces (nextToken (s.drop t.endPos)).1 with
      | none => rfl
      | some k => simp only [next_eq hs hle, isValid_cut hs hle, fault_ok]

/-- **The loop of `preprocess`** is the first pass on what follows the token. -/
theorem preprocessLoop_eq {fuel : ℕ} {c : Context} (hs : terminator ∉ s) (hlen : s.length ≤ INT_MAX)
    (ht : t.endPos ≤ s.length) (hfuel : s.length - t.endPos < fuel) :
    preprocessLoop s fuel c t = stop (preprocess c (s.drop t.endPos)) := by
  induction fuel generalizing c t with
  | zero => cases hfuel
  | succ fuel ih =>
      rw [preprocessLoop_succ fuel hs hlen ht, preprocess]
      by_cases hn : hasNext (s.drop t.endPos) = true
      · have hle := cut_endPos_le ht
        -- each token moves the position, by less than an `int` counts
        have hlt : t.endPos < (cut s t.endPos).endPos := le_past.trans_lt (start_lt_cut hn)
        rw [if_pos hn, dif_pos hn]
        cases announces (nextToken (s.drop t.endPos)).1 with
        | none =>
            have hrest := ih (c := c) hle (by omega)
            rw [drop_cut] at hrest
            exact hrest
        | some k =>
            have hname : (nextToken (nextToken (s.drop t.endPos)).2).1 ≠ [] ↔
                hasNext (nextToken (s.drop t.endPos)).2 = true := by
              rw [ne_eq, nextToken_eq_nil, Bool.not_eq_false]
            have hend : (cut s t.endPos).endPos ≤ (cut s (cut s t.endPos).endPos).endPos :=
              le_past.trans le_past
            have hrest : ∀ c, preprocessLoop s fuel c (cut s (cut s t.endPos).endPos) =
                stop (preprocess c (nextToken (nextToken (s.drop t.endPos)).2).2) := by
              intro c
              rw [ih (cut_endPos_le hle) (by omega), drop_cut, drop_cut]
            simp only [stop_bind, toString_cut, drop_cut, hrest, require, hname]
            by_cases hn' : hasNext (nextToken (s.drop t.endPos)).2 = true
            · rw [if_pos hn', if_pos hn']
              rfl
            · rw [if_neg hn', if_neg hn']
              rfl
      · rw [if_neg hn, dif_neg hn]
        rfl

/-- The tokens are the runs from `i` on, in their order. -/
structure TokensFrom (s : Str) (i : ℕ) (ts : List Token) : Prop where
  runs : ∀ j k, (i ≤ j ∧ IsRun isSeparator s j k) ↔ ⟨j, k⟩ ∈ ts
  order : ts.Pairwise fun t t' => t.endPos < t'.start

theorem TokensFrom.nil {i : ℕ} (hn : hasNext (s.drop i) = false) : TokensFrom s i [] := by
  refine ⟨fun j k => iff_of_false (fun ⟨hij, hrun⟩ => ?_) List.not_mem_nil, .nil⟩
  have hstart : s.length ≤ (cut s i).start := by
    refine not_lt.mp fun hlt => ?_
    rw [(hasNext_drop s i).mpr hlt] at hn
    cases hn
  have hend : (cut s i).start ≤ (cut s i).endPos := le_past
  have hj : j < s.length := hrun.lt.trans_le hrun.le
  rcases hrun.next hij with ⟨heq, -⟩ | hlt
  · exact absurd hj (not_lt.mpr (heq ▸ hstart))
  · exact absurd hj (not_lt.mpr (hstart.trans (hend.trans hlt.le)))

theorem TokensFrom.cons {i : ℕ} {ts : List Token} (h : TokensFrom s (cut s i).endPos ts)
    (hi : Between isSeparator s i) (hn : hasNext (s.drop i) = true) :
    TokensFrom s i (cut s i :: ts) := by
  have hlt := start_lt_cut hn
  refine ⟨fun j k => ⟨fun ⟨hij, hrun⟩ => ?_, fun hmem => ?_⟩, List.pairwise_cons.mpr ⟨?_, h.order⟩⟩
  · rcases hrun.next hij with ⟨rfl, rfl⟩ | hend
    · exact List.mem_cons_self
    · exact List.mem_cons_of_mem _ ((h.runs j k).mp ⟨hend.le, hrun⟩)
  · rcases List.mem_cons.mp hmem with heq | hmem
    · obtain ⟨rfl, rfl⟩ := Token.mk.inj heq
      exact ⟨le_past, isRun_past hi ((hasNext_drop s i).mp hn)⟩
    · obtain ⟨hend, hrun⟩ := (h.runs j k).mpr hmem
      exact ⟨le_past.trans (hlt.le.trans hend), hrun⟩
  · intro t' hmem
    obtain ⟨hend, hrun⟩ := (h.runs _ _).mpr hmem
    rcases hrun.next (le_past.trans (hlt.le.trans hend)) with ⟨heq, -⟩ | hafter
    · rw [heq] at hend
      exact absurd hend (not_le.mpr hlt)
    · exact hafter

/-- **The scan from a token** cuts the rest of the text. -/
theorem scan_eq {fuel : ℕ} (hs : terminator ∉ s) (hlen : s.length ≤ INT_MAX)
    (ht : t.endPos ≤ s.length) (hbetween : Between isSeparator s t.endPos)
    (hfuel : s.length - t.endPos < fuel) :
    ∃ ts, scan s fuel t = .ok ts ∧ TokensFrom s t.endPos ts := by
  induction fuel generalizing t with
  | zero => cases hfuel
  | succ fuel ih =>
      rw [scan, hasNext_eq hs hlen ht, fault_ok]
      cases hn : hasNext (s.drop t.endPos) with
      | false => exact ⟨[], rfl, .nil hn⟩
      | true =>
          have hlt : t.endPos < (cut s t.endPos).endPos := le_past.trans_lt (start_lt_cut hn)
          have hle := cut_endPos_le ht
          obtain ⟨ts, hts, hfrom⟩ := ih hle (between_past ..) (by omega)
          refine ⟨cut s t.endPos :: ts, ?_, hfrom.cons hbetween hn⟩
          rw [next_eq hs ht, fault_ok]
          simp only [bind, Except.bind, ↓reduceIte, hts]
          rfl

/-- A scan that ends has found no token behind the last. -/
theorem length_of_scan {fuel : ℕ} {ts : List Token} (hs : terminator ∉ s)
    (h : scan s fuel t = .ok ts) : s.length ≤ INT_MAX := by
  induction fuel generalizing t ts with
  | zero => cases h
  | succ fuel ih =>
      rw [scan, bind_eq_ok] at h
      obtain ⟨more, hmore, h⟩ := h
      cases more with
      | false => exact length_of_hasNext hs (fault_eq_ok.mp hmore)
      | true =>
          rw [if_pos rfl, bind_eq_ok] at h
          obtain ⟨t', -, h⟩ := h
          obtain ⟨rest, hrest, -⟩ := bind_eq_ok.mp h
          exact ih hrest

end Scan

/-- **The texts that are cut into their tokens** are those whose positions are `int`s. -/
theorem preScans_iff {s : Str} (hs : terminator ∉ s) : PreScans s ↔ s.length < 2 ^ 31 := by
  have hmax : s.length ≤ INT_MAX ↔ s.length < 2 ^ 31 := by
    rw [INT_MAX]
    omega
  rw [← hmax]
  refine ⟨fun ⟨⟨fuel, ts, hscan, _⟩, _, _⟩ => length_of_scan hs hscan, fun hlen => ⟨?_, ?_, ?_⟩⟩
  · obtain ⟨ts, hscan, hfrom⟩ := scan_eq (t := first) hs hlen (Nat.zero_le _) (.inl rfl)
      (Nat.lt_succ_self _)
    refine ⟨_, ts, hscan, fun i j => ?_, hfrom.order⟩
    rw [← hfrom.runs]
    exact (and_iff_right (Nat.zero_le i)).symm
  · intro t ht hn
    rw [hasNext_eq hs hlen ht] at hn
    have hnext := Except.ok.inj hn
    refine ⟨_, next_eq hs ht, start_lt_cut hnext, ?_⟩
    rw [isValid_cut hs ht, hnext]
  · intro c
    exact ⟨_, _, preprocessLoop_eq hs hlen (Nat.zero_le _) (Nat.lt_succ_self _)⟩

/-- Two declarations between tabs, semicolons and a newline. -/
theorem preScans_declarations : PreScans "TYPE a;\tENTITY b;;\n".toList :=
  (preScans_iff (by decide)).mpr (by decide)

/-- In a text of `2 ^ 31` letters `has_next` begins at a negative position behind the only token. -/
theorem not_preScans_letters : terminator ∉ List.replicate (2 ^ 31) 'a' ∧
    ¬ PreScans (List.replicate (2 ^ 31) 'a') := by
  have hs : terminator ∉ List.replicate (2 ^ 31) 'a' := by
    rw [List.mem_replicate]
    exact fun h => absurd h.2 (by decide)
  refine ⟨hs, fun h => ?_⟩
  obtain ⟨fuel, ts, hscan, -⟩ := h.tokens
  have hlen := length_of_scan hs hscan
  rw [List.length_replicate, INT_MAX] at hlen
  omega

end VulcanDB.Express.PreScan
