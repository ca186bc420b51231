import VulcanDB.Server.Connection

/-!
# Client — Responses

What `SessionStage::callback_event` sends for a response, and what the client makes of it.  A
response ends at its NUL, which is part of it or is sent after it.

* `callbackEvent_eq`: what is sent is a text and one NUL at its end.
* `recvLoop_split`: the client prints such a text, in whatever pieces it comes.
* `prints_response_iff`: that is the response if its length is that of an `int`.

The sends are taken to succeed, and `memset` of the buffer is left out: the loop reads no byte that
`recv` has not stored.
-/

namespace VulcanDB.Client

open Server

/-! ### What the server sends -/

/-- A `size_t` stored in an `int`. -/
def intOf (n : ℕ) : ℤ := ((n : ℤ) + 2 ^ 31) % 2 ^ 32 - 2 ^ 31

/-- `SessionEvent::get_response_len`. -/
def getResponseLen (response : List UInt8) : ℤ := intOf response.length

/-- The bytes that `Server::send` writes. -/
def sendBytes (buf : List UInt8) (dataLen : ℤ) : List UInt8 :=
  if dataLen = 0 then [] else buf.take dataLen.toNat

/-- `response[len - 1]`, of a string with the NUL behind it. -/
def lastByte (response : List UInt8) (len : ℤ) : UInt8 := response.getD (len.toNat - 1) 0

/-- `callback_event`: a response without text is replaced, and a NUL is sent unless the response
ends with one. -/
def callbackEvent (response : List UInt8) : List UInt8 :=
  let len := getResponseLen response
  let r := if len ≤ 0 then (noData, (noData.length : ℤ)) else (response, len)
  sendBytes r.1 r.2 ++ if lastByte r.1 r.2 = 0 then [] else sendBytes [0] 1

/-! ### What the client does -/

/-- What a call of `recv` returns. -/
inductive Recv where
  | bytes (bs : List UInt8)
  | closed
  | failed

/-- The loop over the bytes of one call: what is printed, and `msg_end`. -/
def printBytes : List UInt8 → List UInt8 × Bool
  | [] => ([], false)
  | b :: bs => if b = 0 then ([], true) else (b :: (printBytes bs).1, (printBytes bs).2)

/-- The loop of `recv_and_print_msg`: what is printed, `len`, and the calls that are not made.
Without another result it waits in `recv`. -/
def recvLoop : List Recv → Option (List UInt8 × ℤ × List Recv)
  | [] => none
  | .bytes bs :: rs =>
    if (printBytes bs).2 then some ((printBytes bs).1, bs.length, rs)
    else (recvLoop rs).map fun r => ((printBytes bs).1 ++ r.1, r.2)
  | .closed :: rs => some ([], 0, rs)
  | .failed :: rs => some ([], -1, rs)

/-- `VulcanClient::recv_and_print_msg`: what is printed, and what is returned. -/
def recvAndPrintMsg (rs : List Recv) : Option (List UInt8 × ℤ × List Recv) :=
  (recvLoop rs).map fun r => (r.1 ++ [10], if r.2.1 < 0 then -1 else 0, r.2.2)

/-! ### A text and its NUL -/

/-- A text without the NUL at its end. -/
def withoutNul (s : List UInt8) : List UInt8 := if s.getLast? = some 0 then s.dropLast else s

/-- What the client should print. -/
def responseText (response : List UInt8) : List UInt8 :=
  withoutNul (if response = [] then noData else response)

theorem notMem_withoutNul {s : List UInt8} (h : 0 ∉ s.dropLast) : 0 ∉ withoutNul s := by
  unfold withoutNul
  split
  · exact h
  · rename_i hlast
    intro hmem
    have hne : s ≠ [] := List.ne_nil_of_mem hmem
    rw [← List.dropLast_append_getLast hne, List.mem_append, List.mem_singleton] at hmem
    rcases hmem with hmem | hmem
    · exact h hmem
    · exact hlast (by rw [List.getLast?_eq_some_getLast hne, ← hmem])

/-- Of a text with at most one NUL, at its end, one NUL is sent. -/
theorem send_text {s : List UInt8} (hne : s ≠ []) :
    (s ++ if s.getLast? = some 0 then [] else [0]) = withoutNul s ++ [0] := by
  unfold withoutNul
  split
  · rename_i hlast
    rw [List.append_nil]
    rw [List.getLast?_eq_some_getLast hne, Option.some.injEq] at hlast
    conv_lhs => rw [← List.dropLast_append_getLast hne, hlast]
  · rfl

/-- The part of a response that its `len` counts, or what is sent in its place. -/
def counted (response : List UInt8) : List UInt8 :=
  if getResponseLen response ≤ 0 then noData else response.take (getResponseLen response).toNat

/-- The length that is kept is not more than that of the response. -/
theorem getResponseLen_le (response : List UInt8) : getResponseLen response ≤ response.length := by
  unfold getResponseLen intOf
  omega

theorem counted_ne_nil (response : List UInt8) : counted response ≠ [] := by
  unfold counted
  split
  · decide
  · rename_i hpos
    have hle := getResponseLen_le response
    rw [← List.length_pos_iff, List.length_take]
    omega

/-- **What is sent is a text and one NUL.** -/
theorem callbackEvent_eq (response : List UInt8) :
    callbackEvent response = withoutNul (counted response) ++ [0] := by
  rw [← send_text (counted_ne_nil response)]
  unfold callbackEvent counted
  by_cases hpos : getResponseLen response ≤ 0
  · simp only [if_pos hpos]
    decide
  · have hle := getResponseLen_le response
    simp only [if_neg hpos]
    obtain ⟨n, hn⟩ : ∃ n : ℕ, getResponseLen response = n + 1 :=
      ⟨(getResponseLen response).toNat - 1, by omega⟩
    have hlt : n < response.length := by omega
    have hlast : (response.take (n + 1)).getLast? = some response[n] := by
      rw [List.getLast?_take]
      simp [hlt]
    rw [hn, sendBytes, if_neg (by omega), lastByte]
    have hnat : ((n : ℤ) + 1).toNat = n + 1 := by omega
    rw [hnat, hlast, Nat.add_sub_cancel, List.getD_eq_getElem?_getD, List.getElem?_eq_getElem hlt]
    simp only [Option.some.injEq]
    rfl

/-! ### The pieces of a text -/

theorem printBytes_of_notMem {bs : List UInt8} (h : 0 ∉ bs) : printBytes bs = (bs, false) := by
  induction bs with
  | nil => rfl
  | cons b bs ih =>
      rw [List.mem_cons, not_or] at h
      rw [printBytes, if_neg (Ne.symm h.1), ih h.2]

theorem printBytes_nul {bs : List UInt8} (h : 0 ∉ bs) : printBytes (bs ++ [0]) = (bs, true) := by
  induction bs with
  | nil => rfl
  | cons b bs ih =>
      rw [List.mem_cons, not_or] at h
      rw [List.cons_append, printBytes, if_neg (Ne.symm h.1), ih h.2]

/-- The pieces in which `recv` stores bytes in a buffer. -/
def Splits (bufSize : ℕ) (bs : List UInt8) (pieces : List (List UInt8)) : Prop :=
  pieces.flatten = bs ∧ ∀ p ∈ pieces, p ≠ [] ∧ p.length ≤ bufSize

/-- **The client prints a text in whatever pieces it comes,** and no piece is left. -/
theorem recvLoop_split {text : List UInt8} {pieces : List (List UInt8)} (htext : 0 ∉ text)
    (h : pieces.flatten = text ++ [0]) (hne : ∀ p ∈ pieces, p ≠ []) (later : List Recv) :
    ∃ len : ℤ, 0 ≤ len ∧
      recvLoop (pieces.map .bytes ++ later) = some (text, len, later) := by
  induction pieces generalizing text with
  | nil => simp at h
  | cons p pieces ih =>
      obtain ⟨hp, hne⟩ := List.forall_mem_cons.mp hne
      rw [List.flatten_cons] at h
      rw [List.map_cons, List.cons_append, recvLoop]
      rcases List.eq_nil_or_concat pieces.flatten with hnil | ⟨s, b, hs⟩
      · -- the last piece, with the NUL
        have hlast : pieces = [] := by
          cases pieces with
          | nil => rfl
          | cons q pieces =>
              rw [List.flatten_cons, List.append_eq_nil_iff] at hnil
              exact absurd hnil.1 (hne q List.mem_cons_self)
        subst hlast
        rw [hnil, List.append_nil] at h
        rw [h, printBytes_nul htext]
        exact ⟨_, Int.natCast_nonneg _, rfl⟩
      · rw [List.concat_eq_append] at hs
        rw [hs, ← List.append_assoc] at h
        obtain ⟨rfl, hb⟩ := List.append_inj' h rfl
        rw [hb] at hs
        rw [List.mem_append, not_or] at htext
        obtain ⟨len, hlen, hrest⟩ := ih htext.2 hs hne
        rw [printBytes_of_notMem htext.1, hrest]
        exact ⟨len, hlen, rfl⟩

/-! ### Lengths -/

theorem getResponseLen_of_lt {response : List UInt8} (h : response.length < 2 ^ 31) :
    getResponseLen response = response.length := by
  unfold getResponseLen intOf
  omega

/-- A response of such a length is sent whole. -/
theorem counted_of_lt {response : List UInt8} (h : response.length < 2 ^ 31) :
    counted response = if response = [] then noData else response := by
  rw [counted, getResponseLen_of_lt h]
  by_cases hnil : response = []
  · simp [hnil]
  · have hpos := List.length_pos_iff.mpr hnil
    rw [if_neg hnil, if_neg (by omega), Int.toNat_natCast, List.take_length]

theorem length_withoutNul (s : List UInt8) :
    s.length ≤ (withoutNul s).length + 1 ∧ (withoutNul s).length ≤ s.length := by
  unfold withoutNul
  split
  · rw [List.length_dropLast]
    omega
  · omega

/-- What is counted of a longer response is shorter than its text. -/
theorem length_counted {response : List UInt8} (h : 2 ^ 31 ≤ response.length) :
    (withoutNul (counted response)).length < (responseText response).length := by
  have hne : response ≠ [] := List.ne_nil_of_length_pos (by omega)
  have htext := (length_withoutNul response).1
  have hcounted := (length_withoutNul (counted response)).2
  have hlen : (counted response).length + 1 < response.length := by
    unfold counted
    split
    · rw [show noData.length = 9 from rfl]
      omega
    · rw [List.length_take]
      unfold getResponseLen intOf
      omega
  rw [responseText, if_neg hne]
  omega

/-- What is sent has no NUL before its end. -/
theorem dropLast_counted {response : List UInt8} (h : 0 ∉ response.dropLast) :
    0 ∉ (counted response).dropLast := by
  unfold counted
  split
  · decide
  · intro hmem
    rw [List.dropLast_eq_take, List.take_take] at hmem
    rw [List.dropLast_eq_take] at h
    refine h (List.take_subset_take_left _ ?_ hmem)
    rw [List.length_take]
    omega

/-- The text that is sent is the response's, if an `int` holds its length. -/
theorem sent_text_iff {response : List UInt8} :
    withoutNul (counted response) = responseText response ↔ response.length < 2 ^ 31 := by
  constructor
  · intro h
    by_contra hlong
    have hlt := length_counted (not_lt.mp hlong)
    rw [h] at hlt
    exact absurd hlt (lt_irrefl _)
  · intro h
    rw [counted_of_lt h, responseText]

/-- **The client on the pieces** prints what was sent before the NUL. -/
theorem recvAndPrintMsg_split {response : List UInt8} {bufSize : ℕ} {pieces : List (List UInt8)}
    (hnul : 0 ∉ response.dropLast) (h : Splits bufSize (callbackEvent response) pieces)
    (later : List Recv) : recvAndPrintMsg (pieces.map .bytes ++ later) =
      some (withoutNul (counted response) ++ [10], 0, later) := by
  obtain ⟨hflat, hpieces⟩ := h
  rw [callbackEvent_eq] at hflat
  obtain ⟨len, hlen, hloop⟩ := recvLoop_split (notMem_withoutNul (dropLast_counted hnul)) hflat
    (fun p hp => (hpieces p hp).1) later
  rw [recvAndPrintMsg, hloop, Option.map_some, if_neg (not_lt.mpr hlen)]

/-- **Main result.**  For a response without a NUL before its end, and every way in which the bytes
sent are split, the client prints its text and one end of line, reads exactly these bytes and
returns 0, if and only if an `int` holds the length of the response. -/
theorem prints_response_iff {response : List UInt8} {bufSize : ℕ} {pieces : List (List UInt8)}
    (hnul : 0 ∉ response.dropLast) (h : Splits bufSize (callbackEvent response) pieces)
    (later : List Recv) :
    recvAndPrintMsg (pieces.map .bytes ++ later) =
      some (responseText response ++ [10], 0, later) ↔ response.length < 2 ^ 31 := by
  rw [recvAndPrintMsg_split hnul h, ← sent_text_iff]
  simp

/-- A response in three pieces, of which the last is the NUL. -/
theorem prints_response_pieces : recvAndPrintMsg [.bytes [72], .bytes [105, 10], .bytes [0]] =
    some ([72, 105, 10, 10], 0, []) ↔ [72, 105, 10].length < 2 ^ 31 :=
  @prints_response_iff [72, 105, 10] 8192 [[72], [105, 10], [0]] (by decide)
    ⟨by decide, by decide⟩ []

/-- It prints another text for a response of `2 ^ 31` bytes. -/
theorem not_always_prints_response : ∃ response pieces,
    0 ∉ response.dropLast ∧ Splits 8192 (callbackEvent response) pieces ∧
    recvAndPrintMsg (pieces.map .bytes) ≠ some (responseText response ++ [10], 0, []) := by
  obtain ⟨response, hlen, hbytes⟩ : ∃ response : List UInt8,
      response.length = 2 ^ 31 ∧ ∀ b ∈ response, b = 97 :=
    ⟨List.replicate (2 ^ 31) 97, List.length_replicate, fun b hb => List.eq_of_mem_replicate hb⟩
  have hnul : 0 ∉ response.dropLast := fun h =>
    absurd (hbytes 0 (List.mem_of_mem_dropLast h)) (by decide)
  have hsplit : Splits 8192 (callbackEvent response) ((callbackEvent response).map fun b => [b]) := by
    refine ⟨?_, ?_⟩
    · rw [← List.flatMap_def]
      exact List.flatMap_singleton' _
    · intro p hp
      obtain ⟨b, -, rfl⟩ := List.mem_map.mp hp
      exact ⟨List.cons_ne_nil _ _, by simp⟩
  refine ⟨response, _, hnul, hsplit, fun h => ?_⟩
  have hprints := recvAndPrintMsg_split hnul hsplit []
  rw [List.append_nil, h] at hprints
  have htext : withoutNul (counted response) = responseText response := by
    simpa using hprints.symm
  have hlt := sent_text_iff.mp htext
  omega

end VulcanDB.Client
