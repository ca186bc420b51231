import Mathlib.Data.List.GetD
import VulcanDB.Library.Block
import VulcanDB.Server.Connection

/-!
# Server — Receiving a command

`Server::recv` on the cells of the buffer, for all the ways in which bytes arrive.

* `recvLoop_ne_overrun`: nothing outside the buffer is written or read.
* `recvLoop_command`, `recvLoop_tooLong`: what the loop ends with.
* `recv_frames`: what becomes of a command, in whatever pieces it arrives.

What the loop does beside other threads is the subject of `VulcanDB.Server.Connection`.
-/

namespace VulcanDB.Server.Receive

open Cxx

/-! ### The buffer -/

/-- Why `recv` does not return. -/
inductive Stop where
  /-- `read` has given nothing but `EAGAIN` since. -/
  | waits
  /-- Something outside the buffer is written or read. -/
  | overrun
  deriving DecidableEq

/-- What a call of `read` finds: of the bytes it takes as many as it was asked for. -/
inductive Arrival where
  | again
  | data (bs : List UInt8)
  | closed
  | failed

variable {size : ℕ}

/-- `memset(client->buf, 0, buf_size)`. -/
def memset (_ : Table UInt8 size) : Table UInt8 size :=
  ⟨⟨List.replicate size (some 0)⟩, List.length_replicate⟩

/-- `read` writes the bytes from `pos` on. -/
def storeBytes (buf : Table UInt8 size) (pos : ℕ) : List UInt8 → Except Stop (Table UInt8 size)
  | [] => .ok buf
  | b :: bs =>
    match buf.write pos b with
    | none => .error .overrun
    | some buf => storeBytes buf (pos + 1) bs

/-- The loop that looks for a zero in the `n` bytes from `pos` on. -/
def scan (buf : Table UInt8 size) (pos : ℕ) : ℕ → Except Stop (Option ℕ)
  | 0 => .ok none
  | n + 1 =>
    match buf.read pos with
    | none => .error .overrun
    | some b => if b = 0 then .ok (some 0) else (scan buf (pos + 1) n).map (·.map (· + 1))

/-! ### The code -/

/-- One round after `read` has returned `readLen` bytes: `none` where the loop goes on. -/
def round (buf : Table UInt8 size) (dataLen readLen : ℕ) : Except Stop (Option ℕ) :=
  if size < readLen + dataLen then .ok (some (dataLen + readLen))
  else (scan buf dataLen readLen).map (·.map (dataLen + · + 1))

/-- The loop of `recv`: the buffer, `data_len` and `read_len`. -/
def recvLoop (buf : Table UInt8 size) (dataLen : ℕ) :
    List Arrival → Except Stop (Table UInt8 size × ℕ × ℤ)
  | [] =>
    if size < dataLen then .error .overrun
    -- a `read` of no bytes returns 0
    else if dataLen = size then .ok (buf, dataLen, 0)
    else .error .waits
  | a :: as =>
    if size < dataLen then .error .overrun
    else if dataLen = size then .ok (buf, dataLen, 0)
    else match a with
      | .again => recvLoop buf dataLen as
      | .closed => .ok (buf, dataLen, 0)
      | .failed => .ok (buf, dataLen, -1)
      | .data bs =>
        let bs := bs.take (size - dataLen)
        if bs.length = 0 then .ok (buf, dataLen, 0)
        else do
          let buf ← storeBytes buf dataLen bs
          match ← round buf dataLen bs.length with
          | some dataLen => .ok (buf, dataLen, bs.length)
          | none => recvLoop buf (dataLen + bs.length) as

/-- What a call of `recv` does. -/
structure Received where
  buf : Table UInt8 socketBufferSize
  /-- The number of events that are created. -/
  created : ℕ
  /-- `close_connection` is called. -/
  closed : Bool

/-- **`recv`**. -/
def recv (buf : Table UInt8 socketBufferSize) (as : List Arrival) : Except Stop Received := do
  let r ← recvLoop (memset buf) 0 as
  if Closes r.2.1 r.2.2 then return ⟨r.1, 0, true⟩ else return ⟨r.1, 1, false⟩

/-! ### What is in the buffer -/

/-- The buffer holds these bytes, and zeros behind them. -/
def Holds (buf : Table UInt8 size) (bs : List UInt8) : Prop :=
  buf.cells = (bs ++ List.replicate (size - bs.length) 0).map some

theorem holds_memset (buf : Table UInt8 size) : Holds (memset buf) [] := by
  simp [Holds, memset]

theorem Holds.storeBytes {buf : Table UInt8 size} {got bs : List UInt8} (h : Holds buf got)
    (hroom : got.length + bs.length ≤ size) :
    ∃ buf', Receive.storeBytes buf got.length bs = .ok buf' ∧ Holds buf' (got ++ bs) := by
  induction bs generalizing buf got with
  | nil => exact ⟨buf, rfl, by rwa [List.append_nil]⟩
  | cons b bs ih =>
      rw [List.length_cons] at hroom
      have hlt : got.length < size := by omega
      have hset : Holds ⟨⟨buf.cells.set got.length (some b)⟩, by rw [List.length_set, buf.room]⟩
          (got ++ [b]) := by
        have hrest : List.replicate (size - got.length) (0 : UInt8) =
            0 :: List.replicate (size - (got ++ [b]).length) 0 := by
          rw [← List.replicate_succ]
          congr 1
          rw [List.length_append, List.length_singleton]
          omega
        show buf.cells.set got.length (some b) = _
        rw [show buf.cells = _ from h, hrest, List.map_append,
          List.set_append_right _ _ (by simp)]
        simp
      obtain ⟨buf', hstore, hholds⟩ := ih hset (by
        rw [List.length_append, List.length_singleton]
        omega)
      refine ⟨buf', ?_, by rwa [List.append_assoc] at hholds⟩
      rw [Receive.storeBytes, Table.write, if_pos hlt]
      rwa [List.length_append] at hstore

theorem Holds.read {buf : Table UInt8 size} {got : List UInt8} (h : Holds buf got) {i : ℕ}
    {b : UInt8} (hb : got[i]? = some b) : buf.read i = some b := by
  have hlt := (List.getElem?_eq_some_iff.mp hb).1
  rw [Block.read, h, List.getElem?_map, List.getElem?_append_left hlt, hb]
  rfl

/-- The scan finds the first zero of the new bytes. -/
theorem Holds.scan {buf : Table UInt8 size} {got bs : List UInt8} (h : Holds buf (got ++ bs)) :
    Receive.scan buf got.length bs.length = .ok (bs.findIdx? (· == 0)) := by
  induction bs generalizing got with
  | nil => rfl
  | cons b bs ih =>
      have hread : buf.read got.length = some b := h.read (by simp)
      rw [List.length_cons, Receive.scan, hread]
      simp only
      rw [List.append_cons] at h
      have hrest := ih h
      rw [List.length_append, List.length_singleton] at hrest
      rw [hrest, List.findIdx?_cons]
      by_cases hb : b = 0
      · simp [hb]
      · simp [hb, Except.map]

/-- The bytes that are new are stored, and the round ends at their first zero. -/
theorem Holds.round {buf : Table UInt8 size} {got bs : List UInt8} (h : Holds buf (got ++ bs))
    (hroom : got.length + bs.length ≤ size) :
    Receive.round buf got.length bs.length =
      .ok ((bs.findIdx? (· == 0)).map (got.length + · + 1)) := by
  rw [Receive.round, if_neg (by omega), h.scan]
  rfl

/-- The buffer, as `VulcanDB.Server.Connection` has it. -/
def bufOf (buf : Table UInt8 size) (k : ℕ) : UInt8 := (buf.read k).getD 0

/-- The bytes, with zeros behind them. -/
theorem Holds.bufOf {buf : Table UInt8 size} {got : List UInt8} (h : Holds buf got) (k : ℕ) :
    Receive.bufOf buf k = got.getD k 0 := by
  rw [Receive.bufOf, Block.read, h, List.getElem?_map]
  rcases Nat.lt_or_ge k got.length with hlt | hge
  · rw [List.getElem?_append_left hlt, List.getElem?_eq_getElem hlt, List.getD_eq_getElem _ _ hlt]
    rfl
  · rw [List.getElem?_append_right hge, List.getElem?_replicate, List.getD_eq_default _ _ hge]
    split <;> rfl

/-! ### One arrival -/

section Loop

variable {buf : Table UInt8 size} {got : List UInt8} {as : List Arrival}

/-- The loop at an arrival of bytes, while there is room. -/
theorem recvLoop_data (as : List Arrival) (h : Holds buf got) (hroom : got.length < size) {bs : List UInt8}
    (hne : bs ≠ []) : ∃ buf', Holds buf' (got ++ bs.take (size - got.length)) ∧
      recvLoop buf got.length (.data bs :: as) =
        match (bs.take (size - got.length)).findIdx? (· == 0) with
        | some i => .ok (buf', got.length + i + 1, (bs.take (size - got.length)).length)
        | none => recvLoop buf' (got ++ bs.take (size - got.length)).length as := by
  have hlen : got.length + (bs.take (size - got.length)).length ≤ size := by
    rw [List.length_take]
    omega
  have hpos : (bs.take (size - got.length)).length ≠ 0 := by
    have := List.length_pos_iff.mpr hne
    rw [List.length_take]
    omega
  obtain ⟨buf', hstore, hholds⟩ := h.storeBytes hlen
  refine ⟨buf', hholds, ?_⟩
  rw [recvLoop, if_neg (by omega), if_neg hroom.ne]
  simp only [if_neg hpos, hstore]
  change (Receive.round buf' got.length _ >>= _) = _
  rw [hholds.round hlen]
  cases (bs.take (size - got.length)).findIdx? (· == 0) with
  | some i => rfl
  | none =>
      rw [List.length_append]
      rfl

theorem recvLoop_again (hroom : got.length < size) :
    recvLoop buf got.length (.again :: as) = recvLoop buf got.length as := by
  rw [recvLoop, if_neg (by omega), if_neg hroom.ne]

/-- A full buffer: `read` is asked for no bytes and returns 0. -/
theorem recvLoop_full (h : got.length = size) :
    recvLoop buf got.length as = .ok (buf, got.length, 0) := by
  cases as with
  | nil => simp only [recvLoop, h, lt_irrefl, if_false, if_true]
  | cons a as => simp only [recvLoop, h, lt_irrefl, if_false, if_true]

/-- Nothing outside the buffer is written or read. -/
theorem recvLoop_ne_overrun (h : Holds buf got) (hle : got.length ≤ size) (as : List Arrival) :
    recvLoop buf got.length as ≠ .error .overrun := by
  induction as generalizing buf got with
  | nil =>
      rw [recvLoop, if_neg (by omega)]
      split <;> exact nofun
  | cons a as ih =>
      rcases Nat.eq_or_lt_of_le hle with hfull | hroom
      · rw [recvLoop_full hfull]
        exact nofun
      · cases a with
        | again =>
            rw [recvLoop_again hroom]
            exact ih h hle
        | closed =>
            rw [recvLoop, if_neg (by omega), if_neg hroom.ne]
            exact nofun
        | failed =>
            rw [recvLoop, if_neg (by omega), if_neg hroom.ne]
            exact nofun
        | data bs =>
            by_cases hnil : bs = []
            · rw [hnil, recvLoop, if_neg (by omega), if_neg hroom.ne]
              simp
            · obtain ⟨buf', hholds, hloop⟩ := recvLoop_data as h hroom hnil
              rw [hloop]
              split
              · exact nofun
              · refine ih hholds ?_
                rw [List.length_append, List.length_take]
                omega

/-! ### Pieces -/

/-- The arrivals give these bytes, in pieces. -/
inductive Delivers : List Arrival → List UInt8 → Prop
  | nil : Delivers [] []
  | again {as bytes} : Delivers as bytes → Delivers (.again :: as) bytes
  | data {bs as bytes} : bs ≠ [] → Delivers as bytes → Delivers (.data bs :: as) (bs ++ bytes)

theorem findIdx_zero {bs : List UInt8} (h : 0 ∉ bs) : bs.findIdx? (· == 0) = none := by
  rw [List.findIdx?_eq_none_iff]
  intro b hb
  simpa using ne_of_mem_of_not_mem hb h

theorem findIdx_concat_zero {bs : List UInt8} (h : 0 ∉ bs) :
    (bs ++ [0]).findIdx? (· == 0) = some bs.length := by
  rw [List.findIdx?_append, findIdx_zero h]
  simp [List.findIdx?_cons]

/-- The piece with the NUL of a command is the last. -/
theorem last_piece {got bs bytes text : List UInt8} (h : got ++ (bs ++ bytes) = text ++ [0])
    (htext : 0 ∉ text) (hmem : 0 ∈ bs) :
    bytes = [] ∧ ∃ s, bs = s ++ [0] ∧ got ++ s = text := by
  rcases List.eq_nil_or_concat bytes with rfl | ⟨bytes', b, rfl⟩
  · refine ⟨rfl, ?_⟩
    rcases List.eq_nil_or_concat bs with rfl | ⟨s, b, rfl⟩
    · cases hmem
    · rw [List.concat_eq_append, List.append_nil, ← List.append_assoc] at h
      obtain ⟨htext', hb⟩ := List.append_inj' h rfl
      exact ⟨s, by rw [List.concat_eq_append, hb], htext'⟩
  · rw [List.concat_eq_append, ← List.append_assoc, ← List.append_assoc] at h
    obtain ⟨rfl, -⟩ := List.append_inj' h rfl
    exact absurd (List.mem_append_left _ (List.mem_append_right _ hmem)) htext

/-- **A command that fits** is read to its NUL. -/
theorem recvLoop_command {bytes text : List UInt8} (hd : Delivers as bytes) (h : Holds buf got)
    (hgot : 0 ∉ got) (hbytes : got ++ bytes = text ++ [0]) (htext : 0 ∉ text)
    (hfits : text.length < size) (later : List Arrival) :
    ∃ buf' readLen, Holds buf' (text ++ [0]) ∧ 0 < readLen ∧
      recvLoop buf got.length (as ++ later) = .ok (buf', text.length + 1, readLen) := by
  have hlen := congrArg List.length hbytes
  rw [List.length_append, List.length_append, List.length_singleton] at hlen
  induction hd generalizing buf got with
  | nil =>
      rw [List.append_nil] at hbytes
      exact absurd (hbytes ▸ List.mem_append_right text (List.mem_singleton_self 0)) hgot
  | @again as bytes _ ih =>
      have hpos : bytes ≠ [] := by
        rintro rfl
        rw [List.append_nil] at hbytes
        exact hgot (hbytes ▸ List.mem_append_right text (List.mem_singleton_self 0))
      have hroom : got.length < size := by
        have := List.length_pos_iff.mpr hpos
        omega
      rw [List.cons_append, recvLoop_again hroom]
      exact ih h hgot hbytes hlen
  | @data bs as bytes hne _ ih =>
      have hpos := List.length_pos_iff.mpr hne
      rw [List.length_append] at hlen
      -- the piece fits into what is left of the buffer
      have hall : bs.take (size - got.length) = bs := List.take_of_length_le (by omega)
      obtain ⟨buf', hholds, hloop⟩ := recvLoop_data (as ++ later) h (by omega) hne
      rw [hall] at hholds hloop
      rw [List.cons_append, hloop]
      -- the piece with the NUL is the last one
      by_cases hmem : 0 ∈ bs
      · obtain ⟨rfl, s, rfl, rfl⟩ := last_piece hbytes htext hmem
        have hs : 0 ∉ s := fun hs => htext (List.mem_append_right _ hs)
        refine ⟨buf', (s ++ [0]).length, by rwa [List.append_assoc], ?_, ?_⟩
        · exact Int.natCast_pos.mpr hpos
        · simp only [findIdx_concat_zero hs, List.length_append]
      · rw [findIdx_zero hmem]
        refine ih hholds ?_ (by rwa [List.append_assoc]) ?_
        · exact fun hm => (List.mem_append.mp hm).elim hgot hmem
        · rw [List.length_append]
          omega

/-- **A command that does not fit** fills the buffer. -/
theorem recvLoop_tooLong {bytes : List UInt8} (hd : Delivers as bytes) (h : Holds buf got)
    (hle : got.length ≤ size) (hlong : size ≤ got.length + bytes.length)
    (hzero : 0 ∉ (got ++ bytes).take size) (later : List Arrival) :
    ∃ buf', recvLoop buf got.length (as ++ later) = .ok (buf', size, 0) := by
  rcases Nat.eq_or_lt_of_le hle with hfull | hroom
  · exact ⟨buf, by rw [recvLoop_full hfull, hfull]⟩
  · induction hd generalizing buf got with
    | nil => exact absurd hlong (by simpa using hroom)
    | @again as bytes _ ih =>
        rw [List.cons_append, recvLoop_again hroom]
        exact ih h hle hlong hzero hroom
    | @data bs as bytes hne _ ih =>
        obtain ⟨buf', hholds, hloop⟩ := recvLoop_data (as ++ later) h hroom hne
        have hmem : 0 ∉ bs.take (size - got.length) := by
          intro hm
          refine hzero ?_
          rw [List.take_append, List.take_of_length_le hle, List.take_append]
          exact List.mem_append_right _ (List.mem_append_left _ hm)
        rw [List.cons_append, hloop, findIdx_zero hmem]
        simp only
        by_cases hbs : size ≤ got.length + bs.length
        · have hfull : (got ++ bs.take (size - got.length)).length = size := by
            rw [List.length_append, List.length_take]
            omega
          exact ⟨buf', by rw [recvLoop_full hfull, hfull]⟩
        · have hall : bs.take (size - got.length) = bs := List.take_of_length_le (by omega)
          rw [hall] at hholds ⊢
          have hlen : (got ++ bs).length = got.length + bs.length := List.length_append
          rw [List.length_append] at hlong
          exact ih hholds (by omega) (by omega) (by rwa [List.append_assoc]) (by omega)

end Loop

/-! ### The command -/

/-- What is to become of commands: one that ends within the buffer is in it, with zeros behind it,
and an event is created; for one that does not the connection is closed; and nothing outside the
buffer is written or read. -/
structure Frames (buf : Table UInt8 socketBufferSize) : Prop where
  command : ∀ text as later, 0 ∉ text → text.length < socketBufferSize →
    Delivers as (text ++ [0]) → ∃ r, recv buf (as ++ later) = .ok r ∧
      Holds r.buf (text ++ [0]) ∧ r.created = 1 ∧ r.closed = false
  tooLong : ∀ bytes as later, socketBufferSize ≤ bytes.length →
    0 ∉ bytes.take socketBufferSize → Delivers as bytes →
      ∃ r, recv buf (as ++ later) = .ok r ∧ r.created = 0 ∧ r.closed = true
  inBounds : ∀ as, recv buf as ≠ .error .overrun

/-- The end of `recv`, after its loop. -/
theorem recv_of_loop {buf buf' : Table UInt8 socketBufferSize} {as : List Arrival} {dataLen : ℕ}
    {readLen : ℤ} (h : recvLoop (memset buf) 0 as = .ok (buf', dataLen, readLen)) :
    recv buf as = .ok (if Closes dataLen readLen then ⟨buf', 0, true⟩ else ⟨buf', 1, false⟩) := by
  rw [recv, h]
  by_cases hcloses : Closes dataLen readLen
  · rw [if_pos hcloses]
    exact if_pos hcloses
  · rw [if_neg hcloses]
    exact if_neg hcloses

/-- **Main result.**  What becomes of a command does not depend on the pieces in which it
arrives. -/
theorem recv_frames (buf : Table UInt8 socketBufferSize) : Frames buf where
  command text as later htext hfits hd := by
    obtain ⟨buf', readLen, hholds, hpos, hloop⟩ :=
      recvLoop_command hd (holds_memset buf) List.not_mem_nil rfl htext hfits later
    have hcloses : ¬ Closes (text.length + 1) readLen := by
      unfold Closes
      omega
    exact ⟨⟨buf', 1, false⟩, by rw [recv_of_loop hloop, if_neg hcloses], hholds, rfl, rfl⟩
  tooLong bytes as later hlong hzero hd := by
    obtain ⟨buf', hloop⟩ := recvLoop_tooLong hd (holds_memset buf) (Nat.zero_le _)
      (by simpa using hlong) (by simpa using hzero) later
    have hcloses : Closes socketBufferSize 0 := .inr (.inl rfl)
    exact ⟨⟨buf', 0, true⟩, by rw [recv_of_loop hloop, if_pos hcloses], rfl, rfl⟩
  inBounds as h := by
    rcases Steps.bind_eq_error.mp h with h | ⟨r, -, h⟩
    · exact recvLoop_ne_overrun (holds_memset buf) (Nat.zero_le _) as h
    · split at h <;> cases h

/-- A command in two pieces, after `EAGAIN`. -/
theorem recv_frames_pieces (buf : Table UInt8 socketBufferSize) : ∃ r,
    recv buf [.again, .data [72], .again, .data [105, 0]] = .ok r ∧ Holds r.buf [72, 105, 0] ∧
      r.created = 1 ∧ r.closed = false :=
  (recv_frames buf).command [72, 105] [.again, .data [72], .again, .data [105, 0]] []
    (by decide) (by decide)
    (.again (.data (by decide) (.again (@Delivers.data [105, 0] [] [] (by decide) .nil))))

end VulcanDB.Server.Receive
