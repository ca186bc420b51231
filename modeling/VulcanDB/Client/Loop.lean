import VulcanDB.Client.Framing
import VulcanDB.Common.Io

/-!
# Client — The loop over commands

`VulcanClient::run` leaves its loop on a negative value of `recv_and_print_msg`, and on 1.

* `recvAndPrintMsg_cases`: how the receiving ends, and what is returned.
* `notices_iff`: when a broken connection is noticed.
* `run_ne_closed`: the branch for a closed connection is never taken.

The prompt and the messages on the error stream are left out.
-/

namespace VulcanDB.Client

open Common

/-! ### The loop -/

/-- `tolower`, on a byte. -/
def toLower (b : UInt8) : UInt8 := if 65 ≤ b ∧ b ≤ 90 then b + 32 else b

/-- `strncasecmp(word, cmd, n) == 0`, for a word of `n` lower-case letters. -/
def startsWith (word cmd : List UInt8) : Bool := (cmd.take word.length).map toLower == word

/-- `exit`, `bye` and `\q`. -/
def isExitCommand (cmd : List UInt8) : Bool :=
  startsWith [101, 120, 105, 116] cmd || startsWith [98, 121, 101] cmd || startsWith [92, 113] cmd

/-- A command of white space. -/
def isBlank (cmd : List UInt8) : Bool := cmd.all fun b => b = 32 || (9 ≤ b && b ≤ 13)

/-- Where `run` ends. -/
inductive Exit where
  | noInput
  | exitCommand
  | sendError
  | broken
  | closed
  deriving DecidableEq

/-- `VulcanClient::run`, on the lines that are read, the calls of `write` and those of `recv`. -/
def run : List (List UInt8) → List Write → List Recv → Option Exit
  | [], _, _ => some .noInput
  | cmd :: cmds, ws, rs =>
    if isExitCommand cmd then some .exitCommand
    else if isBlank cmd then run cmds ws rs
    else do
      let w ← Common.writen (cmd ++ [0]) ws
      if w.2.1 ≠ 0 then some .sendError
      else do
        let r ← recvAndPrintMsg rs
        if r.2.1 < 0 then some .broken
        else if r.2.1 = 1 then some .closed
        else run cmds w.2.2 r.2.2

/-- The values on which `run` leaves its loop. -/
def leaves (ret : ℤ) : Bool := ret < 0 || ret = 1

/-! ### How the receiving ends -/

/-- A terminating NUL is received. -/
def Terminated (rs : List Recv) : Prop :=
  ∃ (pieces : List (List UInt8)) (bs : List UInt8) (rest : List Recv),
    rs = pieces.map .bytes ++ .bytes bs :: rest ∧ (∀ p ∈ pieces, 0 ∉ p) ∧ 0 ∈ bs

/-- A call returns `r`, before a terminating NUL is received. -/
def EndsWith (r : Recv) (rs : List Recv) : Prop :=
  ∃ (pieces : List (List UInt8)) (rest : List Recv),
    rs = pieces.map .bytes ++ r :: rest ∧ ∀ p ∈ pieces, 0 ∉ p

theorem EndsWith.bytes {r : Recv} {rs : List Recv} {bs : List UInt8} (h : EndsWith r rs)
    (hbs : 0 ∉ bs) : EndsWith r (.bytes bs :: rs) := by
  obtain ⟨pieces, rest, rfl, hpieces⟩ := h
  exact ⟨bs :: pieces, rest, rfl, List.forall_mem_cons.mpr ⟨hbs, hpieces⟩⟩

theorem Terminated.bytes {rs : List Recv} {bs : List UInt8} (h : Terminated rs) (hbs : 0 ∉ bs) :
    Terminated (.bytes bs :: rs) := by
  obtain ⟨pieces, bs', rest, rfl, hpieces, hmem⟩ := h
  exact ⟨bs :: pieces, bs', rest, rfl, List.forall_mem_cons.mpr ⟨hbs, hpieces⟩, hmem⟩

/-- The loop over a buffer stops at a NUL only. -/
theorem printBytes_snd (bs : List UInt8) : (printBytes bs).2 = true ↔ 0 ∈ bs := by
  induction bs with
  | nil => simp [printBytes]
  | cons b bs ih =>
      rw [printBytes]
      split
      · rename_i hb
        simp [hb]
      · rename_i hb
        rw [ih, List.mem_cons, or_iff_right (Ne.symm hb)]

/-- How the loop ends, with its `len`. -/
theorem recvLoop_cases {rs : List Recv} {r : List UInt8 × ℤ × List Recv}
    (h : recvLoop rs = some r) : (Terminated rs ∧ 0 ≤ r.2.1) ∨
      (EndsWith .closed rs ∧ r.2.1 = 0) ∨ (EndsWith .failed rs ∧ r.2.1 = -1) := by
  induction rs generalizing r with
  | nil => cases h
  | cons x rs ih =>
      cases x with
      | closed =>
          obtain rfl := Option.some.inj h
          exact .inr (.inl ⟨⟨[], rs, rfl, by simp⟩, rfl⟩)
      | failed =>
          obtain rfl := Option.some.inj h
          exact .inr (.inr ⟨⟨[], rs, rfl, by simp⟩, rfl⟩)
      | bytes bs =>
          rw [recvLoop] at h
          split at h
          · rename_i hend
            obtain rfl := Option.some.inj h
            exact .inl ⟨⟨[], bs, rs, rfl, by simp, (printBytes_snd bs).mp hend⟩,
              Int.natCast_nonneg _⟩
          · rename_i hend
            have hbs := (printBytes_snd bs).not.mp hend
            obtain ⟨r', hr', rfl⟩ := Option.map_eq_some_iff.mp h
            rcases ih hr' with ⟨hterm, hlen⟩ | ⟨hclosed, hlen⟩ | ⟨hfailed, hlen⟩
            · exact .inl ⟨hterm.bytes hbs, hlen⟩
            · exact .inr (.inl ⟨hclosed.bytes hbs, hlen⟩)
            · exact .inr (.inr ⟨hfailed.bytes hbs, hlen⟩)

/-- **How the receiving ends**, and what is returned. -/
theorem recvAndPrintMsg_cases {rs rest : List Recv} {out : List UInt8} {ret : ℤ}
    (h : recvAndPrintMsg rs = some (out, ret, rest)) : (Terminated rs ∧ ret = 0) ∨
      (EndsWith .closed rs ∧ ret = 0) ∨ (EndsWith .failed rs ∧ ret = -1) := by
  obtain ⟨r, hr, heq⟩ := Option.map_eq_some_iff.mp h
  obtain ⟨-, hret, -⟩ : _ ∧ _ ∧ _ := by simpa only [Prod.mk.injEq] using heq
  rcases recvLoop_cases hr with ⟨hterm, hlen⟩ | ⟨hclosed, hlen⟩ | ⟨hfailed, hlen⟩
  · rw [if_neg (not_lt.mpr hlen)] at hret
    exact .inl ⟨hterm, hret.symm⟩
  · rw [hlen] at hret
    exact .inr (.inl ⟨hclosed, hret.symm⟩)
  · rw [hlen] at hret
    exact .inr (.inr ⟨hfailed, hret.symm⟩)

/-- The loop ends with the first call that gives no bytes. -/
theorem recvLoop_ends {pieces : List (List UInt8)} {x : Recv} {rest : List Recv} {len : ℤ}
    (hpieces : ∀ p ∈ pieces, 0 ∉ p) (hx : recvLoop (x :: rest) = some ([], len, rest)) :
    recvLoop (pieces.map .bytes ++ x :: rest) = some (pieces.flatten, len, rest) := by
  induction pieces with
  | nil => exact hx
  | cons p pieces ih =>
      obtain ⟨hp, hpieces⟩ := List.forall_mem_cons.mp hpieces
      rw [List.map_cons, List.cons_append, recvLoop, printBytes_of_notMem hp, ih hpieces]
      rfl

/-- A peer that closes first is a success. -/
theorem recvAndPrintMsg_closed {rs : List Recv} (h : EndsWith .closed rs) :
    ∃ out rest, recvAndPrintMsg rs = some (out, 0, rest) := by
  obtain ⟨pieces, rest, rfl, hpieces⟩ := h
  exact ⟨pieces.flatten ++ [10], rest, by rw [recvAndPrintMsg, recvLoop_ends hpieces rfl]; rfl⟩

theorem recvAndPrintMsg_failed {rs : List Recv} (h : EndsWith .failed rs) :
    ∃ out rest, recvAndPrintMsg rs = some (out, -1, rest) := by
  obtain ⟨pieces, rest, rfl, hpieces⟩ := h
  exact ⟨pieces.flatten ++ [10], rest, by rw [recvAndPrintMsg, recvLoop_ends hpieces rfl]; rfl⟩

/-! ### Whether it is noticed -/

/-- Only a received NUL gives 0, and on what else is returned `run` leaves its loop. -/
structure Notices (rs : List Recv) : Prop where
  zero : ∀ out rest, recvAndPrintMsg rs = some (out, 0, rest) → Terminated rs
  leaves : EndsWith .closed rs ∨ EndsWith .failed rs →
    ∃ out ret rest, recvAndPrintMsg rs = some (out, ret, rest) ∧ leaves ret = true

/-- **Main result.**  A broken connection is noticed if and only if the peer has not closed it in
order before the terminating NUL. -/
theorem notices_iff (rs : List Recv) : Notices rs ↔ ¬ EndsWith .closed rs := by
  constructor
  · intro h hclosed
    obtain ⟨out, ret, rest, hret, hleaves⟩ := h.leaves (.inl hclosed)
    obtain ⟨out', rest', hzero⟩ := recvAndPrintMsg_closed hclosed
    rw [hzero] at hret
    cases hret
    cases hleaves
  · intro hclosed
    refine ⟨fun out rest h => ?_, fun hends => ?_⟩
    · rcases recvAndPrintMsg_cases h with ⟨hterm, -⟩ | ⟨hends, -⟩ | ⟨-, hret⟩
      · exact hterm
      · exact absurd hends hclosed
      · cases hret
    · obtain ⟨out, rest, h⟩ := recvAndPrintMsg_failed (hends.resolve_left hclosed)
      exact ⟨out, -1, rest, h, rfl⟩

/-- The peer closes in the middle of a response. -/
theorem not_notices_closed : ¬ Notices [.bytes [72, 105], .closed] := by
  intro h
  obtain ⟨pieces, bs, rest, heq, hpieces, hmem⟩ := h.zero [72, 105, 10] [] rfl
  cases pieces with
  | nil =>
      obtain ⟨hbs, -⟩ := List.cons.inj heq
      rw [← Recv.bytes.inj hbs] at hmem
      revert hmem
      decide
  | cons p pieces =>
      obtain ⟨-, hrest⟩ := List.cons.inj heq
      cases pieces with
      | nil => cases List.cons.inj hrest |>.1
      | cons q pieces => cases List.cons.inj hrest |>.1

/-- **The branch for a closed connection is never taken.** -/
theorem run_ne_closed (cmds : List (List UInt8)) (ws : List Write) (rs : List Recv) :
    run cmds ws rs ≠ some .closed := by
  induction cmds generalizing ws rs with
  | nil => simp [run]
  | cons cmd cmds ih =>
      intro h
      rw [run] at h
      split at h
      · cases h
      · split at h
        · exact ih ws rs h
        · obtain ⟨w, -, h⟩ := Option.bind_eq_some_iff.mp h
          split at h
          · cases h
          · obtain ⟨⟨out, ret, rest⟩, hr, h⟩ := Option.bind_eq_some_iff.mp h
            split at h
            · cases h
            · rw [if_neg ?_] at h
              · exact ih _ _ h
              · rcases recvAndPrintMsg_cases hr with ⟨-, hret⟩ | ⟨-, hret⟩ | ⟨-, hret⟩ <;>
                  simp [hret]

end VulcanDB.Client
