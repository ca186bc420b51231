import VulcanDB.Common.Io
import VulcanDB.Server.Connection

/-!
# Server — Sending

`Server::send` takes a negative number for a failure of `writen`, which returns `errno`.

* `send_ret`: no failure is seen.
* `reports_iff`: when what is returned is right.
* `writen_step`: what `writen` does is what `Server.writen` says of a step of the session stage.
-/

namespace VulcanDB.Server

open Common

/-- What a call of `send` does. -/
structure Sent where
  written : List UInt8
  ret : ℤ
  /-- `close_connection` is called. -/
  closed : Bool
  deriving DecidableEq

/-- `Server::send` of the bytes at `buf`, a null pointer or not. -/
def send (buf : Option (List UInt8)) (dataLen : ℤ) (ws : List Write) : Option Sent :=
  match buf with
  | none => some ⟨[], 0, false⟩
  | some bytes =>
    if dataLen = 0 then some ⟨[], 0, false⟩
    else (Common.writen (bytes.take dataLen.toNat) ws).map fun r =>
      if (r.2.1 : ℤ) < 0 then ⟨r.1, -1, true⟩ else ⟨r.1, 0, false⟩

/-- **No failure is seen**: whatever the calls of `write` return, 0 is, and nothing is closed. -/
theorem send_ret {buf : Option (List UInt8)} {dataLen : ℤ} {ws : List Write} {s : Sent}
    (h : send buf dataLen ws = some s) : s.ret = 0 ∧ s.closed = false := by
  unfold send at h
  split at h
  · obtain rfl := Option.some.inj h
    exact ⟨rfl, rfl⟩
  · split at h
    · obtain rfl := Option.some.inj h
      exact ⟨rfl, rfl⟩
    · obtain ⟨r, -, rfl⟩ := Option.map_eq_some_iff.mp h
      rw [if_neg (Int.not_lt.mpr (Int.natCast_nonneg _))]
      exact ⟨rfl, rfl⟩

theorem send_bytes {bytes : List UInt8} (hne : bytes ≠ []) (ws : List Write) :
    send (some bytes) bytes.length ws =
      (Common.writen bytes ws).map fun r => ⟨r.1, 0, false⟩ := by
  have hlen : (bytes.length : ℤ) ≠ 0 := by simpa using hne
  simp only [send, if_neg hlen, Int.toNat_natCast, List.take_length]
  refine congrArg (Option.map · _) (funext fun r => ?_)
  rw [if_neg (Int.not_lt.mpr (Int.natCast_nonneg _))]

/-- What is to be returned: 0 only where all is written, and -1, with the connection closed, where
`writen` gave up. -/
structure Reports (buf : Option (List UInt8)) (dataLen : ℤ) (ws : List Write) : Prop where
  zero : ∀ s, send buf dataLen ws = some s → s.ret = 0 → (s.written.length : ℤ) = dataLen
  failure : ∀ bytes, buf = some bytes → GivesUp bytes.length ws →
    ∃ s, send buf dataLen ws = some s ∧ s.ret = -1 ∧ s.closed = true

/-- **Main result.**  What is returned is right if and only if no call of `write` fails for good with
bytes left, and the pointer is not null where there are bytes. -/
theorem reports_iff {buf : Option (List UInt8)} {dataLen : ℤ} {ws : List Write}
    (hbuf : ∀ bytes, buf = some bytes → (bytes.length : ℤ) = dataLen) :
    Reports buf dataLen ws ↔ (buf = none → dataLen = 0) ∧
      ∀ bytes, buf = some bytes → ¬ GivesUp bytes.length ws := by
  constructor
  · intro h
    refine ⟨?_, fun bytes hbytes hgives => ?_⟩
    · rintro rfl
      exact (h.zero _ rfl rfl).symm
    · obtain ⟨s, hs, hret, -⟩ := h.failure bytes hbytes hgives
      rw [(send_ret hs).1] at hret
      cases hret
  · rintro ⟨hnull, hgives⟩
    refine ⟨fun s hs _ => ?_, fun bytes hbytes h => absurd h (hgives bytes hbytes)⟩
    cases buf with
    | none =>
        obtain rfl := Option.some.inj hs
        exact (hnull rfl).symm
    | some bytes =>
        obtain rfl := hbuf bytes rfl
        by_cases hne : bytes = []
        · subst hne
          obtain rfl := Option.some.inj hs
          rfl
        · rw [send_bytes hne] at hs
          obtain ⟨r, hr, rfl⟩ := Option.map_eq_some_iff.mp hs
          rw [(writen_all (hgives bytes rfl) hr).1]

/-- One byte is written, and then the peer has closed (`EPIPE`). -/
theorem send_not_reported :
    ¬ Reports (some [104, 105, 0]) 3 [.wrote 1, .failed EINTR, .failed 32] := by
  intro h
  have hsend : send (some [104, 105, 0]) 3 [.wrote 1, .failed EINTR, .failed 32] =
      some ⟨[104], 0, false⟩ := by decide
  have hlen := h.zero _ hsend rfl
  revert hlen
  decide

/-- A message that is written in parts. -/
theorem reports_example : Reports (some [104, 105, 0]) 3 [.wrote 1, .failed EAGAIN, .wrote 2] ↔
    (some [(104 : UInt8), 105, 0] = none → (3 : ℤ) = 0) ∧ ∀ bytes : List UInt8,
      some [104, 105, 0] = some bytes →
        ¬ GivesUp bytes.length [.wrote 1, .failed EAGAIN, .wrote 2] :=
  reports_iff fun bytes hbytes => by
    rw [← Option.some.inj hbytes]
    rfl

/-- A section of `send` in the system writes what `writen` writes, and branches as it does. -/
theorem writen_step {bytes : List UInt8} {ws : List Write} {r : List UInt8 × ℕ × List Write}
    (h : Common.writen bytes ws = some r) : ∃ n ≤ bytes.length, r.1 = bytes.take n ∧
      writen bytes.length n r.2.1 = r.2.1 := by
  by_cases hgives : GivesUp bytes.length ws
  · obtain ⟨n, errno, rest, hlt, hr⟩ := writen_givesUp hgives
    obtain rfl := Option.some.inj (h.symm.trans hr)
    exact ⟨n, hlt.le, rfl, if_neg hlt.ne⟩
  · obtain ⟨hbytes, hzero⟩ := writen_all hgives h
    exact ⟨bytes.length, le_rfl, by rw [hbytes, List.take_length], by rw [hzero]; exact if_pos rfl⟩

end VulcanDB.Server
