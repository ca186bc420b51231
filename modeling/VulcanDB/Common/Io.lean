import Mathlib.Tactic

/-!
# Common — Writing to a descriptor and reading from it

`writen`, which calls `write` until all bytes are taken, and goes on after `EAGAIN` and `EINTR`;
and `readn`, which does the same with `read`.

* `writen_givesUp`: where it gives up, less than all is written.
* `writen_all`: otherwise all is, if it returns.
* `writen_returns`, `readn_returns`: both return if enough is granted.
* `transfers_whole`: what each result says about the bytes.
-/

namespace VulcanDB.Common

/-- What a call of `write` returns: the number of bytes it takes, which is all that is left if it is
more than that, or -1 with `errno`. -/
inductive Write where
  | wrote (n : ℕ)
  | failed (errno : ℕ)
  deriving DecidableEq

/-- The error of a call that a signal interrupts. -/
def EINTR : ℕ := 4

/-- The error of a call that would block. -/
def EAGAIN : ℕ := 11

/-- `writen`: the bytes that are written, what is returned, and the calls of `write` that are not
made.  Without another result it waits in `write`. -/
def writen : List UInt8 → List Write → Option (List UInt8 × ℕ × List Write)
  | [], ws => some ([], 0, ws)
  | _ :: _, [] => none
  | b :: bs, .wrote n :: ws =>
    (writen ((b :: bs).drop n) ws).map fun r => ((b :: bs).take n ++ r.1, r.2)
  | b :: bs, .failed errno :: ws =>
    if EAGAIN ≠ errno ∧ EINTR ≠ errno then some ([], errno, ws) else writen (b :: bs) ws

/-- The call is made again after it has failed. -/
def Retried (errno : ℕ) : Prop := EAGAIN = errno ∨ EINTR = errno

/-- The bytes that the calls take. -/
def taken : List Write → ℕ
  | [] => 0
  | .wrote n :: ws => n + taken ws
  | .failed _ :: ws => taken ws

/-- A call fails, and is not made again, with less than `size` bytes written. -/
def GivesUp (size : ℕ) (ws : List Write) : Prop :=
  ∃ done errno rest, ws = done ++ .failed errno :: rest ∧ ¬ Retried errno ∧
    (∀ e, .failed e ∈ done → Retried e) ∧ taken done < size

/-- Both loops compare `errno` with the two errors that are retried. -/
theorem not_retried_iff {errno : ℕ} :
    ¬ Retried errno ↔ EAGAIN ≠ errno ∧ EINTR ≠ errno := not_or

/-! ### One call -/

/-- A short write leaves the rest to the next. -/
theorem givesUp_wrote {size n : ℕ} {ws : List Write} :
    GivesUp size (.wrote n :: ws) ↔ GivesUp (size - n) ws := by
  constructor
  · rintro ⟨done, errno, rest, heq, herr, hdone, hlt⟩
    cases done with
    | nil => cases List.cons.inj heq |>.1
    | cons w done =>
        obtain ⟨rfl, rfl⟩ := List.cons.inj heq
        refine ⟨done, errno, rest, rfl, herr, fun e he => hdone e (List.mem_cons_of_mem _ he), ?_⟩
        rw [taken] at hlt
        omega
  · rintro ⟨done, errno, rest, rfl, herr, hdone, hlt⟩
    refine ⟨.wrote n :: done, errno, rest, rfl, herr, fun e he => ?_, ?_⟩
    · exact hdone e ((List.mem_cons.mp he).resolve_left nofun)
    · rw [taken]
      omega

/-- A call that is retried changes nothing. -/
theorem givesUp_retried {size errno : ℕ} {ws : List Write} (h : Retried errno) :
    GivesUp size (.failed errno :: ws) ↔ GivesUp size ws := by
  constructor
  · rintro ⟨done, errno', rest, heq, herr, hdone, hlt⟩
    cases done with
    | nil =>
        obtain ⟨hw, -⟩ := List.cons.inj heq
        exact absurd (Write.failed.inj hw ▸ h) herr
    | cons w done =>
        obtain ⟨rfl, rfl⟩ := List.cons.inj heq
        exact ⟨done, errno', rest, rfl, herr, fun e he => hdone e (List.mem_cons_of_mem _ he), hlt⟩
  · rintro ⟨done, errno', rest, rfl, herr, hdone, hlt⟩
    refine ⟨.failed errno :: done, errno', rest, rfl, herr, fun e he => ?_, hlt⟩
    rcases List.mem_cons.mp he with he | he
    · exact Write.failed.inj he ▸ h
    · exact hdone e he

/-! ### All of them -/

/-- **Where `writen` gives up**, it has written less than all and returns the `errno`. -/
theorem writen_givesUp {bytes : List UInt8} {ws : List Write} (h : GivesUp bytes.length ws) :
    ∃ n errno rest, n < bytes.length ∧ writen bytes ws = some (bytes.take n, errno, rest) := by
  induction ws generalizing bytes with
  | nil =>
      obtain ⟨done, errno, rest, heq, -⟩ := h
      exact absurd heq.symm (by simp)
  | cons w ws ih =>
      cases bytes with
      | nil =>
          obtain ⟨done, errno, rest, -, -, -, hlt⟩ := h
          exact absurd hlt (Nat.not_lt_zero _)
      | cons b bs =>
          cases w with
          | wrote n =>
              rw [givesUp_wrote, ← List.length_drop] at h
              obtain ⟨m, errno, rest, hlt, hrest⟩ := ih h
              rw [List.length_drop] at hlt
              refine ⟨n + m, errno, rest, by omega, ?_⟩
              rw [writen, hrest, Option.map_some, ← List.take_add]
          | failed errno =>
              by_cases hr : Retried errno
              · rw [givesUp_retried hr] at h
                rw [writen, if_neg (not_retried_iff.not.mp (not_not.mpr hr))]
                exact ih h
              · rw [writen, if_pos (not_retried_iff.mp hr)]
                exact ⟨0, errno, ws, Nat.succ_pos _, rfl⟩

/-- **Otherwise** it writes all and returns 0, if it returns. -/
theorem writen_all {bytes : List UInt8} {ws : List Write} (h : ¬ GivesUp bytes.length ws)
    {r : List UInt8 × ℕ × List Write} (hr : writen bytes ws = some r) :
    r.1 = bytes ∧ r.2.1 = 0 := by
  induction ws generalizing bytes r with
  | nil =>
      cases bytes with
      | nil =>
          obtain rfl := Option.some.inj hr
          exact ⟨rfl, rfl⟩
      | cons b bs => cases hr
  | cons w ws ih =>
      cases bytes with
      | nil =>
          obtain rfl := Option.some.inj hr
          exact ⟨rfl, rfl⟩
      | cons b bs =>
          cases w with
          | wrote n =>
              rw [givesUp_wrote, ← List.length_drop] at h
              rw [writen] at hr
              obtain ⟨r', hr', rfl⟩ := Option.map_eq_some_iff.mp hr
              obtain ⟨hbytes, hzero⟩ := ih h hr'
              exact ⟨by rw [hbytes, List.take_append_drop], hzero⟩
          | failed errno =>
              by_cases hretry : Retried errno
              · rw [givesUp_retried hretry] at h
                rw [writen, if_neg (not_retried_iff.not.mp (not_not.mpr hretry))] at hr
                exact ih h hr
              · exact absurd ⟨[], errno, ws, rfl, hretry, by simp, Nat.succ_pos _⟩ h

/-- It returns if the calls take all. -/
theorem writen_returns {bytes : List UInt8} {ws : List Write} (h : bytes.length ≤ taken ws) :
    (writen bytes ws).isSome := by
  induction ws generalizing bytes with
  | nil =>
      obtain rfl := List.length_eq_zero_iff.mp (Nat.le_zero.mp h)
      rfl
  | cons w ws ih =>
      cases bytes with
      | nil => rfl
      | cons b bs =>
          cases w with
          | wrote n =>
              rw [writen, Option.isSome_map]
              refine ih ?_
              rw [taken] at h
              rw [List.length_drop]
              omega
          | failed errno =>
              rw [writen]
              split
              · rfl
              · exact ih h

/-- **What `writen` returns** is 0 with all bytes written, or the error of a call. -/
theorem writen_spec {bytes : List UInt8} {ws : List Write} {r : List UInt8 × ℕ × List Write}
    (h : writen bytes ws = some r) : (r.2.1 = 0 ∧ r.1 = bytes) ∨
      (.failed r.2.1 ∈ ws ∧ r.1 <+: bytes ∧ r.1.length < bytes.length) := by
  induction ws generalizing bytes r with
  | nil =>
      cases bytes with
      | nil =>
          obtain rfl := Option.some.inj h
          exact .inl ⟨rfl, rfl⟩
      | cons b bs => cases h
  | cons w ws ih =>
      cases bytes with
      | nil =>
          obtain rfl := Option.some.inj h
          exact .inl ⟨rfl, rfl⟩
      | cons b bs =>
          cases w with
          -- the bytes that are left are written by the turns behind this one
          | wrote n =>
              rw [writen] at h
              obtain ⟨r', hr', rfl⟩ := Option.map_eq_some_iff.mp h
              rcases ih hr' with ⟨hzero, hall⟩ | ⟨hmem, hpre, hlt⟩
              · exact .inl ⟨hzero, by rw [hall, List.take_append_drop]⟩
              · refine .inr ⟨List.mem_cons_of_mem _ hmem, ?_, ?_⟩
                · obtain ⟨rest, hrest⟩ := hpre
                  refine ⟨rest, ?_⟩
                  rw [List.append_assoc, hrest, List.take_append_drop]
                · rw [List.length_drop] at hlt
                  rw [List.length_append, List.length_take]
                  omega
          | failed errno =>
              rw [writen] at h
              -- an error that is retried writes nothing
              split at h
              · obtain rfl := Option.some.inj h
                exact .inr ⟨List.mem_cons_self, List.nil_prefix, Nat.succ_pos _⟩
              · rcases ih h with hall | ⟨hmem, hrest⟩
                · exact .inl hall
                · exact .inr ⟨List.mem_cons_of_mem _ hmem, hrest⟩

/-! ### Reading -/

/-- What a call of `read` does: it gives at most `n + 1` bytes, and none at the end of the stream
only, or fails with `errno`. -/
inductive Read where
  | gives (n : ℕ)
  | failed (errno : ℕ)
  deriving DecidableEq

/-- `readn` of a stream: what is in the buffer, and what is returned. -/
def readn : ℕ → List UInt8 → List Read → Option (List UInt8 × ℤ)
  | 0, _, _ => some ([], 0)
  | _ + 1, _, [] => none
  | size + 1, stream, .gives n :: rs =>
    let bytes := stream.take (min (n + 1) (size + 1))
    if bytes.length > 0 then
      (readn (size + 1 - bytes.length) (stream.drop bytes.length) rs).map fun r =>
        (bytes ++ r.1, r.2)
    else some ([], -1)
  | size + 1, stream, .failed errno :: rs =>
    if EAGAIN ≠ errno ∧ EINTR ≠ errno then some ([], errno) else readn (size + 1) stream rs

theorem readn_end (size n : ℕ) (rs : List Read) :
    readn (size + 1) [] (.gives n :: rs) = some ([], -1) := by
  rw [readn, List.take_nil]
  rfl

/-- **One read** makes the stream and the rest shorter. -/
theorem readn_gives (size n : ℕ) (stream : List UInt8) (rs : List Read) (h : stream ≠ []) :
    ∃ k, 0 < k ∧ k ≤ size + 1 ∧ k ≤ stream.length ∧
      readn (size + 1) stream (.gives n :: rs) =
        (readn (size + 1 - k) (stream.drop k) rs).map fun r => (stream.take k ++ r.1, r.2) := by
  have hpos := List.length_pos_iff.mpr h
  obtain ⟨k, hk⟩ : ∃ k, k = min (min (n + 1) (size + 1)) stream.length := ⟨_, rfl⟩
  have hbytes : stream.take (min (n + 1) (size + 1)) = stream.take k := by
    rw [List.take_eq_take_min, hk]
  have hlen : (stream.take k).length = k := by rw [List.length_take]; omega
  refine ⟨k, by omega, by omega, by omega, ?_⟩
  rw [readn, hbytes]
  simp only [hlen]
  exact if_pos (by omega)

/-- It returns if there are as many reads as bytes. -/
theorem readn_returns {rs : List Read} (hgives : ∀ r ∈ rs, ∃ n, r = .gives n) {size : ℕ}
    {stream : List UInt8} (h : size ≤ rs.length) : (readn size stream rs).isSome := by
  induction rs generalizing size stream with
  | nil =>
      obtain rfl := Nat.le_zero.mp h
      rfl
  | cons r rs ih =>
      obtain ⟨⟨n, rfl⟩, hrest⟩ := List.forall_mem_cons.mp hgives
      rw [List.length_cons] at h
      cases size with
      | zero => rfl
      | succ size =>
          rcases eq_or_ne stream [] with rfl | hne
          · rw [readn_end]
            rfl
          · obtain ⟨k, hk, -, -, hread⟩ := readn_gives size n stream rs hne
            rw [hread, Option.isSome_map]
            exact ih hrest (by omega)

/-- **What `readn` returns** is 0 with the first bytes of the stream, -1 with all of a stream that
has less, or the error of a call. -/
theorem readn_spec {rs : List Read} {size : ℕ} {stream : List UInt8} {r : List UInt8 × ℤ}
    (h : readn size stream rs = some r) :
    (r.2 = 0 ∧ r.1 = stream.take size ∧ size ≤ stream.length) ∨
      (r.2 = -1 ∧ r.1 = stream ∧ stream.length < size) ∨
      ∃ errno : ℕ, r.2 = errno ∧ .failed errno ∈ rs := by
  induction rs generalizing size stream r with
  | nil =>
      cases size with
      | zero =>
          obtain rfl := Option.some.inj h
          exact .inl ⟨rfl, rfl, Nat.zero_le _⟩
      | succ size => cases h
  | cons c rs ih =>
      cases size with
      | zero =>
          obtain rfl := Option.some.inj h
          exact .inl ⟨rfl, rfl, Nat.zero_le _⟩
      | succ size =>
          cases c with
          | gives n =>
              -- at the end of the stream `read` gives 0
              rcases eq_or_ne stream [] with rfl | hne
              · rw [readn_end] at h
                obtain rfl := Option.some.inj h
                exact .inr (.inl ⟨rfl, rfl, Nat.succ_pos _⟩)
              · obtain ⟨k, hk, hsize, hlen, hread⟩ := readn_gives size n stream rs hne
                rw [hread] at h
                obtain ⟨r', hr', rfl⟩ := Option.map_eq_some_iff.mp h
                rcases ih hr' with ⟨hzero, hbytes, hle⟩ | ⟨hend, hbytes, hlt⟩ | ⟨errno, he, hmem⟩
                · rw [List.length_drop] at hle
                  refine .inl ⟨hzero, ?_, by omega⟩
                  have hsum : k + (size + 1 - k) = size + 1 := by omega
                  rw [hbytes, ← hsum, List.take_add]
                  simp
                · rw [List.length_drop] at hlt
                  refine .inr (.inl ⟨hend, ?_, by omega⟩)
                  rw [hbytes, List.take_append_drop]
                · exact .inr (.inr ⟨errno, he, List.mem_cons_of_mem _ hmem⟩)
          -- an error that is not retried is returned
          | failed errno =>
              rw [readn] at h
              split at h
              · obtain rfl := Option.some.inj h
                exact .inr (.inr ⟨errno, rfl, List.mem_cons_self⟩)
              · rcases ih h with hall | hend | ⟨e, he, hmem⟩
                · exact .inl hall
                · exact .inr (.inl hend)
                · exact .inr (.inr ⟨e, he, List.mem_cons_of_mem _ hmem⟩)

/-! ### Both -/

/-- **Main result.**  Where no call that fails leaves `errno` 0: `writen` returns 0 with all bytes of
the buffer written, or the error of a call that failed with a proper prefix of them; `readn` returns
0 with the first bytes of the stream in the buffer, -1 where the stream has ended before them, or
the error of a call that failed. -/
theorem transfers_whole {bytes : List UInt8} {ws : List Write} {r : List UInt8 × ℕ × List Write}
    {size : ℕ} {stream : List UInt8} {rs : List Read} {r' : List UInt8 × ℤ}
    (hwrite : ∀ errno, .failed errno ∈ ws → errno ≠ 0) (hw : writen bytes ws = some r)
    (hread : ∀ errno, .failed errno ∈ rs → errno ≠ 0) (hr : readn size stream rs = some r') :
    (r.2.1 = 0 → r.1 = bytes) ∧
      (r.2.1 ≠ 0 → .failed r.2.1 ∈ ws ∧ r.1 <+: bytes ∧ r.1.length < bytes.length) ∧
      (r'.2 = 0 → r'.1 = stream.take size ∧ r'.1.length = size) ∧
      (r'.2 = -1 → r'.1 = stream ∧ stream.length < size) ∧
      (r'.2 ≠ 0 → r'.2 ≠ -1 → ∃ errno : ℕ, r'.2 = errno ∧ .failed errno ∈ rs) := by
  refine ⟨fun hzero => ?_, fun hne => ?_, fun hzero => ?_, fun hend => ?_, fun hne hall => ?_⟩
  · rcases writen_spec hw with h | h
    · exact h.2
    · exact absurd hzero (hwrite _ h.1)
  · rcases writen_spec hw with h | h
    · exact absurd h.1 hne
    · exact h
  · rcases readn_spec hr with ⟨-, hbytes, hle⟩ | ⟨hend, -, -⟩ | ⟨errno, he, hmem⟩
    · exact ⟨hbytes, by rw [hbytes, List.length_take, Nat.min_eq_left hle]⟩
    · rw [hzero] at hend
      cases hend
    · exact absurd (Int.natCast_eq_zero.mp (he.symm.trans hzero)) (hread errno hmem)
  · rcases readn_spec hr with ⟨hzero, -, -⟩ | ⟨-, hall⟩ | ⟨errno, he, -⟩
    · rw [hend] at hzero
      cases hzero
    · exact hall
    · omega
  · rcases readn_spec hr with ⟨hzero, -, -⟩ | ⟨hend, -, -⟩ | herror
    · exact absurd hzero hne
    · exact absurd hend hall
    · exact herror

/-- Three bytes in two parts, with a retry between them: both return 0. -/
theorem transfers_whole_three : ∃ r r',
    writen [1, 2, 3] [.wrote 2, .failed EINTR, .wrote 1] = some r ∧
      readn 3 [1, 2, 3, 4] [.gives 1, .failed EAGAIN, .gives 1] = some r' ∧
      r.2.1 = 0 ∧ r.1 = [1, 2, 3] ∧ r'.2 = 0 ∧ r'.1 = [1, 2, 3] := by
  have hwrite : writen [1, 2, 3] [.wrote 2, .failed EINTR, .wrote 1] =
    some ([1, 2, 3], 0, []) := by decide
  have hread : readn 3 [1, 2, 3, 4] [.gives 1, .failed EAGAIN, .gives 1] =
    some ([1, 2, 3], 0) := by decide
  obtain ⟨hbytes, -, hbuffer, -, -⟩ :=
    transfers_whole (by simp [EINTR]) hwrite (by simp [EAGAIN]) hread
  exact ⟨_, _, hwrite, hread, rfl, hbytes rfl, rfl, (hbuffer rfl).1⟩

end VulcanDB.Common
