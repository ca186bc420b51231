import VulcanDB.Server.Connection
import Mathlib.Logic.Relation

/-!
# Server — One request, one response

A connection as its peer knows it, in the mode where the peer sends a command only once the last
one is answered.  What counts is the NULs that end the commands and the responses.

* `Sound.step`: what every step of such an exchange keeps.
* `Sound.owed_of_readable`: where there is something to read, no response is owed.
-/

namespace VulcanDB.Server

/-! ### The socket -/

namespace Socket

/-- The commands that the peer has sent. -/
def commands (k : Socket) : ℕ := k.sent.count 0

/-- The commands that are still to be read. -/
def pending (k : Socket) : ℕ := k.incoming.count 0

/-- The responses written to the peer. -/
def answers (k : Socket) : ℕ := k.received.count 0

/-- Every command that the peer has sent is answered. -/
def Answered (k : Socket) : Prop := k.commands ≤ k.answers

instance (k : Socket) : Decidable k.Answered := by unfold Answered; infer_instance

variable (k : Socket)

@[simp] theorem commands_send (b : UInt8) : (k.send b).commands = k.commands + [b].count 0 :=
  List.count_append

@[simp] theorem answers_send (b : UInt8) : (k.send b).answers = k.answers := rfl

theorem pending_send (h : k.taken ≤ k.sent.length) (b : UInt8) :
    (k.send b).pending = k.pending + [b].count 0 := by
  rw [pending, incoming, send, List.drop_append_of_le_length h, List.count_append]
  rfl

@[simp] theorem commands_read (n : ℕ) : (k.read n).commands = k.commands := rfl

@[simp] theorem answers_read (n : ℕ) : (k.read n).answers = k.answers := rfl

theorem taken_read {k : Socket} (h : k.taken ≤ k.sent.length) {n : ℕ} (hn : n ≤ k.incoming.length) :
    (k.read n).taken ≤ (k.read n).sent.length := by
  rw [incoming, List.length_drop] at hn
  dsimp only [read]
  omega

/-- What is read was to be read. -/
theorem pending_read (n : ℕ) : k.pending = (k.incoming.take n).count 0 + (k.read n).pending := by
  have hdrop : (k.read n).incoming = k.incoming.drop n := (List.drop_drop ..).symm
  rw [pending, pending, hdrop, ← List.count_append, List.take_append_drop]

@[simp] theorem commands_write (bytes : List UInt8) : (k.write bytes).commands = k.commands := rfl

@[simp] theorem pending_write (bytes : List UInt8) : (k.write bytes).pending = k.pending := rfl

@[simp] theorem answers_write (bytes : List UInt8) :
    (k.write bytes).answers = k.answers + bytes.count 0 := List.count_append

/-- What has been sent and not read ends as what has been sent does. -/
theorem pending_pos {k : Socket} (h : k.incoming ≠ []) (hl : k.sent.getLast? = some 0) :
    0 < k.pending := by
  have hlt : ¬ k.sent.length ≤ k.taken := fun hle => h (List.drop_eq_nil_iff.mpr hle)
  refine List.count_pos_iff.mpr (List.mem_of_getLast? ?_)
  rw [incoming, List.getLast?_drop, if_neg hlt, hl]

end Socket

/-! ### The exchange -/

/-- One connection, seen from both ends. -/
structure Exchange where
  socket : Socket
  /-- `recv` is under way; `some true` if it has a whole command. -/
  recv : Option Bool
  /-- The events of the connection whose response is still to be written. -/
  owed : ℕ

namespace Exchange

/-- Nothing is under way. -/
def new : Exchange := ⟨.new, none, 0⟩

/-- The command that `recv` has read. -/
def heard : Option Bool → ℕ
  | some true => 1
  | _ => 0

/-- What happens on a connection. -/
inductive Step : Exchange → Exchange → Prop
  | send {k r o} (b : UInt8) (ha : k.Answered) (hu : k.hungUp = false) :
      Step ⟨k, r, o⟩ ⟨k.send b, r, o⟩
  | hangUp {k r o} (ha : k.Answered) : Step ⟨k, r, o⟩ ⟨{ k with hungUp := true }, r, o⟩
  | dispatch {k o} (hr : k.incoming ≠ [] ∨ k.hungUp = true) :
      Step ⟨k, none, o⟩ ⟨k, some false, o⟩
  | read {k n o} (hn : n ≤ k.incoming.length) (hz : 0 ∉ k.incoming.take n) :
      Step ⟨k, some false, o⟩ ⟨k.read n, some false, o⟩
  | command {k n o} (hn : n ≤ k.incoming.length) (hz : 0 ∈ k.incoming.take n) :
      Step ⟨k, some false, o⟩ ⟨k.read n, some true, o⟩
  | create {k o} : Step ⟨k, some true, o⟩ ⟨k, none, o + 1⟩
  | close {k o} : Step ⟨k, some false, o⟩ ⟨k, none, o⟩
  | reply {k r o} {bytes : List UInt8} (hb : bytes.count 0 ≤ 1) :
      Step ⟨k, r, o + 1⟩ ⟨k.write bytes, r, o⟩

/-- At most one command is without its response: it is on its way, or read, or its response is
owed. -/
structure Sound (x : Exchange) : Prop where
  taken : x.socket.taken ≤ x.socket.sent.length
  balance : x.socket.answers + x.socket.pending + heard x.recv + x.owed ≤ x.socket.commands
  single : x.socket.commands ≤ x.socket.answers + 1
  last : ¬ x.socket.Answered → x.socket.sent.getLast? = some 0
  hungUp : x.socket.hungUp = true → x.socket.Answered
  recv : x.recv ≠ none → x.owed = 0

theorem sound_new : Sound new :=
  ⟨le_rfl, le_rfl, Nat.zero_le _, fun h => absurd le_rfl h, fun h => absurd h Bool.false_ne_true,
    fun _ => rfl⟩

/-- **Where there is something to read, no response is owed.** -/
theorem Sound.owed_of_readable {x : Exchange} (h : x.Sound)
    (hr : x.socket.incoming ≠ [] ∨ x.socket.hungUp = true) : x.owed = 0 := by
  have hbalance := h.balance
  have hsingle := h.single
  by_contra howed
  rcases hr with hr | hr
  · -- the command that is owed a response was the last thing sent, and it has been read
    have hlast := h.last fun ha => by unfold Socket.Answered at ha; omega
    have := Socket.pending_pos hr hlast
    omega
  · have := h.hungUp hr
    unfold Socket.Answered at this
    omega

/-- **What every step of an exchange keeps.** -/
theorem Sound.step {x x' : Exchange} (h : x.Sound) (hs : Step x x') : x'.Sound := by
  have hreadable := h.owed_of_readable
  obtain ⟨htaken, hbalance, hsingle, hlast, hhung, hrecv⟩ := h
  cases hs with
  | @send k r o b ha hu =>
      have hone : [b].count 0 ≤ 1 := List.count_le_length
      have hsent : (k.send b).sent = k.sent ++ [b] := rfl
      dsimp only [Socket.Answered] at *
      refine ⟨?_, ?_, ?_, fun hna => ?_, fun hu' => ?_, hrecv⟩
      · rw [hsent, List.length_append]
        exact Nat.le_add_right_of_le htaken
      · dsimp only
        rw [k.answers_send, k.pending_send htaken, k.commands_send]
        omega
      · dsimp only
        rw [k.commands_send, k.answers_send]
        omega
      · -- it is the byte just sent that ends a command
        dsimp only [Socket.Answered] at hna ⊢
        rw [k.commands_send, k.answers_send] at hna
        have hpos : 0 < [b].count 0 := by omega
        obtain rfl := List.mem_singleton.mp (List.count_pos_iff.mp hpos)
        rw [hsent, List.getLast?_concat]
      · rw [show (k.send b).hungUp = k.hungUp from rfl, hu] at hu'
        cases hu'
  | hangUp ha => exact ⟨htaken, hbalance, hsingle, hlast, fun _ => ha, hrecv⟩
  | dispatch hr => exact ⟨htaken, hbalance, hsingle, hlast, hhung, fun _ => hreadable hr⟩
  | @read k n o hn hz =>
      have hpending := k.pending_read n
      rw [List.count_eq_zero.mpr hz, Nat.zero_add] at hpending
      refine ⟨Socket.taken_read htaken hn, ?_, hsingle, hlast, hhung, hrecv⟩
      dsimp only at hbalance ⊢
      rwa [hpending] at hbalance
  | @command k n o hn hz =>
      have hpending := k.pending_read n
      have hpos := List.count_pos_iff.mpr hz
      refine ⟨Socket.taken_read htaken hn, ?_, hsingle, hlast, hhung, fun _ => hrecv (by simp)⟩
      dsimp only [heard] at hbalance ⊢
      rw [k.answers_read, k.commands_read]
      omega
  | create =>
      have howed := hrecv (by simp)
      refine ⟨htaken, ?_, hsingle, hlast, hhung, fun h => absurd rfl h⟩
      dsimp only [heard] at hbalance ⊢
      omega
  | close => exact ⟨htaken, hbalance, hsingle, hlast, hhung, fun h => absurd rfl h⟩
  | @reply k r o bytes hb =>
      dsimp only [Socket.Answered] at *
      have hnone : r = none := by
        by_contra hr
        exact Nat.succ_ne_zero o (hrecv hr)
      subst hnone
      have hanswers := k.answers_write bytes
      refine ⟨htaken, ?_, ?_, fun hna => hlast fun ha => hna ?_, fun hu => ?_, fun h => absurd rfl h⟩
      · dsimp only
        rw [k.pending_write, k.commands_write]
        omega
      · dsimp only
        rw [k.commands_write]
        omega
      · dsimp only [Socket.Answered]
        rw [k.commands_write]
        omega
      · have := hhung hu
        dsimp only [Socket.Answered]
        rw [k.commands_write]
        omega

/-- **However long it goes on**, by induction on the steps. -/
theorem sound_of_path {x : Exchange} (h : Relation.ReflTransGen Step new x) : Sound x := by
  induction h with
  | refl => exact sound_new
  | tail _ hs ih => exact ih.step hs

end Exchange

end VulcanDB.Server
