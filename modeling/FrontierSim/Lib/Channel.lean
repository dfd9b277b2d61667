import Mathlib.Data.List.Basic

/-!
# An unbounded FIFO channel with its history

A `Channel` keeps everything that was sent, in order, and how much of it was received.
What is in flight is the rest. So a statement about the past of a channel is a statement
about its state.
-/

set_option autoImplicit false

namespace Lib

/-- A FIFO channel, with its whole history: all that was ever sent, and how much of it was
received. What is still in the channel is the rest. -/
structure Channel (α : Type) where
  sent : List α
  received : Nat
  deriving DecidableEq

namespace Channel

variable {α : Type}

/-- The channel to which nothing was sent. -/
def empty : Channel α := ⟨[], 0⟩

/-- A value is appended. Sending never blocks. -/
def send (ch : Channel α) (x : α) : Channel α := { ch with sent := ch.sent ++ [x] }

/-- Several values are appended in a row. -/
def sendAll (ch : Channel α) (xs : List α) : Channel α := { ch with sent := ch.sent ++ xs }

/-- The oldest value in flight. -/
def recv (ch : Channel α) : Option (α × Channel α) :=
  ch.sent[ch.received]?.map fun x => (x, { ch with received := ch.received + 1 })

/-- The values received so far, in order. -/
def past (ch : Channel α) : List α := ch.sent.take ch.received

/-- The values in flight, oldest first. -/
def future (ch : Channel α) : List α := ch.sent.drop ch.received

/-- Nothing was received from an empty channel. -/
@[simp] theorem past_empty : (empty : Channel α).past = [] := rfl

/-- The values are the last ones that were sent. -/
@[simp] theorem sent_sendAll (ch : Channel α) (xs : List α) :
    (ch.sendAll xs).sent = ch.sent ++ xs := rfl

/-- Sending does not touch the receiver. -/
@[simp] theorem received_sendAll (ch : Channel α) (xs : List α) :
    (ch.sendAll xs).received = ch.received := rfl

/-- A receive takes the oldest value that was not received, and counts it. -/
theorem recv_eq_some {ch ch' : Channel α} {x : α} :
    ch.recv = some (x, ch') ↔
      ch.sent[ch.received]? = some x ∧ ch' = { ch with received := ch.received + 1 } := by
  unfold recv
  rw [Option.map_eq_some_iff]
  constructor
  · rintro ⟨y, hy, heq⟩
    cases heq
    exact ⟨hy, rfl⟩
  · rintro ⟨hx, rfl⟩
    exact ⟨x, hx, rfl⟩

/-- Receiving moves one value from the future to the past. -/
theorem past_recv {ch ch' : Channel α} {x : α} (h : ch.recv = some (x, ch')) :
    ch'.past = ch.past ++ [x] ∧ ch'.sent = ch.sent := by
  obtain ⟨hx, rfl⟩ := recv_eq_some.mp h
  refine ⟨?_, rfl⟩
  unfold past
  rw [List.take_add_one, hx]
  rfl

/-- The value received is the oldest in flight. -/
theorem future_recv {ch ch' : Channel α} {x : α} (h : ch.recv = some (x, ch')) :
    ch.future = x :: ch'.future := by
  obtain ⟨hx, rfl⟩ := recv_eq_some.mp h
  obtain ⟨hlt, rfl⟩ := List.getElem?_eq_some_iff.mp hx
  exact List.drop_eq_getElem_cons hlt

/-- No more was received than was sent. -/
def Bounded (ch : Channel α) : Prop := ch.received ≤ ch.sent.length

/-- The receiver of an empty channel is not ahead. -/
theorem bounded_empty : (empty : Channel α).Bounded := Nat.le_refl 0

/-- Sending leaves the receiver behind the senders. -/
theorem Bounded.sendAll {ch : Channel α} (h : ch.Bounded) (xs : List α) :
    (ch.sendAll xs).Bounded := by
  unfold Bounded at *
  rw [received_sendAll, sent_sendAll, List.length_append]
  omega

/-- Sending one value is sending a list of one. -/
theorem Bounded.send {ch : Channel α} (h : ch.Bounded) (x : α) : (ch.send x).Bounded :=
  h.sendAll [x]

/-- A receiver takes only what was sent. -/
theorem Bounded.recv {ch ch' : Channel α} {x : α} (_ : ch.Bounded)
    (hrecv : ch.recv = some (x, ch')) : ch'.Bounded := by
  obtain ⟨hx, rfl⟩ := recv_eq_some.mp hrecv
  exact (List.getElem?_eq_some_iff.mp hx).1

/-- Sending leaves the past as it is. -/
theorem Bounded.past_sendAll {ch : Channel α} (h : ch.Bounded) (xs : List α) :
    (ch.sendAll xs).past = ch.past := by
  unfold past
  rw [sent_sendAll, received_sendAll, List.take_append_of_le_length h]

/-- What is sent goes behind what is in flight. -/
theorem Bounded.future_sendAll {ch : Channel α} (h : ch.Bounded) (xs : List α) :
    (ch.sendAll xs).future = ch.future ++ xs := by
  unfold future
  rw [sent_sendAll, received_sendAll, List.drop_append_of_le_length h]

end Channel

end Lib
