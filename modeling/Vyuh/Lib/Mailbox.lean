import Mathlib

/-! A bounded single-consumer queue, as `tokio::sync::mpsc` has it: senders never wait (`trySend`), the
    receiver takes from the front, and a dropped receiver closes the queue. `sent` keeps everything the
    queue ever accepted, in order; what the receiver has taken is its first `taken` items. -/

namespace Lib

structure Mailbox (α : Type) where
  capacity : ℕ
  sent : List α
  taken : ℕ
  closed : Bool
  deriving DecidableEq

namespace Mailbox

variable {α : Type}

def new (capacity : ℕ) : Mailbox α := { capacity, sent := [], taken := 0, closed := false }

/-- The items waiting for the receiver. -/
def buffered (m : Mailbox α) : List α := m.sent.drop m.taken

/-- The items the receiver has taken. -/
def received (m : Mailbox α) : List α := m.sent.take m.taken

/-- Whether a `try_send` is accepted: neither `Full` nor `Closed`. -/
def accepts (m : Mailbox α) : Bool := !m.closed && m.buffered.length < m.capacity

def push (m : Mailbox α) (a : α) : Mailbox α := { m with sent := m.sent ++ [a] }

/-- `try_send`. -/
def trySend (m : Mailbox α) (a : α) : Option (Mailbox α) := if m.accepts then some (m.push a) else none

/-- The receiver takes the next item, if there is one. -/
def recv (m : Mailbox α) : Mailbox α :=
  if m.taken < m.sent.length then { m with taken := m.taken + 1 } else m

/-- The receiver is dropped. -/
def close (m : Mailbox α) : Mailbox α := { m with closed := true }

@[simp] theorem recv_sent (m : Mailbox α) : m.recv.sent = m.sent := by
  rw [recv]
  split <;> rfl

@[simp] theorem close_sent (m : Mailbox α) : m.close.sent = m.sent := rfl

@[simp] theorem push_sent (m : Mailbox α) (a : α) : (m.push a).sent = m.sent ++ [a] := rfl

@[simp] theorem recv_closed (m : Mailbox α) : m.recv.closed = m.closed := by
  rw [recv]
  split <;> rfl

@[simp] theorem new_sent (capacity : ℕ) : (new capacity : Mailbox α).sent = [] := rfl

end Mailbox

end Lib
