import OsUnix.Concurrency.Refinement
import Mathlib.Data.List.Infix

/-!
# The bounded channel

What a bounded buffer is for: the items received are the first ones sent, in order, and at most
`capacity` items wait.
-/

namespace OsUnix.Concurrency

variable {α : Type*} {capacity : Nat}

@[ext] structure Channel (α : Type*) (capacity : Nat) where
  sent : List α
  received : List α
  ordered : received <+: sent
  bounded : sent.length ≤ received.length + capacity

namespace Channel

def empty : Channel α capacity := ⟨[], [], List.nil_prefix, by simp⟩

def send (c : Channel α capacity) (a : α) (room : c.sent.length < c.received.length + capacity) :
    Channel α capacity where
  sent := c.sent ++ [a]
  received := c.received
  ordered := c.ordered.trans (List.prefix_append _ _)
  bounded := by
    simp only [List.length_append, List.length_singleton]
    omega

theorem take_succ_prefix {c : Channel α capacity} (waiting : c.received.length < c.sent.length) :
    c.received ++ [c.sent[c.received.length]] <+: c.sent := by
  have taken : c.received = c.sent.take c.received.length := List.prefix_iff_eq_take.mp c.ordered
  have next : c.sent.take c.received.length ++ [c.sent[c.received.length]] =
      c.sent.take (c.received.length + 1) := List.take_append_getElem waiting
  rw [← taken] at next
  rw [next]
  exact List.take_prefix _ _

def receive (c : Channel α capacity) (waiting : c.received.length < c.sent.length) :
    Channel α capacity where
  sent := c.sent
  received := c.received ++ [c.sent[c.received.length]]
  ordered := take_succ_prefix waiting
  bounded := by
    have := c.bounded
    simp only [List.length_append, List.length_singleton]
    omega

inductive Operation : Channel α capacity → Channel α capacity → Prop
  | send {c : Channel α capacity} (a : α) (room : c.sent.length < c.received.length + capacity) :
      Operation c (c.send a room)
  | receive {c : Channel α capacity} (waiting : c.received.length < c.sent.length) :
      Operation c (c.receive waiting)

end Channel

def channel (α : Type*) (capacity : Nat) : Machine (Channel α capacity) :=
  ⟨.empty, Channel.Operation⟩

end OsUnix.Concurrency
