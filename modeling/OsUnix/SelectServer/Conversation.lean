import OsUnix.SelectServer.Model

/-!
# A client and the server

The main loop of `6-semestr/lab6/part_02/client.c` against what `message` does for its descriptor,
over a stream of bytes each way. A line is sent with all of the buffer that `getline` keeps it in,
and nothing tells where a message ends.
-/

namespace OsUnix.SelectServer
open Kernel

def exit : List UInt8 := [101, 120, 105, 116, 10]

inductive Phase
  | typing
  | waiting
  | left
deriving DecidableEq, Repr

/-- `typed` is what is still to be typed, `toServer` and `toClient` are in flight, `messages` is
what the server has printed behind the pid, and `replies` what the client has read. -/
structure Conversation where
  typed : List (List UInt8)
  calls : Nat
  phase : Phase
  toServer : List UInt8
  toClient : List UInt8
  messages : List (List UInt8)
  replies : List UInt8
deriving DecidableEq

/-- A read takes `k` bytes from its stream; `buffer` is what the stack of `message` holds. -/
inductive Turn
  | type
  | serve (k : Nat) (buffer : List UInt8)
  | read (k : Nat)
deriving DecidableEq

def Read.of : List UInt8 → Read
  | [] => .eof
  | first :: rest => .bytes first rest

/-- `rest n` is what the buffer of the `n`-th `getline` holds behind the line and its zero. -/
def Conversation.turn (rest : Nat → List UInt8) (c : Conversation) : Turn → Option Conversation
  | .type =>
      match c.phase, c.typed with
      | .typing, line :: typed =>
          let buffer := line ++ 0 :: rest c.calls
          if cstring buffer = exit then some { c with typed, calls := c.calls + 1, phase := .left }
          else some { c with
            typed, calls := c.calls + 1, phase := .waiting, toServer := c.toServer ++ buffer }
      | _, _ => none
  | .serve k buffer =>
      if 0 < k ∧ k ≤ sizeBuffer ∧ k ≤ c.toServer.length then
        some { c with
          toServer := c.toServer.drop k
          toClient := c.toClient ++ good
          messages := c.messages ++ [cstring (received (.of (c.toServer.take k)) buffer)] }
      else none
  | .read k =>
      if c.phase = .waiting ∧ 0 < k ∧ k ≤ sizeBuffer ∧ k ≤ c.toClient.length then
        some { c with
          phase := .typing
          toClient := c.toClient.drop k
          replies := c.replies ++ c.toClient.take k }
      else none

def Conversation.start (lines : List (List UInt8)) : Conversation :=
  ⟨lines ++ [exit], 0, .typing, [], [], [], []⟩

def conversation (rest : Nat → List UInt8) (lines : List (List UInt8)) :
    Component Conversation Turn Unit :=
  .silent (.start lines) (Conversation.turn rest)

def Conversation.Complete (c : Conversation) : Prop := c.phase = .left ∧ c.toServer = []

structure RoundTrip (lines : List (List UInt8)) (c : Conversation) : Prop where
  messages : c.messages = lines
  replies : c.replies = (List.replicate lines.length good).flatten

def Typed (line : List UInt8) : Prop := ∃ text : List UInt8, 10 ∉ text ∧ line = text ++ [10]

end OsUnix.SelectServer
