import OsUnix.Kernel.Component
import OsUnix.Kernel.Memory

/-!
# A chat by datagrams

The main loops of `6-semestr/lab6/part_01/client.c` and `server.c`, after the sockets have been set
up. Datagrams are not lost, and reach the server in any order.
-/

namespace OsUnix.DatagramChat
open Kernel

variable {ι : Type*}

def sizeBuffer : Nat := 100

/-- What `scanf("%s", message)` reads. -/
abbrev Word := { text : List UInt8 // text ≠ [] ∧ ∀ b ∈ text, isSpace b = false }

structure Datagram where
  word : List UInt8
  bytes : List UInt8
deriving DecidableEq

/-- `flight` has been sent and not received. The server has printed `printed` for the words
`received`. `stores` are those to the arrays of all clients and of the server. -/
structure Chat (ι : Type*) where
  message : ι → Memory
  buffer : Memory
  flight : List Datagram
  printed : List (List UInt8)
  received : List (List UInt8)
  stores : Accesses

def Chat.start (message : ι → Memory) (buffer : Memory) : Chat ι :=
  { message, buffer, flight := [], printed := [], received := [], stores := [] }

inductive Event (ι : Type*)
  | type (i : ι) (word : Word)
  | receive (k : Nat)

def Event.word : Event ι → Option (List UInt8)
  | .type _ word => some word.val
  | .receive _ => none

namespace Chat

def client [DecidableEq ι] (s : Chat ι) (i : ι) (word : List UInt8) : Chat ι :=
  let stores := Accesses.place 0 (word ++ [0])
  let message := (s.message i).store stores
  { s with
    message := Function.update s.message i message
    flight := s.flight ++ [⟨word, cstring (message.slice 0 (word.length + 1))⟩]
    stores := s.stores ++ stores }

def server (s : Chat ι) (k : Nat) : Option (Chat ι) :=
  match s.flight[k]? with
  | none => none
  | some datagram =>
      let data := datagram.bytes.take sizeBuffer
      let stores := Accesses.place 0 data ++ [((data.length : Int), 0)]
      let buffer := s.buffer.store stores
      some { s with
        buffer
        flight := s.flight.eraseIdx k
        printed := s.printed ++ [cstring (buffer.slice 0 (data.length + 1))]
        received := s.received ++ [datagram.word]
        stores := s.stores ++ stores }

def step [DecidableEq ι] (s : Chat ι) : Event ι → Option (Chat ι)
  | .type i word => some (s.client i word.val)
  | .receive k => s.server k

end Chat

def chat [DecidableEq ι] (message : ι → Memory) (buffer : Memory) :
    Component (Chat ι) (Event ι) Unit :=
  .silent (.start message buffer) Chat.step

end OsUnix.DatagramChat
