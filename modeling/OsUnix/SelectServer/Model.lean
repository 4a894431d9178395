import OsUnix.Kernel.Component
import OsUnix.Kernel.Decimal
import OsUnix.Kernel.Descriptors
import OsUnix.Kernel.Text
import Mathlib.Data.Finset.Insert

/-!
# The server

`connection`, `message` and the main loop of `6-semestr/lab6/part_02/server.c`, after the set-up has
succeeded. An iteration has what the kernel and the clients do meanwhile. What the C leaves
undefined has no result.
-/

namespace OsUnix.SelectServer
open Kernel

def sizeBuffer : Nat := 100

def clients : Nat := 100

def fdSetSize : Nat := 1024

inductive Read
  | bytes (first : UInt8) (rest : List UInt8)
  | eof
  | error (errno : Errno)
deriving DecidableEq

namespace Read

def data : Read → List UInt8
  | bytes first rest => (first :: rest).take sizeBuffer
  | eof | error _ => []

def errno : Read → Option Errno
  | error errno => some errno
  | bytes _ _ | eof => none

end Read

def received (read : Read) (buffer : List UInt8) : List UInt8 :=
  read.data ++ buffer.drop read.data.length

def good : List UInt8 := [103, 111, 111, 100]

/-- `descriptors` are those that `accept` has returned and that are still open, and `peer` has the
pid of the client at the other end. -/
structure Server where
  client : Nat → Int
  allset : Finset Nat
  maxi : Int
  maxfd : Nat
  pidClient : Nat → Int
  errno : Option Errno
  running : Bool
  descriptors : List Nat
  peer : Nat → Int

/-- `accept` is an error of `accept`; `reads` and `writes` are by descriptor; the two buffers are
what the stack holds from the buffers of `connection` and `message` on. -/
structure Iteration where
  ready : Finset Nat
  accept : Option Errno
  pid : Int
  handshake : Read
  reads : Nat → Read
  writes : Nat → Option Errno
  connectionBuffer : List UInt8
  messageBuffer : List UInt8

inductive Line
  | connected (pid : Int)
  | disconnected (pid : Int)
  | message (pid : Int) (text : List UInt8)
deriving DecidableEq

abbrev Log := List (Nat × Line)

def Server.start (sockfd : Nat) : Server where
  client _ := -1
  allset := {sockfd}
  maxi := -1
  maxfd := sockfd
  pidClient _ := 0
  errno := none
  running := true
  descriptors := []
  peer _ := 0

def Server.rset (s : Server) (it : Iteration) : Finset Nat :=
  s.allset.filter fun fd => fd ≤ s.maxfd ∧ fd ∈ it.ready

/-- The loop `do ... while (client[i] >= 0)`: the table and the index when it ends. `n` is how many
slots there are behind slot `i`. -/
def search (client : Nat → Int) (connfd : Int) : Nat → Nat → Option ((Nat → Int) × Nat)
  | 0, _ => none
  | n + 1, i =>
      let client := if client i < 0 then Function.update client i connfd else client
      if 0 ≤ client (i + 1) then search client connfd n (i + 1) else some (client, i + 1)

/-- `connection` after `accept` has returned `connfd`, with its return code. -/
def connected (connfd : Nat) (it : Iteration) (s : Server) :
    Option (Server × Log × Option Errno) :=
  (search s.client connfd (fdSetSize - 1) 0).bind fun (client, i) =>
    let s := { s with
      client
      descriptors := connfd :: s.descriptors
      peer := Function.update s.peer connfd it.pid }
    if i = fdSetSize then some (s, [], s.errno)
    else if connfd < fdSetSize ∧ i < clients then
      let buffer := received it.handshake it.connectionBuffer
      let errno := it.handshake.errno <|> s.errno
      some ({ s with
          allset := insert connfd s.allset
          maxfd := max s.maxfd connfd
          maxi := max s.maxi i
          pidClient := Function.update s.pidClient i (atoi buffer)
          errno := if outOfRange buffer then some .erange else errno },
        [(connfd, .connected (atoi buffer))], none)
    -- beyond their ends `FD_SET` and `pid_client[i] =` write to other memory
    else none

def connection (sockfd : Nat) (it : Iteration) (rset : Finset Nat) (s : Server) :
    Option (Server × Log) :=
  if sockfd ∈ rset then
    match it.accept with
    | some errno => some ({ s with errno := some errno }, [])
    | none =>
        (connected (lowestUnused s.descriptors (sockfd + 1)) it s).map fun (s, log, _) => (s, log)
  else some (s, [])

/-- One turn of the loop of `message`. The buffer keeps what a later read does not overwrite. -/
def visit (it : Iteration) (rset : Finset Nat) (i : Nat) (s : Server) (buffer : List UInt8) :
    Server × List UInt8 × Log :=
  let fd := (s.client i).toNat
  if 0 < s.client i ∧ fd ∈ rset then
    match it.reads fd with
    | .eof =>
        ({ s with
            client := Function.update s.client i (-1)
            allset := s.allset.erase fd
            descriptors := s.descriptors.erase fd },
          buffer, [(fd, .disconnected (s.pidClient i))])
    | read =>
        let buffer := received read buffer
        ({ s with errno := it.writes fd <|> read.errno <|> s.errno },
          buffer, [(fd, .message (s.pidClient i) (cstring buffer))])
  else (s, buffer, [])

def visits (it : Iteration) (rset : Finset Nat) : List Nat → Server → List UInt8 → Server × Log
  | [], s, _ => (s, [])
  | i :: rest, s, buffer =>
      let here := visit it rset i s buffer
      let later := visits it rset rest here.1 here.2.1
      (later.1, here.2.2 ++ later.2)

def message (it : Iteration) (rset : Finset Nat) (s : Server) : Server × Log :=
  visits it rset (List.range (s.maxi + 1).toNat) s it.messageBuffer

def iterate (sockfd : Nat) (s : Server) (it : Iteration) : Option (Server × Log) :=
  if s.running then
    let rset := s.rset it
    (connection sockfd it rset s).map fun (s, log) =>
      if s.errno.isSome then ({ s with running := false }, log)
      else
        let (s, more) := message it rset s
        ({ s with running := s.errno.isNone }, log ++ more)
  else some (s, [])

def server (sockfd : Nat) : Component Server Iteration Log where
  start := .start sockfd
  step := iterate sockfd

end OsUnix.SelectServer
