import OsUnix.Kernel.Component
import OsUnix.Kernel.Decimal
import OsUnix.Kernel.Flock

/-!
# The daemon

`daemonize` and `already_running` of `6-semestr/lab1/daemon.c`, one system call of one process at a
time. Opening the lock file succeeds, and so do `ftruncate` and `write` on it.
-/

namespace OsUnix.Daemon
open Kernel

variable {ι : Type*}

abbrev Pid := { n : Nat // 0 < n ∧ n < 2 ^ 31 }

def operation : Nat := lockEx ||| lockUn

/-- The next step of a process. `testing` is `errno == EWOULDBLOCK`. -/
inductive Stage
  | daemonize
  | opening
  | locking
  | testing
  | truncating
  | printing
  | writing
  | returning
  | returned
  | exited
  | terminated
deriving DecidableEq, Repr

structure Process where
  stage : Stage
  errno : Option Errno
  offset : Nat
  buf : List UInt8

structure System (ι : Type*) where
  process : ι → Process
  lock : FileLock ι
  file : List UInt8

/-- `errno` is as `daemonize` leaves it, `file` as earlier daemons have left it. -/
structure Setting (ι : Type*) where
  pid : ι → Pid
  errno : ι → Option Errno
  file : List UInt8

namespace Setting

def text (c : Setting ι) (i : ι) : List UInt8 := decimal (c.pid i).val ++ [0]

def start (c : Setting ι) : System ι where
  process _ := { stage := .daemonize, errno := none, offset := 0, buf := [] }
  lock := .unlocked
  file := c.file

end Setting

def writeAt (file : List UInt8) (offset : Nat) (bytes : List UInt8) : List UInt8 :=
  file.take offset ++ List.replicate (offset - file.length) 0 ++ bytes ++
    file.drop (offset + bytes.length)

def strlen (buf : List UInt8) : Nat := (buf.takeWhile (· != 0)).length

namespace System

variable [DecidableEq ι]

def set (s : System ι) (i : ι) (p : Process) : System ι :=
  { s with process := Function.update s.process i p }

def leave (s : System ι) (i : ι) (stage : Stage) : System ι :=
  -- what the process has open is closed
  { s.set i { s.process i with stage } with lock := s.lock.release i }

/-- The child of `fork` goes on, with every descriptor closed. When `fork` fails the caller does. -/
def daemonize (c : Setting ι) (s : System ι) (i : ι) : System ι :=
  s.set i { s.process i with stage := .opening, errno := c.errno i }

def openLock (s : System ι) (i : ι) : System ι :=
  s.set i { s.process i with stage := .locking, offset := 0 }

def flock (s : System ι) (i : ι) : Option (System ι) :=
  (s.lock.flock i operation).map fun (lock, failure) =>
    { s.set i { s.process i with
        stage := .testing
        errno := failure <|> (s.process i).errno } with lock }

def test (s : System ι) (i : ι) : System ι :=
  if (s.process i).errno = some .ewouldblock then s.leave i .exited
  else s.set i { s.process i with stage := .truncating }

def ftruncate (s : System ι) (i : ι) : System ι :=
  { s.set i { s.process i with stage := .printing } with file := [] }

def sprintf (c : Setting ι) (s : System ι) (i : ι) : System ι :=
  s.set i { s.process i with stage := .writing, buf := c.text i }

def write (s : System ι) (i : ι) : System ι :=
  let bytes := (s.process i).buf.take (strlen (s.process i).buf + 1)
  { s.set i { s.process i with
      stage := .returning
      offset := (s.process i).offset + bytes.length } with
    file := writeAt s.file (s.process i).offset bytes }

def run (c : Setting ι) (s : System ι) (i : ι) : Option (System ι) :=
  match (s.process i).stage with
  | .daemonize => some (s.daemonize c i)
  | .opening => some (s.openLock i)
  | .locking => s.flock i
  | .testing => some (s.test i)
  | .truncating => some (s.ftruncate i)
  | .printing => some (s.sprintf c i)
  | .writing => some (s.write i)
  | .returning => some (s.set i { s.process i with stage := .returned })
  | .returned => some s
  | .exited | .terminated => none

end System

def Stage.live : Stage → Bool
  | .exited | .terminated => false
  | _ => true

inductive Event (ι : Type*)
  | run (i : ι)
  | terminate (i : ι)
deriving DecidableEq

def System.step [DecidableEq ι] (c : Setting ι) (s : System ι) : Event ι → Option (System ι)
  | .run i => s.run c i
  | .terminate i =>
      if (s.process i).stage.live = true then some (s.leave i .terminated) else none

def system [DecidableEq ι] (c : Setting ι) : Component (System ι) (Event ι) Unit :=
  .silent c.start (System.step c)

theorem zero_not_mem_decimal {n : Nat} : 0 ∉ decimal n := by
  intro mem
  have digit := isDigit_decimal mem
  cases digit

theorem take_text (c : Setting ι) (i : ι) : (c.text i).take (strlen (c.text i) + 1) = c.text i := by
  have length : strlen (c.text i) = (decimal (c.pid i).val).length := by
    rw [strlen, Setting.text, List.takeWhile_append_of_pos, List.takeWhile_cons_of_neg (by decide),
      List.append_nil]
    intro b mem
    exact bne_iff_ne.mpr fun zero => zero_not_mem_decimal (zero ▸ mem)
  rw [length]
  exact List.take_of_length_le (by simp [Setting.text])

theorem writeAt_empty (bytes : List UInt8) : writeAt [] 0 bytes = bytes := by
  simp [writeAt]

end OsUnix.Daemon
