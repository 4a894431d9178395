import OsUnix.Kernel.DescriptorTable
import Mathlib.Data.Finset.Range
import Mathlib.Data.UInt

/-!
# Leaving the descriptors behind

What `daemonize` of `6-semestr/lab1/daemon.c` and of `6-semestr/lab4/part1/daemonize.c` does with
its descriptors, in the process that is left after `fork`.
-/

namespace OsUnix.Daemon
open Kernel

inductive File
  | null
  | log
  | other (n : Nat)
deriving DecidableEq

inductive Outcome
  | exited
  | returned (t : Table File)

def rlimInfinity : UInt64 := 0xFFFFFFFFFFFFFFFF

def closeLimit (rlimMax : UInt64) : Nat :=
  if rlimMax = rlimInfinity then 1024 else rlimMax.toNat

/-- The last `n` rounds of the loop, from `i` on. An overflow of `i` has no result. -/
def closing : Nat → Nat → Table File → Option (Table File)
  | 0, _, t => some t
  | n + 1, i, t => if i + 1 < 2 ^ 31 then closing n (i + 1) (t.close i) else none

def attach (t : Table File) : Outcome :=
  let fd0 := t.install .null
  let fd1 := fd0.2.dup 0
  let fd2 := fd1.2.dup 0
  if fd0.1 ≠ 0 ∨ fd1.1 ≠ 1 ∨ fd2.1 ≠ 2 then .exited else .returned fd2.2

def detach (rlimMax : UInt64) (t : Table File) : Option Outcome :=
  (closing (closeLimit rlimMax) 0 t).map attach

/-- The first message makes the connection, if there is a daemon that takes it. -/
def syslog (listening : Bool) (t : Table File) : Table File :=
  if listening then (t.install .log).2 else t

def log (listening : Bool) : Outcome → Outcome
  | .exited => .exited
  | .returned t => .returned (syslog listening t)

namespace Lab1

def daemonize (listening : Bool) (rlimMax : UInt64) (t : Table File) : Option Outcome :=
  (detach rlimMax t).map (log listening)

end Lab1

namespace Lab4

def daemonize (rlimMax : UInt64) (t : Table File) : Option Outcome := detach rlimMax t

end Lab4

inductive Copy
  | lab1 (listening : Bool)
  | lab4
deriving DecidableEq, Repr

def Copy.daemonize : Copy → UInt64 → Table File → Option Outcome
  | .lab1 listening => Lab1.daemonize listening
  | .lab4 => Lab4.daemonize

def Copy.connects : Copy → Bool
  | .lab1 listening => listening
  | .lab4 => false

def Hygienic : Option Outcome → Prop
  | none => False
  | some .exited => True
  | some (.returned t) => t.opened = {0, 1, 2} ∧ ∀ fd ∈ t.opened, t.file fd = .null

end OsUnix.Daemon
