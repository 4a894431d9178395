import OsUnix.Kernel.Component
import Mathlib.Logic.Function.Basic
import Mathlib.Tactic.Common

/-!
# Processes that share a pipe

Processes that fork, wait for their children, write to a pipe and read from it, and print. A program
is a function from the places in its code to the system calls that are made there.
-/

namespace OsUnix.Kernel.Processes

/-- Of the children of `n`, `k :: n` is the one forked after `k` others. -/
abbrev Pid := List Nat

inductive Status
  | exited (code : Nat)
  | signaled (sig : Nat)
deriving DecidableEq, Repr

inductive End
  | reading | writing
deriving DecidableEq, Repr

/-- The next call of a process, and where it continues. `read` hands over `none` when it fails,
`wait` when there is no child. -/
inductive Call (L O : Type*)
  | step (next : L)
  | caught (next : Bool → L)
  | fork (child failed : L) (parent : Pid → L)
  | print (line : Pid → Option Pid → O) (newline : Bool) (next : L)
  | close (e : End) (next : L)
  | read (n : Nat) (next : Option (List UInt8) → L)
  | write (bytes : List UInt8) (next : L)
  | wait (next : Option (Pid × Status) → L)
  | exec (image failed : L)
  | image
  | exit (code : Nat)

/-- `caught` is set by the handler of a signal, `buffer` is what `stdout` has not written. -/
structure Proc (L O : Type*) where
  pc : L
  holds : End → Bool
  forks : Nat
  caught : Bool
  buffer : List O

inductive Entry (L O : Type*)
  | absent
  | running (p : Proc L O)
  | zombie (status : Status)

structure State (L O : Type*) where
  names : List Pid
  entry : Pid → Entry L O
  data : List UInt8
  out : List O

inductive Event
  | run (n : Pid)
  | fails (n : Pid)
  | reap (n : Pid) (k : Nat)
  | ends (n : Pid) (status : Status)
  -- a signal for which the program has installed a handler; without one it would end the process
  | signal (n : Pid)
deriving DecidableEq, Repr

inductive Answer
  | silent
  | got (n : Pid) (bytes : List UInt8)
  | wrote (n : Pid) (bytes : List UInt8)
deriving DecidableEq, Repr

variable {L O : Type*}

def Entry.holds (e : End) : Entry L O → Bool
  | .running p => p.holds e
  | _ => false

def Entry.isAbsent : Entry L O → Bool
  | .absent => true
  | _ => false

def Entry.isRunning : Entry L O → Bool
  | .running _ => true
  | _ => false

def capacity : Nat := 65536

namespace State

def Held (s : State L O) (e : End) : Prop := ∃ n ∈ s.names, (s.entry n).holds e = true

instance (s : State L O) (e : End) : Decidable (s.Held e) :=
  inferInstanceAs (Decidable (∃ n ∈ s.names, (s.entry n).holds e = true))

def set (s : State L O) (n : Pid) (e : Entry L O) : State L O :=
  { s with entry := Function.update s.entry n e }

def goto (s : State L O) (n : Pid) (p : Proc L O) (l : L) : State L O :=
  s.set n (.running { p with pc := l })

def parent (s : State L O) : Pid → Option Pid
  | [] => none
  | _ :: n => if (s.entry n).isRunning then some n else none

def hasChild (s : State L O) (n : Pid) (forks : Nat) : Bool :=
  (List.range forks).any fun k => !(s.entry (k :: n)).isAbsent

/-- A process that exits writes what `stdout` holds. -/
def exit (s : State L O) (n : Pid) (p : Proc L O) (code : Nat) : State L O :=
  { s.set n (.zombie (.exited code)) with out := s.out ++ p.buffer }

def fork (s : State L O) (n : Pid) (p : Proc L O) (child parent : L) : State L O :=
  { (s.set n (.running { p with pc := parent, forks := p.forks + 1 })).set (p.forks :: n)
      (.running { p with pc := child, forks := 0 }) with
    names := s.names ++ [p.forks :: n] }

/-- On a terminal a line that is complete is written at once. -/
def print (s : State L O) (tty : Bool) (n : Pid) (p : Proc L O) (line : O) (newline : Bool)
    (l : L) : State L O :=
  if tty && newline then
    { s.set n (.running { p with pc := l, buffer := [] }) with out := s.out ++ p.buffer ++ [line] }
  else s.set n (.running { p with pc := l, buffer := p.buffer ++ [line] })

/-- What the call does at once, or `none` when it has to wait. Signal 13 is `SIGPIPE`. -/
def call (s : State L O) (tty : Bool) (n : Pid) (p : Proc L O) :
    Call L O → Option (State L O × Answer)
  | .step l => some (s.goto n p l, .silent)
  | .caught next => some (s.goto n p (next p.caught), .silent)
  | .fork child _ parent => some (s.fork n p child (parent (p.forks :: n)), .silent)
  | .print line newline l => some (s.print tty n p (line n (s.parent n)) newline l, .silent)
  | .close e l =>
      some (s.set n (.running { p with pc := l, holds := Function.update p.holds e false }),
        .silent)
  | .read k next =>
      if p.holds .reading then
        if s.data = [] then
          if s.Held .writing then none else some (s.goto n p (next (some [])), .got n [])
        else some ({ s.goto n p (next (some (s.data.take k))) with data := s.data.drop k },
          .got n (s.data.take k))
      else some (s.goto n p (next none), .silent)
  | .write bytes l =>
      if p.holds .writing then
        if s.Held .reading then
          if s.data.length + bytes.length ≤ capacity then
            some ({ s.goto n p l with data := s.data ++ bytes }, .wrote n bytes)
          else none
        else some (s.set n (.zombie (.signaled 13)), .silent)
      else some (s.goto n p l, .silent)
  | .wait next => if s.hasChild n p.forks then none else some (s.goto n p (next none), .silent)
  | .exec image _ => some (s.set n (.running { p with pc := image, buffer := [] }), .silent)
  | .image => none
  | .exit code => some (s.exit n p code, .silent)

/-- `fork` and `exec` may fail, `wait` may take any child that has ended, and another program may
end as it likes. -/
def step (code : L → Call L O) (tty : Bool) (s : State L O) :
    Event → Option (State L O × Answer)
  | .run n =>
      match s.entry n with
      | .running p => s.call tty n p (code p.pc)
      | _ => none
  | .fails n =>
      match s.entry n with
      | .running p =>
          match code p.pc with
          | .fork _ failed _ | .exec _ failed => some (s.goto n p failed, .silent)
          | _ => none
      | _ => none
  | .reap n k =>
      match s.entry n, s.entry (k :: n) with
      | .running p, .zombie status =>
          match code p.pc with
          | .wait next =>
              some ((s.goto n p (next (some (k :: n, status)))).set (k :: n) .absent, .silent)
          | _ => none
      | _, _ => none
  | .ends n status =>
      match s.entry n with
      | .running p =>
          match code p.pc with
          | .image => some (s.set n (.zombie status), .silent)
          | _ => none
      | _ => none
  | .signal n =>
      match s.entry n with
      | .running p => some (s.set n (.running { p with caught := true }), .silent)
      | _ => none

end State

def State.start (pipe : Bool) (l : L) : State L O where
  names := [[]]
  entry n := if n = [] then .running ⟨l, fun _ => pipe, 0, false, []⟩ else .absent
  data := []
  out := []

def system (code : L → Call L O) (tty pipe : Bool) (l : L) :
    Component (State L O) Event Answer where
  start := .start pipe l
  step := State.step code tty

variable {code : L → Call L O} {tty pipe : Bool} {start : L} {s t : State L O} {n m : Pid}
  {p : Proc L O} {e : Event} {a : Answer}

inductive Step (code : L → Call L O) (tty : Bool) (s : State L O) :
    Event → State L O → Answer → Prop
  | step {n : Pid} {p : Proc L O} {l : L}
      (at_n : s.entry n = .running p) (call : code p.pc = .step l) :
      Step code tty s (.run n) (s.goto n p l) .silent
  | caught {n : Pid} {p : Proc L O} {next : Bool → L}
      (at_n : s.entry n = .running p) (call : code p.pc = .caught next) :
      Step code tty s (.run n) (s.goto n p (next p.caught)) .silent
  | fork {n : Pid} {p : Proc L O} {child failed : L} {parent : Pid → L}
      (at_n : s.entry n = .running p)
      (call : code p.pc = .fork child failed parent) :
      Step code tty s (.run n) (s.fork n p child (parent (p.forks :: n))) .silent
  | print {n : Pid} {p : Proc L O} {line : Pid → Option Pid → O} {newline : Bool} {l : L}
      (at_n : s.entry n = .running p)
      (call : code p.pc = .print line newline l) :
      Step code tty s (.run n) (s.print tty n p (line n (s.parent n)) newline l) .silent
  | close {n : Pid} {p : Proc L O} {e : End} {l : L}
      (at_n : s.entry n = .running p) (call : code p.pc = .close e l) :
      Step code tty s (.run n)
        (s.set n (.running { p with pc := l, holds := Function.update p.holds e false })) .silent
  | readData {n : Pid} {p : Proc L O} {k : Nat} {next : Option (List UInt8) → L}
      (at_n : s.entry n = .running p) (call : code p.pc = .read k next)
      (holds : p.holds .reading = true) (data : s.data ≠ []) :
      Step code tty s (.run n)
        { s.goto n p (next (some (s.data.take k))) with data := s.data.drop k }
        (.got n (s.data.take k))
  | readEnd {n : Pid} {p : Proc L O} {k : Nat} {next : Option (List UInt8) → L}
      (at_n : s.entry n = .running p) (call : code p.pc = .read k next)
      (holds : p.holds .reading = true) (data : s.data = []) (closed : ¬ s.Held .writing) :
      Step code tty s (.run n) (s.goto n p (next (some []))) (.got n [])
  | readFails {n : Pid} {p : Proc L O} {k : Nat} {next : Option (List UInt8) → L}
      (at_n : s.entry n = .running p) (call : code p.pc = .read k next)
      (holds : p.holds .reading = false) :
      Step code tty s (.run n) (s.goto n p (next none)) .silent
  | write {n : Pid} {p : Proc L O} {bytes : List UInt8} {l : L}
      (at_n : s.entry n = .running p) (call : code p.pc = .write bytes l)
      (holds : p.holds .writing = true) (reader : s.Held .reading)
      (room : s.data.length + bytes.length ≤ capacity) :
      Step code tty s (.run n) { s.goto n p l with data := s.data ++ bytes } (.wrote n bytes)
  | writeBroken {n : Pid} {p : Proc L O} {bytes : List UInt8} {l : L}
      (at_n : s.entry n = .running p) (call : code p.pc = .write bytes l)
      (holds : p.holds .writing = true) (closed : ¬ s.Held .reading) :
      Step code tty s (.run n) (s.set n (.zombie (.signaled 13))) .silent
  | writeFails {n : Pid} {p : Proc L O} {bytes : List UInt8} {l : L}
      (at_n : s.entry n = .running p) (call : code p.pc = .write bytes l)
      (holds : p.holds .writing = false) :
      Step code tty s (.run n) (s.goto n p l) .silent
  | waitNone {n : Pid} {p : Proc L O} {next : Option (Pid × Status) → L}
      (at_n : s.entry n = .running p) (call : code p.pc = .wait next)
      (childless : s.hasChild n p.forks = false) :
      Step code tty s (.run n) (s.goto n p (next none)) .silent
  | exec {n : Pid} {p : Proc L O} {image failed : L}
      (at_n : s.entry n = .running p) (call : code p.pc = .exec image failed) :
      Step code tty s (.run n) (s.set n (.running { p with pc := image, buffer := [] })) .silent
  | exit {n : Pid} {p : Proc L O} {c : Nat}
      (at_n : s.entry n = .running p) (call : code p.pc = .exit c) :
      Step code tty s (.run n) (s.exit n p c) .silent
  | forkFails {n : Pid} {p : Proc L O} {child failed : L} {parent : Pid → L}
      (at_n : s.entry n = .running p)
      (call : code p.pc = .fork child failed parent) :
      Step code tty s (.fails n) (s.goto n p failed) .silent
  | execFails {n : Pid} {p : Proc L O} {image failed : L} (at_n : s.entry n = .running p)
      (call : code p.pc = .exec image failed) :
      Step code tty s (.fails n) (s.goto n p failed) .silent
  | reap {n : Pid} {p : Proc L O} {k : Nat} {status : Status}
      {next : Option (Pid × Status) → L} (at_n : s.entry n = .running p)
      (call : code p.pc = .wait next) (zombie : s.entry (k :: n) = .zombie status) :
      Step code tty s (.reap n k)
        ((s.goto n p (next (some (k :: n, status)))).set (k :: n) .absent) .silent
  | ends {n : Pid} {p : Proc L O} {status : Status}
      (at_n : s.entry n = .running p) (call : code p.pc = .image) :
      Step code tty s (.ends n status) (s.set n (.zombie status)) .silent
  | signal {n : Pid} {p : Proc L O} (at_n : s.entry n = .running p) :
      Step code tty s (.signal n) (s.set n (.running { p with caught := true })) .silent

theorem step_of_call (at_n : s.entry n = .running p)
    (h : s.call tty n p (code p.pc) = some (t, a)) : Step code tty s (.run n) t a := by
  generalize call : code p.pc = c at h
  cases c with
  | step l => cases h; exact .step at_n call
  | caught next => cases h; exact .caught at_n call
  | fork child failed parent => cases h; exact .fork at_n call
  | print line newline l => cases h; exact .print at_n call
  | close e l => cases h; exact .close at_n call
  | read k next =>
      simp only [State.call] at h
      split at h
      · rename_i holds
        split at h
        · rename_i data
          split at h
          · cases h
          · rename_i closed
            cases h
            exact .readEnd at_n call holds data closed
        · rename_i data
          cases h
          exact .readData at_n call holds data
      · rename_i holds
        cases h
        exact .readFails at_n call (Bool.not_eq_true _ |>.mp holds)
  | write bytes l =>
      simp only [State.call] at h
      split at h
      · rename_i holds
        split at h
        · rename_i reader
          split at h
          · rename_i room
            cases h
            exact .write at_n call holds reader room
          · cases h
        · rename_i closed
          cases h
          exact .writeBroken at_n call holds closed
      · rename_i holds
        cases h
        exact .writeFails at_n call (Bool.not_eq_true _ |>.mp holds)
  | wait next =>
      simp only [State.call] at h
      split at h
      · cases h
      · rename_i childless
        cases h
        exact .waitNone at_n call (Bool.not_eq_true _ |>.mp childless)
  | exec image failed => cases h; exact .exec at_n call
  | image => cases h
  | exit c => cases h; exact .exit at_n call

theorem step_cases (h : (system code tty pipe start).step s e = some (t, a)) :
    Step code tty s e t a := by
  change State.step code tty s e = some (t, a) at h
  cases e with
  | run n =>
      simp only [State.step] at h
      split at h
      · rename_i p at_n
        exact step_of_call at_n h
      · cases h
  | fails n =>
      simp only [State.step] at h
      split at h
      · rename_i p at_n
        split at h
        · rename_i child failed parent call
          cases h
          exact .forkFails at_n call
        · rename_i image failed call
          cases h
          exact .execFails at_n call
        · cases h
      · cases h
  | reap n k =>
      simp only [State.step] at h
      split at h
      · rename_i p status at_n zombie
        split at h
        · rename_i next call
          cases h
          exact .reap at_n call zombie
        · cases h
      · cases h
  | ends n status =>
      simp only [State.step] at h
      split at h
      · rename_i p at_n
        split at h
        · rename_i call
          cases h
          exact .ends at_n call
        · cases h
      · cases h
  | signal n =>
      simp only [State.step] at h
      split at h
      · rename_i p at_n
        cases h
        exact .signal at_n
      · cases h

end OsUnix.Kernel.Processes
