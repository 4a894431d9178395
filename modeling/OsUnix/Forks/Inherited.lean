import OsUnix.Kernel.ProcessLedger

/-!
# A child that goes on as a parent

`main` of `5-semestr/lab4/task2.c`. The first child does not return behind its line but forks a
child of its own, and both wait for one child. What the lines say of groups is left out. No handler
is installed, so a signal ends the process that it comes to: the runs here are those without one.
-/

namespace OsUnix.Forks.Inherited
open Kernel Kernel.Processes

inductive Line
  | child1 (pid : Pid) (parent : Option Pid)
  | child2 (pid : Pid) (parent : Option Pid)
  | parent (pid : Pid) (child1 : Option Pid) (child2 : Pid)
  | finished (child : Option (Pid × Status))
deriving DecidableEq, Repr

/-- `child1` is `none` where the variable is 0. -/
inductive Local
  | start
  | child1Sleep
  | child1
  | fork (child1 : Option Pid)
  | child2Sleep
  | child2
  | parent (child1 : Option Pid) (child2 : Pid)
  | wait
  | finished (child : Option (Pid × Status))
  | exit (code : Nat)
deriving DecidableEq, Repr

def main : Local → Call Local Line
  | .start => .fork .child1Sleep (.exit 1) fun child1 => .fork (some child1)
  | .child1Sleep => .step .child1
  | .child1 => .print .child1 true (.fork none)
  | .fork child1 => .fork .child2Sleep (.exit 1) fun child2 => .parent child1 child2
  | .child2Sleep => .step .child2
  | .child2 => .print .child2 true (.exit 0)
  | .parent child1 child2 => .print (fun pid _ => .parent pid child1 child2) true .wait
  | .wait => .wait .finished
  | .finished child => .print (fun _ _ => .finished child) true (.exit 0)
  | .exit code => .exit code

abbrev State := Processes.State Local Line

def system (tty : Bool) : Component State Event Answer := Processes.system main tty false .start

variable {tty : Bool} {s : State} {n : Pid}

inductive Kind
  | child1 (pid : Pid)
  | child2 (pid : Pid)
  | parent (pid : Pid) (child1 : Option Pid) (child2 : Pid)
  | finished
deriving DecidableEq, Repr

def Line.kind : Line → Kind
  | .child1 pid _ => .child1 pid
  | .child2 pid _ => .child2 pid
  | .parent pid first second => .parent pid first second
  | .finished _ => .finished

def owesFork (n : Pid) (forks : Nat) (child1 : Option Pid) (held : Multiset Kind) :
    Multiset Kind :=
  held + {.parent n child1 (forks :: n)} + {.finished} + (held + {.child2 (forks :: n)})

def owesChild1 (tty : Bool) (n : Pid) (forks : Nat) (held : Multiset Kind) : Multiset Kind :=
  if tty then held + {.child1 n} + owesFork n forks none 0
  else owesFork n forks none (held + {.child1 n})

def owes (tty : Bool) (n : Pid) (p : Proc Local Line) : Multiset Kind :=
  match p.pc with
  | .start => owesFork n (p.forks + 1) (some (p.forks :: n)) (p.kept Line.kind) +
      owesChild1 tty (p.forks :: n) 0 (p.kept Line.kind)
  | .child1Sleep | .child1 => owesChild1 tty n p.forks (p.kept Line.kind)
  | .fork child1 => owesFork n p.forks child1 (p.kept Line.kind)
  | .child2Sleep | .child2 => p.kept Line.kind + {.child2 n}
  | .parent child1 child2 => p.kept Line.kind + {.parent n child1 child2} + {.finished}
  | .wait | .finished _ => p.kept Line.kind + {.finished}
  | .exit _ => p.kept Line.kind

theorem balances (p : Proc Local Line) :
    (main p.pc).Balances (counted Line.kind) (owes tty) tty n p := by
  obtain ⟨pc, holds, forks, caught, buffer⟩ := p
  cases pc with
  | child1 | child2 | parent | finished =>
      intro m
      cases tty <;>
        simp [owes, owesChild1, owesFork, Proc.kept, counted, Line.kind, add_assoc]
  | wait => exact fun r => rfl
  | _ => rfl

def Local.rank : Local → Nat
  | .start => 19
  | .child1Sleep => 10
  | .child1 => 9
  | .fork _ => 8
  | .parent _ _ => 4
  | .wait | .child2Sleep => 3
  | .finished _ | .child2 => 2
  | .exit _ => 1

theorem rank_falls (p : Proc Local Line) : (main p.pc).Falls Local.rank 0 p := by
  obtain ⟨pc, holds, forks, caught, buffer⟩ := p
  cases pc <;> simp [main, Call.Falls, Local.rank]

/-- In whatever order the processes run, the lines of each of the four are written once, and into a
file the line of the first child a second time: its child holds a copy, too. -/
theorem line_written_twice (tty : Bool) (events : List Event) (s : State) (answers : List Answer)
    (succeeds : ∀ n, .fails n ∉ events) (quiet : ∀ n, .signal n ∉ events)
    (run : (system tty).exec (system tty).start events = some (s, answers)) :
    events.length ≤ 19 ∧
      (Stuck main tty s → (∀ n, (s.entry n).isRunning = false) ∧
        (s.out.map Line.kind).Perm ((if tty then [] else [.child1 [0]]) ++
          [.child1 [0], .child2 [1], .child2 [0, 0], .parent [] (some [0]) [1],
            .parent [0] none [0, 0], .finished, .finished])) := by
  refine ⟨length_bounded (fun _ _ p _ _ => rank_falls p) quiet run, fun stuck => ?_⟩
  have ⟨ended, lines⟩ := lines_of_stuck (fun _ p => balances p) (fun _ _ => rfl)
    (fun l => by cases l <;> exact nofun) (fun l => by cases l <;> exact nofun) succeeds run stuck
  refine ⟨ended, Multiset.coe_eq_coe.mp (lines.trans ?_)⟩
  cases tty <;> decide

def secondFirst : List Event :=
  [.run [], .run [], .run [], .run [0], .run [0], .run [0], .run [0], .run [0, 0], .run [0, 0],
    .run [0, 0], .reap [0] 0, .run [0], .run [0], .run [1], .run [1], .run [1], .reap [] 1, .run [],
    .run []]

theorem line_written_twice_file : ∃ s : State, s.out.map Line.kind =
      [.child1 [0], .child2 [0, 0], .child1 [0], .parent [0] none [0, 0], .finished, .child2 [1],
        .parent [] (some [0]) [1], .finished] ∧
    secondFirst.length ≤ 19 := by
  have ends : ((system false).exec (system false).start secondFirst).any (fun r =>
      r.1.out.map Line.kind == [.child1 [0], .child2 [0, 0], .child1 [0], .parent [0] none [0, 0],
        .finished, .child2 [1], .parent [] (some [0]) [1], .finished]) = true := by
    decide +kernel
  obtain ⟨⟨s, answers⟩, run, lines⟩ := (Option.any_eq_true _ _).mp ends
  exact ⟨s, beq_iff_eq.mp lines,
    (line_written_twice false secondFirst s answers (by simp [secondFirst])
      (by simp [secondFirst]) run).1⟩

end OsUnix.Forks.Inherited
