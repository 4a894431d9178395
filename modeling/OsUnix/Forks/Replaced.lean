import OsUnix.Kernel.ProcessLedger

/-!
# Children that become other programs

`main` of `5-semestr/lab4/task3.c`. Both children print a line and become another program, and the
parent waits for both. What the lines say of groups is left out, as is what the other programs and
`perror` write. No handler is installed here either: the runs are those without a signal.
-/

namespace OsUnix.Forks.Replaced
open Kernel Kernel.Processes

inductive Line
  | child (pid : Pid) (parent : Option Pid)
  | parent (pid : Pid) (child1 child2 : Pid)
  | finished (child : Option (Pid × Status))
deriving DecidableEq, Repr

inductive Local
  | start
  | child
  | execlp
  | fork (child1 : Pid)
  | parent (child1 child2 : Pid)
  | wait1
  | finished1 (child : Option (Pid × Status))
  | wait2
  | finished2 (child : Option (Pid × Status))
  | image
  | exit (code : Nat)
deriving DecidableEq, Repr

def main : Local → Call Local Line
  | .start => .fork .child (.exit 1) .fork
  | .child => .print .child true .execlp
  | .execlp => .exec .image (.exit 1)
  | .fork child1 => .fork .child (.exit 1) fun child2 => .parent child1 child2
  | .parent child1 child2 => .print (fun pid _ => .parent pid child1 child2) true .wait1
  | .wait1 => .wait .finished1
  | .finished1 child => .print (fun _ _ => .finished child) true .wait2
  | .wait2 => .wait .finished2
  | .finished2 child => .print (fun _ _ => .finished child) true (.exit 0)
  | .image => .image
  | .exit code => .exit code

abbrev State := Processes.State Local Line

def system (tty : Bool) : Component State Event Answer := Processes.system main tty false .start

variable {tty : Bool} {s : State} {n : Pid}

inductive Kind
  | child (pid : Pid)
  | parent (pid : Pid) (child1 child2 : Pid)
  | finished
deriving DecidableEq, Repr

def Line.kind : Line → Kind
  | .child pid _ => .child pid
  | .parent pid child1 child2 => .parent pid child1 child2
  | .finished _ => .finished

def owesChild (tty : Bool) (n : Pid) (held : Multiset Kind) : Multiset Kind :=
  if tty then held + {.child n} else 0

def owesFork (tty : Bool) (n : Pid) (forks : Nat) (child1 : Pid) (held : Multiset Kind) :
    Multiset Kind :=
  held + {.parent n child1 (forks :: n)} + {.finished} + {.finished} +
    owesChild tty (forks :: n) held

def owes (tty : Bool) (n : Pid) (p : Proc Local Line) : Multiset Kind :=
  match p.pc with
  | .start => owesFork tty n (p.forks + 1) (p.forks :: n) (p.kept Line.kind) +
      owesChild tty (p.forks :: n) (p.kept Line.kind)
  | .child => owesChild tty n (p.kept Line.kind)
  | .execlp | .image => 0
  | .fork child1 => owesFork tty n p.forks child1 (p.kept Line.kind)
  | .parent child1 child2 =>
      p.kept Line.kind + {.parent n child1 child2} + {.finished} + {.finished}
  | .wait1 | .finished1 _ => p.kept Line.kind + {.finished} + {.finished}
  | .wait2 | .finished2 _ => p.kept Line.kind + {.finished}
  | .exit _ => p.kept Line.kind

theorem balances (p : Proc Local Line) :
    (main p.pc).Balances (counted Line.kind) (owes tty) tty n p := by
  obtain ⟨pc, holds, forks, caught, buffer⟩ := p
  cases pc with
  | child | parent | finished1 | finished2 =>
      intro m
      cases tty <;>
        simp [owes, owesChild, Proc.kept, counted, Line.kind, add_assoc, Multiset.cons_swap]
  | wait1 | wait2 => exact fun r => rfl
  | _ => rfl

def Local.rank : Local → Nat
  | .start => 16
  | .fork _ => 11
  | .parent _ _ => 6
  | .wait1 => 5
  | .finished1 _ | .child => 4
  | .wait2 | .execlp => 3
  | .finished2 _ => 2
  | .image | .exit _ => 1

theorem rank_falls (p : Proc Local Line) : (main p.pc).Falls Local.rank 0 p := by
  obtain ⟨pc, holds, forks, caught, buffer⟩ := p
  cases pc <;> simp [main, Call.Falls, Local.rank]

/-- On a terminal each process writes its lines once. Into a file only the parent does: the lines of
the children are lost when they become other programs. -/
theorem child_lines_lost (tty : Bool) (events : List Event) (s : State) (answers : List Answer)
    (succeeds : ∀ n, .fails n ∉ events) (quiet : ∀ n, .signal n ∉ events)
    (run : (system tty).exec (system tty).start events = some (s, answers)) :
    events.length ≤ 16 ∧
      (Stuck main tty s → (∀ n, (s.entry n).isRunning = false) ∧
        (s.out.map Line.kind).Perm ((if tty then [.child [0], .child [1]] else []) ++
          [.parent [] [0] [1], .finished, .finished])) := by
  refine ⟨length_bounded (fun _ _ p _ _ => rank_falls p) quiet run, fun stuck => ?_⟩
  have ⟨ended, lines⟩ := lines_of_stuck (fun _ p => balances p) (fun _ _ => rfl)
    (fun l => by cases l <;> exact nofun) (fun l => by cases l <;> exact nofun) succeeds run stuck
  refine ⟨ended, Multiset.coe_eq_coe.mp (lines.trans ?_)⟩
  cases tty <;> decide

def intoFile : List Event :=
  [.run [], .run [], .run [0], .run [1], .run [], .run [1], .ends [1] (.exited 0), .run [0],
    .ends [0] (.exited 1), .reap [] 1, .run [], .reap [] 0, .run [], .run []]

theorem child_lines_lost_file : ∃ s : State,
    s.out = [.parent [] [0] [1], .finished (some ([1], .exited 0)),
      .finished (some ([0], .exited 1))] ∧
    intoFile.length ≤ 16 := by
  have ends : ((system false).exec (system false).start intoFile).any (fun r => r.1.out ==
      [.parent [] [0] [1], .finished (some ([1], .exited 0)),
        .finished (some ([0], .exited 1))]) = true := by
    decide +kernel
  obtain ⟨⟨s, answers⟩, run, lines⟩ := (Option.any_eq_true _ _).mp ends
  exact ⟨s, beq_iff_eq.mp lines,
    (child_lines_lost false intoFile s answers (by simp [intoFile]) (by simp [intoFile]) run).1⟩

end OsUnix.Forks.Replaced
