import OsUnix.SignalPipe.Messages
import Mathlib.Data.List.Perm.Subperm

/-!
# The end

A child has nobody to wait for, and the parent waits for its children only: it has closed its own
end of the pipe before it reads.
-/

namespace OsUnix.SignalPipe
open Kernel Kernel.Processes

variable {behind : Nat → Nat → UInt8} {tty : Bool} {s t : State} {n : Pid} {i j : Nat}
  {l l' : Local} {w r : List (List UInt8)}

def Local.rank : Local → Nat
  | .fork i => 18 + 6 * (2 - i)
  | .sleep => 17
  | .close => 16
  | .newline => 15
  | .loop i _ => 8 + 3 * (2 - i)
  | .read i _ => 10 + 3 * (1 - i)
  | .print i _ => 9 + 3 * (1 - i)
  | .wait i _ => 3 + 2 * (2 - i)
  | .report i _ => 4 + 2 * (1 - i)
  | .ok => 2
  | .childSleep _ => 5
  | .childTest _ => 4
  | .childClose _ => 3
  | .childWrite _ => 2
  | .exit _ => 1

theorem rank_falls (p : Proc Local Line) : (main behind p.pc).Falls Local.rank 0 p := by
  obtain ⟨pc, holds, forks, caught, buffer⟩ := p
  cases pc with
  | fork i =>
      rw [main]
      split
      · refine ⟨?_, fun _ => ?_⟩ <;> simp only [Local.rank] <;> omega
      · simp only [Call.Falls, Local.rank]
        omega
  | childTest i => rintro ⟨⟩ <;> simp [Local.rank]
  | loop i b =>
      rw [main]
      split
      · intro caught
        cases caught
        · simp only [Local.rank, ↓reduceIte, Bool.false_eq_true]
          omega
        · simp only [Local.rank, ↓reduceIte]
          omega
      · simp only [Call.Falls, Local.rank]
        omega
  | read i b => exact ⟨fun _ => by simp [Local.rank], fun _ => by simp [Local.rank]⟩
  | wait i status =>
      rw [main]
      split
      · intro r
        simp only [Local.rank]
        omega
      · simp only [Call.Falls, Local.rank]
        omega
  | _ =>
      simp only [main, Call.Falls, Local.rank]
      omega

theorem data_length {ops : List Event} {answers : List Answer}
    (run : (system behind tty).exec (system behind tty).start ops = some (s, answers)) :
    s.data.length ≤ 2 * bufferSize := by
  obtain ⟨pending, split, data, sizes⟩ := messages sized (by decide) run
  have names : (writes answers).map Prod.fst ⊆ [[0], [1]] := by
    intro n mem
    obtain ⟨e, mem_e, rfl⟩ := List.mem_map.mp mem
    obtain ⟨i, bound, rfl⟩ := written run e mem_e
    have : i = 0 ∨ i = 1 := by omega
    rcases this with rfl | rfl <;> simp
  have two := (List.subperm_of_subset (writes_once writes_after run).1 names).length_le
  have few : pending.length ≤ 2 := by
    have := congrArg List.length split
    simp only [List.length_map, List.length_append, List.length_cons, List.length_nil] at this two
    omega
  have length : s.data.length = pending.length * bufferSize := by
    rw [data, List.length_flatten, List.map_congr_left sizes]
    simp
  rw [length]
  exact Nat.mul_le_mul_right _ few

theorem child_runs (reach : (system behind tty).Reachable s)
    (stuck : Stuck (main behind) tty s) {p : Proc Local Line} (at_n : s.entry n = .running p)
    (child : n ≠ []) : False := by
  have here := place reach at_n
  obtain ⟨-, -, no_read⟩ := silent_of_child behind here child
  cases stuck.blocked at_n with
  | read call => exact no_read _ _ call
  | write call holds full =>
      obtain ⟨ops, answers, run⟩ := reach
      have few := data_length run
      obtain ⟨i, -, rfl, -⟩ := write_call call
      rw [length_message] at full
      simp only [capacity, bufferSize] at full few
      omega
  | wait call =>
      obtain ⟨pc, holds, forks, caught, buffer⟩ := p
      cases calls call
      exact child here.1

theorem root_runs (reach : (system behind tty).Reachable s) (stuck : Stuck (main behind) tty s)
    {p : Proc Local Line} (at_root : s.entry [] = .running p) : False := by
  have here := place reach at_root
  have others (n : Pid) (child : n ≠ []) : (s.entry n).isRunning = false := by
    cases at_n : s.entry n with
    | running q => exact (child_runs reach stuck at_n child).elim
    | _ => rfl
  cases stuck.blocked at_root with
  | read call holds empty writer =>
      obtain ⟨i, b, at_read, -⟩ := read_call call
      rw [Place, at_read] at here
      obtain ⟨m, -, held⟩ := writer
      by_cases root : m = []
      · rw [root, at_root, Entry.holds, here.2.2.2.1] at held
        cases held
      · have ended := others m root
        cases at_m : s.entry m with
        | running q => rw [at_m] at ended; cases ended
        | _ => rw [at_m] at held; cases held
  | write call =>
      obtain ⟨i, at_write, -⟩ := write_call call
      rw [Place, at_write] at here
      cases here.1
  | wait call child alive =>
      obtain ⟨k, -, present⟩ := List.any_eq_true.mp child
      have ended := others [k] (List.cons_ne_nil k [])
      cases at_k : s.entry [k] with
      | absent => rw [at_k] at present; cases present
      | running q => rw [at_k] at ended; cases ended
      | zombie status => exact alive k status at_k

/-- The processes never come to a state where all that have not ended are waiting for each other,
and they take no more than thirty steps between them. -/
theorem always_ends (behind : Nat → Nat → UInt8) (tty : Bool) (events : List Event) (s : State)
    (answers : List Answer)
    (run : (system behind tty).exec (system behind tty).start events = some (s, answers)) :
    (events.filter fun e => !e.isSignal).length ≤ 30 ∧
      (Stuck (main behind) tty s → ∀ n, (s.entry n).isRunning = false) := by
  refine ⟨Nat.le_of_add_right_le (steps_bounded (fun _ _ p _ _ => rank_falls p) run),
    fun stuck n => ?_⟩
  have reach : (system behind tty).Reachable s := ⟨events, answers, run⟩
  by_contra running
  cases at_n : s.entry n with
  | running p =>
      by_cases child : n = []
      · subst child
        exact root_runs reach stuck at_n
      · exact child_runs reach stuck at_n child
  | _ => rw [at_n] at running; exact running rfl

theorem always_ends_twice : ∃ s : State, printed s = [msg2, msg2] ∧
    (oneChild.filter fun e => !e.isSignal).length ≤ 30 ∧
      (Stuck (main fun _ _ => 1) true s → ∀ n, (s.entry n).isRunning = false) := by
  have ends : ((system (fun _ _ => 1) true).exec (system (fun _ _ => 1) true).start oneChild).any
      (fun r => printed r.1 == [msg2, msg2]) = true := by
    decide +kernel
  obtain ⟨⟨s, answers⟩, run, shown⟩ := (Option.any_eq_true _ _).mp ends
  exact ⟨s, beq_iff_eq.mp shown, always_ends _ _ _ _ _ run⟩

end OsUnix.SignalPipe
