import OsUnix.Kernel.ProcessRules
import Mathlib.Algebra.BigOperators.Group.List.Basic
import Mathlib.Algebra.Order.Group.Multiset

/-!
# What processes have still to write

A ledger of the lines that are written and of those that the processes owe. A `fork` copies what
`stdout` holds, and an `exec` drops it.
-/

namespace OsUnix.Kernel.Processes

variable {L O M : Type*} [AddCancelCommMonoid M] {code : L → Call L O} {tty pipe : Bool}
  {start : L} {s t : State L O} {n : Pid} {p : Proc L O} {e : Event} {a : Answer} {x : Entry L O}
  {worth : O → M} {owes : Pid → Proc L O → M}

/-- What the process has owed is what the call writes and what is owed behind it. A process that
the pipe may end owes nothing. -/
def Call.Balances (worth : O → M) (owes : Pid → Proc L O → M) (tty : Bool) (n : Pid)
    (p : Proc L O) : Call L O → Prop
  | .step l => owes n { p with pc := l } = owes n p
  | .caught next => owes n { p with pc := next p.caught } = owes n p
  | .fork child _ parent => owes n { p with pc := parent (p.forks :: n), forks := p.forks + 1 } +
      owes (p.forks :: n) { p with pc := child, forks := 0 } = owes n p
  | .print line newline l => ∀ m,
      if tty && newline then
        ((p.buffer ++ [line n m]).map worth).sum + owes n { p with pc := l, buffer := [] } =
          owes n p
      else owes n { p with pc := l, buffer := p.buffer ++ [line n m] } = owes n p
  | .close e l =>
      owes n { p with pc := l, holds := Function.update p.holds e false } = owes n p
  | .read _ next => ∀ r, owes n { p with pc := next r } = owes n p
  | .write _ l => owes n { p with pc := l } = owes n p ∧ owes n p = 0
  | .wait next => ∀ r, owes n { p with pc := next r } = owes n p
  | .exec program _ => owes n { p with pc := program, buffer := [] } = owes n p
  | .image => owes n p = 0
  | .exit _ => (p.buffer.map worth).sum = owes n p

def Entry.owed (owes : Pid → Proc L O → M) (n : Pid) : Entry L O → M
  | .running p => owes n p
  | _ => 0

def State.total (worth : O → M) (owes : Pid → Proc L O → M) (s : State L O) : M :=
  (s.out.map worth).sum + (s.names.map fun n => (s.entry n).owed owes n).sum

theorem total_eq_of_set (lines : List O) (named : Named s) (at_n : s.entry n = .running p)
    (names : t.names = s.names) (entry : t.entry = (s.set n x).entry) (out : t.out = s.out ++ lines)
    (balance : (lines.map worth).sum + x.owed owes n = owes n p) :
    t.total worth owes = s.total worth owes := by
  have sums := sum_update (x := x) (fun m y => y.owed owes m) s.entry named.nodup (named.mem at_n)
  rw [at_n] at sums
  apply add_right_cancel (b := x.owed owes n)
  rw [State.total, State.total, names, entry, out, List.map_append, List.sum_append, State.set]
  calc (s.out.map worth).sum + (lines.map worth).sum + _ + x.owed owes n
      = (s.out.map worth).sum + _ + ((lines.map worth).sum + x.owed owes n) := by
        rw [add_right_comm (s.out.map worth).sum, add_assoc]
    _ = (s.out.map worth).sum + (_ + owes n p) := by rw [balance, add_assoc]
    _ = (s.out.map worth).sum + (_ + x.owed owes n) := congrArg _ sums
    _ = (s.out.map worth).sum + _ + x.owed owes n := (add_assoc _ _ _).symm

theorem total_eq_of_moved {q : Proc L O} (named : Named s) (at_n : s.entry n = .running p)
    (names : t.names = s.names) (entry : t.entry = (s.set n (.running q)).entry)
    (out : t.out = s.out) (balance : owes n q = owes n p) :
    t.total worth owes = s.total worth owes :=
  total_eq_of_set [] named at_n names entry (out.trans (List.append_nil _).symm)
    ((zero_add _).trans balance)

theorem total_eq_of_fork (named : Named s) (at_n : s.entry n = .running p) {child parent : L}
    (balance : owes n { p with pc := parent, forks := p.forks + 1 } +
      owes (p.forks :: n) { p with pc := child, forks := 0 } = owes n p) :
    (s.fork n p child parent).total worth owes = s.total worth owes := by
  have unlisted := named.fresh n p p.forks at_n (Nat.le_refl _)
  have sums := sum_update (x := .running { p with pc := parent, forks := p.forks + 1 })
    (fun m y => y.owed owes m) s.entry named.nodup (named.mem at_n)
  rw [at_n] at sums
  apply add_right_cancel (b := owes n { p with pc := parent, forks := p.forks + 1 })
  simp only [State.total, State.fork, State.set, List.map_append, List.sum_append, List.map_cons,
    List.map_nil, List.sum_cons, List.sum_nil, Function.update_self, add_zero]
  rw [sum_update_of_not_mem (fun m y => y.owed owes m) _ unlisted]
  calc (s.out.map worth).sum + (_ + owes (p.forks :: n) { p with pc := child, forks := 0 }) +
        owes n { p with pc := parent, forks := p.forks + 1 }
      = (s.out.map worth).sum + (_ + owes n p) := by
        rw [add_assoc, add_assoc, add_comm (owes (p.forks :: n) _), balance]
    _ = (s.out.map worth).sum + (_ + owes n { p with pc := parent, forks := p.forks + 1 }) :=
        congrArg _ sums
    _ = (s.out.map worth).sum + _ + owes n { p with pc := parent, forks := p.forks + 1 } :=
        (add_assoc _ _ _).symm

theorem total_reaped {k : Nat} {status : Status} (zombie : s.entry (k :: n) = .zombie status) :
    (s.set (k :: n) .absent).total worth owes = s.total worth owes := by
  have same (m : Pid) : ((s.set (k :: n) .absent).entry m).owed owes m =
      (s.entry m).owed owes m := by
    by_cases eq : m = k :: n
    · rw [eq, State.set_entry_self, zombie]
      rfl
    · rw [State.set_entry_of_ne eq]
  simp only [State.total, same, State.set_names, State.set_out]

theorem total_eq (named : Named s)
    (balances : ∀ n p, s.entry n = .running p → (code p.pc).Balances worth owes tty n p)
    (deaf : ∀ n p, owes n { p with caught := true } = owes n p)
    (step : Step code tty s e t a) (succeeds : ∀ n, e ≠ .fails n) :
    t.total worth owes = s.total worth owes := by
  have call_balances {n : Pid} {p : Proc L O} {c : Call L O} (at_n : s.entry n = .running p)
      (call : code p.pc = c) : c.Balances worth owes tty n p := call ▸ balances n p at_n
  cases step with
  | step at_n call | caught at_n call | close at_n call =>
      exact total_eq_of_moved named at_n rfl rfl rfl (call_balances at_n call)
  | fork at_n call => exact total_eq_of_fork named at_n (call_balances at_n call)
  | @print n p line newline l at_n call =>
      have balance := call_balances at_n call (s.parent n)
      rw [State.print]
      split at balance
      · rename_i flush
        rw [if_pos flush]
        exact total_eq_of_set _ named at_n rfl rfl (List.append_assoc ..) balance
      · rename_i keep
        rw [if_neg keep]
        exact total_eq_of_moved named at_n rfl rfl rfl balance
  | readData at_n call | readEnd at_n call | readFails at_n call | waitNone at_n call =>
      exact total_eq_of_moved named at_n rfl rfl rfl (call_balances at_n call _)
  | write at_n call | writeFails at_n call =>
      exact total_eq_of_moved named at_n rfl rfl rfl (call_balances at_n call).1
  | writeBroken at_n call =>
      exact total_eq_of_set [] (x := .zombie _) named at_n rfl rfl
        (List.append_nil _).symm ((zero_add _).trans (call_balances at_n call).2.symm)
  | exec at_n call => exact total_eq_of_moved named at_n rfl rfl rfl (call_balances at_n call)
  | exit at_n call =>
      exact total_eq_of_set _ (x := .zombie _) named at_n rfl rfl rfl
        ((add_zero _).trans (call_balances at_n call))
  | forkFails | execFails => exact absurd rfl (succeeds _)
  | @reap n p k status next at_n call zombie =>
      have child : (s.goto n p (next (some (k :: n, status)))).entry (k :: n) = .zombie status :=
        (State.set_entry_of_ne (State.child_ne k n)).trans zombie
      rw [total_reaped child]
      exact total_eq_of_moved named at_n rfl rfl rfl (call_balances at_n call _)
  | ends at_n call =>
      exact total_eq_of_set [] (x := .zombie _) named at_n rfl rfl
        (List.append_nil _).symm ((zero_add _).trans (call_balances at_n call).symm)
  | signal at_n => exact total_eq_of_moved named at_n rfl rfl rfl (deaf _ _)

theorem ledger (balances : ∀ s n p, (system code tty pipe start).Reachable s →
      s.entry n = .running p → (code p.pc).Balances worth owes tty n p)
    (deaf : ∀ n p, owes n { p with caught := true } = owes n p) {events : List Event}
    {answers : List Answer} (succeeds : ∀ n, .fails n ∉ events)
    (run : (system code tty pipe start).exec (system code tty pipe start).start events =
      some (s, answers)) :
    s.total worth owes = owes [] ⟨start, fun _ => pipe, 0, false, []⟩ := by
  apply Component.exec_answers (I := fun (s : State L O) _ =>
    s.total worth owes = owes [] ⟨start, fun _ => pipe, 0, false, []⟩) run
  · simp [State.total, system, State.start, Entry.owed]
  · rintro before s answers e t a within earlier total next
    have reach : (system code tty pipe start).Reachable s := ⟨before, answers, earlier⟩
    refine (total_eq (named reach) (balances s · · reach) deaf (step_cases next) ?_).trans total
    rintro n rfl
    exact succeeds n (within.subset (List.mem_append_right _ List.mem_cons_self))

theorem worth_of_ended (balances : ∀ s n p, (system code tty pipe start).Reachable s →
      s.entry n = .running p → (code p.pc).Balances worth owes tty n p)
    (deaf : ∀ n p, owes n { p with caught := true } = owes n p) {events : List Event}
    {answers : List Answer} (succeeds : ∀ n, .fails n ∉ events)
    (run : (system code tty pipe start).exec (system code tty pipe start).start events =
      some (s, answers)) (ended : ∀ n, (s.entry n).isRunning = false) :
    (s.out.map worth).sum = owes [] ⟨start, fun _ => pipe, 0, false, []⟩ := by
  rw [← ledger balances deaf succeeds run, State.total]
  have none (n : Pid) : (s.entry n).owed owes n = 0 := by
    have ended := ended n
    cases at_n : s.entry n with
    | running p => rw [at_n] at ended; cases ended
    | _ => rfl
  have nothing : (s.names.map fun n => (s.entry n).owed owes n).sum = 0 := by
    refine List.sum_eq_zero fun x mem => ?_
    obtain ⟨n, -, rfl⟩ := List.mem_map.mp mem
    exact none n
  rw [nothing, add_zero]

variable {K : Type*} {kind : O → K}

def counted (kind : O → K) (line : O) : Multiset K := {kind line}

def Proc.kept (kind : O → K) (p : Proc L O) : Multiset K := (p.buffer.map (counted kind)).sum

theorem sum_counted (kind : O → K) (lines : List O) :
    (lines.map (counted kind)).sum = lines.map kind := by
  induction lines with
  | nil => rfl
  | cons line lines ih =>
      rw [List.map_cons, List.sum_cons, ih]
      rfl

theorem lines_of_stuck {owes : Pid → Proc L O → Multiset K}
    (balances : ∀ n p, (code p.pc).Balances (counted kind) owes tty n p)
    (deaf : ∀ n p, owes n { p with caught := true } = owes n p)
    (no_read : ∀ l k next, code l ≠ .read k next)
    (no_write : ∀ l bytes l', code l ≠ .write bytes l')
    {events : List Event} {answers : List Answer} (succeeds : ∀ n, .fails n ∉ events)
    (run : (system code tty pipe start).exec (system code tty pipe start).start events =
      some (s, answers)) (stuck : Stuck code tty s) :
    (∀ n, (s.entry n).isRunning = false) ∧
      (s.out.map kind : Multiset K) = owes [] ⟨start, fun _ => pipe, 0, false, []⟩ := by
  have ended : ∀ n, (s.entry n).isRunning = false :=
    stuck.ended (named ⟨events, answers, run⟩) (fun _ p _ _ _ => no_read p.pc _ _)
      fun _ p _ _ _ => no_write p.pc _ _
  rw [← sum_counted]
  exact ⟨ended, worth_of_ended (fun _ n p _ _ => balances n p) deaf succeeds run ended⟩

end OsUnix.Kernel.Processes
