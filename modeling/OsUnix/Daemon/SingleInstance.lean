import OsUnix.Daemon.Model
import Mathlib.Data.List.Infix

/-!
# One daemon at a time

`LOCK_EX | LOCK_UN` is no lock request, so `flock` fails with `EINVAL`, which nothing tests for. One
daemon is alone only while no other one starts.
-/

namespace OsUnix.Daemon
open Kernel

variable {ι : Type*} {c : Setting ι} {s t : System ι} {i j : ι} {event : Event ι}
  {p q : Process} {file file' text : List UInt8}

def Stage.inside : Stage → Bool
  | .testing | .truncating | .printing | .writing | .returning | .returned => true
  | _ => false

def System.Inside (s : System ι) (i : ι) : Prop := (s.process i).stage.inside = true

def System.Returned (s : System ι) (i : ι) : Prop := (s.process i).stage = .returned

structure Single (c : Setting ι) (s : System ι) (event : Event ι) (t : System ι) : Prop where
  one : ∀ i j, t.Returned i → t.Returned j → i = j
  file : ∀ i, t.Returned i → t.file = c.text i
  exits : ∀ i, event = .run i → (t.process i).stage = .exited →
    ∃ j, j ≠ i ∧ (s.process j).stage.live = true ∧ s.lock.Holds j

def Alone (s : System ι) : Event ι → Prop
  | .run i => (s.process i).stage = .locking → ∀ j, s.Inside j → j = i
  | .terminate _ => True

def Process.Outline (p : Process) (text file : List UInt8) : Prop :=
  match p.stage with
  | .daemonize | .opening | .exited | .terminated => True
  | .locking | .truncating => p.offset = 0
  | .testing => p.errno = some .einval ∧ p.offset = 0
  | .printing => file = [] ∧ p.offset = 0
  | .writing => file = [] ∧ p.offset = 0 ∧ p.buf = text
  | .returning | .returned => file = text

/-! ## Steps -/

inductive Advances (c : Setting ι) (i : ι) (p : Process) (file : List UInt8) :
    Process → List UInt8 → Prop
  | daemonize (next : p.stage = .daemonize) :
      Advances c i p file { p with stage := .opening, errno := c.errno i } file
  | openLock (next : p.stage = .opening) :
      Advances c i p file { p with stage := .locking, offset := 0 } file
  | refused (next : p.stage = .locking) :
      Advances c i p file { p with stage := .testing, errno := some .einval } file
  | exit (next : p.stage = .testing) (locked : p.errno = some .ewouldblock) :
      Advances c i p file { p with stage := .exited } file
  | pass (next : p.stage = .testing) (other : p.errno ≠ some .ewouldblock) :
      Advances c i p file { p with stage := .truncating } file
  | ftruncate (next : p.stage = .truncating) :
      Advances c i p file { p with stage := .printing } []
  | sprintf (next : p.stage = .printing) :
      Advances c i p file { p with stage := .writing, buf := c.text i } file
  | write (next : p.stage = .writing) (bytes : List UInt8)
      (string : bytes = p.buf.take (strlen p.buf + 1)) :
      Advances c i p file { p with stage := .returning, offset := p.offset + bytes.length }
        (writeAt file p.offset bytes)
  | leave (next : p.stage = .returning) : Advances c i p file { p with stage := .returned } file
  | loop (next : p.stage = .returned) : Advances c i p file p file

theorem Advances.inside (advances : Advances c i p file q file')
    (inside : q.stage.inside = true) : p.stage.inside = true ∨ p.stage = .locking := by
  cases advances with
  | refused next => exact .inr next
  | pass next _ => exact .inl (by rw [next]; rfl)
  | ftruncate next => exact .inl (by rw [next]; rfl)
  | sprintf next => exact .inl (by rw [next]; rfl)
  | write next _ _ => exact .inl (by rw [next]; rfl)
  | leave next => exact .inl (by rw [next]; rfl)
  | loop next => exact .inl (by rw [next]; rfl)
  | daemonize _ | openLock _ | exit _ _ => cases inside

theorem Advances.file_eq (advances : Advances c i p file q file')
    (outside : p.stage.inside = false) : file' = file := by
  cases advances with
  | ftruncate next => cases (congrArg Stage.inside next).symm.trans outside
  | write next _ _ => cases (congrArg Stage.inside next).symm.trans outside
  | _ => rfl

theorem Advances.outline (advances : Advances c i p file q file')
    (outline : p.Outline (c.text i) file) : q.Outline (c.text i) file' := by
  unfold Process.Outline at outline
  cases advances with
  | daemonize _ => trivial
  | openLock _ => exact rfl
  | exit _ _ => trivial
  | refused next =>
      rw [next] at outline
      exact ⟨rfl, outline⟩
  | pass next _ =>
      rw [next] at outline
      exact outline.2
  | ftruncate next =>
      rw [next] at outline
      exact ⟨rfl, outline⟩
  | sprintf next =>
      rw [next] at outline
      exact ⟨outline.1, outline.2, rfl⟩
  | write next bytes string =>
      rw [next] at outline
      obtain ⟨empty, offset, buf⟩ := outline
      show writeAt file p.offset bytes = c.text i
      rw [empty, offset, writeAt_empty, string, buf, take_text]
  | leave next =>
      rw [next] at outline
      exact outline
  | loop next =>
      rw [next] at outline
      unfold Process.Outline
      rw [next]
      exact outline

theorem Process.Outline.outside (outline : p.Outline text file) (outside : p.stage.inside = false) :
    p.Outline text file' := by
  unfold Process.Outline at outline ⊢
  cases next : p.stage <;> rw [next] at outline outside <;>
    first | exact outline | cases outside

structure Exclusive (c : Setting ι) (s : System ι) : Prop where
  one : ∀ i j, s.Inside i → s.Inside j → i = j
  outline : ∀ i, (s.process i).Outline (c.text i) s.file

theorem Exclusive.start : Exclusive c c.start := ⟨nofun, fun _ => trivial⟩

variable [DecidableEq ι]

def System.after (s : System ι) (i : ι) (p : Process) (lock : FileLock ι) (file : List UInt8) :
    System ι where
  process := Function.update s.process i p
  lock := lock
  file := file

theorem after_self {lock : FileLock ι} : (s.after i p lock file).process i = p :=
  Function.update_self ..

theorem after_other {lock : FileLock ι} (other : j ≠ i) :
    (s.after i p lock file).process j = s.process j :=
  Function.update_of_ne other ..

theorem flock_fails (s : System ι) (i : ι) : s.flock i = some (s.set i
    { s.process i with stage := .testing, errno := some .einval }) := by
  rw [System.flock, FileLock.flock_invalid rfl]
  rfl

theorem advances_of_run (step : s.run c i = some t) :
    ∃ p, t.process = Function.update s.process i p ∧
      Advances c i (s.process i) s.file p t.file := by
  unfold System.run at step
  split at step
  · cases step
    exact ⟨_, rfl, .daemonize ‹_›⟩
  · cases step
    exact ⟨_, rfl, .openLock ‹_›⟩
  · rw [flock_fails] at step
    cases step
    exact ⟨_, rfl, .refused ‹_›⟩
  · cases step
    unfold System.test
    split
    · exact ⟨_, rfl, .exit ‹_› ‹_›⟩
    · exact ⟨_, rfl, .pass ‹_› ‹_›⟩
  · cases step
    exact ⟨_, rfl, .ftruncate ‹_›⟩
  · cases step
    exact ⟨_, rfl, .sprintf ‹_›⟩
  · cases step
    exact ⟨_, rfl, .write ‹_› _ rfl⟩
  · cases step
    exact ⟨_, rfl, .leave ‹_›⟩
  · cases step
    exact ⟨s.process i, (Function.update_eq_self i s.process).symm, .loop ‹_›⟩
  · cases step
  · cases step

inductive Moves (c : Setting ι) (s : System ι) : Event ι → System ι → Prop
  | run (i : ι) (p : Process) (file : List UInt8) (lock : FileLock ι)
      (advances : Advances c i (s.process i) s.file p file) :
      Moves c s (.run i) (s.after i p lock file)
  | terminate (i : ι) (lock : FileLock ι) :
      Moves c s (.terminate i) (s.after i { s.process i with stage := .terminated } lock s.file)

theorem moves_of_step {u : Unit} (step : (system c).step s event = some (t, u)) :
    Moves c s event t := by
  have step := Component.silent_step.mp step
  cases event with
  | run i =>
      obtain ⟨p, process, advances⟩ := advances_of_run step
      obtain ⟨processes, lock, file⟩ := t
      subst process
      exact .run i p file lock advances
  | terminate i =>
      obtain ⟨-, eq⟩ := Option.ite_none_right_eq_some.mp step
      cases eq
      exact .terminate i _

/-! ## Runs without overlap -/

theorem Exclusive.after {lock : FileLock ι} (exclusive : Exclusive c s)
    (outline : p.Outline (c.text i) file)
    (only : p.stage.inside = true → ∀ j, s.Inside j → j = i)
    (still : ∀ j, j ≠ i → s.Inside j → file = s.file) : Exclusive c (s.after i p lock file) where
  one j k first second := by
    unfold System.Inside at first second
    by_cases here : j = i <;> by_cases there : k = i
    · rw [here, there]
    · rw [here, after_self] at first
      rw [after_other there] at second
      exact absurd (only first k second) there
    · rw [there, after_self] at second
      rw [after_other here] at first
      exact absurd (only second j first) here
    · rw [after_other here] at first
      rw [after_other there] at second
      exact exclusive.one j k first second
  outline j := by
    rcases eq_or_ne j i with rfl | other
    · rw [after_self]
      exact outline
    · rw [after_other other]
      by_cases inside : s.Inside j
      · exact still j other inside ▸ exclusive.outline j
      · exact (exclusive.outline j).outside (Bool.eq_false_of_not_eq_true inside)

theorem Exclusive.step (exclusive : Exclusive c s) (moves : Moves c s event t)
    (alone : Alone s event) : Exclusive c t := by
  cases moves with
  | terminate i lock => exact exclusive.after trivial nofun fun _ _ _ => rfl
  | run i p file lock advances =>
      apply exclusive.after (advances.outline (exclusive.outline i))
      · -- whoever is inside now was inside before, or has just called `flock` and found nobody
        intro entered j inside
        rcases advances.inside entered with before | calls
        · exact exclusive.one j i inside before
        · exact alone calls j inside
      · -- only a process inside changes the file, and that is `j` and not `i`
        intro j other inside
        apply advances.file_eq
        by_contra runs
        exact other (exclusive.one j i inside (Bool.eq_true_of_not_eq_false runs))

theorem Exclusive.single (exclusive : Exclusive c s) (moves : Moves c s event t)
    (after : Exclusive c t) : Single c s event t where
  one i j first second := by
    apply after.one i j
    · rw [System.Inside, first]
      rfl
    · rw [System.Inside, second]
      rfl
  file i returned := by
    have outline := after.outline i
    unfold Process.Outline at outline
    rwa [returned] at outline
  exits i ran exited := by
    subst ran
    cases moves with
    | run _ p file lock advances =>
        rw [after_self] at exited
        have outline := exclusive.outline i
        unfold Process.Outline at outline
        cases advances with
        | exit next locked =>
            rw [next] at outline
            cases locked.symm.trans outline.1
        | loop next => cases next.symm.trans exited
        | _ => cases exited

theorem single_of_alone {events : List (Event ι)}
    (alone : (system c).Before Alone (system c).start events) :
    (system c).Always (fun s event t _ => Single c s event t) (system c).start events := by
  apply alone.always Exclusive.start
  intro s event t u exclusive alone step
  have moves := moves_of_step step
  have next := exclusive.step moves alone
  exact ⟨exclusive.single moves next, next⟩

/-! ## What an overlap leads to -/

def Stage.rest : Stage → Nat
  | .testing => 5
  | .truncating => 4
  | .printing => 3
  | .writing => 2
  | .returning => 1
  | _ => 0

theorem returned_of_rest {stage : Stage} (inside : stage.inside = true) (rest : stage.rest = 0) :
    stage = .returned := by
  revert inside rest
  cases stage <;> decide

def Refused (s : System ι) : Prop :=
  ∀ i, (s.process i).stage = .testing → (s.process i).errno = some .einval

theorem Refused.step (refused : Refused s) (moves : Moves c s event t) : Refused t := by
  intro j testing
  cases moves with
  | terminate i lock =>
      rcases eq_or_ne j i with rfl | other
      · rw [after_self] at testing
        cases testing
      · rw [after_other other] at testing ⊢
        exact refused j testing
  | run i p file lock advances =>
      rcases eq_or_ne j i with rfl | other
      · rw [after_self] at testing ⊢
        cases advances with
        | refused _ => rfl
        | loop next => cases next.symm.trans testing
        | _ => cases testing
      · rw [after_other other] at testing ⊢
        exact refused j testing

theorem exists_advance {n : Nat} (refused : Refused s) (rest : (s.process i).stage.rest = n + 1) :
    ∃ p lock file, (system c).step s (.run i) = some (s.after i p lock file, ()) ∧
      p.stage.rest = n ∧ (n = 0 → p.stage = .returned) := by
  have goes {t : System ι} (run : s.run c i = some t) :
      (system c).step s (.run i) = some (t, ()) := Component.silent_step.mpr run
  cases next : (s.process i).stage <;> rw [next] at rest <;> cases rest
  · have passes : s.test i = s.set i { s.process i with stage := .truncating } :=
      if_neg (by rw [refused i next]; decide)
    exact ⟨_, s.lock, s.file, goes (by rw [System.run, next]; exact congrArg some passes), rfl,
      nofun⟩
  · exact ⟨_, s.lock, [], goes (by rw [System.run, next]; rfl), rfl, nofun⟩
  · exact ⟨_, s.lock, s.file, goes (by rw [System.run, next]; rfl), rfl, nofun⟩
  · exact ⟨_, s.lock, _, goes (by rw [System.run, next]; rfl), rfl, nofun⟩
  · exact ⟨_, s.lock, s.file, goes (by rw [System.run, next]; rfl), rfl, fun _ => rfl⟩

theorem exists_finish (refused : Refused s) (inside : s.Inside i) :
    ∃ t rs, (system c).exec s (List.replicate (s.process i).stage.rest (.run i)) = some (t, rs) ∧
      Refused t ∧ t.Returned i ∧ ∀ j, j ≠ i → t.process j = s.process j := by
  cases rest : (s.process i).stage.rest with
  | zero =>
      exact ⟨s, [], rfl, refused, returned_of_rest inside rest, fun _ _ => rfl⟩
  | succ n =>
      clear inside
      induction n generalizing s with
      | zero =>
          obtain ⟨p, lock, file, step, -, last⟩ := exists_advance (c := c) refused rest
          refine ⟨_, _, Component.exec_cons step rfl, refused.step (moves_of_step step), ?_,
            fun j other => after_other other⟩
          rw [System.Returned, after_self]
          exact last rfl
      | succ n ih =>
          obtain ⟨p, lock, file, step, shorter, -⟩ := exists_advance (c := c) refused rest
          obtain ⟨t, rs, run, refused, returned, same⟩ := ih
            (refused.step (moves_of_step step)) (by rw [after_self, shorter])
          exact ⟨t, _, Component.exec_cons step run, refused, returned,
            fun j other => (same j other).trans (after_other other)⟩

theorem exists_second (refused : Refused s) (first : s.Inside i) (second : s.Inside j)
    (other : j ≠ i) :
    ∃ later t rs, (∀ event ∈ later, ∃ k, event = .run k ∧ s.Inside k) ∧
      (system c).exec s later = some (t, rs) ∧ t.Returned i ∧ t.Returned j := by
  obtain ⟨u, rs, run, refused, returned, same⟩ := exists_finish (c := c) refused first
  have inside : u.Inside j := by
    rw [System.Inside, same j other]
    exact second
  obtain ⟨t, qs, later, -, last, still⟩ := exists_finish (c := c) refused inside
  refine ⟨_, t, rs ++ qs, fun event mem => ?_, Component.exec_append run later, ?_, last⟩
  · rcases List.mem_append.mp mem with mem | mem
    · exact ⟨i, List.eq_of_mem_replicate mem, first⟩
    · exact ⟨j, List.eq_of_mem_replicate mem, second⟩
  · rw [System.Returned, still i other.symm]
    exact returned

theorem step_flock (calls : (s.process i).stage = .locking) :
    (system c).step s (.run i) = some (s.after i
      { s.process i with stage := .testing, errno := some .einval } s.lock s.file, ()) := by
  apply Component.silent_step.mpr
  rw [System.step, System.run, calls]
  exact flock_fails s i

/-- Runs that go as `events` does up to some point, from which on only processes run that have
called `flock`. -/
def Settles (c : Setting ι) (events run : List (Event ι)) : Prop :=
  ∃ before later, before <+: events ∧ run = before ++ later ∧
    ∀ s rs, (system c).exec c.start before = some (s, rs) →
      ∀ event ∈ later, ∃ i, event = .run i ∧ s.Inside i

def Stage.called (stage : Stage) : Bool :=
  stage != .daemonize && stage != .opening && stage != .locking

theorem alone_later {later : List (Event ι)}
    (insiders : ∀ event ∈ later, ∃ i, event = .run i ∧ s.Inside i) :
    (system c).Before Alone s later := by
  apply Component.before_of_invariant
    (I := fun t => ∀ i, s.Inside i → (t.process i).stage.called = true)
  · intro i inside
    unfold System.Inside at inside
    cases stage : (s.process i).stage <;> rw [stage] at inside <;> first | rfl | cases inside
  · intro t event mem called
    obtain ⟨i, rfl, inside⟩ := insiders event mem
    intro calls
    have := called i inside
    rw [calls] at this
    cases this
  · intro t event u r mem called step
    obtain ⟨i, rfl, inside⟩ := insiders event mem
    intro j inside'
    have before := called j inside'
    cases moves_of_step step with
    | run _ p file lock advances =>
        rcases eq_or_ne j i with rfl | other
        · rw [after_self]
          cases advances with
          | daemonize next => cases (congrArg Stage.called next).symm.trans before
          | openLock next => cases (congrArg Stage.called next).symm.trans before
          | loop next => exact before
          | _ => rfl
        · rw [after_other other]
          exact before

theorem Refused.reachable (h : (system c).Reachable s) : Refused s :=
  h.invariant (I := Refused) nofun fun refused step => refused.step (moves_of_step step)

theorem exists_settles {events : List (Event ι)}
    (overlap : ¬ (system c).Before Alone c.start events) :
    ∃ run, Settles c events run ∧
      ¬ (system c).Always (fun s event t _ => Single c s event t) c.start run := by
  obtain ⟨before, event, after, s, rs, rfl, run, -, meets⟩ :=
    Component.exists_first_exception overlap
  cases event with
  | terminate i => exact absurd trivial meets
  | run i =>
      simp only [Alone, not_forall] at meets
      obtain ⟨calls, j, second, other⟩ := meets
      have refused : Refused s := .reachable ⟨before, rs, run⟩
      have step := step_flock (c := c) calls
      generalize now : s.after i _ _ _ = t at step
      have first : t.Inside i := by rw [← now, System.Inside, after_self]; rfl
      have second : t.Inside j := by rwa [← now, System.Inside, after_other other]
      obtain ⟨later, u, qs, insiders, rest, one, two⟩ :=
        exists_second (c := c) (refused.step (moves_of_step step)) first second other
      have call : (system c).exec s [.run i] = some (t, [()]) := Component.exec_cons step rfl
      refine ⟨before ++ [.run i] ++ later, ⟨_, later, ⟨after, by simp⟩, rfl, fun s' rs' run' => ?_⟩,
        fun always => ?_⟩
      · rw [Component.exec_append run call] at run'
        cases run'
        exact insiders
      · rw [List.append_assoc] at always
        obtain ⟨v, event, r, single⟩ := (Component.always_append always run).last
          (Component.exec_cons step rest)
        exact other (single.one j i two one)

/-- There is one daemon at most, in a run and in all that it settles to, exactly when no process
calls `flock` before the one that called it is gone. -/
theorem single_iff (c : Setting ι) (events : List (Event ι)) :
    (∀ run, Settles c events run →
      (system c).Always (fun s event t _ => Single c s event t) c.start run) ↔
      (system c).Before Alone c.start events := by
  constructor
  · intro single
    by_contra overlap
    obtain ⟨run, settles, broken⟩ := exists_settles overlap
    exact broken (single run settles)
  · rintro alone run ⟨before, later, ⟨after, rfl⟩, rfl, insiders⟩
    apply single_of_alone
    exact Component.before_append.mpr ⟨(Component.before_append.mp alone).1,
      fun t rs run => alone_later (insiders t rs run)⟩

def pair : Setting Bool where
  pid second := if second then ⟨1702, by decide⟩ else ⟨1701, by decide⟩
  errno _ := none
  file := []

theorem single_fails : ¬ (system pair).Always (fun s event t _ => Single pair s event t) pair.start
    (List.replicate 8 (.run false) ++ List.replicate 8 (.run true)) := by
  intro always
  have run : ∃ t rs, (system pair).exec pair.start (List.replicate 8 (.run false) ++
      List.replicate 8 (.run true)) = some (t, rs) ∧ t.Returned false ∧ t.Returned true :=
    ⟨_, _, rfl, rfl, rfl⟩
  obtain ⟨t, rs, run, first, second⟩ := run
  obtain ⟨_, _, _, single⟩ := always.last run
  cases single.one false true first second

end OsUnix.Daemon
