import OsUnix.Kernel.ProcessRules
import OsUnix.Kernel.Text

/-!
# Messages after a signal

`main` of `5-semestr/lab4/5.c`, from the creation of the pipe on. Each of the two children writes
its message only if it has caught the signal, and the parent reads two messages if it has caught it.
-/

namespace OsUnix.SignalPipe
open Kernel Kernel.Processes

def bufferSize : Nat := 64

def msg1 : List UInt8 := [103, 103, 103, 102, 102, 102, 102, 49, 49, 53]

def msg2 : List UInt8 := [55, 55, 56, 56, 104, 104, 104, 104, 104, 106, 106]

def text (i : Nat) : List UInt8 := if i = 0 then msg1 else msg2

/-- `behind` is what the stack holds behind the arrays: `write` goes beyond them. -/
def message (behind : Nat → Nat → UInt8) (i : Nat) : List UInt8 :=
  text i ++ [0] ++ (List.range (bufferSize - (text i).length - 1)).map (behind i)

inductive Line
  | newline
  | message (text : List UInt8)
  | child (status : Option Status)
  | ok
deriving DecidableEq, Repr

/-- `status` is `none` as long as no call of `wait` has set it. -/
inductive Local
  | fork (i : Nat)
  | childSleep (i : Nat)
  | childTest (i : Nat)
  | childClose (i : Nat)
  | childWrite (i : Nat)
  | sleep
  | close
  | newline
  | loop (i : Nat) (buffer : List UInt8)
  | read (i : Nat) (buffer : List UInt8)
  | print (i : Nat) (buffer : List UInt8)
  | wait (i : Nat) (status : Option Status)
  | report (i : Nat) (status : Option Status)
  | ok
  | exit (code : Nat)
deriving DecidableEq, Repr

/-- A read that does not fill the buffer leaves what stands behind. -/
def filled (buffer : List UInt8) : Option (List UInt8) → List UInt8
  | some bytes => bytes ++ buffer.drop bytes.length
  | none => buffer

def main (behind : Nat → Nat → UInt8) : Local → Call Local Line
  | .fork i =>
      if i < 2 then .fork (.childSleep i) (.exit 1) fun _ => .fork (i + 1) else .step .sleep
  | .childSleep i => .step (.childTest i)
  | .childTest i => .caught fun caught => if caught then .childClose i else .exit 0
  | .childClose i => .close .reading (.childWrite i)
  | .childWrite i => .write (message behind i) (.exit 0)
  | .sleep => .step .close
  | .close => .close .writing .newline
  | .newline => .print (fun _ _ => .newline) true (.loop 0 (List.replicate bufferSize 0))
  | .loop i buffer =>
      if i < 2 then .caught fun caught => if caught then .read i buffer else .wait 0 none
      else .step (.wait 0 none)
  | .read i buffer => .read bufferSize fun bytes => .print i (filled buffer bytes)
  | .print i buffer =>
      .print (fun _ _ => .message (cstring buffer)) true (.loop (i + 1) buffer)
  | .wait i status =>
      if i < 2 then .wait fun child => .report i (child.elim status fun c => some c.2)
      else .step .ok
  | .report i status => .print (fun _ _ => .child status) true (.wait (i + 1) status)
  | .ok => .print (fun _ _ => .ok) true (.exit 0)
  | .exit code => .exit code

abbrev State := Processes.State Local Line

def system (behind : Nat → Nat → UInt8) (tty : Bool) : Component State Event Answer :=
  Processes.system (main behind) tty true (.fork 0)

variable {behind : Nat → Nat → UInt8} {tty : Bool} {s t : State} {n : Pid} {i : Nat}

theorem length_message : (message behind i).length = bufferSize := by
  have short : (text i).length + 1 ≤ bufferSize := by
    by_cases first : i = 0 <;> simp [text, first, msg1, msg2, bufferSize]
  simp [message]
  omega

theorem cstring_message : cstring (message behind i) = text i := by
  have free : 0 ∉ text i := by
    by_cases first : i = 0 <;> simp [text, first, msg1, msg2]
  rw [message, List.append_assoc]
  exact (cstring_append _ _).trans (cstring_eq_self free)

variable {l l' : Local} {bytes : List UInt8}

inductive Calls (behind : Nat → Nat → UInt8) : Local → Call Local Line → Prop
  | fork {i : Nat} (more : i < 2) :
      Calls behind (.fork i) (.fork (.childSleep i) (.exit 1) fun _ => .fork (i + 1))
  | forked {i : Nat} (all : ¬ i < 2) : Calls behind (.fork i) (.step .sleep)
  | childSleep {i : Nat} : Calls behind (.childSleep i) (.step (.childTest i))
  | childTest {i : Nat} : Calls behind (.childTest i)
      (.caught fun caught => if caught then .childClose i else .exit 0)
  | childClose {i : Nat} : Calls behind (.childClose i) (.close .reading (.childWrite i))
  | childWrite {i : Nat} : Calls behind (.childWrite i) (.write (message behind i) (.exit 0))
  | sleep : Calls behind .sleep (.step .close)
  | close : Calls behind .close (.close .writing .newline)
  | newline : Calls behind .newline
      (.print (fun _ _ => .newline) true (.loop 0 (List.replicate bufferSize 0)))
  | loop {i : Nat} {b : List UInt8} (more : i < 2) : Calls behind (.loop i b)
      (.caught fun caught => if caught then .read i b else .wait 0 none)
  | looped {i : Nat} {b : List UInt8} (all : ¬ i < 2) :
      Calls behind (.loop i b) (.step (.wait 0 none))
  | read {i : Nat} {b : List UInt8} : Calls behind (.read i b)
      (.read bufferSize fun bytes => .print i (filled b bytes))
  | print {i : Nat} {b : List UInt8} : Calls behind (.print i b)
      (.print (fun _ _ => .message (cstring b)) true (.loop (i + 1) b))
  | wait {i : Nat} {status : Option Status} (more : i < 2) : Calls behind (.wait i status)
      (.wait fun child => .report i (child.elim status fun c => some c.2))
  | waited {i : Nat} {status : Option Status} (all : ¬ i < 2) :
      Calls behind (.wait i status) (.step .ok)
  | report {i : Nat} {status : Option Status} : Calls behind (.report i status)
      (.print (fun _ _ => .child status) true (.wait (i + 1) status))
  | ok : Calls behind .ok (.print (fun _ _ => .ok) true (.exit 0))
  | exit {c : Nat} : Calls behind (.exit c) (.exit c)

theorem calls {c : Call Local Line} (call : main behind l = c) : Calls behind l c := by
  subst call
  cases l with
  | fork i =>
      by_cases more : i < 2
      · simpa [main, more] using Calls.fork more
      · simpa [main, more] using Calls.forked more
  | loop i b =>
      by_cases more : i < 2
      · simpa [main, more] using Calls.loop more
      · simpa [main, more] using Calls.looped more
  | wait i status =>
      by_cases more : i < 2
      · simpa [main, more] using Calls.wait more
      · simpa [main, more] using Calls.waited more
  | _ => constructor

theorem write_call (call : main behind l = .write bytes l') :
    ∃ i, l = .childWrite i ∧ bytes = message behind i ∧ l' = .exit 0 := by
  cases calls call
  exact ⟨_, rfl, rfl, rfl⟩

theorem read_call {k : Nat} {next : Option (List UInt8) → Local}
    (call : main behind l = .read k next) :
    ∃ i b, l = .read i b ∧ k = bufferSize ∧ next = fun bytes => .print i (filled b bytes) := by
  cases calls call
  exact ⟨_, _, rfl, rfl, rfl⟩

theorem no_exec (l program failed : Local) : main behind l ≠ .exec program failed :=
  fun call => nomatch calls call

theorem no_image (l : Local) : main behind l ≠ .image := fun call => nomatch calls call

def Place (n : Pid) (p : Proc Local Line) : Prop :=
  match p.pc with
  | .fork i => n = [] ∧ p.forks = i ∧ i ≤ 2 ∧ p.buffer = [] ∧ ∀ e, p.holds e = true
  | .childSleep i | .childTest i | .childClose i =>
      n = [i] ∧ i < 2 ∧ p.buffer = [] ∧ ∀ e, p.holds e = true
  | .childWrite i => n = [i] ∧ i < 2 ∧ p.buffer = [] ∧ p.holds .writing = true
  | .sleep | .close => n = [] ∧ p.forks = 2 ∧ p.buffer = [] ∧ p.holds .reading = true
  | .newline =>
      n = [] ∧ p.forks = 2 ∧ p.buffer = [] ∧ p.holds .reading = true ∧ p.holds .writing = false
  | .loop i _ => n = [] ∧ p.forks = 2 ∧ p.holds .reading = true ∧ p.holds .writing = false ∧
      i ≤ 2 ∧ (0 < i → p.caught = true)
  | .read i _ | .print i _ => n = [] ∧ p.forks = 2 ∧ p.holds .reading = true ∧
      p.holds .writing = false ∧ i < 2 ∧ p.caught = true
  | .wait _ _ | .report _ _ | .ok =>
      n = [] ∧ p.forks = 2 ∧ p.holds .reading = true ∧ p.holds .writing = false
  | .exit _ => n = [] ∨ ∃ i, n = [i] ∧ i < 2 ∧ p.buffer = []

theorem place_kept : Assertion.Kept Place (main behind) := by
  intro n p place
  obtain ⟨pc, holds, forks, caught, buffer⟩ := p
  show Call.Keeps Place n ⟨pc, holds, forks, caught, buffer⟩ (main behind pc)
  generalize call : main behind pc = c
  cases calls call with
  | fork more =>
      simp only [Place] at place
      obtain ⟨rfl, rfl, -, rfl, ends⟩ := place
      exact ⟨.inl rfl, ⟨rfl, more, rfl, ends⟩, rfl, rfl, more, rfl, ends⟩
  | forked all =>
      simp only [Place] at place
      obtain ⟨rfl, rfl, bound, rfl, ends⟩ := place
      exact ⟨rfl, Nat.le_antisymm bound (Nat.le_of_not_lt all), rfl, ends .reading⟩
  | childTest =>
      obtain ⟨rfl, bound, rfl, ends⟩ := place
      cases caught
      · exact .inr ⟨_, rfl, bound, rfl⟩
      · exact ⟨rfl, bound, rfl, ends⟩
  | childClose =>
      obtain ⟨rfl, bound, rfl, ends⟩ := place
      exact ⟨rfl, bound, rfl, ends .writing⟩
  | childWrite =>
      obtain ⟨rfl, bound, rfl, -⟩ := place
      exact .inr ⟨_, rfl, bound, rfl⟩
  | close =>
      obtain ⟨rfl, forked, rfl, reading⟩ := place
      exact ⟨rfl, forked, rfl, reading, rfl⟩
  | newline =>
      obtain ⟨rfl, forked, rfl, ends⟩ := place
      have first : Place [] ⟨.loop 0 (List.replicate bufferSize 0), holds, forks, caught, []⟩ :=
        ⟨rfl, forked, ends.1, ends.2, by decide, nofun⟩
      exact ⟨first, fun _ => first⟩
  | loop more =>
      obtain ⟨rfl, forked, reading, writing, -, -⟩ := place
      cases caught
      · exact ⟨rfl, forked, reading, writing⟩
      · exact ⟨rfl, forked, reading, writing, more, rfl⟩
  | looped all =>
      obtain ⟨rfl, forked, reading, writing, -, -⟩ := place
      exact ⟨rfl, forked, reading, writing⟩
  | read => exact fun _ => place
  | print =>
      obtain ⟨rfl, forked, reading, writing, bound, caught⟩ := place
      exact ⟨⟨rfl, forked, reading, writing, bound, fun _ => caught⟩,
        fun _ => ⟨rfl, forked, reading, writing, bound, fun _ => caught⟩⟩
  | wait more => exact fun _ => place
  | report => exact ⟨place, fun _ => place⟩
  | ok => exact ⟨.inl place.1, fun _ => .inl place.1⟩
  | exit => trivial
  | _ => exact place

theorem place_deaf : Assertion.Deaf Place := by
  intro n p place
  obtain ⟨pc, holds, forks, caught, buffer⟩ := p
  cases pc <;> simp_all [Place]

theorem place (reach : (system behind tty).Reachable s)
    {p : Proc Local Line} (at_n : s.entry n = .running p) : Place n p :=
  each reach place_kept place_deaf ⟨rfl, rfl, by decide, rfl, fun _ => rfl⟩ at_n

theorem sized : Sized (main behind) bufferSize := by
  refine fun l => ⟨fun bytes l' call => ?_, fun k next call => ?_⟩
  · obtain ⟨i, -, rfl, -⟩ := write_call call
    exact length_message
  · obtain ⟨i, b, -, rfl, -⟩ := read_call call
    rfl

theorem writes_after : WritesOnce (main behind) fun l => ∃ c, l = .exit c where
  kept n p after := by
    obtain ⟨c, after⟩ := after
    rw [after]
    trivial
  write l bytes l' call := by
    obtain ⟨i, rfl, -, rfl⟩ := write_call call
    exact ⟨nofun, 0, rfl⟩

theorem written {ops : List Event} {answers : List Answer}
    (run : (system behind tty).exec (system behind tty).start ops = some (s, answers)) :
    ∀ e ∈ writes answers, ∃ i < 2, e = ([i], message behind i) := by
  apply Component.exec_answers (I := fun (_ : State) answers =>
    ∀ e ∈ writes answers, ∃ i < 2, e = ([i], message behind i)) run
  · exact nofun
  · intro ops s answers e t a _ earlier own next
    rw [writes_concat]
    rcases (step_cases next).wrote with silent | ⟨n, p, bytes, l, at_n, call, -, rfl, -⟩
    · rwa [silent, Option.toList_none, List.append_nil]
    · have here := place ⟨ops, answers, earlier⟩ at_n
      obtain ⟨i, at_write, rfl, -⟩ := write_call call
      rw [Place, at_write] at here
      obtain ⟨rfl, bound, -⟩ := here
      intro e mem
      rcases List.mem_append.mp mem with old | new
      · exact own e old
      · exact ⟨i, bound, List.mem_singleton.mp new⟩

end OsUnix.SignalPipe
