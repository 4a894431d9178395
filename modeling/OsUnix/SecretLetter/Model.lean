import OsUnix.Kernel.ProcessRules
import OsUnix.Kernel.Text

/-!
# A letter through the pipe

`main` of `5-semestr/lab4/task5.c`, from the creation of the pipe on. The parent writes one of two
texts, and the child reads it byte by byte until it finds the end. What the handler of the signal
prints is left out.
-/

namespace OsUnix.SecretLetter
open Kernel Kernel.Processes

def secret : List UInt8 :=
  [73, 116, 96, 115, 32, 109, 121, 32, 115, 101, 99, 114, 101, 116, 32, 101, 109, 97, 105, 108, 32,
    102, 111, 114, 32, 121, 111, 117, 44, 32, 115, 111, 110, 46, 32, 70, 97, 116, 104, 101, 114, 46]

def hello : List UInt8 := [72, 101, 108, 108, 111, 32, 109, 121, 32, 99, 104, 105, 108, 100, 33]

/-- The `strlen(msg)` bytes that the parent writes. -/
def mail (parentFlag : Bool) : List UInt8 := if parentFlag then secret else hello

inductive Line
  | waiting
  | reading
  | read (msg : List UInt8)
deriving DecidableEq, Repr

inductive Local
  | fork
  | childClose
  | loop (i : Nat) (msg : List UInt8)
  | reading (msg : List UInt8)
  | print (msg : List UInt8)
  | close
  | waiting
  | sleep
  | test
  | write (parentFlag : Bool)
  | exit (code : Nat)
deriving DecidableEq, Repr

def stored (msg : List UInt8) (i : Nat) : Option (List UInt8) → List UInt8
  | some (c :: _) => msg.set i c
  | _ => msg

/-- `read` returns the number of bytes, which the loop compares with `'\0'`. -/
def main : Local → Call Local Line
  | .fork => .fork .childClose (.exit 1) fun _ => .close
  | .childClose => .close .writing (.loop 0 (List.replicate 64 0))
  | .loop i msg =>
      .read 1 fun r => if r = some [] then .reading msg else .loop (i + 1) (stored msg i r)
  | .reading msg => .print (fun _ _ => .reading) true (.print msg)
  | .print msg => .print (fun _ _ => .read (cstring msg)) true (.exit 0)
  | .close => .close .reading .waiting
  | .waiting => .print (fun _ _ => .waiting) true .sleep
  | .sleep => .step .test
  | .test => .caught .write
  | .write parentFlag => .write (mail parentFlag) (.exit 0)
  | .exit code => .exit code

abbrev State := Processes.State Local Line

def system (tty : Bool) : Component State Event Answer := Processes.system main tty true .fork

variable {tty : Bool} {s t : State} {n : Pid} {l : Local}

def Line.text? : Line → Option (List UInt8)
  | .read msg => some msg
  | _ => none

def Place (n : Pid) (p : Proc Local Line) : Prop :=
  match p.pc with
  | .fork => n = [] ∧ p.forks = 0 ∧ p.buffer = [] ∧ ∀ e, p.holds e = true
  | .close | .waiting => n = [] ∧ p.forks = 1 ∧ p.buffer = [] ∧ p.holds .writing = true
  | .sleep | .test | .write _ =>
      n = [] ∧ p.forks = 1 ∧ p.buffer.filterMap Line.text? = [] ∧ p.holds .writing = true
  | .childClose => n = [0] ∧ p.buffer = [] ∧ p.holds .reading = true
  | .loop _ _ | .reading _ | .print _ =>
      n = [0] ∧ p.holds .reading = true ∧ p.holds .writing = false
  | .exit _ => n = [0] ∨ n = [] ∧ p.buffer.filterMap Line.text? = []

theorem place_kept : Assertion.Kept Place main := by
  intro n p place
  obtain ⟨pc, holds, forks, caught, buffer⟩ := p
  cases pc with
  | fork =>
      simp only [Place] at place
      obtain ⟨rfl, rfl, rfl, ends⟩ := place
      exact ⟨.inr ⟨rfl, rfl⟩, ⟨rfl, rfl, ends .reading⟩, rfl, rfl, rfl, ends .writing⟩
  | childClose =>
      obtain ⟨rfl, -, reading⟩ := place
      exact ⟨rfl, reading, rfl⟩
  | loop i msg =>
      intro r
      by_cases ended : r = some []
      · rw [ended]
        exact place
      · simpa only [Place, ended, ↓reduceIte] using place
  | reading msg => exact ⟨place, fun _ => place⟩
  | print msg => exact ⟨.inl place.1, fun _ => .inl place.1⟩
  | close => exact place
  | waiting =>
      obtain ⟨rfl, forked, rfl, writing⟩ := place
      exact ⟨⟨rfl, forked, rfl, writing⟩, fun _ => ⟨rfl, forked, rfl, writing⟩⟩
  | sleep => exact place
  | test => exact place
  | write b => exact .inr ⟨place.1, place.2.2.1⟩
  | exit c => trivial

theorem place_deaf : Assertion.Deaf Place := by
  intro n p place
  obtain ⟨pc, holds, forks, caught, buffer⟩ := p
  cases pc <;> exact place

theorem place (reach : (system tty).Reachable s) {p : Proc Local Line}
    (at_n : s.entry n = .running p) : Place n p :=
  each reach place_kept place_deaf ⟨rfl, rfl, rfl, fun _ => rfl⟩ at_n

theorem Place.name {p : Proc Local Line} (here : Place n p) : n = [] ∨ n = [0] := by
  obtain ⟨pc, holds, forks, caught, buffer⟩ := p
  cases pc with
  | exit c => exact here.symm.imp_left And.left
  | childClose | loop i msg | reading msg | print msg => exact .inr here.1
  | _ => exact .inl here.1

theorem Place.no_read {p : Proc Local Line} (here : Place [] p) (k : Nat)
    (next : Option (List UInt8) → Local) : main p.pc ≠ .read k next := by
  obtain ⟨pc, holds, forks, caught, buffer⟩ := p
  cases pc with
  | loop i msg => cases here.1
  | _ => exact nofun

end OsUnix.SecretLetter
