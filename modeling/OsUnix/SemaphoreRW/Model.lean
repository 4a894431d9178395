import OsUnix.Concurrency.System
import OsUnix.Concurrency.SystemV

/-!
# Readers and writers over System V semaphores

The processes of `5-semestr/lab5/task2.c`. A call of `semop` is two steps: the process enters the
call, where it may sleep, and the whole array takes effect when the call completes.
-/

namespace OsUnix.SemaphoreRW
open Concurrency

inductive Sem
  | aw | ww | ar | wr
deriving DecidableEq, Repr

abbrev inc : Int := 1
abbrev dec : Int := -1
abbrev slp : Int := 0

def startRead : List (Sembuf Sem) := [⟨.wr, inc⟩, ⟨.ww, slp⟩, ⟨.aw, slp⟩, ⟨.wr, dec⟩, ⟨.ar, inc⟩]

def stopRead : List (Sembuf Sem) := [⟨.ar, dec⟩]

def startWrite : List (Sembuf Sem) := [⟨.ww, inc⟩, ⟨.aw, slp⟩, ⟨.ar, slp⟩, ⟨.ww, dec⟩, ⟨.aw, inc⟩]

def stopWrite : List (Sembuf Sem) := [⟨.aw, dec⟩]

structure Shared where
  sems : Sem → Nat
  shm : Int

inductive ReaderPc
  | call | wait | print | stop
deriving DecidableEq, Repr

inductive WriterPc
  | call | wait | load | store (tmp : Int) | print | stop
deriving DecidableEq, Repr

inductive Local
  | reader (pc : ReaderPc)
  | writer (pc : WriterPc)
deriving DecidableEq, Repr

inductive Action
  | callStartRead | startRead | printRead (value : Int) | stopRead
  | callStartWrite | startWrite | load (value : Int) | store (value : Int)
  | printWrite (value : Int) | stopWrite
deriving DecidableEq, Repr

def reader (g : Shared) : ReaderPc → Option (Shared × ReaderPc × Action)
  | .call => some (g, .wait, .callStartRead)
  | .wait => (semop g.sems startRead).map fun v => ({ g with sems := v }, .print, .startRead)
  | .print => some (g, .stop, .printRead g.shm)
  | .stop => (semop g.sems stopRead).map fun v => ({ g with sems := v }, .call, .stopRead)

def writer (g : Shared) : WriterPc → Option (Shared × WriterPc × Action)
  | .call => some (g, .wait, .callStartWrite)
  | .wait => (semop g.sems startWrite).map fun v => ({ g with sems := v }, .load, .startWrite)
  | .load => some (g, .store g.shm, .load g.shm)
  | .store tmp => some ({ g with shm := tmp + 1 }, .print, .store (tmp + 1))
  | .print => some (g, .stop, .printWrite g.shm)
  | .stop => (semop g.sems stopWrite).map fun v => ({ g with sems := v }, .call, .stopWrite)

def system (readers writers : Nat) : System (Fin readers ⊕ Fin writers) Shared Local Action where
  shared₀ := ⟨fun _ => 0, 0⟩
  locals₀ := Sum.elim (fun _ => .reader .call) (fun _ => .writer .call)
  step _ g
    | .reader pc => (reader g pc).map fun r => (r.1, .reader r.2.1, r.2.2)
    | .writer pc => (writer g pc).map fun r => (r.1, .writer r.2.1, r.2.2)

abbrev State (readers writers : Nat) := Config (Fin readers ⊕ Fin writers) Shared Local Action

def Local.reading : Local → Bool
  | .reader .print | .reader .stop => true
  | _ => false

def Local.writing : Local → Bool
  | .writer .load | .writer (.store _) | .writer .print | .writer .stop => true
  | _ => false

theorem semop_startRead (v : Sem → Nat) : semop v startRead =
    if v .ww = 0 ∧ v .aw = 0 then some (raise v .ar) else none := by
  simp only [startRead, semop_raise, semop_wait, semop_lower, semop_nil]
  by_cases ww : v .ww = 0 <;> by_cases aw : v .aw = 0 <;> simp [ww, aw]

theorem semop_stopRead (v : Sem → Nat) : semop v stopRead =
    if 0 < v .ar then some (lower v .ar) else none := by
  simp [stopRead]

theorem semop_startWrite (v : Sem → Nat) : semop v startWrite =
    if v .aw = 0 ∧ v .ar = 0 then some (raise v .aw) else none := by
  simp only [startWrite, semop_raise, semop_wait, semop_lower, semop_nil]
  by_cases aw : v .aw = 0 <;> by_cases ar : v .ar = 0 <;> simp [aw, ar]

theorem semop_stopWrite (v : Sem → Nat) : semop v stopWrite =
    if 0 < v .aw then some (lower v .aw) else none := by
  simp [stopWrite]

end OsUnix.SemaphoreRW
