import OsUnix.Kernel.Component
import OsUnix.Kernel.Workqueue

/-!
# The tasklet module

`6-semestr/lab9/tesklet/tasklet.c`: `my_tasklet_init` and `my_tasklet_exit` one call of the kernel
at a time, and beside them the interrupt handler and the tasklet.
-/

namespace OsUnix.Tasklet
open Kernel

inductive Stage
  | unloaded
  | procCreate
  | requestIrq
  | loaded
  | taskletKill
  | freeIrq
  | removeProcEntry
deriving DecidableEq, Repr

/-- The kernel calls the handler for `IRQ_NUM` only, so what it does is `tasklet_schedule`. -/
inductive Handler
  | idle
  | schedule
deriving DecidableEq, Repr

/-- `procFile` is whether the pointer is set, `proc` whether `/proc` has the entry. -/
structure Module where
  stage : Stage
  procFile : Bool
  proc : Bool
  registered : Bool
  handler : Handler
  tasklet : Work

namespace Module

def unloaded : Module where
  stage := .unloaded
  procFile := false
  proc := false
  registered := false
  handler := .idle
  tasklet := .fresh

def insmod (s : Module) : Module :=
  { s with stage := .procCreate, procFile := false, tasklet := .fresh }

/-- `proc_create` fails when it is refused memory and when the name is taken. -/
def procCreate (s : Module) (granted : Bool) : Module :=
  if granted ∧ s.proc = false then { s with stage := .requestIrq, procFile := true, proc := true }
  else { s with stage := .unloaded }

def requestIrq (s : Module) (granted : Bool) : Module :=
  if granted then { s with stage := .loaded, registered := true }
  else { s with stage := .unloaded }

/-- `tasklet_kill` and `free_irq` wait, the one for the tasklet and the other for the handler. -/
def advance (s : Module) (granted : Bool) : Option Module :=
  match s.stage with
  | .procCreate => some (s.procCreate granted)
  | .requestIrq => some (s.requestIrq granted)
  | .taskletKill => if s.tasklet.Idle then some { s with stage := .freeIrq } else none
  | .freeIrq =>
      if s.handler = .idle then some { s with stage := .removeProcEntry, registered := false }
      else none
  | .removeProcEntry =>
      some { s with stage := .unloaded, proc := if s.procFile then false else s.proc }
  | .unloaded | .loaded => none

end Module

/-- `run` goes on with `my_tasklet_init` or `my_tasklet_exit`, and `handle` with the handler. -/
inductive Event
  | load
  | run (granted : Bool)
  | unload
  | interrupt
  | handle
  | start
  | finish
deriving DecidableEq, Repr

def Module.step (s : Module) : Event → Option Module
  | .load => if s.stage = .unloaded then some s.insmod else none
  | .run granted => s.advance granted
  | .unload => if s.stage = .loaded then some { s with stage := .taskletKill } else none
  | .interrupt =>
      if s.registered ∧ s.handler = .idle then some { s with handler := .schedule } else none
  | .handle =>
      if s.handler = .schedule then some { s with handler := .idle, tasklet := s.tasklet.queue }
      else none
  | .start => s.tasklet.start.map fun tasklet => { s with tasklet }
  | .finish => s.tasklet.finish.map fun tasklet => { s with tasklet }

def lifecycle : Component Module Event Unit := .silent .unloaded Module.step

end OsUnix.Tasklet
