import OsUnix.Kernel.Component
import OsUnix.Kernel.Workqueue
import Mathlib.Data.Fintype.Sum
import Mathlib.Tactic.DeriveFintype

/-!
# The work queue module

`6-semestr/lab9/queue/queue.c`: `my_wq_init` and `my_wq_exit` one call of the kernel at a time, and
beside them the interrupt handler and the workers. `SHARED_IRQ` is read as `IRQ_NUM`, for which
alone the handler is registered, and `irq_call_n` as `irq_call_count`.
-/

namespace OsUnix.WorkQueue
open Kernel

inductive Slot
  | work1
  | work2
deriving DecidableEq, Repr

instance : Fintype Slot := ⟨{.work1, .work2}, fun k => by cases k <;> decide⟩

def Slot.id : Slot → Int
  | .work1 => 1
  | .work2 => 2

/-- A `lost` item is pending on no list. -/
inductive Cell
  | raw
  | ready (w : Work)
  | lost (w : Work)
  | freed

def Cell.work : Cell → Option Work
  | .ready w | .lost w => some w
  | .raw | .freed => none

def Cell.listed : Cell → Option Work
  | .ready w => some w
  | .raw | .lost _ | .freed => none

def Cell.drained : Cell → Bool
  | .ready w => w.Idle
  | .lost w => !decide w.Running
  | .raw | .freed => true

structure Item where
  my_work : Cell
  id : Int
  data : Int

inductive Stage
  | unloaded
  | requestIrq
  | createWorkqueue
  | undoIrq
  | allocWork (k : Slot)
  | initWork (k : Slot)
  | loaded
  | flush
  | flushing
  | destroy
  | destroying
  | closing
  | freeIrq
  | kfree (k : Slot)
deriving DecidableEq, Repr, Fintype

def Stage.afterAlloc : Slot → Stage
  | .work1 => .allocWork .work2
  | .work2 => .loaded

inductive Handler
  | idle
  | test (k : Slot)
  | queue (k : Slot)
deriving DecidableEq, Repr

def Handler.after : Slot → Handler
  | .work1 => .test .work2
  | .work2 => .idle

/-- `target` is how often each item had been queued when the flush began. -/
structure Module where
  stage : Stage
  registered : Bool
  handler : Handler
  wq : Queue
  item : Slot → Option Item
  irqCallCount : Int
  target : Slot → Nat

namespace Module

def unloaded : Module where
  stage := .unloaded
  registered := false
  handler := .idle
  wq := .absent
  item _ := none
  irqCallCount := 0
  target _ := 0

def leave (s : Module) : Module :=
  { s with stage := .unloaded, wq := .absent, item := fun _ => none, irqCallCount := 0 }

def set (s : Module) (k : Slot) (item : Option Item) : Module :=
  { s with item := Function.update s.item k item }

def work (s : Module) (k : Slot) : Option Work := (s.item k).bind fun item => item.my_work.work

def listed (s : Module) (k : Slot) : Option Work := (s.item k).bind fun item => item.my_work.listed

def drained (s : Module) (k : Slot) : Bool := (s.item k).all fun item => item.my_work.drained

def flushed (s : Module) (k : Slot) : Bool := (s.work k).all fun w => w.Flushed (s.target k)

def requestIrq (s : Module) (granted : Bool) : Module :=
  if granted then { s with stage := .createWorkqueue, registered := true } else s.leave

def createWorkqueue (s : Module) (granted : Bool) : Module :=
  if granted then { s with stage := .allocWork .work1, wq := .active }
  else { s with stage := .undoIrq }

/-- `work1 = alloc_work(1)`: the pointer is there for the handler before `INIT_WORK`. -/
def allocWork (s : Module) (k : Slot) (granted : Bool) : Module :=
  if granted then
    { s.set k (some { my_work := .raw, id := k.id, data := 0 }) with stage := .initWork k }
  else { s.set k none with stage := Stage.afterAlloc k }

def initWork (s : Module) (k : Slot) : Module :=
  { s.set k ((s.item k).map fun item => { item with my_work := .ready .fresh }) with
    stage := Stage.afterAlloc k }

def flush (s : Module) : Module :=
  { s with stage := .flushing, target := fun k => ((s.work k).map Work.queued).getD 0 }

def kfree (s : Module) (k : Slot) : Module :=
  s.set k ((s.item k).map fun item => { item with my_work := .freed })

/-- `free_irq` and the ends of the two waits answer when what they wait for is there. -/
def advance (s : Module) (granted : Bool) : Option Module :=
  match s.stage with
  | .requestIrq => some (s.requestIrq granted)
  | .createWorkqueue => some (s.createWorkqueue granted)
  | .undoIrq => if s.handler = .idle then some { s with registered := false }.leave else none
  | .allocWork k => some (s.allocWork k granted)
  | .initWork k => some (s.initWork k)
  | .flush => some s.flush
  | .flushing =>
      if s.flushed .work1 ∧ s.flushed .work2 then some { s with stage := .destroy } else none
  | .destroy => some { s with stage := .destroying, wq := .draining }
  | .destroying =>
      if s.drained .work1 ∧ s.drained .work2 then some { s with stage := .closing, wq := .closing }
      else none
  | .closing => some { s with stage := .freeIrq, wq := .destroyed }
  | .freeIrq =>
      if s.handler = .idle then some { s with stage := .kfree .work1, registered := false }
      else none
  | .kfree .work1 => some { s.kfree .work1 with stage := .kfree .work2 }
  | .kfree .work2 => some (s.kfree .work2).leave
  | .unloaded | .loaded => none

/-- A pending item is left alone. Nothing is known of what happens to an item that is not there. -/
def queueWork (s : Module) (k : Slot) : Module :=
  match s.item k with
  | some { my_work := .ready w, id, data } =>
      let cell := if w.Pending ∨ s.wq.Lists then .ready w.queue else .lost w.queue
      s.set k (some { my_work := cell, id, data })
  | _ => s

def handle (s : Module) : Option Module :=
  match s.handler with
  | .idle => none
  | .test k => some { s with handler := if (s.item k).isSome then .queue k else .after k }
  | .queue k => some { s.queueWork k with handler := .after k }

def start (s : Module) (k : Slot) : Option Module :=
  -- `my_wq_function` up to `msleep`
  match s.item k with
  | some { my_work := .ready w, id, data } =>
      w.start.map fun w =>
        { s.set k (some { my_work := .ready w, id, data := data + 1 }) with
          irqCallCount := s.irqCallCount + 1 }
  | _ => none

def finish (s : Module) (k : Slot) : Option Module :=
  match s.item k with
  | some { my_work := .ready w, id, data } =>
      w.finish.map fun w => s.set k (some { my_work := .ready w, id, data })
  | some { my_work := .lost w, id, data } =>
      w.finish.map fun w => s.set k (some { my_work := .lost w, id, data })
  | _ => none

end Module

/-- `run` goes on with `my_wq_init` or `my_wq_exit`, and `handle` with the handler. -/
inductive Event
  | load
  | run (granted : Bool)
  | unload
  | interrupt
  | handle
  | start (k : Slot)
  | finish (k : Slot)
deriving DecidableEq, Repr

def Module.step (s : Module) : Event → Option Module
  | .load => if s.stage = .unloaded then some { s with stage := .requestIrq } else none
  | .run granted => s.advance granted
  | .unload => if s.stage = .loaded then some { s with stage := .flush } else none
  | .interrupt =>
      if s.registered ∧ s.handler = .idle then some { s with handler := .test .work1 } else none
  | .handle => s.handle
  | .start k => s.start k
  | .finish k => s.finish k

def lifecycle : Component Module Event Unit := .silent .unloaded Module.step

end OsUnix.WorkQueue
