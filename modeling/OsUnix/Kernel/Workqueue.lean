import Mathlib.Data.Nat.Notation

/-!
# Deferred work

A work item, or a tasklet, waits once at a time and does not run beside itself. `queue_work` marks
an item as pending before it looks at the queue, and a queue that drains puts no work from outside
on its list: such an item stays pending for ever.
-/

namespace OsUnix.Kernel

/-- How often the item was queued, its function started and its function finished. -/
structure Work where
  queued : Nat
  started : Nat
  finished : Nat
  finished_le : finished ≤ started
  started_le : started ≤ queued
  one_running : started ≤ finished + 1
  one_pending : queued ≤ started + 1

namespace Work

def fresh : Work where
  queued := 0
  started := 0
  finished := 0
  finished_le := Nat.le_refl 0
  started_le := Nat.le_refl 0
  one_running := Nat.zero_le 1
  one_pending := Nat.zero_le 1

def Pending (w : Work) : Prop := w.started < w.queued

def Running (w : Work) : Prop := w.finished < w.started

instance (w : Work) : Decidable w.Pending := inferInstanceAs (Decidable (_ < _))

instance (w : Work) : Decidable w.Running := inferInstanceAs (Decidable (_ < _))

def queue (w : Work) : Work :=
  if pending : w.Pending then w
  else { w with
    queued := w.queued + 1
    started_le := Nat.le_succ_of_le w.started_le
    one_pending := Nat.succ_le_succ (Nat.le_of_not_lt pending) }

def start (w : Work) : Option Work :=
  if ready : w.Pending ∧ ¬ w.Running then
    some { w with
      started := w.started + 1
      finished_le := Nat.le_succ_of_le w.finished_le
      started_le := ready.1
      one_running := Nat.succ_le_succ (Nat.le_of_not_lt ready.2)
      one_pending := Nat.le_succ_of_le w.one_pending }
  else none

def finish (w : Work) : Option Work :=
  if running : w.Running then
    some { w with
      finished := w.finished + 1
      finished_le := running
      one_running := Nat.le_succ_of_le w.one_running }
  else none

def Idle (w : Work) : Prop := ¬ w.Pending ∧ ¬ w.Running

instance (w : Work) : Decidable w.Idle := inferInstanceAs (Decidable (_ ∧ _))

/-- What `flush_workqueue` waits for when `target` is how often the item was queued before. -/
def Flushed (w : Work) (target : Nat) : Prop := target ≤ w.finished

instance (w : Work) (target : Nat) : Decidable (w.Flushed target) :=
  inferInstanceAs (Decidable (_ ≤ _))

variable {w : Work}

theorem idle_fresh : fresh.Idle := ⟨Nat.lt_irrefl 0, Nat.lt_irrefl 0⟩

theorem pending_queue : w.queue.Pending := by
  unfold queue
  split
  · assumption
  · exact Nat.lt_succ_of_le w.started_le

theorem Idle.not_start (idle : w.Idle) : w.start = none := dif_neg fun ready => idle.1 ready.1

theorem Idle.not_finish (idle : w.Idle) : w.finish = none := dif_neg idle.2

end Work

/-- `destroy_workqueue` drains the queue, and takes it down when the list is empty. -/
inductive Queue
  | absent
  | active
  | draining
  | closing
  | destroyed
deriving DecidableEq, Repr

namespace Queue

/-- From the call of `destroy_workqueue` on only items of the queue itself may queue work on it. -/
def Usable (q : Queue) : Prop := q = .active

def Lists (q : Queue) : Prop := q = .active ∨ q = .closing

def Over (q : Queue) : Prop := q = .closing ∨ q = .destroyed

instance (q : Queue) : Decidable q.Usable := inferInstanceAs (Decidable (_ = _))

instance (q : Queue) : Decidable q.Lists := inferInstanceAs (Decidable (_ ∨ _))

instance (q : Queue) : Decidable q.Over := inferInstanceAs (Decidable (_ ∨ _))

end Queue

end OsUnix.Kernel
