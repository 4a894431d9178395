import OsUnix.EventRW.Model

/-!
# One thread at a time

What a thread does to the shared state when it goes through a routine while the others stand still.
-/

namespace OsUnix.EventRW
open Concurrency

section
variable {ι : Type}

def Shared.readerIn (g : Shared ι) : Shared ι :=
  { g with
    rwMutex := .free
    cRead := g.cRead.set
    waitingReaders := g.waitingReaders - 1
    nr := g.nr + 1 }

def Shared.writerIn (g : Shared ι) : Shared ι :=
  { g with
    rwMutex := .free
    cWrite := g.cWrite.reset
    waitingWriters := g.waitingWriters - 1
    wrt := true }

end

variable {readers writers : Nat} {s t : State readers writers} {i : Thread readers writers}
  {g g' : Shared (Thread readers writers)} {l l' : Local} {a : Action} {k : Nat}

theorem solo_move (run : (system readers writers).SoloTo i s g l)
    (move : Move i (iters * writers) g l g' l' a) : (system readers writers).SoloTo i s g' l' :=
  run.step (step_iff.mpr move)

theorem solo_start (at_i : s.locals i = l) : (system readers writers).SoloTo i s s.shared l :=
  at_i ▸ System.SoloTo.start

theorem solo_readerIn (run : (system readers writers).SoloTo i s g (.reader .reset))
    (owner : g.rwMutex = ⟨some (i, 1)⟩) :
    (system readers writers).SoloTo i s g.readerIn (.reader .print) := by
  have run := solo_move run .readerReset
  have run := solo_move run .readerDecWaiting
  have run := solo_move run .incNr
  have run := solo_move run .readerSet
  have run := solo_move run .readerRelease
  rw [owner, Mutex.release_owner] at run
  exact run

theorem solo_writerIn (run : (system readers writers).SoloTo i s g (.writer .reset k))
    (owner : g.rwMutex = ⟨some (i, 1)⟩) :
    (system readers writers).SoloTo i s g.writerIn (.writer .load k) := by
  have run := solo_move run .writerReset
  have run := solo_move run .writerDecWaiting
  have run := solo_move run .setWrt
  have run := solo_move run .writerRelease
  rw [owner, Mutex.release_owner] at run
  exact run

theorem solo_startWrite (at_i : s.locals i = .writer .guard k) (more : k < iters)
    (free : s.shared.rwMutex = .free)
    (pass : (¬ 0 < s.shared.nr ∧ s.shared.wrt = false) ∨
      s.shared.cWrite.wait = some s.shared.cWrite) :
    (system readers writers).SoloTo i s
      { s.shared with cWrite := s.shared.cWrite.reset, wrt := true } (.writer .load k) := by
  have took : s.shared.rwMutex.wait i = some ⟨some (i, 1)⟩ := by
    rw [free]
    rfl
  have run := solo_move (solo_start at_i) (.writerGuard more)
  have run := solo_move run (.writerLock took)
  have run := solo_move run .writerIncWaiting
  have admitted : (system readers writers).SoloTo i s
      { s.shared with
        rwMutex := ⟨some (i, 1)⟩
        waitingWriters := s.shared.waitingWriters + 1 } (.writer .reset k) := by
    by_cases busy : 0 < s.shared.nr
    · have run := solo_move run (.writerAfterReaders busy)
      exact solo_move run (.writerWait (pass.resolve_left fun idle => idle.1 busy))
    · have run := solo_move run (.writerTestNr busy)
      cases other : s.shared.wrt with
      | false => exact solo_move run (.writerTestWrt other)
      | true =>
          have run := solo_move run (.writerAfterWriter other)
          refine solo_move run (.writerWait (pass.resolve_left fun idle => ?_))
          rw [other] at idle
          cases idle.2
  have run := solo_writerIn admitted rfl
  simpa [Shared.writerIn, ← free] using run

theorem solo_publish {tmp : BitVec 16}
    (run : (system readers writers).SoloTo i s g (.writer (.store tmp) k)) :
    (system readers writers).SoloTo i s { g with buffer := tmp + 1, wrt := false }
      (.writer .testWaiting k) :=
  solo_move (solo_move (solo_move run .store) .writerPrint) .clearWrt

theorem solo_signal (run : (system readers writers).SoloTo i s g (.writer .testWaiting k))
    (no_reader : ¬ 0 < g.waitingReaders) :
    (system readers writers).SoloTo i s { g with cWrite := g.cWrite.set }
      (.writer .guard (k + 1)) :=
  solo_move (solo_move run (.chooseWrite no_reader)) .setWrite

def Shared.quiet (buffer : BitVec 16) (wrt signalled : Bool) : Shared (Thread readers writers) where
  rwMutex := .free
  cRead := ⟨false, true⟩
  cWrite := ⟨true, signalled⟩
  nr := 0
  wrt := wrt
  waitingReaders := 0
  waitingWriters := 0
  buffer := buffer

theorem quiet_init : (system readers writers).init.shared = .quiet 0 false true := rfl

theorem quiet_startWrite {buffer : BitVec 16} {wrt signalled : Bool} {k : Nat}
    (shared : s.shared = .quiet buffer wrt signalled) (at_i : s.locals i = .writer .guard k)
    (more : k < iters) (pass : wrt = false ∨ signalled = true) :
    (system readers writers).SoloTo i s (.quiet buffer true false) (.writer .load k) := by
  have run := solo_startWrite at_i more (by rw [shared]; rfl) (pass.imp
    (fun idle => by rw [shared]; exact ⟨lt_irrefl 0, idle⟩)
    (fun signalled => by rw [shared, signalled]; rfl))
  rw [shared] at run
  exact run

theorem quiet_publish {buffer tmp : BitVec 16} {wrt signalled : Bool} {k : Nat}
    (run : (system readers writers).SoloTo i s (.quiet buffer wrt signalled)
      (.writer (.store tmp) k)) :
    (system readers writers).SoloTo i s (.quiet (tmp + 1) false signalled)
      (.writer .testWaiting k) :=
  solo_publish run

theorem quiet_signal {buffer : BitVec 16} {wrt signalled : Bool} {k : Nat}
    (run : (system readers writers).SoloTo i s (.quiet buffer wrt signalled)
      (.writer .testWaiting k)) :
    (system readers writers).SoloTo i s (.quiet buffer wrt true) (.writer .guard (k + 1)) :=
  solo_signal run (lt_irrefl 0)

end OsUnix.EventRW
