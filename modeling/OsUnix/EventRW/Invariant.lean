import OsUnix.EventRW.Model
import OsUnix.Concurrency.Counting

/-!
# The invariant of the event readers and writers

What holds in every run, also where exclusion has failed: who owns the mutex, what the counters
count, and who will signal an event that is not signalled.
-/

namespace OsUnix.EventRW
open Concurrency

variable {readers writers : Nat} {s t : State readers writers} {i j : Thread readers writers}

def Local.owning : Local → Bool
  | .reader .incWaiting | .reader .testWrt | .reader .testWaiting | .reader .wait
  | .reader .reset | .reader .decWaiting | .reader .incNr | .reader .set | .reader .release => true
  | .writer .incWaiting _ | .writer .testNr _ | .writer .testWrt _ | .writer .wait _
  | .writer .reset _ | .writer .decWaiting _ | .writer .setWrt _ | .writer .release _ => true
  | _ => false

def Local.counted : Local → Bool
  | .reader .set | .reader .release | .reader .print | .reader .decNr => true
  | _ => false

def Local.readerWaiting : Local → Bool
  | .reader .testWrt | .reader .testWaiting | .reader .wait | .reader .reset
  | .reader .decWaiting => true
  | _ => false

def Local.admitting : Local → Bool
  | .reader .reset | .reader .decWaiting | .reader .incNr | .reader .set => true
  | _ => false

def Local.marked : Local → Bool
  | .writer .release _ | .writer .load _ | .writer (.store _) _ | .writer .print _
  | .writer .clearWrt _ => true
  | _ => false

theorem marked_cases {l : Local} (marked : l.marked = true) :
    l.owning = true ∨ l.writing = true := by
  cases l with
  | reader pc => cases marked
  | writer pc k => cases pc <;> simp_all [Local.marked, Local.owning, Local.writing]

theorem counted_cases {l : Local} (counted : l.counted = true) :
    l.owning = true ∨ l.reading = true := by
  cases l with
  | reader pc => cases pc <;> simp_all [Local.counted, Local.owning, Local.reading]
  | writer pc k => cases counted

def Local.isWriter : Local → Bool
  | .reader _ => false
  | .writer _ _ => true

theorem isWriter_eq (h : (system readers writers).Reachable s) :
    ∀ i, (s.locals i).isWriter = i.isRight := by
  apply h.each (Q := fun i l => l.isWriter = i.isRight)
  · intro i
    cases i <;> rfl
  · intro i g l g' l' a step same
    have move := step_iff.mp step
    cases move <;> exact same

theorem guards (h : (system readers writers).Reachable s) :
    s.shared.rwMutex.Guards Local.owning s.locals := by
  apply h.invariant (I := fun s => s.shared.rwMutex.Guards Local.owning s.locals)
  · refine .start fun i => ?_
    cases i <;> rfl
  · intro s i t inv next
    obtain ⟨g, l, a, move, rfl⟩ := next_cases next
    simp only [Config.move_shared, Config.move_locals]
    generalize before : s.locals i = l₀ at move
    cases move with
    | readerLock took => exact inv.take (by rw [before]; rfl) took rfl
    | writerLock took => exact inv.take (by rw [before]; rfl) took rfl
    | readerRelease => exact inv.leave (by rw [before]; rfl) rfl
    | writerRelease => exact inv.leave (by rw [before]; rfl) rfl
    | _ => exact inv.stay (by rw [before]; rfl)

theorem count_start {p : Local → Bool} (reader : p (.reader .guard) = false)
    (writer : p (.writer .guard 0) = false) :
    count p (system readers writers).locals₀ = 0 := by
  refine count_eq_zero_iff.mpr fun i => ?_
  cases i with
  | inl r => exact reader
  | inr w => exact writer

theorem nr_eq (h : (system readers writers).Reachable s) :
    s.shared.nr = count Local.counted s.locals := by
  refine h.counted (c := fun s => s.shared.nr) ?_ ?_
  · rw [count_start rfl rfl]
    rfl
  · intro s i g l a _ step
    have move := step_iff.mp step
    generalize s.locals i = l₀ at move
    cases move <;> simp [Local.counted]

theorem waitingReaders_eq (h : (system readers writers).Reachable s) :
    s.shared.waitingReaders = count Local.readerWaiting s.locals := by
  refine h.counted (c := fun s => s.shared.waitingReaders) ?_ ?_
  · rw [count_start rfl rfl]
    rfl
  · intro s i g l a _ step
    have move := step_iff.mp step
    generalize s.locals i = l₀ at move
    cases move <;> simp [Local.readerWaiting]

theorem cRead_signalled (h : (system readers writers).Reachable s) :
    s.shared.cRead.signalled = true ∨ ∃ i, (s.locals i).admitting = true := by
  apply h.invariant
    (I := fun s => s.shared.cRead.signalled = true ∨ ∃ i, (s.locals i).admitting = true)
    (Or.inl rfl)
  intro s i t inv next
  obtain ⟨g, l, a, move, rfl⟩ := next_cases next
  simp only [Config.move_shared, Config.move_locals]
  generalize before : s.locals i = l₀ at move
  cases move with
  | readerSet => exact Or.inl rfl
  | setRead => exact Or.inl rfl
  | readerWait passed => exact Or.inr (System.exists_update_self rfl)
  | readerReset => exact Or.inr (System.exists_update_self rfl)
  | _ =>
      exact inv.imp id fun some =>
        System.exists_update some (by rw [before]; simp [Local.admitting])

theorem marked_of_wrt (h : (system readers writers).Reachable s) (busy : s.shared.wrt = true) :
    ∃ i, (s.locals i).marked = true := by
  revert busy
  refine h.invariant
    (I := fun s => s.shared.wrt = true → ∃ i, (s.locals i).marked = true)
    (fun busy => by cases busy) ?_
  intro s i t inv next
  obtain ⟨g, l, a, move, rfl⟩ := next_cases next
  simp only [Config.move_shared, Config.move_locals]
  generalize before : s.locals i = l₀ at move
  cases move with
  | setWrt => exact fun _ => System.exists_update_self rfl
  | clearWrt => exact fun busy => by cases busy
  | _ => exact fun busy => System.exists_update (inv busy) (by rw [before]; simp [Local.marked])

end OsUnix.EventRW
