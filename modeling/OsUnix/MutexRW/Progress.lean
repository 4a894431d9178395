import OsUnix.MutexRW.Invariant

/-!
# The events follow the counters, and nobody gets stuck

With the mutex free only an event can block, and a thread that keeps an event reset is never blocked
by the other event for good: a registered reader waits for nothing but the mutex.
-/

namespace OsUnix.MutexRW
open Concurrency

variable {readers writers : Nat} {s : State readers writers} {i j : Thread readers writers}

theorem signalled_iff_zero {e : Event} {closing counted : Local → Bool} {c : Int}
    (tracks : e.Tracks closing s.locals) (eq : c = count counted s.locals)
    (outside : ∀ j, (s.locals j).owning = false)
    (of_counted : ∀ l, counted l = true → closing l = true)
    (either : ∀ l, closing l = true → l.owning = true ∨ counted l = true) :
    e.signalled = true ↔ c = 0 := by
  constructor
  · intro signalled
    by_contra nonzero
    obtain ⟨j, some_counted⟩ := exists_of_counted eq nonzero
    have open_at := tracks.mp signalled j
    rw [of_counted _ some_counted] at open_at
    cases open_at
  · intro zero
    apply tracks.mpr
    intro j
    rw [← Bool.not_eq_true]
    intro still
    cases either _ still with
    | inl owning =>
        rw [outside j] at owning
        cases owning
    | inr some_counted =>
        rw [none_of_counted eq zero j] at some_counted
        cases some_counted

theorem eventRead_iff (h : (system readers writers).Reachable s)
    (free : s.shared.singleMut.owner = none) :
    s.shared.eventRead.signalled = true ↔ s.shared.writCount = 0 :=
  signalled_iff_zero (eventRead_tracks h) (writCount_eq h) ((guards h).free_iff.mp free)
    writerClosing_of_counted writerClosing_cases

theorem eventWrite_iff (h : (system readers writers).Reachable s)
    (free : s.shared.singleMut.owner = none) :
    s.shared.eventWrite.signalled = true ↔ s.shared.readCount = 0 :=
  signalled_iff_zero (eventWrite_tracks h) (readCount_eq h) ((guards h).free_iff.mp free)
    readerClosing_of_counted readerClosing_cases

def Local.waiting : Local → Bool
  | .reader .waitRead _ | .writer .waitWrite _ => true
  | _ => false

def Local.locking : Local → Bool
  | .reader .lock _ | .reader .relock _ | .writer .lock _ | .writer .relock _ => true
  | _ => false

theorem enabled_of_running (waiting : (s.locals i).waiting = false)
    (locking : (s.locals i).locking = false) (unfinished : (s.locals i).returned = false) :
    (system readers writers).Enabled s i := by
  rw [System.enabled_iff]
  generalize s.locals i = l at waiting locking unfinished
  cases l with
  | reader pc k => cases pc <;> first
      | rfl
      | simp_all [Local.waiting, Local.locking, Local.returned]
  | writer pc k => cases pc <;> first
      | rfl
      | simp_all [Local.waiting, Local.locking, Local.returned]

theorem enabled_of_owning (owning : (s.locals i).owning = true) :
    (system readers writers).Enabled s i := by
  apply enabled_of_running <;> generalize s.locals i = l at owning <;> cases l with
  | reader pc k => cases pc <;> first | rfl | cases owning
  | writer pc k => cases pc <;> first | rfl | cases owning

theorem enabled_of_locking (free : s.shared.singleMut.owner = none)
    (locking : (s.locals i).locking = true) : (system readers writers).Enabled s i := by
  rw [System.enabled_iff]
  generalize s.locals i = l at locking
  cases l with
  | reader pc k =>
      cases pc <;> simp only [Local.locking, Bool.false_eq_true] at locking
      all_goals simp [system, reader, Mutex.wait, free]
  | writer pc k =>
      cases pc <;> simp only [Local.locking, Bool.false_eq_true] at locking
      all_goals simp [system, writer, Mutex.wait, free]

theorem locking_of_readerCounted {l : Local} (counted : l.readerCounted = true)
    (outside : l.owning = false) : l.locking = true := by
  cases l with
  | reader pc k =>
      cases pc <;> first
        | rfl
        | simp_all [Local.readerCounted, Local.owning, Local.reading, Local.writing]
  | writer pc k => cases counted

theorem locking_of_writerCounted {l : Local} (counted : l.writerCounted = true)
    (outside : l.owning = false) : l.locking = true ∨ ∃ k, l = .writer .waitWrite k := by
  cases l with
  | reader pc k => cases counted
  | writer pc k =>
      cases pc <;> first
        | exact .inl rfl
        | exact .inr ⟨_, rfl⟩
        | simp_all [Local.writerCounted, Local.owning, Local.reading, Local.writing]

theorem enabled_of_waitWrite (h : (system readers writers).Reachable s)
    (free : s.shared.singleMut.owner = none) {k : Nat}
    (at_wait : s.locals i = .writer .waitWrite k) :
    ∃ j, (system readers writers).Enabled s j := by
  by_cases signalled : s.shared.eventWrite.signalled = true
  · refine ⟨i, ?_⟩
    rw [System.enabled_iff, at_wait]
    simp [system, writer, Event.wait, signalled]
  · obtain ⟨j, counted⟩ := exists_of_counted (readCount_eq h)
      (fun zero => signalled ((eventWrite_iff h free).mpr zero))
    have outside := (guards h).free_iff.mp free j
    exact ⟨j, enabled_of_locking free (locking_of_readerCounted counted outside)⟩

theorem enabled_of_waitRead (h : (system readers writers).Reachable s)
    (free : s.shared.singleMut.owner = none) {k : Nat}
    (at_wait : s.locals i = .reader .waitRead k) :
    ∃ j, (system readers writers).Enabled s j := by
  by_cases signalled : s.shared.eventRead.signalled = true
  · refine ⟨i, ?_⟩
    rw [System.enabled_iff, at_wait]
    simp [system, reader, Event.wait, signalled]
  · obtain ⟨j, counted⟩ := exists_of_counted (writCount_eq h)
      (fun zero => signalled ((eventRead_iff h free).mpr zero))
    have outside := (guards h).free_iff.mp free j
    rcases locking_of_writerCounted counted outside with locking | ⟨k, waits⟩
    · exact ⟨j, enabled_of_locking free locking⟩
    · exact enabled_of_waitWrite h free waits

theorem exists_enabled (h : (system readers writers).Reachable s)
    (unfinished : (s.locals i).returned = false) :
    ∃ j, (system readers writers).Enabled s j := by
  rcases (guards h).owner_cases with free | ⟨j, owner⟩
  · by_cases locking : (s.locals i).locking = true
    · exact ⟨i, enabled_of_locking free locking⟩
    by_cases waiting : (s.locals i).waiting = true
    · cases at_i : s.locals i with
      | reader pc k =>
          rw [at_i] at waiting
          cases pc <;> first | exact enabled_of_waitRead h free at_i | cases waiting
      | writer pc k =>
          rw [at_i] at waiting
          cases pc <;> first | exact enabled_of_waitWrite h free at_i | cases waiting
    exact ⟨i, enabled_of_running (by simpa using waiting) (by simpa using locking) unfinished⟩
  · exact ⟨j, enabled_of_owning (((guards h).owner_iff j).mpr owner)⟩

/-- A counter stays between zero and the number of threads, so the unsigned integer never wraps. -/
theorem counter_bounds {p : Local → Bool} {c : Int} (counted : c = count p s.locals) :
    0 ≤ c ∧ c ≤ readers + writers := by
  have few := count_le_card p s.locals
  rw [Fintype.card_sum, Fintype.card_fin, Fintype.card_fin] at few
  omega

theorem events_follow_counters (readers writers : Nat) (s : State readers writers)
    (h : (system readers writers).Reachable s) :
    (s.shared.singleMut.owner = none →
      (s.shared.eventRead.signalled = true ↔ s.shared.writCount = 0) ∧
      (s.shared.eventWrite.signalled = true ↔ s.shared.readCount = 0)) ∧
    (∀ i j, ((s.locals i).reading = true ∨ (s.locals i).writing = true) →
      ((s.locals j).reading = true ∨ (s.locals j).writing = true) → i = j) ∧
    (0 ≤ s.shared.readCount ∧ s.shared.readCount ≤ readers + writers) ∧
    (0 ≤ s.shared.writCount ∧ s.shared.writCount ≤ readers + writers) ∧
    ((∃ i, (s.locals i).returned = false) → ∃ j, (system readers writers).Enabled s j) := by
  refine ⟨fun free => ⟨eventRead_iff h free, eventWrite_iff h free⟩, fun i j inside inside' => ?_,
    counter_bounds (readCount_eq h), counter_bounds (writCount_eq h),
    fun ⟨i, unfinished⟩ => exists_enabled h unfinished⟩
  exact (guards h).unique (owning_of_inside inside) (owning_of_inside inside')

theorem events_follow_counters_crossed : ∃ s : State 1 1, (system 1 1).Reachable s ∧
    s.shared.singleMut.owner = none ∧ s.shared.readCount = 1 ∧ s.shared.writCount = 1 ∧
    ((s.shared.eventRead.signalled = true ↔ s.shared.writCount = 0) ∧
      (s.shared.eventWrite.signalled = true ↔ s.shared.readCount = 0)) ∧
    ∃ j, (system 1 1).Enabled s j := by
  obtain ⟨s, reach, holds⟩ := System.exists_reachable_of_exec (M := system 1 1)
    (List.replicate 4 (.inl (0 : Fin 1)) ++ List.replicate 7 (.inr (0 : Fin 1)) ++
      List.replicate 5 (.inl (0 : Fin 1)))
    (fun s => s.shared.singleMut.owner = none ∧ s.shared.readCount = 1 ∧ s.shared.writCount = 1 ∧
      (s.locals (.inr 0)).returned = false) (by decide)
  obtain ⟨free, one_reader, one_writer, unfinished⟩ := of_decide_eq_true holds
  have result := events_follow_counters 1 1 s reach
  exact ⟨s, reach, free, one_reader, one_writer, result.1 free,
    result.2.2.2.2 ⟨.inr 0, unfinished⟩⟩

end OsUnix.MutexRW
