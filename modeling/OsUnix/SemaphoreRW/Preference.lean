import OsUnix.SemaphoreRW.Invariant

/-!
# Writer preference in the semaphore program

`startWrite` announces a waiting writer and `startRead` waits for the announcement to go, but the
announcement is made and withdrawn inside one call. No state ever shows it.
-/

namespace OsUnix.SemaphoreRW
open Concurrency

variable {readers writers : Nat}

def BlockedWriter (s : State readers writers) (w : Fin writers) : Prop :=
  s.locals (.inr w) = .writer .wait ∧ ¬ (system readers writers).Enabled s (.inr w)

def Announced (readers writers : Nat) : Prop :=
  ∀ s w, (system readers writers).Reachable s → BlockedWriter s w →
    0 < s.shared.sems .ww ∧ semop s.shared.sems startRead = none

def NoOvertaking (readers writers : Nat) : Prop :=
  ∀ s w, (system readers writers).Reachable s → BlockedWriter s w →
    ∀ t r before between after, (system readers writers).Run s t →
      t.trace = s.trace ++ (before ++ (.inl r, .callStartRead) ::
        (between ++ (.inl r, .startRead) :: after)) →
      ∃ v, (.inr v, .startWrite) ∈ before ++ between

def WriterPreference (readers writers : Nat) : Prop :=
  NoOvertaking readers writers ∧ Announced readers writers

theorem Announced.no_blocked (announced : Announced readers writers) {s : State readers writers}
    (h : (system readers writers).Reachable s) (w : Fin writers) : ¬ BlockedWriter s w := by
  intro blocked
  have positive := (announced s w h blocked).1
  have zero := (sems_waiting h).1
  omega

def oneReader : Shared := ⟨raise (fun _ => 0) .ar, 0⟩

def oneWriter : Shared := ⟨raise (fun _ => 0) .aw, 0⟩

theorem solo_startRead (i : Fin readers ⊕ Fin writers) :
    (system readers writers).solo i 2 ⟨fun _ => 0, 0⟩ (.reader .call) =
      some (oneReader, .reader .print, [.callStartRead, .startRead]) := by
  simp [System.solo, system, reader, semop_startRead, oneReader]

theorem solo_startWrite (i : Fin readers ⊕ Fin writers) :
    (system readers writers).solo i 2 ⟨fun _ => 0, 0⟩ (.writer .call) =
      some (oneWriter, .writer .load, [.callStartWrite, .startWrite]) := by
  simp [System.solo, system, writer, semop_startWrite, oneWriter]

theorem solo_callStartWrite (i : Fin readers ⊕ Fin writers) (g : Shared) :
    (system readers writers).solo i 1 g (.writer .call) =
      some (g, .writer .wait, [.callStartWrite]) := by
  simp [System.solo, system, writer]

theorem blocked_by_reader (r : Fin readers) (w : Fin writers) :
    ∃ s, (system readers writers).Reachable s ∧ BlockedWriter s w ∧ s.shared = oneReader ∧
      s.locals (.inl r) = .reader .print ∧ ∀ q, q ≠ r → s.locals (.inl q) = .reader .call := by
  obtain ⟨s, enter, shared, at_r, others, -⟩ :=
    System.exists_soloRun (s := (system readers writers).init) rfl rfl (solo_startRead (.inl r))
  have at_w : s.locals (.inr w) = .writer .call := others (.inr w) (by simp)
  obtain ⟨t, call, shared', waits, others', -⟩ :=
    System.exists_soloRun shared at_w (solo_callStartWrite (.inr w) oneReader)
  refine ⟨t, enter.run.trans call.run, ⟨waits, ?_⟩, shared', ?_, ?_⟩
  · simp [System.enabled_iff, shared', waits, system, writer, semop_startWrite, oneReader]
  · rw [others' (.inl r) (by simp), at_r]
  · intro q other
    rw [others' (.inl q) (by simp), others (.inl q) (by simpa using other)]
    rfl

theorem blocked_by_writer (v w : Fin writers) (distinct : w ≠ v) :
    ∃ s, (system readers writers).Reachable s ∧ BlockedWriter s w := by
  obtain ⟨s, enter, shared, at_v, others, -⟩ :=
    System.exists_soloRun (s := (system readers writers).init) rfl rfl (solo_startWrite (.inr v))
  have at_w : s.locals (.inr w) = .writer .call := others (.inr w) (by simpa using distinct)
  obtain ⟨t, call, shared', waits, -, -⟩ :=
    System.exists_soloRun shared at_w (solo_callStartWrite (.inr w) oneWriter)
  refine ⟨t, enter.run.trans call.run, waits, ?_⟩
  simp [System.enabled_iff, shared', waits, system, writer, semop_startWrite, oneWriter]

theorem not_announced_of_reader (r : Fin readers) (w : Fin writers) :
    ¬ Announced readers writers := by
  intro announced
  obtain ⟨s, reach, blocked, -⟩ := blocked_by_reader r w
  exact announced.no_blocked reach w blocked

theorem not_announced_of_writers (v w : Fin writers) (distinct : w ≠ v) :
    ¬ Announced readers writers := by
  intro announced
  obtain ⟨s, reach, blocked⟩ := @blocked_by_writer readers writers v w distinct
  exact announced.no_blocked reach w blocked

theorem not_noOvertaking (r : Fin readers) (w : Fin writers) : ¬ NoOvertaking readers writers := by
  intro preference
  obtain ⟨s, reach, blocked, shared, inside, -⟩ := blocked_by_reader r w
  have again : (system readers writers).solo (.inl r) 4 oneReader (.reader .print) =
      some (oneReader, .reader .print, [.printRead 0, .stopRead, .callStartRead, .startRead]) := by
    simp [System.solo, system, reader, semop_startRead, semop_stopRead, oneReader]
  obtain ⟨t, run, -, -, -, trace⟩ := System.exists_soloRun shared inside again
  obtain ⟨v, overtaken⟩ := preference s w reach blocked t r
    [(.inl r, .printRead 0), (.inl r, .stopRead)] [] [] run.run trace
  simp at overtaken

theorem overtaken_by_arriving_reader (r q : Fin readers) (w : Fin writers) (distinct : q ≠ r) :
    ¬ NoOvertaking readers writers := by
  intro preference
  obtain ⟨s, reach, blocked, shared, -, others⟩ := blocked_by_reader r w
  have arrive : ∃ g, (system readers writers).solo (.inl q) 2 oneReader (.reader .call) =
      some (g, .reader .print, [.callStartRead, .startRead]) := by
    simp [System.solo, system, reader, semop_startRead, oneReader]
  obtain ⟨g, arrive⟩ := arrive
  obtain ⟨t, run, -, -, -, trace⟩ := System.exists_soloRun shared (others q distinct) arrive
  obtain ⟨v, overtaken⟩ := preference s w reach blocked t q [] [] [] run.run trace
  simp at overtaken

theorem announced_iff : Announced readers writers ↔ writers = 0 ∨ (writers = 1 ∧ readers = 0) := by
  constructor
  · intro announced
    by_contra other
    simp only [not_or, not_and] at other
    obtain ⟨some_writer, others⟩ := other
    by_cases lone : writers = 1
    · have some_reader := others lone
      exact not_announced_of_reader ⟨0, by omega⟩ ⟨0, by omega⟩ announced
    · exact not_announced_of_writers ⟨0, by omega⟩ ⟨1, by omega⟩ (by simp) announced
  · rintro (rfl | ⟨rfl, rfl⟩) s w h ⟨waits, blocked⟩
    · exact w.elim0
    · -- the only process is the blocked writer, so nobody is inside
      have alone (p : Local → Bool) (outside : p (.writer .wait) = false) :
          count p s.locals = 0 := by
        apply count_eq_zero_iff.mpr
        rintro (r | v)
        · exact r.elim0
        · rw [Subsingleton.elim v w, waits, outside]
      have no_writer := (sems_aw h).trans (alone _ rfl)
      have no_reader := (sems_ar h).trans (alone _ rfl)
      exact absurd (Move.enabled (by rw [waits]; exact .startWrite no_writer no_reader)) blocked

theorem noOvertaking_iff : NoOvertaking readers writers ↔ writers = 0 ∨ readers = 0 := by
  constructor
  · intro preference
    by_contra other
    simp only [not_or] at other
    exact not_noOvertaking ⟨0, by omega⟩ ⟨0, by omega⟩ preference
  · rintro (rfl | rfl) s w _ _ t r
    · exact w.elim0
    · exact r.elim0

theorem writerPreference_iff (readers writers : Nat) :
    (WriterPreference readers writers ↔ writers = 0 ∨ (writers = 1 ∧ readers = 0)) ∧
      (NoOvertaking readers writers ↔ writers = 0 ∨ readers = 0) := by
  refine ⟨?_, noOvertaking_iff⟩
  rw [WriterPreference, noOvertaking_iff, announced_iff]
  omega

theorem writerPreference_fails : ¬ NoOvertaking 2 1 ∧ ¬ Announced 2 1 :=
  ⟨overtaken_by_arriving_reader 0 1 0 (by decide), not_announced_of_reader 0 0⟩

end OsUnix.SemaphoreRW
