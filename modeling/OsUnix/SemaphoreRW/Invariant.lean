import OsUnix.Concurrency.RwLock
import OsUnix.SemaphoreRW.Model

/-!
# Exclusion and progress of the semaphore program

The active counters count the processes in their sections, and no call leaves anything in the
waiting counters. The program therefore refines the readers-writers lock.
-/

namespace OsUnix.SemaphoreRW
open Concurrency

variable {readers writers : Nat}

inductive Move (g : Shared) : Local → Shared → Local → Action → Prop
  | callStartRead : Move g (.reader .call) g (.reader .wait) .callStartRead
  | startRead (no_waiting : g.sems .ww = 0) (no_writer : g.sems .aw = 0) :
      Move g (.reader .wait) { g with sems := raise g.sems .ar } (.reader .print) .startRead
  | printRead : Move g (.reader .print) g (.reader .stop) (.printRead g.shm)
  | stopRead (counted : 0 < g.sems .ar) :
      Move g (.reader .stop) { g with sems := lower g.sems .ar } (.reader .call) .stopRead
  | callStartWrite : Move g (.writer .call) g (.writer .wait) .callStartWrite
  | startWrite (no_writer : g.sems .aw = 0) (no_reader : g.sems .ar = 0) :
      Move g (.writer .wait) { g with sems := raise g.sems .aw } (.writer .load) .startWrite
  | load : Move g (.writer .load) g (.writer (.store g.shm)) (.load g.shm)
  | store (tmp : Int) : Move g (.writer (.store tmp)) { g with shm := tmp + 1 }
      (.writer .print) (.store (tmp + 1))
  | printWrite : Move g (.writer .print) g (.writer .stop) (.printWrite g.shm)
  | stopWrite (counted : 0 < g.sems .aw) :
      Move g (.writer .stop) { g with sems := lower g.sems .aw } (.writer .call) .stopWrite

theorem step_iff {i : Fin readers ⊕ Fin writers} {g g' : Shared} {l l' : Local} {a : Action} :
    (system readers writers).step i g l = some (g', l', a) ↔ Move g l g' l' a := by
  constructor
  · intro h
    cases l with
    | reader pc =>
        cases pc <;>
          simp only [system, reader, semop_startRead, semop_stopRead, Option.map_some,
            Option.map_if, Option.some.injEq, Prod.mk.injEq, Option.ite_none_right_eq_some] at h
        case wait => obtain ⟨⟨ww, aw⟩, rfl, rfl, rfl⟩ := h; exact .startRead ww aw
        case stop => obtain ⟨ar, rfl, rfl, rfl⟩ := h; exact .stopRead ar
        all_goals obtain ⟨rfl, rfl, rfl⟩ := h; constructor
    | writer pc =>
        cases pc <;>
          simp only [system, writer, semop_startWrite, semop_stopWrite, Option.map_some,
            Option.map_if, Option.some.injEq, Prod.mk.injEq, Option.ite_none_right_eq_some] at h
        case wait => obtain ⟨⟨aw, ar⟩, rfl, rfl, rfl⟩ := h; exact .startWrite aw ar
        case stop => obtain ⟨aw, rfl, rfl, rfl⟩ := h; exact .stopWrite aw
        all_goals obtain ⟨rfl, rfl, rfl⟩ := h; constructor
  · intro move
    cases move <;>
      simp_all [system, reader, writer, semop_startRead, semop_stopRead, semop_startWrite,
        semop_stopWrite]

theorem count_start {p : Local → Bool} (reader : p (.reader .call) = false)
    (writer : p (.writer .call) = false) : count p (system readers writers).locals₀ = 0 :=
  count_eq_zero_iff.mpr (by rintro (i | i) <;> assumption)

variable {s : State readers writers}

theorem sems_aw (h : (system readers writers).Reachable s) :
    s.shared.sems .aw = count Local.writing s.locals := by
  have counted := h.counted (c := fun s => (s.shared.sems .aw : Int)) (p := Local.writing)
    (by rw [count_start rfl rfl]; rfl)
    (fun {s i g l a} _ step => by
      have move := step_iff.mp step
      generalize s.locals i = before at move
      cases move with
      | stopWrite counted => simp [Local.writing]; omega
      | _ => simp [Local.writing])
  exact_mod_cast counted

theorem sems_ar (h : (system readers writers).Reachable s) :
    s.shared.sems .ar = count Local.reading s.locals := by
  have counted := h.counted (c := fun s => (s.shared.sems .ar : Int)) (p := Local.reading)
    (by rw [count_start rfl rfl]; rfl)
    (fun {s i g l a} _ step => by
      have move := step_iff.mp step
      generalize s.locals i = before at move
      cases move with
      | stopRead counted => simp [Local.reading]; omega
      | _ => simp [Local.reading])
  exact_mod_cast counted

theorem sems_waiting (h : (system readers writers).Reachable s) :
    s.shared.sems .ww = 0 ∧ s.shared.sems .wr = 0 := by
  refine h.invariant (I := fun s => s.shared.sems .ww = 0 ∧ s.shared.sems .wr = 0)
    ⟨rfl, rfl⟩ ?_
  intro s i t inv step
  obtain ⟨g, l, a, moves, rfl⟩ := System.next_eq_some.mp step
  have move := step_iff.mp moves
  generalize s.locals i = before at move
  cases move <;> simpa using inv

def Holds (s : State readers writers) (lock : RwLock (Fin readers ⊕ Fin writers)) : Prop :=
  lock.readers = threadsAt Local.reading s.locals ∧
    lock.writers = threadsAt Local.writing s.locals

theorem refines_rwLock : Refines (system readers writers) (rwLock _) Holds where
  start :=
    ⟨(threadsAt_eq_empty_iff.mpr (count_start rfl rfl)).symm,
      (threadsAt_eq_empty_iff.mpr (count_start rfl rfl)).symm⟩
  step := by
    rintro s ⟨R, W, exclusive⟩ i t reach ⟨rfl : R = _, rfl : W = _⟩ next
    obtain ⟨g, l, a, moves, rfl⟩ := System.next_eq_some.mp next
    have aw := sems_aw reach
    have ar := sems_ar reach
    have move := step_iff.mp moves
    generalize before : s.locals i = l₀ at move
    -- a step that enters or leaves no section is no operation of the lock
    have quiet (same_reading : l.reading = l₀.reading) (same_writing : l.writing = l₀.writing) :
        ∃ b, Holds (s.move i g l a) b ∧
          (b = ⟨_, _, exclusive⟩ ∨ (rwLock _).Operation ⟨_, _, exclusive⟩ b) := by
      refine ⟨⟨_, _, exclusive⟩, ⟨?_, ?_⟩, Or.inl rfl⟩
      · exact (threadsAt_update_stay (by rw [same_reading, before])).symm
      · exact (threadsAt_update_stay (by rw [same_writing, before])).symm
    cases move with
    | startRead no_waiting no_writer =>
        have free : threadsAt Local.writing s.locals = ∅ :=
          threadsAt_eq_empty_iff.mpr (aw.symm.trans no_writer)
        refine ⟨_, ⟨?_, ?_⟩, Or.inr (.acquireRead i free)⟩
        · exact (threadsAt_update_enter rfl).symm
        · exact (threadsAt_update_stay (by rw [before]; rfl)).symm
    | stopRead counted =>
        refine ⟨_, ⟨?_, ?_⟩, Or.inr (.releaseRead i (by simp [before, Local.reading]))⟩
        · exact (threadsAt_update_leave rfl).symm
        · exact (threadsAt_update_stay (by rw [before]; rfl)).symm
    | startWrite no_writer no_reader =>
        have no_readers : threadsAt Local.reading s.locals = ∅ :=
          threadsAt_eq_empty_iff.mpr (ar.symm.trans no_reader)
        have no_writers : threadsAt Local.writing s.locals = ∅ :=
          threadsAt_eq_empty_iff.mpr (aw.symm.trans no_writer)
        refine ⟨_, ⟨?_, ?_⟩, Or.inr (.acquireWrite i no_readers no_writers)⟩
        · exact (threadsAt_update_stay (by rw [before]; rfl)).symm
        · refine Eq.trans ?_ (threadsAt_update_enter rfl).symm
          simp [no_writers, RwLock.acquireWrite]
    | stopWrite counted =>
        refine ⟨_, ⟨?_, ?_⟩, Or.inr (.releaseWrite i (by simp [before, Local.writing]))⟩
        · exact (threadsAt_update_stay (by rw [before]; rfl)).symm
        · exact (threadsAt_update_leave rfl).symm
    | _ => exact quiet rfl rfl

theorem exclusive (h : (system readers writers).Reachable s) :
    Exclusive (threadsAt Local.reading s.locals) (threadsAt Local.writing s.locals) := by
  obtain ⟨lock, ⟨reading, writing⟩, -⟩ := refines_rwLock.run h
  rw [← reading, ← writing]
  exact lock.exclusive

theorem Move.enabled {i : Fin readers ⊕ Fin writers} {g : Shared} {l : Local} {a : Action}
    (move : Move s.shared (s.locals i) g l a) : (system readers writers).Enabled s i :=
  System.enabled_iff.mpr (Option.isSome_iff_exists.mpr ⟨_, step_iff.mpr move⟩)

theorem stopRead_enabled (h : (system readers writers).Reachable s)
    {i : Fin readers ⊕ Fin writers} (stop : s.locals i = .reader .stop) :
    (system readers writers).Enabled s i := by
  have counted : 0 < s.shared.sems .ar := by
    rw [sems_ar h]
    exact count_pos (i := i) (by rw [stop]; rfl)
  exact Move.enabled (by rw [stop]; exact .stopRead counted)

theorem stopWrite_enabled (h : (system readers writers).Reachable s)
    {i : Fin readers ⊕ Fin writers} (stop : s.locals i = .writer .stop) :
    (system readers writers).Enabled s i := by
  have counted : 0 < s.shared.sems .aw := by
    rw [sems_aw h]
    exact count_pos (i := i) (by rw [stop]; rfl)
  exact Move.enabled (by rw [stop]; exact .stopWrite counted)

theorem enabled_of_not_waiting (h : (system readers writers).Reachable s)
    {i : Fin readers ⊕ Fin writers} (reader : s.locals i ≠ .reader .wait)
    (writer : s.locals i ≠ .writer .wait) : (system readers writers).Enabled s i := by
  cases at_i : s.locals i with
  | reader pc =>
      cases pc with
      | call => exact Move.enabled (by rw [at_i]; exact .callStartRead)
      | wait => exact absurd at_i reader
      | print => exact Move.enabled (by rw [at_i]; exact .printRead)
      | stop => exact stopRead_enabled h at_i
  | writer pc =>
      cases pc with
      | call => exact Move.enabled (by rw [at_i]; exact .callStartWrite)
      | wait => exact absurd at_i writer
      | load => exact Move.enabled (by rw [at_i]; exact .load)
      | store tmp => exact Move.enabled (by rw [at_i]; exact .store tmp)
      | print => exact Move.enabled (by rw [at_i]; exact .printWrite)
      | stop => exact stopWrite_enabled h at_i

theorem exists_enabled (h : (system readers writers).Reachable s) (i : Fin readers ⊕ Fin writers) :
    ∃ j, (system readers writers).Enabled s j := by
  by_cases waiting : ∀ j, s.locals j = .reader .wait ∨ s.locals j = .writer .wait
  · -- when all processes wait, both active counters are zero
    have no_reader : s.shared.sems .ar = 0 := by
      rw [sems_ar h]
      exact count_eq_zero_iff.mpr fun j => by rcases waiting j with eq | eq <;> rw [eq] <;> rfl
    have no_writer : s.shared.sems .aw = 0 := by
      rw [sems_aw h]
      exact count_eq_zero_iff.mpr fun j => by rcases waiting j with eq | eq <;> rw [eq] <;> rfl
    refine ⟨i, ?_⟩
    rcases waiting i with eq | eq
    · exact Move.enabled (by rw [eq]; exact .startRead (sems_waiting h).1 no_writer)
    · exact Move.enabled (by rw [eq]; exact .startWrite no_writer no_reader)
  · simp only [not_forall, not_or] at waiting
    obtain ⟨j, reader, writer⟩ := waiting
    exact ⟨j, enabled_of_not_waiting h reader writer⟩

theorem semaphores_count_sections (h : (system readers writers).Reachable s) :
    s.shared.sems .aw = count Local.writing s.locals ∧
      s.shared.sems .ar = count Local.reading s.locals ∧
      Exclusive (threadsAt Local.reading s.locals) (threadsAt Local.writing s.locals) ∧
      (∀ i, s.locals i = .reader .stop ∨ s.locals i = .writer .stop →
        (system readers writers).Enabled s i) ∧
      (0 < readers + writers → ∃ i, (system readers writers).Enabled s i) := by
  refine ⟨sems_aw h, sems_ar h, exclusive h, ?_, ?_⟩
  · rintro i (stop | stop)
    · exact stopRead_enabled h stop
    · exact stopWrite_enabled h stop
  · intro some_process
    by_cases some_reader : 0 < readers
    · exact exists_enabled h (.inl ⟨0, some_reader⟩)
    · exact exists_enabled h (.inr ⟨0, by omega⟩)

theorem semaphores_count_sections_waiting_writer : ∃ s : State 1 1,
    s.locals (.inl 0) = .reader .print ∧ s.locals (.inr 0) = .writer .wait ∧
      s.shared.sems .aw = count Local.writing s.locals ∧
      s.shared.sems .ar = count Local.reading s.locals ∧
      Exclusive (threadsAt Local.reading s.locals) (threadsAt Local.writing s.locals) ∧
      (∀ i, s.locals i = .reader .stop ∨ s.locals i = .writer .stop →
        (system 1 1).Enabled s i) ∧
      (0 < 1 + 1 → ∃ i, (system 1 1).Enabled s i) := by
  obtain ⟨s, reach, positions⟩ := System.exists_reachable_of_exec (M := system 1 1)
    [.inl 0, .inl 0, .inr 0]
    (fun s => s.locals (.inl 0) == .reader .print && s.locals (.inr 0) == .writer .wait)
    (by decide)
  simp only [Bool.and_eq_true, beq_iff_eq] at positions
  exact ⟨s, positions.1, positions.2, semaphores_count_sections reach⟩

end OsUnix.SemaphoreRW
