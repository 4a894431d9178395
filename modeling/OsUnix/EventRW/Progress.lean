import OsUnix.EventRW.Invariant

/-!
# No stuck state

A writer waits for `c_write` with the mutex in hand. It is not stuck: nobody can register or reset
the event meanwhile, and a thread that will set it is on its way.
-/

namespace OsUnix.EventRW
open Concurrency

variable {readers writers : Nat} {s t : State readers writers} {i j : Thread readers writers}

def Local.stopping : Local → Bool
  | .reader .testNr | .reader .setWrite => true
  | .writer .testWaiting _ | .writer .setRead _ | .writer .setWrite _ => true
  | _ => false

def Local.blocking : Local → Bool
  | .reader .lock | .reader .wait | .writer .lock _ | .writer .wait _ => true
  | _ => false

def Local.releasing : Local → Bool
  | .reader .testNr | .reader .setWrite => true
  | .writer .load _ | .writer (.store _) _ | .writer .print _ | .writer .clearWrt _
  | .writer .testWaiting _ | .writer .setWrite _ => true
  | _ => false

theorem releasing_of_writing {l : Local} (writing : l.writing = true) : l.releasing = true := by
  cases l with
  | reader pc => cases writing
  | writer pc k => cases pc <;> simp_all [Local.writing, Local.releasing]

theorem releasing_cases {l : Local} (releasing : l.releasing = true) :
    l.writing = true ∨ l.stopping = true := by
  cases l with
  | reader pc => cases pc <;> simp_all [Local.writing, Local.releasing, Local.stopping]
  | writer pc k => cases pc <;> simp_all [Local.writing, Local.releasing, Local.stopping]

theorem owning_of_readerWaiting {l : Local} (waiting : l.readerWaiting = true) :
    l.owning = true := by
  cases l with
  | reader pc => cases pc <;> simp_all [Local.readerWaiting, Local.owning]
  | writer pc k => cases waiting

theorem releasing_of_begun {bound : Nat} {a : Action} {g : Shared (Thread readers writers)}
    (reach : (system readers writers).Reachable s)
    (move : Move i bound s.shared (s.locals i) g (.writer .wait k) a) :
    0 < g.nr ∨ ∃ j, (Function.update s.locals i (.writer .wait k) j).releasing = true := by
  generalize before : s.locals i = l₀ at move
  cases move with
  | writerAfterReaders busy => exact Or.inl busy
  | writerAfterWriter busy =>
      obtain ⟨j, marked⟩ := marked_of_wrt reach busy
      refine Or.inr (System.exists_update ⟨j, ?_⟩ (by rw [before]; simp [Local.releasing]))
      rcases marked_cases marked with owning | writing
      · obtain rfl := (guards reach).unique owning (j := i) (by rw [before]; rfl)
        rw [before] at marked
        cases marked
      · exact releasing_of_writing writing

theorem releasing_kept {bound : Nat} {g : Shared (Thread readers writers)} {l : Local} {a : Action}
    (reach : (system readers writers).Reachable s) (at_wait : s.locals i = .writer .wait k)
    (other : i ≠ j) (move : Move j bound s.shared (s.locals j) g l a)
    (hope : s.shared.cWrite.signalled = true ∨ 0 < s.shared.nr ∨
      ∃ m, (s.locals m).releasing = true) :
    g.cWrite.signalled = true ∨ 0 < g.nr ∨
      ∃ m, (Function.update s.locals j l m).releasing = true := by
  have guards := guards reach
  have owner : (s.locals i).owning = true := by rw [at_wait]; rfl
  have alone : ∀ m, (s.locals m).owning = true → m = i := fun m owning =>
    guards.unique owning owner
  have outside : (s.locals j).owning = false := by
    by_contra owning
    exact other (alone j (by simpa using owning)).symm
  have taken : s.shared.rwMutex.owner ≠ none := by
    rw [ne_eq, guards.free_iff]
    intro none_owning
    simp [none_owning i] at owner
  have keep (event : s.shared.cWrite.signalled = true → g.cWrite.signalled = true)
      (counter : 0 < s.shared.nr → 0 < g.nr)
      (own : (s.locals j).releasing = true → l.releasing = true) :
      g.cWrite.signalled = true ∨ 0 < g.nr ∨
        ∃ m, (Function.update s.locals j l m).releasing = true := by
    rcases hope with signalled | counted | some_releasing
    · exact Or.inl (event signalled)
    · exact Or.inr (Or.inl (counter counted))
    · exact Or.inr (Or.inr (System.exists_update some_releasing own))
  have waiting := waitingReaders_eq reach
  have nr := nr_eq reach
  generalize before : s.locals j = l₀ at move keep outside
  cases move with
  | decNr => exact Or.inr (Or.inr (System.exists_update_self rfl))
  | readerNotLast others => exact Or.inr (Or.inl (by omega))
  | readerSetWrite => exact Or.inl rfl
  | setWrite => exact Or.inl rfl
  | readerLock took => exact absurd (guards.free_of_wait (by rw [before]; rfl) took).1 taken
  | writerLock took => exact absurd (guards.free_of_wait (by rw [before]; rfl) took).1 taken
  | chooseRead readers_wait =>
      -- a waiting reader would hold the mutex
      obtain ⟨m, some_reader⟩ := exists_of_counted waiting readers_wait.ne'
      obtain rfl := alone m (owning_of_readerWaiting some_reader)
      rw [at_wait] at some_reader
      cases some_reader
  | _ => first
    | exact keep id id (by simp [Local.releasing])
    | cases outside

theorem exists_releasing (h : (system readers writers).Reachable s) :
    ∀ w k, s.locals w = .writer .wait k → s.shared.cWrite.signalled = true ∨ 0 < s.shared.nr ∨
      ∃ j, (s.locals j).releasing = true := by
  apply h.preserved (I := fun s => ∀ w k, s.locals w = .writer .wait k →
    s.shared.cWrite.signalled = true ∨ 0 < s.shared.nr ∨ ∃ j, (s.locals j).releasing = true)
  · intro w k at_wait
    cases w <;> cases at_wait
  · intro s m t reach inv next w k at_wait
    obtain ⟨g, l, a, move, rfl⟩ := next_cases next
    simp only [Config.move_shared, Config.move_locals] at at_wait ⊢
    by_cases self : w = m
    · subst self
      rw [Function.update_self] at at_wait
      subst at_wait
      exact Or.inr (releasing_of_begun reach move)
    · rw [Function.update_of_ne self] at at_wait
      exact releasing_kept reach at_wait self move (inv w k at_wait)

theorem enabled_of_running (running : (s.locals i).blocking = false)
    (unfinished : (s.locals i).returned = false) : (system readers writers).Enabled s i := by
  rw [System.enabled_iff]
  generalize s.locals i = l at running unfinished
  cases l with
  | reader pc => cases pc <;> first | rfl | simp_all [Local.blocking, Local.returned]
  | writer pc k => cases pc <;> first | rfl | simp_all [Local.blocking, Local.returned]

theorem enabled_of_section (inside : (s.locals i).reading = true ∨ (s.locals i).writing = true ∨
    (s.locals i).stopping = true) : (system readers writers).Enabled s i := by
  apply enabled_of_running <;> generalize s.locals i = l at inside <;> cases l with
  | reader pc => cases pc <;> simp_all [Local.blocking, Local.returned, Local.reading,
      Local.writing, Local.stopping]
  | writer pc k => cases pc <;> simp_all [Local.blocking, Local.returned, Local.reading,
      Local.writing, Local.stopping]

theorem reader_not_blocked (h : (system readers writers).Reachable s)
    (at_wait : s.locals i = .reader .wait) : (system readers writers).Enabled s i := by
  have signalled : s.shared.cRead.signalled = true := by
    rcases cRead_signalled h with signalled | ⟨j, admitting⟩
    · exact signalled
    · -- a thread that holds the event down holds the mutex, as `i` does
      have owning : (s.locals j).owning = true := by
        generalize s.locals j = l at admitting
        cases l with
        | reader pc => cases pc <;> simp_all [Local.admitting, Local.owning]
        | writer pc k => cases admitting
      obtain rfl := (guards h).unique owning (j := i) (by rw [at_wait]; rfl)
      rw [at_wait] at admitting
      cases admitting
  rw [System.enabled_iff, at_wait]
  simp [system, reader, Event.wait, signalled]

theorem writer_released (h : (system readers writers).Reachable s) {k : Nat}
    (at_wait : s.locals i = .writer .wait k) (unsignalled : s.shared.cWrite.signalled = false) :
    ∃ j, j ≠ i ∧ ((s.locals j).reading = true ∨ (s.locals j).writing = true ∨
      (s.locals j).stopping = true) := by
  obtain ⟨j, inside⟩ : ∃ j, (s.locals j).reading = true ∨ (s.locals j).writing = true ∨
      (s.locals j).stopping = true := by
    rcases exists_releasing h i k at_wait with signalled | counted | ⟨j, releasing⟩
    · rw [unsignalled] at signalled
      cases signalled
    · obtain ⟨j, counted⟩ := exists_of_counted (nr_eq h) counted.ne'
      rcases counted_cases counted with owning | reading
      · obtain rfl := (guards h).unique owning (j := i) (by rw [at_wait]; rfl)
        rw [at_wait] at counted
        cases counted
      · exact ⟨j, Or.inl reading⟩
    · exact ⟨j, Or.inr (releasing_cases releasing)⟩
  refine ⟨j, ?_, inside⟩
  rintro rfl
  rw [at_wait] at inside
  simp [Local.reading, Local.writing, Local.stopping] at inside

theorem exists_enabled (h : (system readers writers).Reachable s)
    (unfinished : (s.locals i).returned = false) :
    ∃ j, (system readers writers).Enabled s j := by
  rcases (guards h).owner_cases with free | ⟨j, owner⟩
  · -- with the mutex free only an owner could be blocked
    refine ⟨i, ?_⟩
    have outside := (guards h).free_iff.mp free i
    by_cases blocking : (s.locals i).blocking = true
    · rw [System.enabled_iff]
      generalize s.locals i = l at blocking outside
      cases l with
      | reader pc =>
          cases pc <;> simp only [Local.blocking, Local.owning, Bool.false_eq_true,
            Bool.true_eq_false] at blocking outside
          simp [system, reader, Mutex.wait, free]
      | writer pc k =>
          cases pc <;> simp only [Local.blocking, Local.owning, Bool.false_eq_true,
            Bool.true_eq_false] at blocking outside
          simp [system, writer, Mutex.wait, free]
    · exact enabled_of_running (by simpa using blocking) unfinished
  · have owning := ((guards h).owner_iff j).mpr owner
    cases at_j : s.locals j with
    | reader pc =>
        cases pc <;> simp only [at_j, Local.owning, Bool.false_eq_true] at owning
        case wait => exact ⟨j, reader_not_blocked h at_j⟩
        all_goals exact ⟨j, enabled_of_running (by rw [at_j]; rfl) (by rw [at_j]; rfl)⟩
    | writer pc k =>
        cases pc <;> simp only [at_j, Local.owning, Bool.false_eq_true] at owning
        case wait =>
          by_cases signalled : s.shared.cWrite.signalled = true
          · refine ⟨j, ?_⟩
            rw [System.enabled_iff, at_j]
            simp [system, writer, Event.wait, signalled]
          · obtain ⟨u, -, inside⟩ := writer_released h at_j (by simpa using signalled)
            exact ⟨u, enabled_of_section inside⟩
        all_goals exact ⟨j, enabled_of_running (by rw [at_j]; rfl) (by rw [at_j]; rfl)⟩

theorem no_stuck_state (readers writers : Nat) (s : State readers writers)
    (h : (system readers writers).Reachable s) :
    ((∃ i, (s.locals i).returned = false) → ∃ j, (system readers writers).Enabled s j) ∧
    (∀ i, s.locals i = .reader .wait → (system readers writers).Enabled s i) ∧
    ∀ i k, s.locals i = .writer .wait k → s.shared.cWrite.signalled = false →
      ∃ j, j ≠ i ∧ (system readers writers).Enabled s j ∧
        ((s.locals j).reading = true ∨ (s.locals j).writing = true ∨
          (s.locals j).stopping = true) := by
  refine ⟨fun ⟨i, unfinished⟩ => exists_enabled h unfinished,
    fun i at_wait => reader_not_blocked h at_wait, fun i k at_wait unsignalled => ?_⟩
  obtain ⟨j, other, inside⟩ := writer_released h at_wait unsignalled
  exact ⟨j, other, enabled_of_section inside, inside⟩

theorem no_stuck_state_blocked_writer : ∃ s : State 0 2, (system 0 2).Reachable s ∧
    s.locals (.inr 1) = .writer .wait 0 ∧ s.shared.cWrite.signalled = false ∧
    ∃ j, j ≠ .inr 1 ∧ (system 0 2).Enabled s j ∧
      ((s.locals j).reading = true ∨ (s.locals j).writing = true ∨
        (s.locals j).stopping = true) := by
  obtain ⟨s, reach, holds⟩ := System.exists_reachable_of_exec (M := system 0 2)
    (List.replicate 9 (.inr (0 : Fin 2)) ++ List.replicate 5 (.inr (1 : Fin 2)))
    (fun s => s.locals (.inr 1) = .writer .wait 0 ∧ s.shared.cWrite.signalled = false) (by decide)
  obtain ⟨at_wait, unsignalled⟩ := of_decide_eq_true holds
  exact ⟨s, reach, at_wait, unsignalled,
    (no_stuck_state 0 2 s reach).2.2 (.inr 1) 0 at_wait unsignalled⟩

end OsUnix.EventRW
