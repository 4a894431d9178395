import OsUnix.BoundedBuffer.Invariant

/-!
# Semaphores and positions

In every reachable state the semaphores and the processes inside add up to what `main` set, and the
two positions differ by `SEM_FULL` and the items that it does not count at the moment.
-/

namespace OsUnix.BoundedBuffer
open Concurrency

variable {c : Setup} {s : State c} {k : c.Process}

def Local.uncounted : Local → Bool
  -- the position has moved before `SEM_FULL` does
  | .producer .stop _ _ _ => true
  -- `SEM_FULL` has moved before the position does
  | .consumer .printPos _ _ | .consumer .printIndex _ _ | .consumer (.printItem _) _ _
  | .consumer .incLoad _ _ | .consumer (.incStore _) _ _ => true
  | _ => false

def Local.stopping : Local → Bool
  | .producer .stop _ _ _ | .consumer .stop _ _ => true
  | _ => false

theorem uncounted_inside (l : Local) (h : l.uncounted = true) : l.inside = true := by
  cases l with
  | producer pc i count output => cases pc <;> simp_all [Local.uncounted, Local.inside]
  | consumer pc i count => cases pc <;> simp_all [Local.uncounted, Local.inside]

structure Accounts (s : State c) : Prop where
  binary : s.shared.sems .binary + count Local.inside s.locals = 1
  slots : s.shared.sems .empty + s.shared.sems .full + count Local.inside s.locals = c.n
  positions : 0 ≤ s.shared.mem shmPosProducer - s.shared.mem shmPosConsumer ∧
    s.shared.mem shmPosProducer - s.shared.mem shmPosConsumer ≤ c.n
  settled : (∀ k, (s.locals k).inside = false) →
    (s.shared.sems .full : Int) = s.shared.mem shmPosProducer - s.shared.mem shmPosConsumer
  stops : ∀ k, (s.locals k).stopping = true → c.system.Enabled s k
  reads : ∀ k g l cell value,
    c.system.step (.inr k) s.shared (s.locals (.inr k)) = some (g, l, .load cell value) →
      cell = shmPosConsumer ∨
        shmBuffer ≤ cell ∧ cell - shmBuffer < s.shared.mem shmPosProducer

theorem slots_inside (h : c.system.Reachable s) :
    s.shared.sems .empty + s.shared.sems .full + count Local.inside s.locals = c.n := by
  have counted := h.counted (p := Local.inside)
    (c := fun s => c.n - s.shared.sems .empty - s.shared.sems .full)
    (by
      rw [count_start (fun _ => rfl) fun _ => rfl]
      simp [Setup.system, mainStores, initialSems])
    (fun {s k g l a} _ step => by
      have semaphores := (step_iff.mp step).sems_inside
      simp only [Config.move_shared]
      omega)
  omega

theorem positions_accounting (h : c.system.Reachable s) :
    s.shared.mem shmPosProducer =
      s.shared.mem shmPosConsumer + s.shared.sems .full + count Local.uncounted s.locals := by
  have counted := h.counted (p := Local.uncounted)
    (c := fun s => s.shared.mem shmPosProducer - s.shared.mem shmPosConsumer - s.shared.sems .full)
    (by
      rw [count_start (fun _ => rfl) fun _ => rfl, init_mem, init_mem]
      simp [Setup.system, mainStores, initialSems])
    (fun {s k g l a} reach step => by
      have move := step_iff.mp step
      obtain ⟨-, -, posProducer, posConsumer⟩ := adds reach move
      simp only [Config.move_shared, posProducer, posConsumer]
      generalize s.locals k = before at move
      cases move <;> simp [Local.producerMoving, Local.consumerMoving, Local.uncounted] <;> omega)
  omega

theorem positions_bounds (h : c.system.Reachable s) :
    0 ≤ s.shared.mem shmPosProducer - s.shared.mem shmPosConsumer ∧
      s.shared.mem shmPosProducer - s.shared.mem shmPosConsumer ≤ c.n := by
  have positions := positions_accounting h
  have slots := slots_inside h
  have within := count_mono (f := s.locals) uncounted_inside
  omega

theorem full_of_outside (h : c.system.Reachable s) (outside : ∀ k, (s.locals k).inside = false) :
    (s.shared.sems .full : Int) =
      s.shared.mem shmPosProducer - s.shared.mem shmPosConsumer := by
  have positions := positions_accounting h
  have nobody : count Local.inside s.locals = 0 := count_eq_zero_iff.mpr outside
  have within := count_mono (f := s.locals) uncounted_inside
  omega

theorem stop_enabled (stopping : (s.locals k).stopping = true) : c.system.Enabled s k := by
  rw [System.enabled_iff]
  cases at_k : s.locals k with
  | producer pc i count output =>
      rw [at_k] at stopping
      cases pc with
      | stop => rfl
      | _ => cases stopping
  | consumer pc i count =>
      rw [at_k] at stopping
      cases pc with
      | stop => rfl
      | _ => cases stopping

theorem loaded_between (h : c.system.Reachable s) {pos : Int} {i count : Nat}
    (at_k : s.locals k = .consumer (.printItem pos) i count) :
    0 ≤ pos ∧ pos < s.shared.mem shmPosProducer := by
  have current : pos = s.shared.mem shmPosConsumer := current_at h at_k
  have nonneg := (sound h).posConsumer
  have positions := positions_accounting h
  have own : 0 < Concurrency.count Local.uncounted s.locals :=
    count_pos (i := k) (by rw [at_k]; rfl)
  omega

theorem reads_between (h : c.system.Reachable s) {j : Fin c.consumers} {g : Shared} {l : Local}
    {cell value : Int} (step : c.system.step (.inr j) s.shared (s.locals (.inr j)) =
      some (g, l, .load cell value)) :
    cell = shmPosConsumer ∨
      shmBuffer ≤ cell ∧ cell - shmBuffer < s.shared.mem shmPosProducer := by
  have move := step_iff.mp step
  have role := consuming_eq h (.inr j)
  generalize before : s.locals (.inr j) = l₀ at move role
  cases move with
  | @consumerPrintItem pos i count =>
      obtain ⟨nonneg, below⟩ := loaded_between h before
      exact .inr ⟨by omega, by omega⟩
  | consumerPrintPos => exact .inl rfl
  | consumerPrintIndex => exact .inl rfl
  | consumerIncLoad => exact .inl rfl
  | _ => cases role

theorem semaphore_accounting (c : Setup) (s : State c) (h : c.system.Reachable s) : Accounts s where
  binary := binary_accounting h
  slots := slots_inside h
  positions := positions_bounds h
  settled := full_of_outside h
  stops _ := stop_enabled
  reads _ _ _ _ _ := reads_between h

theorem semaphore_accounting_main : ∃ s : State mainSetup,
    s.shared.mem shmPosProducer = 1 ∧ s.shared.sems .full = 0 ∧ Accounts s := by
  obtain ⟨s, reach, ahead⟩ := System.exists_reachable_of_exec (M := mainSetup.system)
    (List.replicate 9 (.inl (0 : Fin 3)))
    (fun s => s.shared.mem shmPosProducer == 1 && s.shared.sems .full == 0) (by decide)
  simp only [Bool.and_eq_true, beq_iff_eq] at ahead
  exact ⟨s, ahead.1, ahead.2, semaphore_accounting mainSetup s reach⟩

end OsUnix.BoundedBuffer
