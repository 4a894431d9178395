import OsUnix.MutexRW.Bookkeeping

/-!
# Readers exclude each other

`StartRead` returns with the mutex taken and `StopRead` gives it back, so a reader that is inside
keeps every other reader out, and `active_readers` never exceeds one.
-/

namespace OsUnix.MutexRW
open Concurrency

variable {readers writers : Nat} {s : State readers writers} {p q : Fin readers}

def Local.apart : Local → Bool
  | .writer .guard _ | .writer .incWaiting _ | .writer .returned _ => true
  | _ => false

structure Arrival (s : State readers writers) (p q : Fin readers) : Prop where
  distinct : p ≠ q
  inside : (s.locals (.inl p)).active = true
  noWriter : ∀ w, (s.locals (.inr w)).apart = true
  arrives : ∃ k, s.locals (.inl q) = .reader .incWaiting k

def CanJoin (s : State readers writers) (q : Fin readers) : Prop :=
  ∃ t k, (system readers writers).SoloRun (.inl q) s t ∧ t.locals (.inl q) = .reader .load k

def ReadersJoin (readers writers : Nat) : Prop :=
  ∀ (s : State readers writers) p q, (system readers writers).Reachable s → Arrival s p q →
    CanJoin s q

theorem owning_of_active {l : Local} (active : l.active = true) : l.owning = true := by
  cases l with
  | reader pc k => cases pc <;> first | rfl | cases active
  | writer pc k => cases active

theorem not_canJoin (h : (system readers writers).Reachable s) (arrival : Arrival s p q) :
    ¬ CanJoin s q := by
  rintro ⟨t, k, run, joined⟩
  have others : t.locals (.inl p) = s.locals (.inl p) :=
    run.others _ fun same => arrival.distinct (Sum.inl_injective same)
  have p_owns : (t.locals (.inl p)).owning = true := by
    rw [others]
    exact owning_of_active arrival.inside
  have q_owns : (t.locals (.inl q)).owning = true := by
    rw [joined]
    rfl
  exact arrival.distinct (Sum.inl_injective ((guards (h.trans run.run)).unique p_owns q_owns))

theorem activeReaders_le_one (h : (system readers writers).Reachable s) :
    s.shared.activeReaders ≤ 1 := by
  have one : count Local.active s.locals ≤ 1 := count_le_one_iff.mpr fun i j at_i at_j =>
    (guards h).unique (owning_of_active at_i) (owning_of_active at_j)
  rw [activeReaders_eq h]
  omega

theorem exists_arrival (distinct : p ≠ q) :
    ∃ s : State readers writers, (system readers writers).Reachable s ∧ Arrival s p q := by
  have start := System.SoloTo.start (M := system readers writers) (i := .inl p)
    (s := (system readers writers).init)
  have locked := ((((start.step (step_iff.mpr (.readerGuard (by decide)))).step
    (step_iff.mpr .readerIncWaiting)).step (step_iff.mpr .readerCall)).step
    (step_iff.mpr (.readerWait rfl))).step (step_iff.mpr (.readerLock rfl))
  have counted := (((locked.step (step_iff.mpr .resetWrite)).step
    (step_iff.mpr .readerIncLoad)).step (step_iff.mpr .readerIncStore)).step
    (step_iff.mpr .readerRelease)
  have inside := ((counted.step
    (step_iff.mpr (.readerRelock (by rw [Mutex.release_owner]; rfl)))).step
    (step_iff.mpr .readerDecWaiting)).step (step_iff.mpr .incActive)
  obtain ⟨s, run, -, at_p, others⟩ := inside
  have at_q : s.locals (.inl q) = .reader .guard 0 :=
    others _ fun same => distinct (Sum.inl_injective same).symm
  have arrive : Move (.inl q) s.shared (s.locals (.inl q)) s.shared (.reader .incWaiting 0)
      .sync := by
    rw [at_q]
    exact .readerGuard (by decide)
  refine ⟨s.move (.inl q) s.shared (.reader .incWaiting 0) .sync,
    run.run.tail (System.next_eq_some.mpr ⟨_, _, _, step_iff.mpr arrive, rfl⟩),
    distinct, ?_, fun w => ?_, 0, Function.update_self ..⟩
  · rw [Config.move_locals, Function.update_of_ne fun same => distinct (Sum.inl_injective same),
      at_p]
    rfl
  · rw [Config.move_locals, Function.update_of_ne Sum.inr_ne_inl, others _ Sum.inr_ne_inl]
    rfl

/-- No second reader ever joins; only with at most one reader is there never one that arrives. -/
theorem readersJoin_iff (readers writers : Nat) :
    (∀ (s : State readers writers) p q, (system readers writers).Reachable s → Arrival s p q →
      ¬ CanJoin s q) ∧
    (∀ s, (system readers writers).Reachable s → s.shared.activeReaders ≤ 1) ∧
    (ReadersJoin readers writers ↔ readers ≤ 1) := by
  refine ⟨fun s p q h arrival => not_canJoin h arrival, fun s h => activeReaders_le_one h, ?_⟩
  constructor
  · intro join
    by_contra two
    have distinct : (⟨0, by omega⟩ : Fin readers) ≠ ⟨1, by omega⟩ := by simp
    obtain ⟨s, reach, arrival⟩ := @exists_arrival readers writers _ _ distinct
    exact not_canJoin reach arrival (join s _ _ reach arrival)
  · intro few s p q _ arrival
    exact absurd (Fin.ext (by omega)) arrival.distinct

theorem readersJoin_fails : ¬ ReadersJoin 5 4 := by
  intro join
  obtain ⟨s, reach, arrival⟩ := @exists_arrival 5 4 0 1 (by decide)
  exact not_canJoin reach arrival (join s 0 1 reach arrival)

end OsUnix.MutexRW
