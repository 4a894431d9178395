import OsUnix.Concurrency.System

/-!
# Refinement

A system refines an abstract machine when a relation holds at the start and every step of a thread
is matched by one abstract operation or by none.
-/

namespace OsUnix.Concurrency

structure Machine (σ : Type*) where
  start : σ
  Operation : σ → σ → Prop

variable {ι G L A σ : Type*} [DecidableEq ι]

structure Refines (M : System ι G L A) (S : Machine σ) (R : Config ι G L A → σ → Prop) :
    Prop where
  start : R M.init S.start
  step : ∀ {s a i t}, M.Reachable s → R s a → M.next s i = some t →
    ∃ b, R t b ∧ (b = a ∨ S.Operation a b)

theorem Refines.run {M : System ι G L A} {S : Machine σ} {R : Config ι G L A → σ → Prop}
    (refines : Refines M S R) {s : Config ι G L A} (h : M.Reachable s) :
    ∃ a, R s a ∧ Relation.ReflTransGen S.Operation S.start a := by
  induction h with
  | refl => exact ⟨_, refines.start, .refl⟩
  | tail before last ih =>
      obtain ⟨a, related, reach⟩ := ih
      obtain ⟨i, last⟩ := last
      obtain ⟨b, related', same | operation⟩ := refines.step before related last
      · exact ⟨b, related', same ▸ reach⟩
      · exact ⟨b, related', reach.tail operation⟩

end OsUnix.Concurrency
