import OsUnix.BoundedBuffer.Completion
import OsUnix.BoundedBuffer.Delivery

/-!
# The bounds of the segment

`shm_size` counts `n + 2` cells, but the buffer begins at cell 8 and the positions only grow.
-/

namespace OsUnix.BoundedBuffer
open Concurrency Finset

variable {c : Setup} {s t : State c} {k : c.Process}

def touchedCell : Action → Option Int
  | .load cell _ | .store cell _ => some cell
  | _ => none

def InSegment (n : Nat) (cell : Int) : Prop :=
  0 ≤ sizeofInt * cell ∧ sizeofInt * cell + sizeofInt ≤ shmSize n

structure SegmentSafe (c : Setup) : Prop where
  main : ∀ w ∈ mainStores, InSegment c.n w.1
  processes : ∀ s, c.system.Reachable s → ∀ e ∈ s.trace, ∀ cell, touchedCell e.2 = some cell →
    InSegment c.n cell
  disjoint : ∀ j : Nat, shmBuffer + j ≠ shmPosProducer ∧ shmBuffer + j ≠ shmPosConsumer

theorem inSegment_item {n j : Nat} : InSegment n (shmBuffer + j) ↔ j + 7 ≤ n := by
  simp only [InSegment, shmBuffer, shmSize, sizeofInt]
  omega

theorem inSegment_posProducer {n : Nat} : InSegment n shmPosProducer := by
  simp only [InSegment, shmPosProducer, shmSize, sizeofInt]
  omega

theorem inSegment_posConsumer {n : Nat} : InSegment n shmPosConsumer ↔ 3 ≤ n := by
  simp only [InSegment, shmPosConsumer, shmSize, sizeofInt]
  omega

theorem made_le {l : Local} (loop : l.InLoop) (role : l.consuming = false) : l.made ≤ l.limit := by
  cases l with
  | consumer pc i count => cases role
  | producer pc i count output =>
      cases pc <;>
        simp [Local.InLoop, Local.made, Local.limit, Local.filled, Local.inside, Local.filling]
          at loop ⊢ <;> omega

theorem written_le_produced (h : c.system.Reachable s) :
    (written s.trace).length ≤ c.produced := by
  rw [written_length_producers h]
  refine sum_le_sum fun j _ => ?_
  obtain ⟨loop, limit⟩ := inLoop h (.inl j)
  exact (made_le loop (consuming_eq h _)).trans limit.le

theorem touched_next (h : c.system.Reachable s) {g : Shared} {l : Local} {a : Action}
    (move : Move s.shared (s.locals k) g l a) {cell : Int} (touches : touchedCell a = some cell) :
    cell = shmPosProducer ∨ cell = shmPosConsumer ∨
      ∃ j < (written (s.trace ++ [(k, a)])).length, cell = shmBuffer + (j : Int) := by
  generalize before : s.locals k = l₀ at move
  have grows : (written s.trace).length ≤ (written (s.trace ++ [(k, a)])).length := by simp
  cases move with
  | @item pos i count output =>
      obtain rfl : shmBuffer + pos = cell := by simpa [touchedCell] using touches
      have position := item_position h before
      refine Or.inr (Or.inr ⟨(written s.trace).length, ?_, by rw [position]⟩)
      simp [writtenItem_item (show 0 ≤ pos by omega)]
  | @producerPrintItem pos i count output =>
      obtain rfl : shmBuffer + pos = cell := by simpa [touchedCell] using touches
      have current : pos = s.shared.mem shmPosProducer := current_at h before
      have nonneg := (sound h).posProducer
      have accounting := posProducer_accounting h
      have ahead : 0 < Concurrency.count Local.filledAhead s.locals :=
        count_pos (i := k) (by rw [before]; rfl)
      exact Or.inr (Or.inr ⟨pos.toNat, by omega, by omega⟩)
  | @consumerPrintItem pos i count =>
      obtain rfl : shmBuffer + pos = cell := by simpa [touchedCell] using touches
      have position := loaded_position h before
      have full := full_accounting h
      have taking : 0 < Concurrency.count Local.taking s.locals :=
        count_pos (i := k) (by rw [before]; rfl)
      exact Or.inr (Or.inr ⟨(consumed s.trace).length, by omega, by rw [position]⟩)
  | _ =>
      -- what is left touches a position or nothing
      simp only [touchedCell, Option.some.injEq, reduceCtorEq] at touches <;> simp [← touches]

theorem touched_cells (h : c.system.Reachable s) : ∀ e ∈ s.trace, ∀ cell,
    touchedCell e.2 = some cell → cell = shmPosProducer ∨ cell = shmPosConsumer ∨
      ∃ j < (written s.trace).length, cell = shmBuffer + (j : Int) := by
  apply h.preserved (I := fun s => ∀ e ∈ s.trace, ∀ cell, touchedCell e.2 = some cell →
    cell = shmPosProducer ∨ cell = shmPosConsumer ∨
      ∃ j < (written s.trace).length, cell = shmBuffer + (j : Int)) (by simp)
  intro s k t reach inv next e member cell touches
  obtain ⟨g, l, a, move, rfl⟩ := next_cases next
  rw [Config.move_trace, List.mem_append, List.mem_singleton] at member
  rcases member with earlier | rfl
  · rcases inv e earlier cell touches with pos | pos | ⟨j, bound, item⟩
    · exact Or.inl pos
    · exact Or.inr (Or.inl pos)
    · refine Or.inr (Or.inr ⟨j, ?_, item⟩)
      simp only [Config.move_trace, written_snoc, List.length_append]
      omega
  · exact touched_next reach move touches

theorem written_touched (h : c.system.Reachable s) :
    ∀ j < (written s.trace).length,
      ∃ e ∈ s.trace, touchedCell e.2 = some (shmBuffer + (j : Int)) := by
  apply h.preserved (I := fun s => ∀ j < (written s.trace).length,
    ∃ e ∈ s.trace, touchedCell e.2 = some (shmBuffer + (j : Int))) (by simp [written])
  intro s k t reach inv next j bound
  obtain ⟨g, l, a, move, rfl⟩ := next_cases next
  by_cases old : j < (written s.trace).length
  · obtain ⟨e, member, touches⟩ := inv j old
    exact ⟨e, by simp [member], touches⟩
  · generalize before : s.locals k = l₀ at move
    cases move with
    | @item pos i count output =>
        have position := item_position reach before
        have last : j = (written s.trace).length := by
          simp only [Config.move_trace, written_snoc, List.length_append,
            writtenItem_item (show 0 ≤ pos by omega), Option.toList_some,
            List.length_singleton] at bound
          omega
        refine ⟨(k, .store (shmBuffer + pos) (toChar output)), by simp, ?_⟩
        simp [touchedCell, position, last]
    | _ => simp [writtenItem, old] at bound

theorem segmentSafe_of_bound (three : 3 ≤ c.n) (bound : c.produced = 0 ∨ c.produced + 6 ≤ c.n) :
    SegmentSafe c where
  main := by
    simp only [mainStores, List.mem_cons, List.not_mem_nil, or_false]
    rintro w (rfl | rfl)
    · exact inSegment_posProducer
    · exact inSegment_posConsumer.mpr three
  processes := by
    intro s reach e member cell touches
    rcases touched_cells reach e member cell touches with rfl | rfl | ⟨j, stored, rfl⟩
    · exact inSegment_posProducer
    · exact inSegment_posConsumer.mpr three
    · have few := written_le_produced reach
      exact inSegment_item.mpr (by omega)
  disjoint j := ⟨(posProducer_ne_item (by omega)).symm, (posConsumer_ne_item (by omega)).symm⟩

theorem SegmentSafe.bound (safe : SegmentSafe c) :
    3 ≤ c.n ∧ (c.produced = 0 ∨ c.produced + 6 ≤ c.n) := by
  have three : 3 ≤ c.n :=
    inSegment_posConsumer.mp (safe.main (shmPosConsumer, 0) (by simp [mainStores]))
  refine ⟨three, ?_⟩
  by_contra large
  simp only [not_or] at large
  -- some run stores enough items to pass the end
  obtain ⟨t, reach, stopped⟩ := exists_end c
  have enough : c.n < (written t.trace).length + 6 ∧ 0 < (written t.trace).length := by
    rcases stopped_cases (by omega) reach stopped with
      ⟨-, made, -⟩ | ⟨-, made, -⟩ | ⟨-, made, -⟩ <;> omega
  obtain ⟨e, member, touches⟩ := written_touched reach ((written t.trace).length - 1) (by omega)
  have inside := inSegment_item.mp (safe.processes t reach e member _ touches)
  omega

theorem segmentSafe_iff (c : Setup) :
    SegmentSafe c ↔ 3 ≤ c.n ∧ (c.produced = 0 ∨ c.produced + 6 ≤ c.n) :=
  ⟨SegmentSafe.bound, fun ⟨three, bound⟩ => segmentSafe_of_bound three bound⟩

theorem segment_overrun : ¬ SegmentSafe mainSetup := by
  intro safe
  have bound := safe.bound
  revert bound
  decide

end OsUnix.BoundedBuffer
