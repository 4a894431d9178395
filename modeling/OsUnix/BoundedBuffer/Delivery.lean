import OsUnix.BoundedBuffer.Invariant
import OsUnix.Concurrency.Channel

/-!
# Delivery

The buffer refines a bounded channel: storing an item sends it, and a consumer that loads an item
receives the first one not yet received.
-/

namespace OsUnix.BoundedBuffer
open Concurrency

variable {c : Setup} {s t : State c} {k : c.Process}

structure Carries (s : State c) (ch : Channel Int c.n) : Prop where
  sent : ch.sent = written s.trace
  received : ch.received = consumed s.trace
  cells : ∀ j (h : j < ch.sent.length), s.shared.mem (shmBuffer + j) = ch.sent[j]

theorem count_eq_zero_of_inside (h : c.system.Reachable s) {q : Local → Bool}
    (inside : (s.locals k).inside = true) (other : q (s.locals k) = false)
    (within : ∀ l, q l = true → l.inside = true) : count q s.locals = 0 := by
  refine count_eq_zero_iff.mpr fun j => ?_
  rw [← Bool.not_eq_true]
  intro hj
  have same := inside_unique h (within _ hj) inside
  rw [same, other] at hj
  cases hj

theorem item_position (h : c.system.Reachable s) {pos output : Int} {i count : Nat}
    (at_k : s.locals k = .producer (.item pos) i count output) :
    pos = (written s.trace).length := by
  have current : pos = s.shared.mem shmPosProducer := current_at h at_k
  have accounting := posProducer_accounting h
  have none_ahead : OsUnix.Concurrency.count Local.filledAhead s.locals = 0 :=
    count_eq_zero_of_inside (k := k) h (by rw [at_k]; rfl) (by rw [at_k]; rfl) filledAhead_inside
  omega

theorem loaded_position (h : c.system.Reachable s) {pos : Int} {i count : Nat}
    (at_k : s.locals k = .consumer (.printItem pos) i count) :
    pos = (consumed s.trace).length := by
  have current : pos = s.shared.mem shmPosConsumer := current_at h at_k
  have accounting := posConsumer_accounting h
  have none_ahead : OsUnix.Concurrency.count Local.takenAhead s.locals = 0 :=
    count_eq_zero_of_inside (k := k) h (by rw [at_k]; rfl) (by rw [at_k]; rfl) takenAhead_inside
  omega

variable {ch : Channel Int c.n}

theorem Carries.quiet {g : Shared} {l : Local} {a : Action} (carries : Carries s ch)
    (nothing_written : writtenItem a = none)
    (nothing_consumed : (if k.isRight then loadedItem a else none) = none)
    (same : ∀ j : Nat, g.mem (shmBuffer + j) = s.shared.mem (shmBuffer + j)) :
    Carries (s.move k g l a) ch where
  sent := by simp [carries.sent, nothing_written]
  received := by
    rw [Config.move_trace, consumed_snoc, nothing_consumed, carries.received]
    simp
  cells j h := by
    rw [Config.move_shared, same]
    exact carries.cells j h

theorem Carries.send {pos output : Int} {i count : Nat} (h : c.system.Reachable s)
    (carries : Carries s ch) (at_k : s.locals k = .producer (.item pos) i count output)
    (l : Local) :
    ∃ room : ch.sent.length < ch.received.length + c.n,
      Carries (s.move k (s.shared.write (shmBuffer + pos) (toChar output)) l
        (.store (shmBuffer + pos) (toChar output))) (ch.send (toChar output) room) := by
  obtain ⟨sent, received, cells⟩ := carries
  have position := item_position h at_k
  have filling : 0 < Concurrency.count Local.filling s.locals :=
    count_pos (i := k) (by rw [at_k]; rfl)
  have empty := empty_accounting h
  have room : ch.sent.length < ch.received.length + c.n := by
    rw [sent, received]
    omega
  refine ⟨room, ?_, ?_, fun j within => ?_⟩
  · simp [Channel.send, sent, writtenItem_item (show 0 ≤ pos by omega)]
  · simp [Channel.send, received, loadedItem]
  · simp only [Channel.send, List.length_append, List.length_singleton] at within ⊢
    simp only [Config.move_shared]
    by_cases old : j < ch.sent.length
    · have apart : shmBuffer + (j : Int) ≠ shmBuffer + pos := by
        rw [sent] at old
        omega
      rw [Shared.write_of_ne apart, List.getElem_append_left old]
      exact cells j old
    · have last : j = ch.sent.length := by omega
      subst last
      have cell : shmBuffer + (ch.sent.length : Int) = shmBuffer + pos := by
        rw [sent, position]
      rw [cell, Shared.write_self]
      simp

theorem Carries.receive {pos : Int} {i count : Nat} (h : c.system.Reachable s)
    (carries : Carries s ch) (at_k : s.locals k = .consumer (.printItem pos) i count)
    (l : Local) :
    ∃ waiting : ch.received.length < ch.sent.length,
      Carries (s.move k s.shared l
        (.load (shmBuffer + pos) (s.shared.mem (shmBuffer + pos)))) (ch.receive waiting) := by
  obtain ⟨sent, received, cells⟩ := carries
  have position := loaded_position h at_k
  have taking : 0 < Concurrency.count Local.taking s.locals :=
    count_pos (i := k) (by rw [at_k]; rfl)
  have full := full_accounting h
  have waiting : ch.received.length < ch.sent.length := by
    rw [sent, received]
    omega
  have value : s.shared.mem (shmBuffer + pos) = ch.sent[ch.received.length] := by
    rw [position, ← received]
    exact cells _ waiting
  have is_consumer : k.isRight = true := by
    rw [← consuming_eq h k, at_k]
    rfl
  refine ⟨waiting, ?_, ?_, fun j within => cells j within⟩
  · simp [Channel.receive, sent, writtenItem]
  · rw [Config.move_trace, consumed_snoc, is_consumer, if_pos rfl,
      loadedItem_item (show 0 ≤ pos by omega), value]
    simp [Channel.receive, received]

theorem refines_channel : Refines c.system (channel Int c.n) Carries where
  start := ⟨rfl, rfl, fun j h => by simp [channel, Channel.empty] at h⟩
  step := by
    intro s ch k t reach carries next
    obtain ⟨g, l, a, move, rfl⟩ := next_cases next
    have role := consuming_eq reach k
    generalize before : s.locals k = l₀ at move role
    cases move with
    | item =>
        obtain ⟨room, sends⟩ := carries.send reach before (.producer .printPos _ _ _)
        exact ⟨_, sends, Or.inr (.send _ room)⟩
    | consumerPrintItem =>
        obtain ⟨waiting, receives⟩ := carries.receive reach before (.consumer .incLoad _ _)
        exact ⟨_, receives, Or.inr (.receive waiting)⟩
    | producerIncStore =>
        refine ⟨ch, carries.quiet (by simp [writtenItem]) (by simp [loadedItem]) fun j => ?_,
          Or.inl rfl⟩
        exact Shared.write_of_ne (posProducer_ne_item (by omega)).symm
    | consumerIncStore =>
        refine ⟨ch, carries.quiet (by simp [writtenItem]) (by simp [loadedItem]) fun j => ?_,
          Or.inl rfl⟩
        exact Shared.write_of_ne (posConsumer_ne_item (by omega)).symm
    | producerPrintItem =>
        have is_producer : k.isRight = false := by rw [← role]; rfl
        exact ⟨ch, carries.quiet rfl (by simp [is_producer]) fun _ => rfl, Or.inl rfl⟩
    | _ =>
        exact ⟨ch, carries.quiet (by simp [writtenItem]) (by simp [loadedItem]) fun _ => rfl,
          Or.inl rfl⟩

theorem consumed_in_order (c : Setup) (s : State c) (h : c.system.Reachable s) :
    consumed s.trace <+: written s.trace ∧
      ∀ j k, (s.locals j).inside = true → (s.locals k).inside = true → j = k := by
  obtain ⟨ch, carries, -⟩ := refines_channel.run h
  rw [← carries.sent, ← carries.received]
  exact ⟨ch.ordered, fun j k => inside_unique h⟩

def onePair : Setup := ⟨9, 1, 1, fun _ => 1, fun _ => 1⟩

theorem consumed_in_order_one_pair : ∃ s : State onePair,
    consumed s.trace = [97] ∧ consumed s.trace <+: written s.trace ∧
      ∀ j k, (s.locals j).inside = true → (s.locals k).inside = true → j = k := by
  obtain ⟨s, reach, loaded⟩ := System.exists_reachable_of_exec (M := onePair.system)
    (List.replicate 10 (.inl (0 : Fin 1)) ++ List.replicate 5 (.inr (0 : Fin 1)))
    (fun s => consumed s.trace == [97]) (by decide)
  exact ⟨s, by simpa using loaded, consumed_in_order onePair s reach⟩

end OsUnix.BoundedBuffer
