import OsUnix.MutexRW.Invariant

/-!
# A reader that comes after a writer reads after it

From its `ResetEvent(event_read)` to its write a writer keeps `event_read` reset, whatever the other
writers do.
-/

namespace OsUnix.MutexRW
open Concurrency

variable {readers writers : Nat} {s : State readers writers} {w : Fin writers} {r : Fin readers}

def Local.pending : Local → Bool
  | .writer .incLoad _ | .writer (.incStore _) _ | .writer .release _ | .writer .waitWrite _
  | .writer .relock _ | .writer .decWaiting _ | .writer .load _ | .writer (.store _) _ => true
  | _ => false

theorem writerClosing_of_pending (l : Local) (pending : l.pending = true) :
    l.writerClosing = true := by
  cases l with
  | reader pc k => cases pending
  | writer pc k => cases pc <;> first | rfl | cases pending

theorem pending_of_move {ι : Type} [DecidableEq ι] {me : ι} {g g' : Shared ι} {l l' : Local}
    {a : Action} (move : Move me g l g' l' a) (pending : l.pending = true)
    (unwritten : ∀ x, a ≠ .writeValue x) : l'.pending = true := by
  cases move with
  | store => exact absurd rfl (unwritten _)
  | _ => first | rfl | cases pending

theorem unsignalled_of_pending (h : (system readers writers).Reachable s)
    (pending : (s.locals (.inr w)).pending = true) : s.shared.eventRead.signalled = false := by
  rw [← Bool.not_eq_true]
  intro signalled
  have outside := (eventRead_tracks h).mp signalled (.inr w)
  rw [writerClosing_of_pending _ pending] at outside
  cases outside

theorem pending_of_reset {g : Shared (Thread readers writers)} {l : Local}
    (move : Move (.inr w) s.shared (s.locals (.inr w)) g l .resetRead) :
    ((s.move (.inr w) g l .resetRead).locals (.inr w)).pending = true := by
  rw [Config.move_locals, Function.update_self]
  generalize s.locals (.inr w) = l₀ at move
  cases move
  rfl

def Writes (w : Fin writers) (e : Thread readers writers × Action) : Prop :=
  ∃ x, e = (.inr w, .writeValue x)

structure Waiting (w : Fin writers) (r : Fin readers) (s : State readers writers) : Prop where
  pending : (s.locals (.inr w)).pending = true
  waits : ∃ k, s.locals (.inl r) = .reader .waitRead k

variable {i : Thread readers writers} {g : Shared (Thread readers writers)} {l : Local} {a : Action}

theorem pending_step (pending : (s.locals (.inr w)).pending = true)
    (unwritten : ¬ Writes w (i, a)) (move : Move i s.shared (s.locals i) g l a) :
    ((s.move i g l a).locals (.inr w)).pending = true := by
  rw [Config.move_locals]
  by_cases self : .inr w = i
  · subst self
    rw [Function.update_self]
    exact pending_of_move move pending fun x eq => unwritten ⟨x, by rw [eq]⟩
  · rw [Function.update_of_ne self]
    exact pending

theorem waiting_of_call (pending : (s.locals (.inr w)).pending = true)
    (move : Move (.inl r) s.shared (s.locals (.inl r)) g l .callWaitRead) :
    Waiting w r (s.move (.inl r) g l .callWaitRead) := by
  constructor
  · rw [Config.move_locals, Function.update_of_ne Sum.inr_ne_inl]
    exact pending
  · rw [Config.move_locals, Function.update_self]
    generalize s.locals (.inl r) = l₀ at move
    cases move
    exact ⟨_, rfl⟩

theorem Waiting.step (h : Waiting w r s) (reach : (system readers writers).Reachable s)
    (unwritten : ¬ Writes w (i, a)) (move : Move i s.shared (s.locals i) g l a) :
    Waiting w r (s.move i g l a) := by
  have pending := pending_step h.pending unwritten move
  apply Waiting.mk pending
  rw [Config.move_locals]
  by_cases self : .inl r = i
  · subst self
    obtain ⟨k, waits⟩ := h.waits
    rw [waits] at move
    cases move with
    | readerWait passed =>
        -- the writer keeps the event reset
        have signalled := (Event.wait_eq_some.mp passed).1
        rw [unsignalled_of_pending reach h.pending] at signalled
        cases signalled
  · rw [Function.update_of_ne self]
    exact h.waits

/-- When `r` begins its wait after a reset by `w`, it reads `value` after `w` has written; that `w`
is still before its release then is not needed. -/
theorem reader_after_writer (readers writers : Nat) (s : State readers writers)
    (h : (system readers writers).Reachable s) (w : Fin writers) (r : Fin readers) (v : Int)
    (pre mid between post : List (Thread readers writers × Action))
    (trace : s.trace = pre ++ (.inr w, .resetRead) :: (mid ++ (.inl r, .callWaitRead) ::
      (between ++ (.inl r, .readValue v) :: post))) :
    ∃ x, (.inr w, .writeValue x) ∈ mid ++ between := by
  obtain ⟨u₁, g₁, l₁, reach₁, rfl, resets, run₁⟩ := h.split trace
  have reach₁ := reach₁.trans (.tail .refl (System.next_eq_some.mpr ⟨_, _, _, resets, rfl⟩))
  have trace₁ : s.trace = (u₁.move (.inr w) g₁ l₁ .resetRead).trace ++
      (mid ++ (.inl r, .callWaitRead) :: (between ++ (.inl r, .readValue v) :: post)) := by
    simpa using trace
  rcases run₁.until_event (Writes w) reach₁ (pending_of_reset (step_iff.mp resets))
      (fun _ pending unwritten step => pending_step pending unwritten (step_iff.mp step))
      trace₁ with
    ⟨_, mem, x, rfl⟩ | ⟨u₂, g₂, l₂, reach₂, pending, trace₂, calls, run₂⟩
  · exact ⟨x, List.mem_append_left _ mem⟩
  -- the writer is still pending when the reader begins its wait
  have reach₂' := reach₂.trans (.tail .refl (System.next_eq_some.mpr ⟨_, _, _, calls, rfl⟩))
  have trace₂ : s.trace = (u₂.move (.inl r) g₂ l₂ .callWaitRead).trace ++
      (between ++ (.inl r, .readValue v) :: post) := by
    simpa [trace₂] using trace₁
  rcases run₂.until_event (Writes w) reach₂' (waiting_of_call pending (step_iff.mp calls))
      (fun reach waiting unwritten step => waiting.step reach unwritten (step_iff.mp step))
      trace₂ with
    ⟨_, mem, x, rfl⟩ | ⟨u₃, g₃, l₃, -, waiting, -, reads, -⟩
  · exact ⟨x, List.mem_append_right _ mem⟩
  · -- a reader at its wait does not read
    obtain ⟨k, waits⟩ := waiting.waits
    rw [waits] at reads
    cases step_iff.mp reads

theorem reader_after_writer_blocked : ∃ s : State 1 1, (system 1 1).Reachable s ∧
    ∃ pre mid between post, s.trace = pre ++ (.inr 0, .resetRead) :: (mid ++
      (.inl 0, .callWaitRead) :: (between ++ (.inl 0, .readValue 1) :: post)) ∧
    ∃ x, (.inr 0, .writeValue x) ∈ mid ++ between := by
  let r (a : Action) : Thread 1 1 × Action := (.inl 0, a)
  let w (a : Action) : Thread 1 1 × Action := (.inr 0, a)
  let pre := List.replicate 3 (w .sync)
  let mid := List.replicate 2 (r .sync)
  let between := List.replicate 7 (w .sync) ++ [w (.writeValue 1), w (.print 1)] ++
    List.replicate 4 (w .sync) ++ [w .releaseWrite] ++ List.replicate 9 (r .sync)
  let schedule : List (Thread 1 1) := List.replicate 4 (.inr 0) ++ List.replicate 3 (.inl 0) ++
    List.replicate 14 (.inr 0) ++ List.replicate 10 (.inl 0)
  obtain ⟨s, reach, holds⟩ := System.exists_reachable_of_exec (M := system 1 1) schedule
    (fun s => s.trace = pre ++ w .resetRead :: (mid ++ r .callWaitRead ::
      (between ++ [r (.readValue 1)]))) (by decide +kernel)
  have trace := of_decide_eq_true holds
  exact ⟨s, reach, pre, mid, between, [], trace,
    reader_after_writer 1 1 s reach 0 0 1 pre mid between [] trace⟩

end OsUnix.MutexRW
