import OsUnix.MutexRW.Invariant

/-!
# The counters of waiting and active threads

`StopWrite` increments `waiting_writers` where the decrement of `StartWrite` has already undone the
increment of `StartWrite`. Every pass of a writer leaves the counter one too high.
-/

namespace OsUnix.MutexRW
open Concurrency Finset

variable {readers writers : Nat} {s : State readers writers}

def Local.announcedWrite : Local → Bool
  | .writer .lock _ | .writer .resetRead _ | .writer .incLoad _ | .writer (.incStore _) _
  | .writer .release _ | .writer .waitWrite _ | .writer .relock _ | .writer .decWaiting _ => true
  | _ => false

def Local.announcedRead : Local → Bool
  | .reader .call _ | .reader .waitRead _ | .reader .lock _ | .reader .resetWrite _
  | .reader .incLoad _ | .reader (.incStore _) _ | .reader .release _ | .reader .relock _
  | .reader .decWaiting _ => true
  | _ => false

def Local.active : Local → Bool
  | .reader .load _ | .reader (.print _) _ | .reader .decActive _ => true
  | _ => false

def Local.stops : Local → Nat
  | .writer .decLoad i | .writer (.decStore _) i | .writer .setRead i
  | .writer .stopRelease i => i + 1
  | .writer _ i => i
  | .reader _ _ => 0

structure Exact (s : State readers writers) : Prop where
  waitingWriters : s.shared.waitingWriters = count Local.announcedWrite s.locals
  waitingReaders : s.shared.waitingReaders = count Local.announcedRead s.locals
  activeReaders : s.shared.activeReaders = count Local.active s.locals

structure ExactCounters (readers writers : Nat) : Prop where
  always : ∀ s, (system readers writers).Reachable s → Exact s
  ended : ∀ s, (system readers writers).Reachable s → (∀ i, (s.locals i).returned = true) →
    s.shared.waitingWriters = 0 ∧ s.shared.waitingReaders = 0 ∧ s.shared.activeReaders = 0

theorem waitingReaders_eq (h : (system readers writers).Reachable s) :
    s.shared.waitingReaders = count Local.announcedRead s.locals := by
  apply h.counted (c := fun s => s.shared.waitingReaders)
  · rw [count_start rfl rfl]
    rfl
  · intro s i g l a _ step
    have move := step_iff.mp step
    generalize s.locals i = l₀ at move
    cases move <;> simp [Local.announcedRead]

theorem activeReaders_eq (h : (system readers writers).Reachable s) :
    s.shared.activeReaders = count Local.active s.locals := by
  apply h.counted (c := fun s => s.shared.activeReaders)
  · rw [count_start rfl rfl]
    rfl
  · intro s i g l a _ step
    have move := step_iff.mp step
    generalize s.locals i = l₀ at move
    cases move <;> simp [Local.active]

theorem waitingWriters_eq (h : (system readers writers).Reachable s) :
    s.shared.waitingWriters =
      count Local.announcedWrite s.locals + (∑ i, (s.locals i).stops : Nat) := by
  have sum : s.shared.waitingWriters =
      (∑ i, ((s.locals i).announcedWrite.toNat + (s.locals i).stops) : Nat) := by
    apply h.accounted (c := fun s => s.shared.waitingWriters)
      (w := fun l => l.announcedWrite.toNat + l.stops)
    · rw [sum_eq_zero fun i _ => by cases i <;> rfl]
      rfl
    · intro s i g l a _ step
      have move := step_iff.mp step
      generalize s.locals i = l₀ at move
      cases move <;> simp [Local.announcedWrite, Local.stops] <;> omega
  rw [sum, sum_add_distrib, ← count_eq_sum, Int.natCast_add]

theorem exact_iff_noStop (h : (system readers writers).Reachable s) :
    Exact s ↔ ∀ i, (s.locals i).stops = 0 := by
  have eq := waitingWriters_eq h
  constructor
  · intro exact i
    have none : ∑ i, (s.locals i).stops = 0 := by
      have := exact.waitingWriters
      omega
    exact sum_eq_zero_iff.mp none i (mem_univ i)
  · intro none
    refine ⟨?_, waitingReaders_eq h, activeReaders_eq h⟩
    rw [eq, sum_eq_zero fun i _ => none i]
    simp

def NoStop (s : State readers writers) (i : Thread readers writers) : Prop :=
  ∀ k, s.locals i ≠ .writer .stopIncWaiting k

theorem stops_of_noStop (h : (system readers writers).ReachableIf NoStop s) :
    ∀ i, (s.locals i).stops = 0 := by
  apply h.invariant (I := fun s => ∀ i, (s.locals i).stops = 0)
  · intro i
    cases i <;> rfl
  · intro s m t _ none allowed next
    obtain ⟨g, l, a, move, rfl⟩ := next_cases next
    rw [Config.move_locals, Function.forall_update_iff s.locals fun _ l => l.stops = 0]
    refine ⟨?_, fun i _ => none i⟩
    have mine := none m
    generalize before : s.locals m = l₀ at move mine
    cases move with
    | stopIncWaiting => exact absurd before (allowed _)
    | _ => exact mine

def Placed : Thread readers writers → Local → Prop
  | .inl _, .reader _ _ => True
  | .inr _, .writer .guard i => i ≤ iter
  | .inr _, .writer .returned i => i = iter
  | .inr _, .writer _ i => i < iter
  | _, _ => False

theorem placed_of_move {i : Thread readers writers} {g g' : Shared (Thread readers writers)}
    {l l' : Local} {a : Action} (move : Move i g l g' l' a) (placed : Placed i l) :
    Placed i l' := by
  cases i with
  | inl r => cases move <;> exact placed
  | inr w =>
      cases move with
      | writerGuard more => exact more
      | writerReturn last => exact Nat.le_antisymm placed (Nat.le_of_not_lt last)
      | _ => exact placed

theorem placed (h : (system readers writers).Reachable s) : ∀ i, Placed i (s.locals i) := by
  apply h.each (Q := Placed)
  · intro i
    cases i with
    | inl r => trivial
    | inr w => exact Nat.zero_le _
  · intro i g l g' l' a step placed
    exact placed_of_move (step_iff.mp step) placed

structure Local.Outside (l : Local) : Prop where
  announcedWrite : l.announcedWrite = false
  announcedRead : l.announcedRead = false
  active : l.active = false

theorem outside_of_returned {l : Local} (ended : l.returned = true) : l.Outside := by
  cases l with
  | reader pc k => cases pc <;> first | exact ⟨rfl, rfl, rfl⟩ | cases ended
  | writer pc k => cases pc <;> first | exact ⟨rfl, rfl, rfl⟩ | cases ended

theorem Exact.ended (exact : Exact s) (ended : ∀ i, (s.locals i).returned = true) :
    s.shared.waitingWriters = 0 ∧ s.shared.waitingReaders = 0 ∧ s.shared.activeReaders = 0 := by
  have outside (i : Thread readers writers) := outside_of_returned (ended i)
  rw [exact.waitingWriters, exact.waitingReaders, exact.activeReaders,
    count_eq_zero_iff.mpr fun i => (outside i).announcedWrite,
    count_eq_zero_iff.mpr fun i => (outside i).announcedRead,
    count_eq_zero_iff.mpr fun i => (outside i).active]
  exact ⟨rfl, rfl, rfl⟩

theorem stops_of_returned {i : Thread readers writers} {l : Local} (placed : Placed i l)
    (ended : l.returned = true) : l.stops = Sum.elim (fun _ => 0) (fun _ => iter) i := by
  cases i with
  | inl r =>
      cases l with
      | reader pc k => rfl
      | writer pc k => cases placed
  | inr w =>
      cases l with
      | reader pc k => cases placed
      | writer pc k => cases pc <;> first | exact placed | cases ended

theorem waitingWriters_ended (h : (system readers writers).Reachable s)
    (ended : ∀ i, (s.locals i).returned = true) :
    s.shared.waitingWriters = writers * iter := by
  have none_announced : count Local.announcedWrite s.locals = 0 :=
    count_eq_zero_iff.mpr fun i => (outside_of_returned (ended i)).announcedWrite
  rw [waitingWriters_eq h, none_announced,
    sum_congr rfl fun i _ => stops_of_returned (placed h i) (ended i), Fintype.sum_sum_type]
  simp

theorem exists_stopped (w : Fin writers) : ∃ s : State readers writers,
    (system readers writers).Reachable s ∧ (s.locals (.inr w)).stops = 1 := by
  have start := System.SoloTo.start (M := system readers writers) (i := .inr w)
    (s := (system readers writers).init)
  have locked := ((start.step (step_iff.mpr (.writerGuard (by decide)))).step
    (step_iff.mpr .writerIncWaiting)).step (step_iff.mpr (.writerLock rfl))
  have counted := (((locked.step (step_iff.mpr .resetRead)).step
    (step_iff.mpr .writerIncLoad)).step (step_iff.mpr .writerIncStore)).step
    (step_iff.mpr .writerRelease)
  have inside := ((counted.step (step_iff.mpr (.writerWait rfl))).step
    (step_iff.mpr (.writerRelock (by rw [Mutex.release_owner]; rfl)))).step
    (step_iff.mpr .writerDecWaiting)
  have stopped := (((inside.step (step_iff.mpr .writerLoad)).step (step_iff.mpr .store)).step
    (step_iff.mpr .writerPrint)).step (step_iff.mpr .stopIncWaiting)
  obtain ⟨s, run, -, at_w, -⟩ := stopped
  exact ⟨s, run.run, by rw [at_w]; rfl⟩

theorem not_exact_of_stopped {w : Fin writers} (h : (system readers writers).Reachable s)
    (stopped : (s.locals (.inr w)).stops = 1) : ¬ Exact s := by
  intro exact
  have none := (exact_iff_noStop h).mp exact (.inr w)
  rw [stopped] at none
  cases none

theorem exactCounters_of_no_writer : ExactCounters readers 0 := by
  have exact (s : State readers 0) (h : (system readers 0).Reachable s) : Exact s := by
    refine (exact_iff_noStop h).mpr fun i => ?_
    cases i with
    | inl r =>
        have own_code := placed h (.inl r)
        generalize s.locals (.inl r) = l at own_code
        cases l with
        | reader pc k => rfl
        | writer pc k => cases own_code
    | inr w => exact w.elim0
  exact ⟨exact, fun s h ended => (exact s h).ended ended⟩

/-- The counters are exact until the first increment in `StopWrite`, and never after it. -/
theorem exactCounters_iff (readers writers : Nat) :
    (∀ s, (system readers writers).ReachableIf NoStop s → Exact s) ∧
    (∀ s, (system readers writers).Reachable s → (Exact s ↔ ∀ i, (s.locals i).stops = 0)) ∧
    (∀ s, (system readers writers).Reachable s → (∀ i, (s.locals i).returned = true) →
      s.shared.waitingWriters = writers * iter) ∧
    (ExactCounters readers writers ↔ writers = 0) := by
  refine ⟨fun s h => (exact_iff_noStop h.reachable).mpr (stops_of_noStop h),
    fun s h => exact_iff_noStop h, fun s h ended => waitingWriters_ended h ended, ?_⟩
  constructor
  · intro exact
    by_contra some_writer
    obtain ⟨s, reach, stopped⟩ :=
      @exists_stopped readers writers ⟨0, Nat.pos_of_ne_zero some_writer⟩
    exact not_exact_of_stopped reach stopped (exact.always s reach)
  · rintro rfl
    exact exactCounters_of_no_writer

theorem exactCounters_fails : ¬ ExactCounters 0 1 := by
  intro exact
  obtain ⟨s, reach, stopped⟩ := @exists_stopped 0 1 0
  exact not_exact_of_stopped reach stopped (exact.always s reach)

end OsUnix.MutexRW
