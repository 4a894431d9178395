import OsUnix.MutexRW.Bookkeeping
import OsUnix.MutexRW.Progress

/-!
# Runs to the end

The loops have ten passes and every step takes a thread further in its pass, so every run ends.
What the writers print then are the numbers of all the sections, in order.
-/

namespace OsUnix.MutexRW
open Concurrency Finset

variable {readers writers : Nat} {s t : State readers writers} {i j : Thread readers writers}
  {g g' : Shared (Thread readers writers)} {l l' : Local} {a : Action}

def ReaderPc.left : ReaderPc → Nat
  | .incWaiting => 19
  | .call => 18
  | .waitRead => 17
  | .lock => 16
  | .resetWrite => 15
  | .incLoad => 14
  | .incStore _ => 13
  | .release => 12
  | .relock => 11
  | .decWaiting => 10
  | .incActive => 9
  | .load => 8
  | .print _ => 7
  | .decActive => 6
  | .decLoad => 5
  | .decStore _ => 4
  | .setWrite => 3
  | .stopRelease => 2
  | .guard | .returned => 0

def WriterPc.left : WriterPc → Nat
  | .incWaiting => 18
  | .lock => 17
  | .resetRead => 16
  | .incLoad => 15
  | .incStore _ => 14
  | .release => 13
  | .waitWrite => 12
  | .relock => 11
  | .decWaiting => 10
  | .load => 9
  | .store _ => 8
  | .print _ => 7
  | .stopIncWaiting => 6
  | .decLoad => 5
  | .decStore _ => 4
  | .setRead => 3
  | .stopRelease => 2
  | .guard | .returned => 0

def Local.left : Local → Nat
  | .reader .guard i => (iter - i) * 19 + 1
  | .writer .guard i => (iter - i) * 18 + 1
  | .reader .returned _ | .writer .returned _ => 0
  | .reader pc i => (iter - i - 1) * 19 + pc.left
  | .writer pc i => (iter - i - 1) * 18 + pc.left

def Local.InLoop : Local → Prop
  | .reader .guard i | .writer .guard i => i ≤ iter
  | .reader .returned i | .writer .returned i => i = iter
  | .reader _ i | .writer _ i => i < iter

theorem inLoop (h : (system readers writers).Reachable s) : ∀ i, (s.locals i).InLoop := by
  apply h.each (Q := fun _ l => l.InLoop)
  · intro i
    cases i <;> exact Nat.zero_le _
  · intro i g l g' l' a step loop
    have move := step_iff.mp step
    cases move with
    | readerGuard more | writerGuard more => exact more
    | readerReturn last | writerReturn last => exact Nat.le_antisymm loop (not_lt.mp last)
    | _ => exact loop

theorem left_falls (move : Move i g l g' l' a) (loop : l.InLoop) : l'.left < l.left := by
  cases move with
  | readerGuard more | writerGuard more =>
      simp only [Local.left, ReaderPc.left, WriterPc.left]
      omega
  | readerReturn | writerReturn => exact Nat.succ_pos _
  | readerStop | writerStop =>
      have loop : _ < iter := loop
      simp only [Local.left, ReaderPc.left, WriterPc.left]
      omega
  | _ => exact Nat.add_lt_add_left (by simp [ReaderPc.left, WriterPc.left]) _

theorem steps_le_left (h : (system readers writers).Reachable s) (i : Thread readers writers) :
    s.steps i ≤ ((system readers writers).locals₀ i).left :=
  Nat.le_of_add_right_le (h.steps_le Local.left
    (fun {_ i _ _ _} reach step => left_falls (step_iff.mp step) (inLoop reach i)) i)

abbrev Trace (readers writers : Nat) := List (Thread readers writers × Action)

variable {trace : Trace readers writers}

def Action.written : Action → Option Int
  | .writeValue value => some value
  | _ => none

def stored (trace : Trace readers writers) : List Int := trace.filterMap fun e => e.2.written

def printedBy : Thread readers writers → Action → Option Int
  | .inr _, .print value => some value
  | _, _ => none

def printed (trace : Trace readers writers) : List Int :=
  trace.filterMap fun e => printedBy e.1 e.2

@[simp] theorem stored_snoc : stored (trace ++ [(i, a)]) = stored trace ++ a.written.toList := by
  rw [stored, List.filterMap_append]
  cases a <;> rfl

@[simp] theorem printed_snoc :
    printed (trace ++ [(i, a)]) = printed trace ++ (printedBy i a).toList := by
  rw [printed, List.filterMap_append]
  cases i <;> cases a <;> rfl

def Local.sections : Local → Nat
  | .writer (.print _) i | .writer .stopIncWaiting i | .writer .decLoad i
  | .writer (.decStore _) i | .writer .setRead i | .writer .stopRelease i => i + 1
  | .writer _ i => i
  | .reader _ _ => 0

theorem value_eq (h : (system readers writers).Reachable s) :
    s.shared.value = ∑ i, (s.locals i).sections := by
  refine h.accounted (c := fun s => s.shared.value) (w := Local.sections) ?_ ?_
  · refine (Int.natCast_eq_zero.mpr (sum_eq_zero fun i _ => ?_)).symm
    cases i <;> rfl
  · intro s i g l a reach step
    have move := step_iff.mp step
    have current := current reach i
    generalize s.locals i = l₀ at move current
    cases move with
    | store =>
        obtain rfl := current
        simp [Local.sections, add_right_comm, add_assoc]
    | _ => rfl

theorem stored_eq (h : (system readers writers).Reachable s) :
    s.shared.value = ((stored s.trace).length : Int) ∧
      stored s.trace = numbers (stored s.trace).length := by
  refine h.preserved (I := fun s => s.shared.value = ((stored s.trace).length : Int) ∧
    stored s.trace = numbers (stored s.trace).length) ⟨rfl, rfl⟩ ?_
  intro s i t reach ⟨value, inOrder⟩ next
  have current := current reach i
  obtain ⟨g, l, a, move, rfl⟩ := next_cases next
  rw [Config.move_trace, Config.move_shared, stored_snoc]
  generalize s.locals i = l₀ at move current
  cases move with
  | store =>
      obtain rfl := current
      constructor
      · simp [Action.written, value]
      · simp only [Action.written, Option.toList_some, List.length_append, List.length_singleton]
        rw [numbers_succ, ← inOrder, value]
  | _ => exact ⟨by simpa [Action.written] using value, by simpa [Action.written] using inOrder⟩

theorem printed_current (h : (system readers writers).Reachable s)
    {before after : Trace readers writers} {v : Int}
    (eq : s.trace = before ++ (i, .print v) :: after) : v = ((stored before).length : Int) := by
  obtain ⟨u, g, l, reach, rfl, step, -⟩ := h.split eq
  have move := step_iff.mp step
  have current := current reach i
  rw [← (stored_eq reach).1]
  generalize u.locals i = l₀ at move current
  cases move <;> exact current

def Local.toTell : Local → List Int
  | .writer (.print num) _ => [num]
  | _ => []

theorem toTell_of_outside (outside : l.owning = false) : l.toTell = [] := by
  cases l with
  | reader pc k => rfl
  | writer pc k => cases pc <;> first | rfl | cases outside

structure Told (s : State readers writers) : Prop where
  quiet : (∀ i, (s.locals i).toTell = []) → printed s.trace = stored s.trace
  inside : ∀ i, (s.locals i).toTell ≠ [] →
    printed s.trace ++ (s.locals i).toTell = stored s.trace

theorem Told.keep (told : Told s) (same : l.toTell = (s.locals i).toTell)
    (silent : a.written = none) (mute : printedBy i a = none) : Told (s.move i g l a) := by
  have toTell (j : Thread readers writers) :
      ((s.move i g l a).locals j).toTell = (s.locals j).toTell := by
    rw [Config.move_locals]
    by_cases here : j = i
    · rw [here, Function.update_self, same]
    · rw [Function.update_of_ne here]
  constructor
  · intro none
    rw [Config.move_trace, printed_snoc, stored_snoc, silent, mute]
    simpa using told.quiet fun j => (toTell j).symm.trans (none j)
  · intro j some
    rw [toTell] at some ⊢
    rw [Config.move_trace, printed_snoc, stored_snoc, silent, mute]
    simpa using told.inside j some

theorem alone (h : (system readers writers).Reachable s) (owning : (s.locals i).owning = true)
    (other : j ≠ i) : (s.locals j).toTell = [] := by
  refine toTell_of_outside (Bool.eq_false_iff.mpr fun also => ?_)
  exact other ((guards h).unique also owning)

theorem told (h : (system readers writers).Reachable s) : Told s := by
  refine h.preserved (I := Told) ⟨fun _ => rfl, ?_⟩ ?_
  · rintro (i | i) some <;> exact absurd rfl some
  · intro s i t reach inv next
    obtain ⟨g, l, a, move, rfl⟩ := next_cases next
    have others (owning : (s.locals i).owning = true) (j) (other : j ≠ i) :
        ((s.move i g l a).locals j).toTell = [] := by
      rw [Config.move_locals, Function.update_of_ne other, alone reach owning other]
    have own : (s.move i g l a).locals i = l := Function.update_self _ _ _
    have quiet (none : (s.locals i).toTell = []) (owning : (s.locals i).owning = true) :=
      inv.quiet fun j => by
        by_cases here : j = i
        · rw [here, none]
        · exact alone reach owning here
    have inside := inv.inside i
    have placed := placed reach i
    generalize before : s.locals i = l₀ at move others quiet inside placed
    cases move with
    | @store k tmp =>
        refine ⟨fun none => ?_, fun j some => ?_⟩
        · have := none i
          rw [own] at this
          cases this
        · by_cases here : j = i
          · rw [here, own, Config.move_trace, printed_snoc, stored_snoc, quiet rfl rfl]
            cases i <;> simp [printedBy, Action.written, Local.toTell]
          · exact absurd (others rfl j here) some
    | @writerPrint k num =>
        obtain ⟨w, rfl⟩ : ∃ w, i = .inr w := by
          cases i with
          | inl r => cases placed
          | inr w => exact ⟨w, rfl⟩
        refine ⟨fun _ => ?_, fun j some => ?_⟩
        · rw [Config.move_trace, printed_snoc, stored_snoc]
          simpa [printedBy, Action.written, Local.toTell] using inside nofun
        · by_cases here : j = .inr w
          · rw [here, own] at some
            exact absurd rfl some
          · exact absurd (others rfl j here) some
    | readerPrint =>
        refine inv.keep (by rw [before]; rfl) rfl ?_
        cases i with
        | inl r => rfl
        | inr w => cases placed
    | _ => exact inv.keep (by rw [before]; rfl) rfl (by cases i <;> rfl)

theorem out_of_returned (returned : l.returned = true) :
    l.owning = false ∧ l.readerCounted = false ∧ l.writerCounted = false := by
  cases l with
  | reader pc k => cases pc <;> first | exact ⟨rfl, rfl, rfl⟩ | cases returned
  | writer pc k => cases pc <;> first | exact ⟨rfl, rfl, rfl⟩ | cases returned

theorem value_of_returned (h : (system readers writers).Reachable s)
    (ended : ∀ i, (s.locals i).returned = true) : s.shared.value = iter * writers := by
  rw [value_eq h, Fintype.sum_sum_type]
  have readers_none (r : Fin readers) : (s.locals (.inl r)).sections = 0 := by
    have placed := placed h (.inl r)
    generalize s.locals (.inl r) = l at placed
    cases l with
    | reader pc k => rfl
    | writer pc k => cases placed
  have writers_all (w : Fin writers) : (s.locals (.inr w)).sections = iter := by
    have placed := placed h (.inr w)
    have ended := ended (.inr w)
    generalize s.locals (.inr w) = l at placed ended
    cases l with
    | reader pc k => cases placed
    | writer pc k => cases pc <;> first | exact placed | cases ended
  rw [sum_eq_zero fun r _ => readers_none r, sum_const_nat fun w _ => writers_all w, card_univ,
    Fintype.card_fin, Nat.zero_add, Nat.mul_comm]
  rfl

structure Ended (s : State readers writers) : Prop where
  returned : ∀ i, (s.locals i).returned = true
  value : s.shared.value = iter * writers
  printed : printed s.trace = numbers (iter * writers)
  free : s.shared.singleMut.owner = none
  readCount : s.shared.readCount = 0
  writCount : s.shared.writCount = 0
  activeReaders : s.shared.activeReaders = 0
  waitingReaders : s.shared.waitingReaders = 0
  waitingWriters : s.shared.waitingWriters = iter * writers
  eventRead : s.shared.eventRead.signalled = true
  eventWrite : s.shared.eventWrite.signalled = true

theorem ended (h : (system readers writers).Reachable s)
    (stop : (system readers writers).Terminal s) : Ended s := by
  have returned (i : Thread readers writers) : (s.locals i).returned = true := by
    by_contra unfinished
    obtain ⟨j, enabled⟩ := exists_enabled h (Bool.eq_false_iff.mpr unfinished)
    obtain ⟨t, next⟩ := enabled.exists_step
    rw [stop j] at next
    cases next
  have value := value_of_returned h returned
  have outside (i : Thread readers writers) := out_of_returned (returned i)
  have idle (i : Thread readers writers) := outside_of_returned (returned i)
  have free := (guards h).free_iff.mpr fun i => (outside i).1
  have readCount : s.shared.readCount = 0 := by
    rw [readCount_eq h, count_eq_zero_iff.mpr fun i => (outside i).2.1]
    rfl
  have writCount : s.shared.writCount = 0 := by
    rw [writCount_eq h, count_eq_zero_iff.mpr fun i => (outside i).2.2]
    rfl
  have activeReaders : s.shared.activeReaders = 0 := by
    rw [activeReaders_eq h, count_eq_zero_iff.mpr fun i => (idle i).active]
    rfl
  have waitingReaders : s.shared.waitingReaders = 0 := by
    rw [waitingReaders_eq h, count_eq_zero_iff.mpr fun i => (idle i).announcedRead]
    rfl
  have length : (stored s.trace).length = iter * writers :=
    Int.ofNat.inj ((stored_eq h).1.symm.trans value)
  exact {
    returned, value, free, readCount, writCount, activeReaders, waitingReaders
    waitingWriters := (waitingWriters_ended h returned).trans (Int.mul_comm _ _)
    printed := by
      rw [(told h).quiet fun i => toTell_of_outside (outside i).1, (stored_eq h).2, length]
    eventRead := (eventRead_iff h free).mpr writCount
    eventWrite := (eventWrite_iff h free).mpr readCount }

/-- Every run ends: no thread takes more steps than the passes of its loop. On the way every number
that is printed is the number of the stores before it, and when nothing can happen any more the
writers have printed 1, 2, 3 and so on to the number of all their passes. -/
theorem runs_to_the_end (h : (system readers writers).Reachable s) :
    (∀ r, s.steps (.inl r) ≤ 191) ∧ (∀ w, s.steps (.inr w) ≤ 181) ∧
    (∀ before i (v : Int) after, s.trace = before ++ (i, .print v) :: after →
      v = (stored before).length) ∧
    ((system readers writers).Terminal s → Ended s) :=
  ⟨fun r => steps_le_left h (.inl r), fun w => steps_le_left h (.inr w),
    fun _ _ _ _ => printed_current h, ended h⟩

theorem runs_to_the_end_pair : ∃ s : State 1 1,
    (s.steps (.inl 0) = 191 ∧ s.steps (.inl 0) ≤ 191) ∧
    (s.steps (.inr 0) = 181 ∧ s.steps (.inr 0) ≤ 181) ∧
    printed s.trace = numbers 10 ∧ s.shared.waitingWriters = 10 := by
  obtain ⟨s, reach, ended⟩ := System.exists_reachable_of_exec (M := system 1 1)
    (List.replicate 181 (.inr 0) ++ List.replicate 191 (.inl 0))
    (fun s => s.steps (.inl 0) == 191 && s.steps (.inr 0) == 181 &&
      ((system 1 1).next s (.inl 0)).isNone && ((system 1 1).next s (.inr 0)).isNone)
    (by decide +kernel)
  simp only [Bool.and_eq_true, beq_iff_eq, Option.isNone_iff_eq_none] at ended
  obtain ⟨⟨⟨readerSteps, writerSteps⟩, reader⟩, writer⟩ := ended
  have stop : (system 1 1).Terminal s := by
    rintro (i | i) <;> obtain rfl : i = 0 := Subsingleton.elim _ _ <;> assumption
  obtain ⟨readers_le, writers_le, -, result⟩ := runs_to_the_end reach
  exact ⟨s, ⟨readerSteps, readers_le 0⟩, ⟨writerSteps, writers_le 0⟩, (result stop).printed,
    (result stop).waitingWriters⟩

end OsUnix.MutexRW
