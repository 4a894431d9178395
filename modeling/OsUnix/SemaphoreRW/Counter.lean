import OsUnix.SemaphoreRW.Invariant

/-!
# The shared counter

`(*shm)++` is a load and a store, and what is printed is read once more. The sections keep the three
apart from every other access, so the counter counts the completed writer sections.
-/

namespace OsUnix.SemaphoreRW
open Concurrency

variable {readers writers : Nat}

abbrev Trace (readers writers : Nat) := List ((Fin readers ⊕ Fin writers) × Action)

def completed (trace : Trace readers writers) : Nat :=
  trace.countP fun e => e.2 = .stopWrite

def Action.written : Action → Option Int
  | .printWrite value => some value
  | _ => none

def written (trace : Trace readers writers) : List Int :=
  trace.filterMap fun e => e.2.written

variable {s t : State readers writers} {i j : Fin readers ⊕ Fin writers} {g : Shared} {l : Local}
  {a : Action} {pc : WriterPc} {before since : Trace readers writers} {value : Int}

theorem completed_append : completed (before ++ since) = completed before + completed since :=
  List.countP_append

@[simp] theorem completed_snoc : completed (before ++ [(i, a)]) =
    completed before + if a = .stopWrite then 1 else 0 := by
  rw [completed_append]
  congr 1
  by_cases stop : a = .stopWrite <;> simp [completed, stop]

@[simp] theorem written_snoc :
    written (before ++ [(i, a)]) = written before ++ a.written.toList := by
  rw [written, List.filterMap_append]
  cases a <;> rfl

def Inside (shm : Int) (n printed : Nat) : WriterPc → Prop
  | .call | .wait => True
  | .load => shm = n ∧ printed = n
  | .store tmp => tmp = n ∧ printed = n
  | .print => shm = n + 1 ∧ printed = n
  | .stop => shm = n + 1 ∧ printed = n + 1

structure Counted (s : State readers writers) : Prop where
  idle : (∀ j, (s.locals j).writing = false) →
    s.shared.shm = completed s.trace ∧ (written s.trace).length = completed s.trace
  inside : ∀ j pc, s.locals j = .writer pc →
    Inside s.shared.shm (completed s.trace) (written s.trace).length pc
  numbered : written s.trace = numbers (written s.trace).length

theorem inside_of_outside {shm : Int} {n printed : Nat}
    (outside : (Local.writer pc).writing = false) :
    Inside shm n printed pc := by
  cases pc with
  | call | wait => trivial
  | load | store _ | print | stop => cases outside

theorem Counted.start : Counted (system readers writers).init where
  idle _ := ⟨rfl, rfl⟩
  inside j pc at_j := by
    cases j with
    | inl _ => cases at_j
    | inr _ =>
        cases at_j
        trivial
  numbered := rfl

theorem alone (h : (system readers writers).Reachable s) (inside : (s.locals i).writing = true)
    (other : j ≠ i) : (s.locals j).writing = false := by
  rw [Bool.eq_false_iff]
  exact fun at_j => other ((exclusive h).1 at_j inside)

theorem Counted.of_alone (others : ∀ j, j ≠ i → (s.locals j).writing = false)
    (idle : l.writing = false → g.shm = completed (s.trace ++ [(i, a)]) ∧
      (written (s.trace ++ [(i, a)])).length = completed (s.trace ++ [(i, a)]))
    (inside : ∀ pc, l = .writer pc → Inside g.shm (completed (s.trace ++ [(i, a)]))
      (written (s.trace ++ [(i, a)])).length pc)
    (numbered : written (s.trace ++ [(i, a)]) = numbers (written (s.trace ++ [(i, a)])).length) :
    Counted (s.move i g l a) where
  idle none := idle (by simpa using none i)
  inside j pc at_j := by
    by_cases eq : j = i
    · subst eq
      exact inside pc (by simpa using at_j)
    · have same : s.locals j = .writer pc := by simpa [eq] using at_j
      exact inside_of_outside (by rw [← same]; exact others j eq)
  numbered := numbered

theorem Counted.quiet (inv : Counted s) (shm : g.shm = s.shared.shm) (stays : a ≠ .stopWrite)
    (silent : a.written = none) (before : (s.locals i).writing = false)
    (after : l.writing = false) : Counted (s.move i g l a) := by
  have same_completed : completed (s.trace ++ [(i, a)]) = completed s.trace := by simp [stays]
  have same_written : written (s.trace ++ [(i, a)]) = written s.trace := by simp [silent]
  constructor
  · intro none
    rw [Config.move_shared, Config.move_trace, same_completed, same_written, shm]
    refine inv.idle fun j => ?_
    by_cases eq : j = i
    · rw [eq, before]
    · simpa [eq] using none j
  · intro j pc at_j
    rw [Config.move_shared, Config.move_trace, same_completed, same_written, shm]
    by_cases eq : j = i
    · subst eq
      have here : l = .writer pc := by simpa using at_j
      exact inside_of_outside (here ▸ after)
    · exact inv.inside j pc (by simpa [eq] using at_j)
  · rw [Config.move_trace, same_written]
    exact inv.numbered

theorem Counted.step (h : (system readers writers).Reachable s) (inv : Counted s)
    (step : (system readers writers).step i s.shared (s.locals i) = some (g, l, a)) :
    Counted (s.move i g l a) := by
  have move := step_iff.mp step
  have others (inside : (s.locals i).writing = true) (j) (other : j ≠ i) :
      (s.locals j).writing = false := alone h inside other
  have here := inv.inside i
  have numbered := inv.numbered
  generalize before : s.locals i = l₀ at move others here
  cases move with
  | callStartRead | startRead _ _ | printRead | stopRead _ | callStartWrite =>
      exact inv.quiet rfl nofun rfl (by rw [before]; rfl) rfl
  | startWrite no_writer no_reader =>
      have none : ∀ j, (s.locals j).writing = false :=
        count_eq_zero_iff.mp ((sems_aw h).symm.trans no_writer)
      refine .of_alone (fun j _ => none j) nofun ?_ (by simpa [Action.written] using numbered)
      rintro pc ⟨⟩
      simpa [Inside, Action.written] using inv.idle none
  | load =>
      refine .of_alone (others rfl) nofun ?_ (by simpa [Action.written] using numbered)
      rintro pc ⟨⟩
      simpa [Inside, Action.written] using here .load rfl
  | store tmp =>
      refine .of_alone (others rfl) nofun ?_ (by simpa [Action.written] using numbered)
      rintro pc ⟨⟩
      simpa [Inside, Action.written] using here (.store tmp) rfl
  | printWrite =>
      obtain ⟨shm, printed⟩ := here .print rfl
      refine .of_alone (others rfl) nofun ?_ ?_
      · rintro pc ⟨⟩
        simp [Inside, Action.written, shm, printed]
      · simp only [written_snoc, Action.written, Option.toList_some, List.length_append,
          List.length_singleton, numbers_succ]
        rw [← numbered, shm, printed]
  | stopWrite counted =>
      obtain ⟨shm, printed⟩ := here .stop rfl
      refine .of_alone (others rfl) (fun _ => ?_) ?_ (by simpa [Action.written] using numbered)
      · simp [Action.written, shm, printed]
      · rintro pc ⟨⟩
        trivial

theorem counted (h : (system readers writers).Reachable s) : Counted s := by
  refine h.preserved Counted.start fun {s i t} reach inv next => ?_
  obtain ⟨g, l, a, step, rfl⟩ := System.next_eq_some.mp next
  exact inv.step reach step

def Reads (trace : Trace readers writers) (i : Fin readers ⊕ Fin writers) : Prop :=
  ∃ earlier since, trace = earlier ++ (i, .startRead) :: since ∧ (i, .startRead) ∉ since ∧
    completed since = 0

theorem Reads.snoc (reads : Reads before i) (again : (j, a) ≠ (i, .startRead))
    (stays : a ≠ .stopWrite) : Reads (before ++ [(j, a)]) i := by
  obtain ⟨earlier, since, rfl, once, none⟩ := reads
  refine ⟨earlier, since ++ [(j, a)], by simp, ?_, by simp [none, stays]⟩
  rw [List.mem_append, not_or, List.mem_singleton]
  exact ⟨once, again.symm⟩

theorem reads (h : (system readers writers).Reachable s) (reading : (s.locals i).reading = true) :
    Reads s.trace i := by
  refine h.preserved (I := fun s => ∀ i, (s.locals i).reading = true → Reads s.trace i) ?_ ?_ i
    reading
  · rintro (i | i) ⟨⟩
  · intro s j t reach inv next i reading
    obtain ⟨g, l, a, step, rfl⟩ := System.next_eq_some.mp next
    have move := step_iff.mp step
    generalize before : s.locals j = l₀ at move
    by_cases eq : i = j
    · subst eq
      have arrived : l.reading = true := by simpa using reading
      cases move with
      | startRead _ _ => exact ⟨s.trace, [], rfl, List.not_mem_nil, rfl⟩
      | printRead => exact (inv i (by rw [before]; rfl)).snoc nofun nofun
      | _ => cases arrived
    · have at_i : (s.locals i).reading = true := by simpa [eq] using reading
      refine (inv i at_i).snoc (fun same => eq (Prod.ext_iff.mp same).1.symm) ?_
      rintro rfl
      cases move
      have inside : (s.locals j).writing = true := by rw [before]; rfl
      have no_reader := (exclusive reach).2 ⟨j, inside⟩
      exact Set.notMem_empty i (no_reader ▸ at_i)

theorem printed_by_writer {after : Trace readers writers}
    (h : (system readers writers).Reachable s)
    (trace : s.trace = before ++ (i, .printWrite value) :: after) :
    value = completed before + 1 := by
  obtain ⟨u, g, l, reach, rfl, step, -⟩ := h.split trace
  have move := step_iff.mp step
  generalize here : u.locals i = l₀ at move
  cases move
  exact ((counted reach).inside i .print here).1

theorem printed_by_reader {after : Trace readers writers}
    (h : (system readers writers).Reachable s)
    (trace : s.trace = before ++ (i, .printRead value) :: after) :
    ∃ earlier since, before = earlier ++ (i, .startRead) :: since ∧ (i, .startRead) ∉ since ∧
      value = completed earlier := by
  obtain ⟨u, g, l, reach, rfl, step, -⟩ := h.split trace
  have move := step_iff.mp step
  generalize here : u.locals i = l₀ at move
  cases move
  have reading : (u.locals i).reading = true := by rw [here]; rfl
  have no_writer : ∀ j, (u.locals j).writing = false := fun j => by
    rw [Bool.eq_false_iff]
    exact fun inside => Set.notMem_empty i ((exclusive reach).2 ⟨j, inside⟩ ▸ reading)
  obtain ⟨earlier, since, trace, once, none⟩ := reads reach reading
  refine ⟨earlier, since, trace, once, ?_⟩
  have total : completed u.trace = completed earlier := by
    rw [trace, completed_append, ← List.singleton_append, completed_append, none]
    rfl
  rw [((counted reach).idle no_writer).1, total]

/-- The counter counts the completed writer sections; the writers print 1, 2, 3, ... and each one
the number of its own section; a reader prints how many had been completed when it started. -/
theorem counter_exact (h : (system readers writers).Reachable s) :
    ((∀ i, (s.locals i).writing = false) → s.shared.shm = completed s.trace) ∧
      written s.trace = numbers (written s.trace).length ∧
      (∀ before i (value : Int) after, s.trace = before ++ (i, .printWrite value) :: after →
        value = completed before + 1) ∧
      (∀ before i (value : Int) after, s.trace = before ++ (i, .printRead value) :: after →
        ∃ earlier since, before = earlier ++ (i, .startRead) :: since ∧
          (i, .startRead) ∉ since ∧ value = completed earlier) :=
  ⟨fun outside => ((counted h).idle outside).1, (counted h).numbered,
    fun _ _ _ _ => printed_by_writer h, fun _ _ _ _ => printed_by_reader h⟩

theorem counter_exact_pair : ∃ s : State 1 1,
    s.trace.getLast? = some (.inl 0, .printRead 1) ∧
      ((∀ i, (s.locals i).writing = false) → s.shared.shm = completed s.trace) ∧
      written s.trace = numbers (written s.trace).length ∧
      (∀ before i (value : Int) after, s.trace = before ++ (i, .printWrite value) :: after →
        value = completed before + 1) ∧
      (∀ before i (value : Int) after, s.trace = before ++ (i, .printRead value) :: after →
        ∃ earlier since, before = earlier ++ (i, .startRead) :: since ∧
          (i, .startRead) ∉ since ∧ value = completed earlier) := by
  obtain ⟨s, reach, last⟩ := System.exists_reachable_of_exec (M := system 1 1)
    (List.replicate 6 (.inr 0) ++ List.replicate 3 (.inl 0))
    (fun s => decide (s.trace.getLast? = some (.inl 0, .printRead 1))) (by decide)
  exact ⟨s, of_decide_eq_true last, counter_exact reach⟩

end OsUnix.SemaphoreRW
