import OsUnix.EventRW.Invariant
import OsUnix.EventRW.Runs
import OsUnix.Concurrency.RwLock

/-!
# When readers and writers exclude each other

`start_read` and `start_write` test once and wait once. An event may be signalled although what the
thread waits for does not hold; the run that lets nobody pass such an event keeps exclusion.
-/

namespace OsUnix.EventRW
open Concurrency

variable {readers writers : Nat} {s t : State readers writers} {i j : Thread readers writers}

def WriterGranted (s : State readers writers) (i : Thread readers writers) : Prop :=
  ∀ k, s.locals i = .writer .wait k → s.shared.wrt = false

/-- A thread that returns from its wait finds what it has waited for. -/
def Granted (s : State readers writers) (i : Thread readers writers) : Prop :=
  (s.locals i = .reader .wait → s.shared.wrt = false) ∧
    ∀ k, s.locals i = .writer .wait k → ¬ 0 < s.shared.nr ∧ s.shared.wrt = false

theorem Granted.writerGranted (h : Granted s i) : WriterGranted s i :=
  fun k at_wait => (h.2 k at_wait).2

def Local.foundNoWriter : Local → Bool
  | .writer .reset _ | .writer .decWaiting _ | .writer .setWrt _ => true
  | _ => false

def Local.foundNoReader : Local → Bool
  | .writer .testWrt _ | .writer .reset _ | .writer .decWaiting _ | .writer .setWrt _ => true
  | _ => false

def Local.readerFoundNoWriter : Local → Bool
  | .reader .testWaiting | .reader .reset | .reader .decWaiting | .reader .incNr => true
  | _ => false

theorem owning_of_foundNoWriter (l : Local) (found : l.foundNoWriter = true) :
    l.owning = true := by
  cases l with
  | reader pc => cases found
  | writer pc k => cases pc <;> simp_all [Local.foundNoWriter, Local.owning]

theorem owning_of_foundNoReader (l : Local) (found : l.foundNoReader = true) :
    l.owning = true := by
  cases l with
  | reader pc => cases found
  | writer pc k => cases pc <;> simp_all [Local.foundNoReader, Local.owning]

theorem owning_of_readerFoundNoWriter (l : Local) (found : l.readerFoundNoWriter = true) :
    l.owning = true := by
  cases l with
  | reader pc => cases pc <;> simp_all [Local.readerFoundNoWriter, Local.owning]
  | writer pc k => cases found

/-! ## Writers and writers -/

structure WritersAlone (s : State readers writers) : Prop where
  marked : count Local.marked s.locals = s.shared.wrt.toNat
  found : ∀ i, (s.locals i).foundNoWriter = true → s.shared.wrt = false

theorem writersAlone (h : (system readers writers).ReachableIf WriterGranted s) :
    WritersAlone s := by
  refine h.invariant (I := WritersAlone) ⟨count_start rfl rfl, fun i found => ?_⟩ ?_
  · rfl
  · intro s m t reach ⟨marked, found⟩ granted next
    obtain ⟨g, l, a, move, rfl⟩ := next_cases next
    have mine := found m
    have moved := count_update Local.marked s.locals m l
    have protect (own : l.foundNoWriter = true → g.wrt = false)
        (others : (s.locals m).owning = false → s.shared.wrt = false → g.wrt = false) :=
      (guards reach.reachable).protect owning_of_foundNoWriter found own others
    have grant := granted
    unfold WriterGranted at grant
    generalize s.locals m = l₀ at move mine moved protect grant
    cases move with
    | setWrt =>
        have idle := mine rfl
        simp only [idle, Bool.toNat_false] at marked
        refine ⟨?_, protect (fun found => by cases found) (fun outside => by cases outside)⟩
        simpa [marked, Local.marked] using moved
    | clearWrt =>
        refine ⟨?_, protect (fun _ => rfl) (fun _ _ => rfl)⟩
        have := Bool.toNat_le s.shared.wrt
        simp only [Local.marked, Bool.toNat_true, Bool.toNat_false] at moved
        simp only [Config.move_locals, Config.move_shared, Bool.toNat_false]
        omega
    | writerTestWrt idle =>
        exact ⟨moved.trans marked, protect (fun _ => idle) fun _ idle => idle⟩
    | writerWait passed =>
        exact ⟨moved.trans marked, protect (fun _ => grant _ rfl) fun _ idle => idle⟩
    | writerReset =>
        exact ⟨moved.trans marked, protect (fun _ => mine rfl) fun _ idle => idle⟩
    | writerDecWaiting =>
        exact ⟨moved.trans marked, protect (fun _ => mine rfl) fun _ idle => idle⟩
    | _ =>
        refine ⟨?_, protect (fun found => by cases found) fun _ idle => idle⟩
        simpa [Local.marked, marked] using moved

/-! ## Readers and writers -/

theorem idle_of_readerFound (h : (system readers writers).ReachableIf Granted s) :
    ∀ i, (s.locals i).readerFoundNoWriter = true → s.shared.wrt = false := by
  apply h.invariant
    (I := fun s => ∀ i, (s.locals i).readerFoundNoWriter = true → s.shared.wrt = false)
    (fun _ _ => rfl)
  intro s m t reach found granted next
  obtain ⟨g, l, a, move, rfl⟩ := next_cases next
  have mine := found m
  have grant := granted.1
  have protect (own : l.readerFoundNoWriter = true → g.wrt = false)
      (others : (s.locals m).owning = false → s.shared.wrt = false → g.wrt = false) :=
    (guards reach.reachable).protect owning_of_readerFoundNoWriter found own others
  generalize s.locals m = l₀ at move mine grant protect
  cases move with
  | readerTestWrt idle => exact protect (fun _ => idle) (fun _ idle => idle)
  | readerTestWaiting => exact protect (fun _ => mine rfl) (fun _ idle => idle)
  | readerWait passed => exact protect (fun _ => grant rfl) (fun _ idle => idle)
  | readerReset => exact protect (fun _ => mine rfl) (fun _ idle => idle)
  | readerDecWaiting => exact protect (fun _ => mine rfl) (fun _ idle => idle)
  | setWrt => exact protect (fun found => by cases found) (fun outside => by cases outside)
  | clearWrt => exact protect (fun _ => rfl) (fun _ _ => rfl)
  | _ => exact protect (fun found => by cases found) (fun _ idle => idle)

theorem no_reader_of_found (h : (system readers writers).ReachableIf Granted s) :
    ∀ i, (s.locals i).foundNoReader = true → ¬ 0 < s.shared.nr := by
  apply h.invariant (I := fun s => ∀ i, (s.locals i).foundNoReader = true → ¬ 0 < s.shared.nr)
    (fun _ _ => lt_irrefl 0)
  intro s m t reach found granted next
  obtain ⟨g, l, a, move, rfl⟩ := next_cases next
  have mine := found m
  have grant := granted.2
  have protect (own : l.foundNoReader = true → ¬ 0 < g.nr)
      (others : (s.locals m).owning = false → ¬ 0 < s.shared.nr → ¬ 0 < g.nr) :=
    (guards reach.reachable).protect owning_of_foundNoReader found own others
  generalize s.locals m = l₀ at move mine grant protect
  cases move with
  | writerTestNr idle => exact protect (fun _ => idle) (fun _ none => none)
  | writerTestWrt => exact protect (fun _ => mine rfl) (fun _ none => none)
  | writerWait passed => exact protect (fun _ => (grant _ rfl).1) (fun _ none => none)
  | writerReset => exact protect (fun _ => mine rfl) (fun _ none => none)
  | writerDecWaiting => exact protect (fun _ => mine rfl) (fun _ none => none)
  | incNr => exact protect (fun found => by cases found) (fun outside => by cases outside)
  | decNr =>
      refine protect (fun found => by cases found) (fun _ none => ?_)
      simp only
      omega
  | _ => exact protect (fun found => by cases found) (fun _ none => none)

theorem no_reader_of_wrt (h : (system readers writers).ReachableIf Granted s) :
    s.shared.wrt = true → ¬ 0 < s.shared.nr := by
  refine h.invariant (I := fun s => s.shared.wrt = true → ¬ 0 < s.shared.nr)
    (fun busy => by cases busy) ?_
  intro s m t reach inv granted next
  obtain ⟨g, l, a, move, rfl⟩ := next_cases next
  have idle := idle_of_readerFound reach m
  have none := no_reader_of_found reach m
  generalize s.locals m = l₀ at move idle none
  cases move with
  | incNr =>
      intro busy
      rw [show s.shared.wrt = false from idle rfl] at busy
      cases busy
  | decNr =>
      intro busy
      have := inv busy
      simp only [Config.move_shared]
      omega
  | setWrt => exact fun _ => none rfl
  | clearWrt => exact fun busy => by cases busy
  | _ => exact inv

/-! ## Exclusion -/

def Excludes (s : State readers writers) : Prop :=
  Exclusive (threadsAt Local.reading s.locals) (threadsAt Local.writing s.locals)

theorem marked_of_writing (l : Local) (writing : l.writing = true) : l.marked = true := by
  cases l with
  | reader pc => cases writing
  | writer pc k => cases pc <;> simp_all [Local.writing, Local.marked]

theorem counted_of_reading (l : Local) (reading : l.reading = true) : l.counted = true := by
  cases l with
  | reader pc => cases pc <;> simp_all [Local.reading, Local.counted]
  | writer pc k => cases reading

theorem writing_le (h : (system readers writers).ReachableIf WriterGranted s) :
    count Local.writing s.locals ≤ s.shared.wrt.toNat :=
  (count_mono marked_of_writing).trans (writersAlone h).marked.le

theorem excludes_of_granted (h : (system readers writers).ReachableIf Granted s) : Excludes s := by
  have writing := writing_le (h.mono fun _ _ => Granted.writerGranted)
  refine exclusive_iff_count.mpr ⟨writing.trans (Bool.toNat_le _), fun some_writer => ?_⟩
  have busy : s.shared.wrt = true := by
    by_contra idle
    simp only [Bool.not_eq_true] at idle
    rw [idle] at writing
    exact absurd (some_writer.trans_le writing) (lt_irrefl 0)
  have none_counted := no_reader_of_wrt h busy
  have counted := nr_eq h.reachable
  have reading := count_mono (f := s.locals) counted_of_reading
  omega

/-! ## A wait that returns too early -/

theorem not_excludes (distinct : j ≠ i) (writing : (s.locals i).writing = true)
    (inside : (s.locals j).reading = true ∨ (s.locals j).writing = true) : ¬ Excludes s := by
  rintro ⟨one_writer, no_reader⟩
  rcases inside with reading | also_writing
  · have empty := no_reader ⟨i, writing⟩
    have member : j ∈ threadsAt Local.reading s.locals := reading
    rw [empty] at member
    exact member
  · exact distinct (one_writer also_writing writing)

theorem other_writing (h : (system readers writers).Reachable s) (busy : s.shared.wrt = true)
    (owning : (s.locals i).owning = true) (unmarked : (s.locals i).marked = false) :
    ∃ j, j ≠ i ∧ (s.locals j).writing = true := by
  obtain ⟨j, marked⟩ := marked_of_wrt h busy
  have other : j ≠ i := by
    rintro rfl
    rw [marked] at unmarked
    cases unmarked
  rcases marked_cases marked with also_owning | writing
  · exact absurd ((guards h).unique also_owning owning) other
  · exact ⟨j, other, writing⟩

theorem other_reading (h : (system readers writers).Reachable s) (some_reader : 0 < s.shared.nr)
    (owning : (s.locals i).owning = true) (uncounted : (s.locals i).counted = false) :
    ∃ j, j ≠ i ∧ (s.locals j).reading = true := by
  obtain ⟨j, counted⟩ := exists_of_counted (nr_eq h) some_reader.ne'
  have other : j ≠ i := by
    rintro rfl
    rw [counted] at uncounted
    cases uncounted
  rcases counted_cases counted with also_owning | reading
  · exact absurd ((guards h).unique also_owning owning) other
  · exact ⟨j, other, reading⟩

theorem reader_overlap (h : (system readers writers).Reachable s)
    (at_i : s.locals i = .reader .wait) (enabled : (system readers writers).Enabled s i)
    (busy : s.shared.wrt = true) :
    ∃ t, (system readers writers).SoloRun i s t ∧ ¬ Excludes t := by
  obtain ⟨j, other, writing⟩ :=
    other_writing h busy (i := i) (by rw [at_i]; rfl) (by rw [at_i]; rfl)
  have owner := (guards h).eq_of_held (i := i) (by rw [at_i]; rfl)
  obtain ⟨u, next⟩ := enabled.exists_step
  obtain ⟨g, l, a, move, -⟩ := next_cases next
  rw [at_i] at move
  cases move with
  | readerWait passed =>
      obtain ⟨t, run, -, here, others⟩ :=
        solo_readerIn (solo_move (solo_start at_i) (.readerWait passed)) owner
      refine ⟨t, run, not_excludes (i := j) (j := i) other.symm ?_ (Or.inl ?_)⟩
      · rw [others j other]
        exact writing
      · rw [here]
        rfl

theorem writer_overlap (h : (system readers writers).Reachable s) {k : Nat}
    (at_i : s.locals i = .writer .wait k) (enabled : (system readers writers).Enabled s i)
    (busy : 0 < s.shared.nr ∨ s.shared.wrt = true) :
    ∃ t, (system readers writers).SoloRun i s t ∧ ¬ Excludes t := by
  obtain ⟨j, other, inside⟩ : ∃ j, j ≠ i ∧
      ((s.locals j).reading = true ∨ (s.locals j).writing = true) := by
    rcases busy with some_reader | some_writer
    · obtain ⟨j, other, reading⟩ :=
        other_reading h some_reader (i := i) (by rw [at_i]; rfl) (by rw [at_i]; rfl)
      exact ⟨j, other, Or.inl reading⟩
    · obtain ⟨j, other, writing⟩ :=
        other_writing h some_writer (i := i) (by rw [at_i]; rfl) (by rw [at_i]; rfl)
      exact ⟨j, other, Or.inr writing⟩
  have owner := (guards h).eq_of_held (i := i) (by rw [at_i]; rfl)
  obtain ⟨u, next⟩ := enabled.exists_step
  obtain ⟨g, l, a, move, -⟩ := next_cases next
  rw [at_i] at move
  cases move with
  | writerWait passed =>
      obtain ⟨t, run, -, here, others⟩ :=
        solo_writerIn (solo_move (solo_start at_i) (.writerWait passed)) owner
      refine ⟨t, run, not_excludes (i := i) (j := j) other ?_ ?_⟩
      · rw [here]
        rfl
      · rw [others j other]
        exact inside

theorem overlap_of_not_granted (h : (system readers writers).Reachable s)
    (enabled : (system readers writers).Enabled s i) (too_early : ¬ Granted s i) :
    ∃ t, (system readers writers).SoloRun i s t ∧ ¬ Excludes t := by
  by_contra none
  refine too_early ⟨fun at_i => ?_, fun k at_i => ?_⟩
  · rw [← Bool.not_eq_true]
    exact fun busy => none (reader_overlap h at_i enabled busy)
  · rw [← Bool.not_eq_true, ← not_or]
    exact fun busy => none (writer_overlap h at_i enabled busy)

/-! ## Which numbers of threads are safe -/

theorem reader_overlaps (r : Fin readers) (w : Fin writers) :
    ∃ s, (system readers writers).Reachable s ∧ ¬ Excludes s := by
  obtain ⟨s, enter, shared, -, others⟩ :=
    quiet_startWrite (s := (system readers writers).init) (i := .inr w) (k := 0)
    quiet_init rfl (by decide) (Or.inl rfl)
  have at_r : s.locals (.inl r) = .reader .guard := others (.inl r) (by simp)
  have run := shared ▸ solo_start at_r
  have run := solo_move run (.readerGuard (Nat.mul_pos (by decide) w.pos))
  have run := solo_move run (.readerLock (m := ⟨some (.inl r, 1)⟩) rfl)
  have run := solo_move run .readerIncWaiting
  have run := solo_move run (.readerMustWait rfl)
  obtain ⟨t, arrive, shared', at_r', -⟩ := run
  have reach : (system readers writers).Reachable t := enter.run.trans arrive.run
  obtain ⟨u, run, overlap⟩ := reader_overlap reach at_r'
    (by rw [System.enabled_iff, at_r', shared']; rfl) (by rw [shared']; rfl)
  exact ⟨u, reach.trans run.run, overlap⟩

/-- The first writer clears `wrt` and is slow to signal. The second writer enters meanwhile, and the
late signal lets the first one in again. -/
theorem writers_overlap (v w : Fin writers) (distinct : w ≠ v) :
    ∃ s, (system readers writers).Reachable s ∧ ¬ Excludes s := by
  have ne : (.inr w : Thread readers writers) ≠ .inr v := by simpa using distinct
  have enter := quiet_startWrite (s := (system readers writers).init) (i := .inr v) (k := 0)
    quiet_init rfl (by decide) (Or.inl rfl)
  obtain ⟨a, cleared, shared_a, v_a, others_a⟩ := quiet_publish (solo_move enter .load)
  obtain ⟨b, entered, shared_b, w_b, others_b⟩ :=
    quiet_startWrite shared_a (others_a _ ne) (by decide) (Or.inl rfl)
  have v_b := (others_b _ ne.symm).trans v_a
  obtain ⟨c, signalled, shared_c, v_c, others_c⟩ := quiet_signal (shared_b ▸ solo_start v_b)
  obtain ⟨d, again, -, v_d, others_d⟩ := quiet_startWrite shared_c v_c (by decide) (Or.inr rfl)
  have w_d := ((others_d _ ne).trans (others_c _ ne)).trans w_b
  refine ⟨d, ((cleared.run.trans entered.run).trans signalled.run).trans again.run,
    not_excludes (i := .inr v) (j := .inr w) ne ?_ (Or.inr ?_)⟩
  · rw [v_d]
    rfl
  · rw [w_d]
    rfl

theorem isWriter_of_writing {l : Local} (writing : l.writing = true) : l.isWriter = true := by
  cases l with
  | reader pc => cases writing
  | writer pc k => rfl

theorem not_isWriter_of_reading {l : Local} (reading : l.reading = true) : l.isWriter = false := by
  cases l with
  | reader pc => rfl
  | writer pc k => cases reading

theorem excludes_iff : (∀ s, (system readers writers).Reachable s → Excludes s) ↔
    writers = 0 ∨ (readers = 0 ∧ writers = 1) := by
  constructor
  · intro excludes
    by_contra other
    simp only [not_or, not_and] at other
    obtain ⟨some_writer, others⟩ := other
    by_cases none : readers = 0
    · have two := others none
      obtain ⟨s, reach, overlap⟩ := @writers_overlap readers writers
        (⟨0, by omega⟩ : Fin writers) ⟨1, by omega⟩ (by simp)
      exact overlap (excludes s reach)
    · obtain ⟨s, reach, overlap⟩ := reader_overlaps
        (⟨0, by omega⟩ : Fin readers) (⟨0, by omega⟩ : Fin writers)
      exact overlap (excludes s reach)
  · rintro (rfl | ⟨rfl, rfl⟩) s h
    · have none (i : Thread readers 0) : ¬ (s.locals i).writing = true := by
        intro writing
        have role := (isWriter_eq h i).symm.trans (isWriter_of_writing writing)
        cases i with
        | inl r => cases role
        | inr w => exact w.elim0
      exact ⟨fun i writing => absurd writing (none i), fun ⟨i, writing⟩ => absurd writing (none i)⟩
    · have same (i j : Thread 0 1) : i = j := by
        cases i with
        | inl r => exact r.elim0
        | inr v =>
            cases j with
            | inl r => exact r.elim0
            | inr w => rw [Subsingleton.elim v w]
      refine ⟨fun i _ j _ => same i j, fun _ => Set.eq_empty_of_forall_notMem fun i reading => ?_⟩
      have role := (isWriter_eq h i).symm.trans (not_isWriter_of_reading reading)
      cases i with
      | inl r => exact r.elim0
      | inr w => cases role

/-- Exclusion holds in every run in which nobody passes an event too early. A run in which somebody
does so goes on to an overlap, and such runs exist unless no thread has to wait for a writer. -/
theorem exclusion (readers writers : Nat) :
    (∀ s, (system readers writers).ReachableIf Granted s → Excludes s) ∧
    (∀ s i, (system readers writers).Reachable s → (system readers writers).Enabled s i →
      ¬ Granted s i → ∃ t, (system readers writers).SoloRun i s t ∧ ¬ Excludes t) ∧
    ((∀ s, (system readers writers).Reachable s → Excludes s) ↔
      writers = 0 ∨ (readers = 0 ∧ writers = 1)) :=
  ⟨fun _ h => excludes_of_granted h, fun _ _ h enabled => overlap_of_not_granted h enabled,
    excludes_iff⟩

theorem exclusion_fails : ∃ s : State 1 1, (system 1 1).Reachable s ∧
    s.locals (.inl 0) = .reader .print ∧ s.locals (.inr 0) = .writer .load 0 ∧ ¬ Excludes s := by
  obtain ⟨s, reach, holds⟩ := System.exists_reachable_of_exec (M := system 1 1)
    (List.replicate 9 (.inr (0 : Fin 1)) ++ List.replicate 10 (.inl (0 : Fin 1)))
    (fun s => s.locals (.inl 0) = .reader .print ∧ s.locals (.inr 0) = .writer .load 0) (by decide)
  obtain ⟨at_reader, at_writer⟩ := of_decide_eq_true holds
  refine ⟨s, reach, at_reader, at_writer, not_excludes (i := .inr 0) (j := .inl 0) (by simp) ?_
    (Or.inl ?_)⟩
  · rw [at_writer]
    rfl
  · rw [at_reader]
    rfl

end OsUnix.EventRW
