import OsUnix.MutexRW.Model
import OsUnix.Concurrency.Counting

/-!
# The invariant of the readers and writers over a mutex

A thread holds the mutex through its whole section. While the mutex is free, each event tells
whether the counter of the other kind is zero.
-/

namespace OsUnix.MutexRW
open Concurrency

variable {readers writers : Nat} {s t : State readers writers} {i j : Thread readers writers}

def Local.owning : Local → Bool
  | .reader .resetWrite _ | .reader .incLoad _ | .reader (.incStore _) _ | .reader .release _
  | .reader .decWaiting _ | .reader .incActive _ => true
  | .writer .resetRead _ | .writer .incLoad _ | .writer (.incStore _) _ | .writer .release _
  | .writer .decWaiting _ => true
  | l => l.reading || l.writing

def Local.readerCounted : Local → Bool
  | .reader .release _ | .reader .relock _ | .reader .decWaiting _ | .reader .incActive _
  | .reader .load _ | .reader (.print _) _ | .reader .decActive _ | .reader .decLoad _
  | .reader (.decStore _) _ => true
  | _ => false

def Local.writerCounted : Local → Bool
  | .writer .release _ | .writer .waitWrite _ | .writer .relock _ | .writer .decWaiting _
  | .writer .load _ | .writer (.store _) _ | .writer (.print _) _ | .writer .stopIncWaiting _
  | .writer .decLoad _ | .writer (.decStore _) _ => true
  | _ => false

def Local.readerClosing : Local → Bool
  | .reader .incLoad _ | .reader (.incStore _) _ | .reader .setWrite _ => true
  | l => l.readerCounted

def Local.writerClosing : Local → Bool
  | .writer .incLoad _ | .writer (.incStore _) _ | .writer .setRead _ => true
  | l => l.writerCounted

theorem owning_of_inside {l : Local} (inside : l.reading = true ∨ l.writing = true) :
    l.owning = true := by
  cases l with
  | reader pc k => cases pc <;> simp_all [Local.reading, Local.writing, Local.owning]
  | writer pc k => cases pc <;> simp_all [Local.reading, Local.writing, Local.owning]

theorem readerClosing_cases (l : Local) (closing : l.readerClosing = true) :
    l.owning = true ∨ l.readerCounted = true := by
  cases l with
  | reader pc k =>
      cases pc <;> simp_all [Local.readerClosing, Local.readerCounted, Local.owning, Local.reading]
  | writer pc k => cases pc <;> cases closing

theorem writerClosing_cases (l : Local) (closing : l.writerClosing = true) :
    l.owning = true ∨ l.writerCounted = true := by
  cases l with
  | reader pc k => cases pc <;> cases closing
  | writer pc k =>
      cases pc <;> simp_all [Local.writerClosing, Local.writerCounted, Local.owning, Local.writing]

theorem guards (h : (system readers writers).Reachable s) :
    s.shared.singleMut.Guards Local.owning s.locals := by
  apply h.invariant (I := fun s => s.shared.singleMut.Guards Local.owning s.locals)
  · refine .start fun i => ?_
    cases i <;> rfl
  · intro s i t inv next
    obtain ⟨g, l, a, move, rfl⟩ := next_cases next
    simp only [Config.move_shared, Config.move_locals]
    generalize before : s.locals i = l₀ at move
    cases move with
    | readerLock took => exact inv.take (by rw [before]; rfl) took rfl
    | readerRelock took => exact inv.take (by rw [before]; rfl) took rfl
    | writerLock took => exact inv.take (by rw [before]; rfl) took rfl
    | writerRelock took => exact inv.take (by rw [before]; rfl) took rfl
    | readerRelease => exact inv.leave (by rw [before]; rfl) rfl
    | readerStop => exact inv.leave (by rw [before]; rfl) rfl
    | writerRelease => exact inv.leave (by rw [before]; rfl) rfl
    | writerStop => exact inv.leave (by rw [before]; rfl) rfl
    | _ => exact inv.stay (by rw [before]; rfl)

def Local.Current (g : Shared (Thread readers writers)) : Local → Prop
  | .reader (.incStore tmp) _ | .reader (.decStore tmp) _ => tmp = g.readCount
  | .reader .setWrite _ => g.readCount = 0
  | .writer (.incStore tmp) _ | .writer (.decStore tmp) _ => tmp = g.writCount
  | .writer .setRead _ => g.writCount = 0
  | .writer (.store tmp) _ => tmp = g.value
  | .reader (.print num) _ | .writer (.print num) _ => num = g.value
  | _ => True

theorem current_of_outside {l : Local} {g : Shared (Thread readers writers)}
    (outside : l.owning = false) : l.Current g := by
  cases l with
  | reader pc k => cases pc <;> trivial
  | writer pc k => cases pc <;> trivial

theorem current (h : (system readers writers).Reachable s) :
    ∀ i, (s.locals i).Current s.shared := by
  apply h.preserved (I := fun s => ∀ i, (s.locals i).Current s.shared)
  · intro i
    cases i <;> trivial
  · intro s m t reach inv next i
    obtain ⟨g, l, a, move, rfl⟩ := next_cases next
    simp only [Config.move_shared, Config.move_locals]
    by_cases self : i = m
    · subst self
      have mine := inv i
      rw [Function.update_self]
      generalize s.locals i = l₀ at move mine
      cases move <;> trivial
    · rw [Function.update_of_ne self]
      by_cases owning : (s.locals m).owning = true
      · -- the others are outside
        apply current_of_outside
        rw [← Bool.not_eq_true]
        exact fun also_owning => self ((guards reach).unique also_owning owning)
      · have theirs := inv i
        simp only [Bool.not_eq_true] at owning
        generalize s.locals m = l₀ at move owning
        cases move <;> first | exact theirs | cases owning

theorem count_start {p : Local → Bool} (reader : p (.reader .guard 0) = false)
    (writer : p (.writer .guard 0) = false) :
    count p (system readers writers).locals₀ = 0 := by
  refine count_eq_zero_iff.mpr fun i => ?_
  cases i with
  | inl r => exact reader
  | inr w => exact writer

theorem readCount_eq (h : (system readers writers).Reachable s) :
    s.shared.readCount = count Local.readerCounted s.locals := by
  refine h.counted (c := fun s => s.shared.readCount) ?_ ?_
  · rw [count_start rfl rfl]
    rfl
  · intro s i g l a reach step
    have move := step_iff.mp step
    have current := current reach i
    generalize s.locals i = l₀ at move current
    cases move <;> simp_all [Local.readerCounted, Local.Current]

theorem writCount_eq (h : (system readers writers).Reachable s) :
    s.shared.writCount = count Local.writerCounted s.locals := by
  refine h.counted (c := fun s => s.shared.writCount) ?_ ?_
  · rw [count_start rfl rfl]
    rfl
  · intro s i g l a reach step
    have move := step_iff.mp step
    have current := current reach i
    generalize s.locals i = l₀ at move current
    cases move <;> simp_all [Local.writerCounted, Local.Current]

structure Manual (s : State readers writers) : Prop where
  read : s.shared.eventRead.manualReset = true
  write : s.shared.eventWrite.manualReset = true

theorem manual (h : (system readers writers).Reachable s) : Manual s := by
  refine h.invariant (I := Manual) ⟨rfl, rfl⟩ ?_
  intro s i t ⟨read, write⟩ next
  obtain ⟨g, l, a, move, rfl⟩ := next_cases next
  generalize s.locals i = l₀ at move
  cases move with
  | readerWait passed => exact ⟨by rw [Event.wait_manual read passed] at *; exact read, write⟩
  | writerWait passed => exact ⟨read, by rw [Event.wait_manual write passed] at *; exact write⟩
  | _ => exact ⟨read, write⟩

theorem writerClosing_of_counted (l : Local) (counted : l.writerCounted = true) :
    l.writerClosing = true := by
  cases l with
  | reader pc k => cases counted
  | writer pc k => cases pc <;> first | rfl | cases counted

theorem readerClosing_of_counted (l : Local) (counted : l.readerCounted = true) :
    l.readerClosing = true := by
  cases l with
  | reader pc k => cases pc <;> first | rfl | cases counted
  | writer pc k => cases counted

theorem none_closing {m : Mutex (Thread readers writers)} {f : Thread readers writers → Local}
    {closing counted : Local → Bool} (guards : m.Guards Local.owning f)
    (owner : (f i).owning = true) (left : closing (f i) = false)
    (none_counted : ∀ j, counted (f j) = false)
    (either : ∀ l, closing l = true → l.owning = true ∨ counted l = true) :
    ∀ j, closing (f j) = false := by
  intro j
  rw [← Bool.not_eq_true]
  intro still
  cases either _ still with
  | inl owning =>
      rw [guards.unique owning owner, left] at still
      cases still
  | inr also_counted =>
      rw [none_counted j] at also_counted
      cases also_counted

theorem eventRead_tracks (h : (system readers writers).Reachable s) :
    s.shared.eventRead.Tracks Local.writerClosing s.locals := by
  apply h.preserved (I := fun s => s.shared.eventRead.Tracks Local.writerClosing s.locals)
  · refine ⟨fun _ i => ?_, fun _ => rfl⟩
    cases i <;> rfl
  · intro s m t reach inv next
    have manual := (manual reach).read
    have current := current reach m
    have reach' := reach.trans (.tail .refl next)
    have guards := guards reach'
    have counted := writCount_eq reach'
    obtain ⟨g, l, a, move, rfl⟩ := next_cases next
    simp only [Config.move_shared, Config.move_locals] at guards counted ⊢
    generalize before : s.locals m = l₀ at move current
    cases move with
    | resetRead => exact .close rfl
    | readerWait passed =>
        rw [Event.wait_manual manual passed]
        exact inv.stay (by rw [before]; rfl)
    | writerNotLast others =>
        -- somebody else is still counted
        obtain ⟨j, still⟩ := exists_of_counted counted others
        exact inv.leave (by rw [before]; rfl) ⟨j, writerClosing_of_counted _ still⟩
    | setRead =>
        have none_counted := none_of_counted counted current
        exact .open (none_closing guards (i := m) (by rw [Function.update_self]; rfl)
          (by rw [Function.update_self]; rfl) none_counted writerClosing_cases)
    | _ => exact inv.stay (by rw [before]; rfl)

theorem eventWrite_tracks (h : (system readers writers).Reachable s) :
    s.shared.eventWrite.Tracks Local.readerClosing s.locals := by
  apply h.preserved (I := fun s => s.shared.eventWrite.Tracks Local.readerClosing s.locals)
  · refine ⟨fun _ i => ?_, fun _ => rfl⟩
    cases i <;> rfl
  · intro s m t reach inv next
    have manual := (manual reach).write
    have current := current reach m
    have reach' := reach.trans (.tail .refl next)
    have guards := guards reach'
    have counted := readCount_eq reach'
    obtain ⟨g, l, a, move, rfl⟩ := next_cases next
    simp only [Config.move_shared, Config.move_locals] at guards counted ⊢
    generalize before : s.locals m = l₀ at move current
    cases move with
    | resetWrite => exact .close rfl
    | writerWait passed =>
        rw [Event.wait_manual manual passed]
        exact inv.stay (by rw [before]; rfl)
    | readerNotLast others =>
        obtain ⟨j, still⟩ := exists_of_counted counted others
        exact inv.leave (by rw [before]; rfl) ⟨j, readerClosing_of_counted _ still⟩
    | setWrite =>
        have none_counted := none_of_counted counted current
        exact .open (none_closing guards (i := m) (by rw [Function.update_self]; rfl)
          (by rw [Function.update_self]; rfl) none_counted readerClosing_cases)
    | _ => exact inv.stay (by rw [before]; rfl)

end OsUnix.MutexRW
