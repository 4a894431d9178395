import OsUnix.Concurrency.Win32

/-!
# Readers and writers over a mutex and two events

The threads of `5-semestr/lab6/main.cpp`. `read_count`, `writ_count` and `value` are loaded and
stored in separate steps; they are integers, so that a counter below zero shows. `Sleep` and the
numbers of the threads are left out.
-/

namespace OsUnix.MutexRW
open Concurrency

variable {ι : Type} [DecidableEq ι]

def iter : Nat := 10

structure Shared (ι : Type) where
  singleMut : Mutex ι
  eventRead : Event
  eventWrite : Event
  readCount : Int
  writCount : Int
  value : Int
  activeReaders : Int
  waitingReaders : Int
  waitingWriters : Int

inductive ReaderPc
  | guard
  -- StartRead
  | incWaiting | call | waitRead | lock | resetWrite | incLoad | incStore (tmp : Int) | release
  | relock | decWaiting | incActive
  | load | print (num : Int)
  -- StopRead
  | decActive | decLoad | decStore (tmp : Int) | setWrite | stopRelease
  | returned
deriving DecidableEq, Repr

inductive WriterPc
  | guard
  -- StartWrite
  | incWaiting | lock | resetRead | incLoad | incStore (tmp : Int) | release | waitWrite | relock
  | decWaiting
  | load | store (tmp : Int) | print (num : Int)
  -- StopWrite
  | stopIncWaiting | decLoad | decStore (tmp : Int) | setRead | stopRelease
  | returned
deriving DecidableEq, Repr

inductive Local
  | reader (pc : ReaderPc) (i : Nat)
  | writer (pc : WriterPc) (i : Nat)
deriving DecidableEq, Repr

inductive Action
  | sync
  | callWaitRead | readValue (value : Int)
  | resetRead | writeValue (value : Int) | releaseWrite
  | print (value : Int)
deriving DecidableEq, Repr

def reader (me : ι) (g : Shared ι) (i : Nat) :
    ReaderPc → Option (Shared ι × ReaderPc × Nat × Action)
  | .guard => some (g, if i < iter then .incWaiting else .returned, i, .sync)
  | .incWaiting => some ({ g with waitingReaders := g.waitingReaders + 1 }, .call, i, .sync)
  | .call => some (g, .waitRead, i, .callWaitRead)
  | .waitRead => g.eventRead.wait.map fun e => ({ g with eventRead := e }, .lock, i, .sync)
  | .lock => (g.singleMut.wait me).map fun m => ({ g with singleMut := m }, .resetWrite, i, .sync)
  | .resetWrite => some ({ g with eventWrite := g.eventWrite.reset }, .incLoad, i, .sync)
  | .incLoad => some (g, .incStore g.readCount, i, .sync)
  | .incStore tmp => some ({ g with readCount := tmp + 1 }, .release, i, .sync)
  | .release => some ({ g with singleMut := g.singleMut.release me }, .relock, i, .sync)
  | .relock => (g.singleMut.wait me).map fun m => ({ g with singleMut := m }, .decWaiting, i, .sync)
  | .decWaiting => some ({ g with waitingReaders := g.waitingReaders - 1 }, .incActive, i, .sync)
  | .incActive => some ({ g with activeReaders := g.activeReaders + 1 }, .load, i, .sync)
  | .load => some (g, .print g.value, i, .readValue g.value)
  | .print num => some (g, .decActive, i, .print num)
  | .decActive => some ({ g with activeReaders := g.activeReaders - 1 }, .decLoad, i, .sync)
  | .decLoad => some (g, .decStore g.readCount, i, .sync)
  | .decStore tmp => some ({ g with readCount := tmp - 1 },
      if tmp - 1 = 0 then .setWrite else .stopRelease, i, .sync)
  | .setWrite => some ({ g with eventWrite := g.eventWrite.set }, .stopRelease, i, .sync)
  | .stopRelease => some ({ g with singleMut := g.singleMut.release me }, .guard, i + 1, .sync)
  | .returned => none

def writer (me : ι) (g : Shared ι) (i : Nat) :
    WriterPc → Option (Shared ι × WriterPc × Nat × Action)
  | .guard => some (g, if i < iter then .incWaiting else .returned, i, .sync)
  | .incWaiting => some ({ g with waitingWriters := g.waitingWriters + 1 }, .lock, i, .sync)
  | .lock => (g.singleMut.wait me).map fun m => ({ g with singleMut := m }, .resetRead, i, .sync)
  | .resetRead => some ({ g with eventRead := g.eventRead.reset }, .incLoad, i, .resetRead)
  | .incLoad => some (g, .incStore g.writCount, i, .sync)
  | .incStore tmp => some ({ g with writCount := tmp + 1 }, .release, i, .sync)
  | .release => some ({ g with singleMut := g.singleMut.release me }, .waitWrite, i, .sync)
  | .waitWrite => g.eventWrite.wait.map fun e => ({ g with eventWrite := e }, .relock, i, .sync)
  | .relock => (g.singleMut.wait me).map fun m => ({ g with singleMut := m }, .decWaiting, i, .sync)
  | .decWaiting => some ({ g with waitingWriters := g.waitingWriters - 1 }, .load, i, .sync)
  | .load => some (g, .store g.value, i, .sync)
  | .store tmp => some ({ g with value := tmp + 1 }, .print (tmp + 1), i, .writeValue (tmp + 1))
  | .print num => some (g, .stopIncWaiting, i, .print num)
  | .stopIncWaiting => some ({ g with waitingWriters := g.waitingWriters + 1 }, .decLoad, i, .sync)
  | .decLoad => some (g, .decStore g.writCount, i, .sync)
  | .decStore tmp => some ({ g with writCount := tmp - 1 },
      if tmp - 1 = 0 then .setRead else .stopRelease, i, .sync)
  | .setRead => some ({ g with eventRead := g.eventRead.set }, .stopRelease, i, .sync)
  | .stopRelease =>
      some ({ g with singleMut := g.singleMut.release me }, .guard, i + 1, .releaseWrite)
  | .returned => none

abbrev Thread (readers writers : Nat) := Fin readers ⊕ Fin writers

def system (readers writers : Nat) :
    System (Thread readers writers) (Shared (Thread readers writers)) Local Action where
  shared₀ :=
    { singleMut := .free
      eventRead := ⟨true, true⟩
      eventWrite := ⟨true, true⟩
      readCount := 0
      writCount := 0
      value := 0
      activeReaders := 0
      waitingReaders := 0
      waitingWriters := 0 }
  locals₀ := Sum.elim (fun _ => .reader .guard 0) (fun _ => .writer .guard 0)
  step me g
    | .reader pc i =>
        (reader me g i pc).map fun r => (r.1, .reader r.2.1 r.2.2.1, r.2.2.2)
    | .writer pc i =>
        (writer me g i pc).map fun r => (r.1, .writer r.2.1 r.2.2.1, r.2.2.2)

abbrev State (readers writers : Nat) :=
  Config (Thread readers writers) (Shared (Thread readers writers)) Local Action

def Local.reading : Local → Bool
  | .reader .load _ | .reader (.print _) _ | .reader .decActive _ | .reader .decLoad _
  | .reader (.decStore _) _ | .reader .setWrite _ | .reader .stopRelease _ => true
  | _ => false

def Local.writing : Local → Bool
  | .writer .load _ | .writer (.store _) _ | .writer (.print _) _ | .writer .stopIncWaiting _
  | .writer .decLoad _ | .writer (.decStore _) _ | .writer .setRead _
  | .writer .stopRelease _ => true
  | _ => false

def Local.returned : Local → Bool
  | .reader .returned _ | .writer .returned _ => true
  | _ => false

inductive Move (me : ι) (g : Shared ι) : Local → Shared ι → Local → Action → Prop
  | readerGuard {i} (more : i < iter) :
      Move me g (.reader .guard i) g (.reader .incWaiting i) .sync
  | readerReturn {i} (last : ¬ i < iter) :
      Move me g (.reader .guard i) g (.reader .returned i) .sync
  | readerIncWaiting {i} :
      Move me g (.reader .incWaiting i) { g with waitingReaders := g.waitingReaders + 1 }
        (.reader .call i) .sync
  | readerCall {i} : Move me g (.reader .call i) g (.reader .waitRead i) .callWaitRead
  | readerWait {i e} (passed : g.eventRead.wait = some e) :
      Move me g (.reader .waitRead i) { g with eventRead := e } (.reader .lock i) .sync
  | readerLock {i m} (took : g.singleMut.wait me = some m) :
      Move me g (.reader .lock i) { g with singleMut := m } (.reader .resetWrite i) .sync
  | resetWrite {i} :
      Move me g (.reader .resetWrite i) { g with eventWrite := g.eventWrite.reset }
        (.reader .incLoad i) .sync
  | readerIncLoad {i} :
      Move me g (.reader .incLoad i) g (.reader (.incStore g.readCount) i) .sync
  | readerIncStore {i tmp} :
      Move me g (.reader (.incStore tmp) i) { g with readCount := tmp + 1 } (.reader .release i)
        .sync
  | readerRelease {i} :
      Move me g (.reader .release i) { g with singleMut := g.singleMut.release me }
        (.reader .relock i) .sync
  | readerRelock {i m} (took : g.singleMut.wait me = some m) :
      Move me g (.reader .relock i) { g with singleMut := m } (.reader .decWaiting i) .sync
  | readerDecWaiting {i} :
      Move me g (.reader .decWaiting i) { g with waitingReaders := g.waitingReaders - 1 }
        (.reader .incActive i) .sync
  | incActive {i} :
      Move me g (.reader .incActive i) { g with activeReaders := g.activeReaders + 1 }
        (.reader .load i) .sync
  | readerLoad {i} :
      Move me g (.reader .load i) g (.reader (.print g.value) i) (.readValue g.value)
  | readerPrint {i num} : Move me g (.reader (.print num) i) g (.reader .decActive i) (.print num)
  | decActive {i} :
      Move me g (.reader .decActive i) { g with activeReaders := g.activeReaders - 1 }
        (.reader .decLoad i) .sync
  | readerDecLoad {i} :
      Move me g (.reader .decLoad i) g (.reader (.decStore g.readCount) i) .sync
  | readerLast {i tmp} (last : tmp - 1 = 0) :
      Move me g (.reader (.decStore tmp) i) { g with readCount := tmp - 1 } (.reader .setWrite i)
        .sync
  | readerNotLast {i tmp} (others : ¬ tmp - 1 = 0) :
      Move me g (.reader (.decStore tmp) i) { g with readCount := tmp - 1 }
        (.reader .stopRelease i) .sync
  | setWrite {i} :
      Move me g (.reader .setWrite i) { g with eventWrite := g.eventWrite.set }
        (.reader .stopRelease i) .sync
  | readerStop {i} :
      Move me g (.reader .stopRelease i) { g with singleMut := g.singleMut.release me }
        (.reader .guard (i + 1)) .sync
  | writerGuard {i} (more : i < iter) :
      Move me g (.writer .guard i) g (.writer .incWaiting i) .sync
  | writerReturn {i} (last : ¬ i < iter) :
      Move me g (.writer .guard i) g (.writer .returned i) .sync
  | writerIncWaiting {i} :
      Move me g (.writer .incWaiting i) { g with waitingWriters := g.waitingWriters + 1 }
        (.writer .lock i) .sync
  | writerLock {i m} (took : g.singleMut.wait me = some m) :
      Move me g (.writer .lock i) { g with singleMut := m } (.writer .resetRead i) .sync
  | resetRead {i} :
      Move me g (.writer .resetRead i) { g with eventRead := g.eventRead.reset }
        (.writer .incLoad i) .resetRead
  | writerIncLoad {i} :
      Move me g (.writer .incLoad i) g (.writer (.incStore g.writCount) i) .sync
  | writerIncStore {i tmp} :
      Move me g (.writer (.incStore tmp) i) { g with writCount := tmp + 1 } (.writer .release i)
        .sync
  | writerRelease {i} :
      Move me g (.writer .release i) { g with singleMut := g.singleMut.release me }
        (.writer .waitWrite i) .sync
  | writerWait {i e} (passed : g.eventWrite.wait = some e) :
      Move me g (.writer .waitWrite i) { g with eventWrite := e } (.writer .relock i) .sync
  | writerRelock {i m} (took : g.singleMut.wait me = some m) :
      Move me g (.writer .relock i) { g with singleMut := m } (.writer .decWaiting i) .sync
  | writerDecWaiting {i} :
      Move me g (.writer .decWaiting i) { g with waitingWriters := g.waitingWriters - 1 }
        (.writer .load i) .sync
  | writerLoad {i} : Move me g (.writer .load i) g (.writer (.store g.value) i) .sync
  | store {i tmp} :
      Move me g (.writer (.store tmp) i) { g with value := tmp + 1 }
        (.writer (.print (tmp + 1)) i) (.writeValue (tmp + 1))
  | writerPrint {i num} :
      Move me g (.writer (.print num) i) g (.writer .stopIncWaiting i) (.print num)
  | stopIncWaiting {i} :
      Move me g (.writer .stopIncWaiting i) { g with waitingWriters := g.waitingWriters + 1 }
        (.writer .decLoad i) .sync
  | writerDecLoad {i} :
      Move me g (.writer .decLoad i) g (.writer (.decStore g.writCount) i) .sync
  | writerLast {i tmp} (last : tmp - 1 = 0) :
      Move me g (.writer (.decStore tmp) i) { g with writCount := tmp - 1 } (.writer .setRead i)
        .sync
  | writerNotLast {i tmp} (others : ¬ tmp - 1 = 0) :
      Move me g (.writer (.decStore tmp) i) { g with writCount := tmp - 1 }
        (.writer .stopRelease i) .sync
  | setRead {i} :
      Move me g (.writer .setRead i) { g with eventRead := g.eventRead.set }
        (.writer .stopRelease i) .sync
  | writerStop {i} :
      Move me g (.writer .stopRelease i) { g with singleMut := g.singleMut.release me }
        (.writer .guard (i + 1)) .releaseWrite

variable {readers writers : Nat} {s t : State readers writers} {i : Thread readers writers}

theorem step_iff {g g' : Shared (Thread readers writers)} {l l' : Local} {a : Action} :
    (system readers writers).step i g l = some (g', l', a) ↔ Move i g l g' l' a := by
  constructor
  · intro h
    cases l with
    | reader pc k =>
        cases pc
        case waitRead =>
          obtain ⟨e, passed, eq⟩ := exists_of_wait h
          cases eq
          exact .readerWait passed
        case lock =>
          obtain ⟨m, took, eq⟩ := exists_of_wait h
          cases eq
          exact .readerLock took
        case relock =>
          obtain ⟨m, took, eq⟩ := exists_of_wait h
          cases eq
          exact .readerRelock took
        all_goals cases h
        case guard.refl => split <;> constructor <;> assumption
        case decStore.refl => split <;> constructor <;> assumption
        all_goals constructor
    | writer pc k =>
        cases pc
        case waitWrite =>
          obtain ⟨e, passed, eq⟩ := exists_of_wait h
          cases eq
          exact .writerWait passed
        case lock =>
          obtain ⟨m, took, eq⟩ := exists_of_wait h
          cases eq
          exact .writerLock took
        case relock =>
          obtain ⟨m, took, eq⟩ := exists_of_wait h
          cases eq
          exact .writerRelock took
        all_goals cases h
        case guard.refl => split <;> constructor <;> assumption
        case decStore.refl => split <;> constructor <;> assumption
        all_goals constructor
  · intro move
    cases move <;> first | rfl | simp [system, reader, writer, *]

theorem next_cases (h : (system readers writers).next s i = some t) :
    ∃ g l a, Move i s.shared (s.locals i) g l a ∧ t = s.move i g l a := by
  obtain ⟨g, l, a, moves, rfl⟩ := System.next_eq_some.mp h
  exact ⟨g, l, a, step_iff.mp moves, rfl⟩

end OsUnix.MutexRW
