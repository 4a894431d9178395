import OsUnix.Concurrency.Win32

/-!
# Readers and writers over events

The threads of `5-semestr/lab6/a.c`. Every call and every access to a global is a step of its own.
The counters are integers without the bounds of `LONG`; `Sleep` and the identifiers are left out.
-/

namespace OsUnix.EventRW
open Concurrency

variable {ι : Type} [DecidableEq ι]

def iters : Nat := 10

structure Shared (ι : Type) where
  rwMutex : Mutex ι
  cRead : Event
  cWrite : Event
  nr : Int
  wrt : Bool
  waitingReaders : Int
  waitingWriters : Int
  buffer : BitVec 16

inductive ReaderPc
  | guard
  -- start_read
  | lock | incWaiting | testWrt | testWaiting | wait | reset | decWaiting | incNr | set | release
  | print
  -- stop_read
  | decNr | testNr | setWrite
  | returned
deriving DecidableEq, Repr

inductive WriterPc
  | guard
  -- start_write
  | lock | incWaiting | testNr | testWrt | wait | reset | decWaiting | setWrt | release
  | load | store (tmp : BitVec 16) | print
  -- stop_write
  | clearWrt | testWaiting | setRead | setWrite
  | returned
deriving DecidableEq, Repr

inductive Local
  | reader (pc : ReaderPc)
  | writer (pc : WriterPc) (i : Nat)
deriving DecidableEq, Repr

inductive Action
  | sync | print (value : BitVec 16)
deriving DecidableEq, Repr

/-- `bound` is what the guard compares `buffer` with. -/
def reader (me : ι) (bound : Nat) (g : Shared ι) :
    ReaderPc → Option (Shared ι × ReaderPc × Action)
  | .guard => some (g, if g.buffer.toNat < bound then .lock else .returned, .sync)
  | .lock => (g.rwMutex.wait me).map fun m => ({ g with rwMutex := m }, .incWaiting, .sync)
  | .incWaiting => some ({ g with waitingReaders := g.waitingReaders + 1 }, .testWrt, .sync)
  | .testWrt => some (g, if g.wrt then .wait else .testWaiting, .sync)
  | .testWaiting => some (g, if g.waitingWriters ≠ 0 then .wait else .reset, .sync)
  | .wait => g.cRead.wait.map fun e => ({ g with cRead := e }, .reset, .sync)
  | .reset => some ({ g with cRead := g.cRead.reset }, .decWaiting, .sync)
  | .decWaiting => some ({ g with waitingReaders := g.waitingReaders - 1 }, .incNr, .sync)
  | .incNr => some ({ g with nr := g.nr + 1 }, .set, .sync)
  | .set => some ({ g with cRead := g.cRead.set }, .release, .sync)
  | .release => some ({ g with rwMutex := g.rwMutex.release me }, .print, .sync)
  | .print => some (g, .decNr, .print g.buffer)
  | .decNr => some ({ g with nr := g.nr - 1 }, .testNr, .sync)
  | .testNr => some (g, if g.nr = 0 then .setWrite else .guard, .sync)
  | .setWrite => some ({ g with cWrite := g.cWrite.set }, .guard, .sync)
  | .returned => none

def writer (me : ι) (g : Shared ι) (i : Nat) :
    WriterPc → Option (Shared ι × WriterPc × Nat × Action)
  | .guard => some (g, if i < iters then .lock else .returned, i, .sync)
  | .lock => (g.rwMutex.wait me).map fun m => ({ g with rwMutex := m }, .incWaiting, i, .sync)
  | .incWaiting => some ({ g with waitingWriters := g.waitingWriters + 1 }, .testNr, i, .sync)
  | .testNr => some (g, if g.nr > 0 then .wait else .testWrt, i, .sync)
  | .testWrt => some (g, if g.wrt then .wait else .reset, i, .sync)
  | .wait => g.cWrite.wait.map fun e => ({ g with cWrite := e }, .reset, i, .sync)
  | .reset => some ({ g with cWrite := g.cWrite.reset }, .decWaiting, i, .sync)
  | .decWaiting => some ({ g with waitingWriters := g.waitingWriters - 1 }, .setWrt, i, .sync)
  | .setWrt => some ({ g with wrt := true }, .release, i, .sync)
  | .release => some ({ g with rwMutex := g.rwMutex.release me }, .load, i, .sync)
  | .load => some (g, .store g.buffer, i, .sync)
  | .store tmp => some ({ g with buffer := tmp + 1 }, .print, i, .sync)
  | .print => some (g, .clearWrt, i, .print g.buffer)
  | .clearWrt => some ({ g with wrt := false }, .testWaiting, i, .sync)
  | .testWaiting => some (g, if g.waitingReaders > 0 then .setRead else .setWrite, i, .sync)
  | .setRead => some ({ g with cRead := g.cRead.set }, .guard, i + 1, .sync)
  | .setWrite => some ({ g with cWrite := g.cWrite.set }, .guard, i + 1, .sync)
  | .returned => none

abbrev Thread (readers writers : Nat) := Fin readers ⊕ Fin writers

def system (readers writers : Nat) :
    System (Thread readers writers) (Shared (Thread readers writers)) Local Action where
  shared₀ :=
    { rwMutex := .free
      cRead := ⟨false, true⟩
      cWrite := ⟨true, true⟩
      nr := 0
      wrt := false
      waitingReaders := 0
      waitingWriters := 0
      buffer := 0 }
  locals₀ := Sum.elim (fun _ => .reader .guard) (fun _ => .writer .guard 0)
  step me g
    | .reader pc => (reader me (iters * writers) g pc).map fun r => (r.1, .reader r.2.1, r.2.2)
    | .writer pc i =>
        (writer me g i pc).map fun r => (r.1, .writer r.2.1 r.2.2.1, r.2.2.2)

abbrev State (readers writers : Nat) :=
  Config (Thread readers writers) (Shared (Thread readers writers)) Local Action

def Local.reading : Local → Bool
  | .reader .print | .reader .decNr => true
  | _ => false

def Local.writing : Local → Bool
  | .writer .load _ | .writer (.store _) _ | .writer .print _ | .writer .clearWrt _ => true
  | _ => false

def Local.returned : Local → Bool
  | .reader .returned | .writer .returned _ => true
  | _ => false

inductive Move (me : ι) (bound : Nat) (g : Shared ι) : Local → Shared ι → Local → Action → Prop
  | readerGuard (more : g.buffer.toNat < bound) :
      Move me bound g (.reader .guard) g (.reader .lock) .sync
  | readerReturn (last : ¬ g.buffer.toNat < bound) :
      Move me bound g (.reader .guard) g (.reader .returned) .sync
  | readerLock {m} (took : g.rwMutex.wait me = some m) :
      Move me bound g (.reader .lock) { g with rwMutex := m } (.reader .incWaiting) .sync
  | readerIncWaiting :
      Move me bound g (.reader .incWaiting) { g with waitingReaders := g.waitingReaders + 1 }
        (.reader .testWrt) .sync
  | readerMustWait (busy : g.wrt = true) :
      Move me bound g (.reader .testWrt) g (.reader .wait) .sync
  | readerTestWrt (idle : g.wrt = false) :
      Move me bound g (.reader .testWrt) g (.reader .testWaiting) .sync
  | readerGivesWay (waiting : g.waitingWriters ≠ 0) :
      Move me bound g (.reader .testWaiting) g (.reader .wait) .sync
  | readerTestWaiting (none_waiting : g.waitingWriters = 0) :
      Move me bound g (.reader .testWaiting) g (.reader .reset) .sync
  | readerWait {e} (passed : g.cRead.wait = some e) :
      Move me bound g (.reader .wait) { g with cRead := e } (.reader .reset) .sync
  | readerReset :
      Move me bound g (.reader .reset) { g with cRead := g.cRead.reset } (.reader .decWaiting) .sync
  | readerDecWaiting :
      Move me bound g (.reader .decWaiting) { g with waitingReaders := g.waitingReaders - 1 }
        (.reader .incNr) .sync
  | incNr : Move me bound g (.reader .incNr) { g with nr := g.nr + 1 } (.reader .set) .sync
  | readerSet :
      Move me bound g (.reader .set) { g with cRead := g.cRead.set } (.reader .release) .sync
  | readerRelease :
      Move me bound g (.reader .release) { g with rwMutex := g.rwMutex.release me }
        (.reader .print) .sync
  | readerPrint : Move me bound g (.reader .print) g (.reader .decNr) (.print g.buffer)
  | decNr : Move me bound g (.reader .decNr) { g with nr := g.nr - 1 } (.reader .testNr) .sync
  | readerLast (last : g.nr = 0) : Move me bound g (.reader .testNr) g (.reader .setWrite) .sync
  | readerNotLast (others : g.nr ≠ 0) : Move me bound g (.reader .testNr) g (.reader .guard) .sync
  | readerSetWrite :
      Move me bound g (.reader .setWrite) { g with cWrite := g.cWrite.set } (.reader .guard) .sync
  | writerGuard {i} (more : i < iters) :
      Move me bound g (.writer .guard i) g (.writer .lock i) .sync
  | writerReturn {i} (last : ¬ i < iters) :
      Move me bound g (.writer .guard i) g (.writer .returned i) .sync
  | writerLock {i m} (took : g.rwMutex.wait me = some m) :
      Move me bound g (.writer .lock i) { g with rwMutex := m } (.writer .incWaiting i) .sync
  | writerIncWaiting {i} :
      Move me bound g (.writer .incWaiting i) { g with waitingWriters := g.waitingWriters + 1 }
        (.writer .testNr i) .sync
  | writerAfterReaders {i} (busy : 0 < g.nr) :
      Move me bound g (.writer .testNr i) g (.writer .wait i) .sync
  | writerTestNr {i} (idle : ¬ 0 < g.nr) :
      Move me bound g (.writer .testNr i) g (.writer .testWrt i) .sync
  | writerAfterWriter {i} (busy : g.wrt = true) :
      Move me bound g (.writer .testWrt i) g (.writer .wait i) .sync
  | writerTestWrt {i} (idle : g.wrt = false) :
      Move me bound g (.writer .testWrt i) g (.writer .reset i) .sync
  | writerWait {i e} (passed : g.cWrite.wait = some e) :
      Move me bound g (.writer .wait i) { g with cWrite := e } (.writer .reset i) .sync
  | writerReset {i} :
      Move me bound g (.writer .reset i) { g with cWrite := g.cWrite.reset }
        (.writer .decWaiting i) .sync
  | writerDecWaiting {i} :
      Move me bound g (.writer .decWaiting i) { g with waitingWriters := g.waitingWriters - 1 }
        (.writer .setWrt i) .sync
  | setWrt {i} :
      Move me bound g (.writer .setWrt i) { g with wrt := true } (.writer .release i) .sync
  | writerRelease {i} :
      Move me bound g (.writer .release i) { g with rwMutex := g.rwMutex.release me }
        (.writer .load i) .sync
  | load {i} : Move me bound g (.writer .load i) g (.writer (.store g.buffer) i) .sync
  | store {i tmp} :
      Move me bound g (.writer (.store tmp) i) { g with buffer := tmp + 1 } (.writer .print i) .sync
  | writerPrint {i} :
      Move me bound g (.writer .print i) g (.writer .clearWrt i) (.print g.buffer)
  | clearWrt {i} :
      Move me bound g (.writer .clearWrt i) { g with wrt := false } (.writer .testWaiting i) .sync
  | chooseRead {i} (readers_wait : 0 < g.waitingReaders) :
      Move me bound g (.writer .testWaiting i) g (.writer .setRead i) .sync
  | chooseWrite {i} (none_waiting : ¬ 0 < g.waitingReaders) :
      Move me bound g (.writer .testWaiting i) g (.writer .setWrite i) .sync
  | setRead {i} :
      Move me bound g (.writer .setRead i) { g with cRead := g.cRead.set }
        (.writer .guard (i + 1)) .sync
  | setWrite {i} :
      Move me bound g (.writer .setWrite i) { g with cWrite := g.cWrite.set }
        (.writer .guard (i + 1)) .sync

variable {readers writers : Nat} {s t : State readers writers} {i : Thread readers writers}

theorem step_iff {g g' : Shared (Thread readers writers)} {l l' : Local} {a : Action} :
    (system readers writers).step i g l = some (g', l', a) ↔
      Move i (iters * writers) g l g' l' a := by
  constructor
  · intro h
    cases l with
    | reader pc =>
        cases pc
        case lock =>
          obtain ⟨m, took, eq⟩ := exists_of_wait h
          cases eq
          exact .readerLock took
        case wait =>
          obtain ⟨e, passed, eq⟩ := exists_of_wait h
          cases eq
          exact .readerWait passed
        all_goals cases h
        case guard.refl => split <;> constructor <;> assumption
        case testWrt.refl =>
          split
          · exact .readerMustWait ‹_›
          · exact .readerTestWrt (by simpa using ‹¬ g.wrt = true›)
        case testWaiting.refl =>
          split
          · exact .readerGivesWay ‹_›
          · exact .readerTestWaiting (not_not.mp ‹_›)
        case testNr.refl => split <;> constructor <;> assumption
        all_goals constructor
    | writer pc k =>
        cases pc
        case lock =>
          obtain ⟨m, took, eq⟩ := exists_of_wait h
          cases eq
          exact .writerLock took
        case wait =>
          obtain ⟨e, passed, eq⟩ := exists_of_wait h
          cases eq
          exact .writerWait passed
        all_goals cases h
        case guard.refl => split <;> constructor <;> assumption
        case testNr.refl => split <;> constructor <;> assumption
        case testWrt.refl =>
          split
          · exact .writerAfterWriter ‹_›
          · exact .writerTestWrt (by simpa using ‹¬ g.wrt = true›)
        case testWaiting.refl => split <;> constructor <;> assumption
        all_goals constructor
  · intro move
    cases move <;> first | rfl | simp [system, reader, writer, *]

theorem next_cases (h : (system readers writers).next s i = some t) :
    ∃ g l a, Move i (iters * writers) s.shared (s.locals i) g l a ∧ t = s.move i g l a := by
  obtain ⟨g, l, a, moves, rfl⟩ := System.next_eq_some.mp h
  exact ⟨g, l, a, step_iff.mp moves, rfl⟩

end OsUnix.EventRW
