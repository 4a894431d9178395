import OsUnix.Concurrency.System
import OsUnix.Concurrency.SystemV

/-!
# Producers and consumers over a shared segment

The processes of `5-semestr/lab5/task1.c`. The segment is a memory of `int` cells, counted from
`shm_attached_address`, without an end; `shmSize` is the size `main` asks for. The argument `value`
of `producer` and `consumer` is never read there and is left out.
-/

namespace OsUnix.BoundedBuffer
open Concurrency

def sizeofInt : Nat := 4

def shmSize (n : Nat) : Nat := (n + 2) * sizeofInt

-- `int` pointers: an offset of `sizeof(int)` is four cells
def shmPosProducer : Int := 0
def shmPosConsumer : Int := 0 + sizeofInt
def shmBuffer : Int := 0 + 2 * sizeofInt

def toChar (x : Int) : Int := x.bmod 256

inductive Sem
  | binary | empty | full
deriving DecidableEq, Repr

abbrev P : Int := -1
abbrev V : Int := 1

def producerStart : List (Sembuf Sem) := [⟨.empty, P⟩, ⟨.binary, P⟩]
def producerStop : List (Sembuf Sem) := [⟨.binary, V⟩, ⟨.full, V⟩]
def consumerStart : List (Sembuf Sem) := [⟨.full, P⟩, ⟨.binary, P⟩]
def consumerStop : List (Sembuf Sem) := [⟨.binary, V⟩, ⟨.empty, V⟩]

structure Shared where
  sems : Sem → Nat
  mem : Int → Int

def Shared.write (g : Shared) (cell value : Int) : Shared :=
  { g with mem := Function.update g.mem cell value }

@[simp] theorem Shared.write_sems (g : Shared) (cell value : Int) :
    (g.write cell value).sems = g.sems := rfl

@[simp] theorem Shared.write_self (g : Shared) (cell value : Int) :
    (g.write cell value).mem cell = value :=
  Function.update_self _ _ _

@[simp] theorem Shared.write_of_ne {g : Shared} {cell other value : Int} (ne : other ≠ cell) :
    (g.write cell value).mem other = g.mem other :=
  Function.update_of_ne ne _ _

@[simp] theorem posProducer_ne_posConsumer : shmPosProducer ≠ shmPosConsumer := by decide

@[simp] theorem posConsumer_ne_posProducer : shmPosConsumer ≠ shmPosProducer := by decide

@[simp] theorem posProducer_before_buffer : ¬ shmBuffer ≤ shmPosProducer := by decide

@[simp] theorem posConsumer_before_buffer : ¬ shmBuffer ≤ shmPosConsumer := by decide

theorem posProducer_ne_item {pos : Int} (nonneg : 0 ≤ pos) : shmPosProducer ≠ shmBuffer + pos := by
  have : shmPosProducer < shmBuffer := by decide
  omega

theorem posConsumer_ne_item {pos : Int} (nonneg : 0 ≤ pos) : shmPosConsumer ≠ shmBuffer + pos := by
  have : shmPosConsumer < shmBuffer := by decide
  omega

inductive Action
  | enter | exit | start | stop
  | load (cell value : Int) | store (cell value : Int)
deriving DecidableEq, Repr

inductive ProducerPc
  | top | start | index | item (pos : Int)
  | printPos | printIndex | printItem (pos : Int)
  | incLoad | incStore (tmp : Int) | stop | exited
deriving DecidableEq, Repr

inductive ConsumerPc
  | top | start
  | printPos | printIndex | printItem (pos : Int)
  | incLoad | incStore (tmp : Int) | stop | exited
deriving DecidableEq, Repr

/-- `i` and `count` are the loop of `make_producer` and `make_consumer`; `output` is the producer's
own copy of the global, which `fork` copied. -/
inductive Local
  | producer (pc : ProducerPc) (i count : Nat) (output : Int)
  | consumer (pc : ConsumerPc) (i count : Nat)
deriving DecidableEq, Repr

def producer (g : Shared) (i count : Nat) (output : Int) :
    ProducerPc → Option (Shared × Local × Action)
  | .top =>
      if i < count then some (g, .producer .start i count output, .enter)
      else some (g, .producer .exited i count output, .exit)
  | .start => (semop g.sems producerStart).map fun sems =>
      ({ g with sems := sems }, .producer .index i count output, .start)
  | .index => some (g, .producer (.item (g.mem shmPosProducer)) i count output,
      .load shmPosProducer (g.mem shmPosProducer))
  | .item pos => some (g.write (shmBuffer + pos) (toChar output),
      .producer .printPos i count output, .store (shmBuffer + pos) (toChar output))
  | .printPos => some (g, .producer .printIndex i count output,
      .load shmPosProducer (g.mem shmPosProducer))
  | .printIndex => some (g, .producer (.printItem (g.mem shmPosProducer)) i count output,
      .load shmPosProducer (g.mem shmPosProducer))
  | .printItem pos => some (g, .producer .incLoad i count output,
      .load (shmBuffer + pos) (g.mem (shmBuffer + pos)))
  | .incLoad => some (g, .producer (.incStore (g.mem shmPosProducer)) i count (output + 1),
      .load shmPosProducer (g.mem shmPosProducer))
  | .incStore tmp => some (g.write shmPosProducer (tmp + 1), .producer .stop i count output,
      .store shmPosProducer (tmp + 1))
  | .stop => (semop g.sems producerStop).map fun sems =>
      ({ g with sems := sems }, .producer .top (i + 1) count output, .stop)
  | .exited => none

def consumer (g : Shared) (i count : Nat) : ConsumerPc → Option (Shared × Local × Action)
  | .top =>
      if i < count then some (g, .consumer .start i count, .enter)
      else some (g, .consumer .exited i count, .exit)
  | .start => (semop g.sems consumerStart).map fun sems =>
      ({ g with sems := sems }, .consumer .printPos i count, .start)
  | .printPos => some (g, .consumer .printIndex i count,
      .load shmPosConsumer (g.mem shmPosConsumer))
  | .printIndex => some (g, .consumer (.printItem (g.mem shmPosConsumer)) i count,
      .load shmPosConsumer (g.mem shmPosConsumer))
  | .printItem pos => some (g, .consumer .incLoad i count,
      .load (shmBuffer + pos) (g.mem (shmBuffer + pos)))
  | .incLoad => some (g, .consumer (.incStore (g.mem shmPosConsumer)) i count,
      .load shmPosConsumer (g.mem shmPosConsumer))
  | .incStore tmp => some (g.write shmPosConsumer (tmp + 1), .consumer .stop i count,
      .store shmPosConsumer (tmp + 1))
  | .stop => (semop g.sems consumerStop).map fun sems =>
      ({ g with sems := sems }, .consumer .top (i + 1) count, .stop)
  | .exited => none

/-- `n` is the initial value of `SEM_EMPTY`; the counts are the arguments of `make_producer` and
`make_consumer`. -/
structure Setup where
  n : Nat
  producers : Nat
  consumers : Nat
  producerCount : Fin producers → Nat
  consumerCount : Fin consumers → Nat

abbrev Setup.Process (c : Setup) := Fin c.producers ⊕ Fin c.consumers

def mainSetup : Setup where
  n := 9
  producers := 3
  consumers := 2
  producerCount _ := 3
  consumerCount k := if k = 0 then 4 else 5

def mainStores : List (Int × Int) := [(shmPosProducer, 0), (shmPosConsumer, 0)]

def initialSems (n : Nat) : Sem → Nat
  | .binary => 1
  | .empty => n
  | .full => 0

def Setup.system (c : Setup) : System c.Process Shared Local Action where
  shared₀ := mainStores.foldl (fun g w => g.write w.1 w.2) ⟨initialSems c.n, fun _ => 0⟩
  locals₀ := Sum.elim (fun k => .producer .top 0 (c.producerCount k) 97)
    (fun k => .consumer .top 0 (c.consumerCount k))
  step _ g
    | .producer pc i count output => producer g i count output pc
    | .consumer pc i count => consumer g i count pc

abbrev State (c : Setup) := Config c.Process Shared Local Action

variable {ι κ : Type*}

def writtenItem : Action → Option Int
  | .store cell value => if shmBuffer ≤ cell then some value else none
  | _ => none

def loadedItem : Action → Option Int
  | .load cell value => if shmBuffer ≤ cell then some value else none
  | _ => none

def written (trace : List (ι × Action)) : List Int :=
  trace.filterMap fun e => writtenItem e.2

def consumed (trace : List ((ι ⊕ κ) × Action)) : List Int :=
  trace.filterMap fun e => if e.1.isRight then loadedItem e.2 else none

@[simp] theorem written_snoc (trace : List (ι × Action)) (k : ι) (a : Action) :
    written (trace ++ [(k, a)]) = written trace ++ (writtenItem a).toList := by
  simp only [written, List.filterMap_append, List.filterMap_cons, List.filterMap_nil]
  cases writtenItem a <;> rfl

@[simp] theorem consumed_snoc (trace : List ((ι ⊕ κ) × Action)) (k : ι ⊕ κ) (a : Action) :
    consumed (trace ++ [(k, a)]) =
      consumed trace ++ (if k.isRight then loadedItem a else none).toList := by
  simp only [consumed, List.filterMap_append, List.filterMap_cons, List.filterMap_nil]
  cases (if k.isRight then loadedItem a else none) <;> rfl

theorem writtenItem_item {pos value : Int} (nonneg : 0 ≤ pos) :
    writtenItem (.store (shmBuffer + pos) value) = some value := by
  have within : shmBuffer ≤ shmBuffer + pos := by omega
  simp only [writtenItem, within, ↓reduceIte]

theorem loadedItem_item {pos value : Int} (nonneg : 0 ≤ pos) :
    loadedItem (.load (shmBuffer + pos) value) = some value := by
  have within : shmBuffer ≤ shmBuffer + pos := by omega
  simp only [loadedItem, within, ↓reduceIte]

theorem semop_producerStart (sems : Sem → Nat) : semop sems producerStart =
    if 0 < sems .empty ∧ 0 < sems .binary then some (lower (lower sems .empty) .binary)
    else none := by
  simp only [producerStart, semop_lower, semop_nil]
  by_cases empty : 0 < sems .empty <;> by_cases binary : 0 < sems .binary <;> simp [empty, binary]

theorem semop_producerStop (sems : Sem → Nat) :
    semop sems producerStop = some (raise (raise sems .binary) .full) := by
  simp [producerStop]

theorem semop_consumerStart (sems : Sem → Nat) : semop sems consumerStart =
    if 0 < sems .full ∧ 0 < sems .binary then some (lower (lower sems .full) .binary)
    else none := by
  simp only [consumerStart, semop_lower, semop_nil]
  by_cases full : 0 < sems .full <;> by_cases binary : 0 < sems .binary <;> simp [full, binary]

theorem semop_consumerStop (sems : Sem → Nat) :
    semop sems consumerStop = some (raise (raise sems .binary) .empty) := by
  simp [consumerStop]

end OsUnix.BoundedBuffer
