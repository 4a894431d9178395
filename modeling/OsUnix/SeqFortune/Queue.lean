import OsUnix.Kernel.Strings
import OsUnix.SeqFortune.Model

/-!
# The pot as a queue

`my_show` is meant to take the oldest cookie off a queue. The pot represents the queue by the
cookies one after the other, those shown up to `read_index` and those waiting up to `write_index`.
-/

namespace OsUnix.SeqFortune
open Kernel

structure Queue where
  shown : List (List UInt8)
  waiting : List (List UInt8)

namespace Queue

def empty : Queue := ⟨[], []⟩

def push (queue : Queue) (cookie : List UInt8) : Queue :=
  { queue with waiting := queue.waiting ++ [cookie] }

def pop (queue : Queue) : Queue :=
  match queue.waiting with
  | [] => queue
  | cookie :: rest => ⟨queue.shown ++ [cookie], rest⟩

def next (queue : Queue) : List UInt8 := queue.waiting.headD []

def record (queue : Queue) : Op → Queue
  | .write buffer count =>
      if count ≤ buffer.length then queue.push (buffer.take (count - 1)) else queue
  | .show => queue.pop

def cookies (queue : Queue) : List (List UInt8) := queue.shown ++ queue.waiting

variable {queue : Queue} {cookie : List UInt8}

@[simp] theorem cookies_push : (queue.push cookie).cookies = queue.cookies ++ [cookie] :=
  (List.append_assoc ..).symm

@[simp] theorem cookies_pop : queue.pop.cookies = queue.cookies := by
  obtain ⟨shown, waiting⟩ := queue
  cases waiting with
  | nil => rfl
  | cons cookie rest => exact List.append_assoc ..

end Queue

def tracked (outside : Memory) : Component (Pot × Queue) Op Answer :=
  (component outside).tracking .empty Queue.record

def Valid (s : Pot × Queue) : Op → Prop
  | .write buffer count => 1 ≤ count ∧ (count ≤ buffer.length →
      0 ∉ buffer.take (count - 1) ∧ s.1.writeIndex + count ≤ cookiePotSize)
  | .show => True

def Ready (s : Pot × Queue) : Op → Prop
  | .write _ _ => True
  | .show => s.1.str s.1.readIndex = 0 ↔ s.1.readIndex = s.1.writeIndex

structure Represents (pot : Pot) (queue : Queue) : Prop where
  writeIndex : pot.writeIndex = (layout queue.cookies).length
  readIndex : pot.readIndex = (layout queue.shown).length
  bytes : pot.str.slice 0 (layout queue.cookies).length = layout queue.cookies
  small : (layout queue.cookies).length ≤ cookiePotSize
  free : ∀ cookie ∈ queue.cookies, 0 ∉ cookie

variable {s t : Pot × Queue} {pot : Pot} {queue : Queue} {buffer cookie : List UInt8}
  {rest : List (List UInt8)} {count n : Nat} {op : Op} {answer : Answer} {outside : Memory}
  {ops : List Op} {shown : Show}

theorem Represents.fresh : Represents (.fresh outside) .empty where
  writeIndex := rfl
  readIndex := rfl
  bytes := rfl
  small := Nat.zero_le _
  free := List.forall_mem_nil _

/-! ## Writes -/

theorem myWrite_failed (short : buffer.length < count) :
    myWrite pot buffer count = ⟨{ pot with
      str := pot.str.store (copyFromUser pot.writeIndex buffer count).accesses }, -efault,
      (copyFromUser pot.writeIndex buffer count).accesses⟩ :=
  if_pos fun left => Nat.not_le.mpr short (copyFromUser_left.mp left)

theorem myWrite_accepted (nonneg : 0 ≤ pot.writeIndex) (positive : 0 < pot.writeIndex + count)
    (fits : pot.writeIndex + count ≤ cookiePotSize) (whole : count ≤ buffer.length) :
    myWrite pot buffer count = ⟨{ pot with
        str := (pot.str.store (copyFromUser pot.writeIndex buffer count).accesses).store
          [(pot.writeIndex + count - 1, 0)]
        writeIndex := pot.writeIndex + count }, count,
      (copyFromUser pot.writeIndex buffer count).accesses ++
        [(pot.writeIndex + count - 1, 0)]⟩ := by
  unfold cookiePotSize at fits
  have index : toUnsigned (toSize (pot.writeIndex + count)) = pot.writeIndex + count := by
    rw [toSize_eq (by omega) (by omega), toUnsigned_eq (by omega) (by omega)]
  have last : toUnsigned (pot.writeIndex + count - 1) = pot.writeIndex + count - 1 :=
    toUnsigned_eq (by omega) (by omega)
  have ret : toSsize count = count := toSsize_eq (by omega) (by omega)
  unfold myWrite
  rw [if_neg (not_not.mpr (copyFromUser_left.mpr whole))]
  simp only [index, last, ret]

theorem Represents.failed (rep : Represents pot queue) (short : buffer.length < count) :
    Represents (myWrite pot buffer count).pot queue := by
  rw [myWrite_failed short]
  have index := rep.writeIndex
  refine ⟨index, rep.readIndex, ?_, rep.small, rep.free⟩
  exact (Memory.slice_store copyFromUser_within (.inl (by rw [Int.zero_add]; exact index.ge))).trans
    rep.bytes

theorem Represents.accepted (rep : Represents pot queue) (positive : 1 ≤ count)
    (fits : pot.writeIndex + count ≤ cookiePotSize) (whole : count ≤ buffer.length)
    (free : 0 ∉ buffer.take (count - 1)) :
    Represents (myWrite pot buffer count).pot (queue.push (buffer.take (count - 1))) := by
  have index := rep.writeIndex
  rw [myWrite_accepted (by omega) (by omega) fits whole]
  have length : (layout (queue.cookies ++ [buffer.take (count - 1)])).length =
      (layout queue.cookies).length + count := by
    rw [layout_concat, List.length_append, List.length_append, List.length_take,
      List.length_singleton]
    omega
  constructor
  · rw [Queue.cookies_push, length, Int.natCast_add, ← index]
  · exact rep.readIndex
  · show Memory.slice _ 0 _ = _
    rw [Queue.cookies_push, length, Memory.slice_add, layout_concat, Int.zero_add, ← index,
      slice_message positive whole]
    congr 1
    rw [Memory.slice_store (Accesses.within_singleton.mpr ⟨Int.le_refl _, Int.lt_succ _⟩)
      (.inl (by omega)), Memory.slice_store copyFromUser_within (.inl (by omega))]
    exact rep.bytes
  · rw [Queue.cookies_push, length]
    rw [index] at fits
    exact_mod_cast fits
  · rw [Queue.cookies_push]
    intro cookie mem
    rcases List.mem_append.mp mem with mem | mem
    · exact rep.free cookie mem
    · rwa [List.mem_singleton.mp mem]

theorem Represents.write (rep : Represents pot queue)
    (valid : Valid (pot, queue) (.write buffer count)) :
    Represents (myWrite pot buffer count).pot (queue.record (.write buffer count)) := by
  obtain ⟨positive, copied⟩ := valid
  by_cases whole : count ≤ buffer.length
  · obtain ⟨free, fits⟩ := copied whole
    rw [Queue.record, if_pos whole]
    exact rep.accepted positive fits whole free
  · rw [Queue.record, if_neg whole]
    exact rep.failed (Nat.lt_of_not_le whole)

/-! ## Shows -/

theorem cookies_of_waiting (waiting : queue.waiting = cookie :: rest) :
    queue.cookies = queue.shown ++ cookie :: rest := by rw [Queue.cookies, waiting]

theorem Represents.strlen (rep : Represents pot queue) (waiting : queue.waiting = cookie :: rest) :
    pot.str.strlen pot.readIndex = some cookie.length ∧
      pot.str.slice pot.readIndex cookie.length = cookie := by
  have bytes := rep.bytes
  have small := rep.small
  rw [cookies_of_waiting waiting] at bytes small
  rw [rep.readIndex]
  constructor
  · apply strlen_layout_middle bytes
    · exact rep.free cookie (by simp [cookies_of_waiting waiting])
    · exact Nat.lt_of_le_of_lt small (by decide)
  · have here := slice_layout_middle bytes
    rw [Memory.slice_add] at here
    exact List.append_inj_left' here rfl

theorem Represents.index_lt (rep : Represents pot queue)
    (waiting : queue.waiting = cookie :: rest) :
    pot.readIndex + cookie.length + 1 ≤ pot.writeIndex := by
  rw [rep.readIndex, rep.writeIndex, cookies_of_waiting waiting, layout_middle]
  simp only [List.length_append, List.length_singleton]
  omega

theorem Represents.caughtUp (rep : Represents pot queue) (waiting : queue.waiting = []) :
    pot.readIndex = pot.writeIndex := by
  rw [rep.readIndex, rep.writeIndex, Queue.cookies, waiting, List.append_nil]

theorem Represents.bounds (rep : Represents pot queue) : 0 ≤ pot.readIndex ∧
    0 ≤ pot.writeIndex ∧ pot.writeIndex ≤ cookiePotSize := by
  rw [rep.readIndex, rep.writeIndex]
  exact ⟨Int.natCast_nonneg _, Int.natCast_nonneg _, Int.ofNat_le.mpr rep.small⟩

theorem length_shown_pop (waiting : queue.waiting = cookie :: rest) :
    (layout queue.pop.shown).length = (layout queue.shown).length + cookie.length + 1 := by
  rw [Queue.pop, waiting, layout_concat, List.length_append, List.length_append,
    List.length_singleton, Nat.add_assoc]

theorem myShow_of_strlen (str : pot.str.strlen pot.readIndex = some n) (nonneg : 0 ≤ pot.readIndex)
    (small : pot.readIndex + n ≤ cookiePotSize) :
    myShow pot = some ⟨{ pot with
        readIndex := if n = 0 then pot.readIndex else pot.readIndex + n + 1 },
      pot.str.slice pot.readIndex n, printed pot.readIndex (pot.str.slice pot.readIndex n),
      pot.str.load pot.readIndex (n + 1)⟩ := by
  unfold cookiePotSize at small
  have len : toInt n = n := toInt_eq (by omega) (by omega)
  have next : toUnsigned (pot.readIndex + ((n : Int) + 1)) = pot.readIndex + n + 1 := by
    rw [toUnsigned_eq (by omega) (by omega), Int.add_assoc]
  rw [myShow, str, Option.map_some]
  simp only [len, next]
  by_cases zero : n = 0
  · simp [zero]
  · simp [zero]

theorem Represents.pop (rep : Represents pot queue) {index : Int}
    (readIndex : index = (layout queue.pop.shown).length) :
    Represents { pot with readIndex := index } queue.pop := by
  refine ⟨?_, readIndex, ?_, ?_, ?_⟩
  all_goals rw [Queue.cookies_pop]
  · exact rep.writeIndex
  · exact rep.bytes
  · exact rep.small
  · exact rep.free

theorem Represents.show (rep : Represents pot queue) (ready : Ready (pot, queue) .show) :
    ∃ shown, myShow pot = some shown ∧ shown.message = queue.next ∧
      shown.pot.readIndex = (layout queue.pop.shown).length ∧
      Represents shown.pot queue.pop := by
  have ready : pot.str pot.readIndex = 0 ↔ pot.readIndex = pot.writeIndex := ready
  obtain ⟨nonneg, -, le⟩ := rep.bounds
  have readIndex := rep.readIndex
  cases waiting : queue.waiting with
  | nil =>
      have caughtUp := rep.caughtUp waiting
      have str : pot.str.strlen pot.readIndex = some 0 := Memory.strlen_eq_some.mpr
        ⟨by decide, by simpa using ready.mpr caughtUp, fun k below => absurd below k.not_lt_zero⟩
      have pop : queue.pop = queue := by rw [Queue.pop, waiting]
      refine ⟨_, myShow_of_strlen str (by omega) (by omega), ?_, ?_, ?_⟩
      · rw [Queue.next, waiting]
        rfl
      · rw [pop]
        exact readIndex
      · rw [pop]
        exact rep
  | cons cookie rest =>
      obtain ⟨str, bytes⟩ := rep.strlen waiting
      have lt := rep.index_lt waiting
      have nonzero : pot.str pot.readIndex ≠ 0 := fun zero => by
        have := ready.mp zero
        omega
      have some_byte : cookie.length ≠ 0 := fun empty => by
        have zero := (Memory.strlen_eq_some.mp str).2.1
        rw [empty] at zero
        exact nonzero (by simpa using zero)
      have next : pot.readIndex + cookie.length + 1 = (layout queue.pop.shown).length := by
        rw [length_shown_pop waiting]
        omega
      refine ⟨_, myShow_of_strlen str (by omega) (by omega), ?_, ?_, ?_⟩
      · rw [Queue.next, waiting]
        exact bytes
      · rw [if_neg some_byte]
        exact next
      · rw [if_neg some_byte]
        exact rep.pop next

theorem Represents.ready (rep : Represents pot queue) (step : myShow pot = some shown)
    (message : shown.message = queue.next)
    (next : shown.pot.readIndex = (layout queue.pop.shown).length) : Ready (pot, queue) .show := by
  show pot.str pot.readIndex = 0 ↔ pot.readIndex = pot.writeIndex
  cases waiting : queue.waiting with
  | nil =>
      obtain ⟨n, str, eq⟩ := Option.map_eq_some_iff.mp step
      rw [← eq, Queue.next, waiting] at message
      have empty : n = 0 := by simpa using congrArg List.length message
      have zero := (Memory.strlen_eq_some.mp str).2.1
      rw [empty] at zero
      exact iff_of_true (by simpa using zero) (rep.caughtUp waiting)
  | cons cookie rest =>
      obtain ⟨str, -⟩ := rep.strlen waiting
      have lt := rep.index_lt waiting
      refine iff_of_false (fun zero => ?_) (by omega)
      -- an empty cookie leaves the index where it is
      have empty : cookie.length = 0 :=
        Nat.le_zero.mp (Memory.strlen_le str (by simpa using zero))
      obtain ⟨nonneg, -, le⟩ := rep.bounds
      rw [myShow_of_strlen str nonneg (by omega), if_pos empty] at step
      cases step
      have stays : pot.readIndex = (layout queue.pop.shown).length := next
      have readIndex := rep.readIndex
      rw [length_shown_pop waiting] at stays
      omega

/-! ## Runs -/

theorem Represents.index_le (rep : Represents pot queue) : pot.readIndex ≤ pot.writeIndex := by
  cases waiting : queue.waiting with
  | nil => exact (rep.caughtUp waiting).le
  | cons cookie rest =>
      have := rep.index_lt waiting
      omega

theorem step_write (step : (tracked outside).step s (.write buffer count) = some (t, answer)) :
    t = ((myWrite s.1 buffer count).pot, s.2.record (.write buffer count)) := by
  cases step
  rfl

def blocked : List Op := [.write [10] 1, .write [98, 10] 2, .show, .show]

end OsUnix.SeqFortune
