import OsUnix.Fortune.Invariant
import OsUnix.Kernel.Strings

/-!
# The pot as a round-robin list of cookies

The cookies lie one after the other and `next_fortune` is where the one under the cursor begins,
unless the empty pot was read: a read advances `next_fortune` past the zero it found there, into the
first cookie to come.
-/

namespace OsUnix.Fortune
open Kernel

/-! ## The list -/

structure RoundRobin where
  cookies : List (List UInt8)
  cursor : Nat
deriving DecidableEq, Repr

namespace RoundRobin

/-- A cursor behind the last cookie waits there for another one; a read starts over. -/
def position (list : RoundRobin) : Nat :=
  if list.cursor ≥ list.cookies.length then 0 else list.cursor

def current (list : RoundRobin) : List UInt8 := (list.cookies[list.position]?).getD []

theorem position_lt {list : RoundRobin} (nonempty : list.cookies ≠ []) :
    list.position < list.cookies.length := by
  have some_cookie := List.length_pos_iff.mpr nonempty
  unfold position
  split <;> omega

theorem current_eq {list : RoundRobin} (nonempty : list.cookies ≠ []) :
    list.current = list.cookies.get ⟨list.position, position_lt nonempty⟩ := by
  rw [current, List.getElem?_eq_getElem (position_lt nonempty)]
  rfl

theorem current_of_empty {list : RoundRobin} (empty : list.cookies = []) : list.current = [] := by
  rw [current, empty]
  rfl

theorem current_length_le (list : RoundRobin) :
    list.current.length ≤ (layout list.cookies).length := by
  by_cases empty : list.cookies = []
  · rw [current_of_empty empty]
    exact Nat.zero_le _
  · rw [current_eq empty]
    exact length_le_layout (List.get_mem _ _)

def add (list : RoundRobin) (cookie : List UInt8) : RoundRobin :=
  { list with cookies := list.cookies ++ [cookie] }

def advance (list : RoundRobin) : RoundRobin :=
  { list with cursor := if list.cookies = [] then 0 else list.position + 1 }

end RoundRobin

inductive Outcome
  | refused
  | accepted
  | bytes (bytes : List UInt8)
deriving DecidableEq, Repr

def Answer.outcome : Answer → Outcome
  | .wrote write => if write.ret < 0 then .refused else .accepted
  | .gave read => .bytes read.copy.accesses.bytes

def roundRobin : Component RoundRobin Op Outcome where
  start := ⟨[], 0⟩
  step list
    | .write buf len =>
        if 1 ≤ len ∧ len ≤ buf.length ∧ 0 ∉ buf.take (len - 1) ∧
            (layout list.cookies).length + len ≤ maxCookieLength then
          some (list.add (buf.take (len - 1)), .accepted)
        else none
    | .read ppos len room =>
        if ppos = 0 ∧ list.current.length + 1 ≤ len ∧ list.current.length + 1 ≤ room then
          some (list.advance, .bytes (list.current ++ [0]))
        else none

def Faithful (outside : Memory) (ops : List Op) : Prop :=
  ∀ list outcomes, roundRobin.exec roundRobin.start ops = some (list, outcomes) →
    ∃ pot answers, (component outside).exec (Pot.fresh outside) ops = some (pot, answers) ∧
      answers.map Answer.outcome = outcomes

def Unread (pot : Pot) : Op → Pot → Answer → Prop
  | .write _ _, _, _ => pot.cookieIndex = 0 → pot.nextFortune = 0
  | .read _ _ _, _, _ => True

/-! ## How the pot holds the list -/

structure Holds (list : RoundRobin) (pot : Pot) : Prop where
  sound : Sound pot
  index : pot.cookieIndex = (layout list.cookies).length
  le : (layout list.cookies).length ≤ maxCookieLength
  bytes : pot.cookiePot.slice 0 (layout list.cookies).length = layout list.cookies
  free : ∀ c ∈ list.cookies, 0 ∉ c
  cursor : list.cursor ≤ list.cookies.length
  next : list.cookies ≠ [] →
    pot.nextFortune = (layout (list.cookies.take list.cursor)).length
  empty : list.cookies = [] → pot.cookiePot 0 = 0 ∧ pot.nextFortune ≤ 1

variable {pot : Pot} {list : RoundRobin} {buf : List UInt8} {len room : Nat} {outside : Memory}

theorem Holds.start : Holds roundRobin.start (Pot.fresh outside) where
  sound := Sound.fresh
  index := rfl
  le := Nat.zero_le _
  bytes := rfl
  free := List.forall_mem_nil _
  cursor := Nat.le_refl 0
  next nonempty := absurd rfl nonempty
  empty _ := ⟨by simp [Pot.fresh, maxCookieLength], by show (0 : Int) ≤ 1; decide⟩

theorem Holds.index_eq_zero (holds : Holds list pot) :
    pot.cookieIndex = 0 ↔ list.cookies = [] := by
  rw [holds.index, Int.natCast_eq_zero]
  constructor
  · exact layout_eq_nil
  · intro empty
    rw [empty]
    rfl

/-! ## Writes -/

theorem Holds.write (holds : Holds list pot) (positive : 1 ≤ len) (whole : len ≤ buf.length)
    (free : 0 ∉ buf.take (len - 1)) (fits : (layout list.cookies).length + len ≤ maxCookieLength)
    (unread : pot.cookieIndex = 0 → pot.nextFortune = 0) :
    (fortuneWrite pot buf len).ret = len ∧
      Holds (list.add (buf.take (len - 1))) (fortuneWrite pot buf len).pot := by
  have sound := holds.sound
  have index := holds.index
  have room : len ≤ maxCookieLength - pot.cookieIndex + 1 := by omega
  have length : (layout (list.cookies ++ [buf.take (len - 1)])).length =
      (layout list.cookies).length + len := by
    rw [layout_concat]
    simp only [List.length_append, List.length_take, List.length_singleton]
    omega
  rw [fortuneWrite_accepted sound room whole]
  refine ⟨rfl, sound.accepted room buf, ?_, ?_, ?_, ?_, ?_, fun _ => ?_, fun empty => ?_⟩
  · rw [terminate_cookieIndex, accepted_index sound room, index, RoundRobin.add, length]
    omega
  · rw [RoundRobin.add, length]
    exact fits
  · have old : ((pot.copy buf len).add len).terminate.cookiePot.slice 0
        (layout list.cookies).length = layout list.cookies := by
      rw [← holds.bytes, Memory.length_slice]
      exact Memory.slice_congr fun i lower upper =>
        accepted_below sound room buf (by omega) (by omega)
    have new := accepted_slice sound room positive whole
    rw [RoundRobin.add, length, layout_concat, Memory.slice_add, old, Int.zero_add, ← index, new]
  · exact List.forall_mem_append.mpr ⟨holds.free, List.forall_mem_singleton.mpr free⟩
  · rw [RoundRobin.add, List.length_append]
    exact Nat.le_add_right_of_le holds.cursor
  · show pot.nextFortune = (layout ((list.cookies ++ [_]).take list.cursor)).length
    rw [List.take_append_of_le_length holds.cursor]
    by_cases empty : list.cookies = []
    · rw [unread (holds.index_eq_zero.mpr empty), empty, List.take_nil]
      rfl
    · exact holds.next empty
  · simp [RoundRobin.add] at empty

/-! ## Reads -/

theorem Holds.start_eq (holds : Holds list pot) :
    pot.start = (layout (list.cookies.take list.position)).length := by
  have cursor := holds.cursor
  by_cases empty : list.cookies = []
  · rw [start_eq_zero holds.sound (holds.index_eq_zero.mpr empty), empty, List.take_nil]
    rfl
  · have next := holds.next empty
    rw [Pot.start, RoundRobin.position, holds.index, next]
    by_cases last : list.cursor ≥ list.cookies.length
    · rw [if_pos last, List.take_of_length_le last, if_pos (Int.le_refl _)]
      rfl
    · have lt := length_layout_take_lt (Nat.lt_of_not_le last)
      rw [if_neg last, if_neg (by omega)]

theorem Holds.slice_current (holds : Holds list pot) :
    0 ∉ list.current ∧
      pot.cookiePot.slice pot.start (list.current.length + 1) = list.current ++ [0] := by
  by_cases empty : list.cookies = []
  · rw [RoundRobin.current_of_empty empty,
      start_eq_zero holds.sound (holds.index_eq_zero.mpr empty)]
    exact ⟨List.not_mem_nil, congrArg (fun b => [b]) (holds.empty empty).1⟩
  · rw [RoundRobin.current_eq empty, holds.start_eq]
    exact ⟨holds.free _ (List.get_mem _ _), slice_layout holds.bytes _⟩

theorem Holds.atStart (holds : Holds list pot) : AtStart pot list.current.length := by
  obtain ⟨free, slice⟩ := holds.slice_current
  obtain ⟨n, string⟩ := exists_atStart holds.sound
  have small : list.current.length < Memory.addressSpace := by
    have le := holds.le
    have short := list.current_length_le
    unfold maxCookieLength Memory.addressSpace at *
    omega
  have str := Memory.strlen_of_slice slice free small
  rw [string.strlen] at str
  rwa [← Option.some.inj str]

theorem Holds.advance (holds : Holds list pot) :
    Holds list.advance { pot with nextFortune := pot.start + (list.current.length + 1 : Nat) } := by
  have nonneg := start_nonneg holds.sound
  refine { holds with
    sound := { holds.sound with next_nonneg := by dsimp only; omega }
    cursor := ?_, next := fun nonempty => ?_, empty := fun empty => ?_ }
  · show (if list.cookies = [] then 0 else list.position + 1) ≤ list.cookies.length
    split
    · exact Nat.zero_le _
    · rename_i nonempty
      exact RoundRobin.position_lt nonempty
  · have nonempty : list.cookies ≠ [] := nonempty
    have inside := RoundRobin.position_lt nonempty
    have succ := layout_take_succ inside
    have length : list.current.length = list.cookies[list.position].length :=
      congrArg List.length (RoundRobin.current_eq nonempty)
    have cursor : list.advance.cursor = list.position + 1 := if_neg nonempty
    show pot.start + (list.current.length + 1 : Nat) =
      (layout (list.cookies.take list.advance.cursor)).length
    rw [cursor, succ, holds.start_eq, length]
    omega
  · have empty : list.cookies = [] := empty
    refine ⟨(holds.empty empty).1, ?_⟩
    show pot.start + (list.current.length + 1 : Nat) ≤ 1
    rw [start_eq_zero holds.sound (holds.index_eq_zero.mpr empty),
      RoundRobin.current_of_empty empty]
    decide

theorem Holds.read (holds : Holds list pot) (long : list.current.length + 1 ≤ len)
    (fits : list.current.length + 1 ≤ room) : ∃ read,
      (component outside).step pot (.read 0 len room) = some (read.pot, .gave read) ∧
        read.copy.accesses.bytes = list.current ++ [0] ∧ Holds list.advance read.pot := by
  have whole : wanted list.current.length len = list.current.length + 1 := Nat.min_eq_left long
  refine ⟨⟨_, _, _, _⟩, step_first holds.sound holds.atStart (Int.le_refl 0), ?_, ?_⟩
  · dsimp only
    rw [whole, bytes_copyToUser fits]
    exact holds.slice_current.2
  · dsimp only
    rw [whole, if_pos fits]
    exact holds.advance

/-! ## Runs -/

theorem simulation : Component.Simulation roundRobin (component outside)
    (fun pot op next answer => Unread pot op next answer) Holds id Answer.outcome := by
  constructor
  intro list pot op list' outcome holds step
  cases op with
  | write buf len =>
      obtain ⟨⟨positive, whole, free, fits⟩, eq⟩ := Option.ite_none_right_eq_some.mp step
      cases eq
      refine ⟨_, _, rfl, fun unread => ?_⟩
      obtain ⟨ret, holds⟩ := holds.write positive whole free fits unread
      refine ⟨?_, holds⟩
      show (if (fortuneWrite pot buf len).ret < 0 then _ else _) = _
      rw [ret, if_neg (by omega)]
      rfl
  | read ppos len room =>
      obtain ⟨⟨rfl, long, fits⟩, eq⟩ := Option.ite_none_right_eq_some.mp step
      cases eq
      obtain ⟨read, step, bytes, holds⟩ := holds.read long fits
      exact ⟨_, _, step, fun _ => ⟨congrArg Outcome.bytes bytes, holds⟩⟩

theorem faithful_of_unread {ops : List Op}
    (unread : (component outside).Always Unread (Pot.fresh outside) ops) :
    Faithful outside ops := by
  intro list outcomes run
  obtain ⟨pot, answers, run, same, -⟩ := simulation.exec Holds.start unread run
  exact ⟨pot, answers, run, by rw [same, List.map_id]⟩

/-! ## A write to an empty pot that was read -/

def Differs (outside : Memory) (list : RoundRobin) (pot : Pot) (more : List Op) : Prop :=
  ∃ list' outcomes, roundRobin.exec list more = some (list', outcomes) ∧
    ∀ pot' answers, (component outside).exec pot more = some (pot', answers) →
      answers.map Answer.outcome ≠ outcomes

theorem Differs.read {n : Nat} (long : list.current.length + 1 ≤ len) (sound : Sound pot)
    (string : AtStart pot n)
    (apart : pot.cookiePot.slice pot.start (wanted n len) ≠ list.current ++ [0]) :
    Differs outside list pot [.read 0 len len] := by
  have served : roundRobin.step list (.read 0 len len) =
      some (list.advance, .bytes (list.current ++ [0])) := if_pos ⟨rfl, long, long⟩
  refine ⟨_, _, Component.exec_cons served rfl, fun pot' answers run same => ?_⟩
  obtain ⟨t, answer, rest, step, last, rfl⟩ := Component.exec_eq_some.mp run
  rw [step_first sound string (Int.le_refl 0)] at step
  cases step
  have bytes := (Outcome.bytes.inj (List.cons.inj same).1)
  exact apart ((bytes_copyToUser (Nat.min_le_right _ _)).symm.trans bytes)

theorem Differs.cons {outcome : Outcome} {list' : RoundRobin} {op : Op} {more : List Op}
    {pot' : Pot} {answer : Answer} (listed : roundRobin.step list op = some (list', outcome))
    (stored : (component outside).step pot op = some (pot', answer))
    (differs : Differs outside list' pot' more) : Differs outside list pot (op :: more) := by
  obtain ⟨last, outcomes, run, apart⟩ := differs
  refine ⟨last, outcome :: outcomes, Component.exec_cons listed run,
    fun pot'' answers run' same => ?_⟩
  obtain ⟨t, answer', answers', step, rest, rfl⟩ := Component.exec_eq_some.mp run'
  rw [stored] at step
  cases step
  exact apart _ _ rest (List.cons.inj same).2

theorem step_write (list : RoundRobin) (positive : 1 ≤ len) (whole : len ≤ buf.length)
    (free : 0 ∉ buf.take (len - 1)) (fits : (layout list.cookies).length + len ≤ maxCookieLength) :
    roundRobin.step list (.write buf len) = some (list.add (buf.take (len - 1)), .accepted) :=
  if_pos ⟨positive, whole, free, fits⟩

theorem differs_of_long (sound : Sound pot) (empty : pot.cookieIndex = 0)
    (next : pot.nextFortune = 1) (long : 2 ≤ len) (whole : len ≤ buf.length)
    (free : 0 ∉ buf.take (len - 1)) (fits : len ≤ maxCookieLength) :
    Differs outside ⟨[], 0⟩ pot [.write buf len, .read 0 len len] := by
  apply Differs.cons (step_write _ (by omega) whole free (by simpa using fits)) rfl
  have room : len ≤ maxCookieLength - pot.cookieIndex + 1 := by omega
  have index := accepted_index sound room buf
  have length : (buf.take (len - 1)).length + 1 = len := by
    rw [List.length_take]
    omega
  rw [fortuneWrite_accepted sound room whole]
  have sound' := sound.accepted room buf
  have start : ((pot.copy buf len).add len).terminate.start = 1 := by
    rw [start_eq_next]
    · exact next
    · show pot.nextFortune < ((pot.copy buf len).add len).cookieIndex
      omega
  obtain ⟨n, string⟩ := exists_atStart sound'
  have within := string.within (by rw [terminate_cookieIndex]; omega)
  rw [start, terminate_cookieIndex] at within
  refine Differs.read (le_of_eq length) sound' string fun same => ?_
  have lengths := congrArg List.length same
  have short : wanted n len ≤ n + 1 := Nat.min_le_left _ _
  have current : RoundRobin.current (RoundRobin.add ⟨[], 0⟩ (buf.take (len - 1))) =
      buf.take (len - 1) := rfl
  rw [Memory.length_slice, current, List.length_append, List.length_singleton, length] at lengths
  omega

theorem differs_of_second (sound : Sound pot) (one : pot.cookieIndex = 1)
    (next : pot.nextFortune = 1) :
    Differs outside ⟨[[]], 0⟩ pot [.write [97, 0] 2, .read 0 2 2] := by
  apply Differs.cons (step_write _ (by decide) (by decide) (by decide) (by decide)) rfl
  have room : ((2 : Nat) : Int) ≤ maxCookieLength - pot.cookieIndex + 1 := by
    rw [one]
    decide
  have index := accepted_index sound room [97, 0]
  have stored := accepted_slice sound room (by decide) (show 2 ≤ [97, 0].length by decide)
  rw [fortuneWrite_accepted sound room (by decide)]
  have sound' := sound.accepted room [97, 0]
  have start : ((pot.copy [97, 0] 2).add (2 : Nat)).terminate.start = 1 := by
    rw [start_eq_next]
    · exact next
    · show pot.nextFortune < ((pot.copy [97, 0] 2).add (2 : Nat)).cookieIndex
      omega
  obtain ⟨n, string⟩ := exists_atStart sound'
  refine Differs.read (by decide) sound' string fun same => ?_
  have some_byte : 0 < wanted n 2 := Nat.lt_min.mpr ⟨n.succ_pos, by decide⟩
  have byte := congrArg (·[0]?) same
  have stored_byte := congrArg (·[0]?) stored
  rw [one] at stored_byte
  simp only [start, Memory.getElem?_slice some_byte] at byte
  simp only [Memory.getElem?_slice (show 0 < 2 by decide)] at stored_byte
  rw [stored_byte] at byte
  revert byte
  decide

theorem differs_of_empty (sound : Sound pot) (empty : pot.cookieIndex = 0)
    (next : pot.nextFortune = 1) (whole : 1 ≤ buf.length) :
    Differs outside ⟨[], 0⟩ pot [.write buf 1, .write [97, 0] 2, .read 0 2 2] := by
  apply Differs.cons (step_write _ (Nat.le_refl 1) whole List.not_mem_nil (by decide)) rfl
  have room : ((1 : Nat) : Int) ≤ maxCookieLength - pot.cookieIndex + 1 := by
    rw [empty]
    decide
  rw [fortuneWrite_accepted sound room whole]
  apply differs_of_second (sound.accepted room buf) _ next
  rw [terminate_cookieIndex, accepted_index sound room, empty]
  rfl

theorem exists_differs (holds : Holds list pot) (empty : pot.cookieIndex = 0)
    (read_before : pot.nextFortune ≠ 0) (positive : 1 ≤ len) (whole : len ≤ buf.length)
    (free : 0 ∉ buf.take (len - 1)) (fits : (layout list.cookies).length + len ≤ maxCookieLength) :
    ∃ more, Differs outside list pot (.write buf len :: more) := by
  have none := holds.index_eq_zero.mp empty
  have nonneg := holds.sound.next_nonneg
  have le := (holds.empty none).2
  have next : pot.nextFortune = 1 := by omega
  have start : list = ⟨[], 0⟩ := by
    have cursor := holds.cursor
    cases list
    simp_all
  subst start
  by_cases long : 2 ≤ len
  · exact ⟨_, differs_of_long holds.sound empty next long whole free (by simpa using fits)⟩
  · obtain rfl : len = 1 := by omega
    exact ⟨_, differs_of_empty holds.sound empty next whole⟩

theorem Differs.not_faithful {before more : List Op} {seen : List Outcome} {answers : List Answer}
    (listed : roundRobin.exec roundRobin.start before = some (list, seen))
    (stored : (component outside).exec (Pot.fresh outside) before = some (pot, answers))
    (same : answers.map Answer.outcome = seen) (differs : Differs outside list pot more) :
    ¬ Faithful outside (before ++ more) := by
  intro faithful
  obtain ⟨last, outcomes, run, apart⟩ := differs
  obtain ⟨_, _, whole, eq⟩ := faithful _ _ (Component.exec_append listed run)
  obtain ⟨_, _, rest, before_run, more_run, rfl⟩ := Component.exec_split whole
  rw [stored] at before_run
  cases before_run
  rw [List.map_append, same] at eq
  exact apart _ _ more_run (List.append_cancel_left eq)

/-- Every sequence of calls that does not write to an empty pot after reading it is served from the
list; one that does can be continued, from that write on, to a wrong answer. -/
theorem roundRobin_of_unread (outside : Memory) (ops : List Op) :
    ((component outside).Always Unread (Pot.fresh outside) ops → Faithful outside ops) ∧
    ((roundRobin.exec roundRobin.start ops).isSome →
      ¬ (component outside).Always Unread (Pot.fresh outside) ops →
      ∃ before more, before <+: ops ∧ ¬ Faithful outside (before ++ more)) := by
  refine ⟨faithful_of_unread, fun valid broken => ?_⟩
  obtain ⟨before, op, after, pot, _, _, _, rfl, run, unread, _, breaks⟩ :=
    Component.exists_first_break broken
  obtain ⟨_, listed⟩ := Option.isSome_iff_exists.mp valid
  obtain ⟨list, seen, _, first, tail, -⟩ := Component.exec_split listed
  obtain ⟨_, answers, stored, same, holds⟩ := simulation.exec Holds.start unread first
  rw [run] at stored
  cases stored
  cases op with
  | read ppos len room => exact absurd trivial breaks
  | write buf len =>
      obtain ⟨empty, read_before⟩ := Classical.not_imp.mp breaks
      obtain ⟨_, _, _, step, -, -⟩ := Component.exec_eq_some.mp tail
      obtain ⟨⟨positive, whole, free, fits⟩, -⟩ := Option.ite_none_right_eq_some.mp step
      obtain ⟨more, differs⟩ := exists_differs holds empty read_before positive whole free fits
      refine ⟨before ++ [.write buf len], more, ⟨after, by simp⟩, ?_⟩
      rw [List.append_assoc, List.singleton_append]
      exact differs.not_faithful first run (by rw [same, List.map_id])

theorem roundRobin_fails :
    ¬ Faithful 0 [.read 0 9 9, .write [97, 98, 0] 3, .read 0 9 9] := by
  intro faithful
  obtain ⟨pot, answers, run, same⟩ := faithful _ _ rfl
  cases run
  revert same
  decide

end OsUnix.Fortune
