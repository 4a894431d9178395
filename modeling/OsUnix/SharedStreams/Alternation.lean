import OsUnix.SharedStreams.Model
import Mathlib.Data.List.Perm.Basic

/-!
# What the two streams print

While there is something to read the two buffers are equally full. So they are filled together, with
two blocks of the file, and emptied in turns.
-/

namespace OsUnix.SharedStreams
open Kernel

variable {α : Type*} {size n : Nat} {s t : State α} {xs ys file printed : List α}

def alternate : List α → List α → List α
  | [], ys => ys
  | x :: xs, [] => x :: xs
  | x :: xs, y :: ys => x :: y :: alternate xs ys

def pairs : List (List α) → List α
  | [] => []
  | [block] => block
  | first :: second :: rest => alternate first second ++ pairs rest

@[simp] theorem alternate_nil : alternate xs [] = xs := by cases xs <;> rfl

theorem alternate_perm (xs ys : List α) : (alternate xs ys).Perm (xs ++ ys) := by
  induction xs, ys using alternate.induct with
  | case1 ys => exact .refl _
  | case2 x xs => simp
  | case3 x xs y ys ih =>
      rw [alternate, List.cons_append]
      exact .cons x ((List.Perm.cons y ih).trans List.perm_middle.symm)

theorem pairs_perm (blocks : List (List α)) : (pairs blocks).Perm blocks.flatten := by
  induction blocks using pairs.induct with
  | case1 => exact .refl _
  | case2 block => simp [pairs]
  | case3 first second rest ih =>
      rw [pairs, List.flatten_cons, List.flatten_cons, ← List.append_assoc]
      exact (alternate_perm first second).append ih

def pending (size : Nat) (s : State α) : List α :=
  alternate s.fs1.buffer s.fs2.buffer ++ pairs (blocks size s.file)

structure Level (s : State α) : Prop where
  closed1 : s.fs1.eof = true → s.fs1.buffer = [] ∧ s.file = []
  closed2 : s.fs2.eof = true → s.fs2.buffer = [] ∧ s.file = []
  level : s.file ≠ [] → s.fs1.buffer.length = s.fs2.buffer.length

structure Iterated (size : Nat) (s t : State α) (printed : List α) : Prop where
  out : t.out = s.out ++ printed
  pending : printed ++ pending size t = SharedStreams.pending size s
  level : Level t
  running : t.Running ↔ printed ≠ []
  done : printed = [] → SharedStreams.pending size s = []

theorem Level.start (file : List α) : Level (.start file) := ⟨nofun, nofun, fun _ => rfl⟩

theorem iterated_buffered (level : Level s) (some_element : s.fs1.buffer ≠ [] ∨ s.fs2.buffer ≠ []) :
    ∃ printed, Iterated size s (s.iterate size) printed := by
  obtain ⟨⟨first, eof1⟩, ⟨second, eof2⟩, file, flag1, flag2, out⟩ := s
  obtain ⟨closed1, closed2, same⟩ := level
  dsimp only at closed1 closed2 same some_element
  cases first with
  | nil =>
      cases second with
      | nil => simp at some_element
      | cons y ys =>
          have ended : file = [] := by
            by_contra more
            simpa using same more
          subst ended
          refine ⟨[y], ?_⟩
          simp only [State.iterate, next_ended, next_buffered]
          exact ⟨by simp, rfl, ⟨fun _ => ⟨rfl, rfl⟩, fun eof => by simpa using closed2 eof, nofun⟩,
            by simp [State.Running, flag], nofun⟩
  | cons x xs =>
      cases second with
      | nil =>
          have ended : file = [] := by
            by_contra more
            simpa using same more
          subst ended
          refine ⟨[x], ?_⟩
          simp only [State.iterate, next_ended, next_buffered]
          exact ⟨by simp, by simp [pending, alternate],
            ⟨fun eof => by simpa using closed1 eof, fun _ => ⟨rfl, rfl⟩, nofun⟩,
            by simp [State.Running, flag], nofun⟩
      | cons y ys =>
          refine ⟨[x, y], ?_⟩
          simp only [State.iterate, next_buffered]
          exact ⟨by simp, rfl, ⟨fun eof => by simpa using closed1 eof,
            fun eof => by simpa using closed2 eof, fun more => by simpa using same more⟩,
            by simp [State.Running, flag], nofun⟩

theorem iterated_ended (first : s.fs1.buffer = []) (second : s.fs2.buffer = [])
    (ended : s.file = []) : ∃ printed, Iterated size s (s.iterate size) printed := by
  obtain ⟨⟨_, eof1⟩, ⟨_, eof2⟩, _, flag1, flag2, out⟩ := s
  subst first second ended
  refine ⟨[], ?_⟩
  simp only [State.iterate, next_ended]
  exact ⟨by simp, rfl, ⟨fun _ => ⟨rfl, rfl⟩, fun _ => ⟨rfl, rfl⟩, nofun⟩,
    by simp [State.Running, flag], fun _ => by simp [pending, pairs]⟩

theorem iterated_filled (positive : 0 < size) (level : Level s) (first : s.fs1.buffer = [])
    (second : s.fs2.buffer = []) (more : s.file ≠ []) :
    ∃ printed, Iterated size s (s.iterate size) printed := by
  obtain ⟨⟨_, eof1⟩, ⟨_, eof2⟩, file, flag1, flag2, out⟩ := s
  obtain ⟨closed1, closed2, -⟩ := level
  subst first second
  dsimp only at closed1 closed2 more
  have open1 : eof1 = false := Bool.eq_false_iff.mpr fun eof => more (closed1 eof).2
  have open2 : eof2 = false := Bool.eq_false_iff.mpr fun eof => more (closed2 eof).2
  subst open1 open2
  obtain ⟨x, xs, block1, read1⟩ := next_filled more positive
  by_cases last : file.drop size = []
  · refine ⟨[x], ?_⟩
    have whole : file = x :: xs := by
      rw [← block1, List.take_of_length_le (List.drop_eq_nil_iff.mp last)]
    simp only [State.iterate, read1, last, next_ended]
    refine ⟨by simp, ?_, ⟨nofun, fun _ => ⟨rfl, rfl⟩, nofun⟩, by simp [State.Running, flag], nofun⟩
    rw [pending, pending, blocks_of_ne_nil more positive, last, block1]
    simp [alternate, pairs]
  · obtain ⟨y, ys, block2, read2⟩ := next_filled last positive
    refine ⟨[x, y], ?_⟩
    simp only [State.iterate, read1, read2]
    refine ⟨by simp, ?_, ⟨nofun, nofun, fun later => ?_⟩, by simp [State.Running, flag], nofun⟩
    · rw [pending, pending, blocks_of_ne_nil more positive, blocks_of_ne_nil last positive, block1,
        block2]
      rfl
    · -- with a third block both of these are full
      have full := congrArg List.length block1
      have full' := congrArg List.length block2
      have behind := List.length_pos_iff.mpr later
      simp only [List.length_take, List.length_drop, List.length_cons] at full full' behind
      show xs.length = ys.length
      omega

theorem exists_iterated (positive : 0 < size) (level : Level s) :
    ∃ printed, Iterated size s (s.iterate size) printed := by
  by_cases first : s.fs1.buffer = []
  · by_cases second : s.fs2.buffer = []
    · by_cases more : s.file = []
      · exact iterated_ended first second more
      · exact iterated_filled positive level first second more
    · exact iterated_buffered level (.inr second)
  · exact iterated_buffered level (.inl first)

theorem exists_loop (positive : 0 < size) (level : Level s) (running : s.Running) :
    ∃ n t, loop size n s = some t ∧ t.out = s.out ++ pending size s := by
  induction length : (pending size s).length using Nat.strongRecOn generalizing s with
  | ind k ih =>
      obtain ⟨printed, iterated⟩ := exists_iterated positive level
      by_cases done : printed = []
      · have stopped : ¬ (s.iterate size).Running := fun again => iterated.running.mp again done
        refine ⟨2, s.iterate size, ?_, ?_⟩
        · rw [loop, if_pos running, loop, if_neg stopped]
        · rw [iterated.out, done, iterated.done done]
      · have again : (s.iterate size).Running := iterated.running.mpr done
        have less : (pending size (s.iterate size)).length < k := by
          have positive := List.length_pos_iff.mpr done
          rw [← length, ← iterated.pending, List.length_append]
          omega
        obtain ⟨n, t, run, out⟩ := ih _ less iterated.level again rfl
        refine ⟨n + 1, t, ?_, ?_⟩
        · rw [loop, if_pos running, run]
        · rw [out, iterated.out, List.append_assoc, iterated.pending]

/-- The loop ends, and has printed the blocks of the file pair by pair in turns, each of its bytes
once. -/
theorem prints_pairs (positive : 0 < size) (file : List α) :
    ∃ n t, loop size n (.start file) = some t ∧ t.out = pairs (blocks size file) ∧
      t.out.Perm file := by
  obtain ⟨n, t, run, out⟩ := exists_loop positive (Level.start file) (.inl rfl)
  have printed : t.out = pairs (blocks size file) := out
  refine ⟨n, t, run, printed, ?_⟩
  have once := pairs_perm (blocks size file)
  rwa [flatten_blocks positive, ← printed] at once

theorem prints_pairs_seven : ∃ n t, loop 2 n (.start [1, 2, 3, 4, 5, 6, (7 : UInt8)]) = some t ∧
    t.out = [1, 3, 2, 4, 5, 7, 6] ∧ t.out.Perm [1, 2, 3, 4, 5, 6, 7] := by
  obtain ⟨n, t, run, out, once⟩ := @prints_pairs _ 2 (by decide) [1, 2, 3, 4, 5, 6, (7 : UInt8)]
  exact ⟨n, t, run, out.trans (by simp [blocks, pairs, alternate]), once⟩

end OsUnix.SharedStreams
